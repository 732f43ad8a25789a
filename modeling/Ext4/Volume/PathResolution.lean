import Mathlib.Data.List.TakeWhile
import Ext4.Volume.Lookup

/-! `lookupPathFrom`, call by call, on path strings.
Following a symlink puts the target in front of what is left and counts a hop; entering a directory
takes a component off the path. Every lookup ends for that reason, whatever the image holds. A
trailing slash of a target meets the slash in front of the remainder, and only one slash is dropped
per call: that is where lookups through links and lookups of their targets differ. -/

namespace Ext4.Volume

inductive Answer where
  | link (target : Path)
  | node (ino : Nat)

/-- What lookups see of an image: `readInode`, and the entry of a directory. -/
structure Tree where
  read : Nat → Except Err Unit
  look : Nat → Name → Except Err Answer

def trimPrefix : Path → Path
  | [] => []
  | c :: rest => if c = '/' then rest else c :: rest

def splitPath : Path → Name × Option Path
  | [] => ([], none)
  | c :: rest => if c = '/' then ([], some rest) else (c :: (splitPath rest).1, (splitPath rest).2)

inductive Next where
  | ended (result : Except Err Nat)
  | linked (ino : Nat) (path : Path)
  | entered (ino : Nat) (path : Path)

def nextPath (target : Path) : Option Path → Path
  | none => target
  | some rest => target ++ '/' :: rest

/-- The body of `lookupPathFrom` behind the count of the hops. -/
def Tree.next (x : Tree) (ino : Nat) (path : Path) : Next :=
  if trimPrefix path = [] then .ended ((x.read ino).map fun _ => ino)
  else
    match x.look ino (splitPath (trimPrefix path)).1 with
    | .error e => .ended (.error e)
    | .ok (.link target) =>
        let next := nextPath target (splitPath (trimPrefix path)).2
        .linked (if next.head? = some '/' then rootIno else ino) next
    | .ok (.node i) =>
        match (splitPath (trimPrefix path)).2 with
        | none => .ended (.ok i)
        | some rest => .entered i rest

theorem trimPrefix_length (path : Path) : (trimPrefix path).length ≤ path.length := by
  cases path with
  | nil => exact Nat.le_refl _
  | cons c rest =>
    rw [trimPrefix]
    split <;> simp

variable {rest : Path}

theorem splitPath_length {path : Path} (split : (splitPath path).2 = some rest) :
    rest.length < path.length := by
  induction path with
  | nil => cases split
  | cons c tail ih =>
    rw [splitPath] at split
    split at split
    · cases split
      exact Nat.lt_succ_self _
    · exact Nat.lt_succ_of_lt (ih split)

theorem Tree.next_spec (x : Tree) (ino : Nat) (path : Path) :
    match x.next ino path with
    | .ended (.error _) => True
    | .ended (.ok i) => trimPrefix path = [] ∨
        x.look ino (splitPath (trimPrefix path)).1 = .ok (.node i) ∧ (splitPath (trimPrefix path)).2 = none
    | .linked _ rest => ∃ target, x.look ino (splitPath (trimPrefix path)).1 = .ok (.link target) ∧
        rest = nextPath target (splitPath (trimPrefix path)).2
    | .entered i rest => x.look ino (splitPath (trimPrefix path)).1 = .ok (.node i) ∧
        (splitPath (trimPrefix path)).2 = some rest := by
  by_cases trimmed : trimPrefix path = []
  · rw [Tree.next, if_pos trimmed]
    cases x.read ino with
    | error e => trivial
    | ok _ => exact .inl trimmed
  · rw [Tree.next, if_neg trimmed]
    cases looked : x.look ino (splitPath (trimPrefix path)).1 with
    | error e => trivial
    | ok answer =>
      cases answer with
      | link target => exact ⟨target, rfl, rfl⟩
      | node i =>
        cases (splitPath (trimPrefix path)).2 with
        | none => exact .inr ⟨rfl, rfl⟩
        | some rest => exact ⟨rfl, rfl⟩

theorem Tree.next_entered {x : Tree} {ino i : Nat} {path : Path}
    (next : x.next ino path = .entered i rest) : rest.length < path.length := by
  have spec := x.next_spec ino path
  rw [next] at spec
  exact Nat.lt_of_lt_of_le (splitPath_length spec.2) (trimPrefix_length path)

inductive Refusal where
  | symlinkLoop
  | failed (e : Err)
  deriving DecidableEq

/-- A lookup: what it returns, how many calls it takes, how many links it follows, and the path of
its last call. -/
structure Trip where
  result : Except Refusal Nat
  calls : Nat
  links : Nat
  last : Path

def Tree.lookupPathFrom (x : Tree) (ino : Nat) (path : Path) (hops : Nat) : Trip :=
  if maxSymlinks < hops then ⟨.error .symlinkLoop, 1, 0, path⟩
  else
    match _next : x.next ino path with
    | .ended result => ⟨result.mapError .failed, 1, 0, path⟩
    | .linked i rest =>
        let trip := x.lookupPathFrom i rest (hops + 1)
        { trip with calls := trip.calls + 1, links := trip.links + 1 }
    | .entered i rest =>
        let trip := x.lookupPathFrom i rest hops
        { trip with calls := trip.calls + 1 }
termination_by (maxSymlinks + 1 - hops, path.length)
decreasing_by
  · exact Prod.Lex.left _ _ (by omega)
  · exact Prod.Lex.right _ (Tree.next_entered _next)

def Tree.lookupPath (x : Tree) (path : Path) : Trip := x.lookupPathFrom rootIno path 0

/-! ## Termination -/

def Tree.Calls (x : Tree) (made call : Nat × Path × Nat) : Prop :=
  call.2.2 ≤ maxSymlinks ∧
    (x.next call.1 call.2.1 = .linked made.1 made.2.1 ∧ made.2.2 = call.2.2 + 1 ∨
      x.next call.1 call.2.1 = .entered made.1 made.2.1 ∧ made.2.2 = call.2.2)

section
variable {x : Tree} {ino hops e : Nat} {path r : Path}

theorem Tree.calls_wellFounded (x : Tree) : WellFounded x.Calls := by
  have measure : WellFounded (InvImage (Prod.Lex (· < ·) (· < ·))
      fun call : Nat × Path × Nat => (maxSymlinks + 1 - call.2.2, call.2.1.length)) :=
    InvImage.wf _ (WellFounded.prod_lex wellFounded_lt wellFounded_lt)
  refine Subrelation.wf (fun {made call} calls => ?_) measure
  obtain ⟨within, ⟨_, hop⟩ | ⟨entered, same⟩⟩ := calls
  · exact Prod.Lex.left _ _ (by omega)
  · have shorter := Tree.next_entered entered
    simp only [InvImage, same]
    exact Prod.Lex.right _ shorter

theorem Tree.lookupPathFrom_links (within : hops ≤ maxSymlinks + 1) :
    hops + (x.lookupPathFrom ino path hops).links ≤ maxSymlinks + 1 := by
  fun_induction x.lookupPathFrom ino path hops with
  | case1 => exact within
  | case2 => exact within
  | case3 ino path hops few i rest next trip ih =>
    have : hops + 1 + trip.links ≤ maxSymlinks + 1 := ih (by omega)
    simp only
    omega
  | case4 ino path hops few i rest next trip ih => exact ih within

theorem Tree.lookupPathFrom_refused (within : hops ≤ maxSymlinks)
    (direct : (x.lookupPathFrom ino path hops).links = 0) :
    (x.lookupPathFrom ino path hops).result ≠ .error .symlinkLoop := by
  fun_induction x.lookupPathFrom ino path hops with
  | case1 ino path hops many => omega
  | case2 ino path hops few result => cases result <;> simp [Except.mapError]
  | case3 => simp at direct
  | case4 ino path hops few i rest next trip ih => exact ih within direct

/-- On every image and for every path the calls end, after at most 41 links; without links the
depth of the path is no reason to refuse it. -/
theorem Tree.lookupPath_ends (x : Tree) (path : Path) : WellFounded x.Calls ∧ (x.lookupPath path).links ≤ 41 ∧
      ((x.lookupPath path).links = 0 → (x.lookupPath path).result ≠ .error .symlinkLoop) := by
  refine ⟨x.calls_wellFounded, ?_, Tree.lookupPathFrom_refused (Nat.zero_le _)⟩
  have within : 0 + (x.lookupPath path).links ≤ 41 := Tree.lookupPathFrom_links (Nat.zero_le _)
  rwa [Nat.zero_add] at within

/-! ## Composition -/

structure Tree.Proper (x : Tree) : Prop where
  named : ∀ dir, ∃ e, x.look dir [] = .error e
  targets : ∀ dir name, x.look dir name ≠ .ok (.link [])

def Remainder (r : Path) : Prop := ∃ c rest, r = c :: rest ∧ c ≠ '/'

theorem Remainder.trim (remainder : Remainder r) : trimPrefix r = r := by
  obtain ⟨c, rest, rfl, plain⟩ := remainder
  exact if_neg plain

theorem splitPath_append (path r : Path) : splitPath (path ++ '/' :: r) =
    ((splitPath path).1, some ((splitPath path).2.elim r (· ++ '/' :: r))) := by
  induction path with
  | nil => rfl
  | cons c rest ih =>
    rw [List.cons_append, splitPath, splitPath]
    split
    · rfl
    · rw [ih]

theorem trimPrefix_append (some : trimPrefix path ≠ []) :
    trimPrefix (path ++ '/' :: r) = trimPrefix path ++ '/' :: r := by
  cases path with
  | nil => exact absurd rfl some
  | cons c rest =>
    rw [List.cons_append, trimPrefix, trimPrefix]
    split <;> rfl

theorem trimPrefix_nil (trimmed : trimPrefix path = []) : path = [] ∨ path = ['/'] := by
  cases path with
  | nil => exact .inl rfl
  | cons c rest =>
    by_cases slash : c = '/'
    · rw [trimPrefix, if_pos slash] at trimmed
      exact .inr (by rw [slash, trimmed])
    · rw [trimPrefix, if_neg slash] at trimmed
      cases trimmed

theorem nextPath_append (target r : Path) (rest : Option Path) :
    nextPath target (some (rest.elim r (· ++ '/' :: r))) = nextPath target rest ++ '/' :: r := by
  cases rest <;> simp [nextPath]

/-- With a remainder appended a call goes on as before, unless nothing but a slash was left. -/
theorem Tree.next_append (proper : x.Proper) (ino : Nat) (path r : Path) :
    match x.next ino path with
    | .ended (.error e) => x.next ino (path ++ '/' :: r) = .ended (.error e) ∨ trimPrefix path = []
    | .ended (.ok i) => if path = ['/'] then ∃ e, x.next ino (path ++ '/' :: r) = .ended (.error e)
        else path = [] ∧ i = ino ∨ x.next ino (path ++ '/' :: r) = .entered i r
    | .linked i rest => x.next ino (path ++ '/' :: r) = .linked i (rest ++ '/' :: r)
    | .entered i rest => x.next ino (path ++ '/' :: r) = .entered i (rest ++ '/' :: r) := by
  by_cases empty : trimPrefix path = []
  · have ends : x.next ino path = .ended ((x.read ino).map fun _ => ino) := if_pos empty
    rw [ends]
    cases x.read ino with
    | error e => exact .inr empty
    | ok _ =>
      change if path = ['/'] then _ else _
      split
      · rename_i slash
        subst slash
        obtain ⟨e, absent⟩ := proper.named ino
        refine ⟨e, ?_⟩
        have rest : trimPrefix (['/'] ++ '/' :: r) = '/' :: r := rfl
        rw [Tree.next, if_neg (by rw [rest]; exact List.cons_ne_nil _ _), rest, splitPath, if_pos rfl, absent]
      · rename_i plain
        exact .inl ⟨(trimPrefix_nil empty).resolve_right plain, rfl⟩
  · have whole := trimPrefix_append (r := r) empty
    have more : trimPrefix (path ++ '/' :: r) ≠ [] := by
      rw [whole]
      simp
    have split := splitPath_append (trimPrefix path) r
    have notSlash : path ≠ ['/'] := by
      rintro rfl
      exact empty rfl
    rw [Tree.next, if_neg empty, Tree.next, if_neg more, whole, split]
    cases looked : x.look ino (splitPath (trimPrefix path)).1 with
    | error e => exact .inl rfl
    | ok answer =>
      cases answer with
      | link target =>
        simp only [nextPath_append]
        have filled : nextPath target (splitPath (trimPrefix path)).2 ≠ [] := by
          cases rest : (splitPath (trimPrefix path)).2 with
          | some _ => simp [nextPath]
          | none =>
            rintro rfl
            exact proper.targets _ _ looked
        rw [List.head?_append_of_ne_nil _ filled]
      | node i =>
        cases (splitPath (trimPrefix path)).2 with
        | none =>
          change if path = ['/'] then _ else _
          rw [if_neg notSlash]
          exact .inr rfl
        | some rest => rfl

theorem Tree.lookup_ended (few : hops ≤ maxSymlinks) {result : Except Err Nat}
    (next : x.next ino path = .ended result) :
    x.lookupPathFrom ino path hops = ⟨result.mapError .failed, 1, 0, path⟩ := by
  rw [Tree.lookupPathFrom, if_neg (by omega)]
  split <;> simp_all

theorem Tree.lookup_linked (few : hops ≤ maxSymlinks) {i : Nat}
    (next : x.next ino path = .linked i rest) :
    x.lookupPathFrom ino path hops = { x.lookupPathFrom i rest (hops + 1) with
      calls := (x.lookupPathFrom i rest (hops + 1)).calls + 1
      links := (x.lookupPathFrom i rest (hops + 1)).links + 1 } := by
  rw [Tree.lookupPathFrom, if_neg (by omega)]
  split <;> simp_all

theorem Tree.lookup_entered (few : hops ≤ maxSymlinks) {i : Nat}
    (next : x.next ino path = .entered i rest) :
    x.lookupPathFrom ino path hops = { x.lookupPathFrom i rest hops with
      calls := (x.lookupPathFrom i rest hops).calls + 1 } := by
  rw [Tree.lookupPathFrom, if_neg (by omega)]
  split <;> simp_all

theorem Tree.lookup_slash (remainder : Remainder r) :
    (x.lookupPathFrom ino ('/' :: r) hops).result = (x.lookupPathFrom ino r hops).result := by
  have same : x.next ino ('/' :: r) = x.next ino r := by
    have trimmed : trimPrefix ('/' :: r) = trimPrefix r := remainder.trim.symm
    rw [Tree.next, trimmed, Tree.next]
  by_cases few : hops ≤ maxSymlinks
  · cases next : x.next ino r with
    | ended result => rw [Tree.lookup_ended few next, Tree.lookup_ended few (same.trans next)]
    | linked i rest => rw [Tree.lookup_linked few next, Tree.lookup_linked few (same.trans next)]
    | entered i rest => rw [Tree.lookup_entered few next, Tree.lookup_entered few (same.trans next)]
  · rw [Tree.lookupPathFrom, if_pos (by omega), Tree.lookupPathFrom, if_pos (by omega)]

/-- What is looked up behind a path that leads to `e` is looked up from `e`, unless the path ends
on a slash that stands alone. -/
theorem Tree.lookup_append (proper : x.Proper) (remainder : Remainder r)
    (found : (x.lookupPathFrom ino path hops).result = .ok e) :
    if (x.lookupPathFrom ino path hops).last = ['/'] then
      ∃ no, (x.lookupPathFrom ino (path ++ '/' :: r) hops).result = .error no
    else (x.lookupPathFrom ino (path ++ '/' :: r) hops).result =
      (x.lookupPathFrom e r (hops + (x.lookupPathFrom ino path hops).links)).result := by
  fun_induction x.lookupPathFrom ino path hops with
  | case1 => cases found
  | case2 ino path hops few result next =>
    have goes := Tree.next_append proper ino path r
    rw [next] at goes
    cases result with
    | error no => cases found
    | ok i =>
      cases found
      simp only at goes ⊢
      split at goes
      · rename_i slash
        obtain ⟨no, fails⟩ := goes
        rw [if_pos slash, Tree.lookup_ended (by omega) fails]
        exact ⟨.failed no, rfl⟩
      · rename_i plain
        rw [if_neg plain, Nat.add_zero]
        obtain ⟨rfl, rfl⟩ | entered := goes
        · exact Tree.lookup_slash remainder
        · rw [Tree.lookup_entered (by omega) entered]
  | case3 ino path hops few i rest next trip ih =>
    have goes := Tree.next_append proper ino path r
    rw [next] at goes
    have ih := ih found
    rw [Tree.lookup_linked (by omega) goes, Nat.add_comm trip.links, ← Nat.add_assoc]
    exact ih
  | case4 ino path hops few i rest next trip ih =>
    have goes := Tree.next_append proper ino path r
    rw [next] at goes
    rw [Tree.lookup_entered (by omega) goes]
    exact ih found

theorem Tree.lookup_shift (found : (x.lookupPathFrom ino path hops).result = .ok e) :
    ∀ before, before + (x.lookupPathFrom ino path hops).links ≤ maxSymlinks →
      x.lookupPathFrom ino path before = x.lookupPathFrom ino path hops := by
  fun_induction x.lookupPathFrom ino path hops with
  | case1 => cases found
  | case2 ino path hops few result next => exact fun _ room => Tree.lookup_ended room next
  | case3 ino path hops few i rest next trip ih =>
    intro before room
    have room : before + (trip.links + 1) ≤ maxSymlinks := room
    have same : _ = trip := ih found (before + 1) (show before + 1 + trip.links ≤ maxSymlinks by omega)
    rw [Tree.lookup_linked (by omega) next, same]
  | case4 ino path hops few i rest next trip ih =>
    intro before room
    have room : before + trip.links ≤ maxSymlinks := room
    have same : _ = trip := ih found before room
    rw [Tree.lookup_entered (by omega) next, same]

/-! ## Where a lone slash comes from -/

def Bare (path : Path) : Prop := ∀ c ∈ path, c = '/'

instance (path : Path) : Decidable (Bare path) := inferInstanceAs (Decidable (∀ c ∈ path, _))

def endSlashes (path : Path) : Nat := (path.reverse.takeWhile (· = '/')).length

theorem Bare.all (bare : Bare path) : path.reverse.takeWhile (· = '/') = path.reverse :=
  List.takeWhile_eq_self_iff.mpr fun c mem => decide_eq_true (bare c (List.mem_reverse.mp mem))

theorem endSlashes_append (path r : Path) :
    endSlashes (path ++ r) = if Bare r then endSlashes path + r.length else endSlashes r := by
  rw [endSlashes, List.reverse_append, List.takeWhile_append]
  by_cases bare : Bare r
  · rw [if_pos (by rw [bare.all]), if_pos bare, List.length_append, List.length_reverse, Nat.add_comm, endSlashes]
  · rw [if_neg, if_neg bare, endSlashes]
    intro whole
    have self := (List.takeWhile_prefix _).eq_of_length whole
    exact bare fun c mem => of_decide_eq_true (List.takeWhile_eq_self_iff.mp self c (List.mem_reverse.mpr mem))

theorem endSlashes_name {name : Name} (slashless : '/' ∉ name) : endSlashes name = 0 := by
  rw [endSlashes, List.length_eq_zero_iff, List.takeWhile_eq_nil_iff]
  intro some first
  refine slashless (List.mem_reverse.mp ?_)
  rw [← of_decide_eq_true first]
  exact List.getElem_mem _

theorem splitPath_spec (path : Path) : '/' ∉ (splitPath path).1 ∧
    path = (splitPath path).1 ++ (splitPath path).2.elim [] ('/' :: ·) := by
  induction path with
  | nil => exact ⟨List.not_mem_nil, rfl⟩
  | cons c rest ih =>
    rw [splitPath]
    split
    · rename_i slash
      exact ⟨List.not_mem_nil, by rw [slash]; rfl⟩
    · rename_i plain
      refine ⟨?_, congrArg (c :: ·) ih.2⟩
      rw [List.mem_cons, not_or]
      exact ⟨Ne.symm plain, ih.1⟩

/-- The targets that take the place of the last component, one after the other, when `path` is
looked up from `ino`. -/
inductive Tree.Ends (x : Tree) : Nat → Path → List Path → Prop
  | done {ino : Nat} {path : Path} {result : Except Err Nat} (next : x.next ino path = .ended result) :
      x.Ends ino path []
  | enter {ino i : Nat} {path rest : Path} {targets : List Path} (next : x.next ino path = .entered i rest)
      (more : x.Ends i rest targets) : x.Ends ino path targets
  | follow {ino i : Nat} {path rest target : Path} {targets : List Path}
      (link : x.look ino (splitPath (trimPrefix path)).1 = .ok (.link target))
      (next : x.next ino path = .linked i rest) (more : x.Ends i rest targets) :
      x.Ends ino path (if (splitPath (trimPrefix path)).2.all Bare then target :: targets else targets)

theorem Tree.Ends.of_ended {targets : List Path} {result : Except Err Nat} (ends : x.Ends ino path targets)
    (next : x.next ino path = .ended result) : targets = [] := by
  cases ends with
  | done => rfl
  | enter entered => cases next.symm.trans entered
  | follow _ linked => cases next.symm.trans linked

/-- None of the paths is the root, and together they end in at most one slash. -/
def Clean (paths : List Path) : Prop := ['/'] ∉ paths ∧ (paths.map endSlashes).sum ≤ 1

theorem bare_slash : Bare ('/' :: r) ↔ Bare r := by simp [Bare]

theorem endSlashes_slash (other : ¬ Bare r) : endSlashes ('/' :: r) = endSlashes r :=
  (endSlashes_append ['/'] r).trans (if_neg other)

theorem endSlashes_split (named : (splitPath (trimPrefix path)).1 ≠ []) :
    ¬ Bare path ∧ endSlashes path =
      (splitPath (trimPrefix path)).2.elim 0 fun r => if Bare r then r.length + 1 else endSlashes r := by
  obtain ⟨slashless, joined⟩ := splitPath_spec (trimPrefix path)
  have other : ¬ Bare (trimPrefix path) := fun bare => by
    obtain ⟨c, rest, head⟩ := List.exists_cons_of_ne_nil named
    rw [head] at slashless joined
    exact slashless (by rw [← bare c (by rw [joined]; exact .head _)]; exact .head _)
  have trimmed : ¬ Bare path ∧ endSlashes path = endSlashes (trimPrefix path) := by
    cases path with
    | nil => exact ⟨other, rfl⟩
    | cons c rest =>
      by_cases slash : c = '/'
      · rw [trimPrefix, if_pos slash] at other ⊢
        subst slash
        exact ⟨fun bare => other (bare_slash.mp bare), endSlashes_slash other⟩
      · rw [trimPrefix, if_neg slash] at other ⊢
        exact ⟨other, rfl⟩
  refine ⟨trimmed.1, ?_⟩
  rw [trimmed.2]
  cases tail : (splitPath (trimPrefix path)).2 with
  | none =>
    rw [tail, Option.elim_none, List.append_nil] at joined
    rw [joined]
    exact endSlashes_name slashless
  | some r =>
    rw [tail, Option.elim_some] at joined
    rw [joined, endSlashes_append, endSlashes_name slashless, Option.elim_some]
    by_cases bare : Bare r
    · rw [if_pos (bare_slash.mpr bare), if_pos bare, List.length_cons, Nat.zero_add]
    · rw [if_neg fun all => bare (bare_slash.mp all), if_neg bare, endSlashes_slash bare]

theorem Tree.Proper.named_of_ok (proper : x.Proper) {name : Name} {answer : Answer}
    (looked : x.look ino name = .ok answer) : name ≠ [] := by
  rintro rfl
  obtain ⟨_, absent⟩ := proper.named ino
  cases absent.symm.trans looked

theorem Tree.found_bare (proper : x.Proper) (bare : Bare path)
    (found : (x.lookupPathFrom ino path hops).result = .ok e) : trimPrefix path = [] := by
  by_contra more
  obtain ⟨no, absent⟩ := proper.named ino
  have first : (splitPath (trimPrefix path)).1 = [] := by
    by_contra named
    exact (endSlashes_split named).1 bare
  have fails : x.next ino path = .ended (.error no) := by rw [Tree.next, if_neg more, first, absent]
  by_cases few : hops ≤ maxSymlinks
  · rw [Tree.lookup_ended few fails] at found
    cases found
  · rw [Tree.lookupPathFrom, if_pos (by omega)] at found
    cases found

theorem not_slash (other : ¬ Bare path) : path ≠ ['/'] := by
  rintro rfl
  exact other (by simp [Bare])

theorem clean_swap {other : Path} {targets : List Path} (plain : ¬ Bare path) (plain' : ¬ Bare other)
    (same : endSlashes path = endSlashes other) : Clean (path :: targets) ↔ Clean (other :: targets) := by
  simp only [Clean, List.mem_cons, (not_slash plain).symm, (not_slash plain').symm, List.map_cons, same]

theorem clean_one (plain : ¬ Bare path) : Clean [path] ↔ endSlashes path ≤ 1 := by
  rw [Clean, List.map_singleton, List.sum_singleton, List.mem_singleton]
  exact and_iff_right (not_slash plain).symm

theorem clean_join {target : Path} {targets : List Path} (named : ¬ Bare target) (bare : Bare r) (plain : ¬ Bare path)
    (count : endSlashes path = r.length + 1) :
    Clean ((target ++ '/' :: r) :: targets) ↔ Clean (path :: target :: targets) := by
  have named' : ¬ Bare (target ++ '/' :: r) := fun all => named fun c mem => all c (List.mem_append_left _ mem)
  have joined : endSlashes (target ++ '/' :: r) = endSlashes target + (r.length + 1) := by
    rw [endSlashes_append, if_pos (bare_slash.mpr bare), List.length_cons]
  simp only [Clean, List.mem_cons, (not_slash named).symm, (not_slash named').symm, (not_slash plain).symm, false_or,
    List.map_cons, List.sum_cons, joined, count]
  exact and_congr_right fun _ => by omega

/-- A lookup ends with a lone slash exactly if the path and the targets leave one over. -/
theorem Tree.last_clean (proper : x.Proper) (found : (x.lookupPathFrom ino path hops).result = .ok e) :
    ∃ targets, x.Ends ino path targets ∧
      ((x.lookupPathFrom ino path hops).last ≠ ['/'] ↔ Clean (path :: targets)) := by
  fun_induction x.lookupPathFrom ino path hops with
  | case1 => cases found
  | case2 ino path hops few result next =>
    refine ⟨[], .done next, ?_⟩
    cases result with
    | error no => cases found
    | ok i =>
      have spec := x.next_spec ino path
      rw [next] at spec
      obtain trimmed | ⟨node, tail⟩ := spec
      · obtain rfl | rfl := trimPrefix_nil trimmed
        · exact iff_of_true (List.cons_ne_nil _ _).symm ⟨by simp, Nat.zero_le 1⟩
        · exact iff_of_false (fun no => no rfl) fun clean => clean.1 (.head _)
      · obtain ⟨other, count⟩ := endSlashes_split (proper.named_of_ok node)
        rw [tail, Option.elim_none] at count
        exact iff_of_true (not_slash other) ((clean_one other).mpr (by omega))
  | case3 ino path hops few i rest next trip ih =>
    obtain ⟨targets, ends, clean⟩ := ih found
    have spec := x.next_spec ino path
    rw [next] at spec
    obtain ⟨target, link, rfl⟩ := spec
    obtain ⟨other, count⟩ := endSlashes_split (proper.named_of_ok link)
    refine ⟨_, .follow link next ends, clean.trans ?_⟩
    cases tail : (splitPath (trimPrefix path)).2 with
    | none =>
      rw [tail, Option.elim_none] at count
      simp [nextPath, Clean, count, (not_slash other).symm]
    | some r =>
      rw [tail, Option.elim_some] at count
      rw [nextPath]
      by_cases bare : Bare r
      · -- A target of slashes alone would leave two of them.
        have named : ¬ Bare target := fun all => by
          have both : Bare (nextPath target (splitPath (trimPrefix path)).2) := by
            rw [tail, nextPath]
            exact fun c mem => (List.mem_append.mp mem).elim (all c) (bare_slash.mpr bare c)
          have left := trimPrefix_nil (Tree.found_bare proper both found)
          rw [tail, nextPath] at left
          refine proper.targets _ _ (link.trans ?_)
          obtain none | one := left
          · simp at none
          · rw [(List.append_eq_singleton_iff.mp one).elim And.left fun two => by cases two.2]
        rw [if_pos bare] at count
        rw [Option.all_some, if_pos (decide_eq_true bare)]
        exact clean_join named bare other count
      · rw [if_neg bare] at count
        rw [Option.all_some, if_neg (by simpa using bare)]
        refine clean_swap (fun all => bare fun c mem => all c (by simp [mem])) other ?_
        rw [endSlashes_append, if_neg fun all => bare (bare_slash.mp all), endSlashes_slash bare, count]
  | case4 ino path hops few i rest next trip ih =>
    have spec := x.next_spec ino path
    rw [next] at spec
    obtain ⟨node, tail⟩ := spec
    obtain ⟨other, count⟩ := endSlashes_split (proper.named_of_ok node)
    rw [tail, Option.elim_some] at count
    by_cases bare : Bare rest
    · have trimmed := Tree.found_bare proper bare found
      have ended : x.next i rest = .ended ((x.read i).map fun _ => i) := if_pos trimmed
      have last : trip.last = rest := congrArg Trip.last (Tree.lookup_ended (by omega) ended)
      refine ⟨[], .enter next (.done ended), ?_⟩
      rw [if_pos bare] at count
      rw [last, clean_one other, count]
      obtain rfl | rfl := trimPrefix_nil trimmed
      · exact iff_of_true (List.cons_ne_nil _ _).symm (Nat.le_refl 1)
      · exact iff_of_false (fun no => no rfl) (by simp)
    · rw [if_neg bare] at count
      obtain ⟨targets, ends, clean⟩ := ih found
      exact ⟨targets, .enter next ends, clean.trans (clean_swap bare other count.symm)⟩

end

/-- `d` leads to a directory, `s` is a link in it with the target `t`, and `t` leads to `e`. What is
found from `e` is found behind `d/s` if neither `d` nor `t` leaves a slash over. -/
theorem Tree.link_composes_iff (x : Tree) (proper : x.Proper) (d : Path) (s : Name) (t r : Path)
    (dir e i : Nat) (here : (x.lookupPath d).result = .ok dir)
    (name : Remainder s) (slashless : '/' ∉ s) (link : x.look dir s = .ok (.link t)) (remainder : Remainder r)
    (there : (x.lookupPathFrom (if t.head? = some '/' then rootIno else dir) t 0).result = .ok e)
    (found : (x.lookupPathFrom e r 0).result = .ok i) (within : (x.lookupPath d).links + 1 +
      (x.lookupPathFrom (if t.head? = some '/' then rootIno else dir) t 0).links +
      (x.lookupPathFrom e r 0).links ≤ maxSymlinks) :
    ∃ before after, x.Ends rootIno d before ∧ x.Ends (if t.head? = some '/' then rootIno else dir) t after ∧
      ((x.lookupPath (d ++ '/' :: (s ++ '/' :: r))).result = .ok i ↔ Clean (d :: before) ∧ Clean (t :: after)) := by
  set start := if t.head? = some '/' then rootIno else dir with starts
  set hops := (x.lookupPath d).links with counted
  obtain ⟨before, ends, clean⟩ := Tree.last_clean proper here
  obtain ⟨after, ends', clean'⟩ := Tree.last_clean proper there
  refine ⟨before, after, ends, ends', ?_⟩
  rw [← clean, ← clean']
  have target : t ≠ [] := by
    rintro rfl
    exact proper.targets _ _ link
  have behind : Remainder (s ++ '/' :: r) := by
    obtain ⟨c, rest, rfl, plain⟩ := name
    exact ⟨c, _, rfl, plain⟩
  -- from the directory the next call follows the link
  have split : splitPath (s ++ '/' :: r) = (s, some r) := by
    obtain ⟨-, joined⟩ := splitPath_spec s
    have alone : (splitPath s).2 = none := by
      cases tail : (splitPath s).2 with
      | none => rfl
      | some rest =>
        rw [tail] at joined
        exact absurd (by rw [joined]; simp) slashless
    rw [alone, Option.elim_none, List.append_nil] at joined
    rw [splitPath_append, alone, ← joined]
    rfl
  have follows : x.next dir (s ++ '/' :: r) = .linked start (t ++ '/' :: r) := by
    rw [Tree.next, if_neg (by rw [behind.trim]; simp), behind.trim, split, link]
    simp only [nextPath, List.head?_append_of_ne_nil _ target, starts]
  have followed : (x.lookupPathFrom dir (s ++ '/' :: r) hops).result =
      (x.lookupPathFrom start (t ++ '/' :: r) (hops + 1)).result := by
    rw [Tree.lookup_linked (by omega) follows]
  have same := Tree.lookup_shift there (hops + 1) (by omega)
  have rest := Tree.lookup_shift found (hops + 1 + (x.lookupPathFrom start t 0).links) within
  have joined := Tree.lookup_append proper behind here
  have joined' := Tree.lookup_append proper remainder (same ▸ there)
  rw [same, rest, found] at joined'
  rw [Nat.zero_add] at joined
  constructor
  · intro ok
    have plain : (x.lookupPathFrom rootIno d 0).last ≠ ['/'] := fun lone => by
      rw [if_pos lone] at joined
      obtain ⟨no, fails⟩ := joined
      cases fails.symm.trans ok
    refine ⟨plain, fun lone => ?_⟩
    rw [if_neg plain] at joined
    rw [if_pos lone] at joined'
    obtain ⟨no, fails⟩ := joined'
    cases fails.symm.trans (followed.symm.trans (joined.symm.trans ok))
  · rintro ⟨plain, plain'⟩
    rw [if_neg plain] at joined
    rw [if_neg plain'] at joined'
    exact joined.trans (followed.trans joined')

def Tree.sample (target : Path) : Tree where
  read _ := .ok ()
  look dir name :=
    if name = ['s'] then .ok (.link target)
    else if name = ['a'] then .ok (.node 3)
    else if name = ['f'] then .ok (.node (dir + 3))
    else .error .notExist

theorem Tree.sample_proper {target : Path} (some : target ≠ []) : (Tree.sample target).Proper where
  named _ := ⟨.notExist, by simp [Tree.sample]⟩
  targets dir name := by
    simp only [Tree.sample]
    split_ifs <;> simp [some]

theorem link_to_directory_composes : ((Tree.sample ['a', '/']).lookupPath "/s/f".toList).result = .ok 6 := by
  obtain ⟨before, after, ends, ends', composes⟩ := (Tree.sample ['a', '/']).link_composes_iff
    (Tree.sample_proper (List.cons_ne_nil _ _)) [] ['s'] ['a', '/'] ['f'] 2 3 6
    (by rw [Tree.lookupPath, Tree.lookupPathFrom]; rfl) ⟨_, _, rfl, by decide⟩ (by decide) rfl
    ⟨_, _, rfl, by decide⟩
    (by simp [Tree.lookupPathFrom, Tree.next, Tree.sample, trimPrefix, splitPath, maxSymlinks,
      Except.map, Except.mapError])
    (by rw [Tree.lookupPathFrom]; rfl)
    (by simp [Tree.lookupPath, Tree.lookupPathFrom, Tree.next, Tree.sample, trimPrefix, splitPath,
      maxSymlinks, Except.map, Except.mapError])
  have root : before = [] := ends.of_ended rfl
  have directory : after = [] := by
    cases ends' with
    | done next => cases next
    | enter next more =>
      cases next
      exact more.of_ended rfl
    | follow link => cases link
  rw [root, directory] at composes
  exact composes.mpr ⟨⟨by decide, by decide⟩, ⟨by decide, by decide⟩⟩

/-- A link to the root: the root has the file `f`, the link leads to the root, and `/s/f` is
missing. -/
theorem slash_target_lost : (Tree.sample ['/']).Proper ∧
    ((Tree.sample ['/']).lookupPath "/s".toList).result = .ok rootIno ∧
    ((Tree.sample ['/']).lookupPathFrom rootIno ['f'] 0).result = .ok 5 ∧
    ((Tree.sample ['/']).lookupPath "/s/f".toList).result = .error (.failed .notExist) := by
  refine ⟨Tree.sample_proper (List.cons_ne_nil _ _), ?_, ?_, ?_⟩ <;>
  simp [Tree.lookupPath, Tree.lookupPathFrom, Tree.next, Tree.sample, trimPrefix, splitPath, nextPath, rootIno,
    maxSymlinks, Except.map, Except.mapError]

end Ext4.Volume
