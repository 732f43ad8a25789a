import Ext4.Volume.ReadAgreement

/-! The parser of extent trees on arbitrary octets.
Here every field is taken from its slice with the bounds check of the language, and each node that
is read is noted with its level. On any inode and any device the parser takes no field outside a
slice, reads no block twice and ends as `parseExtentRoot` does. -/

namespace Ext4.InodeData
open List

open Octets Overlay Volume

/-! ## Runs that do not overlap -/

section
variable (start : Extent → Nat)

/-- The first pass of `checkRuns`: every run starts behind the one before it. -/
def inOrder : Option Nat → List Extent → Bool
  | _, [] => true
  | prevEnd, l :: rest =>
      if l.count = 0 then inOrder prevEnd rest
      else if prevEnd.any fun prevEnd => decide (start l < prevEnd) then false
      else inOrder (some (start l + l.count)) rest

/-- The second pass: no run of the sorted copy starts inside its predecessor. -/
def neighboursApart : List Extent → Bool
  | a :: b :: rest => !decide (start b < start a + a.count) && neighboursApart (b :: rest)
  | _ => true

def checkRuns (sort : List Extent → List Extent) (leaves : List Extent) : Bool :=
  inOrder start none leaves || neighboursApart start (sort (leaves.filter fun l => l.count ≠ 0))

end

def SortsBy (start : Extent → Nat) (sort : List Extent → List Extent) : Prop :=
  ∀ leaves, (sort leaves).Perm leaves ∧ (sort leaves).Pairwise fun e f => start e ≤ start f

section
variable {start : Extent → Nat}

theorem inOrder_apart {prevEnd : Option Nat} {leaves : List Extent}
    (ordered : inOrder start prevEnd leaves) : (∀ e ∈ leaves, e.count ≠ 0 → ∀ p ∈ prevEnd, p ≤ start e) ∧
      leaves.Pairwise fun e f => overlaps start e f = false := by
  induction leaves generalizing prevEnd with
  | nil => simp
  | cons l rest ih =>
    rw [inOrder] at ordered
    split at ordered
    · rename_i empty
      obtain ⟨behind, apart⟩ := ih ordered
      refine ⟨forall_mem_cons.mpr ⟨fun some => absurd empty some, behind⟩,
        pairwise_cons.mpr ⟨fun f _ => (overlaps_iff l f).mpr fun some => absurd empty some, apart⟩⟩
    · split at ordered
      · cases ordered
      · rename_i _ follows
        obtain ⟨behind, apart⟩ := ih ordered
        have here : ∀ p ∈ prevEnd, p ≤ start l := fun p same => by
          subst same
          simpa using follows
        refine ⟨forall_mem_cons.mpr ⟨fun _ => here, fun e mem some p same => ?_⟩,
          pairwise_cons.mpr ⟨fun f mem => (overlaps_iff l f).mpr fun _ some => ?_, apart⟩⟩
        · have := here p same
          have := behind e mem some _ rfl
          omega
        · exact .inl (behind f mem some _ rfl)

theorem neighboursApart_iff (leaves : List Extent) : neighboursApart start leaves ↔
    leaves.Pairwise fun e f => start e + e.count ≤ start f := by
  have : Trans (fun e f : Extent => start e + e.count ≤ start f)
      (fun e f : Extent => start e + e.count ≤ start f) (fun e f : Extent => start e + e.count ≤ start f) :=
    ⟨fun one two => by omega⟩
  rw [← isChain_iff_pairwise]
  induction leaves with
  | nil => simp [neighboursApart]
  | cons a rest ih =>
    cases rest with
    | nil => simp [neighboursApart]
    | cons b rest => simp [neighboursApart, ih, isChain_cons_cons]

theorem checkRuns_eq {sort : List Extent → List Extent} (sorts : SortsBy start sort) (leaves : List Extent) :
    checkRuns start sort leaves = disjointRuns start leaves := by
  obtain ⟨perm, sorted⟩ := sorts (leaves.filter fun l => l.count ≠ 0)
  have full : ∀ e ∈ sort (leaves.filter fun l => l.count ≠ 0), e.count ≠ 0 := fun e mem => by
    simpa using (mem_filter.mp (perm.mem_iff.mp mem)).2
  have second : neighboursApart start (sort (leaves.filter fun l => l.count ≠ 0)) ↔
      leaves.Pairwise fun e f => overlaps start e f = false := by
    calc neighboursApart start (sort (leaves.filter fun l => l.count ≠ 0))
        ↔ (sort (leaves.filter fun l => l.count ≠ 0)).Pairwise fun e f => overlaps start e f = false := by
          rw [neighboursApart_iff]
          constructor
          · exact List.Pairwise.imp fun follows => (overlaps_iff _ _).mpr fun _ _ => .inl follows
          · intro apart
            refine (sorted.and apart).imp_of_mem fun {e f} first later both => ?_
            have := (overlaps_iff e f).mp both.2 (full e first) (full f later)
            have := full f later
            omega
      _ ↔ (leaves.filter fun l => l.count ≠ 0).Pairwise fun e f => overlaps start e f = false :=
          perm.pairwise_iff fun {e f} free => by rw [overlaps_symm]; exact free
      _ ↔ leaves.Pairwise fun e f => overlaps start e f = false := by
          rw [pairwise_filter]
          refine List.Pairwise.iff fun e f => ?_
          simp only [overlaps_iff, decide_eq_true_eq]
          tauto
  rw [Bool.eq_iff_iff, checkRuns, Bool.or_eq_true, second, disjointRuns_iff]
  exact ⟨fun either => either.elim (fun ordered => (inOrder_apart ordered).2) id, .inr⟩

end

/-! ## The parser -/

inductive Fault where
  /-- A field was taken outside its slice. -/
  | panic
  | refused (e : Err)
  deriving DecidableEq

/-- The visit set, and the nodes read so far: the level below the root, and the block. -/
structure Watch [Safeio] where
  visited : Safeio.VisitSet
  reads : List (Nat × Nat)

namespace Watched

section
variable [Safeio]

def uintAt (buf : Bytes) (off n : Nat) : Prog Watch Fault Nat :=
  if off + n ≤ buf.length then pure (field buf off n) else .fail .panic

def check (b : Nat) : Prog Watch Fault Unit := fun w =>
  match Safeio.check w.visited b with
  | none => (.error (.refused .cycle), w)
  | some visited => (.ok (), { w with visited })

section
variable (v : Geometry) (dev : Device)

def readRawBlock (level b : Nat) : Prog Watch Fault Bytes := fun w =>
  ((InodeData.readRawBlock v dev b).mapError .refused, { w with reads := (level, b) :: w.reads })

/-- The loop over the entries of a node; an entry outside the buffer ends it. -/
def entries (body : Nat → Prog Watch Fault (List Extent)) (buf : Bytes) : List Nat → Prog Watch Fault (List Extent)
  | [] => pure []
  | i :: rest =>
      if buf.length < 12 + i * 12 + 12 then pure []
      else do
        let leaves ← body (12 + i * 12)
        let more ← entries body buf rest
        pure (leaves ++ more)

def leaf (buf : Bytes) (off : Nat) : Prog Watch Fault (List Extent) := do
  let logBlock ← uintAt buf off 4
  let count ← uintAt buf (off + 4) 2
  let physHi ← uintAt buf (off + 6) 2
  let physLo ← uintAt buf (off + 8) 4
  pure [{ logBlock, physBlock := physHi * 2 ^ 32 + physLo,
          count := if 32768 < count then count % 2 ^ 15 else count }]

/-- An index entry: the child is read one level below `level`. -/
def index (node : Bytes → Prog Watch Fault (List Extent)) (level : Nat) (buf : Bytes) (off : Nat) :
    Prog Watch Fault (List Extent) := do
  let leafLo ← uintAt buf (off + 4) 4
  let leafHi ← uintAt buf (off + 8) 2
  let child := leafHi * 2 ^ 32 + leafLo
  if child = 0 ∨ v.blocksCount ≠ 0 ∧ v.blocksCount ≤ child then .fail (.refused .indexRange)
  else do
    check child
    let childBuf ← readRawBlock v dev (level + 1) child
    node childBuf

def header (expectDepth : Nat) (buf : Bytes) : Prog Watch Fault Nat :=
  if buf.length < 12 then .fail (.refused .nodeTooSmall)
  else do
    let magic ← uintAt buf 0 2
    if magic ≠ 0xF30A then .fail (.refused .badMagic)
    else do
      let count ← uintAt buf 2 2
      let depth ← uintAt buf 6 2
      if depth ≠ expectDepth ∨ maxExtentDepth < depth then .fail (.refused .depth) else pure count

def parseExtentNode : Nat → Nat → Bytes → Prog Watch Fault (List Extent)
  | 0, _, buf => do
      let count ← header 0 buf
      entries (leaf buf) buf (range count)
  | depth + 1, level, buf => do
      let count ← header (depth + 1) buf
      entries (index v dev (parseExtentNode depth (level + 1)) level buf) buf (range count)

def validateExtents (sort : (Extent → Nat) → List Extent → List Extent) (leaves : List Extent) :
    Prog Watch Fault (List Extent) :=
  if 2 ≤ leaves.length ∧ ¬ (checkRuns Extent.logBlock (sort Extent.logBlock) leaves ∧
      checkRuns Extent.physBlock (sort Extent.physBlock) leaves) then .fail (.refused .overlapping)
  else pure leaves

def parseExtentRoot (sort : (Extent → Nat) → List Extent → List Extent) (buf : Bytes) :
    Prog Watch Fault (List Extent) :=
  if buf.length < 12 then .fail (.refused .nodeTooSmall)
  else do
    let rootDepth ← uintAt buf 6 2
    if maxExtentDepth < rootDepth then .fail (.refused .depth)
    else do
      let leaves ← parseExtentNode v dev rootDepth 0 buf
      validateExtents sort leaves

end

/-! ## What it does on the way -/

/-- Every node was read once, after its number was checked, and at most `maxExtentDepth` levels
below the root. -/
structure Tidy (w : Watch) : Prop where
  noted : ∀ r ∈ w.reads, Safeio.Seen w.visited r.2
  once : (w.reads.map Prod.snd).Nodup
  levels : ∀ r ∈ w.reads, r.1 ≤ maxExtentDepth

/-- The run keeps the record tidy and ends as the plain parser does from the same visit set. -/
def Follows (prog : Prog Watch Fault (List Extent)) (w : Watch)
    (plain : Except Err (List Extent × Safeio.VisitSet)) : Prop :=
  prog.Meets w (fun leaves t => Tidy t ∧ plain = .ok (leaves, t.visited))
    fun fault t => Tidy t ∧ ∃ e, fault = .refused e ∧ plain = .error e

theorem meets_uintAt {buf : Bytes} {off n : Nat} (inside : off + n ≤ buf.length) {w : Watch}
    {post : Nat → Watch → Prop} {failed : Fault → Watch → Prop} :
    (uintAt buf off n).Meets w post failed ↔ post (field buf off n) w := by
  rw [uintAt, if_pos inside]
  exact meets_pure _

section
variable {v : Geometry} {dev : Device} {w : Watch} {level : Nat} {sort : (Extent → Nat)
  → List Extent → List Extent}

theorem entries_leaf (buf : Bytes) (is : List Nat) (tidy : Tidy w) :
    Follows (entries (leaf buf) buf is) w (.ok ((((is.map fun i => 12 + i * 12).takeWhile fun off =>
      off + 12 ≤ buf.length).map (leafEntry buf)), w.visited)) := by
  induction is with
  | nil => exact ⟨tidy, rfl⟩
  | cons i rest ih =>
    rw [entries]
    by_cases outside : buf.length < 12 + i * 12 + 12
    · rw [if_pos outside, map_cons, takeWhile_cons_of_neg (by simpa using outside)]
      exact ⟨tidy, rfl⟩
    · rw [if_neg outside, map_cons, takeWhile_cons_of_pos (by simpa using outside)]
      unfold Follows leaf at *
      simp only [meets_bind, meets_pure]
      rw [meets_uintAt (by omega), meets_uintAt (by omega), meets_uintAt (by omega), meets_uintAt (by omega)]
      refine ih.mono (fun more t after => ⟨after.1, ?_⟩) fun _ _ bad => ⟨bad.1, ?_⟩
      · obtain ⟨leaves, visited⟩ := Prod.mk.inj (Except.ok.inj after.2)
        rw [← leaves, ← visited]
        rfl
      · obtain ⟨_, _, _, no⟩ := bad
        cases no

theorem Tidy.read {b : Nat} {visited : Safeio.VisitSet} (tidy : Tidy w) (fresh : ¬ Safeio.Seen w.visited b)
    (more : ∀ c, Safeio.Seen visited c ↔ c = b ∨ Safeio.Seen w.visited c) (shallow : level ≤ maxExtentDepth) :
    Tidy ⟨visited, (level, b) :: w.reads⟩ where
  noted := forall_mem_cons.mpr ⟨(more b).mpr (.inl rfl), fun r mem => (more _).mpr (.inr (tidy.noted r mem))⟩
  once := nodup_cons.mpr ⟨fun again => by
    obtain ⟨r, mem, same⟩ := mem_map.mp again
    have noted := tidy.noted r mem
    rw [same] at noted
    exact fresh noted, tidy.once⟩
  levels := forall_mem_cons.mpr ⟨shallow, tidy.levels⟩

theorem entries_index {node : Bytes → Safeio.VisitSet → Except Err (List Extent × Safeio.VisitSet)}
    {watched : Bytes → Prog Watch Fault (List Extent)} (shallow : level + 1 ≤ maxExtentDepth)
    (follows : ∀ buf w, Tidy w → Follows (watched buf) w (node buf w.visited)) (buf : Bytes) (is : List Nat)
    (tidy : Tidy w) : Follows (entries (index v dev watched level buf) buf is) w
      (indexEntries v dev node buf ((is.map fun i => 12 + i * 12).takeWhile fun off =>
        off + 12 ≤ buf.length) w.visited) := by
  induction is generalizing w with
  | nil => exact ⟨tidy, rfl⟩
  | cons i rest ih =>
    rw [entries]
    by_cases outside : buf.length < 12 + i * 12 + 12
    · rw [if_pos outside, map_cons, takeWhile_cons_of_neg (by simpa using outside)]
      exact ⟨tidy, rfl⟩
    rw [if_neg outside, map_cons, takeWhile_cons_of_pos (by simpa using outside), indexEntries]
    unfold Follows index
    simp only [meets_bind]
    rw [meets_uintAt (by omega), meets_uintAt (by omega)]
    rw [← childBlock]
    set child := childBlock buf (12 + i * 12)
    by_cases range : child = 0 ∨ v.blocksCount ≠ 0 ∧ v.blocksCount ≤ child
    · rw [if_pos range, if_pos range]
      exact ⟨tidy, _, rfl, rfl⟩
    rw [if_neg range, if_neg range]
    simp only [meets_bind]
    by_cases seen : Safeio.Seen w.visited child
    · refine .of_error (e := .refused .cycle) (t := w) ?_ ⟨tidy, .cycle, rfl, ?_⟩
      · rw [check, Safeio.check_seen seen]
      · rw [visit, Safeio.check_seen seen]
        rfl
    obtain ⟨visited, fresh, more⟩ := Safeio.check_unseen seen
    refine .of_ok (a := ()) (t := { w with visited }) (by rw [check, fresh]) ?_
    have noted := tidy.read seen more shallow
    rw [visit, fresh]
    cases read : InodeData.readRawBlock v dev child with
    | error e =>
      refine .of_error (t := ⟨visited, (level + 1, child) :: w.reads⟩) ?_ ⟨noted, e, rfl, rfl⟩
      rw [readRawBlock, read]
      rfl
    | ok childBuf =>
      refine .of_ok (t := ⟨visited, (level + 1, child) :: w.reads⟩) (a := childBuf) ?_ ?_
      · rw [readRawBlock, read]
        rfl
      -- the child, and then the entries behind it
      refine (follows childBuf _ noted).mono (fun leaves t below => ?_) fun _ t bad => ?_
      · refine (ih below.1).mono (fun more u after => ?_) fun _ u bad => ?_
        · refine ⟨after.1, ?_⟩
          simp only [bind, Except.bind, below.2, after.2]
        · obtain ⟨kept, e, refused, plain⟩ := bad
          refine ⟨kept, e, refused, ?_⟩
          simp only [bind, Except.bind, below.2, plain]
      · obtain ⟨kept, e, refused, plain⟩ := bad
        refine ⟨kept, e, refused, ?_⟩
        simp only [bind, Except.bind, plain]

theorem header_follows {depth : Nat} (shallow : depth ≤ maxExtentDepth) (buf : Bytes) (tidy : Tidy w)
    {next : Nat → Prog Watch Fault (List Extent)} {plain : Except Err (List Extent × Safeio.VisitSet)}
    (rest : Follows (next (field buf 2 2)) w plain) :
    Follows (header depth buf >>= next) w (if buf.length < 12 then .error .nodeTooSmall
      else if field buf 0 2 ≠ 0xF30A then .error .badMagic
      else if field buf 6 2 ≠ depth then .error .depth else plain) := by
  unfold Follows header
  rw [meets_bind]
  by_cases short : buf.length < 12
  · rw [if_pos short, if_pos short]
    exact ⟨tidy, _, rfl, rfl⟩
  rw [if_neg short, if_neg short, meets_bind, meets_uintAt (by omega)]
  by_cases magic : field buf 0 2 ≠ 0xF30A
  · rw [if_pos magic, if_pos magic]
    exact ⟨tidy, _, rfl, rfl⟩
  rw [if_neg magic, if_neg magic, meets_bind, meets_uintAt (by omega), meets_bind, meets_uintAt (by omega)]
  by_cases expected : field buf 6 2 ≠ depth
  · rw [if_pos (.inl expected), if_pos expected]
    exact ⟨tidy, _, rfl, rfl⟩
  · rw [if_neg (by omega), if_neg expected]
    exact rest

theorem parseExtentNode_follows (depth level : Nat) (shallow : level + depth ≤ maxExtentDepth) (buf : Bytes)
    (tidy : Tidy w) :
    Follows (parseExtentNode v dev depth level buf) w (InodeData.parseExtentNode v dev depth buf w.visited) := by
  induction depth generalizing level buf w with
  | zero =>
    rw [InodeData.parseExtentNode]
    exact header_follows (by omega) buf tidy (entries_leaf buf _ tidy)
  | succ depth ih =>
    rw [InodeData.parseExtentNode]
    refine header_follows (by omega) buf tidy (entries_index (by omega) (fun childBuf t below => ?_) buf _ tidy)
    exact ih (level + 1) (by omega) childBuf below

theorem validateExtents_eq (sorts : ∀ start, SortsBy start (sort start)) (leaves : List Extent) :
    validateExtents sort leaves w = ((validated leaves).mapError .refused, w) := by
  unfold validateExtents validated
  simp only [checkRuns_eq (sorts _), ← Bool.and_eq_true]
  by_cases apart : (disjointRuns Extent.logBlock leaves && disjointRuns Extent.physBlock leaves)
  · rw [if_neg fun refused => refused.2 apart, if_pos apart]
    rfl
  · -- fewer than two leaves have no neighbour to overlap
    have several : 2 ≤ leaves.length := by
      by_contra few
      rcases leaves with _ | ⟨_, _ | _⟩
      · exact apart rfl
      · exact apart rfl
      · exact few (Nat.le_add_left 2 _)
    rw [if_neg apart, if_pos ⟨several, apart⟩]
    rfl

theorem parseExtentRoot_meets (sorts : ∀ start, SortsBy start (sort start)) (buf : Bytes)
    (tidy : Tidy ⟨Safeio.fresh, []⟩) : (parseExtentRoot v dev sort buf).Meets ⟨Safeio.fresh, []⟩
      (fun leaves t => Tidy t ∧ InodeData.parseExtentRoot v dev buf = .ok leaves)
      fun fault t => Tidy t ∧ ∃ e, fault = .refused e ∧ InodeData.parseExtentRoot v dev buf = .error e := by
  unfold parseExtentRoot InodeData.parseExtentRoot
  by_cases short : buf.length < 12
  · rw [if_pos short, if_pos short]
    exact ⟨tidy, _, rfl, rfl⟩
  rw [if_neg short, if_neg short, meets_bind, meets_uintAt (by omega)]
  by_cases deep : maxExtentDepth < field buf 6 2
  · rw [if_pos deep, if_pos deep]
    exact ⟨tidy, _, rfl, rfl⟩
  rw [if_neg deep, if_neg deep, meets_bind]
  refine (parseExtentNode_follows _ 0 (by omega) buf tidy).mono (fun leaves t parsed => ?_) fun _ t bad => ?_
  · rw [parsed.2]
    cases outcome : validated leaves with
    | ok accepted => exact .of_ok (by rw [validateExtents_eq sorts, outcome]; rfl) ⟨parsed.1, outcome⟩
    | error e => exact .of_error (by rw [validateExtents_eq sorts, outcome]; rfl) ⟨parsed.1, e, rfl, outcome⟩
  · obtain ⟨kept, e, refused, plain⟩ := bad
    rw [plain]
    exact ⟨kept, e, refused, rfl⟩

end

/-- The parser never takes a field outside its slice, reads every node once and at most five levels
below the root, and of what it accepts no two leaves share a logical or a physical block. -/
theorem parseExtentRoot_safe (v : Geometry) (dev : Device) (sort : (Extent → Nat) → List Extent → List Extent)
    (sorts : ∀ start, SortsBy start (sort start)) (buf : Bytes) :
    ∃ outcome w, Watched.parseExtentRoot v dev sort buf ⟨Safeio.fresh, []⟩ = (outcome, w) ∧
      outcome ≠ .error .panic ∧ outcome = (InodeData.parseExtentRoot v dev buf).mapError .refused ∧
      (w.reads.map Prod.snd).Nodup ∧ (∀ r ∈ w.reads, r.1 ≤ 5) ∧
      ∀ leaves, outcome = .ok leaves → leaves.Pairwise fun e f => e.count ≠ 0 → f.count ≠ 0 →
        (e.logBlock + e.count ≤ f.logBlock ∨ f.logBlock + f.count ≤ e.logBlock) ∧
        (e.physBlock + e.count ≤ f.physBlock ∨ f.physBlock + f.count ≤ e.physBlock) := by
  have meets : (Watched.parseExtentRoot v dev sort buf).Meets _ _ _ :=
    parseExtentRoot_meets sorts buf ⟨by simp, nodup_nil, by simp⟩
  rcases ran : Watched.parseExtentRoot v dev sort buf ⟨Safeio.fresh, []⟩ with ⟨fault | leaves, w⟩
  · obtain ⟨tidy, e, rfl, plain⟩ := meets.error ran
    exact ⟨_, w, rfl, by simp, by rw [plain]; rfl, tidy.once, tidy.levels, fun _ no => nomatch no⟩
  · obtain ⟨tidy, plain⟩ := meets.ok ran
    refine ⟨_, w, rfl, by simp, by rw [plain]; rfl, tidy.once, tidy.levels, fun _ same => ?_⟩
    cases same
    obtain ⟨logical, physical⟩ := parseExtentRoot_disjoint plain
    exact (logical.and physical).imp fun both one two =>
      ⟨(overlaps_iff _ _).mp both.1 one two, (overlaps_iff _ _).mp both.2 one two⟩

end

def sortRuns (start : Extent → Nat) (leaves : List Extent) : List Extent :=
  leaves.insertionSort fun e f => start e ≤ start f

theorem sortRuns_sorts (start : Extent → Nat) : SortsBy start (sortRuns start) := fun _ =>
  ⟨perm_insertionSort _ _, pairwise_insertionSort _ _⟩

theorem disordered_leaves_safe : ∃ w,
    Watched.parseExtentRoot sampleVolume sampleDevice sortRuns (sampleTree [⟨2, 9, 3⟩, ⟨0, 5, 2⟩]) ⟨Safeio.fresh, []⟩ =
      (.ok [⟨2, 9, 3⟩, ⟨0, 5, 2⟩], w) ∧ (w.reads.map Prod.snd).Nodup := by
  obtain ⟨outcome, w, ran, _, same, once, _⟩ := parseExtentRoot_safe sampleVolume sampleDevice sortRuns
    sortRuns_sorts (sampleTree [⟨2, 9, 3⟩, ⟨0, 5, 2⟩])
  have parsed : InodeData.parseExtentRoot sampleVolume sampleDevice (sampleTree [⟨2, 9, 3⟩, ⟨0, 5, 2⟩]) =
      .ok [⟨2, 9, 3⟩, ⟨0, 5, 2⟩] := by decide
  exact ⟨w, by rw [ran, same, parsed]; rfl, once⟩

/-- Whatever the sort does with runs that start at one block, leaves are accepted exactly when no two
of them have a logical or a physical block in common. -/
theorem validateExtents_exact [Safeio] {sort : (Extent → Nat) → List Extent → List Extent}
    (sorts : ∀ start, SortsBy start (sort start)) (leaves : List Extent) (w : Watch) :
    (validateExtents sort leaves w).1 = .ok leaves ↔ leaves.Pairwise fun e f =>
      (range' e.logBlock e.count).Disjoint (range' f.logBlock f.count) ∧
        (range' e.physBlock e.count).Disjoint (range' f.physBlock f.count) := by
  simp only [pairwise_and_iff, ← overlaps_disjoint, ← disjointRuns_iff, ← Bool.and_eq_true,
    validateExtents_eq sorts, validated]
  split
  next apart => exact iff_of_true rfl apart
  next overlap => exact iff_of_false (fun rejected => by cases rejected) overlap

theorem validateExtents_disordered :
    (validateExtents sortRuns [⟨2, 9, 3⟩, ⟨0, 5, 2⟩] ⟨[], []⟩).1 = .ok [⟨2, 9, 3⟩, ⟨0, 5, 2⟩] :=
  (validateExtents_exact sortRuns_sorts _ _).mpr (by simp [List.Disjoint]; grind)

end Watched

end Ext4.InodeData
