import Ext4.Volume.Pruning
import Ext4.Volume.Spending
import Ext4.Volume.FileSystem

/-! What a rename does to a directory that stands at its destination.
The destination is removed with everything in it. The one thing that stops this is an entry that the
removal refuses, and only the first entry it gets to: all that comes before it is gone by then. -/

namespace Ext4.Volume
open Octets Alloc Store Machine List Function FS

variable {x y z : View} {v : Shape} {s t : FS} {i num : Nat} {n dir : Inode} {extents : List Extent}

/-! ## Inodes wane -/

/-- Kinds stay as they are, no inode comes to life, and regular files get no links. -/
structure View.Wanes (x y : View) : Prop where
  kind : ∀ i, (y.inode i).kind = (x.inode i).kind
  live : ∀ i, y.live i → x.live i
  links : ∀ i, (x.inode i).kind = .regular → (y.inode i).links ≤ (x.inode i).links

theorem View.Wanes.refl (x : View) : x.Wanes x :=
  ⟨fun _ => rfl, fun _ alive => alive, fun _ _ => Nat.le_refl _⟩

theorem View.Wanes.trans (first : x.Wanes y) (second : y.Wanes z) : x.Wanes z where
  kind i := (second.kind i).trans (first.kind i)
  live i alive := first.live i (second.live i alive)
  links i regular := by
    have later := second.links i ((first.kind i).trans regular)
    exact Nat.le_trans later (first.links i regular)

theorem View.Wanes.of_inode (wanes : x.Wanes y) (inode : z.inode = y.inode)
    (live : ∀ i, z.live i → y.live i) : x.Wanes z where
  kind i := by rw [inode, wanes.kind]
  live i alive := wanes.live i (live i alive)
  links i regular := by
    rw [inode]
    exact wanes.links i regular

structure Seen (x : View) (i : Nat) (n : Inode) : Prop where
  low : 0 < i
  kind : n.kind = (x.inode i).kind
  links : n.kind = .regular → n.links ≤ (x.inode i).links

theorem View.Wanes.writeInode (wanes : x.Wanes y) (seen : Seen x i n) :
    x.Wanes { y with inode := update y.inode i n } where
  kind j := by
    by_cases same : j = i
    · subst same
      simp [seen.kind]
    · simp [update_of_ne same, wanes.kind]
  live := wanes.live
  links j regular := by
    by_cases same : j = i
    · subst same
      simpa using seen.links (seen.kind.trans regular)
    · simpa [update_of_ne same] using wanes.links j regular

/-- The operation began at the view `x`. -/
structure Waning (v : Shape) (x : View) (s : FS) : Prop extends Quiet s where
  wanes : x.Wanes (view v s.now)

theorem Waning.frame (waning : Waning v x s) (frame : Frame s t) (wanes : x.Wanes (view v t.now)) :
    Waning v x t := ⟨waning.toQuiet.frame frame, wanes⟩

theorem Waning.seen (waning : Waning v x s) (read : s.readInode v i = .ok n) :
    Seen x i n := by
  obtain ⟨low, _, rfl⟩ := readInode_ok read
  rw [← now_of_none s waning.closed]
  exact ⟨low, waning.wanes.kind i, fun regular => waning.wanes.links i
    ((waning.wanes.kind i).symm.trans regular)⟩

theorem Waning.writeInode (waning : Waning v x s) (seen : Seen x i n) :
    Waning v x (s.writeInode v i n) := by
  obtain ⟨shown, frame⟩ := writeInode_spec seen.low n
  refine waning.frame frame ?_
  rw [shown]
  exact waning.wanes.writeInode seen

theorem changeDir_waning (waning : Waning v x s) (dir : Inode)
    (change : List Slot → Option (List Slot)) :
    (changeDir dir change).Meets s (fun _ => Waning v x) fun _ => Waning v x := by
  apply (changeDir_meets (v := v) waning.closed dir change).mono
  · rintro _ t (⟨b, slots, _, shown, frame⟩ | ⟨_, rfl⟩)
    · refine waning.frame frame (waning.wanes.of_inode ?_ ?_)
      · rw [shown]
      · rw [shown]
        exact fun _ alive => alive
    · exact waning
  · rintro _ t rfl
    exact waning

theorem Seen.dropLink (seen : Seen x i n) : Seen x i n.dropLink where
  low := seen.low
  kind := seen.kind
  links regular := Nat.le_trans (Nat.sub_le _ _) (seen.links regular)

theorem waning_rule : RemovalRule v (Waning v x) (Seen x) where
  parent waning _ _ _ _ search := waning.seen (lookupParent_read search)
  target waning _ _ _ search := waning.seen (lookupPath_ok search).2
  entry waning _ dir _ name := changeDir_waning waning dir (zeroEntryInBlock name)
  write waning _ _ seen := waning.writeInode seen.dropLink
  free {s} waning i n seen := by
    refine (freeInodeBlocks_meets waning.closed n).seq ?_ ?_
    · rintro _ t ⟨releases, frame⟩
      have quiet := waning.toQuiet.frame frame
      obtain ⟨retires, frame', only⟩ := freeInodeSlot_spec quiet.closed seen.low
      refine waning.frame (frame.trans frame') (waning.wanes.of_inode ?_ fun j alive => ?_)
      · rw [retires.inode, releases.inode]
      · rw [← releases.live]
        exact only quiet.unreserved j alive
    · rintro _ t rfl
      exact waning

/-! ## The first thing a removal does -/

inductive Stance where
  /-- It returns nil and has done nothing. -/
  | skips
  /-- It returns an error and has done nothing. -/
  | refuses
  | acts
  /-- The fuel does not reach the first entry that decides. -/
  | deeper
  deriving DecidableEq, Repr

section
variable (v : Shape) (s : FS)

def FS.stance (path : Path) (next : Inode → Stance) : Stance :=
  match s.lookupParent v path with
  | .error .notExist => .skips
  | .error _ => .refuses
  | .ok _ =>
      match s.lookupPath v (components path) with
      | .error .notExist => .skips
      | .error _ => .refuses
      | .ok (_, n) => next n

def FS.fileStance (path : Path) : Stance :=
  s.stance v path fun n => if n.kind ≠ .regular then .refuses else .acts

/-- The entries that are passed over do not count; when there is no other, the directory goes. -/
def firstStance : List Stance → Stance
  | [] => .acts
  | .skips :: rest => firstStance rest
  | first :: _ => first

def FS.dirStance : Nat → Path → Stance
  | 0, _ => .deeper
  | fuel + 1, path => s.stance v path fun n =>
      if n.kind ≠ .dir then .refuses
      else match s.readDir n with
        | .error _ => .refuses
        | .ok children => firstStance (children.map fun e =>
            if e.name = dot ∨ e.name = dotDot then .skips
            else if e.fileType = .dir then dirStance fuel (path ++ '/' :: e.name)
            else s.fileStance v (path ++ '/' :: e.name))

end

def View.Worn (x y : View) : Prop := ∃ i, x.live i ∧
  (y.live i = false ∨ (x.inode i).kind = .regular ∧ (y.inode i).links < (x.inode i).links)

theorem View.Worn.wanes (worn : x.Worn y) (first : x.Wanes y) (later : y.Wanes z) : x.Worn z := by
  obtain ⟨i, alive, gone | ⟨regular, fewer⟩⟩ := worn
  · refine ⟨i, alive, .inl ?_⟩
    by_contra back
    rw [later.live i (by simpa using back)] at gone
    cases gone
  · have less := later.links i ((first.kind i).trans regular)
    exact ⟨i, alive, .inr ⟨regular, Nat.lt_of_le_of_lt less fewer⟩⟩

structure Acted (v : Shape) (s t : FS) : Prop extends Waning v (view v s.now) t where
  worn : (view v s.now).Worn (view v t.now)

theorem Acted.after {u : FS} (acted : Acted v s t) (later : Waning v (view v t.now) u) : Acted v s u :=
  ⟨⟨later.toQuiet, acted.wanes.trans later.wanes⟩, acted.worn.wanes acted.wanes later.wanes⟩

theorem Waning.start (quiet : Quiet s) : Waning v (view v s.now) s := ⟨quiet, View.Wanes.refl _⟩

def Obeys (v : Shape) (stance : Stance) (s t : FS) : Prop :=
  stance = .skips ∧ t = s ∨ stance = .acts ∧ Acted v s t

inductive Balks (v : Shape) (s : FS) : Stance → Err → FS → Prop
  | refused {e : Err} (other : e ≠ .noFuel) : Balks v s .refuses e s
  | deeper : Balks v s .deeper .noFuel s
  | acted {e : Err} {t : FS} (acted : Acted v s t) : Balks v s .acts e t

theorem Balks.benign {e : Err} (benign : e.benign) : Balks v s .refuses e s :=
  .refused fun none => by
    rw [none] at benign
    cases benign

/-- A tree: every entry names a live inode, and the extents of files and directories are sound. -/
structure Sane (v : Shape) (s : FS) : Prop extends Quiet s where
  linked : (view v s.now).Linked s.sb.inodesCount
  sound : ∀ i ∈ range (s.sb.inodesCount + 1), (view v s.now).live i →
    ((view v s.now).inode i).kind = .regular ∨ ((view v s.now).inode i).kind = .dir →
      (s.parseExtents ((view v s.now).inode i).mapping).isOk

theorem Sane.parsed (sane : Sane v s) (i : Nat) (n : Inode) (alive : (view v s.now).live i)
    (read : s.readInode v i = .ok n) (kind : n.kind = .regular ∨ n.kind = .dir) :
    ∃ extents, s.parseExtents n.mapping = .ok extents := by
  obtain ⟨_, inRange, rfl⟩ := readInode_ok read
  rw [← now_of_none s sane.closed] at kind ⊢
  have ok := sane.sound i (mem_range.mpr (Nat.lt_succ_of_le inRange)) alive kind
  cases parsed : s.parseExtents ((view v s.now).inode i).mapping with
  | ok extents => exact ⟨extents, rfl⟩
  | error e =>
    rw [parsed] at ok
    cases ok

theorem Sane.follows (sane : Sane v s) (dir : Nat) (name : Name) (i : Nat) (n : Inode)
    (alive : (view v s.now).live dir) (found : s.entryIn v dir name = .ok (i, n)) :
    (view v s.now).live i := by
  obtain ⟨isDir, inRange, _, e, search, rfl⟩ := entryIn_ok found
  rw [← now_of_none s sane.closed] at isDir search
  exact sane.linked.2 dir (mem_range.mpr (Nat.lt_succ_of_le inRange)) alive isDir e
    (mem_of_find?_eq_some search)

structure Met (v : Shape) (s : FS) (i : Nat) (n : Inode) : Prop where
  alive : (view v s.now).live i
  read : s.readInode v i = .ok n

theorem Sane.parent (sane : Sane v s) {path : Path} {name : Name}
    (search : s.lookupParent v path = .ok (i, n, name)) : Met v s i n :=
  ⟨lookupParent_at sane.follows sane.linked.1 search, lookupParent_read search⟩

theorem Sane.target (sane : Sane v s) {names : List Name}
    (search : s.lookupPath v names = .ok (i, n)) : Met v s i n :=
  ⟨lookupPath_at sane.follows sane.linked.1 search, (lookupPath_ok search).2⟩

theorem Met.seen (met : Met v s i n) (quiet : Quiet s) : Seen (view v s.now) i n :=
  (Waning.start quiet).seen met.read

/-! ## Acting -/

theorem FS.parseExtents_patch {b : Nat} {old new : List Slot} {m : Mapping}
    (parsed : s.parseExtents m = .ok extents) (count : t.sb.blocksCount = s.sb.blocksCount)
    (was : s.image (.block b) = .slots old)
    (blocks : ∀ c, t.image (.block c) = update (fun c => s.image (.block c)) b (.slots new) c) :
    t.parseExtents m = .ok extents := by
  cases m with
  | none | target _ => cases parsed
  | inline _ => exact parsed
  | index child =>
    unfold parseExtents at parsed ⊢
    dsimp only at parsed ⊢
    rw [count, blocks]
    by_cases here : child = b
    · subst here
      rw [was] at parsed
      split at parsed <;> cases parsed
    · rwa [update_of_ne here]

theorem zeroDirEntry_sane (sane : Sane v s) (met : Met v s num dir)
    (isDir : dir.kind = .dir) (name : Name) :
    (zeroDirEntry dir name).Meets s
      (fun _ t => Quiet t ∧ (view v t.now).inode = (view v s.now).inode ∧
        (view v t.now).live = (view v s.now).live ∧
        ∀ m extents, s.parseExtents m = .ok extents → t.parseExtents m = .ok extents)
      fun _ _ => False := by
  obtain ⟨extents, parsed⟩ := sane.parsed num dir met.alive met.read (.inr isDir)
  have closed := sane.closed
  have spec := changeDir_meets (v := v) closed dir (zeroEntryInBlock name)
  have never := changeDir_succeeds parsed (zeroEntryInBlock name)
  refine (spec.and never).mono ?_ fun _ _ no => no.2
  rintro _ t ⟨⟨b, slots, place, shown, frame⟩ | ⟨_, rfl⟩, -⟩
  · obtain ⟨_, old, was, _⟩ := firstChange_some place rfl
    have quiet := sane.toQuiet.frame frame
    refine ⟨quiet, by rw [shown], by rw [shown], fun m extents parsed => ?_⟩
    have blocks := congrArg View.block shown
    rw [now_of_none t quiet.closed, now_of_none s closed] at blocks
    rw [now_of_none s closed] at was
    exact parseExtents_patch parsed frame.blocksCount was fun c => congrFun blocks c
  · exact ⟨sane.toQuiet, rfl, rfl, fun _ _ parsed => parsed⟩

theorem freeInode_acts (quiet : Quiet t) (inode : (view v t.now).inode = (view v s.now).inode)
    (live : (view v t.now).live = (view v s.now).live) (alive : (view v s.now).live i) (low : 0 < i)
    (parsed : t.parseExtents n.mapping = .ok extents) :
    Prog.Meets (do freeInodeBlocks v n; Prog.modify fun s => s.freeInodeSlot v i) t
      (fun _ u => Acted v s u) fun _ _ => False := by
  refine ((freeInodeBlocks_meets quiet.closed n).and (freeInodeBlocks_state n)).seq ?_ fun _ _ failed => by
    simp [parsed] at failed
  rintro _ u ⟨⟨releases, frame⟩, -⟩
  have quiet := quiet.frame frame
  obtain ⟨retires, frame', only⟩ := freeInodeSlot_spec quiet.closed low
  refine ⟨⟨quiet.frame frame', (View.Wanes.refl _).of_inode ?_ fun j alive => ?_⟩, i, alive,
    .inl retires.gone⟩
  · rw [retires.inode, releases.inode, inode]
  · rw [← live, ← releases.live]
    exact only quiet.unreserved j alive

theorem Met.low (met : Met v s i n) : 0 < i := (readInode_ok met.read).1

section
variable (sane : Sane v s) (parent : Met v s num dir) (isDir : dir.kind = .dir) (name : Name)
  (met : Met v s i n)
include sane parent isDir name met

theorem removeEntry_acts (regular : n.kind = .regular) :
    Prog.Meets (do zeroDirEntry dir name; decrementAndFreeInode v i n) s
      (fun _ t => Acted v s t) fun _ _ => False := by
  refine (zeroDirEntry_sane sane parent isDir name).step ?_
  rintro _ t ⟨quiet, inode, live, reads⟩
  have read : n = (view v s.now).inode i := by
    rw [now_of_none s sane.closed]
    exact (readInode_ok met.read).2.2
  unfold decrementAndFreeInode
  split
  next more =>
    have more : 0 < n.links - 1 := more
    obtain ⟨shown, frame⟩ := writeInode_spec met.low n.dropLink
    have start : Waning v (view v s.now) t :=
      ⟨quiet, (View.Wanes.refl _).of_inode inode fun j alive => by rwa [live] at alive⟩
    refine ⟨start.writeInode (met.seen sane.toQuiet).dropLink, i, met.alive, .inr ⟨read ▸ regular, ?_⟩⟩
    rw [shown]
    simp only [update_self, Inode.dropLink]
    rw [← read]
    omega
  next =>
    obtain ⟨extents, parsed⟩ := sane.parsed i n met.alive met.read (.inl regular)
    exact freeInode_acts quiet inode live met.alive met.low (reads _ _ parsed)

theorem dropDir_acts (target : n.kind = .dir) :
    (dropDir v num dir name i n).Meets s (fun _ t => Acted v s t) fun _ _ => False := by
  refine (zeroDirEntry_sane sane parent isDir name).step ?_
  rintro _ t ⟨quiet, inode, live, reads⟩
  obtain ⟨extents, parsed⟩ := sane.parsed i n met.alive met.read (.inr target)
  have frees := freeInode_acts quiet inode live met.alive met.low (reads _ _ parsed)
  rw [meets_bind] at frees ⊢
  refine frees.imp ?_
  intro _ u acted
  rw [meets_bind, meets_modify, meets_modify]
  have seen : Seen (view v (u.freeInodeSlot v i).now) num dir.dropLink :=
    ⟨parent.low, (parent.seen sane.toQuiet).kind.trans (acted.wanes.kind num).symm, fun regular => by
      rw [Inode.dropLink, isDir] at regular
      cases regular⟩
  exact acted.after ((Waning.start acted.toQuiet).writeInode seen)

end

/-! ## The removals -/

theorem resolve_obeys (sane : Sane v s) (path : Path) (stance : Inode → Stance)
    {next : Nat → Inode → Name → Nat → Inode → Prog FS Err Unit}
    (later : ∀ num dir name i n, Met v s num dir → dir.kind = .dir → Met v s i n →
      (next num dir name i n).Meets s (fun _ => Obeys v (stance n) s) (Balks v s (stance n))) :
    (resolve v path next).Meets s (fun _ => Obeys v (s.stance v path stance) s)
      (Balks v s (s.stance v path stance)) := by
  unfold resolve FS.stance
  rw [meets_bind, meets_read]
  cases search : s.lookupParent v path with
  | error e =>
    have benign := lookupParent_benign path e search
    cases e
    case notExist => exact .inl ⟨rfl, rfl⟩
    all_goals exact .benign benign
  | ok found =>
    obtain ⟨num, dir, name⟩ := found
    rw [meets_bind, meets_read]
    cases search' : s.lookupPath v (components path) with
    | error e =>
      have benign := lookupPath_benign _ e search'
      cases e
      case notExist => exact .inl ⟨rfl, rfl⟩
      all_goals exact .benign benign
    | ok target =>
      obtain ⟨i, n⟩ := target
      exact later num dir name i n (sane.parent search) (lookupParent_ok search).2.2.1
        (sane.target search')

theorem removeFile_obeys (sane : Sane v s) (path : Path) :
    (removeFile v path).Meets s (fun _ => Obeys v (s.fileStance v path) s) (Balks v s (s.fileStance v path)) := by
  apply resolve_obeys sane
  intro num dir name i n parent isDir met
  split
  · exact .benign rfl
  next regular =>
    refine (removeEntry_acts sane parent isDir name met (not_not.mp regular)).mono ?_ fun _ _ no => no.elim
    exact fun _ _ acted => .inr ⟨rfl, acted⟩

/-- The loop over the entries: up to the first one that is not passed over nothing happens. -/
theorem forEach_obeys {body : Entry → Prog FS Err Unit} (stance : Entry → Stance)
    (children : List Entry)
    (here : ∀ e ∈ children, (body e).Meets s (fun _ => Obeys v (stance e) s) (Balks v s (stance e)))
    (later : ∀ e ∈ children, ∀ x t, Waning v x t → (body e).Meets t (fun _ => Waning v x)
      fun _ => Waning v x) :
    (Prog.forEach body children).Meets s
      (fun _ t => firstStance (children.map stance) = .acts ∧ (t = s ∨ Acted v s t))
      (Balks v s (firstStance (children.map stance))) := by
  induction children with
  | nil => exact ⟨rfl, .inl rfl⟩
  | cons e rest ih =>
    have ih := ih (fun c mem => here c (mem_cons_of_mem _ mem))
      fun c mem => later c (mem_cons_of_mem _ mem)
    rw [Prog.forEach, map_cons]
    refine (here e mem_cons_self).seq ?_ ?_
    · rintro _ t (⟨skips, rfl⟩ | ⟨acts, acted⟩)
      · rw [skips]
        exact ih
      · rw [acts]
        -- The rest of the loop runs in another state, but gives nothing back.
        refine (meets_forEach rest (Waning.start acted.toQuiet) fun c mem u waning =>
          later c (mem_cons_of_mem _ mem) _ u waning).mono ?_ ?_
        · exact fun _ u waning => ⟨rfl, .inr (acted.after waning)⟩
        · exact fun _ u waning => .acted (acted.after waning)
    · intro err t failed
      generalize stance e = first at failed
      cases failed with
      | refused other => exact .refused other
      | deeper => exact .deeper
      | acted acted => exact .acted acted

theorem Acted.seen (acted : Acted v s t) (seen : Seen (view v s.now) i n) (isDir : n.kind = .dir) :
    Seen (view v t.now) i n where
  low := seen.low
  kind := seen.kind.trans (acted.wanes.kind i).symm
  links regular := by
    rw [isDir] at regular
    cases regular

theorem removeDir_obeys (sane : Sane v s) (fuel : Nat) (path : Path) :
    (removeDir v fuel path).Meets s (fun _ => Obeys v (s.dirStance v fuel path) s)
      (Balks v s (s.dirStance v fuel path)) := by
  induction fuel generalizing path with
  | zero => exact .deeper
  | succ fuel ih =>
    rw [removeDir, dirStance]
    apply resolve_obeys sane
    intro num dir name i n parent isDir met
    split
    · exact .benign rfl
    next target =>
      have target := not_not.mp target
      refine .look (fun children read => ?_) fun e failed => ?_
      · simp only [read]
        refine (forEach_obeys (v := v) (fun e =>
          if e.name = dot ∨ e.name = dotDot then .skips
          else if e.fileType = .dir then s.dirStance v fuel (path ++ '/' :: e.name)
          else s.fileStance v (path ++ '/' :: e.name)) children (fun e _ => ?_)
            fun e _ x t waning => ?_).seq ?_ fun _ _ failed => failed
        · split
          · exact .inl ⟨rfl, rfl⟩
          split
          · exact ih _
          · exact removeFile_obeys sane _
        · split
          · exact waning
          split
          · exact waning_rule.removeDir waning fuel _
          · exact waning_rule.removeFile waning _
        · rintro _ t ⟨acts, rfl | acted⟩
          · refine (dropDir_acts sane parent isDir name met target).mono ?_ fun _ _ no => no.elim
            exact fun _ _ acted => .inr ⟨acts, acted⟩
          · refine (waning_rule.dropDir (Waning.start acted.toQuiet)
              (acted.seen (parent.seen sane.toQuiet) isDir) name
              (acted.seen (met.seen sane.toQuiet) target)).mono ?_ ?_
            · exact fun _ _ waning => .inr ⟨acts, acted.after waning⟩
            · intro _ _ waning
              rw [acts]
              exact .acted (acted.after waning)
      · have benign := readDir_benign _ e failed
        rw [failed]
        exact .benign benign

/-! ## More fuel -/

theorem FS.stance_mono {path : Path} {next next' : Inode → Stance} (known : s.stance v path next ≠ .deeper)
    (same : ∀ n, next n ≠ .deeper → next' n = next n) : s.stance v path next' = s.stance v path next := by
  unfold FS.stance at known ⊢
  split at known <;> try rfl
  split at known <;> try rfl
  exact same _ known

theorem firstStance_mono {α : Type} {stance stance' : α → Stance}
    (same : ∀ a, stance a ≠ .deeper → stance' a = stance a) (children : List α) (known : firstStance (children.map stance) ≠ .deeper) :
    firstStance (children.map stance') = firstStance (children.map stance) := by
  induction children with
  | nil => rfl
  | cons a rest ih =>
    rw [map_cons] at known ⊢
    have first : stance a ≠ .deeper := fun deeper => known (by rw [deeper]; rfl)
    rw [map_cons, same a first]
    cases here : stance a with
    | skips =>
      rw [here] at known
      exact ih known
    | refuses | acts | deeper => rfl

theorem FS.dirStance_mono {fuel more : Nat} (enough : fuel ≤ more) (path : Path)
    (known : s.dirStance v fuel path ≠ .deeper) : s.dirStance v more path = s.dirStance v fuel path := by
  induction fuel generalizing more path with
  | zero => exact absurd rfl known
  | succ fuel ih =>
    cases more with
    | zero => omega
    | succ more =>
      refine FS.stance_mono known fun n known => ?_
      by_cases other : n.kind ≠ .dir
      · simp only [if_pos other]
      · simp only [if_neg other] at known ⊢
        cases read : s.readDir n with
        | error e => rfl
        | ok children =>
          rw [read] at known
          refine firstStance_mono (fun e known => ?_) children known
          split_ifs at known ⊢
          · rfl
          · exact ih (by omega) _ known
          · rfl

/-! ## Rename -/

theorem Seen.of_dir {m : Inode} (seen : Seen x i n) (isDir : n.kind = .dir) (kind : m.kind = n.kind) :
    Seen x i m where
  low := seen.low
  kind := kind.trans seen.kind
  links regular := by
    rw [kind, isDir] at regular
    cases regular

theorem addDirEntry_waning (waning : Waning v x s) (seen : Seen x num dir)
    (isDir : dir.kind = .dir) (ino : Nat) (name : Name) (fileType : FileType) :
    (addDirEntry v false num dir ino name fileType).Meets s
      (fun r t => r.1.kind = dir.kind ∧ Waning v x t) fun _ => Waning v x := by
  have leaking : ∀ t, (view v s.now).Leaks (view v t.now) → Frame s t → Waning v x t := by
    intro t leaks frame
    refine waning.frame frame (waning.wanes.of_inode leaks.inode fun j alive => ?_)
    rwa [leaks.live] at alive
  refine (addDirEntry_meets (by rw [waning.closed]; rfl) (covered_of_none waning.closed) seen.low dir ino
    name fileType).mono ?_ fun _ t failed => leaking t failed.1 failed.2
  rintro ⟨dir', held⟩ t ⟨inserts, frame, _⟩
  obtain ⟨b, slots, _, shown, rfl⟩ | ⟨_, mid, top, b, log, adds, lays, shown, kind, _⟩ := inserts
  · refine ⟨rfl, waning.frame frame (waning.wanes.of_inode ?_ ?_)⟩
    · rw [shown]
    · rw [shown]
      exact fun _ alive => alive
  · have leaks := adds.leaks.trans lays.leaks
    have wanes : x.Wanes top := waning.wanes.of_inode leaks.inode fun j alive => by
      rwa [leaks.live] at alive
    refine ⟨kind, waning.frame frame ?_⟩
    rw [shown]
    exact wanes.writeInode (seen.of_dir isDir kind)

variable {oldParent newParent : Inode} {oldNum src newNum : Nat}

theorem moveEntry_waning (waning : Waning v x s)
    (old : Seen x oldNum oldParent) (new : Seen x newNum newParent)
    (newDir : newParent.kind = .dir) (oldName newName : Name) :
    (moveEntry v oldNum oldParent oldName newNum newParent newName src n).Meets s
      (fun _ => Waning v x) fun _ => Waning v x := by
  refine (addDirEntry_waning waning new newDir src newName n.fileType).step ?_
  rintro ⟨newParent', held⟩ t ⟨kind, added⟩
  refine (changeDir_waning added oldParent (zeroEntryInBlock oldName)).step ?_
  intro _ u zeroed
  split
  · refine (changeDir_waning zeroed n (setDotDot newNum)).step ?_
    intro _ w linked
    rw [meets_bind, meets_modify, meets_modify]
    exact (linked.writeInode old.dropLink).writeInode (new.of_dir newDir kind)
  · exact zeroed

structure Intact (v : Shape) (s t : FS) : Prop where
  inodes : ∀ i, (view v s.now).live i →
    (view v t.now).live i ∧ (view v t.now).inode i = (view v s.now).inode i
  entries : ∀ i, (view v s.now).live i → (view v t.now).entries i = (view v s.now).entries i
  contents : ∀ i, (view v s.now).live i → ∀ b ∈ (view v s.now).mapped i,
    (view v t.now).block b = (view v s.now).block b

theorem Intact.refl (s : FS) : Intact v s s := ⟨fun _ alive => ⟨alive, rfl⟩, fun _ _ => rfl, fun _ _ _ _ => rfl⟩

theorem Acted.not_intact (acted : Acted v s t) : ¬ Intact v s t := by
  intro intact
  obtain ⟨i, alive, gone | ⟨_, fewer⟩⟩ := acted.worn
  · rw [(intact.inodes i alive).1] at gone
    cases gone
  · rw [(intact.inodes i alive).2] at fewer
    exact Nat.lt_irrefl _ fewer

/-- The path names the directory `n` with number `i`, and not through a symlink at its end. -/
structure Names (v : Shape) (s : FS) (path : Path) (i : Nat) (n : Inode) : Prop where
  found : s.lookupPath v (components path) = .ok (i, n)
  entry : ∀ num dir name, s.lookupParent v path = .ok (num, dir, name) →
    s.findEntry v dir name = .ok (some (i, n))
  isDir : n.kind = .dir

/-- Removing what is at `newPath` is refused before anything is removed, and `newPath` is not the
entry that is renamed. A path without a parent is refused before all that. -/
def Spared (v : Shape) (fuel : Nat) (s : FS) (oldPath newPath : Path) : Prop :=
  ∀ oldNum oldParent oldName num dir name, s.lookupParent v oldPath = .ok (oldNum, oldParent, oldName) →
    s.lookupParent v newPath = .ok (num, dir, name) →
      ¬ (oldNum = num ∧ oldName = name) ∧ s.dirStance v fuel newPath = .refuses

variable {dst : Inode} {oldName : Name} {oldPath newPath : Path} {d : Nat}

theorem firstStance_ne_skips (stances : List Stance) : firstStance stances ≠ .skips := by
  induction stances with
  | nil => exact nofun
  | cons first rest ih => cases first <;> simp [firstStance, ih]

/-- The path leads somewhere, so its removal is not passed over. -/
theorem Names.not_skipped {path : Path} {name : Name} (names : Names v s path i n)
    (parent : s.lookupParent v path = .ok (num, dir, name)) (fuel : Nat) : s.dirStance v fuel path ≠ .skips := by
  cases fuel with
  | zero => exact nofun
  | succ fuel =>
    rw [dirStance, stance, parent, names.found]
    simp only [names.isDir, ne_eq, not_true_eq_false, if_false]
    split
    · exact nofun
    · exact firstStance_ne_skips _

section
variable (sane : Sane v s) (fuel : Nat)
include sane

theorem replace_obeys (old : s.lookupParent v oldPath = .ok (oldNum, oldParent, oldName)) {newName : Name}
    (new : s.lookupParent v newPath = .ok (newNum, newParent, newName)) (isDir : n.kind = .dir)
    (names : Names v s newPath d dst) :
    Prog.Meets (do
      replace v fuel newPath n dst
      moveEntry v oldNum oldParent oldName newNum newParent newName src n) s
      (fun _ t => s.dirStance v fuel newPath = .acts ∧ Acted v s t) (Balks v s (s.dirStance v fuel newPath)) := by
  have dirs : replace v fuel newPath n dst = removeDir v fuel newPath := by
    simp [replace, isDir, names.isDir]
  rw [dirs]
  refine (removeDir_obeys sane fuel newPath).step ?_
  rintro _ t (⟨skips, _⟩ | ⟨acts, acted⟩)
  · exact absurd skips (names.not_skipped new fuel)
  · have oldDir := (lookupParent_ok old).2.2.1
    have newDir := (lookupParent_ok new).2.2.1
    refine (moveEntry_waning (Waning.start acted.toQuiet)
      (acted.seen ((sane.parent old).seen sane.toQuiet) oldDir)
      (acted.seen ((sane.parent new).seen sane.toQuiet) newDir) newDir oldName newName).mono ?_ ?_
    · exact fun _ u waning => ⟨acts, acted.after waning⟩
    · intro _ u waning
      rw [acts]
      exact .acted (acted.after waning)

theorem rename_judged (source : Names v s oldPath src n) (names : Names v s newPath d dst) :
    (rename v fuel oldPath newPath).Meets s (fun _ _ => ¬ Spared v fuel s oldPath newPath)
      fun e t => Spared v fuel s oldPath newPath ∧ e ≠ .noFuel ∧ t = s ∨
        ¬ Spared v fuel s oldPath newPath ∧ (e = .noFuel ∨ Acted v s t) := by
  have benign : ∀ {path : Path} {e : Err}, s.lookupParent v path = .error e → e ≠ .noFuel := by
    rintro path _ failed rfl
    cases lookupParent_benign path _ failed
  refine .look (fun from' old => ?_) fun e failed => .inl ⟨fun _ _ _ _ _ _ old => ?_, benign failed, rfl⟩
  · obtain ⟨oldNum, oldParent, oldName⟩ := from'
    refine .look (fun into new => ?_) fun e failed => .inl ⟨fun _ _ _ _ _ _ _ new => ?_, benign failed, rfl⟩
    · obtain ⟨newNum, newParent, newName⟩ := into
      have spared : Spared v fuel s oldPath newPath ↔
          ¬ (oldNum = newNum ∧ oldName = newName) ∧ s.dirStance v fuel newPath = .refuses := by
        refine ⟨fun spared => spared _ _ _ _ _ _ old new, fun both _ _ _ _ _ _ old' new' => ?_⟩
        cases old.symm.trans old'
        cases new.symm.trans new'
        exact both
      rw [spared]
      dsimp only
      split
      next same => exact fun both => both.1 same
      next apart =>
        refine .known (source.entry _ _ _ old) (.known (names.entry _ _ _ new) ?_)
        refine (replace_obeys sane fuel old new source.isDir names).mono ?_ ?_
        · rintro _ t ⟨acts, _⟩ both
          cases acts.symm.trans both.2
        · intro e t failed
          generalize s.dirStance v fuel newPath = stance at failed
          cases failed with
          | refused other => exact .inl ⟨⟨apart, rfl⟩, other, rfl⟩
          | deeper => exact .inr ⟨fun both => (by cases both.2), .inl rfl⟩
          | acted acted => exact .inr ⟨fun both => (by cases both.2), .inr acted⟩
    · cases failed.symm.trans new
  · cases failed.symm.trans old

end

theorem Spared.mono {fuel more : Nat} (enough : fuel ≤ more) (spared : Spared v fuel s oldPath newPath) :
    Spared v more s oldPath newPath := by
  intro _ _ _ _ _ _ old new
  obtain ⟨apart, refuses⟩ := spared _ _ _ _ _ _ old new
  exact ⟨apart, by rw [FS.dirStance_mono enough newPath (by rw [refuses]; decide), refuses]⟩

/-- Renaming a directory onto a directory returns an error with the tree as it was exactly when the
removal of what is there is refused before anything is removed. -/
theorem rename_spares_iff (sane : Sane v s) {n : Inode} (source : Names v s oldPath src n)
    (names : Names v s newPath d dst) :
    (∃ enough, ∀ fuel ≥ enough, ∃ e t, rename v fuel oldPath newPath s = (.error e, t) ∧ e ≠ .noFuel ∧ Intact v s t) ↔
      ∃ fuel, Spared v fuel s oldPath newPath := by
  constructor
  · rintro ⟨fuel, returns⟩
    obtain ⟨e, t, ran, followed, intact⟩ := returns fuel (Nat.le_refl _)
    obtain ⟨spared, -, -⟩ | ⟨-, noFuel | acted⟩ := (rename_judged sane fuel source names).error ran
    · exact ⟨fuel, spared⟩
    · exact absurd noFuel followed
    · exact absurd intact acted.not_intact
  · rintro ⟨enough, spared⟩
    refine ⟨enough, fun fuel more => ?_⟩
    have spared := spared.mono more
    have judged := rename_judged sane fuel source names
    cases ran : rename v fuel oldPath newPath s with
    | mk outcome t =>
      cases outcome with
      | ok done => exact absurd spared (judged.ok ran)
      | error e =>
        obtain ⟨-, followed, rfl⟩ | ⟨lost, -⟩ := judged.error ran
        · exact ⟨e, t, rfl, followed, Intact.refl t⟩
        · exact absurd spared lost

/-! Two directories `/a` and `/b`. A symlink to `/a` inside `/b` is refused; a directory inside `/b` is
not. -/

def twoDirs : FS :=
  (makeDir (fmtShape 30) ['/', 'b'] 0o755
    (makeDir (fmtShape 30) ['/', 'a'] 0o755 (formatted 30 [] true)).2).2

def withSymlink : FS := (makeSymlink (fmtShape 30) ['/', 'a'] ['/', 'b', '/', 'l'] twoDirs).2

theorem withSymlink_sane : Sane (fmtShape 30) withSymlink where
  closed := by decide
  unreserved g := by
    cases g with
    | zero => decide
    | succ k => rfl
  linked := by decide +kernel
  sound := by decide +kernel

theorem rename_spares_symlink : ∃ enough, ∀ fuel ≥ enough, ∃ e t,
    rename (fmtShape 30) fuel ['/', 'a'] ['/', 'b'] withSymlink = (.error e, t) ∧ e ≠ .noFuel ∧
      Intact (fmtShape 30) withSymlink t := by
  have old : withSymlink.lookupParent (fmtShape 30) ['/', 'a'] =
      .ok (rootIno, inodeAt (fmtShape 30) withSymlink.image rootIno, ['a']) := by decide
  have new : withSymlink.lookupParent (fmtShape 30) ['/', 'b'] =
      .ok (rootIno, inodeAt (fmtShape 30) withSymlink.image rootIno, ['b']) := by decide
  have source : Names (fmtShape 30) withSymlink ['/', 'a'] 11 (inodeAt (fmtShape 30) withSymlink.image 11) := by
    refine ⟨by decide, fun num dir name search => ?_, by decide⟩
    cases old.symm.trans search
    decide
  have names : Names (fmtShape 30) withSymlink ['/', 'b'] 12 (inodeAt (fmtShape 30) withSymlink.image 12) := by
    refine ⟨by decide, fun num dir name search => ?_, by decide⟩
    cases new.symm.trans search
    decide
  refine (rename_spares_iff withSymlink_sane source names).mpr ⟨2, fun _ _ _ _ _ _ search search' => ?_⟩
  cases old.symm.trans search
  cases new.symm.trans search'
  exact ⟨by decide, by decide⟩

def withSubdir : FS := (makeDir (fmtShape 30) ['/', 'b', '/', 'c'] 0o755 twoDirs).2

/-- The directory `/b` with `/b/c` in it is replaced by `/a`, and `/b/c` is gone. -/
theorem rename_destroys_nonempty :
    ⟨13, ['c'], .dir⟩ ∈ (view (fmtShape 30) withSubdir.image).entries 12 ∧
      (rename (fmtShape 30) 3 ['/', 'a'] ['/', 'b'] withSubdir).1 = .ok () ∧
      (view (fmtShape 30) withSubdir.image).live 13 ∧
      (view (fmtShape 30) (rename (fmtShape 30) 3 ['/', 'a'] ['/', 'b'] withSubdir).2.image).live 13 =
        false := by
  decide

end Ext4.Volume
