import Mathlib.Data.List.Basic

/-! Programs over a state that may fail.
A failure keeps the state the program had reached, so what was done before it stays done.
`Meets` is the weakest precondition: one postcondition for the result, one for the failure. -/

def Prog (σ ε α : Type) := σ → Except ε α × σ

namespace Prog

variable {σ ε α β : Type} {prog : Prog σ ε α} {t : σ} {a : α} {next : α → Prog σ ε β}

instance : Monad (Prog σ ε) where
  pure a := fun s => (.ok a, s)
  bind prog next := fun s =>
    match prog s with
    | (.ok a, t) => next a t
    | (.error e, t) => (.error e, t)

def fail (e : ε) : Prog σ ε α := fun s => (.error e, s)

def read (view : σ → α) : Prog σ ε α := fun s => (.ok (view s), s)

def tryRead (view : σ → Except ε α) : Prog σ ε α := fun s => (view s, s)

def modify (change : σ → σ) : Prog σ ε Unit := fun s => (.ok (), change s)

def onFailure (prog : Prog σ ε α) (handler : σ → σ) : Prog σ ε α := fun s =>
  match prog s with
  | (.ok a, t) => (.ok a, t)
  | (.error e, t) => (.error e, handler t)

def forEach (body : α → Prog σ ε Unit) : List α → Prog σ ε Unit
  | [] => pure ()
  | a :: rest => do
      body a
      forEach body rest

theorem bind_eq_ok {prog : Except ε α} {next : α → Except ε β} {b : β} :
    (prog >>= next) = .ok b ↔ ∃ a, prog = .ok a ∧ next a = .ok b := by
  cases prog with
  | error e =>
    constructor
    · intro no
      cases no
    · rintro ⟨_, no, _⟩
      cases no
  | ok a =>
    constructor
    · exact fun ran => ⟨a, rfl, ran⟩
    · rintro ⟨_, same, ran⟩
      cases same
      exact ran

theorem ended {run : Except ε α × σ} {outcome : Except ε α} (known : run.1 = outcome) :
    run = (outcome, run.2) := Prod.ext known rfl

theorem bind_run {s : σ} (ran : prog s = (.ok a, t)) : (prog >>= next) s = next a t := by
  change (match prog s with
    | (.ok a, t) => next a t
    | (.error e, t) => (.error e, t)) = _
  rw [ran]

/-! ## Pre- and postconditions -/

/-- From `s` the program ends with a result and a state in `post`, or with a failure in `failed`. -/
def Meets (prog : Prog σ ε α) (s : σ) (post : α → σ → Prop) (failed : ε → σ → Prop) : Prop :=
  match prog s with
  | (.ok a, t) => post a t
  | (.error e, t) => failed e t

variable {s : σ} {post post' : α → σ → Prop} {failed failed' : ε → σ → Prop} {e : ε} {view : σ → Except ε α}

section
variable (meets : prog.Meets s post failed) (good : ∀ a t, post a t → post' a t)
include meets good

theorem Meets.mono
    (bad : ∀ e t, failed e t → failed' e t) : prog.Meets s post' failed' := by
  unfold Meets at meets ⊢
  split at meets
  · exact good _ _ meets
  · exact bad _ _ meets

theorem Meets.imp :
    prog.Meets s post' failed :=
  meets.mono good fun _ _ bad => bad

theorem Meets.yields :
    prog.Meets s post' fun _ _ => True :=
  meets.mono good fun _ _ _ => trivial

end

theorem Meets.and (meets : prog.Meets s post failed) (also : prog.Meets s post' failed') :
    prog.Meets s (fun a t => post a t ∧ post' a t) fun e t => failed e t ∧ failed' e t := by
  unfold Meets at *
  split <;> simp_all

theorem Meets.of_eq {other : Prog σ ε α} (same : prog s = other t)
    (meets : other.Meets t post failed) : prog.Meets s post failed := by
  unfold Meets at *
  rwa [same]

theorem Meets.of_ok (ran : prog s = (.ok a, t)) (good : post a t) : prog.Meets s post failed := by
  rwa [Meets, ran]

theorem Meets.of_error (ran : prog s = (.error e, t)) (bad : failed e t) : prog.Meets s post failed := by
  rwa [Meets, ran]

theorem Meets.ok (meets : prog.Meets s post failed) (ran : prog s = (.ok a, t)) : post a t := by
  rw [Meets, ran] at meets
  exact meets

theorem Meets.error (meets : prog.Meets s post failed) (ran : prog s = (.error e, t)) : failed e t := by
  rw [Meets, ran] at meets
  exact meets

theorem Meets.fails
    (meets : prog.Meets s (fun _ _ => False) fun e' t' => e' = e ∧ t' = t) : prog s = (.error e, t) := by
  rcases ran : prog s with ⟨e' | a, t'⟩
  · obtain ⟨rfl, rfl⟩ := meets.error ran
    rfl
  · exact (meets.ok ran).elim

theorem Meets.returns (meets : prog.Meets s post fun _ _ => False) :
    ∃ a t, prog s = (.ok a, t) ∧ post a t := by
  rcases ran : prog s with ⟨e | a, t⟩
  · exact (meets.error ran).elim
  · exact ⟨a, t, rfl, meets.ok ran⟩

theorem Meets.any (prog : Prog σ ε α) (s : σ) : prog.Meets s (fun _ _ => True) fun _ _ => True := by
  unfold Meets
  split <;> trivial

@[simp] theorem meets_pure (a : α) : (pure a : Prog σ ε α).Meets s post failed ↔ post a s := Iff.rfl

@[simp] theorem meets_read (view : σ → α) :
    (read view : Prog σ ε α).Meets s post failed ↔ post (view s) s := Iff.rfl

theorem meets_tryRead (view : σ → Except ε α) : (tryRead view).Meets s post failed ↔
      (∀ a, view s = .ok a → post a s) ∧ ∀ e, view s = .error e → failed e s := by
  unfold Meets tryRead
  cases view s <;> simp

theorem Meets.tryRead (known : view s = .ok a) (good : post a s) :
    (Prog.tryRead view).Meets s post failed := by
  unfold Meets Prog.tryRead
  rwa [known]

@[simp] theorem meets_modify (change : σ → σ) {post : Unit → σ → Prop} :
    (modify change : Prog σ ε Unit).Meets s post failed ↔ post () (change s) := Iff.rfl

@[simp] theorem meets_bind (prog : Prog σ ε α) (next : α → Prog σ ε β) {post : β → σ → Prop} :
    (prog >>= next).Meets s post failed ↔ prog.Meets s (fun a t => (next a).Meets t post failed) failed := by
  change (match (match prog s with
    | (.ok a, t) => next a t
    | (.error e, t) => (.error e, t)) with
    | (.ok b, t) => post b t
    | (.error e, t) => failed e t) ↔ _
  unfold Meets
  cases prog s with
  | mk outcome t => cases outcome <;> rfl

@[simp] theorem meets_onFailure (prog : Prog σ ε α) (handler : σ → σ) :
    (prog.onFailure handler).Meets s post failed ↔ prog.Meets s post fun e t => failed e (handler t) := by
  unfold Meets onFailure
  cases prog s with
  | mk outcome t => cases outcome <;> rfl

theorem Meets.seq {post : β → σ → Prop} {between : α → σ → Prop} (first : prog.Meets s between failed')
    (later : ∀ a t, between a t → (next a).Meets t post failed)
    (bad : ∀ e t, failed' e t → failed e t) : (prog >>= next).Meets s post failed :=
  (meets_bind prog next).mpr (first.mono later bad)

theorem Meets.step {post : β → σ → Prop} {between : α → σ → Prop} (first : prog.Meets s between failed)
    (later : ∀ a t, between a t → (next a).Meets t post failed) : (prog >>= next).Meets s post failed :=
  first.seq later fun _ _ bad => bad

theorem Meets.look {post : β → σ → Prop} (good : ∀ a, view s = .ok a → (next a).Meets s post failed)
    (bad : ∀ e, view s = .error e → failed e s) : (Prog.tryRead view >>= next).Meets s post failed :=
  (meets_bind _ next).mpr ((meets_tryRead view).mpr ⟨good, bad⟩)

theorem Meets.known {post : β → σ → Prop} (found : view s = .ok a) (rest : (next a).Meets s post failed) :
    (Prog.tryRead view >>= next).Meets s post failed :=
  (meets_bind _ next).mpr (.tryRead found rest)

theorem meets_forEach {body : α → Prog σ ε Unit} {holds : σ → Prop} (items : List α) (initially : holds s)
    (kept : ∀ a ∈ items, ∀ t, holds t → (body a).Meets t (fun _ => holds) failed) :
    (forEach body items).Meets s (fun _ => holds) failed := by
  induction items generalizing s with
  | nil => exact initially
  | cons a rest ih =>
    rw [forEach, meets_bind]
    refine (kept a List.mem_cons_self s initially).mono (fun _ t after => ?_) fun _ _ bad => bad
    exact ih after fun b mem => kept b (List.mem_cons_of_mem _ mem)

end Prog

export Prog (meets_pure meets_read meets_tryRead meets_modify meets_bind meets_onFailure meets_forEach)
