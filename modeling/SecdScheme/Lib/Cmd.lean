import Mathlib.Tactic.Common

/-!
# Commands that keep the state they reached

A command runs on a state, may fail, and – unlike a computation in
`StateT σ (Except ε)` – keeps the state it had reached when it failed. That
is how a program with destructive updates behaves: an error half-way leaves
the updates made so far.
-/

/-- A command on states `σ` that returns `α` or fails with `ε`. -/
def Cmd (σ ε α : Type) : Type := σ → Except ε α × σ

namespace Cmd

variable {σ ε α β : Type}

/-- The rest of a command, unless the first part failed. -/
def andThen (m : Cmd σ ε α) (f : α → Cmd σ ε β) : Cmd σ ε β := fun s =>
  match m s with
  | (.ok a, s') => f a s'
  | (.error e, s') => (.error e, s')

instance : Monad (Cmd σ ε) where
  pure a := fun s => (.ok a, s)
  bind := andThen

/-- Fail here. -/
def fail (e : ε) : Cmd σ ε α := fun s => (.error e, s)

/-- The current state. -/
def getState : Cmd σ ε σ := fun s => (.ok s, s)

/-- Replace the state. -/
def modifyState (f : σ → σ) : Cmd σ ε Unit := fun s => (.ok (), f s)

/-- A result that may be an error, without any effect. -/
def ofExcept : Except ε α → Cmd σ ε α
  | .ok a => pure a
  | .error e => fail e

/-- A command for each element, in order. -/
def mapList (f : α → Cmd σ ε β) : List α → Cmd σ ε (List β)
  | [] => return []
  | a :: as => do
    let b ← f a
    return b :: (← mapList f as)

/-- A command, and then a change of the state whether it failed or not. -/
def finallyDo (m : Cmd σ ε α) (f : σ → σ) : Cmd σ ε α := fun s => ((m s).1, f (m s).2)

@[simp] theorem pure_run (a : α) (s : σ) : (pure a : Cmd σ ε α) s = (.ok a, s) := rfl

@[simp] theorem fail_run (e : ε) (s : σ) : (fail e : Cmd σ ε α) s = (.error e, s) := rfl

@[simp] theorem getState_run (s : σ) : (getState : Cmd σ ε σ) s = (.ok s, s) := rfl

@[simp] theorem modifyState_run (f : σ → σ) (s : σ) :
    (modifyState f : Cmd σ ε Unit) s = (.ok (), f s) := rfl

@[simp] theorem ofExcept_ok_run (a : α) (s : σ) :
    (ofExcept (.ok a) : Cmd σ ε α) s = (.ok a, s) := rfl

@[simp] theorem ofExcept_error_run (e : ε) (s : σ) :
    (ofExcept (.error e) : Cmd σ ε α) s = (.error e, s) := rfl

/-- **A command whose first part returned** goes on from the state reached. -/
theorem bind_run_ok {m : Cmd σ ε α} {s s' : σ} {a : α} (h : m s = (.ok a, s'))
    (f : α → Cmd σ ε β) : (m >>= f) s = f a s' := by
  show andThen m f s = f a s'
  rw [andThen, h]

/-- A command whose first part failed has failed. -/
theorem bind_run_error {m : Cmd σ ε α} {s s' : σ} {e : ε} (h : m s = (.error e, s'))
    (f : α → Cmd σ ε β) : (m >>= f) s = (.error e, s') := by
  show andThen m f s = _
  rw [andThen, h]

@[simp] theorem pure_bind_run (a : α) (f : α → Cmd σ ε β) (s : σ) :
    ((pure a : Cmd σ ε α) >>= f) s = f a s := rfl

/-- What is returned is handed on. -/
theorem pure_bind_eq (a : α) (f : α → Cmd σ ε β) : ((pure a : Cmd σ ε α) >>= f) = f a := rfl

/-- A bind, read as a case split on its first part. -/
theorem bind_run (m : Cmd σ ε α) (f : α → Cmd σ ε β) (s : σ) :
    (m >>= f) s = match m s with
      | (.ok a, s') => f a s'
      | (.error e, s') => (.error e, s') := rfl

/-- Sequencing is associative. -/
theorem bind_assoc_run {γ : Type} (m : Cmd σ ε α) (f : α → Cmd σ ε β) (g : β → Cmd σ ε γ) :
    ((m >>= f) >>= g) = (m >>= fun a => f a >>= g) := by
  funext s
  simp only [bind_run]
  rcases m s with ⟨_ | a, s'⟩ <;> rfl

/-- What is made of a result in the end leaves the state alone. -/
theorem bind_pure_snd (m : Cmd σ ε α) (f : α → β) (s : σ) :
    ((m >>= fun a => pure (f a)) s).2 = (m s).2 := by
  rw [bind_run]
  rcases m s with ⟨_ | a, s'⟩ <;> rfl

/-- Returning nothing at the end of a command that returns nothing. -/
theorem bind_pure_unit (m : Cmd σ ε Unit) : (m >>= fun _ => pure ()) = m := by
  funext s
  rw [bind_run]
  rcases m s with ⟨_ | ⟨⟩, s'⟩ <;> rfl

/-- **What a returning sequence did**: its first part returned. -/
theorem exists_of_bind_ok {m : Cmd σ ε α} {f : α → Cmd σ ε β} {s s' : σ} {b : β}
    (h : (m >>= f) s = (.ok b, s')) : ∃ a s₁, m s = (.ok a, s₁) ∧ f a s₁ = (.ok b, s') := by
  rw [bind_run] at h
  cases hm : m s with
  | mk r s₁ =>
    rw [hm] at h
    cases r with
    | ok a => exact ⟨a, s₁, rfl, h⟩
    | error e => exact absurd h (by simp)

/-- A run that returns. -/
theorem exists_of_isOk {m : Cmd σ ε α} {s : σ} (h : (m s).1.isOk = true) :
    ∃ a s', m s = (.ok a, s') := by
  cases hm : m s with
  | mk r s' =>
    rw [hm] at h
    cases r with
    | ok a => exact ⟨a, s', rfl⟩
    | error e => cases h

theorem eq_of_pure_ok {a b : α} {s s' : σ} (h : (pure a : Cmd σ ε α) s = (.ok b, s')) :
    a = b ∧ s = s' :=
  ⟨Except.ok.inj (Prod.mk.inj h).1, (Prod.mk.inj h).2⟩

/-! ## Commands that return less -/

/-- **A command that returns less**: what it returns, the other one returns from
the same state. -/
def Refines (m m' : Cmd σ ε α) : Prop := ∀ s a s', m s = (.ok a, s') → m' s = (.ok a, s')

namespace Refines

variable {m m' : Cmd σ ε α} {f f' : α → Cmd σ ε β}

theorem refl (m : Cmd σ ε α) : Refines m m := fun _ _ _ => id

theorem fail (e : ε) : Refines (Cmd.fail e : Cmd σ ε α) m := fun _ _ _ h => nomatch h

theorem bind (h : Refines m m') (hf : ∀ a, Refines (f a) (f' a)) :
    Refines (m >>= f) (m' >>= f') := by
  intro s b s' hrun
  obtain ⟨a, s₁, ha, hb⟩ := exists_of_bind_ok hrun
  rw [bind_run_ok (h s a s₁ ha)]
  exact hf a s₁ b s' hb

/-- The same first part. -/
theorem after (m : Cmd σ ε α) (hf : ∀ a, Refines (f a) (f' a)) :
    Refines (m >>= f) (m >>= f') :=
  (refl m).bind hf

theorem ite {m₁ m₁' : Cmd σ ε α} {c : Prop} [Decidable c] (h : Refines m m')
    (h₁ : Refines m₁ m₁') : Refines (if c then m else m₁) (if c then m' else m₁') := by
  split
  · exact h
  · exact h₁

end Refines

end Cmd
