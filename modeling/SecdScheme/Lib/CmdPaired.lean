import SecdScheme.Lib.Cmd

/-!
# Two commands on different states

`Paired F B x y` says that two runs end alike: both return, with results and
states in `B`, or both fail, with errors and states in `F`. The rules follow two
`do` blocks of one shape; what only one of them does is run first.
-/

namespace Cmd

variable {σ τ ε α β γ δ : Type} {F : ε → σ → ε → τ → Prop} {B : α → σ → β → τ → Prop}
  {C : γ → σ → δ → τ → Prop}

/-- **Two runs that end alike.** -/
inductive Paired (F : ε → σ → ε → τ → Prop) (B : α → σ → β → τ → Prop) :
    Except ε α × σ → Except ε β × τ → Prop
  | ok {a s b t} : B a s b t → Paired F B (.ok a, s) (.ok b, t)
  | error {e s e' t} : F e s e' t → Paired F B (.error e, s) (.error e', t)

namespace Paired

theorem bind {m : Cmd σ ε α} {m' : Cmd τ ε β} {f : α → Cmd σ ε γ} {f' : β → Cmd τ ε δ} {s : σ}
    {t : τ} (h : Paired F B (m s) (m' t))
    (hf : ∀ a s' b t', B a s' b t' → Paired F C (f a s') (f' b t')) :
    Paired F C ((m >>= f) s) ((m' >>= f') t) := by
  rw [bind_run, bind_run]
  generalize m s = x, m' t = y at h
  cases h with
  | ok h => exact hf _ _ _ _ h
  | error h => exact .error h

/-- The run of the first command is remembered. -/
theorem withRun {x : Except ε α × σ} {y : Except ε β × τ} (h : Paired F B x y) :
    Paired F (fun a s b t => B a s b t ∧ x = (.ok a, s)) x y := by
  cases h with
  | ok h => exact .ok ⟨h, rfl⟩
  | error h => exact .error h

/-- What the first command returns is changed. -/
theorem map {m : Cmd σ ε α} (g : α → γ) {C : γ → σ → β → τ → Prop} {s : σ} {y : Except ε β × τ}
    (h : Paired F B (m s) y) (hC : ∀ a s' b t', B a s' b t' → C (g a) s' b t') :
    Paired F C ((m >>= fun a => pure (g a)) s) y := by
  rw [bind_run]
  generalize m s = x at h
  cases h with
  | ok h => exact .ok (hC _ _ _ _ h)
  | error h => exact .error h

/-- What the second command returns is changed. -/
theorem mapRight {m' : Cmd τ ε β} (g : β → δ) {C : α → σ → δ → τ → Prop} {x : Except ε α × σ}
    {t : τ} (h : Paired F B x (m' t)) (hC : ∀ a s' b t', B a s' b t' → C a s' (g b) t') :
    Paired F C x ((m' >>= fun b => pure (g b)) t) := by
  rw [bind_run]
  generalize m' t = y at h
  cases h with
  | ok h => exact .ok (hC _ _ _ _ h)
  | error h => exact .error h

end Paired

end Cmd
