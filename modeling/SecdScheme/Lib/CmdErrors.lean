import SecdScheme.Lib.CmdGhost

/-!
# The errors of a command

`Errs E m s` says that the command `m`, if it fails from the state `s`, fails
with an error of the kind `E`. The rules follow a `do` block; `Errs.bind` hands
on what the first part returned and the state it reached, so that what is
known of a state can be used after it.
-/

namespace Cmd

variable {σ ε α β : Type} {E : ε → Prop} {m : Cmd σ ε α} {f : α → Cmd σ ε β} {s : σ}

/-- **The errors a command may fail with** from a state. -/
def Errs (E : ε → Prop) (m : Cmd σ ε α) (s : σ) : Prop := ∀ e s', m s = (.error e, s') → E e

namespace Errs

theorem pure {a : α} : Errs E (Pure.pure a : Cmd σ ε α) s := fun _ _ h => nomatch h

theorem getState : Errs E (Cmd.getState : Cmd σ ε σ) s := fun _ _ h => nomatch h

theorem modifyState {f : σ → σ} : Errs E (Cmd.modifyState f : Cmd σ ε Unit) s :=
  fun _ _ h => nomatch h

theorem fail {e : ε} (h : E e) : Errs E (Cmd.fail e : Cmd σ ε α) s := by
  intro e' s' h'
  obtain rfl := Except.error.inj (Prod.mk.inj h').1
  exact h

/-- A command that returns has no error. -/
theorem of_ok {a : α} {s' : σ} (h : m s = (.ok a, s')) : Errs E m s := by
  intro e s'' h'
  cases h.symm.trans h'

theorem bind (h : Errs E m s) (hf : ∀ a s', m s = (.ok a, s') → Errs E (f a) s') :
    Errs E (m >>= f) s := by
  intro e s' h'
  rw [bind_run] at h'
  rcases hrun : m s with ⟨e' | a, s₁⟩
  · rw [hrun] at h'
    obtain rfl := Except.error.inj (Prod.mk.inj h').1
    exact h e' s₁ hrun
  · rw [hrun] at h'
    exact hf a s₁ hrun e s' h'

/-- The first part returns. -/
theorem bind_ok {a : α} {s' : σ} (h : m s = (.ok a, s')) (hf : Errs E (f a) s') :
    Errs E (m >>= f) s := by
  intro e s'' h'
  rw [bind_run_ok h] at h'
  exact hf e s'' h'

/-- The first part only reads. -/
theorem bind_reads (hm : Reads m) (h : Errs E m s)
    (hf : ∀ a, m s = (.ok a, s) → Errs E (f a) s) : Errs E (m >>= f) s := by
  refine h.bind fun a s' hrun => ?_
  have hs := hm s
  rw [hrun] at hs
  obtain rfl : s' = s := hs
  exact hf a hrun

theorem ite {m' : Cmd σ ε α} {c : Prop} [Decidable c] (h : c → Errs E m s)
    (h' : ¬ c → Errs E m' s) : Errs E (if c then m else m') s := by
  split
  · exact h ‹_›
  · exact h' ‹_›

theorem mono {E' : ε → Prop} (h : Errs E m s) (hE : ∀ e, E e → E' e) : Errs E' m s :=
  fun e s' hrun => hE e (h e s' hrun)

/-- The change of the state at the end fails with nothing. -/
theorem finallyDo {g : σ → σ} (h : Errs E m s) : Errs E (Cmd.finallyDo m g) s := by
  intro e s' hrun
  exact h e (m s).2 (Prod.ext (Prod.mk.inj hrun).1 rfl)

/-- **A command for each element**, with what is known of every state on the
way. -/
theorem mapList {as : List α} {g : α → Cmd σ ε β} {I : σ → Prop}
    (h : ∀ a ∈ as, ∀ s, I s → Errs E (g a) s)
    (hI : ∀ a ∈ as, ∀ s b s', I s → g a s = (.ok b, s') → I s') (hs : I s) :
    Errs E (Cmd.mapList g as) s := by
  induction as generalizing s with
  | nil => exact pure
  | cons a as ih =>
    unfold Cmd.mapList
    refine (h a List.mem_cons_self s hs).bind fun b s₁ hb => ?_
    have hs₁ := hI a List.mem_cons_self s b s₁ hs hb
    refine Errs.bind ?_ fun _ _ _ => pure
    exact ih (fun a' ha' => h a' (List.mem_cons_of_mem a ha'))
      (fun a' ha' => hI a' (List.mem_cons_of_mem a ha')) hs₁

end Errs

end Cmd
