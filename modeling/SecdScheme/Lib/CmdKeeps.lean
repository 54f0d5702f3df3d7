import SecdScheme.Lib.CmdGhost
import Mathlib.Order.Defs.Unbundled

/-!
# What a command keeps

`Keeps R m` says that the state before the command `m` and the state after it
are in the relation `R`, whether it returns or fails. `R` is a preorder, so that
the rules follow a `do` block and nothing is known of what the parts return.
-/

namespace Cmd

variable {σ ε α β : Type} {R : σ → σ → Prop} {m m' : Cmd σ ε α} {f : α → Cmd σ ε β}

/-- **The state before is related to the state after.** -/
def Keeps (R : σ → σ → Prop) (m : Cmd σ ε α) : Prop := ∀ s, R s (m s).2

namespace Keeps

variable [IsPreorder σ R]

theorem of_reads (h : Reads m) : Keeps R m := by
  intro s
  rw [h s]
  exact refl_of R s

theorem pure {a : α} : Keeps R (Pure.pure a : Cmd σ ε α) := .of_reads .pure

theorem fail {e : ε} : Keeps R (Cmd.fail e : Cmd σ ε α) := .of_reads .fail

theorem bind (h : Keeps R m) (hf : ∀ a, Keeps R (f a)) : Keeps R (m >>= f) := by
  intro s
  rw [bind_run]
  have hs := h s
  rcases hm : m s with ⟨e | a, s'⟩ <;> rw [hm] at hs
  · exact hs
  · exact trans_of R hs (hf a s')

theorem bind_reads (hm : Reads m) (hf : ∀ a, Keeps R (f a)) : Keeps R (m >>= f) :=
  (of_reads hm).bind hf

end Keeps

theorem Keeps.modifyState {g : σ → σ} (h : ∀ s, R s (g s)) :
    Keeps R (Cmd.modifyState g : Cmd σ ε Unit) := h

/-- What is done in the end keeps it too. -/
theorem Keeps.finallyDo [IsPreorder σ R] {g : σ → σ} (h : Keeps R m) (hg : ∀ s, R s (g s)) :
    Keeps R (Cmd.finallyDo m g) := fun s => trans_of R (h s) (hg _)

end Cmd
