import SecdScheme.Lib.Cmd
import Mathlib.Order.Defs.PartialOrder

/-!
# Commands followed by certified states

A certified state is a state together with what is known about it: an
invariant, or ghost data the program does not have. `Follows g m B` says that
the command `m`, started in the state of `g`, ends in the state of some later
certified state, whether it returns or fails, and that `B` holds of what it
returns. Certified states are ordered, and what is known about a link or a
name is meant to be kept by every later state.

The rules follow a `do` block: `Follows.bind` moves on to a later certified
state, and `Follows.bind_reads` stays where it is.
-/

namespace Cmd

variable {σ ε α β γ : Type} [Preorder γ] {state : γ → σ} {g g' : γ} {m : Cmd σ ε α}
  {f : α → Cmd σ ε β} {B B' : α → γ → Prop} {C : β → γ → Prop}

/-- **A run between certified states.** -/
def Follows (state : γ → σ) (g : γ) (m : Cmd σ ε α) (B : α → γ → Prop) : Prop :=
  match m (state g) with
  | (.ok a, s') => ∃ g', state g' = s' ∧ g ≤ g' ∧ B a g'
  | (.error _, s') => ∃ g', state g' = s' ∧ g ≤ g'

/-- Whatever a command returns, from whatever state, has a property. -/
def Returns (m : Cmd σ ε α) (P : α → Prop) : Prop := ∀ s a s', m s = (.ok a, s') → P a

/-- A command that leaves the state as it is. -/
def Reads (m : Cmd σ ε α) : Prop := ∀ s, (m s).2 = s

namespace Follows

/-- **The two ways a run ends.** -/
theorem outcomes (h : Follows state g m B) :
    (∃ a g', m (state g) = (.ok a, state g') ∧ g ≤ g' ∧ B a g') ∨
      ∃ e g', m (state g) = (.error e, state g') ∧ g ≤ g' := by
  rw [Follows] at h
  rcases hrun : m (state g) with ⟨e | a, s'⟩ <;> rw [hrun] at h
  · obtain ⟨g', rfl, hg⟩ := h
    exact .inr ⟨e, g', rfl, hg⟩
  · obtain ⟨g', rfl, hg, hb⟩ := h
    exact .inl ⟨a, g', rfl, hg, hb⟩

theorem of_ok {a : α} (g' : γ) (h : m (state g) = (.ok a, state g')) (hg : g ≤ g') (hb : B a g') :
    Follows state g m B := by
  rw [Follows, h]
  exact ⟨g', rfl, hg, hb⟩

theorem of_error {e : ε} (g' : γ) (h : m (state g) = (.error e, state g')) (hg : g ≤ g') :
    Follows state g m B := by
  rw [Follows, h]
  exact ⟨g', rfl, hg⟩

/-- The state reached is certified. -/
theorem exists_state (h : Follows state g m B) : ∃ g', state g' = (m (state g)).2 ∧ g ≤ g' := by
  rcases h.outcomes with ⟨a, g', hrun, hg, -⟩ | ⟨e, g', hrun, hg⟩ <;>
    exact ⟨g', by rw [hrun], hg⟩

theorem post (h : Follows state g m B) (hB : ∀ a g', g ≤ g' → B a g' → B' a g') :
    Follows state g m B' := by
  rcases h.outcomes with ⟨a, g', hrun, hg, hb⟩ | ⟨e, g', hrun, hg⟩
  · exact of_ok _ hrun hg (hB a g' hg hb)
  · exact of_error _ hrun hg

theorem pure {a : α} (h : B a g) : Follows state g (Pure.pure a : Cmd σ ε α) B :=
  ⟨g, rfl, le_refl g, h⟩

theorem fail {e : ε} : Follows state g (Cmd.fail e : Cmd σ ε α) B :=
  ⟨g, rfl, le_refl g⟩

/-- **One command after another.** -/
theorem bind (h : Follows state g m B)
    (hf : ∀ a g', g ≤ g' → B a g' → Follows state g' (f a) C) :
    Follows state g (m >>= f) C := by
  rcases h.outcomes with ⟨a, g', hrun, hg, hb⟩ | ⟨e, g', hrun, hg⟩
  · rcases (hf a g' hg hb).outcomes with ⟨b, g'', hrun', hg', hc⟩ | ⟨e, g'', hrun', hg'⟩
    · exact of_ok _ ((bind_run_ok hrun f).trans hrun') (le_trans hg hg') hc
    · exact of_error _ ((bind_run_ok hrun f).trans hrun') (le_trans hg hg')
  · exact of_error _ (bind_run_error hrun f) hg

/-- After a command that never returns anything may come. -/
theorem bind_false (h : Follows state g m (fun _ _ => False)) : Follows state g (m >>= f) C :=
  h.bind fun _ _ _ hfalse => hfalse.elim

/-- **A command that reads** does not move on; what it returned is known. -/
theorem bind_reads (hm : Reads m)
    (hf : ∀ a, m (state g) = (.ok a, state g) → Follows state g (f a) C) :
    Follows state g (m >>= f) C := by
  have hs := hm (state g)
  rw [Follows, bind_run]
  rcases hrun : m (state g) with ⟨_ | a, s'⟩ <;> rw [hrun] at hs <;> subst hs
  · exact ⟨g, rfl, le_refl g⟩
  · exact hf a hrun

theorem of_reads (hm : Reads m) : Follows state g m (fun _ _ => True) := by
  have hs := hm (state g)
  rcases hrun : m (state g) with ⟨e | a, s'⟩ <;> rw [hrun] at hs <;> subst hs
  · exact of_error _ hrun (le_refl g)
  · exact of_ok _ hrun (le_refl g) trivial

theorem ite {m' : Cmd σ ε α} {c : Prop} [Decidable c] (h : c → Follows state g m B)
    (h' : ¬ c → Follows state g m' B) : Follows state g (if c then m else m') B := by
  split
  · exact h ‹_›
  · exact h' ‹_›

/-- A conditional step with a common rest. -/
theorem ite_bind {m' : Cmd σ ε α} {c : Prop} [Decidable c] (h : c → Follows state g m B)
    (h' : ¬ c → Follows state g m' B)
    (hf : ∀ a g', g ≤ g' → B a g' → Follows state g' (f a) C) :
    Follows state g (if c then m >>= f else m' >>= f) C :=
  .ite (fun hc => (h hc).bind hf) (fun hc => (h' hc).bind hf)

/-- An optional step before the rest. -/
theorem ite_skip {m : Cmd σ ε Unit} {f : Unit → Cmd σ ε β} {B : Unit → γ → Prop} {c : Prop}
    [Decidable c] (h : c → Follows state g m B) (h' : ¬ c → B () g)
    (hf : ∀ g', g ≤ g' → B () g' → Follows state g' (f ()) C) :
    Follows state g (if c then m >>= f else f ()) C :=
  .ite (fun hc => (h hc).bind fun _ => hf) (fun hc => hf g (le_refl g) (h' hc))

end Follows

namespace Returns

variable {P : α → Prop} {Q : β → Prop}

theorem pure {a : α} (h : P a) : Returns (Pure.pure a : Cmd σ ε α) P := by
  intro s b s' hb
  obtain rfl := Except.ok.inj (Prod.mk.inj hb).1
  exact h

theorem fail {e : ε} : Returns (Cmd.fail e : Cmd σ ε α) P := fun _ _ _ h => nomatch h

theorem bind (h : Returns m P) (hf : ∀ a, P a → Returns (f a) Q) : Returns (m >>= f) Q := by
  intro s b s' hb
  obtain ⟨a, s₁, ha, hrest⟩ := exists_of_bind_ok hb
  exact hf a (h s a s₁ ha) s₁ b s' hrest

/-- A first part of which nothing is asked. -/
theorem after (hf : ∀ a, Returns (f a) Q) : Returns (m >>= f) Q := by
  intro s b s' hb
  obtain ⟨a, s₁, -, hrest⟩ := exists_of_bind_ok hb
  exact hf a s₁ b s' hrest

/-- The rest is not reached. -/
theorem stop (h : Returns m (fun _ => False)) : Returns (m >>= f) Q :=
  h.bind fun _ ha => ha.elim

theorem ite {m' : Cmd σ ε α} {c : Prop} [Decidable c] (h : Returns m P) (h' : Returns m' P) :
    Returns (if c then m else m') P := by
  split
  · exact h
  · exact h'

end Returns

namespace Reads

theorem pure {a : α} : Reads (Pure.pure a : Cmd σ ε α) := fun _ => rfl

theorem fail {e : ε} : Reads (Cmd.fail e : Cmd σ ε α) := fun _ => rfl

theorem getState : Reads (Cmd.getState : Cmd σ ε σ) := fun _ => rfl

theorem ofExcept {x : Except ε α} : Reads (Cmd.ofExcept x : Cmd σ ε α) := by
  cases x with
  | ok a => exact pure
  | error e => exact fail

theorem bind (h : Reads m) (hf : ∀ a, Reads (f a)) : Reads (m >>= f) := by
  intro s
  have hs := h s
  rw [bind_run]
  rcases hrun : m s with ⟨_ | a, s'⟩ <;> rw [hrun] at hs
  · exact hs
  · exact (hf a s').trans hs

theorem mapList {γ : Type} {g : γ → Cmd σ ε β} (h : ∀ c, Reads (g c)) :
    ∀ cs : List γ, Reads (Cmd.mapList g cs)
  | [] => .pure
  | c :: cs => (h c).bind fun _ => (mapList h cs).bind fun _ => .pure

theorem ite {m' : Cmd σ ε α} {c : Prop} [Decidable c] (h : Reads m) (h' : Reads m') :
    Reads (if c then m else m') := by
  split
  · exact h
  · exact h'

theorem ite_bind {m' : Cmd σ ε α} {c : Prop} [Decidable c] (h : Reads m) (h' : Reads m')
    (hf : ∀ a, Reads (f a)) : Reads (if c then m >>= f else m' >>= f) :=
  ite (h.bind hf) (h'.bind hf)

end Reads

end Cmd
