import SecdScheme.Lib.Cmd

/-!
# Relations that blocks respect

A relation of commands that holds of two blocks as soon as it holds of their
parts, so that what is shown of a few calls carries over to all that makes these
calls. Two such relations are given: to return no more than another command does,
and to do what it does unless one gives up.
-/

namespace Cmd

variable {σ ε α β γ : Type}

/-- **A relation of commands that blocks respect.** -/
structure Congruence (σ ε : Type) where
  Rel : ∀ {α : Type}, Cmd σ ε α → Cmd σ ε α → Prop
  refl : ∀ {α : Type} (m : Cmd σ ε α), Rel m m
  bind : ∀ {α β : Type} {m m' : Cmd σ ε α} {f f' : α → Cmd σ ε β}, Rel m m' →
    (∀ a, Rel (f a) (f' a)) → Rel (m >>= f) (m' >>= f')
  finallyDo : ∀ {α : Type} {m m' : Cmd σ ε α} (g : σ → σ), Rel m m' →
    Rel (Cmd.finallyDo m g) (Cmd.finallyDo m' g)

namespace Congruence

variable (R : Congruence σ ε) {m m' : Cmd σ ε α} {f f' : α → Cmd σ ε β}

/-- The same first part. -/
theorem after (m : Cmd σ ε α) (hf : ∀ a, R.Rel (f a) (f' a)) : R.Rel (m >>= f) (m >>= f') :=
  R.bind (R.refl m) hf

/-- The same rest. -/
theorem before (h : R.Rel m m') (f : α → Cmd σ ε β) : R.Rel (m >>= f) (m' >>= f) :=
  R.bind h fun a => R.refl (f a)

end Congruence

/-- To be the same command. -/
def equality : Congruence σ ε where
  Rel m m' := m = m'
  refl _ := rfl
  bind h hf := by rw [h, funext hf]
  finallyDo g h := by rw [h]

/-- To return no more than another command does. -/
def refining : Congruence σ ε where
  Rel := Refines
  refl := Refines.refl
  bind := Refines.bind
  finallyDo g h s a s' hrun := by
    obtain ⟨hfst, hsnd⟩ := Prod.mk.inj hrun
    have hm := h s a _ (Prod.ext hfst rfl)
    show (_, g _) = _
    rw [hm, hsnd]

/-- **To do what another command does, or to give up** with an error. -/
def GivesUp (e : ε) (m m' : Cmd σ ε α) : Prop := ∀ s, (m s).1 = .error e ∨ m s = m' s

namespace GivesUp

variable {e : ε} {m m' : Cmd σ ε α} {s : σ}

theorem trans {m'' : Cmd σ ε α} (h : GivesUp e m m') (h' : GivesUp e m' m'') :
    GivesUp e m m'' := fun s => (h s).elim .inl fun hsame => hsame ▸ h' s

/-- What returns has not given up. -/
theorem eq_ok (h : GivesUp e m m') {s' : σ} {a : α} (hs : m s = (.ok a, s')) :
    m' s = (.ok a, s') := by
  obtain hgives | hsame := h s
  · rw [hs] at hgives
    cases hgives
  · rw [← hsame, hs]

end GivesUp

/-- Giving up is no end of the other command: a block gives up with its part. -/
def givingUp (e : ε) : Congruence σ ε where
  Rel := GivesUp e
  refl _ _ := .inr rfl
  bind {α β m m' f f'} h hf s := by
    rw [bind_run, bind_run]
    rcases h s with hgives | hsame
    · left
      rcases hm : m s with ⟨e' | a, s'⟩ <;> rw [hm] at hgives
      · exact congrArg Except.error (Except.error.inj hgives)
      · cases hgives
    · rw [hsame]
      rcases m' s with ⟨e' | a, s'⟩
      · exact .inr rfl
      · exact hf a s'
  finallyDo g h s := (h s).imp id fun hsame => by
    unfold Cmd.finallyDo
    rw [hsame]

end Cmd
