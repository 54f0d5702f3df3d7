import SecdScheme.Lib.Cmd

/-!
# Commands that run alike

`Alike t Bad I m m'` says that from `t s` the command `m'` does what `m` does
from `s`, up to `t`, for every `s` with `I s`; unless `m` fails in a way that
is left out. A failure ends a block, so that what is left out is never looked
at twice: the rules follow a `do` block.
-/

namespace Cmd

variable {σ ε α β : Type} {t : σ → σ} {Bad : ε → Prop} {I : σ → Prop}
  {m m' : Cmd σ ε α} {f f' : α → Cmd σ ε β}

/-- **Two commands that run alike**, the second from the transformed states. -/
def Alike (t : σ → σ) (Bad : ε → Prop) (I : σ → Prop) (m m' : Cmd σ ε α) : Prop :=
  ∀ s, I s → (∃ e s', m s = (.error e, s') ∧ Bad e) ∨
    m' (t s) = ((m s).1, t (m s).2) ∧ I (m s).2

namespace Alike

theorem of_run (h : ∀ s, I s → m' (t s) = ((m s).1, t (m s).2) ∧ I (m s).2) :
    Alike t Bad I m m' := fun s hs => .inr (h s hs)

theorem pure {a : α} : Alike t Bad I (Pure.pure a : Cmd σ ε α) (Pure.pure a) :=
  of_run fun _ hs => ⟨rfl, hs⟩

theorem fail {e : ε} : Alike t Bad I (Cmd.fail e : Cmd σ ε α) (Cmd.fail e) :=
  of_run fun _ hs => ⟨rfl, hs⟩

theorem modifyState {g : σ → σ} (h : ∀ s, g (t s) = t (g s)) (hI : ∀ s, I s → I (g s)) :
    Alike t Bad I (Cmd.modifyState g : Cmd σ ε Unit) (Cmd.modifyState g) :=
  of_run fun s hs => ⟨Prod.ext rfl (h s), hI s hs⟩

theorem bind (h : Alike t Bad I m m') (hf : ∀ a, Alike t Bad I (f a) (f' a)) :
    Alike t Bad I (m >>= f) (m' >>= f') := by
  intro s hs
  rcases h s hs with ⟨e, s', hrun, hbad⟩ | ⟨hrun, hs'⟩
  · exact .inl ⟨e, s', bind_run_error hrun f, hbad⟩
  rcases hm : m s with ⟨e | a, s'⟩ <;> rw [hm] at hrun hs'
  · refine .inr ?_
    rw [bind_run_error hm f, bind_run_error hrun f']
    exact ⟨rfl, hs'⟩
  · rw [bind_run_ok hm f, bind_run_ok hrun f']
    exact hf a s' hs'

/-- What is read of the state is the same. -/
theorem getState {g g' : σ → Cmd σ ε β} (hg : ∀ s, g' (t s) = g' s)
    (h : ∀ s, Alike t Bad I (g s) (g' s)) :
    Alike t Bad I (Cmd.getState >>= g) (Cmd.getState >>= g') := by
  intro s hs
  show (∃ e s', g s s = (.error e, s') ∧ Bad e) ∨ g' (t s) (t s) = _ ∧ I (g s s).2
  rw [hg]
  exact h s s hs

/-- **A change of the state at the end**, into other states. -/
theorem finallyDo (g u : σ → σ) (J : σ → Prop) (h : Alike t Bad I m m')
    (hg : ∀ s, I s → g (t s) = u (g s) ∧ J (g s)) {s : σ} (hs : I s) :
    (∃ e s', Cmd.finallyDo m g s = (.error e, s') ∧ Bad e) ∨
      Cmd.finallyDo m' g (t s) = ((Cmd.finallyDo m g s).1, u (Cmd.finallyDo m g s).2) ∧
        J (Cmd.finallyDo m g s).2 := by
  unfold Cmd.finallyDo
  rcases h s hs with ⟨e, s', hrun, he⟩ | ⟨hrun, hs'⟩
  · rw [hrun]
    exact .inl ⟨e, g s', rfl, he⟩
  · obtain ⟨hcomm, hJ⟩ := hg _ hs'
    rw [hrun]
    exact .inr ⟨Prod.ext rfl hcomm, hJ⟩

end Alike

end Cmd
