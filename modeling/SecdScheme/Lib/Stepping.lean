import Mathlib.Tactic.Common

/-!
# Systems that step, and steps that another system follows

A system has states and a step, which ends with an outcome or goes on. One
system follows another when every step of the first is a step or more of the
second, or none at all while a measure goes down. Then either both end, with
outcomes that belong together, or neither does.
-/

namespace Stepping

variable {S T O P : Type} {f : S → O ⊕ S} {g : T → P ⊕ T}

/-- The outcome, if it is reached in fewer steps than these. -/
def outcome? (f : S → O ⊕ S) : ℕ → S → Option O
  | 0, _ => none
  | n + 1, s =>
    match f s with
    | .inl o => some o
    | .inr s' => outcome? f n s'

/-- The system ends with an outcome. -/
def Ends (f : S → O ⊕ S) (s : S) (o : O) : Prop := ∃ n, outcome? f n s = some o

/-- So many steps, all of which go on. -/
inductive Steps (f : S → O ⊕ S) : ℕ → S → S → Prop
  | refl (s) : Steps f 0 s s
  | step {n s s' t} : f s = .inr s' → Steps f n s' t → Steps f (n + 1) s t

theorem outcome?_inl {s : S} {o : O} (h : f s = .inl o) (n : ℕ) :
    outcome? f (n + 1) s = some o := by
  rw [outcome?, h]

theorem outcome?_inr {s s' : S} (h : f s = .inr s') (n : ℕ) :
    outcome? f (n + 1) s = outcome? f n s' := by
  rw [outcome?, h]

theorem Steps.trans {m n : ℕ} {s t u : S} (h : Steps f m s t) (h' : Steps f n t u) :
    Steps f (m + n) s u := by
  induction h with
  | refl s => rwa [Nat.zero_add]
  | step hs _ ih =>
    rw [Nat.add_right_comm]
    exact .step hs (ih h')

theorem Steps.one {s s' : S} (h : f s = .inr s') : Steps f 1 s s' := .step h (.refl s')

theorem outcome?_steps {k : ℕ} {s t : S} (h : Steps f k s t) (n : ℕ) :
    outcome? f (k + n) s = outcome? f n t := by
  induction h with
  | refl s => rw [Nat.zero_add]
  | step hs _ ih => rw [Nat.add_right_comm, outcome?_inr hs, ih]

theorem Ends.of_steps {k : ℕ} {s t : S} {o : O} (h : Steps f k s t) (ht : Ends f t o) :
    Ends f s o := by
  obtain ⟨n, hn⟩ := ht
  exact ⟨k + n, (outcome?_steps h n).trans hn⟩

theorem outcome?_mono {m n : ℕ} {s : S} {o : O} (h : outcome? f m s = some o) (hmn : m ≤ n) :
    outcome? f n s = some o := by
  induction m generalizing n s with
  | zero => cases h
  | succ m ih =>
    obtain ⟨n, rfl⟩ := Nat.exists_eq_add_of_le' (Nat.le_of_lt hmn)
    cases n with
    | zero => exact absurd hmn (by omega)
    | succ n =>
      cases hs : f s with
      | inl o' =>
        rw [outcome?_inl hs] at h
        rw [show n + 1 + m = n + m + 1 by omega, outcome?_inl hs]
        exact h
      | inr s' =>
        rw [outcome?_inr hs] at h
        rw [show n + 1 + m = n + m + 1 by omega, outcome?_inr hs]
        exact ih h (by omega)

/-- **There is one outcome.** -/
theorem Ends.unique {s : S} {o o' : O} (h : Ends f s o) (h' : Ends f s o') : o = o' := by
  obtain ⟨n, hn⟩ := h
  obtain ⟨m, hm⟩ := h'
  rcases Nat.le_total n m with hle | hle
  · exact Option.some.inj ((outcome?_mono hn hle).symm.trans hm)
  · exact Option.some.inj (hn.symm.trans (outcome?_mono hm hle))

/-- **One system follows another**: `R` relates the states, `Q` the outcomes,
and `μ` goes down where the second system waits. -/
structure Follows (f : S → O ⊕ S) (g : T → P ⊕ T) (R : S → T → Prop) (Q : O → P → Prop)
    (μ : S → ℕ) : Prop where
  ended : ∀ {s t o}, R s t → f s = .inl o → ∃ p, Ends g t p ∧ Q o p
  goes : ∀ {s t s'}, R s t → f s = .inr s' →
    (μ s' < μ s ∧ R s' t) ∨ ∃ k t', Steps g (k + 1) t t' ∧ R s' t'

namespace Follows

variable {R : S → T → Prop} {Q : O → P → Prop} {μ : S → ℕ}

/-- What the first system ends with, the second one does. -/
theorem forward (h : Follows f g R Q μ) {s : S} {t : T} {o : O} (hR : R s t)
    (ho : Ends f s o) : ∃ p, Ends g t p ∧ Q o p := by
  obtain ⟨n, hn⟩ := ho
  induction n generalizing s t with
  | zero => cases hn
  | succ n ih =>
    cases hs : f s with
    | inl o' =>
      rw [outcome?_inl hs] at hn
      cases hn
      exact h.ended hR hs
    | inr s' =>
      rw [outcome?_inr hs] at hn
      rcases h.goes hR hs with ⟨-, hR'⟩ | ⟨k, t', hsteps, hR'⟩
      · exact ih hR' hn
      · obtain ⟨p, hp, hQ⟩ := ih hR' hn
        exact ⟨p, hp.of_steps hsteps, hQ⟩

/-- What the second system ends with, the first one does: it cannot go on for
ever, since the second would have to. -/
theorem backward (h : Follows f g R Q μ) {s : S} {t : T} {p : P} (hR : R s t)
    (hp : Ends g t p) : ∃ o, Ends f s o ∧ Q o p := by
  obtain ⟨n, hn⟩ := hp
  -- on the steps of the second system that are left, and then on the measure
  induction n using Nat.strongRecOn generalizing s t with
  | _ n ihn =>
    induction hm : μ s using Nat.strongRecOn generalizing s with
    | _ m ihm =>
      cases hs : f s with
      | inl o =>
        obtain ⟨p', hp', hQ⟩ := h.ended hR hs
        obtain rfl := hp'.unique ⟨n, hn⟩
        exact ⟨o, ⟨1, outcome?_inl hs 0⟩, hQ⟩
      | inr s' =>
        rcases h.goes hR hs with ⟨hlt, hR'⟩ | ⟨k, t', hsteps, hR'⟩
        · obtain ⟨o, ho, hQ⟩ := ihm (μ s') (hm ▸ hlt) hR' rfl
          exact ⟨o, .of_steps (.one hs) ho, hQ⟩
        · rcases Nat.lt_or_ge k n with hk | hk
          · have hrest : outcome? g (n - (k + 1)) t' = some p := by
              rw [← outcome?_steps hsteps, Nat.add_sub_cancel' hk]
              exact hn
            obtain ⟨o, ho, hQ⟩ := ihn _ (by omega) hR' hrest
            exact ⟨o, .of_steps (.one hs) ho, hQ⟩
          · -- no outcome before the steps that go on are over
            have hnone : outcome? g (k + 1 + 0) t = some p := outcome?_mono hn (by omega)
            rw [outcome?_steps hsteps] at hnone
            cases hnone

end Follows

end Stepping
