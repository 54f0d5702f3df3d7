import SecdScheme.Scheme14.Values

/-!
# scheme14: the boxes of multiple values

Several values travel in a box, and one value as it is. A box is made of values
that are there, and never changed.
-/

namespace Scheme14

variable {Y : Type}

/-- A box of this value is older than the box with the number. -/
def Value.olderThan (a : ℕ) : Value → Bool
  | .values b => decide (b < a)
  | _ => true

/-- A box of values. -/
def Value.isValues : Value → Bool
  | .values _ => true
  | _ => false

/-- **The boxes there are.** A box is made from values that are there, so that
it holds older boxes only. -/
structure Boxes (Y : Type) where
  vals : List (List Value)
  older : ∀ (a : ℕ) (vs : List Value), vals[a]? = some vs → vs.all (·.olderThan a) = true
  rest : Y

namespace Boxes

/-- A new box. -/
def add (s : Boxes Y) (vs : List Value) (h : vs.all (·.olderThan s.vals.length) = true) :
    Boxes Y where
  vals := s.vals ++ [vs]
  older a ws ha := by
    rcases Nat.lt_or_ge a s.vals.length with hlt | hge
    · rw [List.getElem?_append_left hlt] at ha
      exact s.older a ws ha
    · rw [List.getElem?_append_right hge] at ha
      rw [List.getElem?_singleton] at ha
      split at ha
      · cases ha
        rw [Nat.le_antisymm (Nat.sub_eq_zero_iff_le.1 ‹_›) hge]
        exact h
      · cases ha
  rest := s.rest

/-- What is in a box. -/
def boxed (s : Boxes Y) (a : ℕ) : List Value := s.vals.getD a []

/-- What the values are that a value stands for. -/
def unboxed (s : Boxes Y) : Value → List Value
  | .values a => s.vals.getD a []
  | v => [v]

theorem unboxed_of_not {s : Boxes Y} {v : Value} (h : v.isValues = false) : s.unboxed v = [v] := by
  cases v with
  | values a => cases h
  | _ => rfl

/-- **The first value stands for all of them** only if it is the only one, and
no box. -/
theorem unboxed_headD_iff (s : Boxes Y) (vs : List Value) :
    s.unboxed (vs.headD .nil) = vs ↔ ∃ v, vs = [v] ∧ v.isValues = false := by
  constructor
  · intro h
    cases vs with
    | nil => cases h
    | cons v rest =>
      cases hv : v.isValues with
      | false =>
        rw [List.headD_cons, unboxed_of_not hv] at h
        exact ⟨v, h.symm, hv⟩
      | true =>
        -- the box would hold itself
        obtain ⟨a, rfl⟩ : ∃ a, v = .values a := by
          cases v with
          | values a => exact ⟨a, rfl⟩
          | _ => cases hv
        have hbox : s.vals[a]? = some (.values a :: rest) := by
          rw [← h]
          show s.vals[a]? = some (s.vals[a]?.getD [])
          cases hget : s.vals[a]? with
          | some ws => rfl
          | none =>
            rw [List.headD_cons, unboxed, List.getD_eq_getElem?_getD, hget] at h
            cases h
        have hself := (List.all_eq_true.1 (s.older a _ hbox)) _ List.mem_cons_self
        exact absurd (of_decide_eq_true hself) (Nat.lt_irrefl a)
  · rintro ⟨v, rfl, hv⟩
    exact unboxed_of_not hv

end Boxes

end Scheme14
