import SecdScheme.Lib.FiniteOrbit
import Mathlib.Data.Nat.Find

/-!
# Two pointers

A walk along a chain that may go round: the fast pointer makes two steps, the
slow one makes one, and the walk stops where the chain ends or where the two
pointers meet. Over finitely many links it stops in any case, and it finds the
end of every chain that has one, however long the lead-in of the others and
however long their round.
-/

namespace TwoPointers

open FiniteOrbit

variable {α : Type} {next : α → α} {more : α → Bool} {x : α} {S : Finset α} {N : ℕ}

/-- What a walk finds. -/
inductive Found (α : Type) : Type
  /-- The chain ends after so many links. -/
  | ended (steps : ℕ) (last : α)
  | circular

/-- What was found, two links earlier. -/
def Found.behindTwo : Found α → Found α
  | .ended steps last => .ended (steps + 2) last
  | .circular => .circular

/-- **The walk.** `more` says whether there is a link to follow; without fuel
nothing is found. -/
def walk [DecidableEq α] (next : α → α) (more : α → Bool) : ℕ → α → α → Option (Found α)
  | 0, _, _ => none
  | fuel + 1, slow, fast =>
    if more fast then
      if more (next fast) then
        if next (next fast) = next slow then some .circular
        else (walk next more fuel (next slow) (next (next fast))).map Found.behindTwo
      else some (.ended 1 (next fast))
    else some (.ended 0 fast)

/-- The chain from here has so many links. -/
def EndsAfter (next : α → α) (more : α → Bool) (x : α) (k : ℕ) : Prop :=
  (∀ j < k, more (next^[j] x) = true) ∧ more (next^[k] x) = false

/-- The chain from here has no end. -/
def GoesRound (next : α → α) (more : α → Bool) (x : α) : Prop :=
  ∀ n, more (next^[n] x) = true

/-- A chain has an end or goes on for ever. -/
theorem exists_endsAfter_or_goesRound (next : α → α) (more : α → Bool) (x : α) :
    (∃ k, EndsAfter next more x k) ∨ GoesRound next more x := by
  by_cases h : ∃ k, more (next^[k] x) = false
  · refine .inl ⟨Nat.find h, fun j hj => ?_, Nat.find_spec h⟩
    have hmin := Nat.find_min h hj
    rwa [Bool.not_eq_false] at hmin
  · refine .inr fun n => ?_
    rw [← Bool.not_eq_false]
    exact fun hn => h ⟨n, hn⟩

theorem EndsAfter.not_goesRound {k : ℕ} (h : EndsAfter next more x k) :
    ¬ GoesRound next more x := by
  intro hround
  have hk := hround k
  rw [h.2] at hk
  cases hk

theorem EndsAfter.unique {k l : ℕ} (hk : EndsAfter next more x k)
    (hl : EndsAfter next more x l) : k = l := by
  rcases Nat.lt_trichotomy k l with hlt | heq | hgt
  · have hmore := hl.1 k hlt
    rw [hk.2] at hmore
    cases hmore
  · exact heq
  · have hmore := hk.1 l hgt
    rw [hl.2] at hmore
    cases hmore

/-- A chain that ends has no point twice. -/
theorem EndsAfter.ne {k i j : ℕ} (h : EndsAfter next more x k) (hij : i < j) (hj : j ≤ k) :
    next^[i] x ≠ next^[j] x := by
  intro heq
  -- the end would be found earlier by as much as the two are apart
  have hlast : next^[k] x = next^[i + (k - j)] x := by
    calc next^[k] x = next^[(k - j) + j] x := by rw [Nat.sub_add_cancel hj]
      _ = next^[(k - j) + i] x := by
        rw [Function.iterate_add_apply, ← heq, ← Function.iterate_add_apply]
      _ = next^[i + (k - j)] x := by rw [Nat.add_comm]
  have hmore := h.1 (i + (k - j)) (by omega)
  rw [← hlast, h.2] at hmore
  cases hmore

/-- A chain of finitely many links that ends, ends soon. -/
theorem EndsAfter.le (hS : ∀ v, more (next v) = true → v ∈ S) (hcard : S.card ≤ N) {k : ℕ}
    (h : EndsAfter next more x k) : k ≤ N + 1 := by
  by_contra hk
  have hmem : ∀ n ≤ N, next^[n] x ∈ S := by
    intro n hn
    refine hS _ ?_
    rw [← Function.iterate_succ_apply' next n x]
    exact h.1 (n + 1) (by omega)
  obtain ⟨i, j, hij, hj, heq⟩ := exists_return hcard hmem
  exact h.ne hij (by omega) heq

section Walk

variable [DecidableEq α]

/-- The walk from a point where the pointers are `i` and twice `i` links from
the start finds the end. -/
theorem walk_of_endsAfter {k : ℕ} (h : EndsAfter next more x k) :
    ∀ (fuel i : ℕ), 2 * i ≤ k → k < 2 * (i + fuel) →
      walk next more fuel (next^[i] x) (next^[2 * i] x) =
        some (.ended (k - 2 * i) (next^[k] x))
  | 0, i, hi, hk => absurd hk (by omega)
  | fuel + 1, i, hi, hk => by
    have hone : next (next^[2 * i] x) = next^[2 * i + 1] x :=
      (Function.iterate_succ_apply' next _ x).symm
    have htwo : next (next^[2 * i + 1] x) = next^[2 * (i + 1)] x :=
      (Function.iterate_succ_apply' next _ x).symm
    have hslow : next (next^[i] x) = next^[i + 1] x :=
      (Function.iterate_succ_apply' next _ x).symm
    unfold walk
    rw [hone, htwo, hslow]
    obtain rfl | hlt := Nat.eq_or_lt_of_le hi
    · rw [h.2, Nat.sub_self]
      rfl
    rw [if_pos (h.1 _ hlt)]
    obtain rfl | hlt := Nat.eq_or_lt_of_le (Nat.succ_le_of_lt hlt)
    · rw [h.2, Nat.succ_sub (Nat.le_refl _), Nat.sub_self]
      rfl
    have hne : next^[2 * (i + 1)] x ≠ next^[i + 1] x := (h.ne (by omega) hlt).symm
    rw [if_pos (h.1 _ hlt), if_neg hne, walk_of_endsAfter h fuel (i + 1) hlt (by omega)]
    show some (Found.ended (k - 2 * (i + 1) + 2) _) = _
    congr 2
    omega

/-- On a chain without an end the walk goes on until the pointers meet. -/
theorem walk_of_goesRound (h : GoesRound next more x) {m : ℕ}
    (hmeet : next^[2 * (m + 1)] x = next^[m + 1] x) :
    ∀ (fuel i : ℕ), i ≤ m → m < i + fuel →
      walk next more fuel (next^[i] x) (next^[2 * i] x) = some .circular
  | 0, i, hi, hm => absurd hm (by omega)
  | fuel + 1, i, hi, hm => by
    have hone : next (next^[2 * i] x) = next^[2 * i + 1] x :=
      (Function.iterate_succ_apply' next _ x).symm
    have htwo : next (next^[2 * i + 1] x) = next^[2 * (i + 1)] x :=
      (Function.iterate_succ_apply' next _ x).symm
    have hslow : next (next^[i] x) = next^[i + 1] x :=
      (Function.iterate_succ_apply' next _ x).symm
    unfold walk
    rw [hone, htwo, hslow, if_pos (h _), if_pos (h _)]
    by_cases heq : next^[2 * (i + 1)] x = next^[i + 1] x
    · rw [if_pos heq]
    · have hlt : i < m := by
        refine Nat.lt_of_le_of_ne hi ?_
        rintro rfl
        exact heq hmeet
      rw [if_neg heq, walk_of_goesRound h hmeet fuel (i + 1) hlt (by omega)]
      rfl

/-- **What the walk finds.** Over finitely many links it ends, with the end of
the chain exactly where there is one. -/
theorem walk_cases (hS : ∀ v, more (next v) = true → v ∈ S) (hcard : S.card ≤ N) (x : α) :
    (∃ k, EndsAfter next more x k ∧
        walk next more (N + 1) x x = some (.ended k (next^[k] x))) ∨
      (GoesRound next more x ∧ walk next more (N + 1) x x = some .circular) := by
  rcases exists_endsAfter_or_goesRound next more x with ⟨k, hk⟩ | hround
  · have hle := hk.le hS hcard
    exact .inl ⟨k, hk, walk_of_endsAfter hk (N + 1) 0 (Nat.zero_le k) (by omega)⟩
  · have hmem : ∀ n ≤ N, next^[n] x ∈ S := by
      intro n _
      refine hS _ ?_
      rw [← Function.iterate_succ_apply' next n x]
      exact hround (n + 1)
    obtain ⟨m, hm, hmeet⟩ := exists_meet hcard hmem
    exact .inr ⟨hround, walk_of_goesRound hround hmeet (N + 1) 0 (Nat.zero_le m) (by omega)⟩

end Walk

end TwoPointers
