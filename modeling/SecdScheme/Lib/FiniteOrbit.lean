import Mathlib.Data.Finset.Card
import Mathlib.Logic.Function.Iterate
import Mathlib.Tactic.Common

/-!
# Orbits that stay in a finite set

What is met from a start by a function, one step after the other. An orbit
whose first points are in a finite set, one point more than the set has, comes
back to a point, stays among them for ever, and is met by two pointers of which
one is twice as fast.
-/

namespace FiniteOrbit

variable {α : Type} {f : α → α} {x : α} {S : Finset α} {N : ℕ}

/-- A point that is come back to. -/
theorem exists_return (hcard : S.card ≤ N) (h : ∀ n ≤ N, f^[n] x ∈ S) :
    ∃ i j, i < j ∧ j ≤ N ∧ f^[i] x = f^[j] x := by
  have hlt : S.card < (Finset.range (N + 1)).card := by
    rw [Finset.card_range]
    exact Nat.lt_succ_of_le hcard
  have hmaps : Set.MapsTo (fun n => f^[n] x) (Finset.range (N + 1)) S := fun n hn =>
    h n (Nat.le_of_lt_succ (Finset.mem_range.1 hn))
  obtain ⟨i, hi, j, hj, hne, heq⟩ :=
    Finset.exists_ne_map_eq_of_card_lt_of_maps_to hlt hmaps
  rw [Finset.mem_range] at hi hj
  rcases Nat.lt_or_gt_of_ne hne with hlt | hgt
  · exact ⟨i, j, hlt, Nat.le_of_lt_succ hj, heq⟩
  · exact ⟨j, i, hgt, Nat.le_of_lt_succ hi, heq.symm⟩

/-- After the return the points are the same again, any number of times. -/
theorem iterate_add_mul {i j : ℕ} (hij : i < j) (heq : f^[i] x = f^[j] x) {n : ℕ} (hn : i ≤ n)
    (t : ℕ) : f^[n + t * (j - i)] x = f^[n] x := by
  induction t with
  | zero => rw [Nat.zero_mul, Nat.add_zero]
  | succ t ih =>
    obtain ⟨m, rfl⟩ := Nat.exists_eq_add_of_le hn
    have hstep : f^[j + m] x = f^[i + m] x := by
      rw [Nat.add_comm j m, Nat.add_comm i m, Function.iterate_add_apply,
        Function.iterate_add_apply, heq]
    calc f^[i + m + (t + 1) * (j - i)] x = f^[t * (j - i) + (j + m)] x := by
          congr 1
          rw [Nat.succ_mul]
          omega
      _ = f^[t * (j - i)] (f^[i + m] x) := by rw [Function.iterate_add_apply, hstep]
      _ = f^[i + m + t * (j - i)] x := by rw [← Function.iterate_add_apply, Nat.add_comm]
      _ = f^[i + m] x := ih

/-- **All points are among the first ones.** -/
theorem exists_iterate_le (hcard : S.card ≤ N) (h : ∀ n ≤ N, f^[n] x ∈ S) (n : ℕ) :
    ∃ m ≤ N, f^[n] x = f^[m] x := by
  obtain ⟨i, j, hij, hj, heq⟩ := exists_return hcard h
  rcases Nat.lt_or_ge n i with hlt | hge
  · exact ⟨n, by omega, rfl⟩
  · have hmod : (n - i) % (j - i) < j - i := Nat.mod_lt _ (by omega)
    refine ⟨i + (n - i) % (j - i), by omega, ?_⟩
    rw [← iterate_add_mul hij heq (Nat.le_add_right i _) ((n - i) / (j - i))]
    congr 1
    have := Nat.mod_add_div (n - i) (j - i)
    rw [Nat.mul_comm] at this
    omega

/-- **Two pointers meet.** -/
theorem exists_meet (hcard : S.card ≤ N) (h : ∀ n ≤ N, f^[n] x ∈ S) :
    ∃ m, m < N ∧ f^[2 * (m + 1)] x = f^[m + 1] x := by
  obtain ⟨i, j, hij, hj, heq⟩ := exists_return hcard h
  -- the multiple of the period that is at least `i`, and not zero
  have hpos : 0 < j - i := by omega
  have hdiv := Nat.div_add_mod i (j - i)
  have hmod := Nat.mod_lt i hpos
  have hmul : (j - i) * (i / (j - i) + 1) = (j - i) * (i / (j - i)) + (j - i) := Nat.mul_succ _ _
  refine ⟨(j - i) * (i / (j - i) + 1) - 1, by omega, ?_⟩
  have hone : (j - i) * (i / (j - i) + 1) - 1 + 1 = (j - i) * (i / (j - i) + 1) := by omega
  rw [hone, Nat.two_mul]
  nth_rewrite 2 [Nat.mul_comm]
  exact iterate_add_mul hij heq (by omega) _

end FiniteOrbit
