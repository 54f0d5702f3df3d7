import Mathlib.Data.Nat.Prime.Basic
import Mathlib.Tactic.Common

/-!
# Trial division

An odd number is tried by the odd primes below it, in order, until one of them
divides it or has a square above it. The primes are found in this way one after
another, each by those before.
-/

namespace TrialDivision

/-- The number is tried by others, the first one first. -/
def survives (x : ℕ) : List ℕ → Bool
  | [] => true
  | p :: ps => if x < p * p then true else if p ∣ x then false else survives x ps

/-- **What trial division finds out**: the list has every prime that could divide
the number, and its primes come in order. -/
theorem survives_iff {x : ℕ} {ps : List ℕ} (hx : 2 ≤ x) (hsorted : ps.Pairwise (· < ·))
    (hps : ∀ p ∈ ps, p.Prime ∧ p < x)
    (hall : ∀ q, q.Prime → q ∣ x → q * q ≤ x → q ∈ ps) : survives x ps = true ↔ x.Prime := by
  -- a number that is not prime has its least factor among the candidates
  have hprime : (∀ q, q.Prime → q ∣ x → q * q ≤ x → False) → x.Prime := by
    intro hnone
    by_contra hcomposite
    have hfactor := Nat.minFac_prime (show x ≠ 1 by omega)
    have hsquare := Nat.minFac_sq_le_self (by omega) hcomposite
    exact hnone x.minFac hfactor (Nat.minFac_dvd x) (by rwa [← Nat.pow_two])
  induction ps with
  | nil =>
    refine ⟨fun _ => hprime fun q hq hdvd hle => ?_, fun _ => rfl⟩
    cases hall q hq hdvd hle
  | cons p ps ih =>
    obtain ⟨hlt, hsorted⟩ := List.pairwise_cons.mp hsorted
    obtain ⟨⟨hp, hpx⟩, hps⟩ := List.forall_mem_cons.mp hps
    rw [survives]
    by_cases hsquare : x < p * p
    · rw [if_pos hsquare]
      refine ⟨fun _ => hprime fun q hq hdvd hle => ?_, fun _ => rfl⟩
      have hpq : p ≤ q := by
        rcases List.mem_cons.mp (hall q hq hdvd hle) with rfl | hmem
        · exact Nat.le_refl _
        · exact (hlt q hmem).le
      exact absurd (Nat.mul_le_mul hpq hpq) (by omega)
    · rw [if_neg hsquare]
      by_cases hdvd : p ∣ x
      · rw [if_pos hdvd]
        refine ⟨fun h => absurd h Bool.false_ne_true, fun hxp => ?_⟩
        exact absurd ((Nat.prime_dvd_prime_iff_eq hp hxp).mp hdvd) hpx.ne
      · rw [if_neg hdvd]
        refine ih hsorted hps fun q hq hqx hle => ?_
        rcases List.mem_cons.mp (hall q hq hqx hle) with rfl | hmem
        · exact absurd hqx hdvd
        · exact hmem

/-! ## The primes in order -/

/-- The primes below a bound, in order. -/
def primesBelow (n : ℕ) : List ℕ := (List.range n).filter (Nat.Prime ·)

/-- The same without `2`. -/
def oddPrimesBelow (n : ℕ) : List ℕ := (primesBelow n).filter (· ≠ 2)

variable {n x : ℕ}

theorem mem_primesBelow {p : ℕ} : p ∈ primesBelow n ↔ p < n ∧ p.Prime := by
  simp [primesBelow]

theorem mem_oddPrimesBelow {p : ℕ} : p ∈ oddPrimesBelow n ↔ (p < n ∧ p.Prime) ∧ p ≠ 2 := by
  rw [oddPrimesBelow, List.mem_filter, mem_primesBelow, decide_eq_true_iff]

theorem primesBelow_succ (n : ℕ) :
    primesBelow (n + 1) = if n.Prime then primesBelow n ++ [n] else primesBelow n := by
  rw [primesBelow, List.range_succ, List.filter_append]
  by_cases hn : n.Prime
  · simp [primesBelow, hn]
  · simp [primesBelow, hn]

theorem primesBelow_eq_cons (hn : 3 ≤ n) : primesBelow n = 2 :: oddPrimesBelow n := by
  induction n, hn using Nat.le_induction with
  | base => decide
  | succ n hn ih =>
    rw [oddPrimesBelow, primesBelow_succ]
    split
    · rw [List.filter_append, ← oddPrimesBelow, ih, List.cons_append]
      simp [show n ≠ 2 by omega]
    · exact ih

/-- **From one odd number to the next.** -/
theorem oddPrimesBelow_add_two (hx : 3 ≤ x) (hodd : ¬ 2 ∣ x) :
    oddPrimesBelow (x + 2) = if x.Prime then oddPrimesBelow x ++ [x] else oddPrimesBelow x := by
  have heven : ¬ (x + 1).Prime := fun hp => by
    have := (Nat.prime_dvd_prime_iff_eq Nat.prime_two hp).mp (by omega)
    omega
  rw [oddPrimesBelow, primesBelow_succ, if_neg heven, primesBelow_succ]
  split
  · rw [List.filter_append, ← oddPrimesBelow]
    simp [show x ≠ 2 by omega]
  · rfl

/-- The even number after an odd one is no prime. -/
theorem primesBelow_even (hn : 3 ≤ n) (heven : 2 ∣ n) : primesBelow (n + 1) = primesBelow n := by
  rw [primesBelow_succ, if_neg fun hp => ?_]
  have := (Nat.prime_dvd_prime_iff_eq Nat.prime_two hp).mp heven
  omega

/-- **An odd number is tried by the odd primes below it.** -/
theorem survives_oddPrimesBelow (hx : 3 ≤ x) (hodd : ¬ 2 ∣ x) :
    survives x (oddPrimesBelow x) = true ↔ x.Prime := by
  refine survives_iff (by omega) ?_ (fun p hp => ?_) fun q hq hdvd hle => ?_
  · exact (List.pairwise_lt_range.filter _).filter _
  · exact (mem_oddPrimesBelow.mp hp).1.symm
  · have hlt : q < q * q := Nat.lt_mul_self_iff.mpr hq.one_lt
    refine mem_oddPrimesBelow.mpr ⟨⟨hlt.trans_le hle, hq⟩, ?_⟩
    rintro rfl
    exact hodd hdvd

end TrialDivision
