import SecdScheme.SystemLib.Queue
import SecdScheme.Scheme14.Numeric
import SecdScheme.Lib.TrialDivision

/-!
# system_lib.scm: primes

The primes are put into a queue one after another. A number is tried by those
that are in the queue already, while the queue grows at its end; the header is
`2`, by which no number is tried.
-/

namespace SystemLib

open Scheme14 TrialDivision

variable {X : Type}

/-! ## The procedures -/

/-- A value, as the arithmetic is given it. -/
def asObj : Value → Obj
  | .int n => intObj n
  | .real bits => .flonum bits
  | v => .other v

/-- A primitive that returns a number. -/
def arith (f : List Obj → Except Err Obj) (args : List Value) : DataM X Value :=
  Cmd.ofExcept ((f (args.map asObj)).map Obj.value)

/-- A primitive that compares numbers. -/
def comparison (f : List Obj → Except Err Bool) (args : List Value) : DataM X Bool :=
  Cmd.ofExcept (f (args.map asObj))

section Procedures

variable (D : Doubles)

/-- `is-prime`: the primes so far are tried, up to the root of the number. -/
def isPrime : ℕ → Value → Value → DataM X Bool
  | 0, _, _ => Cmd.fail .outOfFuel
  | fuel + 1, pLst, x => do
    if pLst = .nil then return true
    let p ← primCar [pLst]
    if ← comparison (primGt D) [← arith (primMul D) [p, p], x] then return true
    else if ← comparison (primNumEq D) [.int 0, ← arith primModulo [x, p]] then return false
    else isPrime fuel (← primCdr [pLst]) x

/-- `primes`: every other number is tried, and a prime goes into the queue. -/
def primes : ℕ → Value → Value → Value → DataM X Value
  | 0, _, _, _ => Cmd.fail .outOfFuel
  | fuel + 1, queue, x, xmax => do
    if ← comparison (primGt D) [x, xmax] then getAllLst queue
    else if ← isPrime D ((← Cmd.getState).pairs.length + 1) (← getQueueLst queue) x then
      let queue ← enQueue queue x
      primes fuel queue (← arith (primAdd D) [x, .int 2]) xmax
    else primes fuel queue (← arith (primAdd D) [x, .int 2]) xmax

end Procedures

/-! ## Arithmetic on integers -/

section Integers

variable (D : Doubles) (a b : ℤ) (s : Data X)

theorem arith_run {f : List Obj → Except Err Obj} {n : ℤ}
    (hf : f [intObj a, intObj b] = .ok (intObj n)) :
    arith f [.int a, .int b] s = (.ok (.int n), s) := by
  show Cmd.ofExcept ((f [intObj a, intObj b]).map Obj.value) s = _
  rw [hf]
  show (Except.ok (Value.int (makeInt n).toInt), s) = _
  rw [makeInt_toInt]

theorem arith_mul_run : arith (primMul D) [.int a, .int b] s = (.ok (.int (a * b)), s) := by
  refine arith_run a b s ?_
  rw [primMul_pair, makeInt_toInt, makeInt_toInt]

theorem arith_add_run : arith (primAdd D) [.int a, .int b] s = (.ok (.int (a + b)), s) := by
  refine arith_run a b s ?_
  rw [primAdd_pair, makeInt_toInt, makeInt_toInt]

theorem arith_modulo_run (hb : b ≠ 0) :
    arith primModulo [.int a, .int b] s = (.ok (.int (a.fmod b)), s) := by
  refine arith_run a b s ?_
  rw [primModulo_pair (by rwa [makeInt_toInt]), makeInt_toInt, makeInt_toInt]

theorem comparison_numEq_run :
    comparison (primNumEq D) [.int a, .int b] s = (.ok (decide (a = b)), s) := by
  show Cmd.ofExcept (primNumEq D [intObj a, intObj b]) s = _
  rw [primNumEq_pair, makeInt_toInt, makeInt_toInt]
  rfl

theorem comparison_gt_run :
    comparison (primGt D) [.int a, .int b] s = (.ok (decide (b < a)), s) := by
  have h : primGt D (exactArgs [makeInt a, makeInt b]) = _ :=
    compare_exact D ">" (R := (· > ·)) test_gt _
  show Cmd.ofExcept (primGt D (exactArgs [makeInt a, makeInt b])) s = _
  rw [h]
  simp [makeInt_toInt]

end Integers

/-! ## What the procedures find out -/

/-- Numbers in a list. -/
def ofNats (ps : List ℕ) : List Value := ps.map fun p : ℕ => .int p

section Primes

variable (D : Doubles) {s : Data X} {q x : ℕ} {header : QueueCell} {cells : List QueueCell}
  {ps : List ℕ} {fuel : ℕ}

/-- **`is-prime`** tries the number by the elements of the list. -/
theorem isPrime_run (h : Linked s cells) (hcells : cells.map (·.2) = ofNats ps)
    (hpos : ∀ p ∈ ps, 0 < p) (hfuel : cells.length < fuel) (x : ℕ) :
    isPrime D fuel (linkTo cells) (.int x) s = (.ok (survives x ps), s) := by
  induction fuel generalizing cells ps with
  | zero => exact absurd hfuel (Nat.not_lt_zero _)
  | succ fuel ih =>
    cases ps with
    | nil =>
      obtain rfl : cells = [] := List.map_eq_nil_iff.mp hcells
      rfl
    | cons p ps =>
      obtain ⟨c, cells, rfl, hc, hrest⟩ := List.map_eq_cons_iff.mp hcells
      obtain ⟨hp, hpos⟩ := List.forall_mem_cons.mp hpos
      have hne : (p : ℤ) ≠ 0 := by omega
      have hcar : primCar [.pair c.1] s = (.ok (.int p), s) := by
        rw [primCar_run h.1, hc]
      rw [isPrime, survives, if_neg (show linkTo (c :: cells) ≠ .nil by simp [linkTo])]
      refine (Cmd.bind_run_ok hcar _).trans ?_
      rw [Cmd.bind_run_ok (arith_mul_run D p p s), Cmd.bind_run_ok (comparison_gt_run D _ _ s)]
      by_cases hsquare : x < p * p
      · rw [if_pos hsquare, if_pos (decide_eq_true (by exact_mod_cast hsquare))]
        rfl
      · rw [if_neg hsquare, if_neg (by simpa using (by exact_mod_cast hsquare : ¬ (x : ℤ) < p * p))]
        rw [Cmd.bind_run_ok (arith_modulo_run x p s hne),
          Cmd.bind_run_ok (comparison_numEq_run D _ _ s)]
        have hdvd : (0 = (x : ℤ).fmod p) ↔ p ∣ x := by
          rw [Int.fmod_eq_emod_of_nonneg _ (Int.natCast_nonneg p), eq_comm,
            ← Int.dvd_iff_emod_eq_zero, Int.natCast_dvd_natCast]
        by_cases hdiv : p ∣ x
        · rw [if_pos hdiv, if_pos (decide_eq_true (hdvd.mpr hdiv))]
          rfl
        · rw [if_neg hdiv, if_neg (by simpa using fun h => hdiv (hdvd.mp h))]
          refine (Cmd.bind_run_ok (primCdr_run h.1) _).trans ?_
          exact ih h.2 hrest hpos (Nat.lt_of_succ_lt_succ hfuel)

/-- The cells of a queue are no more than the pairs. -/
theorem QueueAt.length_le (h : QueueAt s q header cells) : cells.length ≤ s.pairs.length := by
  have hsub : (footprint q (header :: cells)).length ≤ s.pairs.length := by
    rw [← List.length_range (n := s.pairs.length)]
    refine (h.nodup.subperm fun a ha => ?_).length_le
    exact List.mem_range.mpr (h.lt_length ha)
  simp only [footprint, List.length_cons, List.length_map] at hsub
  omega

/-- Beyond the bound, the queue has the primes up to it. -/
theorem primesBelow_bound {xmax : ℤ} (hx : 3 ≤ x) (hodd : ¬ 2 ∣ x) (hlt : xmax < x)
    (hmax : x ≤ xmax + 2 ∨ x = 3) :
    primesBelow ((max 2 xmax).toNat + 1) = 2 :: oddPrimesBelow x := by
  rw [← primesBelow_eq_cons hx]
  have hbound : (max 2 xmax).toNat + 1 = x ∨ 3 ≤ (max 2 xmax).toNat + 1 ∧
      2 ∣ (max 2 xmax).toNat + 1 ∧ (max 2 xmax).toNat + 1 + 1 = x := by omega
  rcases hbound with heq | ⟨hle, heven, heq⟩
  · rw [heq]
  · rw [← heq, primesBelow_even hle heven]

/-- **`primes`** goes on from an odd number, when the queue has the odd primes
below it. -/
theorem primes_run {xmax : ℤ} (h : QueueAt s q header cells) (hheader : header.2 = .int 2)
    (hcells : cells.map (·.2) = ofNats (oddPrimesBelow x)) (hx : 3 ≤ x) (hodd : ¬ 2 ∣ x)
    (hmax : x ≤ xmax + 2 ∨ x = 3) (hfuel : xmax < x + 2 * fuel) :
    ∃ s' all, primes D (fuel + 1) (.pair q) (.int x) (.int xmax) s = (.ok all, s') ∧
      s'.IsList all (ofNats (primesBelow ((max 2 xmax).toNat + 1))) := by
  induction fuel generalizing s cells x with
  | zero =>
    have hlt : xmax < x := by omega
    rw [primes, Cmd.bind_run_ok (comparison_gt_run D x xmax s), if_pos (decide_eq_true hlt)]
    obtain ⟨hall, hlist⟩ := getAllLst_run h
    rw [hheader, hcells] at hlist
    rw [primesBelow_bound hx hodd hlt hmax]
    exact ⟨s, _, hall, hlist⟩
  | succ fuel ih =>
    -- the queue has the odd primes below `x`, and so it does below the next odd number
    rw [primes, Cmd.bind_run_ok (comparison_gt_run D x xmax s)]
    by_cases hlt : xmax < x
    · rw [if_pos (decide_eq_true hlt)]
      obtain ⟨hall, hlist⟩ := getAllLst_run h
      rw [hheader, hcells] at hlist
      rw [primesBelow_bound hx hodd hlt hmax]
      exact ⟨s, _, hall, hlist⟩
    · rw [if_neg (by simpa using hlt)]
      have hodd' : ¬ 2 ∣ x + 2 := by omega
      have hpos : ∀ p ∈ oddPrimesBelow x, 0 < p := fun p hp =>
        (mem_oddPrimesBelow.mp hp).1.2.pos
      have htest := isPrime_run D h.linked.2 hcells hpos (Nat.lt_succ_of_le h.length_le) x
      have hsum : ∀ t : Data X, arith (primAdd D) [.int x, .int 2] t =
          (.ok (.int ((x + 2 : ℕ) : ℤ)), t) := fun t => arith_add_run D x 2 t
      have hnext := oddPrimesBelow_add_two hx hodd
      rw [Cmd.bind_run_ok (Cmd.getState_run s), Cmd.bind_run_ok (getQueueLst_run h).1,
        Cmd.bind_run_ok htest]
      by_cases hp : x.Prime
      · rw [if_pos ((survives_oddPrimesBelow hx hodd).mpr hp)]
        obtain ⟨s', hrun, hat, -⟩ := enQueue_run h (.int x)
        rw [Cmd.bind_run_ok hrun, Cmd.bind_run_ok (hsum s')]
        refine ih hat ?_ (by omega) hodd' (by omega) (by push_cast; omega)
        rw [hnext, if_pos hp, List.map_append, hcells, ofNats, ofNats, List.map_append]
        rfl
      · rw [if_neg (fun hs => hp ((survives_oddPrimesBelow hx hodd).mp hs)),
          Cmd.bind_run_ok (hsum s)]
        refine ih h ?_ (by omega) hodd' (by omega) (by push_cast; omega)
        rw [hnext, if_neg hp, hcells]

/-- **The primes up to a bound.** `(primes (make-queue 2) 3 xmax)` is the list of
all primes up to `xmax`, in order, from any pairs, whether the numbers are words
or big integers; a recursion for every second number is enough. Below `2` the
list is that of `2` alone. -/
theorem primes_all (xmax : ℤ) (fuel : ℕ) (hfuel : xmax < 3 + 2 * fuel) (s : Data X) :
    ∃ s' all, (do primes D (fuel + 1) (← makeQueue (.int 2)) (.int 3) (.int xmax) :
        DataM X Value) s = (.ok all, s') ∧
      s'.IsList all (ofNats (primesBelow ((max 2 xmax).toNat + 1))) := by
  obtain ⟨s₁, hmake, hat, -⟩ := makeQueue_run (.int 2) s
  obtain ⟨s', all, hrun, hlist⟩ := primes_run D (x := 3) hat rfl (by decide)
    (Nat.le_refl 3) (by decide) (.inr rfl) hfuel
  exact ⟨s', all, (Cmd.bind_run_ok hmake _).trans hrun, hlist⟩

end Primes

theorem primes_all_thirty : ∃ s' all,
    (do primes Lib14.noDoubles 15 (← makeQueue (.int 2)) (.int 3) (.int 30) : DataM Unit Value)
      ⟨[], [], [], [], [], 0, none, 0, ()⟩ = (.ok all, s') ∧
    s'.IsList all (ofNats [2, 3, 5, 7, 11, 13, 17, 19, 23, 29]) :=
  primes_all Lib14.noDoubles 30 14 (by decide) _

end SystemLib
