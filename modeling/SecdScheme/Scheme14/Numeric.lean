import SecdScheme.Scheme14.Arithmetic
import Mathlib.Algebra.GCDMonoid.Nat
import Mathlib.Algebra.Order.BigOperators.Group.List
import Mathlib.Data.Nat.Sqrt
import Mathlib.Tactic.Linarith
import Mathlib.Tactic.Ring

/-!
# scheme14: the numeric procedures of the library

`gcd`, `lcm`, `expt`, `%isqrt` and `sqrt` are written in Scheme, over the
primitives of the arithmetic. Their loops run on a fuel; of exact arguments
each of them ends, and computes what it is named after.
-/

namespace Scheme14

/-- An exact integer that is made. -/
abbrev intObj (n : ℤ) : Obj := .exact (makeInt n)

/-- `exact?`. -/
def primExactp (x : Obj) : Except Err Bool :=
  if !x.isNumber then typeError "exact?" "a number" x
  else .ok (match x with | .exact _ => true | _ => false)

section Library

variable (D : Doubles)

/-- `exact->inexact`. -/
def primExactToInexact (x : Obj) : Except Err Obj :=
  if !x.isNumber then typeError "exact->inexact" "a number" x
  else if x.isFlonum then .ok x
  else do return .flonum (← toDouble D "exact->inexact" x)

/-- `%sqrt`, over the square root of doubles. -/
def primSqrtRaw (sqrtD : ℕ → ℕ) (x : Obj) : Except Err Obj := do
  return .flonum (sqrtD (← toDouble D "%sqrt" x))

/-- `%expt`, over the power of doubles. -/
def primExptRaw (powD : ℕ → ℕ → ℕ) (x y : Obj) : Except Err Obj := do
  return .flonum (powD (← toDouble D "%expt" x) (← toDouble D "%expt" y))

namespace Lib14

/-- `abs`. -/
def abs (x : Obj) : Except Err Obj := do
  if ← primLt D [x, intObj 0] then primSub D [intObj 0, x] else return x

/-- `gcd2`, the inner loop of `gcd`. -/
def gcd2 : ℕ → Obj → Obj → Except Err Obj
  | 0, _, _ => .error .outOfFuel
  | fuel + 1, a, b => do
    if ← primNumEq D [b, intObj 0] then return a
    else gcd2 fuel b (← primModulo [a, b])

/-- `go`, the outer loop of `gcd`. -/
def gcdFrom (fuel : ℕ) : Obj → List Obj → Except Err Obj
  | acc, [] => return acc
  | acc, x :: ls => do gcdFrom fuel (← gcd2 D fuel acc (← abs D x)) ls

/-- `gcd`. -/
def gcd (fuel : ℕ) (args : List Obj) : Except Err Obj := gcdFrom D fuel (intObj 0) args

/-- `go`, the loop of `lcm`; `div` is the division it makes. -/
def lcmFrom (div : List Obj → Except Err Obj) (fuel : ℕ) : Obj → List Obj → Except Err Obj
  | acc, [] => return acc
  | acc, x :: ls => do
    if ← primNumEq D [x, intObj 0] then return intObj 0
    else
      lcmFrom div fuel
        (← div [← primMul D [acc, ← abs D x], ← gcd D fuel [acc, x]]) ls

/-- `lcm`. -/
def lcm (fuel : ℕ) (args : List Obj) : Except Err Obj :=
  lcmFrom D (primDiv D) fuel (intObj 1) args

/-- `go`, the loop of `expt`. -/
def exptFrom : ℕ → Obj → Obj → Obj → Except Err Obj
  | 0, _, _, _ => .error .outOfFuel
  | fuel + 1, acc, b, n => do
    if ← primNumEq D [n, intObj 0] then return acc
    else
      let acc ← if ← primNumEq D [← primModulo [n, intObj 2], intObj 1] then primMul D [acc, b]
        else pure acc
      exptFrom fuel acc (← primMul D [b, b]) (← primQuotient [n, intObj 2])

/-- `expt`. -/
def expt (powD : ℕ → ℕ → ℕ) (fuel : ℕ) (b n : Obj) : Except Err Obj := do
  -- the `and` of the source: a test that fails stops it
  let exact ←
    if ← primExactp b then
      if ← primExactp n then primGe D [n, intObj 0] else pure false
    else pure false
  if exact then exptFrom D fuel (intObj 1) b n else primExptRaw D powD b n

/-- `go`, the loop of `%isqrt`. -/
def isqrtFrom (x : Obj) : ℕ → Obj → Except Err Obj
  | 0, _ => .error .outOfFuel
  | fuel + 1, g => do
    let next ← primQuotient [← primAdd D [g, ← primQuotient [x, g]], intObj 2]
    if ← primLt D [next, g] then isqrtFrom x fuel next else return g

/-- `%isqrt`. -/
def isqrt (fuel : ℕ) (x : Obj) : Except Err Obj := do
  if ← primLt D [x, intObj 2] then return x
  else isqrtFrom D x fuel (← primQuotient [← primAdd D [x, intObj 1], intObj 2])

/-- `sqrt`. -/
def sqrt (sqrtD : ℕ → ℕ) (fuel : ℕ) (x : Obj) : Except Err Obj := do
  if ← primLt D [x, intObj 0] then .error (.scheme "sqrt: argument out of range" true)
  else if ← primExactp x then
    let r ← isqrt D fuel x
    if ← primNumEq D [← primMul D [r, r], x] then return r
    else primSqrtRaw D sqrtD (← primExactToInexact D x)
  else primSqrtRaw D sqrtD x

end Lib14

end Library

/-! ## The primitives on two exact arguments -/

section Pairs

variable (D : Doubles) (i j : ExactInt)

/-- `=` of two exact numbers. -/
theorem primNumEq_pair :
    primNumEq D [.exact i, .exact j] = .ok (decide (i.toInt = j.toInt)) := by
  have h : primNumEq D (exactArgs [i, j]) = _ := compare_exact D "=" (R := (· = ·)) test_eq _
  simpa [exactArgs] using h

/-- `<` of two exact numbers. -/
theorem primLt_pair :
    primLt D [.exact i, .exact j] = .ok (decide (i.toInt < j.toInt)) := by
  have h : primLt D (exactArgs [i, j]) = _ := compare_exact D "<" (R := (· < ·)) test_lt _
  simpa [exactArgs] using h

/-- `>=` of two exact numbers. -/
theorem primGe_pair :
    primGe D [.exact i, .exact j] = .ok (decide (j.toInt ≤ i.toInt)) := by
  have h : primGe D (exactArgs [i, j]) = _ := compare_exact D ">=" (R := (· ≥ ·)) test_ge _
  simpa [exactArgs] using h

/-- `+` of two exact numbers. -/
theorem primAdd_pair :
    primAdd D [.exact i, .exact j] = .ok (intObj (i.toInt + j.toInt)) := by
  have h := apply_exact D .add [i, j]
  simpa [exactArgs, ArithOp.apply, ArithOp.meaning, Except.map, Result.obj] using h

/-- `-` of two exact numbers. -/
theorem primSub_pair :
    primSub D [.exact i, .exact j] = .ok (intObj (i.toInt - j.toInt)) := by
  have h := apply_exact D .sub [i, j]
  simpa [exactArgs, ArithOp.apply, ArithOp.meaning, Except.map, Result.obj] using h

/-- `*` of two exact numbers. -/
theorem primMul_pair :
    primMul D [.exact i, .exact j] = .ok (intObj (i.toInt * j.toInt)) := by
  have h := apply_exact D .mul [i, j]
  simpa [exactArgs, ArithOp.apply, ArithOp.meaning, Except.map, Result.obj] using h

variable {i j}

/-- `/` of two exact numbers truncates. -/
theorem primDiv_pair (hj : j.toInt ≠ 0) :
    primDiv D [.exact i, .exact j] = .ok (intObj (i.toInt.tdiv j.toInt)) := by
  have h := apply_exact D .div [i, j]
  simpa [exactArgs, ArithOp.apply, ArithOp.meaning, Except.map, Result.obj, hj, Ne.symm hj] using h

/-- `quotient` truncates as well. -/
theorem primQuotient_pair (hj : j.toInt ≠ 0) :
    primQuotient [.exact i, .exact j] = .ok (intObj (i.toInt.tdiv j.toInt)) := by
  have h := divide_exact "quotient" (fun x y _ => (rfl : Int.tdiv x y = Int.tdiv x y)) [i, j]
  simpa [exactArgs, primQuotient, divisionMeaning, Except.map, Result.obj, hj] using h

/-- `modulo` has the sign of the divisor. -/
theorem primModulo_pair (hj : j.toInt ≠ 0) :
    primModulo [.exact i, .exact j] = .ok (intObj (i.toInt.fmod j.toInt)) := by
  have h := divide_exact "modulo" signedRemainder_eq [i, j]
  simpa [exactArgs, primModulo, divisionMeaning, Except.map, Result.obj, hj] using h

end Pairs

/-- A computation whose first part has returned. -/
theorem ok_bind {α β : Type} (a : α) (f : α → Except Err β) :
    (Except.ok a >>= f) = f a := rfl

theorem toInt_zero : (makeInt 0).toInt = 0 := makeInt_toInt 0

theorem toInt_one : (makeInt 1).toInt = 1 := makeInt_toInt 1

theorem toInt_two : (makeInt 2).toInt = 2 := makeInt_toInt 2

theorem toInt_two_ne : (makeInt 2).toInt ≠ 0 := by
  rw [toInt_two]
  exact two_ne_zero

namespace Lib14

variable (D : Doubles)

/-! ## Divisors -/

/-- `abs` is the absolute value. -/
theorem abs_exact (i : ExactInt) :
    ∃ r : ExactInt, abs D (.exact i) = .ok (.exact r) ∧ r.toInt = (i.toInt.natAbs : ℕ) := by
  unfold abs
  rw [primLt_pair, ok_bind, toInt_zero]
  by_cases h : i.toInt < 0
  · rw [if_pos (decide_eq_true h), primSub_pair, toInt_zero]
    refine ⟨_, rfl, ?_⟩
    rw [makeInt_toInt]
    omega
  · rw [if_neg (by simpa using h)]
    refine ⟨i, rfl, ?_⟩
    omega

/-- **The inner loop of `gcd`**: the divisor gets smaller, and the common
divisors stay the same. -/
theorem gcd2_exact : ∀ (fuel : ℕ) {i j : ExactInt} {a b : ℕ}, i.toInt = a → j.toInt = b →
    b < fuel → ∃ r : ExactInt, gcd2 D fuel (.exact i) (.exact j) = .ok (.exact r) ∧
      r.toInt = (Nat.gcd a b : ℕ)
  | 0, _, _, _, _, _, _, hfuel => absurd hfuel (Nat.not_lt_zero _)
  | fuel + 1, i, j, a, b, hi, hj, hfuel => by
    unfold gcd2
    rw [primNumEq_pair, ok_bind, toInt_zero, hj]
    by_cases hb : (b : ℤ) = 0
    · rw [if_pos (decide_eq_true hb)]
      obtain rfl : b = 0 := Int.ofNat_eq_zero.1 hb
      refine ⟨i, rfl, ?_⟩
      rw [hi, Nat.gcd_zero_right]
    · rw [if_neg (by simpa using hb), primModulo_pair (by rw [hj]; exact hb), ok_bind]
      have hpos : 0 < b := Nat.pos_of_ne_zero fun h => hb (by rw [h]; rfl)
      have hmod : (makeInt (i.toInt.fmod j.toInt)).toInt = (a % b : ℕ) := by
        rw [makeInt_toInt, hi, hj, Int.ofNat_fmod]
      have hlt : a % b < fuel := Nat.lt_of_lt_of_le (Nat.mod_lt a hpos) (Nat.le_of_lt_succ hfuel)
      obtain ⟨r, hr, hgcd⟩ := gcd2_exact fuel hj hmod hlt
      refine ⟨r, hr, ?_⟩
      rw [hgcd, Nat.gcd_comm, ← Nat.gcd_rec, Nat.gcd_comm]

/-- The greatest common divisor of what there is so far and the numbers of a list. -/
def gcdOf (g : ℕ) (ns : List ℤ) : ℕ := ns.foldl (fun g n => Int.gcd g n) g

/-- The outer loop folds the greatest common divisor over the arguments. -/
theorem gcdFrom_exact {fuel : ℕ} : ∀ (is : List ExactInt) {i : ExactInt} {a : ℕ}, i.toInt = a →
    (∀ j ∈ is, j.toInt.natAbs < fuel) →
    ∃ r : ExactInt, gcdFrom D fuel (.exact i) (exactArgs is) = .ok (.exact r) ∧
      r.toInt = (gcdOf a (is.map ExactInt.toInt) : ℕ)
  | [], i, a, hi, _ => ⟨i, rfl, hi⟩
  | j :: is, i, a, hi, hfuel => by
    obtain ⟨x, habs, hx⟩ := abs_exact D j
    obtain ⟨g, hgcd, hg⟩ := gcd2_exact D fuel hi hx (hfuel j List.mem_cons_self)
    obtain ⟨r, hr, heq⟩ := gcdFrom_exact is hg fun k hk => hfuel k (List.mem_cons_of_mem j hk)
    refine ⟨r, ?_, heq⟩
    show gcdFrom D fuel (.exact i) (.exact j :: exactArgs is) = _
    unfold gcdFrom
    rw [habs, ok_bind, hgcd, ok_bind, hr]

/-- **`gcd` of exact arguments**, on more fuel than any of them. -/
theorem gcd_exact {fuel : ℕ} (is : List ExactInt) (hfuel : ∀ j ∈ is, j.toInt.natAbs < fuel) :
    ∃ r : ExactInt, gcd D fuel (exactArgs is) = .ok (.exact r) ∧
      r.toInt = (gcdOf 0 (is.map ExactInt.toInt) : ℕ) :=
  gcdFrom_exact D is toInt_zero hfuel

/-- The least common multiple of what there is so far and the numbers of a list. -/
def lcmOf (l : ℕ) (ns : List ℤ) : ℕ := ns.foldl (fun l n => Int.lcm l n) l

/-- A multiple of `0` is `0`. -/
theorem lcmOf_zero (ns : List ℤ) : lcmOf 0 ns = 0 := by
  induction ns with
  | nil => rfl
  | cons n ns ih =>
    show lcmOf (Int.lcm ((0 : ℕ) : ℤ) n) ns = 0
    rw [Int.natCast_zero, Int.lcm_zero_left, ih]

/-- A division that does not lose anything: its divisor is not zero and divides. -/
def exactDiv (args : List Obj) : Except Err Obj :=
  match args with
  | [.exact i, .exact j] =>
    if j.toInt ≠ 0 ∧ j.toInt ∣ i.toInt then primDiv D args else .error (.internal "truncated")
  | _ => .error (.internal "truncated")

/-- What `lcm` asks of its division. -/
def Divides (div : List Obj → Except Err Obj) : Prop :=
  ∀ i j : ExactInt, j.toInt ≠ 0 → j.toInt ∣ i.toInt →
    div [.exact i, .exact j] = .ok (intObj (i.toInt.tdiv j.toInt))

/-- The division of `lcm` may be that of the program. -/
theorem divides_primDiv : Divides (primDiv D) := fun _ _ hne _ => primDiv_pair D hne

/-- It may be the one without truncation, where it is exact. -/
theorem divides_exactDiv : Divides (exactDiv D) := by
  intro i j hne hdvd
  show (if j.toInt ≠ 0 ∧ j.toInt ∣ i.toInt then primDiv D [.exact i, .exact j] else _) = _
  rw [if_pos ⟨hne, hdvd⟩]
  exact primDiv_pair D hne

/-- **The loop of `lcm`**: what has been gathered is never zero, and every
division comes out even. -/
theorem lcmFrom_exact : ∀ (is : List ExactInt) {i : ExactInt} {a : ℕ}, i.toInt = a → a ≠ 0 →
    ∃ N, ∀ fuel ≥ N, ∃ r : ExactInt,
      (∀ div, Divides div →
        lcmFrom D div fuel (.exact i) (exactArgs is) = .ok (.exact r)) ∧
      r.toInt = (lcmOf a (is.map ExactInt.toInt) : ℕ)
  | [], i, a, hi, _ => ⟨0, fun _ _ => ⟨i, fun _ _ => rfl, hi⟩⟩
  | j :: is, i, a, hi, ha => by
    obtain ⟨x, habs, hx⟩ := abs_exact D j
    by_cases hj : j.toInt = 0
    · refine ⟨0, fun fuel _ => ⟨makeInt 0, fun div _ => ?_, ?_⟩⟩
      · show lcmFrom D div fuel (.exact i) (.exact j :: exactArgs is) = _
        unfold lcmFrom
        rw [primNumEq_pair, ok_bind, toInt_zero, if_pos (decide_eq_true hj)]
        rfl
      · show _ = ((lcmOf (Int.lcm a j.toInt) (is.map ExactInt.toInt) : ℕ) : ℤ)
        rw [hj, Int.lcm_zero_right, lcmOf_zero]
        exact toInt_zero
    · -- the divisor is the one of the two, and what is divided is their product
      have hlcm : (makeInt ((makeInt (i.toInt * x.toInt)).toInt.tdiv (Int.gcd a j.toInt))).toInt =
          (Int.lcm a j.toInt : ℕ) := by
        rw [makeInt_toInt, makeInt_toInt, hi, hx]
        rfl
      obtain ⟨N, hN⟩ := lcmFrom_exact is hlcm (Int.lcm_ne_zero (Int.natCast_ne_zero.2 ha) hj)
      refine ⟨max N (max a j.toInt.natAbs + 1), fun fuel hfuel => ?_⟩
      obtain ⟨r, hr, heq⟩ := hN fuel (le_trans (le_max_left _ _) hfuel)
      have hless : ∀ k ∈ [i, j], k.toInt.natAbs < fuel := by
        have := le_trans (le_max_right _ _) hfuel
        simp only [List.mem_cons, List.not_mem_nil, or_false, forall_eq_or_imp, forall_eq]
        omega
      obtain ⟨g, hg, hgeq⟩ := gcd_exact D [i, j] hless
      have hgcd : g.toInt = (Int.gcd a j.toInt : ℕ) := by
        rw [hgeq]
        show ((Int.gcd (Int.gcd ((0 : ℕ) : ℤ) i.toInt) j.toInt : ℕ) : ℤ) = _
        rw [hi, Int.natCast_zero, Int.gcd_zero_left]
        rfl
      have hgne : g.toInt ≠ 0 := by
        rw [hgcd]
        exact Int.natCast_ne_zero.2 fun h => hj (Int.gcd_eq_zero_iff.1 h).2
      have hdvd : g.toInt ∣ (makeInt (i.toInt * x.toInt)).toInt := by
        rw [makeInt_toInt, hgcd, hi]
        exact Dvd.dvd.mul_right (Int.gcd_dvd_left _ _) _
      refine ⟨r, fun div hdiv => ?_, heq⟩
      show lcmFrom D div fuel (.exact i) (.exact j :: exactArgs is) = _
      unfold lcmFrom
      rw [primNumEq_pair, ok_bind, toInt_zero, if_neg (by simpa using hj), habs, ok_bind,
        primMul_pair, ok_bind, show [Obj.exact i, .exact j] = exactArgs [i, j] from rfl, hg,
        ok_bind, hdiv _ _ hgne hdvd, ok_bind, hgcd]
      exact hr div hdiv

/-- The greatest common divisor of numbers. -/
structure IsGcd (ns : List ℤ) (g : ℤ) : Prop where
  nonneg : 0 ≤ g
  dvd : ∀ n ∈ ns, g ∣ n
  greatest : ∀ d, (∀ n ∈ ns, d ∣ n) → d ∣ g

/-- The least common multiple of numbers. -/
structure IsLcm (ns : List ℤ) (l : ℤ) : Prop where
  nonneg : 0 ≤ l
  dvd : ∀ n ∈ ns, n ∣ l
  least : ∀ m, (∀ n ∈ ns, n ∣ m) → l ∣ m

/-- What the loop folds divides all of them. -/
theorem gcdOf_dvd (ns : List ℤ) (g : ℕ) :
    ((gcdOf g ns : ℕ) : ℤ) ∣ g ∧ ∀ n ∈ ns, ((gcdOf g ns : ℕ) : ℤ) ∣ n := by
  induction ns generalizing g with
  | nil => exact ⟨dvd_rfl, nofun⟩
  | cons n ns ih =>
    obtain ⟨hg, hns⟩ := ih (Int.gcd g n)
    refine ⟨hg.trans (Int.gcd_dvd_left _ _), fun m hm => ?_⟩
    rcases List.mem_cons.1 hm with rfl | hm
    · exact hg.trans (Int.gcd_dvd_right _ _)
    · exact hns m hm

/-- Whatever divides all of them divides it. -/
theorem dvd_gcdOf {d : ℤ} {ns : List ℤ} {g : ℕ} (hg : d ∣ g) (hns : ∀ n ∈ ns, d ∣ n) :
    d ∣ ((gcdOf g ns : ℕ) : ℤ) := by
  induction ns generalizing g with
  | nil => exact hg
  | cons n ns ih =>
    exact ih (Int.dvd_coe_gcd hg (hns n List.mem_cons_self)) fun m hm =>
      hns m (List.mem_cons_of_mem n hm)

/-- **It is the greatest common divisor.** -/
theorem isGcd_gcdOf (ns : List ℤ) : IsGcd ns (gcdOf 0 ns : ℕ) :=
  ⟨Int.natCast_nonneg _, (gcdOf_dvd ns 0).2, fun _ => dvd_gcdOf (dvd_zero _)⟩

/-- What the loop folds is a multiple of all of them. -/
theorem dvd_lcmOf (ns : List ℤ) (l : ℕ) :
    (l : ℤ) ∣ (lcmOf l ns : ℕ) ∧ ∀ n ∈ ns, n ∣ ((lcmOf l ns : ℕ) : ℤ) := by
  induction ns generalizing l with
  | nil => exact ⟨dvd_rfl, nofun⟩
  | cons n ns ih =>
    obtain ⟨hl, hns⟩ := ih (Int.lcm l n)
    refine ⟨Dvd.dvd.trans (Int.dvd_lcm_left _ _) hl, fun m hm => ?_⟩
    rcases List.mem_cons.1 hm with rfl | hm
    · exact Dvd.dvd.trans (Int.dvd_lcm_right _ _) hl
    · exact hns m hm

/-- It divides every multiple of all of them. -/
theorem lcmOf_dvd {m : ℤ} {ns : List ℤ} {l : ℕ} (hl : (l : ℤ) ∣ m) (hns : ∀ n ∈ ns, n ∣ m) :
    ((lcmOf l ns : ℕ) : ℤ) ∣ m := by
  induction ns generalizing l with
  | nil => exact hl
  | cons n ns ih =>
    exact ih (Int.coe_lcm_dvd hl (hns n List.mem_cons_self)) fun k hk =>
      hns k (List.mem_cons_of_mem n hk)

/-- **It is the least common multiple.** -/
theorem isLcm_lcmOf (ns : List ℤ) : IsLcm ns (lcmOf 1 ns : ℕ) :=
  ⟨Int.natCast_nonneg _, (dvd_lcmOf ns 1).2, fun _ => lcmOf_dvd (one_dvd _)⟩

/-! ## Powers -/

/-- **The loop of `expt`**: the power that is left of the base, times what has
been gathered, stays the same. -/
theorem exptFrom_exact : ∀ (fuel : ℕ) (acc b : ExactInt) {n : ExactInt} {k : ℕ}, n.toInt = k →
    k < fuel →
    ∃ r : ExactInt, exptFrom D fuel (.exact acc) (.exact b) (.exact n) = .ok (.exact r) ∧
      r.toInt = acc.toInt * b.toInt ^ k
  | 0, _, _, _, _, _, hfuel => absurd hfuel (Nat.not_lt_zero _)
  | fuel + 1, acc, b, n, k, hn, hfuel => by
    unfold exptFrom
    rw [primNumEq_pair, ok_bind, toInt_zero, hn]
    by_cases hk : (k : ℤ) = 0
    · rw [if_pos (decide_eq_true hk)]
      obtain rfl : k = 0 := Int.ofNat_eq_zero.1 hk
      exact ⟨acc, rfl, by rw [pow_zero, mul_one]⟩
    · have hpos : 0 < k := Nat.pos_of_ne_zero fun h => hk (by rw [h]; rfl)
      have hmod : (makeInt (n.toInt.fmod (makeInt 2).toInt)).toInt = (k % 2 : ℕ) := by
        rw [makeInt_toInt, toInt_two, hn]
        exact (Int.ofNat_fmod k 2).symm
      have hquot : (makeInt (n.toInt.tdiv (makeInt 2).toInt)).toInt = (k / 2 : ℕ) := by
        rw [makeInt_toInt, toInt_two, hn]
        exact (Int.ofNat_tdiv k 2).symm
      have hless : k / 2 < fuel := by omega
      have hsquare : (makeInt (b.toInt * b.toInt)).toInt ^ (k / 2) = b.toInt ^ (2 * (k / 2)) := by
        rw [makeInt_toInt, ← pow_two, pow_mul]
      have hrest : ∀ acc' : ExactInt, ∃ r : ExactInt,
          (primMul D [.exact b, .exact b] >>= fun square =>
            primQuotient [.exact n, intObj 2] >>= fun half =>
            exptFrom D fuel (.exact acc') square half) = .ok (.exact r) ∧
          r.toInt = acc'.toInt * b.toInt ^ (2 * (k / 2)) := by
        intro acc'
        obtain ⟨r, hr, heq⟩ := exptFrom_exact fuel acc' (makeInt (b.toInt * b.toInt)) hquot hless
        refine ⟨r, ?_, by rw [heq, hsquare]⟩
        rw [primMul_pair, ok_bind, primQuotient_pair toInt_two_ne, ok_bind, hr]
      rw [if_neg (by simpa using hk), primModulo_pair toInt_two_ne, ok_bind, primNumEq_pair,
        ok_bind, hmod, toInt_one]
      by_cases hodd : ((k % 2 : ℕ) : ℤ) = 1
      · rw [if_pos (decide_eq_true hodd), primMul_pair]
        obtain ⟨r, hr, heq⟩ := hrest (makeInt (acc.toInt * b.toInt))
        refine ⟨r, hr, ?_⟩
        rw [heq, makeInt_toInt, mul_assoc, ← pow_succ']
        congr 2
        omega
      · rw [if_neg (by simpa using hodd)]
        obtain ⟨r, hr, heq⟩ := hrest acc
        refine ⟨r, hr, ?_⟩
        rw [heq]
        congr 2
        omega

/-- **`expt` is the power**, where the exponent is not negative. -/
theorem expt_exact (powD : ℕ → ℕ → ℕ) {fuel : ℕ} {b n : ExactInt} {k : ℕ} (hn : n.toInt = k)
    (hfuel : k < fuel) : ∃ r : ExactInt,
      expt D powD fuel (.exact b) (.exact n) = .ok (.exact r) ∧ r.toInt = b.toInt ^ k := by
  obtain ⟨r, hr, heq⟩ := exptFrom_exact D fuel (makeInt 1) b hn hfuel
  refine ⟨r, ?_, by rw [heq, toInt_one, one_mul]⟩
  show (primGe D [.exact n, intObj 0] >>= fun c => _) = _
  rw [primGe_pair, ok_bind, toInt_zero, hn, decide_eq_true (Int.natCast_nonneg k)]
  exact hr

/-- **Exact powers and divisors.** -/
theorem powers_and_divisors (powD : ℕ → ℕ → ℕ) :
    (∀ b n : ExactInt, 0 ≤ n.toInt → ∃ N, ∀ fuel ≥ N, ∃ r : ExactInt,
        expt D powD fuel (.exact b) (.exact n) = .ok (.exact r) ∧
          r.toInt = b.toInt ^ n.toInt.toNat) ∧
      ∀ is : List ExactInt, ∃ N, ∀ fuel ≥ N, ∃ g l : ExactInt,
        gcd D fuel (exactArgs is) = .ok (.exact g) ∧ IsGcd (is.map ExactInt.toInt) g.toInt ∧
        lcm D fuel (exactArgs is) = .ok (.exact l) ∧ IsLcm (is.map ExactInt.toInt) l.toInt ∧
        (is = [] → g.toInt = 0 ∧ l.toInt = 1) ∧
        ((∃ i ∈ is, i.toInt = 0) → l.toInt = 0) ∧
        lcmFrom D (exactDiv D) fuel (intObj 1) (exactArgs is) = lcm D fuel (exactArgs is) := by
  refine ⟨fun b n hn => ?_, fun is => ?_⟩
  · exact ⟨n.toInt.toNat + 1, fun fuel hfuel =>
      expt_exact D powD (Int.toNat_of_nonneg hn).symm (Nat.lt_of_succ_le hfuel)⟩
  · obtain ⟨N, hN⟩ := lcmFrom_exact D is toInt_one one_ne_zero
    refine ⟨max N ((is.map fun i => i.toInt.natAbs).sum + 1), fun fuel hfuel => ?_⟩
    obtain ⟨l, hl, hleq⟩ := hN fuel (le_trans (le_max_left _ _) hfuel)
    obtain ⟨g, hg, hgeq⟩ := gcd_exact D is fun i hi => by
      have hle := List.le_sum_of_mem (List.mem_map_of_mem (f := fun i => i.toInt.natAbs) hi)
      exact Nat.lt_of_le_of_lt hle (le_trans (le_max_right _ _) hfuel)
    have hlcm : IsLcm (is.map ExactInt.toInt) l.toInt := by
      rw [hleq]
      exact isLcm_lcmOf _
    refine ⟨g, l, hg, ?_, hl _ (divides_primDiv D), hlcm, ?_, ?_, ?_⟩
    · rw [hgeq]
      exact isGcd_gcdOf _
    · rintro rfl
      exact ⟨hgeq, hleq⟩
    · rintro ⟨i, hi, hzero⟩
      have hdvd := hlcm.dvd i.toInt (List.mem_map_of_mem hi)
      rw [hzero] at hdvd
      exact zero_dvd_iff.1 hdvd
    · rw [hl _ (divides_exactDiv D)]
      exact (hl _ (divides_primDiv D)).symm

/-! ## Square roots -/

/-- A guess that is not too small is followed by one that is not too small. -/
theorem sqrt_le_next {x g : ℕ} (hg : 0 < g) : Nat.sqrt x ≤ (g + x / g) / 2 := by
  have hroot : Nat.sqrt x * Nat.sqrt x ≤ x := Nat.sqrt_le x
  have hdiv : x < (x / g + 1) * g := by
    rw [Nat.add_one_mul, Nat.mul_comm]
    exact Nat.lt_mul_div_succ x hg
  by_contra h
  have hlt : g + x / g + 1 ≤ 2 * Nat.sqrt x := by omega
  generalize Nat.sqrt x = r at *
  generalize x / g = q at *
  -- the mean of the two factors is not less than their geometric mean
  nlinarith [sq_nonneg ((g : ℤ) - (q + 1)), Nat.mul_le_mul hlt hlt]

/-- The guess that is not followed by a smaller one is the root. -/
theorem le_sqrt_of_le_next {x g : ℕ} (hg : 0 < g) (h : g ≤ (g + x / g) / 2) : g ≤ Nat.sqrt x := by
  have hle : g ≤ x / g := by omega
  rw [Nat.le_sqrt]
  exact (Nat.le_div_iff_mul_le hg).1 hle

/-- **The loop of `%isqrt`**: no guess is below the root, and they get smaller. -/
theorem isqrtFrom_exact {i : ExactInt} {x : ℕ} (hi : i.toInt = x) :
    ∀ (fuel : ℕ) {j : ExactInt} {g : ℕ}, j.toInt = g → 0 < g → 0 < Nat.sqrt x →
      Nat.sqrt x ≤ g → g < fuel →
      ∃ r : ExactInt, isqrtFrom D (.exact i) fuel (.exact j) = .ok (.exact r) ∧
        r.toInt = (Nat.sqrt x : ℕ)
  | 0, _, _, _, _, _, _, hfuel => absurd hfuel (Nat.not_lt_zero _)
  | fuel + 1, j, g, hj, hg, hpos, hle, hfuel => by
    have hne : j.toInt ≠ 0 := by
      rw [hj]
      exact Int.natCast_ne_zero.2 hg.ne'
    have hnext : (makeInt ((makeInt (j.toInt + (makeInt (i.toInt.tdiv j.toInt)).toInt)).toInt.tdiv
        (makeInt 2).toInt)).toInt = ((g + x / g) / 2 : ℕ) := by
      rw [makeInt_toInt, makeInt_toInt, makeInt_toInt, toInt_two, hi, hj, ← Int.ofNat_tdiv]
      exact (Int.ofNat_tdiv (g + x / g) 2).symm
    have hroot := sqrt_le_next (x := x) hg
    unfold isqrtFrom
    rw [primQuotient_pair hne, ok_bind, primAdd_pair, ok_bind, primQuotient_pair toInt_two_ne,
      ok_bind, primLt_pair, ok_bind, hnext]
    by_cases hlt : (((g + x / g) / 2 : ℕ) : ℤ) < j.toInt
    · rw [if_pos (decide_eq_true hlt)]
      have hlt' : (g + x / g) / 2 < g := Int.ofNat_lt.1 (hj ▸ hlt)
      exact isqrtFrom_exact hi fuel hnext (Nat.lt_of_lt_of_le hpos hroot) hpos hroot
        (Nat.lt_of_lt_of_le hlt' (Nat.le_of_lt_succ hfuel))
    · rw [if_neg (by simpa using hlt)]
      have hge : g ≤ (g + x / g) / 2 := Int.ofNat_le.1 (hj ▸ not_lt.1 hlt)
      refine ⟨j, rfl, ?_⟩
      rw [hj, le_antisymm (le_sqrt_of_le_next hg hge) hle]

/-- **`%isqrt`** is the integer part of the root. -/
theorem isqrt_exact {i : ExactInt} {x : ℕ} (hi : i.toInt = x) {fuel : ℕ} (hfuel : x < fuel) :
    ∃ r : ExactInt, isqrt D fuel (.exact i) = .ok (.exact r) ∧ r.toInt = (Nat.sqrt x : ℕ) := by
  unfold isqrt
  rw [primLt_pair, ok_bind, toInt_two, hi]
  by_cases hlt : (x : ℤ) < 2
  · rw [if_pos (decide_eq_true hlt)]
    refine ⟨i, rfl, ?_⟩
    obtain rfl | rfl : x = 0 ∨ x = 1 := by omega
    · exact hi
    · exact hi
  · have hguess : (makeInt ((makeInt (i.toInt + (makeInt 1).toInt)).toInt.tdiv
        (makeInt 2).toInt)).toInt = ((x + 1) / 2 : ℕ) := by
      rw [makeInt_toInt, makeInt_toInt, toInt_two, toInt_one, hi]
      exact (Int.ofNat_tdiv (x + 1) 2).symm
    have hpos : 0 < Nat.sqrt x := Nat.sqrt_pos.2 (by omega)
    have hle : Nat.sqrt x ≤ (x + 1) / 2 := by
      have := sqrt_le_next (x := x) one_pos
      rwa [Nat.div_one, Nat.add_comm] at this
    rw [if_neg (by simpa using hlt), primAdd_pair, ok_bind, primQuotient_pair toInt_two_ne, ok_bind]
    exact isqrtFrom_exact D hi fuel hguess (by omega) hpos hle (by omega)

/-- Doubles that are not computed with. -/
def noDoubles : Doubles :=
  ⟨fun _ => 0, id, fun a _ => a, fun a _ => a, fun a _ => a, fun a _ => a, fun _ _ => false,
    fun _ _ => true⟩

/-- **The integer square root**: `%isqrt` ends with the greatest root whose
square is not greater, and `sqrt` is exact exactly of a square. -/
theorem isqrt_and_sqrt (sqrtD : ℕ → ℕ) (i : ExactInt) (hi : 0 ≤ i.toInt) :
    ∃ N, ∀ fuel ≥ N,
      (∃ r : ExactInt, isqrt D fuel (.exact i) = .ok (.exact r) ∧ 0 ≤ r.toInt ∧
        r.toInt * r.toInt ≤ i.toInt ∧ ∀ n : ℤ, n * n ≤ i.toInt → n ≤ r.toInt) ∧
      ∃ v, sqrt D sqrtD fuel (.exact i) = .ok v ∧
        ((∃ r, v = .exact r) ↔ ∃ n : ℤ, n * n = i.toInt) ∧
        ∀ r : ExactInt, v = .exact r → 0 ≤ r.toInt ∧ r.toInt * r.toInt = i.toInt := by
  obtain ⟨x, hx⟩ := Int.eq_ofNat_of_zero_le hi
  refine ⟨x + 1, fun fuel hfuel => ?_⟩
  obtain ⟨r, hr, hroot⟩ := isqrt_exact D hx (Nat.lt_of_succ_le hfuel)
  have hgreatest : ∀ n : ℤ, n * n ≤ i.toInt → n ≤ r.toInt := by
    intro n hn
    rw [hroot]
    have hsq : n.natAbs * n.natAbs ≤ x := by
      have : ((n.natAbs * n.natAbs : ℕ) : ℤ) ≤ x := by
        rw [Int.natCast_mul, Int.natAbs_mul_self' n, ← hx]
        exact hn
      exact Int.ofNat_le.1 this
    have hle := Nat.le_sqrt.2 hsq
    omega
  have hsquare : r.toInt * r.toInt ≤ i.toInt := by
    rw [hroot, hx]
    exact_mod_cast Nat.sqrt_le x
  refine ⟨⟨r, hr, by rw [hroot]; exact Int.natCast_nonneg _, hsquare, hgreatest⟩, ?_⟩
  have hrun : sqrt D sqrtD fuel (.exact i) = if r.toInt * r.toInt = i.toInt then .ok (.exact r)
      else .ok (.flonum (sqrtD (D.ofInt i.toInt))) := by
    unfold sqrt
    rw [primLt_pair, ok_bind, toInt_zero, if_neg (by simpa using hi)]
    show (isqrt D fuel (.exact i) >>= fun r => _) = _
    rw [hr, ok_bind, primMul_pair, ok_bind, primNumEq_pair, ok_bind, makeInt_toInt]
    by_cases h : r.toInt * r.toInt = i.toInt
    · rw [if_pos (decide_eq_true h), if_pos h]
      rfl
    · rw [if_neg (by simpa using h), if_neg h]
      rfl
  rw [hrun]
  by_cases h : r.toInt * r.toInt = i.toInt
  · rw [if_pos h]
    refine ⟨_, rfl, ⟨fun _ => ⟨_, h⟩, fun _ => ⟨r, rfl⟩⟩, fun r' hr' => ?_⟩
    obtain rfl := Obj.exact.inj hr'
    rw [hroot] at h ⊢
    exact ⟨Int.natCast_nonneg _, h⟩
  · rw [if_neg h]
    refine ⟨_, rfl, ⟨fun hv => ?_, fun ⟨n, hn⟩ => absurd ?_ h⟩, fun _ hv => ?_⟩
    · obtain ⟨_, hv⟩ := hv
      cases hv
    · -- the root of a square is not less than what it is the square of
      have hle := hgreatest n hn.le
      have hle' := hgreatest (-n) (by rw [neg_mul_neg, hn])
      refine le_antisymm hsquare ?_
      rw [← hn]
      nlinarith
    · cases hv

theorem isqrt_and_sqrt_sixteen : 0 ≤ (makeInt 16).toInt ∧ ∃ N, ∀ fuel ≥ N,
    (∃ r : ExactInt, isqrt noDoubles fuel (intObj 16) = .ok (.exact r) ∧ 0 ≤ r.toInt ∧
      r.toInt * r.toInt ≤ (makeInt 16).toInt ∧
      ∀ n : ℤ, n * n ≤ (makeInt 16).toInt → n ≤ r.toInt) ∧
    ∃ v, sqrt noDoubles id fuel (intObj 16) = .ok v ∧
      ((∃ r, v = .exact r) ↔ ∃ n : ℤ, n * n = (makeInt 16).toInt) ∧
      ∀ r : ExactInt, v = .exact r → 0 ≤ r.toInt ∧ r.toInt * r.toInt = (makeInt 16).toInt :=
  ⟨by decide, isqrt_and_sqrt noDoubles id (makeInt 16) (by decide)⟩

end Lib14

end Scheme14
