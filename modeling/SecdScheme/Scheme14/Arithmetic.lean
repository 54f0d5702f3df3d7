import SecdScheme.Scheme14.Syntax
import Mathlib.Algebra.BigOperators.Group.List.Basic
import Mathlib.Algebra.Ring.Int.Defs
import Mathlib.Data.List.Chain

/-!
# scheme14: numbers and their arithmetic

An exact integer is a fixnum, which is a machine word with a bit less, or a
big integer. The arithmetic starts on words and goes over to big integers
where an argument or a result does not fit; where an argument is inexact it
goes over to doubles, whose arithmetic is a parameter.

Elsewhere an exact integer is the one value `Value.int n`. This is right
because a number has one representation only.
-/

namespace Scheme14

/-! ## Representations -/

/-- `FIXNUM_MAX`. -/
def fixnumMax : ℤ := 2 ^ 62 - 1

/-- `FIXNUM_MIN`. -/
def fixnumMin : ℤ := -fixnumMax - 1

/-- `fits_fixnum`. -/
def FitsFixnum (n : ℤ) : Prop := fixnumMin ≤ n ∧ n ≤ fixnumMax

instance (n : ℤ) : Decidable (FitsFixnum n) := inferInstanceAs (Decidable (_ ∧ _))

/-- **An immediate integer**, which fits. -/
structure Fixnum where
  val : ℤ
  fits : FitsFixnum val
  deriving DecidableEq

/-- **An exact integer as it is represented.** -/
inductive ExactInt where
  | fixnum (n : Fixnum)
  | bignum (n : ℤ)
  deriving DecidableEq

namespace ExactInt

/-- The number that is represented. -/
def toInt : ExactInt → ℤ
  | fixnum n => n.val
  | bignum n => n

/-- **The one representation of a number**: a big integer does not fit. -/
def Canonical : ExactInt → Prop
  | fixnum _ => True
  | bignum n => ¬ FitsFixnum n

end ExactInt

/-- `make_int`. -/
def makeInt (n : ℤ) : ExactInt := if h : FitsFixnum n then .fixnum ⟨n, h⟩ else .bignum n

/-- **What a primitive is given**, as it is represented. -/
inductive Obj where
  | exact (i : ExactInt)
  | flonum (bits : ℕ)
  | other (v : Value)
  deriving DecidableEq

/-- The value an object is elsewhere. -/
def Obj.value : Obj → Value
  | .exact i => .int i.toInt
  | .flonum bits => .real bits
  | .other v => v

/-- **The arithmetic of doubles**, on their bits. -/
structure Doubles where
  ofInt : ℤ → ℕ
  neg : ℕ → ℕ
  add : ℕ → ℕ → ℕ
  sub : ℕ → ℕ → ℕ
  mul : ℕ → ℕ → ℕ
  div : ℕ → ℕ → ℕ
  lt : ℕ → ℕ → Bool
  eq : ℕ → ℕ → Bool

/-! ## Arguments -/

/-- `prim_error`. -/
def primError {α : Type} (who : String) (what : Message) : Except Err α :=
  .error (.scheme (.behind (who ++ ": ") what) true)

/-- `prim_type_error`. -/
def typeError {α : Type} (who expected : String) (got : Obj) : Except Err α :=
  primError who (.behind "wrong type of argument\n  " (expectedGiven expected got.value))

/-- The error of a division, with the divisor, which is zero. -/
def divisionByZero : Message := ⟨"division by zero\n  given: ", some (.int 0)⟩

/-- `need_args`; `hi` is `0` where there is no bound. -/
def needCount (who : String) (n lo hi : ℕ) : Except Err Unit :=
  if n < lo ∨ hi ≠ 0 ∧ hi < n then
    primError who ("wrong number of arguments\n  " ++ arityDetail lo hi n)
  else .ok ()

/-- `num_of`. -/
def numOf (who : String) : Obj → Except Err ℤ
  | .exact i => .ok i.toInt
  | x => typeError who "an integer" x

section Doubles

variable (D : Doubles)

/-- `to_double`. -/
def toDouble (who : String) : Obj → Except Err ℕ
  | .exact i => .ok (D.ofInt i.toInt)
  | .flonum bits => .ok bits
  | .other v => typeError who "a number" (.other v)

/-- `any_inexact`: every argument is looked at. -/
def anyInexact (who : String) : List Obj → Except Err Bool
  | [] => .ok false
  | .flonum _ :: rest => (anyInexact who rest).map fun _ => true
  | .exact _ :: rest => anyInexact who rest
  | .other v :: _ => typeError who "a number" (.other v)

/-! ## The two ways -/

/-- The result of `__builtin_add_overflow` and its likes: a machine word, if
there is no overflow. -/
def checkedWord (r : ℤ) : Option ℤ := if -2 ^ 63 ≤ r ∧ r < 2 ^ 63 then some r else none

/-- **The loop on words**: what it has come to, and the arguments that are
left when it gives way. -/
def fastLoop (op : ℤ → ℤ → ℤ) : Fixnum → List Obj → Fixnum × List Obj
  | acc, .exact (.fixnum x) :: rest =>
    match checkedWord (op acc.val x.val) with
    | none => (acc, .exact (.fixnum x) :: rest)
    | some r =>
      if h : FitsFixnum r then fastLoop op ⟨r, h⟩ rest
      else (acc, .exact (.fixnum x) :: rest)
  | acc, rest => (acc, rest)

/-- The loop on doubles. -/
def doubleLoop (who : String) (opD : ℕ → ℕ → ℕ) : ℕ → List Obj → Except Err ℕ
  | acc, [] => .ok acc
  | acc, x :: rest => do doubleLoop who opD (opD acc (← toDouble D who x)) rest

/-- The loop on big integers. -/
def bigLoop (who : String) (op : ℤ → ℤ → ℤ) : ℤ → List Obj → Except Err ℤ
  | acc, [] => .ok acc
  | acc, x :: rest => do bigLoop who op (op acc (← numOf who x)) rest

/-- What `+`, `-` and `*` do from the accumulator on. -/
def accumulate (who : String) (op : ℤ → ℤ → ℤ) (opD : ℕ → ℕ → ℕ) (acc : Fixnum)
    (args : List Obj) : Except Err Obj :=
  match fastLoop op acc args with
  | (acc, []) => .ok (.exact (.fixnum acc))
  | (acc, rest) => do
    if ← anyInexact who rest then
      return .flonum (← doubleLoop D who opD (D.ofInt acc.val) rest)
    else return .exact (makeInt (← bigLoop who op acc.val rest))

/-- `prim_add`. -/
def primAdd (args : List Obj) : Except Err Obj :=
  accumulate D "+" (· + ·) D.add ⟨0, by decide⟩ args

/-- `prim_mul`. -/
def primMul (args : List Obj) : Except Err Obj :=
  accumulate D "*" (· * ·) D.mul ⟨1, by decide⟩ args

/-- The opposite of a word, where it fits. -/
def negFixnum (x : Fixnum) (h : x.val ≠ fixnumMin) : Fixnum :=
  ⟨-x.val, by
    have := x.fits
    unfold FitsFixnum fixnumMin fixnumMax at *
    omega⟩

/-- `prim_sub`. -/
def primSub : List Obj → Except Err Obj
  | [] => primError "-" ("wrong number of arguments\n  " ++ arityDetail 1 0 0)
  | [.exact (.fixnum x)] =>
    if h : x.val ≠ fixnumMin then .ok (.exact (.fixnum (negFixnum x h)))
    else .ok (.exact (makeInt (-x.val)))
  | [.flonum bits] => .ok (.flonum (D.neg bits))
  | [x] => do return .exact (makeInt (-(← numOf "-" x)))
  | .exact (.fixnum x) :: rest => accumulate D "-" (· - ·) D.sub x rest
  | x :: rest => do
    if ← anyInexact "-" (x :: rest) then
      return .flonum (← doubleLoop D "-" D.sub (← toDouble D "-" x) rest)
    else return .exact (makeInt (← bigLoop "-" (· - ·) (← numOf "-" x) rest))

/-- The loop of `/`. -/
def divLoop : ℤ → List Obj → Except Err ℤ
  | acc, [] => .ok acc
  | acc, x :: rest => do
    let d ← numOf "/" x
    if d = 0 then primError "/" divisionByZero
    else divLoop (acc.tdiv d) rest

/-- `prim_div`. -/
def primDiv : List Obj → Except Err Obj
  | x :: y :: rest => do
    if ← anyInexact "/" (x :: y :: rest) then
      return .flonum (← doubleLoop D "/" D.div (← toDouble D "/" x) (y :: rest))
    else return .exact (makeInt (← divLoop (← numOf "/" x) (y :: rest)))
  | _ => primError "/" ("requires at least 2 arguments (single-argument reciprocal is not " ++
      "supported; use (/ 1 x) instead)")

end Doubles

/-- What `quotient`, `remainder` and `modulo` do. -/
def divide (who : String) (op : ℤ → ℤ → ℤ) (args : List Obj) : Except Err Obj := do
  needCount who args.length 2 2
  let x ← numOf who (args.getD 0 (.other .nil))
  let y ← numOf who (args.getD 1 (.other .nil))
  if y = 0 then primError who divisionByZero
  else return .exact (makeInt (op x y))

/-- `prim_quotient`. -/
def primQuotient : List Obj → Except Err Obj := divide "quotient" Int.tdiv

/-- `prim_remainder`. -/
def primRemainder : List Obj → Except Err Obj := divide "remainder" Int.tmod

/-- The remainder that is given the sign of the divisor. -/
def signedRemainder (x y : ℤ) : ℤ :=
  let r := x.tmod y
  if r < 0 ∧ 0 < y ∨ 0 < r ∧ y < 0 then r + y else r

/-- `prim_modulo`. -/
def primModulo : List Obj → Except Err Obj := divide "modulo" signedRemainder

/-! ## Comparisons -/

/-- `Cmp`. -/
inductive Cmp where
  | lt
  | eq
  | gt
  | unordered
  deriving DecidableEq

/-- The comparison of integers. -/
def cmpInt (a b : ℤ) : Cmp := if a < b then .lt else if b < a then .gt else .eq

/-- Whether an object is a flonum. -/
def Obj.isFlonum : Obj → Bool
  | .flonum _ => true
  | _ => false

section Compare

variable (D : Doubles)

/-- `num_cmp`. -/
def numCmp (who : String) (x y : Obj) : Except Err Cmp :=
  match x, y with
  | .exact (.fixnum a), .exact (.fixnum b) => .ok (cmpInt a.val b.val)
  | x, y =>
    if x.isFlonum || y.isFlonum then do
      let a ← toDouble D who x
      let b ← toDouble D who y
      return if D.lt a b then .lt else if D.lt b a then .gt
        else if D.eq a b then .eq else .unordered
    else do return cmpInt (← numOf who x) (← numOf who y)

/-- The loop of a comparison, which ends at the first pair that fails. -/
def compare (who : String) (test : Cmp → Bool) : List Obj → Except Err Bool
  | x :: y :: rest => do
    if test (← numCmp D who x y) then compare who test (y :: rest) else return false
  | _ => .ok true

/-- `prim_num_eq`. -/
def primNumEq : List Obj → Except Err Bool := compare D "=" (· == .eq)

/-- `prim_lt`. -/
def primLt : List Obj → Except Err Bool := compare D "<" (· == .lt)

/-- `prim_gt`. -/
def primGt : List Obj → Except Err Bool := compare D ">" (· == .gt)

/-- `prim_le`. -/
def primLe : List Obj → Except Err Bool := compare D "<=" fun c => c == .lt || c == .eq

/-- `prim_ge`. -/
def primGe : List Obj → Except Err Bool := compare D ">=" fun c => c == .gt || c == .eq

/-! ## Equality -/

/-- `is_number`. -/
def Obj.isNumber : Obj → Bool
  | .other _ => false
  | _ => true

/-- `eqv_number`: of flonums, the bits are compared. -/
def eqvNumber (x y : Obj) : Except Err Bool :=
  match x, y with
  | .flonum a, .flonum b => .ok (a == b)
  | .flonum _, _ => .ok false
  | _, .flonum _ => .ok false
  | x, y => do return (← numCmp D "eqv?" x y) == .eq

/-- `eqv_values`. Two objects that are no numbers are the same when they are
one object; a number that is one object is the same number, too. -/
def eqvObjects (x y : Obj) : Except Err Bool :=
  if x.isNumber && y.isNumber then eqvNumber D x y else .ok (x == y)

/-- `equal_values`, of which the cases of other objects are left out. -/
def equalObjects (others : Obj → Obj → Bool) (x y : Obj) : Except Err Bool :=
  if x.isNumber && y.isNumber then eqvNumber D x y else .ok (others x y)

/-- The loop of `memv`, on the elements of a list: what is left at the first
element that is the same. -/
def memv (x : Obj) : List Obj → Except Err (Option (List Obj))
  | [] => .ok none
  | y :: ys => do if ← eqvObjects D y x then return some (y :: ys) else memv x ys

end Compare

/-! ## One representation -/

theorem makeInt_toInt (n : ℤ) : (makeInt n).toInt = n := by
  unfold makeInt
  split <;> rfl

theorem canonical_makeInt (n : ℤ) : (makeInt n).Canonical := by
  unfold makeInt
  split
  · exact trivial
  · assumption

/-- A fixnum is made where the number fits. -/
theorem makeInt_fixnum (x : Fixnum) : makeInt x.val = .fixnum x := by
  unfold makeInt
  rw [dif_pos x.fits]

/-- **A fixnum is made exactly where the number fits.** -/
theorem exists_fixnum_iff (n : ℤ) :
    (∃ x, makeInt n = .fixnum x) ↔ -2 ^ 62 ≤ (makeInt n).toInt ∧ (makeInt n).toInt ≤ 2 ^ 62 - 1 := by
  have hfits : FitsFixnum n ↔ -2 ^ 62 ≤ n ∧ n ≤ 2 ^ 62 - 1 := by
    unfold FitsFixnum fixnumMin fixnumMax
    omega
  rw [makeInt_toInt, ← hfits]
  unfold makeInt
  by_cases h : FitsFixnum n
  · rw [dif_pos h]
    exact ⟨fun _ => h, fun _ => ⟨_, rfl⟩⟩
  · rw [dif_neg h]
    exact ⟨fun ⟨_, hx⟩ => (nomatch hx), fun h' => absurd h' h⟩

/-- **A number has one canonical representation.** -/
theorem makeInt_of_canonical {i : ExactInt} (h : i.Canonical) : makeInt i.toInt = i := by
  cases i with
  | fixnum x => exact makeInt_fixnum x
  | bignum n =>
    show makeInt n = _
    unfold makeInt
    rw [dif_neg h]

/-! ## Exact arguments -/

/-- Exact arguments as a primitive is given them. -/
def exactArgs (is : List ExactInt) : List Obj := is.map .exact

theorem anyInexact_exact (who : String) (is : List ExactInt) :
    anyInexact who (exactArgs is) = .ok false := by
  induction is with
  | nil => rfl
  | cons i is ih => exact ih

/-- An operation on a number and exact arguments, from left to right. -/
def foldInts (op : ℤ → ℤ → ℤ) (acc : ℤ) (is : List ExactInt) : ℤ :=
  is.foldl (fun n i => op n i.toInt) acc

theorem bigLoop_exact (who : String) (op : ℤ → ℤ → ℤ) (acc : ℤ) (is : List ExactInt) :
    bigLoop who op acc (exactArgs is) = .ok (foldInts op acc is) := by
  induction is generalizing acc with
  | nil => rfl
  | cons i is ih => exact ih (op acc i.toInt)

/-- **Where the words give way**, the big integers go on: what is left, from
what the loop has come to, has the same result. -/
theorem fastLoop_exact (op : ℤ → ℤ → ℤ) (acc : Fixnum) (is : List ExactInt) :
    ∃ left, (fastLoop op acc (exactArgs is)).2 = exactArgs left ∧
      foldInts op (fastLoop op acc (exactArgs is)).1.val left = foldInts op acc.val is := by
  induction is generalizing acc with
  | nil => exact ⟨[], rfl, rfl⟩
  | cons i is ih =>
    cases i with
    | bignum n => exact ⟨.bignum n :: is, rfl, rfl⟩
    | fixnum x =>
      show ∃ left, (fastLoop op acc (.exact (.fixnum x) :: exactArgs is)).2 = _ ∧
        foldInts op (fastLoop op acc (.exact (.fixnum x) :: exactArgs is)).1.val left = _
      unfold fastLoop
      cases hword : checkedWord (op acc.val x.val) with
      | none => exact ⟨.fixnum x :: is, rfl, rfl⟩
      | some r =>
        obtain rfl : op acc.val x.val = r := by
          unfold checkedWord at hword
          split at hword
          · exact Option.some.inj hword
          · cases hword
        dsimp only
        by_cases hfits : FitsFixnum (op acc.val x.val)
        · rw [dif_pos hfits]
          exact ih ⟨op acc.val x.val, hfits⟩
        · rw [dif_neg hfits]
          exact ⟨.fixnum x :: is, rfl, rfl⟩

section Exact

variable (D : Doubles)

/-- **Words or not**, the result is that of the integers. -/
theorem accumulate_exact (who : String) (op : ℤ → ℤ → ℤ) (opD : ℕ → ℕ → ℕ) (acc : Fixnum)
    (is : List ExactInt) :
    accumulate D who op opD acc (exactArgs is) =
      .ok (.exact (makeInt (foldInts op acc.val is))) := by
  obtain ⟨left, hleft, hfold⟩ := fastLoop_exact op acc is
  unfold accumulate
  rw [← hfold]
  rcases hrun : fastLoop op acc (exactArgs is) with ⟨acc', rest⟩
  rw [hrun] at hleft hfold
  obtain rfl : rest = exactArgs left := hleft
  cases left with
  | nil => exact congrArg (fun i => Except.ok (Obj.exact i)) (makeInt_fixnum acc').symm
  | cons i left =>
    show (anyInexact who (exactArgs (i :: left)) >>= fun b => _) = _
    rw [anyInexact_exact]
    show (bigLoop who op acc'.val (exactArgs (i :: left)) >>= fun n => _) = _
    rw [bigLoop_exact]
    rfl

theorem foldInts_add (acc : ℤ) (is : List ExactInt) :
    foldInts (· + ·) acc is = acc + (is.map ExactInt.toInt).sum := by
  induction is generalizing acc with
  | nil => exact (Int.add_zero acc).symm
  | cons i is ih =>
    show foldInts (· + ·) (acc + i.toInt) is = _
    rw [ih, List.map_cons, List.sum_cons, Int.add_assoc]

theorem foldInts_sub (acc : ℤ) (is : List ExactInt) :
    foldInts (· - ·) acc is = acc - (is.map ExactInt.toInt).sum := by
  induction is generalizing acc with
  | nil => exact (Int.sub_zero acc).symm
  | cons i is ih =>
    show foldInts (· - ·) (acc - i.toInt) is = _
    rw [ih, List.map_cons, List.sum_cons, Int.sub_sub]

theorem foldInts_mul (acc : ℤ) (is : List ExactInt) :
    foldInts (· * ·) acc is = acc * (is.map ExactInt.toInt).prod := by
  induction is generalizing acc with
  | nil => exact (Int.mul_one acc).symm
  | cons i is ih =>
    show foldInts (· * ·) (acc * i.toInt) is = _
    rw [ih, List.map_cons, List.prod_cons, Int.mul_assoc]

/-- `/` divides by one argument after the other, none of them zero. -/
theorem divLoop_exact (acc : ℤ) (is : List ExactInt) :
    divLoop acc (exactArgs is) =
      if 0 ∈ is.map ExactInt.toInt then primError "/" divisionByZero
      else .ok (foldInts Int.tdiv acc is) := by
  induction is generalizing acc with
  | nil => rfl
  | cons i is ih =>
    show (if i.toInt = 0 then _ else divLoop (acc.tdiv i.toInt) (exactArgs is)) = _
    rw [ih, List.map_cons]
    by_cases hi : i.toInt = 0
    · rw [if_pos hi, if_pos (List.mem_cons.mpr (.inl hi.symm))]
    · rw [if_neg hi]
      by_cases hrest : 0 ∈ is.map ExactInt.toInt
      · rw [if_pos hrest, if_pos (List.mem_cons_of_mem _ hrest)]
      · rw [if_neg hrest, if_neg]
        · rfl
        · intro hmem
          rcases List.mem_cons.mp hmem with h | h
          · exact hi h.symm
          · exact hrest h

/-- **The remainder with the sign of the divisor** is that of division
rounded down. -/
theorem signedRemainder_eq (x y : ℤ) (hy : y ≠ 0) : signedRemainder x y = x.fmod y := by
  unfold signedRemainder
  rw [Int.fmod_eq_emod, Int.tmod_eq_emod]
  simp only [Int.dvd_iff_emod_eq_zero]
  have hnonneg := Int.emod_nonneg x hy
  have hlt := Int.emod_lt x hy
  generalize x % y = e at hnonneg hlt
  split <;> split <;> split <;> omega

theorem numCmp_exact (who : String) (i j : ExactInt) :
    numCmp D who (.exact i) (.exact j) = .ok (cmpInt i.toInt j.toInt) := by
  cases i <;> cases j <;> rfl

/-- **A comparison of exact arguments** is that of the numbers that stand next
to each other. -/
theorem compare_exact (who : String) {test : Cmp → Bool} {R : ℤ → ℤ → Prop} [DecidableRel R]
    (htest : ∀ a b, test (cmpInt a b) = decide (R a b)) (is : List ExactInt) :
    compare D who test (exactArgs is) = .ok (decide ((is.map ExactInt.toInt).IsChain R)) := by
  induction is with
  | nil => simp [compare, exactArgs]
  | cons i is ih =>
    cases is with
    | nil => simp [compare, exactArgs]
    | cons j is =>
      show (numCmp D who (.exact i) (.exact j) >>= fun c =>
        if test c then compare D who test (exactArgs (j :: is)) else pure false) = _
      rw [numCmp_exact]
      show (if test (cmpInt i.toInt j.toInt) then compare D who test (exactArgs (j :: is))
        else pure false) = _
      rw [htest, ih]
      by_cases hR : R i.toInt j.toInt
      · rw [if_pos (decide_eq_true hR)]
        simp [hR]
      · rw [if_neg (by simp [hR])]
        simp [hR]
        rfl

/-- A comparison of integers has one of three outcomes. -/
theorem cmpInt_cases (a b : ℤ) :
    cmpInt a b = .lt ∧ a < b ∨ cmpInt a b = .gt ∧ b < a ∨ cmpInt a b = .eq ∧ a = b := by
  unfold cmpInt
  split
  · exact .inl ⟨rfl, ‹_›⟩
  split
  · exact .inr (.inl ⟨rfl, ‹_›⟩)
  · exact .inr (.inr ⟨rfl, by omega⟩)

theorem test_eq (a b : ℤ) : (cmpInt a b == .eq) = decide (a = b) := by
  rcases cmpInt_cases a b with ⟨hc, hab⟩ | ⟨hc, hab⟩ | ⟨hc, hab⟩ <;> rw [hc, Bool.eq_iff_iff] <;>
    simp <;> omega

theorem test_lt (a b : ℤ) : (cmpInt a b == .lt) = decide (a < b) := by
  rcases cmpInt_cases a b with ⟨hc, hab⟩ | ⟨hc, hab⟩ | ⟨hc, hab⟩ <;> rw [hc, Bool.eq_iff_iff] <;>
    simp <;> omega

theorem test_gt (a b : ℤ) : (cmpInt a b == .gt) = decide (a > b) := by
  rcases cmpInt_cases a b with ⟨hc, hab⟩ | ⟨hc, hab⟩ | ⟨hc, hab⟩ <;> rw [hc, Bool.eq_iff_iff] <;>
    simp <;> omega

theorem test_le (a b : ℤ) :
    (cmpInt a b == .lt || cmpInt a b == .eq) = decide (a ≤ b) := by
  rcases cmpInt_cases a b with ⟨hc, hab⟩ | ⟨hc, hab⟩ | ⟨hc, hab⟩ <;> rw [hc, Bool.eq_iff_iff] <;>
    simp <;> omega

theorem test_ge (a b : ℤ) :
    (cmpInt a b == .gt || cmpInt a b == .eq) = decide (a ≥ b) := by
  rcases cmpInt_cases a b with ⟨hc, hab⟩ | ⟨hc, hab⟩ | ⟨hc, hab⟩ <;> rw [hc, Bool.eq_iff_iff] <;>
    simp <;> omega

/-! ## The primitives -/

/-- The primitives of exact arithmetic. -/
inductive ArithOp where
  | add
  | sub
  | mul
  | div
  | quotient
  | remainder
  | modulo
  | numEq
  | lt
  | gt
  | le
  | ge
  deriving DecidableEq

/-- What a primitive returns. -/
inductive Result where
  | int (n : ℤ)
  | bool (b : Bool)
  deriving DecidableEq

/-- A result as it is represented. -/
def Result.obj : Result → Obj
  | int n => .exact (makeInt n)
  | bool b => .other (.bool b)

/-- A truth value as it is returned. -/
def boolObj (b : Bool) : Obj := .other (.bool b)

/-- The primitive of an operation. -/
def ArithOp.apply : ArithOp → List Obj → Except Err Obj
  | add, args => primAdd D args
  | sub, args => primSub D args
  | mul, args => primMul D args
  | div, args => primDiv D args
  | quotient, args => primQuotient args
  | remainder, args => primRemainder args
  | modulo, args => primModulo args
  | numEq, args => (primNumEq D args).map boolObj
  | lt, args => (primLt D args).map boolObj
  | gt, args => (primGt D args).map boolObj
  | le, args => (primLe D args).map boolObj
  | ge, args => (primGe D args).map boolObj

/-- The meaning of a division of two numbers. -/
def divisionMeaning (who : String) (op : ℤ → ℤ → ℤ) (ns : List ℤ) : Except Err Result :=
  match ns with
  | [x, y] => if y = 0 then primError who divisionByZero else .ok (.int (op x y))
  | ns => primError who ("wrong number of arguments\n  " ++ arityDetail 2 2 ns.length)

/-- **What the operations mean** of integers. -/
def ArithOp.meaning : ArithOp → List ℤ → Except Err Result
  | add, ns => .ok (.int ns.sum)
  | sub, [] => primError "-" ("wrong number of arguments\n  " ++ arityDetail 1 0 0)
  | sub, [n] => .ok (.int (-n))
  | sub, n :: ns => .ok (.int (n - ns.sum))
  | mul, ns => .ok (.int ns.prod)
  | div, n :: m :: ns =>
    if 0 ∈ m :: ns then primError "/" divisionByZero
    else .ok (.int ((m :: ns).foldl Int.tdiv n))
  | div, _ => primError "/" ("requires at least 2 arguments (single-argument reciprocal is not " ++
      "supported; use (/ 1 x) instead)")
  | quotient, ns => divisionMeaning "quotient" Int.tdiv ns
  | remainder, ns => divisionMeaning "remainder" Int.tmod ns
  | modulo, ns => divisionMeaning "modulo" Int.fmod ns
  | numEq, ns => .ok (.bool (decide (ns.IsChain (· = ·))))
  | lt, ns => .ok (.bool (decide (ns.IsChain (· < ·))))
  | gt, ns => .ok (.bool (decide (ns.IsChain (· > ·))))
  | le, ns => .ok (.bool (decide (ns.IsChain (· ≤ ·))))
  | ge, ns => .ok (.bool (decide (ns.IsChain (· ≥ ·))))

theorem divide_exact (who : String) {op op' : ℤ → ℤ → ℤ}
    (hop : ∀ x y, y ≠ 0 → op x y = op' x y) (is : List ExactInt) :
    divide who op (exactArgs is) =
      (divisionMeaning who op' (is.map ExactInt.toInt)).map Result.obj := by
  rcases is with _ | ⟨i, _ | ⟨j, _ | ⟨k, is⟩⟩⟩
  · rfl
  · rfl
  · show (if j.toInt = 0 then primError who divisionByZero
      else Except.ok (Obj.exact (makeInt (op i.toInt j.toInt)))) = _
    unfold divisionMeaning
    dsimp only [List.map]
    by_cases hj : j.toInt = 0
    · rw [if_pos hj, if_pos hj]
      rfl
    · rw [if_neg hj, if_neg hj, hop _ _ hj]
      rfl
  · unfold divide divisionMeaning needCount
    have hlen : 2 < (exactArgs (i :: j :: k :: is)).length := by
      show 2 < ((i :: j :: k :: is).map Obj.exact).length
      rw [List.length_map]
      exact Nat.le_add_left 3 is.length
    rw [if_pos (.inr ⟨by decide, hlen⟩)]
    dsimp only [List.map]
    unfold exactArgs
    rw [List.length_map, List.length_cons, List.length_cons, List.length_cons, List.length_cons,
      List.length_cons, List.length_cons, List.length_map]
    rfl

theorem primSub_exact (is : List ExactInt) :
    primSub D (exactArgs is) = (ArithOp.sub.meaning (is.map ExactInt.toInt)).map Result.obj := by
  rcases is with _ | ⟨i, _ | ⟨j, is⟩⟩
  · rfl
  · cases i with
    | bignum n => rfl
    | fixnum x =>
      show (if h : x.val ≠ fixnumMin then Except.ok (Obj.exact (.fixnum (negFixnum x h)))
        else .ok (.exact (makeInt (-x.val)))) = .ok (.exact (makeInt (-x.val)))
      split
      · exact congrArg (fun i => Except.ok (Obj.exact i)) (makeInt_fixnum (negFixnum x _)).symm
      · rfl
  · have hmeaning : ArithOp.sub.meaning ((i :: j :: is).map ExactInt.toInt) =
        .ok (.int (foldInts (· - ·) i.toInt (j :: is))) := by
      rw [foldInts_sub]
      rfl
    rw [hmeaning]
    cases i with
    | fixnum x => exact accumulate_exact D "-" (· - ·) D.sub x (j :: is)
    | bignum n =>
      show (anyInexact "-" (exactArgs (.bignum n :: j :: is)) >>= fun b => _) = _
      rw [anyInexact_exact]
      show (bigLoop "-" (· - ·) n (exactArgs (j :: is)) >>= fun n => _) = _
      rw [bigLoop_exact]
      rfl

theorem primDiv_exact (is : List ExactInt) :
    primDiv D (exactArgs is) = (ArithOp.div.meaning (is.map ExactInt.toInt)).map Result.obj := by
  rcases is with _ | ⟨i, _ | ⟨j, is⟩⟩
  · rfl
  · rfl
  · show (anyInexact "/" (exactArgs (i :: j :: is)) >>= fun b => _) = _
    rw [anyInexact_exact]
    show (divLoop i.toInt (exactArgs (j :: is)) >>= fun n => _) = _
    rw [divLoop_exact]
    show _ = Except.map Result.obj (if 0 ∈ (j :: is).map ExactInt.toInt then _ else _)
    split
    · rfl
    · show Except.ok (Obj.exact (makeInt (foldInts Int.tdiv i.toInt (j :: is)))) =
        .ok (.exact (makeInt (((j :: is).map ExactInt.toInt).foldl Int.tdiv i.toInt)))
      rw [List.foldl_map]
      rfl

/-- **The primitives compute what the operations mean.** -/
theorem apply_exact (op : ArithOp) (is : List ExactInt) :
    op.apply D (exactArgs is) = (op.meaning (is.map ExactInt.toInt)).map Result.obj := by
  cases op with
  | add =>
    show accumulate D "+" (· + ·) D.add ⟨0, by decide⟩ (exactArgs is) = _
    rw [accumulate_exact, foldInts_add, Int.zero_add]
    rfl
  | sub => exact primSub_exact D is
  | mul =>
    show accumulate D "*" (· * ·) D.mul ⟨1, by decide⟩ (exactArgs is) = _
    rw [accumulate_exact, foldInts_mul, Int.one_mul]
    rfl
  | div => exact primDiv_exact D is
  | quotient => exact divide_exact "quotient" (fun _ _ _ => rfl) is
  | remainder => exact divide_exact "remainder" (fun _ _ _ => rfl) is
  | modulo => exact divide_exact "modulo" signedRemainder_eq is
  | numEq =>
    show (compare D "=" _ (exactArgs is)).map boolObj = _
    rw [compare_exact D "=" test_eq]
    rfl
  | lt =>
    show (compare D "<" _ (exactArgs is)).map boolObj = _
    rw [compare_exact D "<" (R := (· < ·)) test_lt]
    rfl
  | gt =>
    show (compare D ">" _ (exactArgs is)).map boolObj = _
    rw [compare_exact D ">" (R := (· > ·)) test_gt]
    rfl
  | le =>
    show (compare D "<=" _ (exactArgs is)).map boolObj = _
    rw [compare_exact D "<=" (R := (· ≤ ·)) test_le]
    rfl
  | ge =>
    show (compare D ">=" _ (exactArgs is)).map boolObj = _
    rw [compare_exact D ">=" (R := (· ≥ ·)) test_ge]
    rfl

/-! ## Equality of numbers -/

theorem eqvObjects_exact (i j : ExactInt) :
    eqvObjects D (.exact i) (.exact j) = .ok (decide (i.toInt = j.toInt)) := by
  show (numCmp D "eqv?" (.exact i) (.exact j) >>= fun c => pure (c == .eq)) = _
  rw [numCmp_exact]
  exact congrArg Except.ok (test_eq i.toInt j.toInt)

theorem equalObjects_exact (others : Obj → Obj → Bool) (i j : ExactInt) :
    equalObjects D others (.exact i) (.exact j) = .ok (decide (i.toInt = j.toInt)) :=
  eqvObjects_exact D i j

/-- `memv` finds the first element that is the same number. -/
theorem memv_exact (i : ExactInt) (js : List ExactInt) :
    memv D (.exact i) (exactArgs js) =
      .ok (((js.map ExactInt.toInt).findIdx? (· == i.toInt)).map fun k =>
        exactArgs (js.drop k)) := by
  induction js with
  | nil => rfl
  | cons j js ih =>
    show (eqvObjects D (.exact j) (.exact i) >>= fun b =>
      if b then pure (some (exactArgs (j :: js))) else memv D (.exact i) (exactArgs js)) = _
    rw [eqvObjects_exact, List.map_cons, List.findIdx?_cons]
    by_cases hj : j.toInt = i.toInt
    · rw [decide_eq_true hj, if_pos (beq_iff_eq.mpr hj)]
      rfl
    · rw [decide_eq_false hj, if_neg (mt beq_iff_eq.mp hj)]
      show memv D (.exact i) (exactArgs js) = _
      rw [ih, Option.map_map]
      rfl

/-- **Exact arithmetic is that of the integers**, whichever way a primitive
takes, and an exact integer that is made is a fixnum exactly when it fits; so
equality does not see representations. -/
theorem exact_arithmetic (op : ArithOp) (is : List ExactInt) :
    op.apply D (exactArgs is) = (op.meaning (is.map ExactInt.toInt)).map Result.obj ∧
    (∀ r, op.apply D (exactArgs is) = .ok (.exact r) →
      ((∃ x, r = .fixnum x) ↔ -2 ^ 62 ≤ r.toInt ∧ r.toInt ≤ 2 ^ 62 - 1)) ∧
    ∀ i j : ExactInt, eqvObjects D (.exact i) (.exact j) = .ok (decide (i.toInt = j.toInt)) ∧
      (∀ others, equalObjects D others (.exact i) (.exact j) =
        .ok (decide (i.toInt = j.toInt))) ∧
      memv D (.exact i) (exactArgs is) =
        .ok (((is.map ExactInt.toInt).findIdx? (· == i.toInt)).map fun k =>
          exactArgs (is.drop k)) := by
  refine ⟨apply_exact D op is, fun r hr => ?_, fun i j => ⟨eqvObjects_exact D i j,
    fun others => equalObjects_exact D others i j, memv_exact D i is⟩⟩
  rw [apply_exact] at hr
  cases hmeaning : op.meaning (is.map ExactInt.toInt) with
  | error e =>
    rw [hmeaning] at hr
    cases hr
  | ok result =>
    rw [hmeaning] at hr
    cases result with
    | bool b => cases hr
    | int n =>
      obtain rfl : makeInt n = r := Obj.exact.inj (Except.ok.inj hr)
      exact exists_fixnum_iff n

end Exact

end Scheme14
