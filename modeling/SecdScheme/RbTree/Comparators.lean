import SecdScheme.Scheme14.Arithmetic
import Mathlib.Data.Char
import Mathlib.Data.List.Lex
import Mathlib.Data.Sum.Order
import Mathlib.Logic.Equiv.Nat
import Mathlib.Order.WithBot
import Mathlib.Data.Rat.Cast.Order

/-!
# The comparators of the library

`rb-cmp-number`, `rb-cmp-string` and `rb-cmp-mixed`, over the comparisons of
the interpreter. Two numbers of which one is inexact are compared as doubles,
and a number that is none is neither less nor greater than any: both answer 0
for keys that are not equal. Apart from that the comparators are orders.
-/

namespace RbTree.Keys

open Scheme14

/-- A key: a number as it is represented, a string, or something else. -/
inductive Key where
  | exact (i : ExactInt)
  | inexact (bits : ℕ)
  | string (s : List Char)
  | other (v : Value)

/-- What the primitives are given. -/
def Key.obj : Key → Obj
  | exact i => .exact i
  | inexact bits => .flonum bits
  | string _ => .other .nil
  | other v => .other v

/-- `number?`. -/
def Key.isNumber : Key → Bool
  | exact _ | inexact _ => true
  | _ => false

/-- `string?`. -/
def Key.isString : Key → Bool
  | string _ => true
  | _ => false

section Comparators

variable (D : Doubles)

/-- `rb-reject-key`. -/
def rbRejectKey (who : String) : Except Err ℤ :=
  .error (.scheme (who ++ ": key is outside this tree's domain") true)

/-- `rb-cmp-number`: keys that are numbers, in their order. -/
def rbCmpNumber (a b : Key) : Except Err ℤ :=
  if a.isNumber && b.isNumber then do
    if ← primLt D [a.obj, b.obj] then return -1
    else if ← primGt D [a.obj, b.obj] then return 1
    else return 0
  else rbRejectKey "rb-cmp-number"

/-- `string<?`, on the bytes. -/
def stringLt : Key → Key → Bool
  | .string s, .string t => decide (s < t)
  | _, _ => false

/-- `rb-cmp-string`: keys that are strings, in theirs. -/
def rbCmpString (a b : Key) : Except Err ℤ :=
  if a.isString && b.isString then
    if stringLt a b then .ok (-1)
    else if stringLt b a then .ok 1
    else .ok 0
  else rbRejectKey "rb-cmp-string"

/-- `rb-cmp-mixed`: numbers come before strings. -/
def rbCmpMixed (a b : Key) : Except Err ℤ :=
  if a.isNumber && b.isNumber then rbCmpNumber D a b
  else if a.isString && b.isString then rbCmpString a b
  else if a.isNumber && b.isString then .ok (-1)
  else if a.isString && b.isNumber then .ok 1
  else rbRejectKey "rb-cmp-mixed"

/-- The comparators there are. -/
inductive BuiltIn where
  | number
  | string
  | mixed
  deriving DecidableEq

/-- The comparator of a handle. -/
def BuiltIn.cmp : BuiltIn → Key → Key → Except Err ℤ
  | number => rbCmpNumber D
  | string => rbCmpString
  | mixed => rbCmpMixed D

/-- `rb-db-check-key` lets a key through. -/
def BuiltIn.Accepts (b : BuiltIn) (key : Key) : Prop := ∃ c, b.cmp D key key = .ok c

end Comparators

/-! ## Where a key stands -/

/-- The values of numbers, with the two infinities. -/
abbrev Extended := WithBot (WithTop ℚ)

/-- **What is taken from the standard of the doubles**: a double has a value,
unless it is no number; the comparison is that of the values; and an integer
is rounded to a double with no other one in between. -/
structure Ieee (D : Doubles) where
  value : ℕ → Option Extended
  lt_iff : ∀ a b, D.lt a b = true ↔ ∃ x ∈ value a, ∃ y ∈ value b, x < y
  ofInt_value : ∀ n, (value (D.ofInt n)).isSome = true
  le_ofInt : ∀ n b x r, x ∈ value b → r ∈ value (D.ofInt n) →
    x ≤ (((n : ℚ) : WithTop ℚ) : Extended) → x ≤ r
  ofInt_le : ∀ n b x r, x ∈ value b → r ∈ value (D.ofInt n) →
    (((n : ℚ) : WithTop ℚ) : Extended) ≤ x → r ≤ x

variable {D : Doubles}

/-- **Where a key stands**: the numbers by their value, and the strings after
them. -/
def Key.place (h : Ieee D) : Key → Option (Extended ⊕ₗ List Char)
  | exact i => some (toLex (.inl (((i.toInt : ℚ) : WithTop ℚ) : Extended)))
  | inexact bits => (h.value bits).map fun x => toLex (.inl x)
  | string s => some (toLex (.inr s))
  | other _ => none

/-- Two keys that are numerically, or textually, equal. -/
def Same (h : Ieee D) (a b : Key) : Prop := ∃ p ∈ a.place h, p ∈ b.place h

/-- **A comparator is an order** on some keys: zero exactly for equal keys,
antisymmetric and transitive. -/
structure OrderedOn (cmp : Key → Key → Except Err ℤ) (same : Key → Key → Prop)
    (S : Set Key) : Prop where
  zero_iff : ∀ a ∈ S, ∀ b ∈ S, cmp a b = .ok 0 ↔ same a b
  antisymm : ∀ a ∈ S, ∀ b ∈ S, ∃ c, cmp a b = .ok c ∧ cmp b a = .ok (-c)
  trans : ∀ a ∈ S, ∀ b ∈ S, ∀ d ∈ S, ∀ c c', cmp a b = .ok c → c < 0 → cmp b d = .ok c' →
    c' < 0 → ∃ c'', cmp a d = .ok c'' ∧ c'' < 0

/-- No key is a double that is no number. -/
def NoNan (h : Ieee D) (S : Set Key) : Prop :=
  ∀ bits, Key.inexact bits ∈ S → (h.value bits).isSome = true

/-- No exact key is rounded to the value of an inexact one that it is not
equal to. -/
def Unrounded (h : Ieee D) (S : Set Key) : Prop :=
  ∀ i bits, Key.exact i ∈ S → Key.inexact bits ∈ S → ∀ x ∈ h.value bits,
    x ∈ h.value (D.ofInt i.toInt) → x = (((i.toInt : ℚ) : WithTop ℚ) : Extended)

/-- **Keys that doubles tell apart.** -/
structure Separated (h : Ieee D) (S : Set Key) : Prop where
  no_nan : NoNan h S
  rounded : Unrounded h S

/-! ## What the comparators compute -/

/-- One key is found less than another one. -/
def less (D : Doubles) : Key → Key → Bool
  | .exact i, .exact j => decide (i.toInt < j.toInt)
  | .exact i, .inexact y => D.lt (D.ofInt i.toInt) y
  | .inexact x, .exact j => D.lt x (D.ofInt j.toInt)
  | .inexact x, .inexact y => D.lt x y
  | .exact _, .string _ => true
  | .inexact _, .string _ => true
  | a, b => stringLt a b

/-- The sign of a comparison. -/
def signOf (D : Doubles) (a b : Key) : ℤ := if less D a b then -1 else if less D b a then 1 else 0

/-- The comparison of two integers, whatever their representations are. -/
theorem numCmp_ints (who : String) (i j : ExactInt) :
    numCmp D who (.exact i) (.exact j) = .ok (cmpInt i.toInt j.toInt) := by
  cases i <;> cases j <;> rfl

/-- **The comparison of the interpreter**, on numbers. -/
theorem numCmp_keys (who : String) {a b : Key} (ha : a.isNumber = true) (hb : b.isNumber = true) :
    ∃ c, numCmp D who a.obj b.obj = .ok c ∧ (c == .lt) = less D a b ∧
      (c == .gt) = (!less D a b && less D b a) := by
  have hdouble : ∀ x y : ℕ, ∃ c : Cmp,
      (if D.lt x y then Cmp.lt else if D.lt y x then .gt else if D.eq x y then .eq
        else .unordered) = c ∧ (c == .lt) = D.lt x y ∧ (c == .gt) = (!D.lt x y && D.lt y x) := by
    intro x y
    refine ⟨_, rfl, ?_⟩
    cases D.lt x y <;> cases D.lt y x <;> cases D.eq x y <;> exact ⟨rfl, rfl⟩
  cases a with
  | exact i =>
    cases b with
    | exact j =>
      refine ⟨_, numCmp_ints who i j, ?_⟩
      unfold less cmpInt
      by_cases hlt : i.toInt < j.toInt
      · simp [hlt]
      · by_cases hgt : j.toInt < i.toInt
        · simp [hlt, hgt]
        · simp [hlt, hgt]
    | inexact y =>
      obtain ⟨c, hc, hless⟩ := hdouble (D.ofInt i.toInt) y
      refine ⟨c, ?_, hless⟩
      rw [← hc]
      cases i <;> rfl
    | _ => cases hb
  | inexact x =>
    cases b with
    | exact j =>
      obtain ⟨c, hc, hless⟩ := hdouble x (D.ofInt j.toInt)
      refine ⟨c, ?_, hless⟩
      rw [← hc]
      cases j <;> rfl
    | inexact y =>
      obtain ⟨c, hc, hless⟩ := hdouble x y
      exact ⟨c, congrArg Except.ok hc, hless⟩
    | _ => cases hb
  | _ => cases ha

theorem rbCmpNumber_eq {a b : Key} (ha : a.isNumber = true) (hb : b.isNumber = true) :
    rbCmpNumber D a b = .ok (signOf D a b) := by
  obtain ⟨c, hc, hlt, -⟩ := numCmp_keys (D := D) "<" ha hb
  obtain ⟨c', hc', -, hgt⟩ := numCmp_keys (D := D) ">" ha hb
  have hprimLt : primLt D [a.obj, b.obj] = .ok (less D a b) := by
    unfold primLt Scheme14.compare
    rw [hc, ← hlt]
    show (if (c == .lt) = true then Except.ok true else .ok false) = _
    cases c == .lt <;> rfl
  have hprimGt : primGt D [a.obj, b.obj] = .ok (!less D a b && less D b a) := by
    unfold primGt Scheme14.compare
    rw [hc', ← hgt]
    show (if (c' == .gt) = true then Except.ok true else .ok false) = _
    cases c' == .gt <;> rfl
  unfold rbCmpNumber signOf
  rw [ha, hb, hprimLt, hprimGt]
  cases less D a b <;> cases less D b a <;> rfl

theorem rbCmpString_eq {a b : Key} (ha : a.isString = true) (hb : b.isString = true) :
    rbCmpString a b = .ok (signOf D a b) := by
  cases a with
  | string s =>
    cases b with
    | string t =>
      show (if decide (s < t) = true then Except.ok (-1) else
        if decide (t < s) = true then .ok 1 else .ok 0) =
        .ok (if decide (s < t) = true then -1 else if decide (t < s) = true then 1 else 0)
      split
      · rfl
      · split <;> rfl
    | _ => cases hb
  | _ => cases ha

/-- What the comparators accept. -/
theorem BuiltIn.Accepts.kind {b : BuiltIn} {k : Key} (h : b.Accepts D k) :
    (b ≠ .string ∧ k.isNumber = true) ∨ (b ≠ .number ∧ k.isString = true) := by
  obtain ⟨c, hc⟩ := h
  cases b with
  | number =>
    refine .inl ⟨nofun, ?_⟩
    by_contra hk
    rw [Bool.not_eq_true] at hk
    rw [cmp, rbCmpNumber, hk] at hc
    cases hc
  | string =>
    refine .inr ⟨nofun, ?_⟩
    by_contra hk
    rw [Bool.not_eq_true] at hk
    rw [cmp, rbCmpString, hk] at hc
    cases hc
  | mixed =>
    cases k with
    | exact i => exact .inl ⟨nofun, rfl⟩
    | inexact x => exact .inl ⟨nofun, rfl⟩
    | string s => exact .inr ⟨nofun, rfl⟩
    | other v => cases hc

theorem BuiltIn.mixed_of_ne {b : BuiltIn} (hs : b ≠ .string) (hn : b ≠ .number) :
    b = .mixed := by
  cases b with
  | number => exact absurd rfl hn
  | string => exact absurd rfl hs
  | mixed => rfl

/-- **What a comparator answers** on keys that it accepts. -/
theorem BuiltIn.cmp_eq {b : BuiltIn} {k k' : Key} (h : b.Accepts D k) (h' : b.Accepts D k') :
    b.cmp D k k' = .ok (signOf D k k') := by
  rcases h.kind with ⟨hb, hk⟩ | ⟨hb, hk⟩ <;> rcases h'.kind with ⟨hb', hk'⟩ | ⟨hb', hk'⟩
  · cases b with
    | number => exact rbCmpNumber_eq hk hk'
    | string => exact absurd rfl hb
    | mixed =>
      rw [cmp, rbCmpMixed, if_pos (by rw [hk, hk']; rfl)]
      exact rbCmpNumber_eq hk hk'
  · obtain rfl : b = .mixed := mixed_of_ne hb hb'
    cases k <;> first
      | exact absurd hk Bool.false_ne_true
      | cases k' <;> first | exact absurd hk' Bool.false_ne_true | rfl
  · obtain rfl : b = .mixed := mixed_of_ne hb' hb
    cases k <;> first
      | exact absurd hk Bool.false_ne_true
      | cases k' <;> first | exact absurd hk' Bool.false_ne_true | rfl
  · cases b with
    | number => exact absurd rfl hb
    | string => exact rbCmpString_eq hk hk'
    | mixed =>
      have hn : k.isNumber = false := by cases k <;> first | rfl | cases hk
      rw [cmp, rbCmpMixed, hn, if_neg (by simp), if_pos (by rw [hk, hk']; rfl)]
      exact rbCmpString_eq hk hk'

/-! ## The order of the places -/

section Places

variable {h : Ieee D} {a b d : Key}

/-- Rounding an integer never passes a double. -/
theorem Ieee.lt_of_ofInt_lt {n : ℤ} {y : ℕ} (hlt : D.lt (D.ofInt n) y = true) :
    ∀ s ∈ h.value y, (((n : ℚ) : WithTop ℚ) : Extended) < s := by
  intro s hs
  obtain ⟨r, hr, s', hs', hrs⟩ := (h.lt_iff _ _).1 hlt
  obtain rfl := Option.mem_unique hs hs'
  by_contra hle
  exact absurd (h.le_ofInt _ _ _ _ hs hr (not_lt.1 hle)) (not_le.2 hrs)

theorem Ieee.ofInt_lt_of_lt {n : ℤ} {x : ℕ} (hlt : D.lt x (D.ofInt n) = true) :
    ∀ r ∈ h.value x, r < (((n : ℚ) : WithTop ℚ) : Extended) := by
  intro r hr
  obtain ⟨r', hr', s, hs, hrs⟩ := (h.lt_iff _ _).1 hlt
  obtain rfl := Option.mem_unique hr hr'
  by_contra hle
  exact absurd (h.ofInt_le _ _ _ _ hr hs (not_lt.1 hle)) (not_le.2 hrs)

/-- **A key found less stands before**: rounding never turns the order of an
integer and a double around. -/
theorem place_lt_of_less (hless : less D a b = true) {p q : Extended ⊕ₗ List Char}
    (hp : p ∈ a.place h) (hq : q ∈ b.place h) : p < q := by
  cases a with
  | exact i =>
    cases hp
    cases b with
    | exact j =>
      cases hq
      have hlt : i.toInt < j.toInt := of_decide_eq_true hless
      exact Sum.Lex.inl_lt_inl_iff.2
        (WithBot.coe_lt_coe.2 (WithTop.coe_lt_coe.2 (Int.cast_lt.2 hlt)))
    | inexact y =>
      obtain ⟨s, hs, rfl⟩ := Option.mem_map.1 hq
      exact Sum.Lex.inl_lt_inl_iff.2 (Ieee.lt_of_ofInt_lt hless s hs)
    | string t =>
      cases hq
      exact Sum.Lex.inl_lt_inr _ _
    | other v => cases hless
  | inexact x =>
    obtain ⟨r, hr, rfl⟩ := Option.mem_map.1 hp
    cases b with
    | exact j =>
      cases hq
      exact Sum.Lex.inl_lt_inl_iff.2 (Ieee.ofInt_lt_of_lt hless r hr)
    | inexact y =>
      obtain ⟨s, hs, rfl⟩ := Option.mem_map.1 hq
      obtain ⟨r', hr', s', hs', hrs⟩ := (h.lt_iff _ _).1 hless
      rw [Option.mem_unique hr hr', Option.mem_unique hs hs']
      exact Sum.Lex.inl_lt_inl_iff.2 hrs
    | string t =>
      cases hq
      exact Sum.Lex.inl_lt_inr _ _
    | other v => cases hless
  | string s =>
    cases hp
    cases b with
    | string t =>
      cases hq
      exact Sum.Lex.inr_lt_inr_iff.2 (of_decide_eq_true hless)
    | _ => cases hless
  | other v => cases hp

/-- **A key that stands before is found less**, among keys that doubles tell
apart. -/
theorem less_of_place_lt {S : Set Key} (hS : Separated h S) (ha : a ∈ S) (hb : b ∈ S)
    {p q : Extended ⊕ₗ List Char} (hp : p ∈ a.place h) (hq : q ∈ b.place h) (hpq : p < q) :
    less D a b = true := by
  cases a with
  | exact i =>
    cases hp
    cases b with
    | exact j =>
      cases hq
      have hlt := WithTop.coe_lt_coe.1 (WithBot.coe_lt_coe.1 (Sum.Lex.inl_lt_inl_iff.1 hpq))
      exact decide_eq_true (Int.cast_lt.1 hlt)
    | inexact y =>
      obtain ⟨s, hs, rfl⟩ := Option.mem_map.1 hq
      obtain ⟨r, hr⟩ := Option.isSome_iff_exists.1 (h.ofInt_value i.toInt)
      have hlt := Sum.Lex.inl_lt_inl_iff.1 hpq
      refine (h.lt_iff _ _).2 ⟨r, hr, s, hs, lt_of_le_of_ne (h.ofInt_le _ _ _ _ hs hr hlt.le) ?_⟩
      rintro rfl
      exact absurd (hS.rounded i y ha hb r hs hr) hlt.ne'
    | string t => rfl
    | other v => cases hq
  | inexact x =>
    obtain ⟨r, hr, rfl⟩ := Option.mem_map.1 hp
    cases b with
    | exact j =>
      cases hq
      obtain ⟨s, hs⟩ := Option.isSome_iff_exists.1 (h.ofInt_value j.toInt)
      have hlt := Sum.Lex.inl_lt_inl_iff.1 hpq
      refine (h.lt_iff _ _).2 ⟨r, hr, s, hs, lt_of_le_of_ne (h.le_ofInt _ _ _ _ hr hs hlt.le) ?_⟩
      rintro rfl
      exact absurd (hS.rounded j x hb ha r hr hs) hlt.ne
    | inexact y =>
      obtain ⟨s, hs, rfl⟩ := Option.mem_map.1 hq
      exact (h.lt_iff _ _).2 ⟨r, hr, s, hs, Sum.Lex.inl_lt_inl_iff.1 hpq⟩
    | string t => rfl
    | other v => cases hq
  | string s =>
    cases hp
    cases b with
    | string t =>
      cases hq
      exact decide_eq_true (Sum.Lex.inr_lt_inr_iff.1 hpq)
    | exact j =>
      cases hq
      exact absurd hpq Sum.Lex.not_inr_lt_inl
    | inexact y =>
      obtain ⟨s', hs', rfl⟩ := Option.mem_map.1 hq
      exact absurd hpq Sum.Lex.not_inr_lt_inl
    | other v => cases hq
  | other v => cases hp

/-- Every accepted key stands somewhere, among keys that doubles tell apart. -/
theorem Separated.place_isSome {S : Set Key} (hS : Separated h S) {b : BuiltIn} {k : Key}
    (hk : k ∈ S) (hacc : b.Accepts D k) : ∃ p, p ∈ k.place h := by
  cases k with
  | exact i => exact ⟨_, rfl⟩
  | inexact x =>
    obtain ⟨r, hr⟩ := Option.isSome_iff_exists.1 (hS.no_nan x hk)
    exact ⟨_, Option.mem_map_of_mem _ hr⟩
  | string s => exact ⟨_, rfl⟩
  | other v =>
    rcases hacc.kind with ⟨-, hn⟩ | ⟨-, hs⟩
    · cases hn
    · cases hs

theorem signOf_neg : signOf D a b < 0 ↔ less D a b = true := by
  unfold signOf
  cases less D a b
  · cases less D b a <;> simp
  · simp

theorem signOf_zero : signOf D a b = 0 ↔ less D a b = false ∧ less D b a = false := by
  unfold signOf
  cases less D a b <;> cases less D b a <;> simp

theorem signOf_swap (hasymm : less D a b = true → less D b a = false) :
    signOf D b a = -signOf D a b := by
  unfold signOf
  cases hab : less D a b
  · cases less D b a <;> rfl
  · rw [hasymm hab]
    rfl

end Places

/-! ## The comparators are orders -/

section Orders

variable {h : Ieee D} {b : BuiltIn} {S : Set Key}

theorem Separated.orderedOn (hS : Separated h S) (hacc : ∀ k ∈ S, b.Accepts D k) :
    OrderedOn (b.cmp D) (Same h) S where
  zero_iff x hx y hy := by
    obtain ⟨p, hp⟩ := hS.place_isSome hx (hacc x hx)
    obtain ⟨q, hq⟩ := hS.place_isSome hy (hacc y hy)
    rw [BuiltIn.cmp_eq (hacc x hx) (hacc y hy), Except.ok.injEq, signOf_zero]
    constructor
    · rintro ⟨hxy, hyx⟩
      rcases lt_trichotomy p q with hlt | rfl | hgt
      · rw [less_of_place_lt hS hx hy hp hq hlt] at hxy
        cases hxy
      · exact ⟨p, hp, hq⟩
      · rw [less_of_place_lt hS hy hx hq hp hgt] at hyx
        cases hyx
    · rintro ⟨r, hr, hr'⟩
      exact ⟨Bool.eq_false_iff.2 fun hless => lt_irrefl r (place_lt_of_less hless hr hr'),
        Bool.eq_false_iff.2 fun hless => lt_irrefl r (place_lt_of_less hless hr' hr)⟩
  antisymm x hx y hy := by
    obtain ⟨p, hp⟩ := hS.place_isSome hx (hacc x hx)
    obtain ⟨q, hq⟩ := hS.place_isSome hy (hacc y hy)
    refine ⟨_, BuiltIn.cmp_eq (hacc x hx) (hacc y hy), ?_⟩
    rw [BuiltIn.cmp_eq (hacc y hy) (hacc x hx), signOf_swap]
    intro hxy
    exact Bool.eq_false_iff.2 fun hyx =>
      lt_asymm (place_lt_of_less hxy hp hq) (place_lt_of_less hyx hq hp)
  trans x hx y hy z hz c c' hc hneg hc' hneg' := by
    obtain ⟨p, hp⟩ := hS.place_isSome hx (hacc x hx)
    obtain ⟨q, hq⟩ := hS.place_isSome hy (hacc y hy)
    obtain ⟨r, hr⟩ := hS.place_isSome hz (hacc z hz)
    rw [BuiltIn.cmp_eq (hacc x hx) (hacc y hy)] at hc
    rw [BuiltIn.cmp_eq (hacc y hy) (hacc z hz)] at hc'
    cases hc
    cases hc'
    refine ⟨_, BuiltIn.cmp_eq (hacc x hx) (hacc z hz), signOf_neg.2 ?_⟩
    have hpq := place_lt_of_less (signOf_neg.1 hneg) hp hq
    have hqr := place_lt_of_less (signOf_neg.1 hneg') hq hr
    exact less_of_place_lt hS hx hz hp hr (hpq.trans hqr)

/-- Keys neither of which is found less than the other one are equal, under an
order. -/
theorem OrderedOn.same_of_not_less (hO : OrderedOn (b.cmp D) (Same h) S)
    (hacc : ∀ k ∈ S, b.Accepts D k) {x y : Key} (hx : x ∈ S) (hy : y ∈ S)
    (hxy : less D x y = false) (hyx : less D y x = false) : Same h x y := by
  refine (hO.zero_iff x hx y hy).1 ?_
  rw [BuiltIn.cmp_eq (hacc x hx) (hacc y hy), signOf_zero.2 ⟨hxy, hyx⟩]

theorem Ieee.lt_false {h : Ieee D} {x y : ℕ} (heq : h.value x = h.value y) : D.lt x y = false := by
  refine Bool.eq_false_iff.2 fun hlt => ?_
  obtain ⟨r, hr, s, hs, hrs⟩ := (h.lt_iff _ _).1 hlt
  rw [heq] at hr
  exact absurd (Option.mem_unique hr hs) hrs.ne

theorem OrderedOn.separated (hO : OrderedOn (b.cmp D) (Same h) S)
    (hacc : ∀ k ∈ S, b.Accepts D k) : Separated h S where
  no_nan x hx := by
    have hless : less D (.inexact x) (.inexact x) = false := Ieee.lt_false (h := h) rfl
    obtain ⟨p, hp, -⟩ := hO.same_of_not_less hacc hx hx hless hless
    obtain ⟨r, hr, -⟩ := Option.mem_map.1 hp
    exact Option.isSome_iff_exists.2 ⟨r, hr⟩
  rounded i x hi hx r hr hround := by
    have heq : h.value (D.ofInt i.toInt) = h.value x :=
      (Option.mem_def.1 hround).trans (Option.mem_def.1 hr).symm
    have hix : less D (.exact i) (.inexact x) = false := Ieee.lt_false heq
    have hxi : less D (.inexact x) (.exact i) = false := Ieee.lt_false heq.symm
    obtain ⟨p, hp, hq⟩ := hO.same_of_not_less hacc hi hx hix hxi
    cases hp
    obtain ⟨r', hr', hplace⟩ := Option.mem_map.1 hq
    rw [Option.mem_unique hr hr']
    exact Sum.inl.inj (toLex.injective hplace)

/-- **The comparators are orders**, on the keys that doubles tell apart and on
no others. -/
theorem orderedOn_iff_separated (hacc : ∀ k ∈ S, b.Accepts D k) :
    OrderedOn (b.cmp D) (Same h) S ↔ Separated h S :=
  ⟨fun hO => hO.separated hacc, fun hS => hS.orderedOn hacc⟩

end Orders

/-- **The comparators are orders on numbers and strings**, exactly as far as the
comparison of an integer with a double, which is one of doubles, is exact. -/
theorem orderedOn_iff_unrounded {D : Doubles} (h : Ieee D) (b : BuiltIn) (S : Set Key)
    (hacc : ∀ k ∈ S, b.Accepts D k) (hnan : NoNan h S) :
    OrderedOn (b.cmp D) (Same h) S ↔ Unrounded h S := by
  rw [orderedOn_iff_separated hacc]
  exact ⟨fun hS => hS.rounded, fun hround => ⟨hnan, hround⟩⟩

/-! ## Doubles that hold one integer less -/

/-- The nearest integer that a double holds, below `2 ^ 53 + 2`. -/
def grid (n : ℤ) : ℤ := if n = 2 ^ 53 + 1 then 2 ^ 53 else n

theorem grid_grid (n : ℤ) : grid (grid n) = grid n := by
  unfold grid
  split <;> simp [*]

theorem grid_mono {m n : ℤ} (hmn : m ≤ n) : grid m ≤ grid n := by
  unfold grid
  split <;> split <;> omega

/-- The value of a double of this kind. -/
def gridValue : ℕ → Option ℤ
  | 0 => none
  | m + 1 => some (grid (Equiv.intEquivNat.symm m))

/-- Doubles that hold integers only. -/
def gridDoubles : Doubles where
  ofInt n := Equiv.intEquivNat n + 1
  neg := id
  add _ := id
  sub _ := id
  mul _ := id
  div _ := id
  lt a b := match gridValue a, gridValue b with
    | some x, some y => decide (x < y)
    | _, _ => false
  eq a b := match gridValue a, gridValue b with
    | some x, some y => decide (x = y)
    | _, _ => false

theorem gridValue_ofInt (n : ℤ) : gridValue (gridDoubles.ofInt n) = some (grid n) := by
  show some (grid (Equiv.intEquivNat.symm (Equiv.intEquivNat n))) = _
  rw [Equiv.symm_apply_apply]

theorem grid_of_gridValue {a : ℕ} {x : ℤ} (hx : gridValue a = some x) : grid x = x := by
  cases a with
  | zero => cases hx
  | succ m =>
    cases hx
    exact grid_grid _

/-- An integer among the values. -/
def extended (x : ℤ) : Extended := (((x : ℚ) : WithTop ℚ) : Extended)

theorem extended_lt {x y : ℤ} : extended x < extended y ↔ x < y :=
  WithBot.coe_lt_coe.trans (WithTop.coe_lt_coe.trans Int.cast_lt)

theorem extended_le {x y : ℤ} : extended x ≤ extended y ↔ x ≤ y :=
  WithBot.coe_le_coe.trans (WithTop.coe_le_coe.trans Int.cast_le)

/-- They behave as the standard says. -/
def gridIeee : Ieee gridDoubles where
  value a := (gridValue a).map extended
  lt_iff a b := by
    show (match gridValue a, gridValue b with
      | some x, some y => decide (x < y)
      | _, _ => false) = true ↔ _
    cases gridValue a <;> cases gridValue b <;> simp [extended_lt]
  ofInt_value n := by rw [gridValue_ofInt]; rfl
  le_ofInt n a x r hx hr hle := by
    rw [gridValue_ofInt] at hr
    obtain ⟨m, hm, rfl⟩ := Option.mem_map.1 hx
    cases hr
    rw [extended_le, ← grid_of_gridValue hm]
    exact grid_mono (extended_le.1 hle)
  ofInt_le n a x r hx hr hle := by
    rw [gridValue_ofInt] at hr
    obtain ⟨m, hm, rfl⟩ := Option.mem_map.1 hx
    cases hr
    rw [extended_le, ← grid_of_gridValue hm]
    exact grid_mono (extended_le.1 hle)

theorem gridIeee_ofInt (n : ℤ) :
    extended (grid n) ∈ gridIeee.value (gridDoubles.ofInt n) := by
  show (gridValue (gridDoubles.ofInt n)).map extended = some (extended (grid n))
  rw [gridValue_ofInt, Option.map_some]

/-- The integer 3 and the double 4.0. -/
def threeAndFour : Set Key := {.exact (makeInt 3), .inexact (gridDoubles.ofInt 4)}

theorem accepts_of_isNumber {D : Doubles} {k : Key} (hk : k.isNumber = true) :
    BuiltIn.number.Accepts D k := ⟨_, rbCmpNumber_eq hk hk⟩

theorem orderedOn_iff_unrounded_threeAndFour :
    OrderedOn (BuiltIn.number.cmp gridDoubles) (Same gridIeee) threeAndFour ↔
      Unrounded gridIeee threeAndFour :=
  orderedOn_iff_unrounded gridIeee .number threeAndFour
    (by rintro k (rfl | rfl) <;> exact accepts_of_isNumber rfl)
    (by
      rintro bits (hb | hb)
      · cases hb
      · cases hb
        exact gridIeee.ofInt_value 4)

/-- The integer `2 ^ 53 + 1` and the double `9007199254740992.0`. -/
def besidePow53 : Set Key :=
  {.exact (makeInt (2 ^ 53 + 1)), .inexact (gridDoubles.ofInt (2 ^ 53))}

/-- **`2 ^ 53 + 1` and `9007199254740992.0` are accepted, and found equal.** -/
theorem besidePow53_not_ordered :
    (∀ k ∈ besidePow53, BuiltIn.number.Accepts gridDoubles k) ∧
    ¬ OrderedOn (BuiltIn.number.cmp gridDoubles) (Same gridIeee) besidePow53 := by
  have hacc : ∀ k ∈ besidePow53, BuiltIn.number.Accepts gridDoubles k := by
    rintro k (rfl | rfl) <;> exact accepts_of_isNumber rfl
  refine ⟨hacc, fun hO => ?_⟩
  have hgrid : grid (2 ^ 53) = 2 ^ 53 := if_neg (Int.lt_succ _).ne
  have hgrid' : grid (2 ^ 53 + 1) = 2 ^ 53 := if_pos rfl
  have hvalue := gridIeee_ofInt (2 ^ 53)
  have hround := gridIeee_ofInt (makeInt (2 ^ 53 + 1)).toInt
  rw [makeInt_toInt, hgrid'] at hround
  rw [hgrid] at hvalue
  rw [← makeInt_toInt (2 ^ 53 + 1)] at hround
  have heq := ((orderedOn_iff_separated hacc).1 hO).rounded _ _ (.inl rfl) (.inr rfl) _
    hvalue hround
  rw [makeInt_toInt] at heq
  have hlt : extended (2 ^ 53) < extended (2 ^ 53 + 1) := extended_lt.2 (Int.lt_succ _)
  exact hlt.ne heq

end RbTree.Keys
