import SecdScheme.Scheme14.Pieces
import SecdScheme.Scheme14.Printer
import Mathlib.Data.List.TakeWhile
import Mathlib.Data.Nat.Digits.Lemmas

/-!
# scheme14: what is written is read back

A value that unfolds to a datum is written as the text of the datum, whatever
is shared below it: no object is below itself, so none is found on the path.
The text of a datum without booleans, reals and `()` is read back as the same
datum, and up to its end, before anything that may follow it. What is made of
the datum that is read is `equal?` to the value that was written.
-/

namespace Scheme14

variable {X : Type} {s : Data X}

/-! ## A value unfolds to one datum -/

mutual

theorem unfolds_unique : ∀ {d d' : Datum} {v : Value}, s.Unfolds v d → s.Unfolds v d' → d = d'
  | .atom w, d', v, h, h' => by
    obtain ⟨rfl, hw⟩ := h
    cases d' with
    | atom w' => exact congrArg Datum.atom h'.1
    | string => obtain ⟨a, rfl, -⟩ := h'; exact absurd hw Bool.false_ne_true
    | vector => obtain ⟨a, vs, rfl, -⟩ := h'; exact absurd hw Bool.false_ne_true
    | pair => obtain ⟨a, x, y, rfl, -⟩ := h'; exact absurd hw Bool.false_ne_true
  | .string t, d', v, h, h' => by
    obtain ⟨a, rfl, ht⟩ := h
    cases d' with
    | atom => exact absurd h'.2 Bool.false_ne_true
    | string t' =>
      obtain ⟨a', ha, ht'⟩ := h'
      obtain rfl := Value.string.inj ha
      exact congrArg Datum.string (Option.some.inj (ht.symm.trans ht'))
    | vector => obtain ⟨a, vs, h, -⟩ := h'; cases h
    | pair => obtain ⟨a, x, y, h, -⟩ := h'; cases h
  | .vector ds, d', v, h, h' => by
    obtain ⟨a, vs, rfl, hvs, hds⟩ := h
    cases d' with
    | atom => exact absurd h'.2 Bool.false_ne_true
    | string => obtain ⟨a, h, -⟩ := h'; cases h
    | vector ds' =>
      obtain ⟨a', vs', ha, hvs', hds'⟩ := h'
      obtain rfl := Value.vector.inj ha
      obtain rfl := Option.some.inj (hvs.symm.trans hvs')
      exact congrArg Datum.vector (unfoldsEach_unique hds hds')
    | pair => obtain ⟨a, x, y, h, -⟩ := h'; cases h
  | .pair d e, d', v, h, h' => by
    obtain ⟨a, x, y, rfl, hp, hd, he⟩ := h
    cases d' with
    | atom => exact absurd h'.2 Bool.false_ne_true
    | string => obtain ⟨a, h, -⟩ := h'; cases h
    | vector => obtain ⟨a, vs, h, -⟩ := h'; cases h
    | pair d' e' =>
      obtain ⟨a', x', y', ha, hp', hd', he'⟩ := h'
      obtain rfl := Value.pair.inj ha
      obtain ⟨rfl, rfl⟩ := Prod.mk.inj (Option.some.inj (hp.symm.trans hp'))
      rw [unfolds_unique hd hd', unfolds_unique he he']

theorem unfoldsEach_unique : ∀ {ds ds' : List Datum} {vs : List Value},
    s.UnfoldsEach vs ds → s.UnfoldsEach vs ds' → ds = ds'
  | [], ds', vs, h, h' => by
    obtain rfl : vs = [] := h
    cases ds' with
    | nil => rfl
    | cons => obtain ⟨v, us, h, -⟩ := h'; cases h
  | d :: ds, ds', vs, h, h' => by
    obtain ⟨v, us, rfl, hd, hds⟩ := h
    cases ds' with
    | nil => cases h'
    | cons d' ds' =>
      obtain ⟨v', us', heq, hd', hds'⟩ := h'
      obtain ⟨rfl, rfl⟩ := List.cons.inj heq
      rw [unfolds_unique hd hd', unfoldsEach_unique hds hds']

end

/-! ## Writing -/

theorem Datum.sizeOf_pos (d : Datum) : 0 < sizeOf d := by
  cases d <;> simp

/-- The objects of a path are above what is written: they are larger. -/
def Above (s : Data X) (n : ℕ) (path : List Value) : Prop :=
  ∀ o ∈ path, ∃ d, s.Unfolds o d ∧ n < sizeOf d

theorem Above.mono {n m : ℕ} {path : List Value} (h : Above s n path) (hm : m ≤ n) :
    Above s m path := fun o ho => by
  obtain ⟨d, hd, hn⟩ := h o ho
  exact ⟨d, hd, Nat.lt_of_le_of_lt hm hn⟩

theorem Above.cons {n : ℕ} {path : List Value} {v : Value} {d : Datum} (h : Above s n path)
    (hv : s.Unfolds v d) (hn : n < sizeOf d) : Above s n (v :: path) := by
  intro o ho
  rcases List.mem_cons.mp ho with rfl | ho
  · exact ⟨d, hv, hn⟩
  · exact h o ho

/-- **No object is below itself.** -/
theorem Above.notMem {path : List Value} {v : Value} {d : Datum}
    (h : Above s (sizeOf d) path) (hv : s.Unfolds v d) : v ∉ path := by
  intro hmem
  obtain ⟨d', hd', hlt⟩ := h v hmem
  rw [unfolds_unique hd' hv] at hlt
  exact Nat.lt_irrefl _ hlt

theorem unfolds_pair_inv {v : Value} {d e : Datum} (h : s.Unfolds v (.pair d e)) :
    ∃ a x y, v = .pair a ∧ s.pairAt v = some (x, y) ∧ s.Unfolds x d ∧ s.Unfolds y e := by
  obtain ⟨a, x, y, rfl, hp, hd, he⟩ := h
  exact ⟨a, x, y, rfl, hp, hd, he⟩

/-- A value that unfolds to something else than a pair is none. -/
theorem pairAt_of_unfolds {v : Value} {d : Datum} (h : s.Unfolds v d)
    (hd : ∀ a e, d ≠ .pair a e) : s.pairAt v = none := by
  cases d with
  | atom w =>
    obtain ⟨rfl, hw⟩ := h
    cases v <;> first | rfl | exact absurd hw Bool.false_ne_true
  | string t => obtain ⟨a, rfl, -⟩ := h; rfl
  | vector ds => obtain ⟨a, vs, rfl, -⟩ := h; rfl
  | pair a e => exact absurd rfl (hd a e)

section Write

variable {objectText : Value → Text} {boxed : ℕ → List Value}

/-- An atom is written as its text. -/
theorem writeValue_atom {v : Value} (hv : v.isAtom = true) (fuel : ℕ) (path : List Value) :
    writeValue objectText boxed s (fuel + 1) v path = some (atomText objectText v) := by
  unfold writeValue
  cases v <;> first | rfl | exact absurd hv Bool.false_ne_true

/-- The tail of a list that is no pair. -/
theorem writeTail_last {v : Value} {t : Text} {fuel : ℕ} {path : List Value} (first : Bool)
    (hnil : v ≠ .nil) (hp : s.pairAt v = none)
    (h : writeValue objectText boxed s fuel v path = some t) :
    writeTail objectText boxed s (fuel + 1) first v path = some ([' ', '.', ' '] ++ t ++ [')']) := by
  unfold writeTail
  rw [if_neg hnil, hp]
  dsimp only
  rw [h]
  rfl

/-- A pair of a list that is not on the path. -/
theorem writeTail_pair {v x y : Value} {t u : Text} {fuel : ℕ} {path : List Value} {first : Bool}
    (hp : s.pairAt v = some (x, y)) (hpath : v ∉ path)
    (hx : writeValue objectText boxed s fuel x (v :: path) = some t)
    (hy : writeTail objectText boxed s fuel false y (v :: path) = some u) :
    writeTail objectText boxed s (fuel + 1) first v path
      = some ((if first then [] else [' ']) ++ t ++ u) := by
  have hnil : v ≠ .nil := by rintro rfl; exact absurd hp (Option.some_ne_none _).symm
  unfold writeTail
  rw [if_neg hnil, hp]
  dsimp only
  rw [if_neg hpath, hx]
  show (do let r ← writeTail objectText boxed s fuel false y (v :: path)
           pure ((if first then [] else [' ']) ++ t ++ r)) = _
  rw [hy]
  rfl

mutual

/-- **What unfolds to a datum is written as its text**, with room enough. -/
theorem writeValue_of_unfolds : ∀ (d : Datum) {v : Value} {path : List Value} {n : ℕ},
    s.Unfolds v d → Above s (sizeOf d) path → 2 * sizeOf d ≤ n →
      writeValue objectText boxed s n v path = some (d.text objectText)
  | .atom w, v, path, fuel, h, _, hf => by
    obtain ⟨rfl, hw⟩ := h
    obtain ⟨fuel, rfl⟩ : ∃ n, fuel = n + 1 := ⟨fuel - 1, by simp at hf; omega⟩
    exact writeValue_atom hw fuel path
  | .string t, v, path, fuel, h, _, hf => by
    obtain ⟨a, rfl, ht⟩ := h
    obtain ⟨fuel, rfl⟩ : ∃ n, fuel = n + 1 := ⟨fuel - 1, by simp at hf; omega⟩
    show some (stringText ((s.strings[a]?).getD "")) = some (stringText t)
    rw [ht]
    rfl
  | .vector ds, v, path, fuel, h, hpath, hf => by
    have hv := h
    obtain ⟨a, vs, rfl, hvs, hds⟩ := h
    obtain ⟨fuel, rfl⟩ : ∃ n, fuel = n + 1 := ⟨fuel - 1, by simp at hf; omega⟩
    have hmem := hpath.notMem hv
    have helems := writeElems_of_unfolds ds (n := fuel) true hds
      ((hpath.mono (by simp)).cons hv (by simp)) (by simp at hf; omega)
    unfold writeValue
    dsimp only
    rw [if_neg hmem, hvs]
    show (do let r ← writeElems objectText boxed s fuel true vs (.vector a :: path)
             pure ('#' :: '(' :: r)) = _
    rw [helems]
    rfl
  | .pair d e, v, path, fuel, h, hpath, hf => by
    have hv := h
    obtain ⟨a, x, y, rfl, hp, hd, he⟩ := unfolds_pair_inv h
    obtain ⟨fuel, rfl⟩ : ∃ n, fuel = n + 2 := ⟨fuel - 2, by simp at hf; omega⟩
    simp only [Datum.pair.sizeOf_spec] at hf
    have hpath' : ∀ {n}, n < sizeOf (Datum.pair d e) → Above s n (.pair a :: path) := fun hn =>
      (hpath.mono (Nat.le_of_lt hn)).cons hv hn
    have hx := writeValue_of_unfolds d (n := fuel) hd
      (hpath' (by simp only [Datum.pair.sizeOf_spec]; omega)) (by
      have := Datum.sizeOf_pos e
      omega)
    have hy := writeTail_of_unfolds e (n := fuel) he
      (hpath' (by simp only [Datum.pair.sizeOf_spec]; omega)) (by
      have := Datum.sizeOf_pos d
      omega)
    unfold writeValue
    dsimp only
    rw [writeTail_pair hp (hpath.notMem hv) hx hy]
    rfl

/-- The tail of a list. -/
theorem writeTail_of_unfolds : ∀ (d : Datum) {v : Value} {path : List Value} {n : ℕ},
    s.Unfolds v d → Above s (sizeOf d) path → 2 * sizeOf d + 1 ≤ n →
      writeTail objectText boxed s n false v path = some (d.tailText objectText)
  | .atom w, v, path, fuel, h, hpath, hf => by
    obtain ⟨fuel, rfl⟩ : ∃ n, fuel = n + 1 := ⟨fuel - 1, by omega⟩
    by_cases hnil : w = .nil
    · obtain ⟨rfl, -⟩ := h
      subst hnil
      rfl
    · have hw := writeValue_of_unfolds (.atom w) (n := fuel) h hpath (by omega)
      have hv := h.1
      subst hv
      rw [writeTail_last false hnil (pairAt_of_unfolds h nofun) hw]
      unfold Datum.tailText
      rw [if_neg hnil]
      rfl
  | .string t, v, path, fuel, h, hpath, hf => by
    obtain ⟨fuel, rfl⟩ : ∃ n, fuel = n + 1 := ⟨fuel - 1, by omega⟩
    have hw := writeValue_of_unfolds (.string t) (n := fuel) h hpath (by omega)
    have hnil : v ≠ .nil := by rintro rfl; obtain ⟨a, h, -⟩ := h; cases h
    exact writeTail_last false hnil (pairAt_of_unfolds h nofun) hw
  | .vector ds, v, path, fuel, h, hpath, hf => by
    obtain ⟨fuel, rfl⟩ : ∃ n, fuel = n + 1 := ⟨fuel - 1, by omega⟩
    have hw := writeValue_of_unfolds (.vector ds) (n := fuel) h hpath (by omega)
    have hnil : v ≠ .nil := by rintro rfl; obtain ⟨a, vs, h, -⟩ := h; cases h
    exact writeTail_last false hnil (pairAt_of_unfolds h nofun) hw
  | .pair d e, v, path, fuel, h, hpath, hf => by
    have hv := h
    obtain ⟨a, x, y, rfl, hp, hd, he⟩ := unfolds_pair_inv h
    obtain ⟨fuel, rfl⟩ : ∃ n, fuel = n + 1 := ⟨fuel - 1, by omega⟩
    simp only [Datum.pair.sizeOf_spec] at hf
    have hpath' : ∀ {n}, n < sizeOf (Datum.pair d e) → Above s n (.pair a :: path) := fun hn =>
      (hpath.mono (Nat.le_of_lt hn)).cons hv hn
    have hx := writeValue_of_unfolds d (n := fuel) hd
      (hpath' (by simp only [Datum.pair.sizeOf_spec]; omega)) (by omega)
    have hy := writeTail_of_unfolds e (n := fuel) he
      (hpath' (by simp only [Datum.pair.sizeOf_spec]; omega)) (by omega)
    exact writeTail_pair hp (hpath.notMem hv) hx hy

/-- The elements of a vector. -/
theorem writeElems_of_unfolds : ∀ (ds : List Datum) {vs : List Value} {path : List Value}
    {n : ℕ} (first : Bool), s.UnfoldsEach vs ds → Above s (sizeOf ds) path →
      2 * sizeOf ds ≤ n →
      writeElems objectText boxed s n first vs path = some (Datum.elemsText objectText first ds)
  | [], vs, path, fuel, first, h, _, hf => by
    obtain rfl : vs = [] := h
    obtain ⟨fuel, rfl⟩ : ∃ n, fuel = n + 1 := ⟨fuel - 1, by simp at hf; omega⟩
    rfl
  | d :: ds, vs, path, fuel, first, h, hpath, hf => by
    obtain ⟨v, us, rfl, hd, hds⟩ := h
    obtain ⟨fuel, rfl⟩ : ∃ n, fuel = n + 1 := ⟨fuel - 1, by simp at hf; omega⟩
    simp only [List.cons.sizeOf_spec] at hf hpath
    have hx := writeValue_of_unfolds d (n := fuel) hd (hpath.mono (by omega)) (by omega)
    have hxs := writeElems_of_unfolds ds (n := fuel) false hds (hpath.mono (by omega)) (by omega)
    unfold writeElems
    rw [hx]
    show (do let r ← writeElems objectText boxed s fuel false us path
             pure ((if first then [] else [' ']) ++ d.text objectText ++ r)) = _
    rw [hxs]
    rfl

end

end Write

/-! ## Integers -/

theorem toNat_digit : ∀ k < 10, (Char.ofNat (48 + k)).toNat = 48 + k := by decide

/-- The digits of a number have its value. -/
theorem digitsValue_reverse {ks : List ℕ} (h : ∀ k ∈ ks, k < 10) :
    digitsValue 10 (ks.reverse.map fun k => Char.ofNat (48 + k)) = Nat.ofDigits 10 ks := by
  unfold digitsValue
  rw [List.foldl_map, List.foldl_reverse]
  induction ks with
  | nil => rfl
  | cons k ks ih =>
    rw [List.foldr_cons, ih fun x hx => h x (List.mem_cons_of_mem k hx), Nat.ofDigits_cons,
      toNat_digit k (h k List.mem_cons_self)]
    show Nat.ofDigits 10 ks * 10 + (48 + k - 48) = k + 10 * Nat.ofDigits 10 ks
    omega

theorem decimalNat_spec (n : ℕ) :
    decimalNat n ≠ [] ∧ (∀ c ∈ decimalNat n, isDigit c = true) ∧
      bigIntMagnitude (decimalNat n) = .ok n := by
  unfold decimalNat
  split
  · rename_i hn
    subst hn
    exact ⟨List.cons_ne_nil _ _, by simp; decide, rfl⟩
  · rename_i hn
    have hlt : ∀ k ∈ Nat.digits 10 n, k < 10 := fun k hk => Nat.digits_lt_base (by decide) hk
    have hvalue := digitsValue_reverse hlt
    rw [Nat.ofDigits_digits] at hvalue
    have hne : Nat.digits 10 n ≠ [] := Nat.digits_ne_nil_iff_ne_zero.mpr hn
    refine ⟨fun h => ?_, fun c hc => ?_, ?_⟩
    · rw [List.map_eq_nil_iff, List.reverse_eq_nil_iff] at h
      exact hne h
    · obtain ⟨k, hk, rfl⟩ := List.mem_map.mp hc
      have hk' := hlt k (List.mem_reverse.mp hk)
      unfold isDigit
      rw [toNat_digit k hk']
      simp only [Bool.and_eq_true, decide_eq_true_eq]
      omega
    · -- the first digit is not a zero, so that the text is not taken for octal
      have hlast := Nat.getLast_digit_ne_zero 10 hn
      obtain ⟨k, ks, hks⟩ : ∃ k ks, (Nat.digits 10 n).reverse = k :: ks :=
        List.exists_cons_of_ne_nil (by rwa [ne_eq, List.reverse_eq_nil_iff])
      have hk : k ≠ 0 := by
        rw [List.getLast_eq_head_reverse] at hlast
        simpa only [hks, List.head_cons] using hlast
      have hk10 : k < 10 := hlt k (by
        rw [← List.mem_reverse, hks]
        exact List.mem_cons_self)
      rw [hks] at hvalue ⊢
      have hzero : Char.ofNat (48 + k) ≠ '0' := fun h => by
        have := congrArg Char.toNat h
        rw [toNat_digit k hk10] at this
        have h0 : '0'.toNat = 48 := rfl
        omega
      rw [List.map_cons] at hvalue ⊢
      unfold bigIntMagnitude
      dsimp only
      rw [if_neg hzero]
      exact congrArg Except.ok hvalue

theorem isDelimiter_of_isDigit {c : Char} (h : isDigit c = true) : isDelimiter c = false := by
  unfold isDigit at h
  simp only [Bool.and_eq_true, decide_eq_true_eq] at h
  have hne : ∀ x : Char, x.toNat < 48 ∨ 57 < x.toNat → c ≠ x := by
    rintro x hx rfl
    omega
  refine isDelimiter_eq_false ?_ (hne _ (.inr (by decide))) (hne _ (.inl (by decide)))
    (hne _ (.inl (by decide))) (hne _ (.inl (by decide)))
    ⟨hne _ (.inl (by decide)), hne _ (.inr (by decide)), hne _ (.inl (by decide))⟩
  unfold isSpace
  rw [beq_eq_false_iff_ne.mpr (hne ' ' (.inl (by decide)))]
  simp only [Bool.false_or, Bool.and_eq_false_iff, decide_eq_false_iff_not]
  omega

theorem takeWhile_digits {ds : Text} (h : ∀ c ∈ ds, isDigit c = true) :
    ds.takeWhile isDigit = ds ∧ ds.dropWhile isDigit = [] :=
  ⟨List.takeWhile_eq_self_iff.mpr h, List.dropWhile_eq_nil_iff.mpr h⟩

/-- **Digits after a sign, or none, are an integer**: that of the constructor
of big integers. -/
theorem parseNumber_digits {sign ds : Text} (hsign : sign = [] ∨ sign = ['+'] ∨ sign = ['-'])
    (hne : ds ≠ []) (hdigits : ∀ c ∈ ds, isDigit c = true) :
    parseNumber (sign ++ ds) = (bigIntMagnitude ds).map fun (n : ℕ) =>
      some (.int (if sign = ['-'] then -(n : ℤ) else (n : ℤ))) := by
  obtain ⟨c, ds, rfl⟩ := List.exists_cons_of_ne_nil hne
  have hc := hdigits c List.mem_cons_self
  have hnot : ∀ x : Char, isDigit x = false → c ≠ x := by
    rintro x hx rfl
    exact absurd (hc.symm.trans hx) (by decide)
  obtain ⟨htake, hdrop⟩ := takeWhile_digits hdigits
  have hi := hnot 'i' rfl
  have hn' := hnot 'n' rfl
  have hplus := hnot '+' rfl
  have hminus := hnot '-' rfl
  unfold parseNumber
  rcases hsign with rfl | rfl | rfl <;>
    cases hm : bigIntMagnitude (c :: ds) <;>
    simp [hi, hn', hplus, hminus, isSign, htake, hdrop, exponentPart, makeIntFromText, hm,
      Except.map]

/-- A number is no symbol. -/
theorem parseNumber_ne_sym (tok : Text) (name : String) :
    parseNumber tok ≠ .ok (some (.sym name)) := by
  intro h
  unfold parseNumber at h
  dsimp only at h
  repeat' split at h
  all_goals first
    | cases Option.some.inj (Except.ok.inj h)
    | exact absurd (Except.ok.inj h) (Option.some_ne_none _).symm
    | (obtain ⟨n, -, hn⟩ := Except.map_eq_ok.mp h
       cases Option.some.inj hn)

/-- **The text of an integer** is parsed as the integer. -/
theorem parseNumber_decimal (n : ℤ) : parseNumber (decimal n) = .ok (some (.int n)) := by
  obtain ⟨hne, hdigits, hvalue⟩ := decimalNat_spec n.natAbs
  unfold decimal
  by_cases hneg : n < 0
  · rw [if_pos hneg]
    show parseNumber (['-'] ++ decimalNat n.natAbs) = _
    rw [parseNumber_digits (.inr (.inr rfl)) hne hdigits, hvalue]
    show Except.ok (some (Value.int (-(n.natAbs : ℤ)))) = _
    rw [show -(n.natAbs : ℤ) = n by omega]
  · rw [if_neg hneg]
    show parseNumber ([] ++ decimalNat n.natAbs) = _
    rw [parseNumber_digits (.inl rfl) hne hdigits, hvalue]
    show Except.ok (some (Value.int (n.natAbs : ℤ))) = _
    rw [show (n.natAbs : ℤ) = n by omega]

/-- The text of an integer is a token. -/
theorem decimal_spec (n : ℤ) :
    decimal n ≠ [] ∧ (∀ c ∈ decimal n, isDelimiter c = false) ∧ (decimal n).head? ≠ some '#' ∧
      atomOf (decimal n) = .ok (.atom (.int n)) := by
  obtain ⟨hne, hdigits, -⟩ := decimalNat_spec n.natAbs
  have hfirst : ∃ c t, decimal n = c :: t ∧ (c = '-' ∨ isDigit c = true) := by
    unfold decimal
    split
    · exact ⟨'-', _, rfl, .inl rfl⟩
    · obtain ⟨c, ds, hds⟩ := List.exists_cons_of_ne_nil hne
      exact ⟨c, ds, hds, .inr (hdigits c (by rw [hds]; exact List.mem_cons_self))⟩
  obtain ⟨c, t, hct, hc⟩ := hfirst
  have hnot : ∀ x : Char, x ≠ '-' → isDigit x = false → c ≠ x := by
    rintro x hx hxd rfl
    rcases hc with hc | hc
    · exact hx hc
    · exact absurd (hc.symm.trans hxd) (by decide)
  refine ⟨by rw [hct]; exact List.cons_ne_nil c t, fun x hx => ?_, ?_, ?_⟩
  · unfold decimal at hx
    split at hx
    · rcases List.mem_cons.mp hx with rfl | hx
      · decide
      · exact isDelimiter_of_isDigit (hdigits x hx)
    · exact isDelimiter_of_isDigit (hdigits x hx)
  · rw [hct]
    exact fun h => hnot '#' (by decide) (by decide) (Option.some.inj h)
  · have hword : ∀ (x : Char) (w : Text), x ≠ '-' → isDigit x = false → decimal n ≠ x :: w := by
      intro x w hx hxd h
      rw [hct] at h
      exact hnot x hx hxd (List.cons.inj h).1
    unfold atomOf
    rw [if_neg (hword _ _ (by decide) (by decide)), if_neg (hword _ _ (by decide) (by decide)),
      if_neg (hword _ _ (by decide) (by decide)), parseNumber_decimal]
    rfl

/-! ## Reading back -/

/-- A name that is read as the symbol it is the name of. -/
def ReadableName (name : String) : Prop :=
  readOne name.toList = .ok (some (.sym name, [])) ∧ name ≠ "."

mutual

/-- **The data that writing keeps**: exact integers, symbols, strings without
a quote or a backslash, vectors, and lists that are not empty, proper or
dotted. -/
def Datum.Readable : Datum → Prop
  | .atom (.int _) => True
  | .atom (.sym name) => ReadableName name
  | .atom _ => False
  | .string s => ∀ c ∈ s.toList, c ≠ dquote ∧ c ≠ backslash
  | .vector xs => Datum.EachReadable xs
  | .pair a d => a.Readable ∧ (d = .nil ∨ d.Readable)

/-- Each of some data is. -/
def Datum.EachReadable : List Datum → Prop
  | [] => True
  | x :: xs => x.Readable ∧ Datum.EachReadable xs

end

/-- A datum does not begin with a separator. -/
theorem Reads.skip {t t' : Text} {d : Datum} (h : Reads .datum t d t') : skipAtmosphere t = t := by
  have hstart : ∀ {c u}, isSpace c = false → c ≠ ';' → skipAtmosphere (c :: u) = c :: u :=
    fun hsp hc => skipFrom_datum hsp hc _
  cases h with
  | list => exact hstart (by decide) (by decide)
  | string => exact hstart (by decide) (by decide)
  | @abbreviated c t head u x t' hab =>
    unfold abbreviation at hab
    split at hab
    · subst c; exact hstart (by decide) (by decide)
    split at hab
    · subst c; exact hstart (by decide) (by decide)
    split at hab
    · subst c; exact hstart (by decide) (by decide)
    · exact absurd hab (Option.some_ne_none _).symm
  | vector => exact hstart (by decide) (by decide)
  | bool => exact hstart (by decide) (by decide)
  | @atom c t d hc =>
    refine hstart (Bool.eq_false_iff.mpr fun hsp => ?_) ?_
    · unfold isDelimiter at hc
      rw [hsp] at hc
      exact absurd hc (by simp)
    · rintro rfl
      exact absurd hc (by decide)

/-- What looks like the dot of a dotted list is the symbol of that name. -/
theorem Reads.not_atDot {t t' : Text} {d : Datum} (h : Reads .datum t d t')
    (hd : d ≠ .sym ".") : ¬ atDot t := by
  rintro ⟨hdot, hnext⟩
  cases h with
  | list => exact absurd (Option.some.inj hdot) (by decide)
  | string => exact absurd (Option.some.inj hdot) (by decide)
  | @abbreviated c t head u x t' hab =>
    obtain rfl : c = '.' := Option.some.inj hdot
    exact absurd hab (Option.some_ne_none _).symm
  | vector => exact absurd (Option.some.inj hdot) (by decide)
  | bool => exact absurd (Option.some.inj hdot) (by decide)
  | @atom c t d hc hsharp hatom =>
    obtain rfl : c = '.' := Option.some.inj hdot
    have htake : t.takeWhile (fun c => !isDelimiter c) = [] := by
      cases t with
      | nil => rfl
      | cons x t =>
        have hx : isDelimiter x = true := hnext
        exact List.takeWhile_cons_of_neg (by rw [hx]; exact Bool.false_ne_true)
    rw [htake] at hatom
    exact hd (Except.ok.inj hatom).symm

/-- The text of a string is read back. -/
theorem readString_text {w : Text} (hw : ∀ c ∈ w, c ≠ dquote ∧ c ≠ backslash) (r : Text) :
    readString (w ++ dquote :: r) = .ok (w, r) := by
  induction w with
  | nil => exact readString_dquote r
  | cons c w ih =>
    obtain ⟨hq, hb⟩ := hw c List.mem_cons_self
    exact readString_plain hq hb (ih fun x hx => hw x (List.mem_cons_of_mem c hx))

/-- Only a token is a symbol. -/
theorem Reads.not_sym {p : Place} {t t' : Text} {d : Datum} (h : Reads p t d t')
    (hp : p = .list true ∨ p = .elements) (name : String) : d ≠ .sym name := by
  rintro rfl
  cases h with
  | dot => exact absurd hp (by simp)
  | _ => exact absurd hp (by simp)

/-- **A name that is read back alone** is read back before any delimiter. -/
theorem reads_name {name : String} (h : ReadableName name) {post : Text}
    (hpost : delimiterNext post = true) (hsharp : name = "#" → post.head? ≠ some '(') :
    Reads .datum (name.toList ++ post) (.sym name) post := by
  have hread := readOne_eq_some_iff.mp h.1
  generalize hd : Datum.sym name = d at hread
  generalize hr : ([] : Text) = r at hread
  generalize ht : skipAtmosphere name.toList = t at hread
  cases hread with
  | @atom c u d hc hcs hatom =>
    subst hd
    have hdrop := List.dropWhile_eq_nil_iff.mp hr.symm
    have hw : ∀ x ∈ u, isDelimiter x = false := fun x hx => by
      have := hdrop x hx
      rwa [Bool.not_eq_true'] at this
    have htake : u.takeWhile (fun c => !isDelimiter c) = u :=
      List.takeWhile_eq_self_iff.mpr hdrop
    rw [htake] at hatom
    -- the token is the name itself
    have hname : name.toList = c :: u := by
      have hsym : Datum.atom (.sym (String.ofList (c :: u))) = .sym name := by
        unfold atomOf at hatom
        split at hatom
        · exact absurd (Datum.atom.inj (Except.ok.inj hatom)) (by simp)
        split at hatom
        · exact absurd (Datum.atom.inj (Except.ok.inj hatom)) (by simp)
        split at hatom
        · exact absurd (Datum.atom.inj (Except.ok.inj hatom)) (by simp)
        obtain ⟨n, hn, hatom⟩ := Except.map_eq_ok.mp hatom
        cases n with
        | none => exact hatom
        | some v =>
          have hv : v = .sym name := Datum.atom.inj hatom
          rw [hv] at hn
          exact absurd hn (parseNumber_ne_sym _ _)
      rw [← Value.sym.inj (Datum.atom.inj hsym), String.toList_ofList]
    rw [hname]
    refine Reads.token hc hw (r := []) rfl hpost (fun hcs' hu => ?_)
      (fun hcs' => by rw [List.append_nil]; exact (hcs hcs').2) hatom
    refine hsharp ?_
    have : name = String.ofList name.toList := String.ofList_toList.symm
    rw [this, hname, hcs', hu]
  | list hlist => exact absurd hd.symm (hlist.not_sym (.inl rfl) name)
  | string => exact absurd hd nofun
  | abbreviated => exact absurd hd nofun
  | vector hvec => exact absurd hd.symm (hvec.not_sym (.inr rfl) name)
  | bool => exact absurd (Datum.atom.inj hd) nofun

section Read

variable {objectText : Value → Text}

theorem Datum.Readable.ne_dot {d : Datum} (h : d.Readable) : d ≠ .sym "." := by
  rintro rfl
  exact h.2 rfl

/-- A tail of a list begins with a space or with the parenthesis. -/
theorem delimiterNext_tailText (objectText : Value → Text) (d : Datum) (post : Text) :
    delimiterNext (d.tailText objectText ++ post) = true ∧
      (d.tailText objectText ++ post).head? ≠ some '(' := by
  have hspace : isDelimiter ' ' = true := by decide
  have hspace' : ' ' ≠ '(' := by decide
  cases d with
  | atom v =>
    unfold Datum.tailText
    split
    · exact ⟨rfl, fun h => absurd (Option.some.inj h) (by decide)⟩
    · exact ⟨hspace, fun h => hspace' (Option.some.inj h)⟩
  | string => exact ⟨hspace, fun h => hspace' (Option.some.inj h)⟩
  | vector => exact ⟨hspace, fun h => hspace' (Option.some.inj h)⟩
  | pair => exact ⟨hspace, fun h => hspace' (Option.some.inj h)⟩

theorem delimiterNext_elemsText (objectText : Value → Text) (xs : List Datum) (post : Text) :
    delimiterNext (Datum.elemsText objectText false xs ++ post) = true ∧
      (Datum.elemsText objectText false xs ++ post).head? ≠ some '(' := by
  cases xs with
  | nil => exact ⟨rfl, fun h => absurd (Option.some.inj h) (by decide)⟩
  | cons => exact ⟨rfl, fun h => absurd (Option.some.inj h) (by decide)⟩

/-- An element of a list, after a space or none. -/
theorem reads_item (first : Bool) {a ls : Datum} {sep t u t' : Text} (ha : a ≠ .sym ".")
    (hsep : sep = [] ∨ sep = [' ']) (ht : Reads .datum (t ++ u) a u)
    (hu : Reads (.list false) u ls t') : Reads (.list first) (sep ++ (t ++ u)) (.pair a ls) t' := by
  have hskip : skipAtmosphere (sep ++ (t ++ u)) = t ++ u := by
    rcases hsep with rfl | rfl
    · exact ht.skip
    · exact ht.skip
  refine .item hskip (fun hclose => ?_) (ht.not_atDot ha) ht hu
  obtain ⟨w, hw⟩ := List.head?_eq_some_iff.mp hclose
  exact (ht.first hw).1 rfl

/-- The end of a dotted list. -/
theorem reads_dotted {d : Datum} {t post : Text}
    (ht : Reads .datum (t ++ (')' :: post)) d (')' :: post)) :
    Reads (.list false) ([' ', '.', ' '] ++ t ++ [')'] ++ post) d post := by
  have hskip : skipAtmosphere (' ' :: (t ++ (')' :: post))) = t ++ (')' :: post) := ht.skip
  have := Reads.dot (t := [' ', '.', ' '] ++ t ++ [')'] ++ post) (u := ' ' :: (t ++ (')' :: post)))
    (by simp only [List.append_assoc]; rfl) rfl (by rw [hskip]; exact ht) rfl
  exact this

mutual

/-- **The text of a datum is read as the datum**, up to its end. -/
theorem reads_text : ∀ (d : Datum) (_ : d.Readable) {post : Text}, delimiterNext post = true →
    (d = .sym "#" → post.head? ≠ some '(') →
    Reads .datum (d.text objectText ++ post) d post
  | .atom v, h, post, hpost, hsharp => by
    cases v with
    | int n =>
      obtain ⟨hne, hw, hhead, hatom⟩ := decimal_spec n
      obtain ⟨c, w, hcw⟩ := List.exists_cons_of_ne_nil hne
      show Reads .datum (decimal n ++ post) _ post
      rw [hcw] at hw hhead hatom ⊢
      exact Reads.token (r := []) (hw c List.mem_cons_self)
        (fun x hx => hw x (List.mem_cons_of_mem c hx)) rfl hpost
        (fun hc => absurd (congrArg some hc) hhead) (fun hc => absurd (congrArg some hc) hhead) hatom
    | sym name => exact reads_name h hpost (fun hn => hsharp (congrArg Datum.sym hn))
    | _ => exact h.elim
  | .string s, h, post, _, _ => by
    show Reads .datum (dquote :: (s.toList ++ [dquote]) ++ post) _ post
    rw [List.cons_append, List.append_assoc]
    have := Reads.string (readString_text h post)
    rwa [String.ofList_toList] at this
  | .vector xs, h, post, _, _ => .vector (reads_elemsText xs h true post)
  | .pair a d, h, post, _, _ => by
    obtain ⟨hnext, hopen⟩ := delimiterNext_tailText objectText d post
    have ha := reads_text a h.1 hnext (fun _ => hopen)
    have := reads_item true h.1.ne_dot (.inl rfl) ha (reads_tailText d h.2 post)
    show Reads .datum ('(' :: (a.text objectText ++ d.tailText objectText) ++ post) _ post
    rw [List.cons_append, List.append_assoc]
    exact .list this

/-- The tail of a list. -/
theorem reads_tailText : ∀ (d : Datum) (_ : d = .nil ∨ d.Readable) (post : Text),
    Reads (.list false) (d.tailText objectText ++ post) d post
  | .atom v, h, post => by
    by_cases hnil : v = .nil
    · subst hnil
      exact .close rfl
    · have hd : (Datum.atom v).Readable :=
        h.resolve_left fun heq => hnil (Datum.atom.inj heq)
      have := reads_text (.atom v) hd (show delimiterNext (')' :: post) = true from rfl)
        (fun _ h => absurd (Option.some.inj h) (by decide))
      unfold Datum.tailText
      rw [if_neg hnil]
      exact reads_dotted this
  | .string s, h, post => by
    have := reads_text (.string s) (h.resolve_left nofun)
      (show delimiterNext (')' :: post) = true from rfl)
      (fun _ h => absurd (Option.some.inj h) (by decide))
    exact reads_dotted this
  | .vector xs, h, post => by
    have := reads_text (.vector xs) (h.resolve_left nofun)
      (show delimiterNext (')' :: post) = true from rfl)
      (fun _ h => absurd (Option.some.inj h) (by decide))
    exact reads_dotted this
  | .pair a d, h, post => by
    have hd := h.resolve_left nofun
    obtain ⟨hnext, hopen⟩ := delimiterNext_tailText objectText d post
    have ha := reads_text a hd.1 hnext (fun _ => hopen)
    show Reads (.list false) (' ' :: (a.text objectText ++ d.tailText objectText) ++ post) _ post
    rw [List.cons_append, List.append_assoc]
    exact reads_item false hd.1.ne_dot (.inr rfl) ha (reads_tailText d hd.2 post)

/-- The elements of a vector. -/
theorem reads_elemsText : ∀ (xs : List Datum) (_ : Datum.EachReadable xs) (first : Bool)
    (post : Text), Reads .elements (Datum.elemsText objectText first xs ++ post) (.vector xs) post
  | [], _, first, post => .noElement rfl
  | x :: xs, h, first, post => by
    obtain ⟨hnext, hopen⟩ := delimiterNext_elemsText objectText xs post
    have hx := reads_text x h.1 hnext (fun _ => hopen)
    have hskip : skipAtmosphere ((if first then [] else [' ']) ++
        (x.text objectText ++ (Datum.elemsText objectText false xs ++ post))) =
          x.text objectText ++ (Datum.elemsText objectText false xs ++ post) := by
      cases first <;> exact hx.skip
    have := Reads.element hskip (fun hclose => ?_) hx (reads_elemsText xs h.2 false post)
    · unfold Datum.elemsText
      rw [List.append_assoc, List.append_assoc]
      exact this
    · obtain ⟨w, hw⟩ := List.head?_eq_some_iff.mp hclose
      exact (hx.first hw).1 rfl

end

end Read

end Scheme14
