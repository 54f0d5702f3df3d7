import SecdScheme.Scheme14.Primitives
import SecdScheme.Scheme14.WriteRead

/-!
# scheme14: numbers as texts, in a radix

`number->string` and `string->number`. In radix 10 they print and read as the
printer and the reader do; in the radices 2, 8 and 16 they have their own
loops, for exact integers alone.
-/

namespace Scheme14

variable {X : Type}

/-! ## The loops -/

/-- `radix_digit`. -/
def radixDigit (c : Char) : Option ℕ :=
  if 48 ≤ c.toNat ∧ c.toNat ≤ 57 then some (c.toNat - 48)
  else if 97 ≤ c.toNat ∧ c.toNat ≤ 102 then some (10 + (c.toNat - 97))
  else if 65 ≤ c.toNat ∧ c.toNat ≤ 70 then some (10 + (c.toNat - 65))
  else none

/-- A digit as it is written. -/
def lowerDigit (k : ℕ) : Char := Char.ofNat (if k < 10 then 48 + k else 97 + (k - 10))

/-- The loop of `exact_int_to_radix`: the last digit comes first. -/
def radixLoop (radix : ℕ) : ℕ → ℕ → Text
  | 0, _ => []
  | fuel + 1, n => if n = 0 then [] else lowerDigit (n % radix) :: radixLoop radix fuel (n / radix)

/-- `exact_int_to_radix`, of a number that is not negative. -/
def natToRadix (n radix : ℕ) : Text :=
  if n = 0 then ['0'] else (radixLoop radix n n).reverse

/-- `exact_int_to_radix`. -/
def exactIntToRadix (n : ℤ) (radix : ℕ) : Text :=
  if n < 0 then '-' :: natToRadix n.natAbs radix else natToRadix n.natAbs radix

/-- The loop of `exact_int_from_radix`. -/
def fromRadixLoop (radix : ℕ) : ℕ → Text → Option ℕ
  | n, [] => some n
  | n, c :: t =>
    match radixDigit c with
    | none => none
    | some d => if radix ≤ d then none else fromRadixLoop radix (n * radix + d) t

/-- `exact_int_from_radix`. -/
def exactIntFromRadix (tok : Text) (radix : ℕ) : Option ℤ :=
  let digits := if tok.head?.any isSign then tok.drop 1 else tok
  if digits = [] then none
  else (fromRadixLoop radix 0 digits).map fun (n : ℕ) =>
    if tok.head? = some '-' ∧ n ≠ 0 then -(n : ℤ) else (n : ℤ)

/-! ## The primitives -/

/-- `radix_of`. -/
def radixOf (who : String) : Value → DataM X ℕ
  | .int n =>
    if n = 2 ∨ n = 8 ∨ n = 10 ∨ n = 16 then pure n.toNat
    else errorAt (.behind (who ++ ": argument out of range\n  ")
      (expectedGiven "2, 8, 10, or 16" (.int n)))
  | v => primTypeError who "an integer" v

/-- The radix of a call, `10` where there is none. -/
def radixArg (who : String) (args : List Value) : DataM X ℕ :=
  if args.length = 1 then pure 10 else radixOf who (arg args 1)

/-- `is_number`. -/
def isNumber : Value → Bool
  | .int _ => true
  | .real _ => true
  | _ => false

/-- `number->string`. -/
def primNumberToString (objectText : Value → Text) (args : List Value) : DataM X Value := do
  needArgsBetween "number->string" args 1 2
  if !isNumber (arg args 0) then primTypeError "number->string" "a number" (arg args 0)
  let radix ← radixArg "number->string" args
  if radix = 10 then makeString (String.ofList (atomText objectText (arg args 0)))
  else match arg args 0 with
    | .int n => makeString (String.ofList (exactIntToRadix n radix))
    | v => primTypeError "number->string" "an exact integer" v

/-- The conversion of `string->number`; an exception of the big integers is
handed on. -/
def stringToNumber (tok : Text) (radix : ℕ) : Except ReadError Value :=
  if radix = 10 then (parseNumber tok).map fun n => n.getD (.bool false)
  else .ok (((exactIntFromRadix tok radix).map Value.int).getD (.bool false))

/-- `string->number`. -/
def primStringToNumber (args : List Value) : DataM X (Except ReadError Value) := do
  needArgsBetween "string->number" args 1 2
  let s ← strOf "string->number" (arg args 0)
  let radix ← radixArg "string->number" args
  return stringToNumber s.toList radix

/-! ## Digits -/

/-- A digit as it may also be written. -/
def upperDigit (k : ℕ) : Char := Char.ofNat (if k < 10 then 48 + k else 65 + (k - 10))

/-- **A character that is a digit of a radix**, in either case. -/
def IsDigitOf (radix : ℕ) (c : Char) (k : ℕ) : Prop :=
  k < radix ∧ (c = lowerDigit k ∨ c = upperDigit k)

theorem radixDigit_digits : ∀ k < 16, radixDigit (lowerDigit k) = some k ∧
    radixDigit (upperDigit k) = some k := by
  decide

/-- `radix_digit` is the value of a digit. -/
theorem radixDigit_eq_some {c : Char} {k : ℕ} :
    radixDigit c = some k ↔ IsDigitOf 16 c k := by
  constructor
  · intro h
    have hc := Char.ofNat_toNat c
    unfold radixDigit at h
    unfold IsDigitOf lowerDigit upperDigit
    split at h
    · obtain rfl := Option.some.inj h
      refine ⟨by omega, .inl ?_⟩
      rw [if_pos (by omega), show 48 + (c.toNat - 48) = c.toNat by omega, hc]
    split at h
    · obtain rfl := Option.some.inj h
      refine ⟨by omega, .inl ?_⟩
      rw [if_neg (by omega), show 97 + (10 + (c.toNat - 97) - 10) = c.toNat by omega, hc]
    split at h
    · obtain rfl := Option.some.inj h
      refine ⟨by omega, .inr ?_⟩
      rw [if_neg (by omega), show 65 + (10 + (c.toNat - 65) - 10) = c.toNat by omega, hc]
    · cases h
  · rintro ⟨hk, rfl | rfl⟩
    · exact (radixDigit_digits k hk).1
    · exact (radixDigit_digits k hk).2

/-- **Digits of a radix** with their values. -/
def AreDigitsOf (radix : ℕ) (ds : Text) (ks : List ℕ) : Prop :=
  List.Forall₂ (IsDigitOf radix) ds ks

/-- The value of digits, the first of which counts most. -/
def positional (radix : ℕ) (ks : List ℕ) : ℕ := ks.foldl (fun n k => n * radix + k) 0

theorem foldl_eq_ofDigits (radix : ℕ) (ks : List ℕ) :
    positional radix ks = Nat.ofDigits radix ks.reverse := by
  unfold positional
  rw [← List.foldr_reverse]
  induction ks.reverse with
  | nil => rfl
  | cons k ks ih =>
    rw [List.foldr_cons, ih, Nat.ofDigits_cons, Nat.mul_comm, Nat.add_comm]

/-- **The loop accepts digits**, and has their value. -/
theorem fromRadixLoop_eq_some {radix : ℕ} (hradix : radix ≤ 16) {n v : ℕ} {ds : Text} :
    fromRadixLoop radix n ds = some v ↔
      ∃ ks, AreDigitsOf radix ds ks ∧ v = ks.foldl (fun n k => n * radix + k) n := by
  induction ds generalizing n with
  | nil =>
    constructor
    · intro h
      exact ⟨[], .nil, (Option.some.inj h).symm⟩
    · rintro ⟨ks, hks, rfl⟩
      cases hks
      rfl
  | cons c ds ih =>
    unfold fromRadixLoop
    constructor
    · intro h
      split at h
      · cases h
      rename_i d hd
      split at h
      · cases h
      obtain ⟨ks, hks, hv⟩ := ih.mp h
      have hdigit := radixDigit_eq_some.mp hd
      exact ⟨d :: ks, .cons ⟨by omega, hdigit.2⟩ hks, hv⟩
    · rintro ⟨ks, hks, hv⟩
      cases hks with
      | @cons _ k _ ks hk hks =>
        rw [radixDigit_eq_some.mpr ⟨by have := hk.1; omega, hk.2⟩]
        dsimp only
        rw [if_neg (by have := hk.1; omega)]
        exact ih.mpr ⟨ks, hks, hv⟩

/-! ## Texts of a radix -/

/-- **A text of a radix and the number it denotes**: a sign, which may be left
out, and digits. -/
def RadixText (radix : ℕ) (tok : Text) (n : ℤ) : Prop :=
  ∃ sign ds ks, tok = sign ++ ds ∧ (sign = [] ∨ sign = ['+'] ∨ sign = ['-']) ∧ ds ≠ [] ∧
    AreDigitsOf radix ds ks ∧
    n = if sign = ['-'] then -(positional radix ks : ℤ) else positional radix ks

/-- A sign is no digit. -/
theorem isSign_of_isDigitOf {radix k : ℕ} {c : Char} (hradix : radix ≤ 16)
    (h : IsDigitOf radix c k) : isSign c = false := by
  have hc : radixDigit c = some k := radixDigit_eq_some.mpr ⟨by have := h.1; omega, h.2⟩
  have hne : ∀ x : Char, radixDigit x = none → c ≠ x := by
    rintro x hx rfl
    exact Option.some_ne_none k (hc.symm.trans hx)
  unfold isSign
  rw [beq_eq_false_iff_ne.mpr (hne '+' (by decide)), beq_eq_false_iff_ne.mpr (hne '-' (by decide))]
  rfl

/-- A magnitude with its sign. -/
theorem sign_magnitude (negative : Prop) [Decidable negative] (v : ℕ) :
    (if negative ∧ v ≠ 0 then -(v : ℤ) else v) = if negative then -(v : ℤ) else v := by
  by_cases hneg : negative
  · by_cases hv : v = 0
    · subst hv
      simp
    · rw [if_pos ⟨hneg, hv⟩, if_pos hneg]
  · rw [if_neg fun h => hneg h.1, if_neg hneg]

/-- **What `exact_int_from_radix` accepts**, and what it makes of it. -/
theorem exactIntFromRadix_eq_some {radix : ℕ} (hradix : radix ≤ 16) {tok : Text} {n : ℤ} :
    exactIntFromRadix tok radix = some n ↔ RadixText radix tok n := by
  unfold exactIntFromRadix
  simp only [sign_magnitude]
  constructor
  · intro h
    cases tok with
    | nil => cases h
    | cons c t =>
      have hloop : ∀ ds sign : Text, c :: t = sign ++ ds →
          (sign = [] ∨ sign = ['+'] ∨ sign = ['-']) → ds ≠ [] →
          (c = '-' ↔ sign = ['-']) →
          (fromRadixLoop radix 0 ds).map (fun (n : ℕ) =>
            if (c :: t).head? = some '-' then -(n : ℤ) else (n : ℤ)) = some n →
          RadixText radix (c :: t) n := by
        intro ds sign htok hsign hne hc hn
        obtain ⟨v, hv, rfl⟩ := Option.map_eq_some_iff.mp hn
        obtain ⟨ks, hks, rfl⟩ := (fromRadixLoop_eq_some hradix).mp hv
        refine ⟨sign, ds, ks, htok, hsign, hne, hks, ?_⟩
        by_cases hminus : c = '-'
        · rw [if_pos (show (c :: t).head? = some '-' from congrArg some hminus),
            if_pos (hc.mp hminus)]
          rfl
        · rw [if_neg (show ¬ (c :: t).head? = some '-' from fun h => hminus (Option.some.inj h)),
            if_neg fun h => hminus (hc.mpr h)]
          rfl
      by_cases hs : isSign c = true
      · rw [if_pos (show (c :: t).head?.any isSign = true from hs)] at h
        have hsign : c = '+' ∨ c = '-' := by
          unfold isSign at hs
          rcases Bool.or_eq_true_iff.mp hs with h | h
          · exact .inl (beq_iff_eq.mp h)
          · exact .inr (beq_iff_eq.mp h)
        split at h
        · cases h
        rename_i hne
        refine hloop t [c] rfl (.inr ?_) hne ?_ h
        · rcases hsign with rfl | rfl
          · exact .inl rfl
          · exact .inr rfl
        · constructor
          · rintro rfl
            rfl
          · exact fun h => (List.cons.inj h).1
      · rw [if_neg (show ¬ (c :: t).head?.any isSign = true from hs)] at h
        split at h
        · cases h
        refine hloop (c :: t) [] rfl (.inl rfl) (List.cons_ne_nil c t) ?_ h
        constructor
        · rintro rfl
          exact absurd rfl hs
        · exact fun h => nomatch h
  · rintro ⟨sign, ds, ks, rfl, hsign, hne, hks, rfl⟩
    have hloop : fromRadixLoop radix 0 ds = some (positional radix ks) :=
      (fromRadixLoop_eq_some hradix).mpr ⟨ks, hks, rfl⟩
    rcases hsign with rfl | rfl | rfl
    · cases hks with
      | nil => exact absurd rfl hne
      | @cons c k ds ks hk hks =>
        have hc := isSign_of_isDigitOf hradix hk
        have hminus : c ≠ '-' := by
          rintro rfl
          cases hc
        show (if (if isSign c = true then ds else c :: ds) = [] then none
          else (fromRadixLoop radix 0 (if isSign c = true then ds else c :: ds)).map _) = _
        rw [hc, if_neg Bool.false_ne_true, if_neg (List.cons_ne_nil c ds), hloop]
        show some (if some c = some '-' then _ else _) = _
        rw [if_neg fun h => hminus (Option.some.inj h), if_neg (fun h => nomatch h)]
    · show (if ds = [] then none else (fromRadixLoop radix 0 ds).map _) = _
      rw [if_neg hne, hloop]
      rfl
    · show (if ds = [] then none else (fromRadixLoop radix 0 ds).map _) = _
      rw [if_neg hne, hloop]
      rfl

/-! ## Canonical texts -/

/-- **The canonical text of a number**: lower case, no leading zeros and no
plus sign. -/
def CanonicalText (radix : ℕ) (tok : Text) : Prop :=
  tok = ['0'] ∨ ∃ sign k ks, tok = sign ++ (k :: ks).map lowerDigit ∧
    (sign = [] ∨ sign = ['-']) ∧ k ≠ 0 ∧ ∀ d ∈ k :: ks, d < radix

theorem radixLoop_eq {radix : ℕ} (hradix : 1 < radix) :
    ∀ {fuel n : ℕ}, n ≤ fuel → radixLoop radix fuel n = (Nat.digits radix n).map lowerDigit
  | 0, n, h => by
    obtain rfl : n = 0 := Nat.le_zero.mp h
    rw [Nat.digits_zero]
    rfl
  | fuel + 1, n, h => by
    unfold radixLoop
    by_cases hn : n = 0
    · rw [if_pos hn, hn, Nat.digits_zero]
      rfl
    · have hpos : 0 < n := Nat.pos_of_ne_zero hn
      have hless : n / radix ≤ fuel := by
        have := Nat.div_lt_self hpos hradix
        omega
      rw [if_neg hn, radixLoop_eq hradix hless, Nat.digits_def' hradix hpos]
      rfl

/-- The digits of a number, the first of which is not zero. -/
theorem natToRadix_eq {radix n : ℕ} (hradix : 1 < radix) (hn : n ≠ 0) :
    ∃ k ks, (Nat.digits radix n).reverse = k :: ks ∧ k ≠ 0 ∧ (∀ d ∈ k :: ks, d < radix) ∧
      natToRadix n radix = (k :: ks).map lowerDigit := by
  have hne : Nat.digits radix n ≠ [] := Nat.digits_ne_nil_iff_ne_zero.mpr hn
  obtain ⟨k, ks, hks⟩ : ∃ k ks, (Nat.digits radix n).reverse = k :: ks :=
    List.exists_cons_of_ne_nil (by rwa [ne_eq, List.reverse_eq_nil_iff])
  have hlast := Nat.getLast_digit_ne_zero radix hn
  refine ⟨k, ks, hks, ?_, ?_, ?_⟩
  · rw [List.getLast_eq_head_reverse] at hlast
    simpa only [hks, List.head_cons] using hlast
  · intro d hd
    rw [← hks, List.mem_reverse] at hd
    exact Nat.digits_lt_base hradix hd
  · unfold natToRadix
    rw [if_neg hn, radixLoop_eq hradix (Nat.le_refl n), ← List.map_reverse, hks]

theorem areDigitsOf_lower {radix : ℕ} {ks : List ℕ} (h : ∀ d ∈ ks, d < radix) :
    AreDigitsOf radix (ks.map lowerDigit) ks := by
  induction ks with
  | nil => exact .nil
  | cons k ks ih =>
    exact .cons ⟨h k List.mem_cons_self, .inl rfl⟩ (ih fun d hd => h d (List.mem_cons_of_mem k hd))

theorem radixText_zero {radix : ℕ} (hradix : 1 < radix) : RadixText radix ['0'] 0 := by
  refine ⟨[], ['0'], [0], rfl, .inl rfl, List.cons_ne_nil _ _, ?_, ?_⟩
  · exact .cons ⟨by omega, .inl rfl⟩ .nil
  · simp [positional]

/-- **`exact_int_to_radix` writes a canonical text of the number.** -/
theorem exactIntToRadix_spec {radix : ℕ} (hradix : 1 < radix) (n : ℤ) :
    CanonicalText radix (exactIntToRadix n radix) ∧
      RadixText radix (exactIntToRadix n radix) n := by
  by_cases hn : n = 0
  · subst hn
    exact ⟨.inl rfl, radixText_zero hradix⟩
  · obtain ⟨k, ks, hrev, hk, hlt, htext⟩ :=
      natToRadix_eq hradix (show n.natAbs ≠ 0 from Int.natAbs_ne_zero.mpr hn)
    have hvalue : positional radix (k :: ks) = n.natAbs := by
      rw [foldl_eq_ofDigits, ← hrev, List.reverse_reverse, Nat.ofDigits_digits]
    unfold exactIntToRadix
    rw [htext]
    by_cases hneg : n < 0
    · rw [if_pos hneg]
      refine ⟨.inr ⟨['-'], k, ks, rfl, .inr rfl, hk, hlt⟩, ['-'], _, k :: ks, rfl,
        .inr (.inr rfl), by simp, areDigitsOf_lower hlt, ?_⟩
      rw [if_pos rfl, hvalue]
      omega
    · rw [if_neg hneg]
      refine ⟨.inr ⟨[], k, ks, rfl, .inl rfl, hk, hlt⟩, [], _, k :: ks, rfl,
        .inl rfl, by simp, areDigitsOf_lower hlt, ?_⟩
      rw [if_neg (fun h => nomatch h), hvalue]
      omega

/-- **The canonical text is unique.** -/
theorem eq_exactIntToRadix {radix : ℕ} (hradix : 1 < radix) (hle : radix ≤ 16) {tok : Text}
    {n : ℤ} (hcanon : CanonicalText radix tok) (htok : RadixText radix tok n) :
    tok = exactIntToRadix n radix := by
  have hvalue : ∀ {m : ℤ}, RadixText radix tok m → n = m := by
    intro m hm
    have h := (exactIntFromRadix_eq_some hle).mpr htok
    rw [(exactIntFromRadix_eq_some hle).mpr hm] at h
    exact (Option.some.inj h).symm
  rcases hcanon with rfl | ⟨sign, k, ks, rfl, hsign, hk, hlt⟩
  · obtain rfl : n = 0 := hvalue (radixText_zero hradix)
    rfl
  · have hn := hvalue ⟨sign, _, k :: ks, rfl, hsign.imp id .inr, by simp, areDigitsOf_lower hlt, rfl⟩
    rw [foldl_eq_ofDigits] at hn
    have hdigits : Nat.digits radix (Nat.ofDigits radix (k :: ks).reverse) = (k :: ks).reverse := by
      refine Nat.digits_ofDigits radix hradix _ (fun d hd => hlt d (List.mem_reverse.mp hd)) ?_
      intro hne
      rw [List.getLast_reverse]
      exact hk
    generalize Nat.ofDigits radix (k :: ks).reverse = m at hn hdigits
    have hm : m ≠ 0 := by
      rintro rfl
      rw [Nat.digits_zero] at hdigits
      exact List.cons_ne_nil k ks (List.reverse_eq_nil_iff.mp hdigits.symm)
    obtain ⟨k', ks', hrev, -, -, htext⟩ := natToRadix_eq hradix hm
    rw [hdigits, List.reverse_reverse] at hrev
    rw [← hrev] at htext
    unfold exactIntToRadix
    rcases hsign with rfl | rfl
    · rw [if_neg (fun h => nomatch h)] at hn
      rw [hn, if_neg (by omega), Int.natAbs_natCast, htext]
      rfl
    · rw [if_pos rfl] at hn
      rw [hn, if_pos (by omega), Int.natAbs_neg, Int.natAbs_natCast, htext]
      rfl

/-! ## The primitives on integers -/

/-- The radices there are. -/
def IsRadix (r : ℕ) : Prop := r = 2 ∨ r = 8 ∨ r = 10 ∨ r = 16

theorem radixArg_run {who : String} {v : Value} {r : ℕ} (hr : IsRadix r) (s : Data X) :
    radixArg who [v, .int r] s = (.ok r, s) := by
  rcases hr with rfl | rfl | rfl | rfl <;> rfl

/-- The text that `number->string` makes of an integer. -/
def integerText (n : ℤ) (radix : ℕ) : Text :=
  if radix = 10 then decimal n else exactIntToRadix n radix

theorem primNumberToString_run (objectText : Value → Text) (n : ℤ) {r : ℕ} (hr : IsRadix r)
    (s : Data X) : primNumberToString objectText [.int n, .int r] s =
      makeString (String.ofList (integerText n r)) s := by
  show (radixArg "number->string" [.int n, .int r] >>= fun radix => _) s = _
  rw [Cmd.bind_run_ok (radixArg_run hr s)]
  unfold integerText
  rcases hr with rfl | rfl | rfl | rfl <;> rfl

theorem primStringToNumber_run {a : ℕ} {t : String} {r : ℕ} {s : Data X}
    (ht : s.strings[a]? = some t) (hr : IsRadix r) :
    primStringToNumber [.string a, .int r] s = (.ok (stringToNumber t.toList r), s) := by
  have hstr : strOf "string->number" (.string a) s = (.ok t, s) := by
    show (Except.ok ((s.strings[a]?).getD ""), s) = _
    rw [ht]
    rfl
  unfold primStringToNumber
  rw [Cmd.bind_run_ok (show needArgsBetween "string->number" [.string a, .int r] 1 2 s = (.ok (), s)
    from rfl), Cmd.bind_run_ok (show strOf "string->number" (arg [.string a, .int r] 0) s = _ from
    hstr), Cmd.bind_run_ok (radixArg_run hr s)]
  rfl

/-- The text of an integer is read as the integer, in radix 10 as well. -/
theorem stringToNumber_integerText (n : ℤ) {r : ℕ} (hr : IsRadix r) :
    stringToNumber (integerText n r) r = .ok (.int n) := by
  unfold stringToNumber integerText
  by_cases h10 : r = 10
  · rw [if_pos h10, if_pos h10, parseNumber_decimal]
    rfl
  · rw [if_neg h10, if_neg h10]
    have hbounds : 1 < r ∧ r ≤ 16 := by
      rcases hr with rfl | rfl | rfl | rfl <;> decide
    rw [(exactIntFromRadix_eq_some hbounds.2).mpr (exactIntToRadix_spec hbounds.1 n).2]
    rfl

theorem makeString_run (text : String) (s : Data X) : ∃ a s', makeString text s =
    (.ok (.string a), s') ∧ s'.strings[a]? = some text :=
  ⟨_, _, rfl, List.getElem?_concat_length⟩

/-- **Radix conversion.** An integer that is written in a radix is read back;
in the radices 2, 8 and 16, a string is read as a number exactly when it is a
text of the radix, and the text that is written is the canonical one. -/
theorem radix_conversion (objectText : Value → Text) :
    (∀ (n : ℤ) (r : ℕ), IsRadix r → ∀ s : Data X, ∃ a s',
      primNumberToString objectText [.int n, .int r] s = (.ok (.string a), s') ∧
      primStringToNumber [.string a, .int r] s' = (.ok (.ok (.int n)), s')) ∧
    ∀ r : ℕ, r = 2 ∨ r = 8 ∨ r = 16 →
      (∀ (s : Data X) (a : ℕ) (t : String), s.strings[a]? = some t → ∃ v,
        primStringToNumber [.string a, .int r] s = (.ok (.ok v), s) ∧
        (∀ n, v = .int n ↔ RadixText r t.toList n) ∧
        ((∀ n, ¬ RadixText r t.toList n) → v = .bool false)) ∧
      ∀ (n : ℤ) (s : Data X), ∃ a s' t,
        primNumberToString objectText [.int n, .int r] s = (.ok (.string a), s') ∧
        s'.strings[a]? = some t ∧ CanonicalText r t.toList ∧ RadixText r t.toList n ∧
        ∀ t' : String, CanonicalText r t'.toList → RadixText r t'.toList n → t' = t := by
  have hwritten : ∀ (n : ℤ) (r : ℕ), IsRadix r → ∀ s : Data X, ∃ a s',
      primNumberToString objectText [.int n, .int r] s = (.ok (.string a), s') ∧
      s'.strings[a]? = some (String.ofList (integerText n r)) := by
    intro n r hr s
    rw [primNumberToString_run objectText n hr]
    exact makeString_run _ s
  refine ⟨fun n r hr s => ?_, fun r hr => ?_⟩
  · obtain ⟨a, s', hrun, ht⟩ := hwritten n r hr s
    refine ⟨a, s', hrun, ?_⟩
    rw [primStringToNumber_run ht hr, String.toList_ofList, stringToNumber_integerText n hr]
  have hradix : IsRadix r := by
    rcases hr with rfl | rfl | rfl
    · exact .inl rfl
    · exact .inr (.inl rfl)
    · exact .inr (.inr (.inr rfl))
  have hbounds : 1 < r ∧ r ≤ 16 ∧ r ≠ 10 := by
    rcases hr with rfl | rfl | rfl <;> decide
  obtain ⟨hlow, hhigh, h10⟩ := hbounds
  refine ⟨fun s a t ht => ?_, fun n s => ?_⟩
  · have hread : stringToNumber t.toList r =
        .ok (((exactIntFromRadix t.toList r).map Value.int).getD (.bool false)) := if_neg h10
    refine ⟨_, hread ▸ primStringToNumber_run ht hradix, fun n => ?_, fun hnone => ?_⟩
    · rw [← exactIntFromRadix_eq_some hhigh]
      cases exactIntFromRadix t.toList r with
      | none => exact ⟨fun h => (nomatch h), fun h => (nomatch h)⟩
      | some m => exact ⟨fun h => congrArg some (Value.int.inj h), fun h =>
          congrArg Value.int (Option.some.inj h)⟩
    · cases hn : exactIntFromRadix t.toList r with
      | none => rfl
      | some m => exact absurd ((exactIntFromRadix_eq_some hhigh).mp hn) (hnone m)
  · obtain ⟨a, s', hrun, ht⟩ := hwritten n r hradix s
    have htext : integerText n r = exactIntToRadix n r := if_neg h10
    rw [htext] at ht
    obtain ⟨hcanon, hdenotes⟩ := exactIntToRadix_spec hlow n
    refine ⟨a, s', _, hrun, ht, ?_⟩
    rw [String.toList_ofList]
    refine ⟨hcanon, hdenotes, fun t' hcanon' hdenotes' => ?_⟩
    rw [← eq_exactIntToRadix hlow hhigh hcanon' hdenotes', String.ofList_toList]

/-- No objects at all. -/
def noObjects : Data Unit :=
  { pairs := [], strings := [], vectors := [], errors := [], winds := [], windNextId := 1,
    handler := none, gensymCounter := 0, ext := () }

/-- The number -255 in radix 16. -/
theorem radix_conversion_hex : ∃ a s' t,
    primNumberToString (fun _ => []) [.int (-255), .int 16] noObjects = (.ok (.string a), s') ∧
      s'.strings[a]? = some t ∧ CanonicalText 16 t.toList ∧ RadixText 16 t.toList (-255) ∧
      ∀ t' : String, CanonicalText 16 t'.toList → RadixText 16 t'.toList (-255) → t' = t :=
  ((radix_conversion (fun _ => [])).2 16 (.inr (.inr rfl))).2 (-255) noObjects

/-! ## Integers as tokens -/

/-- **Octal is less than decimal** once a digit that is not zero has others
after it. -/
theorem foldl_lt_foldl (c : Char) (ds : Text) {n m : ℕ} (h : n ≤ m) (hm : 0 < m) :
    (c :: ds).foldl (fun n c => n * 8 + (c.toNat - 48)) n <
      (c :: ds).foldl (fun n c => n * 10 + (c.toNat - 48)) m := by
  induction ds generalizing c n m with
  | nil =>
    show n * 8 + (c.toNat - 48) < m * 10 + (c.toNat - 48)
    omega
  | cons d ds ih =>
    show (d :: ds).foldl _ (n * 8 + (c.toNat - 48)) < (d :: ds).foldl _ (m * 10 + (c.toNat - 48))
    exact ih d (by omega) (by omega)

/-- **Digits that mean the same in octal**: zeros, and after them one digit. -/
theorem digitsValue_eq_iff {ds : Text} (hdigits : ∀ c ∈ ds, isDigit c = true) :
    digitsValue 8 ds = digitsValue 10 ds ↔
      ds = [] ∨ ∃ n d, ds = List.replicate n '0' ++ [d] := by
  induction ds with
  | nil => exact ⟨fun _ => .inl rfl, fun _ => rfl⟩
  | cons c ds ih =>
    have hc := hdigits c List.mem_cons_self
    have ih := ih fun d hd => hdigits d (List.mem_cons_of_mem c hd)
    by_cases hzero : c = '0'
    · subst hzero
      have hstrip : ∀ b, digitsValue b ('0' :: ds) = digitsValue b ds := by
        intro b
        show ds.foldl _ (0 * b + 0) = _
        rw [Nat.zero_mul]
        rfl
      rw [hstrip, hstrip, ih]
      constructor
      · rintro (rfl | ⟨n, d, rfl⟩)
        · exact .inr ⟨0, '0', rfl⟩
        · exact .inr ⟨n + 1, d, rfl⟩
      · rintro (h | ⟨n, d, h⟩)
        · cases h
        · cases n with
          | zero => exact .inl (List.cons.inj h).2
          | succ n => exact .inr ⟨n, d, (List.cons.inj h).2⟩
    · cases ds with
      | nil =>
        exact ⟨fun _ => .inr ⟨0, c, rfl⟩, fun _ => by simp [digitsValue]⟩
      | cons d ds =>
        constructor
        · intro h
          have hpos : 0 < c.toNat - 48 := by
            unfold isDigit at hc
            simp only [Bool.and_eq_true, decide_eq_true_eq] at hc
            have hne : c.toNat ≠ 48 := fun h => hzero (by rw [← Char.ofNat_toNat c, h])
            omega
          have hlt := foldl_lt_foldl d ds (Nat.le_refl (c.toNat - 48)) hpos
          have hstart : ∀ b, digitsValue b (c :: d :: ds) =
              (d :: ds).foldl (fun n c => n * b + (c.toNat - 48)) (c.toNat - 48) := by
            intro b
            show (d :: ds).foldl _ (0 * b + (c.toNat - 48)) = _
            rw [Nat.zero_mul, Nat.zero_add]
          rw [hstart, hstart] at h
          exact absurd h (Nat.ne_of_lt hlt)
        · rintro (h | ⟨n, e, h⟩)
          · cases h
          · cases n with
            | zero => cases (List.cons.inj h).2
            | succ n => exact absurd (List.cons.inj h).1 hzero

/-- **Digits that are not taken for octal**, or mean the same: there is no
leading zero, or there are zeros and at most one other digit, below eight. -/
def PlainDigits (ds : Text) : Prop :=
  ds.head? ≠ some '0' ∨ ∃ n d, ds = List.replicate n '0' ++ [d] ∧ d ≠ '8' ∧ d ≠ '9'

theorem lt_of_isDigit {d : Char} (hd : isDigit d = true) (h8 : d ≠ '8') (h9 : d ≠ '9') :
    d.toNat < 56 := by
  unfold isDigit at hd
  simp only [Bool.and_eq_true, decide_eq_true_eq] at hd
  have h56 : d.toNat ≠ 56 := fun h => h8 (by rw [← Char.ofNat_toNat d, h])
  have h57 : d.toNat ≠ 57 := fun h => h9 (by rw [← Char.ofNat_toNat d, h])
  omega

/-- The constructor of big integers means the decimal value of plain digits,
and of no others. -/
theorem bigIntMagnitude_eq_iff {ds : Text} (hne : ds ≠ [])
    (hdigits : ∀ c ∈ ds, isDigit c = true) :
    bigIntMagnitude ds = .ok (digitsValue 10 ds) ↔ PlainDigits ds := by
  obtain ⟨c, t, rfl⟩ := List.exists_cons_of_ne_nil hne
  unfold bigIntMagnitude
  dsimp only
  by_cases hzero : c = '0'
  · subst hzero
    have ht : ∀ d ∈ t, isDigit d = true := fun d hd => hdigits d (List.mem_cons_of_mem _ hd)
    have hstrip : digitsValue 10 ('0' :: t) = digitsValue 10 t := rfl
    rw [if_pos rfl, hstrip]
    constructor
    · intro h
      split at h
      · rename_i hall
        rcases (digitsValue_eq_iff ht).mp (Except.ok.inj h) with rfl | ⟨n, d, rfl⟩
        · exact .inr ⟨0, '0', rfl, by decide, by decide⟩
        · have hd := List.all_eq_true.mp hall d (by simp)
          refine .inr ⟨n + 1, d, rfl, ?_, ?_⟩ <;> rintro rfl <;> cases hd
      · cases h
    · rintro (h | ⟨n, d, h, h8, h9⟩)
      · exact absurd rfl h
      · have hvalue : digitsValue 8 t = digitsValue 10 t := by
          rw [digitsValue_eq_iff ht]
          cases n with
          | zero => exact .inl (List.cons.inj h).2
          | succ n => exact .inr ⟨n, d, (List.cons.inj h).2⟩
        have hall : t.all (fun d => d.toNat < 56) = true := by
          refine List.all_eq_true.mpr fun x hx => decide_eq_true ?_
          cases n with
          | zero =>
            rw [(List.cons.inj h).2] at hx
            cases hx
          | succ n =>
            have hxd := ht x hx
            rw [(List.cons.inj h).2] at hx
            rcases List.mem_append.mp hx with hx | hx
            · rw [List.eq_of_mem_replicate hx]
              decide
            · obtain rfl := List.mem_singleton.mp hx
              exact lt_of_isDigit hxd h8 h9
        rw [if_pos hall, hvalue]
  · rw [if_neg hzero]
    exact ⟨fun _ => .inl fun h => hzero (Option.some.inj h), fun _ => rfl⟩

/-! ## The three readers -/

/-- The number that a sign and digits denote. -/
def decimalValue (sign ds : Text) : ℤ :=
  if sign = ['-'] then -(digitsValue 10 ds : ℤ) else digitsValue 10 ds

/-- **A token that denotes a number**, to `parse_number`, to the reader and to
`string->number`. -/
def Denotes (tok : Text) (n : ℤ) : Prop :=
  parseNumber tok = .ok (some (.int n)) ∧ atomOf tok = .ok (.atom (.int n)) ∧
    stringToNumber tok 10 = .ok (.int n)

/-- A token of a sign and digits begins like neither of the words. -/
theorem atomOf_digits {sign ds : Text} (hsign : sign = [] ∨ sign = ['+'] ∨ sign = ['-'])
    (hne : ds ≠ []) (hdigits : ∀ c ∈ ds, isDigit c = true) :
    atomOf (sign ++ ds) = (parseNumber (sign ++ ds)).map fun n =>
      .atom (n.getD (.sym (String.ofList (sign ++ ds)))) := by
  obtain ⟨c, ds, rfl⟩ := List.exists_cons_of_ne_nil hne
  have hc := hdigits c List.mem_cons_self
  have hword : ∀ (x : Char) (w : Text), isDigit x = false → x ≠ '+' → x ≠ '-' →
      sign ++ c :: ds ≠ x :: w := by
    intro x w hx hplus hminus h
    rcases hsign with rfl | rfl | rfl
    · rw [(List.cons.inj h).1] at hc
      exact absurd (hc.symm.trans hx) (by decide)
    · exact hplus (List.cons.inj h).1.symm
    · exact hminus (List.cons.inj h).1.symm
  unfold atomOf
  rw [if_neg (hword _ _ (by decide) (by decide) (by decide)),
    if_neg (hword _ _ (by decide) (by decide) (by decide)),
    if_neg (hword _ _ (by decide) (by decide) (by decide))]

/-- **Integer tokens denote their decimal value** exactly when their digits
are not taken for octal. -/
theorem denotes_decimalValue_iff {sign ds : Text}
    (hsign : sign = [] ∨ sign = ['+'] ∨ sign = ['-']) (hne : ds ≠ [])
    (hdigits : ∀ c ∈ ds, isDigit c = true) :
    Denotes (sign ++ ds) (decimalValue sign ds) ↔ PlainDigits ds := by
  rw [← bigIntMagnitude_eq_iff hne hdigits]
  have hparse := parseNumber_digits hsign hne hdigits
  constructor
  · rintro ⟨h, -, -⟩
    rw [hparse] at h
    obtain ⟨n, hn, hvalue⟩ := Except.map_eq_ok.mp h
    have hsame := Value.int.inj (Option.some.inj hvalue)
    unfold decimalValue at hsame
    rw [hn]
    congr 1
    split at hsame <;> omega
  · intro h
    have hnum : parseNumber (sign ++ ds) = .ok (some (.int (decimalValue sign ds))) := by
      rw [hparse, h]
      rfl
    refine ⟨hnum, ?_, ?_⟩
    · rw [atomOf_digits hsign hne hdigits, hnum]
      rfl
    · show (parseNumber (sign ++ ds)).map _ = _
      rw [hnum]
      rfl

/-- A token without a leading zero. -/
theorem denotes_decimalValue_minus : Denotes ['-', '1', '0'] (-10) :=
  (denotes_decimalValue_iff (show ['-'] = [] ∨ ['-'] = ['+'] ∨ ['-'] = ['-'] from .inr (.inr rfl))
    (show ['1', '0'] ≠ [] by decide)
    (List.forall_mem_cons.mpr ⟨rfl, List.forall_mem_cons.mpr ⟨rfl, by simp⟩⟩)).mpr
    (.inl (by decide))

/-- The token `010` denotes 8, and `08` is an exception of the big integers. -/
theorem not_denotes_leadingZero : parseNumber ['0', '1', '0'] = .ok (some (.int 8)) ∧
    parseNumber ['0', '8'] =
      .error (.standard "Unexpected content found while parsing character string.") ∧
    ¬ Denotes ['0', '1', '0'] (decimalValue [] ['0', '1', '0']) := by
  refine ⟨rfl, rfl, fun h => ?_⟩
  have heq : Value.int 8 = .int (decimalValue [] ['0', '1', '0']) :=
    Option.some.inj (Except.ok.inj ((show parseNumber ['0', '1', '0'] = .ok (some (.int 8)) from
      rfl).symm.trans h.1))
  exact absurd (Value.int.inj heq) (by decide)

end Scheme14
