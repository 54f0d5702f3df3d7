import SecdScheme.Scheme14.Reader
import Mathlib.Data.List.Basic

/-!
# scheme14: the language of the reader

`Reads` says what the reader reads, one rule for each way through its code
that returns a datum. The reader has a bound on its recursion which the
program does not have; here it is shown that the bound is never met, and that
the reader and the rules agree.
-/

namespace Scheme14

/-! ## Separators -/

/-- A comment goes on up to the end of the line. -/
theorem skipFrom_true_cons (c : Char) (t : Text) :
    skipFrom true (c :: t) = skipFrom (c != '\n') t := rfl

/-- White space is skipped. -/
theorem skipFrom_space {c : Char} (h : isSpace c = true) (t : Text) :
    skipFrom false (c :: t) = skipFrom false t := by
  rw [skipFrom, if_pos h]

/-- A character that is no separator is where skipping stops. -/
theorem skipFrom_datum {c : Char} (h : isSpace c = false) (hc : c ≠ ';') (t : Text) :
    skipFrom false (c :: t) = c :: t := by
  rw [skipFrom, if_neg (by rw [h]; exact Bool.false_ne_true), if_neg hc]

@[simp] theorem skipAtmosphere_nil : skipAtmosphere [] = [] := rfl

/-- **Where skipping stops**: at a character that is no separator. -/
theorem skipFrom_eq_cons {b : Bool} {t u : Text} {c : Char} (h : skipFrom b t = c :: u) :
    isSpace c = false ∧ c ≠ ';' := by
  induction t generalizing b with
  | nil => exact absurd h (List.cons_ne_nil c u).symm
  | cons x t ih =>
    cases b with
    | true => exact ih h
    | false =>
      unfold skipFrom at h
      split at h
      · exact ih h
      · split at h
        · exact ih h
        · obtain ⟨rfl, -⟩ := List.cons.inj h
          exact ⟨Bool.eq_false_iff.mpr ‹_›, ‹_›⟩

/-- A text that begins with a datum has nothing to skip. -/
theorem skipAtmosphere_cons {t u : Text} {c : Char} (h : skipAtmosphere t = c :: u) :
    skipAtmosphere (c :: u) = c :: u := by
  obtain ⟨hsp, hc⟩ := skipFrom_eq_cons h
  exact skipFrom_datum hsp hc u

/-- Skipping makes no text longer. -/
theorem length_skipFrom_le (b : Bool) (t : Text) : (skipFrom b t).length ≤ t.length := by
  induction t generalizing b with
  | nil => cases b <;> exact Nat.le_refl _
  | cons x t ih =>
    cases b with
    | true => exact Nat.le_succ_of_le (ih _)
    | false =>
      unfold skipFrom
      split
      · exact Nat.le_succ_of_le (ih _)
      · split
        · exact Nat.le_succ_of_le (ih _)
        · exact Nat.le_refl _

theorem length_skipAtmosphere_le (t : Text) : (skipAtmosphere t).length ≤ t.length :=
  length_skipFrom_le false t

/-! ## The rules -/

/-- Where the reader is: before a datum, in a list, which is empty so far or
not, or in a vector. -/
inductive Place where
  | datum
  | list (first : Bool)
  | elements

/-- Whether a list goes on with a dot. -/
def atDot (t : Text) : Prop := t.head? = some '.' ∧ delimiterNext (t.drop 1) = true

/-- **What the reader reads**: from a place in a text a datum, up to the rest
of the text. In a vector the datum is the vector of the elements left. -/
inductive Reads : Place → Text → Datum → Text → Prop
  | list {t d t'} : Reads (.list true) t d t' → Reads .datum ('(' :: t) d t'
  | string {t s t'} : readString t = .ok (s, t') →
      Reads .datum (dquote :: t) (.string (String.ofList s)) t'
  | abbreviated {c t head u x t'} : abbreviation c t = some (head, u) →
      Reads .datum (skipAtmosphere u) x t' → Reads .datum (c :: t) (.two (.sym head) x) t'
  | vector {t d t'} : Reads .elements t d t' → Reads .datum ('#' :: '(' :: t) d t'
  | bool {t b t'} : boolAfterSharp t = some (b, t') → Reads .datum ('#' :: t) (.atom (.bool b)) t'
  | atom {c t d} : isDelimiter c = false →
      (c = '#' → t.head? ≠ some '(' ∧ boolAfterSharp t = none) →
      atomOf (c :: t.takeWhile (fun c => !isDelimiter c)) = .ok d →
      Reads .datum (c :: t) d (t.dropWhile (fun c => !isDelimiter c))
  | close {first t t'} : skipAtmosphere t = ')' :: t' → Reads (.list first) t .nil t'
  | dot {t u d v t'} : skipAtmosphere t = '.' :: u → delimiterNext u = true →
      Reads .datum (skipAtmosphere u) d v → skipAtmosphere v = ')' :: t' →
      Reads (.list false) t d t'
  | item {first t u x v ls t'} : skipAtmosphere t = u → u.head? ≠ some ')' → ¬ atDot u →
      Reads .datum u x v → Reads (.list false) v ls t' → Reads (.list first) t (.pair x ls) t'
  | noElement {t t'} : skipAtmosphere t = ')' :: t' → Reads .elements t (.vector []) t'
  | element {t u x v xs t'} : skipAtmosphere t = u → u.head? ≠ some ')' →
      Reads .datum u x v → Reads .elements v (.vector xs) t' →
      Reads .elements t (.vector (x :: xs)) t'

/-! ## Results of reading -/

/-- What a returning map did. -/
theorem Except.map_eq_ok {ε α β : Type} {x : Except ε α} {f : α → β} {b : β} :
    x.map f = .ok b ↔ ∃ a, x = .ok a ∧ f a = b := by
  cases x with
  | ok a => simp [Except.map]
  | error e => simp [Except.map]

/-- What a returning sequence did. -/
theorem Except.bind_eq_ok {ε α β : Type} {x : Except ε α} {f : α → Except ε β} {b : β} :
    (x >>= f) = .ok b ↔ ∃ a, x = .ok a ∧ f a = .ok b := by
  cases x with
  | ok a => exact ⟨fun h => ⟨a, rfl, h⟩, fun ⟨_, rfl, h⟩ => h⟩
  | error e => exact ⟨fun h => absurd h (by simp [bind, Except.bind]), fun ⟨_, h, _⟩ => by cases h⟩

theorem readError_ne_ok {α : Type} {message : String} {a : α} : readError message ≠ .ok a := by
  simp [readError]

/-! ## What the reader returns is read by the rules -/

/-- A text that begins with no sign has no abbreviation. -/
theorem abbreviation_eq_none {c : Char} {t : Text} (h : abbreviation c t = none) :
    c ≠ apostrophe ∧ c ≠ backquote ∧ c ≠ ',' := by
  unfold abbreviation at h
  split at h
  · exact absurd h (Option.some_ne_none _)
  · split at h
    · exact absurd h (Option.some_ne_none _)
    · split at h
      · split at h <;> exact absurd h (Option.some_ne_none _)
      · exact ⟨‹_›, ‹_›, ‹_›⟩

/-- A token that starts with no delimiter is read up to the next one. -/
theorem readAtom_cons {c : Char} (hc : isDelimiter c = false) (t : Text) :
    readAtom (c :: t) = (atomOf (c :: t.takeWhile (fun c => !isDelimiter c))).map
      fun d => (d, t.dropWhile (fun c => !isDelimiter c)) := by
  unfold readAtom
  rw [List.takeWhile_cons_of_pos (by rw [hc]; rfl), List.dropWhile_cons_of_pos (by rw [hc]; rfl)]
  rw [if_neg (List.cons_ne_nil _ _)]
  cases atomOf (c :: t.takeWhile fun c => !isDelimiter c) <;> rfl

/-- A character that none of the branches takes starts a token. -/
theorem isDelimiter_eq_false {c : Char} (hsp : isSpace c = false) (hsemi : c ≠ ';')
    (hl : c ≠ '(') (hr : c ≠ ')') (hq : c ≠ dquote)
    (ha : c ≠ apostrophe ∧ c ≠ backquote ∧ c ≠ ',') : isDelimiter c = false := by
  unfold isDelimiter
  simp only [hsp, beq_eq_false_iff_ne.mpr hl, beq_eq_false_iff_ne.mpr hr,
    beq_eq_false_iff_ne.mpr ha.1, beq_eq_false_iff_ne.mpr ha.2.1, beq_eq_false_iff_ne.mpr ha.2.2,
    beq_eq_false_iff_ne.mpr hq, beq_eq_false_iff_ne.mpr hsemi, Bool.or_false]

/-- What is shown of the four functions together, by induction on the bound. -/
structure ReadsAt (fuel : ℕ) : Prop where
  expr {t d t'} : readExpr fuel t = .ok (some (d, t')) → Reads .datum (skipAtmosphere t) d t'
  datum {c t d t'} : isSpace c = false ∧ c ≠ ';' → readDatum fuel c t = .ok (d, t') →
    Reads .datum (c :: t) d t'
  list {first t d t'} : readList fuel first t = .ok (d, t') → Reads (.list first) t d t'
  vector {t xs t'} : readVector fuel t = .ok (xs, t') → Reads .elements t (.vector xs) t'

/-- One turn of the reader before a datum. -/
theorem readsAt_datum {fuel : ℕ} (ih : ReadsAt fuel) {c : Char} {t t' : Text} {d : Datum}
    (hc : isSpace c = false ∧ c ≠ ';') (h : readDatum (fuel + 1) c t = .ok (d, t')) :
    Reads .datum (c :: t) d t' := by
  unfold readDatum at h
  split at h
  · rename_i hl
    subst hl
    exact .list (ih.list h)
  rename_i hl
  split at h
  · exact absurd h readError_ne_ok
  rename_i hr
  split at h
  · rename_i hq
    subst hq
    obtain ⟨⟨s, u⟩, hs, hd⟩ := Except.map_eq_ok.mp h
    obtain ⟨rfl, rfl⟩ := Prod.mk.inj hd
    exact .string hs
  rename_i hq
  cases hab : abbreviation c t with
  | some p =>
    obtain ⟨head, u⟩ := p
    rw [hab] at h
    obtain ⟨r, hr, h⟩ := Except.bind_eq_ok.mp h
    cases r with
    | none => exact absurd h readError_ne_ok
    | some r =>
      obtain ⟨x, v⟩ := r
      obtain ⟨rfl, rfl⟩ := Prod.mk.inj (Except.ok.inj h)
      exact .abbreviated hab (ih.expr hr)
  | none =>
    rw [hab] at h
    have hdel := isDelimiter_eq_false hc.1 hc.2 hl hr hq (abbreviation_eq_none hab)
    dsimp only at h
    split at h
    · rename_i hv
      obtain ⟨rfl, hv⟩ := hv
      obtain ⟨u, rfl⟩ := List.head?_eq_some_iff.mp hv
      obtain ⟨⟨xs, v⟩, hxs, hd⟩ := Except.map_eq_ok.mp h
      obtain ⟨rfl, rfl⟩ := Prod.mk.inj hd
      exact .vector (ih.vector hxs)
    · rename_i hv
      split at h
      · rename_i b u hb
        obtain ⟨rfl, rfl⟩ := Prod.mk.inj (Except.ok.inj h)
        split at hb
        · rename_i hsharp
          subst hsharp
          exact .bool hb
        · exact absurd hb (Option.some_ne_none _).symm
      · rename_i hb
        rw [readAtom_cons hdel] at h
        obtain ⟨a, ha, hd⟩ := Except.map_eq_ok.mp h
        obtain ⟨rfl, rfl⟩ := Prod.mk.inj hd
        refine .atom hdel (fun hsharp => ⟨fun hn => hv ⟨hsharp, hn⟩, ?_⟩) ha
        rwa [if_pos hsharp] at hb

/-- One turn in a list: it ends, or a dot comes, or an element. -/
theorem readsAt_list {fuel : ℕ} (ih : ReadsAt fuel) {first : Bool} {t t' : Text} {d : Datum}
    (h : readList (fuel + 1) first t = .ok (d, t')) : Reads (.list first) t d t' := by
  unfold readList at h
  cases hskip : skipAtmosphere t with
  | nil => rw [hskip] at h; exact absurd h readError_ne_ok
  | cons c u =>
    rw [hskip] at h
    dsimp only at h
    have hu := skipAtmosphere_cons hskip
    split at h
    · rename_i hc
      obtain ⟨rfl, rfl⟩ := Prod.mk.inj (Except.ok.inj h)
      exact .close (by rw [hskip, hc])
    rename_i hc
    split at h
    · -- the rest of a dotted list
      rename_i hdot
      obtain ⟨rfl, hnext⟩ := hdot
      split at h
      · exact absurd h readError_ne_ok
      · rename_i hfirst
        obtain ⟨r, hr, h⟩ := Except.bind_eq_ok.mp h
        cases r with
        | none => exact absurd h readError_ne_ok
        | some r =>
          obtain ⟨x, v⟩ := r
          dsimp only at h
          cases hv : skipAtmosphere v with
          | nil => rw [hv] at h; exact absurd h readError_ne_ok
          | cons c' w =>
            rw [hv] at h
            dsimp only at h
            split at h
            · rename_i hclose
              obtain ⟨rfl, rfl⟩ := Prod.mk.inj (Except.ok.inj h)
              rw [Bool.eq_false_iff.mpr hfirst]
              exact .dot hskip hnext (ih.expr hr) (by rw [hv, hclose])
            · exact absurd h readError_ne_ok
    · rename_i hdot
      obtain ⟨r, hr, h⟩ := Except.bind_eq_ok.mp h
      cases r with
      | none => exact absurd h readError_ne_ok
      | some r =>
        obtain ⟨x, v⟩ := r
        obtain ⟨⟨ls, w⟩, hls, h⟩ := Except.bind_eq_ok.mp h
        obtain ⟨rfl, rfl⟩ := Prod.mk.inj (Except.ok.inj h)
        refine .item hskip (fun h => hc (Option.some.inj h)) (fun h => hdot ?_) ?_ (ih.list hls)
        · exact ⟨Option.some.inj h.1, h.2⟩
        · rw [← hu]
          exact ih.expr hr

/-- One turn in a vector. -/
theorem readsAt_vector {fuel : ℕ} (ih : ReadsAt fuel) {t t' : Text} {xs : List Datum}
    (h : readVector (fuel + 1) t = .ok (xs, t')) : Reads .elements t (.vector xs) t' := by
  unfold readVector at h
  cases hskip : skipAtmosphere t with
  | nil => rw [hskip] at h; exact absurd h readError_ne_ok
  | cons c u =>
    rw [hskip] at h
    dsimp only at h
    split at h
    · rename_i hc
      obtain ⟨rfl, rfl⟩ := Prod.mk.inj (Except.ok.inj h)
      exact .noElement (by rw [hskip, hc])
    · rename_i hc
      obtain ⟨r, hr, h⟩ := Except.bind_eq_ok.mp h
      cases r with
      | none => exact absurd h readError_ne_ok
      | some r =>
        obtain ⟨x, v⟩ := r
        obtain ⟨⟨ls, w⟩, hls, h⟩ := Except.bind_eq_ok.mp h
        obtain ⟨rfl, rfl⟩ := Prod.mk.inj (Except.ok.inj h)
        refine .element hskip (fun h => hc (Option.some.inj h)) ?_ (ih.vector hls)
        rw [← skipAtmosphere_cons hskip]
        exact ih.expr hr

/-- **What the reader returns is read by the rules**, by induction on the bound. -/
theorem readsAt (fuel : ℕ) : ReadsAt fuel := by
  induction fuel with
  | zero =>
    constructor <;> intros
    all_goals rename_i h; exact absurd h (by simp [readExpr, readDatum, readList, readVector])
  | succ fuel ih =>
    refine ⟨fun {t d t'} h => ?_, readsAt_datum ih, readsAt_list ih, readsAt_vector ih⟩
    unfold readExpr at h
    cases hskip : skipAtmosphere t with
    | nil => rw [hskip] at h; exact absurd h (by simp)
    | cons c u =>
      rw [hskip] at h
      obtain ⟨r, hr, hsome⟩ := Except.map_eq_ok.mp h
      obtain rfl := Option.some.inj hsome
      exact ih.datum (skipFrom_eq_cons hskip) hr

/-! ## How much of the text is read -/

/-- A string that is read is shorter than the text it was in. -/
theorem length_readString {t t' : Text} {s : Text} (h : readString t = .ok (s, t')) :
    t'.length < t.length := by
  fun_induction readString t generalizing s with
  | case1 => exact absurd h readError_ne_ok
  | case2 t =>
    obtain ⟨-, rfl⟩ := Prod.mk.inj (Except.ok.inj h)
    exact Nat.lt_succ_self _
  | case3 => exact absurd h readError_ne_ok
  | case4 n t _ ih =>
    obtain ⟨r, hr, h⟩ := Except.bind_eq_ok.mp h
    obtain ⟨-, rfl⟩ := Prod.mk.inj (Except.ok.inj h)
    have := ih hr
    show r.2.length < t.length + 1 + 1
    omega
  | case5 c t _ _ ih =>
    obtain ⟨r, hr, h⟩ := Except.bind_eq_ok.mp h
    obtain ⟨-, rfl⟩ := Prod.mk.inj (Except.ok.inj h)
    exact Nat.lt_succ_of_lt (ih hr)

/-- An abbreviation makes no text longer. -/
theorem length_abbreviation {c : Char} {t u : Text} {head : String}
    (h : abbreviation c t = some (head, u)) : u.length ≤ t.length := by
  unfold abbreviation at h
  repeat' split at h
  all_goals first
    | exact absurd h (Option.some_ne_none _).symm
    | (obtain ⟨-, rfl⟩ := Prod.mk.inj (Option.some.inj h)
       first | exact Nat.le_refl _ | exact List.length_drop ▸ Nat.sub_le _ _)

/-- A boolean takes a character. -/
theorem length_boolAfterSharp {t t' : Text} {b : Bool} (h : boolAfterSharp t = some (b, t')) :
    t'.length < t.length := by
  unfold boolAfterSharp at h
  cases t with
  | nil => exact absurd h (Option.some_ne_none _).symm
  | cons c t =>
    dsimp only at h
    repeat' split at h
    all_goals first
      | exact absurd h (Option.some_ne_none _).symm
      | (obtain ⟨-, rfl⟩ := Prod.mk.inj (Option.some.inj h)
         exact Nat.lt_succ_self _)

/-- What comes behind the next character is shorter. -/
theorem length_lt_of_skip {t u : Text} {c : Char} (h : skipAtmosphere t = c :: u) :
    u.length < t.length := by
  have := length_skipAtmosphere_le t
  rw [h] at this
  exact this

/-- **Reading takes something** from the text. -/
theorem Reads.length_lt {p : Place} {t t' : Text} {d : Datum} (h : Reads p t d t') :
    t'.length < t.length := by
  induction h with
  | list _ ih => exact Nat.lt_succ_of_lt ih
  | string hs => exact Nat.lt_succ_of_lt (length_readString hs)
  | @abbreviated c t head u x t' hab _ ih =>
    have h1 := length_abbreviation hab
    have h2 := length_skipAtmosphere_le u
    show t'.length < t.length + 1
    omega
  | vector _ ih => exact Nat.lt_succ_of_lt (Nat.lt_succ_of_lt ih)
  | bool hb => exact Nat.lt_succ_of_lt (length_boolAfterSharp hb)
  | atom => exact Nat.lt_succ_of_le (List.dropWhile_suffix _).length_le
  | close hskip => exact length_lt_of_skip hskip
  | @dot t u d v t' hskip _ _ hclose ih =>
    have h1 := length_lt_of_skip hskip
    have h2 := length_skipAtmosphere_le u
    have h3 := length_lt_of_skip hclose
    omega
  | @item first t u x v ls t' hskip _ _ _ _ ih ih' =>
    have h1 := length_skipAtmosphere_le t
    rw [hskip] at h1
    omega
  | noElement hskip => exact length_lt_of_skip hskip
  | @element t u x v xs t' hskip _ _ _ ih ih' =>
    have h1 := length_skipAtmosphere_le t
    rw [hskip] at h1
    omega

/-! ## What the rules read is returned by the reader -/

/-- What the reader returns at a place, with enough room. -/
def Place.Returns : Place → Text → Datum → Text → Prop
  | .datum, t, d, t' => ∀ c u, t = c :: u → ∀ fuel, 3 * t.length ≤ fuel →
      readDatum fuel c u = .ok (d, t')
  | .list first, t, d, t' => ∀ fuel, 3 * t.length + 2 ≤ fuel →
      readList fuel first t = .ok (d, t')
  | .elements, t, d, t' => ∀ xs, d = .vector xs → ∀ fuel, 3 * t.length + 2 ≤ fuel →
      readVector fuel t = .ok (xs, t')

/-- What is skipped costs one turn. -/
theorem readExpr_of_returns {t t' : Text} {d : Datum} (hne : skipAtmosphere t ≠ [])
    (h : Place.datum.Returns (skipAtmosphere t) d t') {fuel : ℕ} (hf : 3 * t.length + 1 ≤ fuel) :
    readExpr fuel t = .ok (some (d, t')) := by
  obtain ⟨fuel, rfl⟩ : ∃ n, fuel = n + 1 := ⟨fuel - 1, by omega⟩
  obtain ⟨c, u, hcu⟩ := List.exists_cons_of_ne_nil hne
  have hlen := length_skipAtmosphere_le t
  unfold readExpr
  rw [hcu]
  show (readDatum fuel c u).map some = _
  rw [h c u hcu fuel (by omega)]
  rfl

/-- Nothing is read of no text. -/
theorem Reads.ne_nil {t t' : Text} {d : Datum} (h : Reads .datum t d t') : t ≠ [] := by
  cases h <;> exact List.cons_ne_nil _ _

/-- What begins an abbreviation begins nothing else. -/
theorem abbreviation_ne {c : Char} {t : Text} {r : String × Text}
    (h : abbreviation c t = some r) : c ≠ '(' ∧ c ≠ ')' ∧ c ≠ dquote := by
  have hnone : ∀ {c'}, c = c' → abbreviation c' t ≠ none := by
    rintro _ rfl
    rw [h]
    exact Option.some_ne_none r
  exact ⟨fun hc => hnone hc rfl, fun hc => hnone hc rfl, fun hc => hnone hc rfl⟩

/-- What begins a token begins nothing else. -/
theorem isDelimiter_ne {c : Char} (h : isDelimiter c = false) :
    c ≠ '(' ∧ c ≠ ')' ∧ c ≠ dquote ∧ c ≠ apostrophe ∧ c ≠ backquote ∧ c ≠ ',' := by
  refine ⟨?_, ?_, ?_, ?_, ?_, ?_⟩ <;> rintro rfl <;> exact absurd h (by decide)

/-- One turn of the reader before a datum that begins with `c`. -/
theorem Place.returns_datum {c : Char} {t t' : Text} {d : Datum}
    (h : ∀ fuel, 3 * t.length + 2 ≤ fuel → readDatum (fuel + 1) c t = .ok (d, t')) :
    Place.datum.Returns (c :: t) d t' := by
  intro c' u hcu fuel hf
  obtain ⟨rfl, rfl⟩ := List.cons.inj hcu
  rw [List.length_cons] at hf
  obtain ⟨fuel, rfl⟩ : ∃ n, fuel = n + 1 := ⟨fuel - 1, by omega⟩
  exact h fuel (by omega)

/-- The datum that comes next, behind what is skipped. -/
theorem Reads.readExpr_eq {t u u' : Text} {d : Datum} (hskip : skipAtmosphere t = u)
    (hd : Reads .datum u d u') (ih : Place.datum.Returns u d u') {fuel : ℕ}
    (hf : 3 * u.length + 1 ≤ fuel) : readExpr fuel u = .ok (some (d, u')) := by
  obtain ⟨c, w, rfl⟩ := List.exists_cons_of_ne_nil hd.ne_nil
  have hu := skipAtmosphere_cons hskip
  refine readExpr_of_returns ?_ ?_ hf
  · rw [hu]
    exact List.cons_ne_nil c w
  · rw [hu]
    exact ih

/-! ### Data -/

/-- A parenthesis opens a list. -/
theorem returns_list {t t' : Text} {d : Datum} (ih : (Place.list true).Returns t d t') :
    Place.datum.Returns ('(' :: t) d t' := by
  refine Place.returns_datum fun fuel hf => ?_
  unfold readDatum
  rw [if_pos rfl]
  exact ih fuel hf

/-- A quote opens a string. -/
theorem returns_string {t t' s : Text} (hs : readString t = .ok (s, t')) :
    Place.datum.Returns (dquote :: t) (.string (String.ofList s)) t' := by
  refine Place.returns_datum fun fuel hf => ?_
  unfold readDatum
  rw [if_neg (by decide), if_neg (by decide), if_pos rfl, hs]
  rfl

/-- A sign stands for a list of two. -/
theorem returns_abbreviated {c : Char} {t u t' : Text} {head : String} {x : Datum}
    (hab : abbreviation c t = some (head, u)) (hx : Reads .datum (skipAtmosphere u) x t')
    (ih : Place.datum.Returns (skipAtmosphere u) x t') :
    Place.datum.Returns (c :: t) (.two (.sym head) x) t' := by
  refine Place.returns_datum fun fuel hf => ?_
  have hlen := length_abbreviation hab
  obtain ⟨hl, hr, hq⟩ := abbreviation_ne hab
  unfold readDatum
  rw [if_neg hl, if_neg hr, if_neg hq, hab]
  dsimp only
  rw [readExpr_of_returns hx.ne_nil ih (by omega)]
  rfl

/-- A sharp before a parenthesis opens a vector. -/
theorem returns_vector {t t' : Text} {d : Datum} (hd : Reads .elements t d t')
    (ih : Place.elements.Returns t d t') : Place.datum.Returns ('#' :: '(' :: t) d t' := by
  refine Place.returns_datum fun fuel hf => ?_
  obtain ⟨xs, rfl⟩ : ∃ xs, d = .vector xs := by cases hd <;> exact ⟨_, rfl⟩
  rw [List.length_cons] at hf
  unfold readDatum
  rw [if_neg (by decide), if_neg (by decide), if_neg (by decide),
    show abbreviation '#' ('(' :: t) = none from rfl]
  dsimp only
  rw [if_pos ⟨rfl, rfl⟩, List.drop_one, List.tail_cons, ih xs rfl fuel (by omega)]
  rfl

/-- What is a boolean is no vector. -/
theorem boolAfterSharp_head {t t' : Text} {b : Bool} (h : boolAfterSharp t = some (b, t')) :
    t.head? ≠ some '(' := by
  intro hv
  obtain ⟨u, rfl⟩ := List.head?_eq_some_iff.mp hv
  unfold boolAfterSharp at h
  dsimp only at h
  split at h
  · exact absurd h (Option.some_ne_none _).symm
  · exact absurd (show (none : Option (Bool × Text)) = some (b, t') from h)
      (Option.some_ne_none _).symm

/-- A sharp before a letter is a boolean. -/
theorem returns_bool {t t' : Text} {b : Bool} (hb : boolAfterSharp t = some (b, t')) :
    Place.datum.Returns ('#' :: t) (.atom (.bool b)) t' := by
  refine Place.returns_datum fun fuel hf => ?_
  unfold readDatum
  rw [if_neg (by decide), if_neg (by decide), if_neg (by decide),
    show abbreviation '#' t = none from rfl]
  dsimp only
  rw [if_neg (fun h => boolAfterSharp_head hb h.2), if_pos rfl, hb]

/-- **Anything else is a token**, up to the next delimiter. -/
theorem returns_atom {c : Char} {t : Text} {d : Datum} (hc : isDelimiter c = false)
    (hsharp : c = '#' → t.head? ≠ some '(' ∧ boolAfterSharp t = none)
    (hd : atomOf (c :: t.takeWhile (fun c => !isDelimiter c)) = .ok d) :
    Place.datum.Returns (c :: t) d (t.dropWhile (fun c => !isDelimiter c)) := by
  refine Place.returns_datum fun fuel hf => ?_
  obtain ⟨hl, hr, hq, ha, hb, hcomma⟩ := isDelimiter_ne hc
  have hab : abbreviation c t = none := by
    unfold abbreviation
    rw [if_neg ha, if_neg hb, if_neg hcomma]
  have hbool : (if c = '#' then boolAfterSharp t else none) = none := by
    split
    · exact (hsharp ‹_›).2
    · rfl
  unfold readDatum
  rw [if_neg hl, if_neg hr, if_neg hq, hab]
  dsimp only
  rw [if_neg (fun h => (hsharp h.1).1 h.2), hbool]
  dsimp only
  rw [readAtom_cons hc, hd]
  rfl

/-! ### Lists and vectors -/

/-- A list ends. -/
theorem returns_close {first : Bool} {t t' : Text} (hskip : skipAtmosphere t = ')' :: t') :
    (Place.list first).Returns t .nil t' := by
  intro fuel hf
  obtain ⟨fuel, rfl⟩ : ∃ n, fuel = n + 1 := ⟨fuel - 1, by omega⟩
  unfold readList
  rw [hskip]
  exact if_pos rfl

/-- A dotted list has one datum more, and its parenthesis. -/
theorem returns_dot {t u v t' : Text} {d : Datum} (hskip : skipAtmosphere t = '.' :: u)
    (hnext : delimiterNext u = true) (hd : Reads .datum (skipAtmosphere u) d v)
    (hclose : skipAtmosphere v = ')' :: t') (ih : Place.datum.Returns (skipAtmosphere u) d v) :
    (Place.list false).Returns t d t' := by
  intro fuel hf
  obtain ⟨fuel, rfl⟩ : ∃ n, fuel = n + 1 := ⟨fuel - 1, by omega⟩
  have hlen := length_lt_of_skip hskip
  unfold readList
  rw [hskip]
  dsimp only
  rw [if_neg (by decide), if_pos ⟨rfl, hnext⟩, if_neg Bool.false_ne_true,
    readExpr_of_returns hd.ne_nil ih (by omega)]
  simp only [bind, Except.bind, hclose]
  rfl

/-- **An element of a list**: the reader goes on behind it. -/
theorem returns_item {first : Bool} {t u v t' : Text} {x ls : Datum}
    (hskip : skipAtmosphere t = u) (hclose : u.head? ≠ some ')') (hdot : ¬ atDot u)
    (hx : Reads .datum u x v) (ih : Place.datum.Returns u x v)
    (ih' : (Place.list false).Returns v ls t') :
    (Place.list first).Returns t (.pair x ls) t' := by
  intro fuel hf
  obtain ⟨fuel, rfl⟩ : ∃ n, fuel = n + 1 := ⟨fuel - 1, by omega⟩
  have hlen := hskip ▸ length_skipAtmosphere_le t
  have hlen' := hx.length_lt
  have hexpr := hx.readExpr_eq hskip ih (show 3 * u.length + 1 ≤ fuel by omega)
  obtain ⟨c, w, rfl⟩ := List.exists_cons_of_ne_nil hx.ne_nil
  unfold readList
  rw [hskip]
  dsimp only
  rw [if_neg (fun h => hclose (by rw [h]; rfl)),
    if_neg (fun h => hdot ⟨by rw [h.1]; rfl, h.2⟩), hexpr]
  show (do let r ← readList fuel false v; Except.ok (Datum.pair x r.1, r.2)) = _
  rw [ih' fuel (by omega)]
  rfl

/-- A vector ends. -/
theorem returns_noElement {t t' : Text} (hskip : skipAtmosphere t = ')' :: t') :
    Place.elements.Returns t (.vector []) t' := by
  intro xs hxs fuel hf
  obtain ⟨fuel, rfl⟩ : ∃ n, fuel = n + 1 := ⟨fuel - 1, by omega⟩
  obtain rfl := Datum.vector.inj hxs
  unfold readVector
  rw [hskip]
  exact if_pos rfl

/-- An element of a vector. -/
theorem returns_element {t u v t' : Text} {x : Datum} {xs : List Datum}
    (hskip : skipAtmosphere t = u) (hclose : u.head? ≠ some ')') (hx : Reads .datum u x v)
    (ih : Place.datum.Returns u x v) (ih' : Place.elements.Returns v (.vector xs) t') :
    Place.elements.Returns t (.vector (x :: xs)) t' := by
  intro ys hys fuel hf
  obtain rfl := Datum.vector.inj hys
  obtain ⟨fuel, rfl⟩ : ∃ n, fuel = n + 1 := ⟨fuel - 1, by omega⟩
  have hlen := hskip ▸ length_skipAtmosphere_le t
  have hlen' := hx.length_lt
  have hexpr := hx.readExpr_eq hskip ih (show 3 * u.length + 1 ≤ fuel by omega)
  obtain ⟨c, w, rfl⟩ := List.exists_cons_of_ne_nil hx.ne_nil
  unfold readVector
  rw [hskip]
  dsimp only
  rw [if_neg (fun h => hclose (by rw [h]; rfl)), hexpr]
  show (do let r ← readVector fuel v; Except.ok (x :: r.1, r.2)) = _
  rw [ih' xs rfl fuel (by omega)]
  rfl

/-- **By induction on the rules**, each of which is one turn of the reader. -/
theorem Reads.returns {p : Place} {t t' : Text} {d : Datum} (h : Reads p t d t') :
    p.Returns t d t' := by
  induction h with
  | list _ ih => exact returns_list ih
  | string hs => exact returns_string hs
  | abbreviated hab hx ih => exact returns_abbreviated hab hx ih
  | vector hd ih => exact returns_vector hd ih
  | bool hb => exact returns_bool hb
  | atom hc hsharp hd => exact returns_atom hc hsharp hd
  | close hskip => exact returns_close hskip
  | dot hskip hnext hd hclose ih => exact returns_dot hskip hnext hd hclose ih
  | item hskip hclose hdot hx _ ih ih' => exact returns_item hskip hclose hdot hx ih ih'
  | noElement hskip => exact returns_noElement hskip
  | element hskip hclose hx _ ih ih' => exact returns_element hskip hclose hx ih ih'

/-- **The reader reads what the rules say.** -/
theorem readOne_eq_some_iff {t t' : Text} {d : Datum} :
    readOne t = .ok (some (d, t')) ↔ Reads .datum (skipAtmosphere t) d t' :=
  ⟨fun h => (readsAt _).expr h,
    fun h => readExpr_of_returns h.ne_nil h.returns (Nat.le_refl _)⟩

/-! ## The bound of the recursion -/

/-- A result that is not for want of room. -/
def Finished {α : Type} (x : Except ReadError α) : Prop := x ≠ .error .outOfFuel

/-- A map finishes where its argument does. -/
theorem Finished.map {α β : Type} {x : Except ReadError α} (h : Finished x) (f : α → β) :
    Finished (x.map f) := by
  cases x with
  | ok a => exact fun h => by cases h
  | error e => exact fun he => h (congrArg Except.error (Except.error.inj he))

/-- A sequence finishes where both its parts do. -/
theorem Finished.bind {α β : Type} {x : Except ReadError α} {f : α → Except ReadError β}
    (h : Finished x) (hf : ∀ a, x = .ok a → Finished (f a)) : Finished (x >>= f) := by
  cases x with
  | ok a => exact hf a rfl
  | error e => exact fun he => h (congrArg Except.error (Except.error.inj he))

theorem finished_ok {α : Type} {a : α} : Finished (.ok a) := fun h => by cases h

theorem finished_readError {α : Type} {message : String} :
    Finished (readError message : Except ReadError α) := fun h => by cases h

theorem finished_readString (t : Text) : Finished (readString t) := by
  fun_induction readString t with
  | case1 => exact finished_readError
  | case2 => exact finished_ok
  | case3 => exact finished_readError
  | case4 n t _ ih => exact ih.bind fun _ _ => finished_ok
  | case5 c t _ _ ih => exact ih.bind fun _ _ => finished_ok

theorem finished_bigIntMagnitude (t : Text) : Finished (bigIntMagnitude t) := by
  unfold bigIntMagnitude
  cases t with
  | nil => exact finished_ok
  | cons c t =>
    dsimp only
    split
    · split
      · exact finished_ok
      · exact fun h => by cases h
    · exact finished_ok

theorem finished_makeIntFromText (t : Text) : Finished (makeIntFromText t) := by
  unfold makeIntFromText
  cases t with
  | nil => exact finished_ok
  | cons c t =>
    dsimp only
    split <;> exact (finished_bigIntMagnitude _).map _

theorem finished_parseNumber (t : Text) : Finished (parseNumber t) := by
  unfold parseNumber
  dsimp only
  repeat' split
  all_goals first
    | exact finished_ok
    | exact (finished_makeIntFromText _).map _

theorem finished_readAtom (t : Text) : Finished (readAtom t) := by
  unfold readAtom
  dsimp only
  split
  · exact finished_readError
  · refine Finished.bind ?_ fun _ _ => finished_ok
    unfold atomOf
    repeat' split
    all_goals first
      | exact finished_ok
      | exact (finished_parseNumber _).map _

/-- The four functions have room enough. -/
structure FinishesAt (fuel : ℕ) : Prop where
  expr {t} : 3 * t.length + 1 ≤ fuel → Finished (readExpr fuel t)
  datum {c t} : 3 * t.length + 3 ≤ fuel → Finished (readDatum fuel c t)
  list {first t} : 3 * t.length + 2 ≤ fuel → Finished (readList fuel first t)
  vector {t} : 3 * t.length + 2 ≤ fuel → Finished (readVector fuel t)

/-- What is left after a datum is shorter. -/
theorem length_of_readExpr {fuel : ℕ} {t t' : Text} {d : Datum}
    (h : readExpr fuel t = .ok (some (d, t'))) : t'.length < t.length :=
  Nat.lt_of_lt_of_le ((readsAt fuel).expr h).length_lt (length_skipAtmosphere_le t)

/-- With room for the text a datum finishes. -/
theorem finishesAt_datum {fuel : ℕ} (ih : FinishesAt fuel) {c : Char} {t : Text}
    (hf : 3 * t.length + 3 ≤ fuel + 1) : Finished (readDatum (fuel + 1) c t) := by
  unfold readDatum
  split
  · exact ih.list (by omega)
  split
  · exact finished_readError
  split
  · exact (finished_readString t).map _
  cases hab : abbreviation c t with
  | some p =>
    obtain ⟨head, u⟩ := p
    have hlen := length_abbreviation hab
    refine (ih.expr (by omega)).bind fun r _ => ?_
    cases r with
    | none => exact finished_readError
    | some r => exact finished_ok
  | none =>
    dsimp only
    split
    · refine Finished.map (ih.vector ?_) _
      rw [List.length_drop]
      omega
    · split
      · exact finished_ok
      · exact finished_readAtom _

/-- So does a list. -/
theorem finishesAt_list {fuel : ℕ} (ih : FinishesAt fuel) {first : Bool} {t : Text}
    (hf : 3 * t.length + 2 ≤ fuel + 1) : Finished (readList (fuel + 1) first t) := by
  unfold readList
  cases hskip : skipAtmosphere t with
  | nil => exact finished_readError
  | cons c u =>
    have hlen := length_lt_of_skip hskip
    dsimp only
    split
    · exact finished_ok
    split
    · split
      · exact finished_readError
      · refine (ih.expr (by omega)).bind fun r _ => ?_
        cases r with
        | none => exact finished_readError
        | some r =>
          dsimp only
          split
          · exact finished_readError
          · split
            · exact finished_ok
            · exact finished_readError
    · refine (ih.expr (by simp only [List.length_cons]; omega)).bind fun r hr => ?_
      cases r with
      | none => exact finished_readError
      | some r =>
        have hlen' := length_of_readExpr hr
        simp only [List.length_cons] at hlen'
        exact (ih.list (by omega)).bind fun _ _ => finished_ok

/-- So does a vector. -/
theorem finishesAt_vector {fuel : ℕ} (ih : FinishesAt fuel) {t : Text}
    (hf : 3 * t.length + 2 ≤ fuel + 1) : Finished (readVector (fuel + 1) t) := by
  unfold readVector
  cases hskip : skipAtmosphere t with
  | nil => exact finished_readError
  | cons c u =>
    have hlen := length_lt_of_skip hskip
    dsimp only
    split
    · exact finished_ok
    · refine (ih.expr (by simp only [List.length_cons]; omega)).bind fun r hr => ?_
      cases r with
      | none => exact finished_readError
      | some r =>
        have hlen' := length_of_readExpr hr
        simp only [List.length_cons] at hlen'
        exact (ih.vector (by omega)).bind fun _ _ => finished_ok

/-- **The bound is never met**: every turn takes a character off the text. -/
theorem finishesAt (fuel : ℕ) : FinishesAt fuel := by
  induction fuel with
  | zero => constructor <;> intros <;> omega
  | succ fuel ih =>
    refine ⟨fun {t} hf => ?_, finishesAt_datum ih, finishesAt_list ih, finishesAt_vector ih⟩
    unfold readExpr
    cases hskip : skipAtmosphere t with
    | nil => exact finished_ok
    | cons c u =>
      have hlen := length_lt_of_skip hskip
      exact (ih.datum (by omega)).map _

/-- **The reader has room enough** for every text. -/
theorem finished_readOne (t : Text) : Finished (readOne t) :=
  (finishesAt _).expr (Nat.le_refl _)

/-- A file finishes, each of whose data takes a character. -/
theorem finished_readAllFrom {fuel : ℕ} {t : Text} (hf : t.length < fuel) :
    Finished (readAllFrom fuel t) := by
  induction fuel generalizing t with
  | zero => exact absurd hf (Nat.not_lt_zero _)
  | succ fuel ih =>
    unfold readAllFrom
    refine (finished_readOne t).bind fun r hr => ?_
    cases r with
    | none => exact finished_ok
    | some r =>
      have hlen := length_of_readExpr hr
      exact (ih (by omega)).bind fun _ _ => finished_ok

/-- **All data of a text are read**, or there is an error in it. -/
theorem finished_readAll (t : Text) : Finished (readAll t) :=
  finished_readAllFrom (Nat.lt_succ_self _)

/-! ## The data of a text -/

/-- The data of a text, one after the other. -/
inductive ReadsAll : Text → List Datum → Prop
  | nil {t} : skipAtmosphere t = [] → ReadsAll t []
  | cons {t d t' ds} : Reads .datum (skipAtmosphere t) d t' → ReadsAll t' ds →
      ReadsAll t (d :: ds)

/-! ## Nothing to read -/

/-- **The reader reads nothing** from a text without a datum, and only
there. -/
theorem readOne_eq_none_iff (t : Text) : readOne t = .ok none ↔ skipAtmosphere t = [] := by
  unfold readOne readFuel readExpr
  cases skipAtmosphere t with
  | nil => exact ⟨fun _ => rfl, fun _ => rfl⟩
  | cons c u =>
    refine ⟨fun h => ?_, fun h => absurd h (List.cons_ne_nil c u)⟩
    obtain ⟨r, -, hr⟩ := Except.map_eq_ok.mp h
    exact absurd hr (Option.some_ne_none r)

/-- **No datum is read** exactly of a text with separators only. -/
theorem readAll_eq_nil_iff (t : Text) : readAll t = .ok [] ↔ skipAtmosphere t = [] := by
  rw [← readOne_eq_none_iff]
  unfold readAll readAllFrom
  constructor
  · intro h
    cases hone : readOne t with
    | error e => rw [hone] at h; exact absurd h (by simp [bind, Except.bind])
    | ok r =>
      rw [hone] at h
      cases r with
      | none => rfl
      | some r =>
        obtain ⟨ds, -, hds⟩ := Except.map_eq_ok.mp h
        exact absurd hds (List.cons_ne_nil _ _)
  · intro h
    rw [h]
    rfl

/-- **`read_all`** returns the data of a text. -/
theorem readsAll_of_readAllFrom {fuel : ℕ} {t : Text} {ds : List Datum}
    (h : readAllFrom fuel t = .ok ds) : ReadsAll t ds := by
  induction fuel generalizing t ds with
  | zero => exact absurd h (by simp [readAllFrom])
  | succ fuel ih =>
    unfold readAllFrom at h
    obtain ⟨r, hr, h⟩ := Except.bind_eq_ok.mp h
    cases r with
    | none =>
      obtain rfl := Except.ok.inj h
      exact .nil ((readOne_eq_none_iff t).mp hr)
    | some r =>
      obtain ⟨d, t'⟩ := r
      obtain ⟨ds', hds, h⟩ := Except.bind_eq_ok.mp h
      obtain rfl := Except.ok.inj h
      exact .cons (readOne_eq_some_iff.mp hr) (ih hds)

end Scheme14
