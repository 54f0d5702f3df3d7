import SecdScheme.Scheme14.Grammar

/-!
# scheme14: the text of a datum

`Lex` goes through a text character by character and keeps what the reader
knows of it: whether it is in a comment or in a string, and how many lists
and vectors are open. It also keeps whether a quote that opens or closes a
string came right after a backslash, which matters to those who only look
back one character.

A datum has a piece of the text to itself: the piece comes back to the depth
it started from, stays above it meanwhile, and is read the same way wherever
it stands.
-/

namespace Scheme14

/-! ## Going through a text -/

/-- Where a character is. -/
inductive LexMode where
  | code
  | comment
  | string
  /-- After a backslash in a string. -/
  | escaped
  deriving DecidableEq, Repr

/-- What is known after a part of a text. -/
structure Lex where
  mode : LexMode
  depth : ℤ
  /-- Whether the last character is a backslash. -/
  afterBackslash : Bool
  /-- Whether no quote that opens or closes a string came after one. -/
  plain : Bool
  deriving DecidableEq, Repr

namespace Lex

/-- Before the first character. -/
def start : Lex := ⟨.code, 0, false, true⟩

/-- What a parenthesis does to the depth. -/
def turn (c : Char) : ℤ := if c = '(' then 1 else if c = ')' then -1 else 0

/-- One character. -/
def step (l : Lex) (c : Char) : Lex :=
  let l' := { l with afterBackslash := c == backslash }
  match l.mode with
  | .code =>
    if c = dquote then { l' with mode := .string, plain := l.plain && !l.afterBackslash }
    else if c = ';' then { l' with mode := .comment }
    else { l' with depth := l.depth + turn c }
  | .comment => if c = '\n' then { l' with mode := .code } else l'
  | .string =>
    if c = dquote then { l' with mode := .code, plain := l.plain && !l.afterBackslash }
    else if c = backslash then { l' with mode := .escaped }
    else l'
  | .escaped => { l' with mode := .string }

/-- A text, from the left. -/
def run (l : Lex) (w : Text) : Lex := w.foldl step l

/-- Whether a state is inside a string. -/
def quoted (l : Lex) : Prop := l.mode = .string ∨ l.mode = .escaped

/-- All states on the way have a property. -/
def Stays (P : Lex → Prop) : Lex → Text → Prop
  | _, [] => True
  | l, c :: w => P (l.step c) ∧ Stays P (l.step c) w

variable {P Q : Lex → Prop} {l : Lex} {w v : Text}

@[simp] theorem run_nil : l.run [] = l := rfl

@[simp] theorem run_cons (c : Char) : l.run (c :: w) = (l.step c).run w := rfl

theorem run_append : l.run (w ++ v) = (l.run w).run v := List.foldl_append

/-- A property holds along both parts. -/
theorem stays_append : Stays P l (w ++ v) ↔ Stays P l w ∧ Stays P (l.run w) v := by
  induction w generalizing l with
  | nil => exact ⟨fun h => ⟨trivial, h⟩, fun h => h.2⟩
  | cons c w ih =>
    show P (l.step c) ∧ Stays P (l.step c) (w ++ v) ↔ (P (l.step c) ∧ Stays P (l.step c) w) ∧ _
    rw [ih, and_assoc]
    rfl

theorem Stays.mono (h : Stays P l w) (hPQ : ∀ l, P l → Q l) : Stays Q l w := by
  induction w generalizing l with
  | nil => trivial
  | cons c w ih => exact ⟨hPQ _ h.1, ih h.2⟩

/-- A quote misjudged stays misjudged. -/
theorem plain_of_step {c : Char} (h : (l.step c).plain = true) : l.plain = true := by
  unfold step at h
  dsimp only at h
  repeat' split at h
  all_goals first
    | exact h
    | exact (Bool.and_eq_true_iff.mp h).1

/-- What is plain at the end was plain all along. -/
theorem plain_of_run (h : (l.run w).plain = true) : l.plain = true := by
  induction w generalizing l with
  | nil => exact h
  | cons c w ih => exact plain_of_step (ih h)

end Lex

/-! ## Level pieces -/

/-- **A level piece**: in code, it comes back to the depth it started from,
and stays above it. -/
def Level (w : Text) : Prop := ∀ l : Lex, l.mode = .code →
  (l.run w).mode = .code ∧ (l.run w).depth = l.depth ∧
    Lex.Stays (fun l' => l.depth ≤ l'.depth) l w

theorem Level.nil : Level [] := fun _ hl => ⟨hl, rfl, trivial⟩

/-- Level pieces may be put together. -/
theorem Level.append {w v : Text} (hw : Level w) (hv : Level v) : Level (w ++ v) := by
  intro l hl
  obtain ⟨hmode, hdepth, hstay⟩ := hw l hl
  obtain ⟨hmode', hdepth', hstay'⟩ := hv (l.run w) hmode
  rw [hdepth] at hdepth' hstay'
  rw [Lex.run_append]
  exact ⟨hmode', hdepth', Lex.stays_append.mpr ⟨hstay, hstay'⟩⟩

/-- Outside strings and comments only parentheses count. -/
theorem Lex.step_code {l : Lex} (hl : l.mode = .code) {c : Char} (hq : c ≠ dquote)
    (hs : c ≠ ';') : (l.step c).mode = .code ∧ (l.step c).depth = l.depth + turn c := by
  unfold step
  rw [hl]
  dsimp only
  rw [if_neg hq, if_neg hs]
  exact ⟨rfl, rfl⟩

/-- A character that opens nothing. -/
theorem Level.single {c : Char} (hq : c ≠ dquote) (hs : c ≠ ';') (hl : c ≠ '(') (hr : c ≠ ')') :
    Level [c] := by
  intro l hmode
  obtain ⟨h1, h2⟩ := Lex.step_code hmode hq hs
  have hturn : Lex.turn c = 0 := by
    unfold Lex.turn
    rw [if_neg hl, if_neg hr]
  rw [hturn, Int.add_zero] at h2
  exact ⟨h1, h2, Int.le_of_eq h2.symm, trivial⟩

/-- The characters of a token are level. -/
theorem Level.token {w : Text} (h : ∀ c ∈ w, isDelimiter c = false) : Level w := by
  induction w with
  | nil => exact .nil
  | cons c w ih =>
    have hc := h c List.mem_cons_self
    obtain ⟨hl, hr, hq, -⟩ := isDelimiter_ne hc
    have hs : c ≠ ';' := by rintro rfl; exact absurd hc (by decide)
    exact (Level.single hq hs hl hr).append (ih fun x hx => h x (List.mem_cons_of_mem c hx))

theorem Level.tokenChar {c : Char} (h : isDelimiter c = false) : Level [c] :=
  .token fun _ hx => by rwa [List.mem_singleton.mp hx]

/-- **A list or a vector** is level when its inside is. -/
theorem Level.parens {w : Text} (h : Level w) : Level ('(' :: (w ++ [')'])) := by
  intro l hl
  obtain ⟨hmode, hdepth⟩ := Lex.step_code hl (c := '(') (by decide) (by decide)
  obtain ⟨hmode', hdepth', hstay⟩ := h (l.step '(') hmode
  obtain ⟨hmode'', hdepth''⟩ := Lex.step_code hmode' (c := ')') (by decide) (by decide)
  have hopen : (l.step '(').depth = l.depth + 1 := hdepth
  have hclose : (((l.step '(').run w).step ')').depth = l.depth := by
    rw [hdepth'', hdepth', hopen]
    show l.depth + 1 + -1 = l.depth
    omega
  rw [Lex.run_cons, Lex.run_append]
  refine ⟨hmode'', hclose, ?_, Lex.stays_append.mpr ⟨hstay.mono fun l' hl' => ?_, ?_, trivial⟩⟩
  · show l.depth ≤ (l.step '(').depth
    omega
  · omega
  · exact Int.le_of_eq hclose.symm

/-! ## Strings -/

/-- The inside of a string, up to the quote that closes it. -/
def InsideString (w : Text) : Prop := ∀ l : Lex, l.mode = .string →
  (l.run w).mode = .string ∧
    Lex.Stays (fun l' => l'.quoted ∧ l'.depth = l.depth) l w ∧ (l.run w).depth = l.depth

theorem InsideString.nil : InsideString [] := fun _ hl => ⟨hl, trivial, rfl⟩

/-- A character of a string. -/
theorem InsideString.plainChar {c : Char} {w : Text} (hq : c ≠ dquote) (hb : c ≠ backslash)
    (h : InsideString w) : InsideString (c :: w) := by
  intro l hl
  have hmode : (l.step c).mode = .string ∧ (l.step c).depth = l.depth := by
    unfold Lex.step
    rw [hl]
    dsimp only
    rw [if_neg hq, if_neg hb]
    exact ⟨rfl, rfl⟩
  obtain ⟨h1, h2, h3⟩ := h _ hmode.1
  rw [hmode.2] at h2 h3
  exact ⟨h1, ⟨⟨.inl hmode.1, hmode.2⟩, h2⟩, h3⟩

/-- A character behind a backslash. -/
theorem InsideString.escape {n : Char} {w : Text} (h : InsideString w) :
    InsideString (backslash :: n :: w) := by
  intro l hl
  have hmode : (l.step backslash).mode = .escaped ∧ (l.step backslash).depth = l.depth := by
    unfold Lex.step
    rw [hl]
    exact ⟨rfl, rfl⟩
  have hmode' : ((l.step backslash).step n).mode = .string ∧
      ((l.step backslash).step n).depth = l.depth := by
    rw [Lex.step, hmode.1]
    exact ⟨rfl, hmode.2⟩
  obtain ⟨h1, h2, h3⟩ := h _ hmode'.1
  rw [hmode'.2] at h2 h3
  exact ⟨h1, ⟨⟨.inr hmode.1, hmode.2⟩, ⟨.inl hmode'.1, hmode'.2⟩, h2⟩, h3⟩

/-- **A string** is level. -/
theorem InsideString.level {w : Text} (h : InsideString w) : Level (dquote :: (w ++ [dquote])) := by
  intro l hl
  have hopen : (l.step dquote).mode = .string ∧ (l.step dquote).depth = l.depth := by
    unfold Lex.step
    rw [hl]
    exact ⟨rfl, rfl⟩
  obtain ⟨hmode, hstay, hdepth⟩ := h _ hopen.1
  have hclose : (((l.step dquote).run w).step dquote).mode = .code ∧
      (((l.step dquote).run w).step dquote).depth = l.depth := by
    rw [Lex.step, hmode]
    exact ⟨rfl, hdepth.trans hopen.2⟩
  rw [Lex.run_cons, Lex.run_append]
  refine ⟨hclose.1, hclose.2, Int.le_of_eq hopen.2.symm,
    Lex.stays_append.mpr ⟨hstay.mono fun l' hl' => ?_, Int.le_of_eq hclose.2.symm, trivial⟩⟩
  exact Int.le_of_eq (hl'.2.trans hopen.2).symm

/-- A quote ends the string. -/
theorem readString_dquote (t : Text) : readString (dquote :: t) = .ok ([], t) := by
  unfold readString
  exact if_pos rfl

/-- A backslash takes the next character along. -/
theorem readString_escape {n : Char} {t s t' : Text} (h : readString t = .ok (s, t')) :
    readString (backslash :: n :: t) = .ok ((if n = 'n' then '\n' else n) :: s, t') := by
  unfold readString
  rw [if_neg (by decide), if_pos rfl]
  dsimp only
  rw [h]
  rfl

/-- Any other character is read. -/
theorem readString_plain {c : Char} {t s t' : Text} (hq : c ≠ dquote) (hb : c ≠ backslash)
    (h : readString t = .ok (s, t')) : readString (c :: t) = .ok (c :: s, t') := by
  unfold readString
  rw [if_neg hq, if_neg hb, h]
  rfl

/-- The piece of the text that `read_string` reads. -/
theorem readString_piece {t t' s : Text} (h : readString t = .ok (s, t')) :
    ∃ w, t = w ++ dquote :: t' ∧ InsideString w ∧
      ∀ r, readString (w ++ dquote :: r) = .ok (s, r) := by
  fun_induction readString t generalizing s with
  | case1 => exact absurd h readError_ne_ok
  | case2 t =>
    obtain ⟨rfl, rfl⟩ := Prod.mk.inj (Except.ok.inj h)
    exact ⟨[], rfl, .nil, readString_dquote⟩
  | case3 => exact absurd h readError_ne_ok
  | case4 n t _ ih =>
    obtain ⟨⟨s', u⟩, hs, h⟩ := Except.bind_eq_ok.mp h
    obtain ⟨rfl, rfl⟩ := Prod.mk.inj (Except.ok.inj h)
    obtain ⟨w, rfl, hw, hread⟩ := ih hs
    exact ⟨backslash :: n :: w, rfl, hw.escape, fun r => readString_escape (hread r)⟩
  | case5 c t hq hb ih =>
    obtain ⟨⟨s', u⟩, hs, h⟩ := Except.bind_eq_ok.mp h
    obtain ⟨rfl, rfl⟩ := Prod.mk.inj (Except.ok.inj h)
    obtain ⟨w, rfl, hw, hread⟩ := ih hs
    exact ⟨c :: w, rfl, hw.plainChar hq hb, fun r => readString_plain hq hb (hread r)⟩

/-! ## Separators, signs and tokens -/

/-- What may follow a piece instead: nothing, or what begins as the text did. -/
def Follows (t' r : Text) : Prop := r = [] ∨ r.head? = t'.head?

/-- What may follow begins with a delimiter, where what did does. -/
theorem Follows.delimiterNext {t' r : Text} (h : Follows t' r) (ht : delimiterNext t' = true) :
    delimiterNext r = true := by
  rcases h with rfl | h
  · rfl
  · cases r with
    | nil => rfl
    | cons c r =>
      cases t' with
      | nil => exact absurd h (Option.some_ne_none _)
      | cons c' t' =>
        obtain rfl := Option.some.inj h
        exact ht

/-- In a comment, up to the end of its line. -/
theorem Lex.run_comment {l : Lex} (hl : l.mode = .comment) {c : Char} :
    (l.step c).mode = (if c = '\n' then .code else .comment) ∧ (l.step c).depth = l.depth := by
  unfold Lex.step
  rw [hl]
  dsimp only
  split <;> exact ⟨rfl, rfl⟩

/-- **Separators**: level, and skipped whatever datum comes after them. -/
theorem skipFrom_piece {t u : Text} {c : Char} {b : Bool} (h : skipFrom b t = c :: u) :
    ∃ sep, t = sep ++ c :: u ∧
      (∀ l : Lex, l.mode = (if b then .comment else .code) →
        (l.run sep).mode = .code ∧ (l.run sep).depth = l.depth ∧
          Lex.Stays (fun l' => l.depth ≤ l'.depth) l sep) ∧
      ∀ r, skipFrom b (sep ++ c :: r) = c :: r := by
  induction t generalizing b with
  | nil => exact absurd h (List.cons_ne_nil c u).symm
  | cons x t ih =>
    cases b with
    | true =>
      obtain ⟨sep, rfl, hlex, hskip⟩ := ih h
      refine ⟨x :: sep, rfl, fun l hl => ?_, hskip⟩
      obtain ⟨hmode, hdepth⟩ := Lex.run_comment hl (c := x)
      obtain ⟨h1, h2, h3⟩ := hlex (l.step x) (by
        rw [hmode]
        by_cases hx : x = '\n'
        · subst hx; rfl
        · rw [if_neg hx, if_pos (bne_iff_ne.mpr hx)])
      rw [hdepth] at h2 h3
      exact ⟨h1, h2, Int.le_of_eq hdepth.symm, h3⟩
    | false =>
      have hdatum := skipFrom_eq_cons h
      unfold skipFrom at h
      split at h
      · rename_i hsp
        obtain ⟨sep, rfl, hlex, hskip⟩ := ih h
        have hx : Level [x] := by
          refine Level.single ?_ ?_ ?_ ?_ <;> rintro rfl <;> exact absurd hsp (by decide)
        refine ⟨x :: sep, rfl, fun l hl => ?_, fun r => ?_⟩
        · exact (hx.append (fun l hl => hlex l hl)) l hl
        · show skipFrom false (x :: (sep ++ c :: r)) = _
          rw [skipFrom_space hsp]
          exact hskip r
      · rename_i hsp
        split at h
        · rename_i hx
          subst hx
          obtain ⟨sep, rfl, hlex, hskip⟩ := ih h
          refine ⟨';' :: sep, rfl, fun l hl => ?_, hskip⟩
          have hstep : (l.step ';').mode = .comment ∧ (l.step ';').depth = l.depth := by
            unfold Lex.step
            rw [show l.mode = .code from hl]
            exact ⟨rfl, rfl⟩
          obtain ⟨h1, h2, h3⟩ := hlex (l.step ';') hstep.1
          rw [hstep.2] at h2 h3
          exact ⟨h1, h2, Int.le_of_eq hstep.2.symm, h3⟩
        · obtain ⟨rfl, rfl⟩ := List.cons.inj h
          exact ⟨[], rfl, fun l hl => ⟨hl, rfl, trivial⟩,
            fun r => skipFrom_datum hdatum.1 hdatum.2 r⟩

/-- **What is skipped is a level piece.** -/
theorem skipAtmosphere_piece {t u : Text} {c : Char} (h : skipAtmosphere t = c :: u) :
    ∃ sep, t = sep ++ c :: u ∧ Level sep ∧ ∀ r, skipAtmosphere (sep ++ c :: r) = c :: r :=
  skipFrom_piece h

/-- The sign of an abbreviation. -/
theorem abbreviation_piece {c : Char} {t u : Text} {head : String}
    (h : abbreviation c t = some (head, u)) :
    ∃ sign, t = sign ++ u ∧ Level (c :: sign) ∧
      ∀ r, r.head? = u.head? → abbreviation c (sign ++ r) = some (head, r) := by
  have hsign : ∀ {x}, x = apostrophe ∨ x = backquote ∨ x = ',' ∨ x = '@' → Level [x] := by
    rintro x (rfl | rfl | rfl | rfl) <;>
      exact Level.single (by decide) (by decide) (by decide) (by decide)
  unfold abbreviation at h
  split at h
  · rename_i hc
    obtain ⟨rfl, rfl⟩ := Prod.mk.inj (Option.some.inj h)
    exact ⟨[], rfl, hsign (.inl hc), fun r _ => by rw [hc]; rfl⟩
  split at h
  · rename_i hc
    obtain ⟨rfl, rfl⟩ := Prod.mk.inj (Option.some.inj h)
    exact ⟨[], rfl, hsign (.inr (.inl hc)), fun r _ => by rw [hc]; rfl⟩
  split at h
  · rename_i hc
    subst hc
    split at h
    · rename_i hat
      obtain ⟨rfl, rfl⟩ := Prod.mk.inj (Option.some.inj h)
      obtain ⟨v, rfl⟩ := List.head?_eq_some_iff.mp hat
      exact ⟨['@'], rfl, (hsign (.inr (.inr (.inl rfl)))).append (hsign (.inr (.inr (.inr rfl)))),
        fun r _ => rfl⟩
    · rename_i hat
      obtain ⟨rfl, rfl⟩ := Prod.mk.inj (Option.some.inj h)
      refine ⟨[], rfl, hsign (.inr (.inr (.inl rfl))), fun r hr => ?_⟩
      show (if r.head? = some '@' then _ else some ("unquote", r)) = _
      rw [hr, if_neg hat]
  · exact absurd h (Option.some_ne_none _).symm

/-- The piece of a boolean is two characters. -/
theorem boolAfterSharp_piece {t t' : Text} {b : Bool} (h : boolAfterSharp t = some (b, t')) :
    ∃ c, t = c :: t' ∧ Level ['#', c] ∧ ∀ r, Follows t' r →
      boolAfterSharp (c :: r) = some (b, r) := by
  unfold boolAfterSharp at h
  cases t with
  | nil => exact absurd h (Option.some_ne_none _).symm
  | cons c t =>
    dsimp only at h
    split at h
    · exact absurd h (Option.some_ne_none _).symm
    rename_i hnext
    rw [Bool.not_eq_true, Bool.not_eq_false'] at hnext
    have hlevel : c = 't' ∨ c = 'T' ∨ c = 'f' ∨ c = 'F' → Level ['#', c] := by
      rintro (rfl | rfl | rfl | rfl) <;>
        exact (Level.tokenChar (c := '#') rfl).append (Level.tokenChar rfl)
    have hread : ∀ r, Follows t r → boolAfterSharp (c :: r) =
        if c = 't' ∨ c = 'T' then some (true, r)
        else if c = 'f' ∨ c = 'F' then some (false, r) else none := by
      intro r hr
      unfold boolAfterSharp
      dsimp only
      rw [hr.delimiterNext hnext]
      exact if_neg Bool.false_ne_true
    split at h
    · rename_i ht
      obtain ⟨rfl, rfl⟩ := Prod.mk.inj (Option.some.inj h)
      refine ⟨c, rfl, hlevel (ht.imp_right .inl), fun r hr => ?_⟩
      rw [hread r hr, if_pos ht]
    split at h
    · rename_i ht hf
      obtain ⟨rfl, rfl⟩ := Prod.mk.inj (Option.some.inj h)
      refine ⟨c, rfl, hlevel (.inr (.inr hf)), fun r hr => ?_⟩
      rw [hread r hr, if_neg ht, if_pos hf]
    · exact absurd h (Option.some_ne_none _).symm

/-- A token goes up to a delimiter. -/
theorem delimiterNext_dropWhile (t : Text) :
    delimiterNext (t.dropWhile (fun c => !isDelimiter c)) = true := by
  induction t with
  | nil => rfl
  | cons c t ih =>
    by_cases hc : isDelimiter c = true
    · rw [List.dropWhile_cons_of_neg (by rw [hc]; exact Bool.false_ne_true)]
      exact hc
    · rw [List.dropWhile_cons_of_pos (by rw [Bool.not_eq_true] at hc; rw [hc]; rfl)]
      exact ih

/-- A token ends where the next delimiter is. -/
theorem takeWhile_token {w r : Text} (hw : ∀ c ∈ w, isDelimiter c = false)
    (hr : delimiterNext r = true) :
    (w ++ r).takeWhile (fun c => !isDelimiter c) = w ∧
      (w ++ r).dropWhile (fun c => !isDelimiter c) = r := by
  induction w with
  | nil =>
    cases r with
    | nil => exact ⟨rfl, rfl⟩
    | cons c r =>
      have hc : isDelimiter c = true := hr
      rw [List.nil_append, List.takeWhile_cons_of_neg (by rw [hc]; exact Bool.false_ne_true),
        List.dropWhile_cons_of_neg (by rw [hc]; exact Bool.false_ne_true)]
      exact ⟨rfl, rfl⟩
  | cons c w ih =>
    have hc := hw c List.mem_cons_self
    obtain ⟨h1, h2⟩ := ih fun x hx => hw x (List.mem_cons_of_mem c hx)
    rw [List.cons_append, List.takeWhile_cons_of_pos (by rw [hc]; rfl),
      List.dropWhile_cons_of_pos (by rw [hc]; rfl), h1, h2]
    exact ⟨rfl, rfl⟩

/-- What comes after `#` is no boolean, whatever delimiter ends the token. -/
theorem boolAfterSharp_token {w r r' : Text} (hw : ∀ c ∈ w, isDelimiter c = false)
    (hr : delimiterNext r = true) (hr' : delimiterNext r' = true)
    (h : boolAfterSharp (w ++ r) = none) : boolAfterSharp (w ++ r') = none := by
  have hdelim : ∀ r, delimiterNext r = true → boolAfterSharp r = none := by
    intro r hr
    cases r with
    | nil => rfl
    | cons c r =>
      have hc : isDelimiter c = true := hr
      have h1 : ¬ (c = 't' ∨ c = 'T') := by rintro (rfl | rfl) <;> exact absurd hc (by decide)
      have h2 : ¬ (c = 'f' ∨ c = 'F') := by rintro (rfl | rfl) <;> exact absurd hc (by decide)
      unfold boolAfterSharp
      dsimp only
      rw [if_neg h1, if_neg h2, ite_self]
  cases w with
  | nil => exact hdelim r' hr'
  | cons c w =>
    have hnext : delimiterNext (w ++ r) = delimiterNext (w ++ r') := by
      cases w with
      | nil => exact hr.trans hr'.symm
      | cons c' w => rfl
    unfold boolAfterSharp at h ⊢
    rw [List.cons_append] at h ⊢
    dsimp only at h ⊢
    rw [← hnext]
    split at h
    · rw [if_pos ‹_›]
    · rename_i hn
      rw [if_neg hn]
      split at h
      · exact absurd h (Option.some_ne_none _)
      · rename_i ht
        rw [if_neg ht]
        split at h
        · exact absurd h (Option.some_ne_none _)
        · rename_i hf
          rw [if_neg hf]

/-- **A token**, with any delimiter after it. -/
theorem Reads.token {c : Char} {w r r' : Text} {d : Datum} (hc : isDelimiter c = false)
    (hw : ∀ c ∈ w, isDelimiter c = false) (hr : delimiterNext r = true)
    (hr' : delimiterNext r' = true) (hvec : c = '#' → w = [] → r'.head? ≠ some '(')
    (hsharp : c = '#' → boolAfterSharp (w ++ r) = none) (hd : atomOf (c :: w) = .ok d) :
    Reads .datum (c :: (w ++ r')) d r' := by
  obtain ⟨htake, hdrop⟩ := takeWhile_token hw hr'
  have h := Reads.atom (c := c) (t := w ++ r') (d := d) hc
    (fun hcs => ⟨?_, boolAfterSharp_token hw hr hr' (hsharp hcs)⟩) (by rw [htake]; exact hd)
  · rwa [hdrop] at h
  · intro hhead
    cases w with
    | nil => exact hvec hcs rfl hhead
    | cons x w =>
      obtain rfl : x = '(' := Option.some.inj hhead
      exact absurd (hw _ List.mem_cons_self) (by decide)

/-! ## The piece of a datum -/

/-- The shape of a piece: level, but for the parenthesis that ends a list or
a vector. -/
def Shape : Place → Text → Prop
  | .datum, w => Level w
  | _, w => ∃ v, w = v ++ [')'] ∧ Level v

theorem head?_append_left {w : Text} (h : w ≠ []) (r : Text) : (w ++ r).head? = w.head? := by
  cases w with
  | nil => exact absurd rfl h
  | cons c w => rfl

/-- What follows two pieces follows the second one. -/
theorem Follows.append {w : Text} (h : w ≠ []) (t' r : Text) : Follows (w ++ t') (w ++ r) :=
  .inr (by rw [head?_append_left h, head?_append_left h])

/-- Whether a delimiter comes next is decided by the first character. -/
theorem delimiterNext_append {w : Text} (h : w ≠ []) (r r' : Text) :
    delimiterNext (w ++ r) = delimiterNext (w ++ r') := by
  cases w with
  | nil => exact absurd rfl h
  | cons c w => rfl

/-- Whether a dot comes next is decided by two. -/
theorem atDot_append {w v : Text} (hw : w ≠ []) (hv : v ≠ []) (r r' : Text) :
    atDot (w ++ (v ++ r)) ↔ atDot (w ++ (v ++ r')) := by
  obtain ⟨c, w, rfl⟩ := List.exists_cons_of_ne_nil hw
  cases w with
  | nil =>
    show (some c = some '.' ∧ delimiterNext (v ++ r) = true) ↔
      (some c = some '.' ∧ delimiterNext (v ++ r') = true)
    rw [delimiterNext_append hv r r']
  | cons c' w => exact Iff.rfl

/-- A piece that is not empty, after separators. -/
theorem skipped_piece {t w t' : Text} (hw : w ≠ []) (h : skipAtmosphere t = w ++ t') :
    ∃ sep, t = sep ++ (w ++ t') ∧ Level sep ∧ ∀ r, skipAtmosphere (sep ++ (w ++ r)) = w ++ r := by
  obtain ⟨c, w, rfl⟩ := List.exists_cons_of_ne_nil hw
  obtain ⟨sep, ht, hsep, hskip⟩ := skipAtmosphere_piece h
  exact ⟨sep, ht, hsep, fun r => hskip (w ++ r)⟩

/-- What is left is not all there was. -/
theorem Reads.piece_ne_nil {p : Place} {w t' : Text} {d : Datum} (h : Reads p (w ++ t') d t') :
    w ≠ [] := by
  rintro rfl
  exact Nat.lt_irrefl _ h.length_lt

/-- **The piece of a datum**, which is read the same way before whatever may
follow it. -/
def HasPiece (p : Place) (t : Text) (d : Datum) (t' : Text) : Prop :=
  ∃ w, t = w ++ t' ∧ Shape p w ∧ ∀ r, Follows t' r → Reads p (w ++ r) d r

/-- The parenthesis that ends a list or a vector, after separators. -/
theorem closing_piece {t t' : Text} (h : skipAtmosphere t = ')' :: t') :
    ∃ sep, t = sep ++ [')'] ++ t' ∧ Level sep ∧
      ∀ r, skipAtmosphere (sep ++ [')'] ++ r) = ')' :: r := by
  obtain ⟨sep, rfl, hsep, hread⟩ := skipAtmosphere_piece h
  exact ⟨sep, by rw [List.append_assoc]; rfl, hsep,
    fun r => by rw [List.append_assoc]; exact hread r⟩

/-- The piece of an abbreviation: its sign, separators and a datum. -/
theorem piece_abbreviated {c : Char} {t u t' : Text} {head : String} {x : Datum}
    (hab : abbreviation c t = some (head, u)) (hx : Reads .datum (skipAtmosphere u) x t')
    (ih : HasPiece .datum (skipAtmosphere u) x t') :
    HasPiece .datum (c :: t) (.two (.sym head) x) t' := by
  obtain ⟨sign, rfl, hsign, hread⟩ := abbreviation_piece hab
  obtain ⟨w, hu, hw, hdatum⟩ := ih
  rw [hu] at hx
  have hne := hx.piece_ne_nil
  obtain ⟨sep, rfl, hsep, hskip⟩ := skipped_piece hne hu
  refine ⟨c :: sign ++ (sep ++ w), by simp only [List.cons_append, List.append_assoc],
    hsign.append (hsep.append hw), fun r hr => ?_⟩
  have hne' : sep ++ w ≠ [] := fun h => hne (List.append_eq_nil_iff.mp h).2
  have hhead : (sep ++ (w ++ r)).head? = (sep ++ (w ++ t')).head? := by
    rw [← List.append_assoc, ← List.append_assoc, head?_append_left hne', head?_append_left hne']
  have hx' : Reads .datum (skipAtmosphere (sep ++ (w ++ r))) x r := by
    rw [hskip]
    exact hdatum r hr
  have := Reads.abbreviated (hread _ hhead) hx'
  simpa only [List.cons_append, List.append_assoc] using this

/-- The piece of an atom is its token. What follows may not make a vector of `#`. -/
theorem piece_atom {c : Char} {t : Text} {d : Datum} (hc : isDelimiter c = false)
    (hsharp : c = '#' → t.head? ≠ some '(' ∧ boolAfterSharp t = none)
    (hd : atomOf (c :: t.takeWhile (fun c => !isDelimiter c)) = .ok d) :
    HasPiece .datum (c :: t) d (t.dropWhile (fun c => !isDelimiter c)) := by
  have hnext := delimiterNext_dropWhile t
  have htoken : ∀ x ∈ t.takeWhile (fun c => !isDelimiter c), isDelimiter x = false :=
    fun x hx => by
      have := List.all_eq_true.mp List.all_takeWhile x hx
      rwa [Bool.not_eq_true'] at this
  refine ⟨c :: t.takeWhile (fun c => !isDelimiter c), ?_, ?_, fun r hr => ?_⟩
  · rw [List.cons_append, List.takeWhile_append_dropWhile]
  · refine Level.token fun x hx => ?_
    rcases List.mem_cons.mp hx with rfl | hx
    · exact hc
    · exact htoken x hx
  · refine Reads.token hc htoken hnext (hr.delimiterNext hnext) (fun hcs hnil => ?_)
      (fun hcs => ?_) hd
    · have ht : t.dropWhile (fun c => !isDelimiter c) = t := by
        conv_rhs => rw [← List.takeWhile_append_dropWhile (p := fun c => !isDelimiter c) (l := t),
          hnil]
        rfl
      rw [ht] at hr
      rcases hr with rfl | hr
      · exact fun h => absurd h (Option.some_ne_none _).symm
      · rw [hr]
        exact (hsharp hcs).1
    · rw [List.takeWhile_append_dropWhile]
      exact (hsharp hcs).2

/-- The end of a dotted list: a dot, a datum, and the parenthesis. -/
theorem piece_dot {t u v t' : Text} {d : Datum} (hskip : skipAtmosphere t = '.' :: u)
    (hnext : delimiterNext u = true) (hd : Reads .datum (skipAtmosphere u) d v)
    (hclose : skipAtmosphere v = ')' :: t') (ih : HasPiece .datum (skipAtmosphere u) d v) :
    HasPiece (.list false) t d t' := by
  obtain ⟨w, hu, hw, hdatum⟩ := ih
  rw [hu] at hd
  have hne := hd.piece_ne_nil
  obtain ⟨sep, rfl, hsep, hread⟩ := skipAtmosphere_piece hskip
  obtain ⟨sep₂, rfl, hsep₂, hread₂⟩ := skipped_piece hne hu
  obtain ⟨sep₃, rfl, hsep₃, hread₃⟩ := closing_piece hclose
  have hdotLevel : Level ['.'] := Level.tokenChar rfl
  refine ⟨sep ++ ['.'] ++ sep₂ ++ w ++ (sep₃ ++ [')']),
    by simp only [List.append_assoc, List.cons_append, List.nil_append],
    ⟨sep ++ ['.'] ++ sep₂ ++ w ++ sep₃, by simp only [List.append_assoc],
      (((hsep.append hdotLevel).append hsep₂).append hw).append hsep₃⟩, fun r hr => ?_⟩
  have hne' : sep₂ ++ w ≠ [] := fun h => hne (List.append_eq_nil_iff.mp h).2
  have hnext' : delimiterNext (sep₂ ++ (w ++ (sep₃ ++ [')'] ++ r))) = true := by
    rw [← List.append_assoc, delimiterNext_append hne' _ (sep₃ ++ [')'] ++ t'),
      List.append_assoc]
    exact hnext
  have hd' : Reads .datum (skipAtmosphere (sep₂ ++ (w ++ (sep₃ ++ [')'] ++ r)))) d
      (sep₃ ++ [')'] ++ r) := by
    rw [hread₂]
    refine hdatum _ (Follows.append ?_ t' r)
    exact fun h => absurd (List.append_eq_nil_iff.mp h).2 (List.cons_ne_nil _ _)
  have := Reads.dot (hread _) hnext' hd' (hread₃ r)
  simpa only [List.append_assoc, List.cons_append, List.nil_append] using this

/-- An element of a list before the rest of it. -/
theorem piece_item {first : Bool} {t u v t' : Text} {x ls : Datum}
    (hskip : skipAtmosphere t = u) (hclose : u.head? ≠ some ')') (hdot : ¬ atDot u)
    (hx : Reads .datum u x v) (hls : Reads (.list false) v ls t') (ih : HasPiece .datum u x v)
    (ih' : HasPiece (.list false) v ls t') : HasPiece (.list first) t (.pair x ls) t' := by
  obtain ⟨w, rfl, hw, hdatum⟩ := ih
  obtain ⟨w₂, rfl, ⟨v₂, rfl, hv₂⟩, hlist⟩ := ih'
  have hne := hx.piece_ne_nil
  have hne₂ := hls.piece_ne_nil
  obtain ⟨sep, rfl, hsep, hread⟩ := skipped_piece hne hskip
  refine ⟨sep ++ w ++ (v₂ ++ [')']), by simp only [List.append_assoc],
    ⟨sep ++ w ++ v₂, by simp only [List.append_assoc], (hsep.append hw).append hv₂⟩,
    fun r hr => ?_⟩
  have : Reads (.list first) _ (.pair x ls) r := Reads.item (hread (v₂ ++ [')'] ++ r))
    (by rw [head?_append_left hne]; rwa [head?_append_left hne] at hclose)
    (fun h => hdot ((atDot_append hne hne₂ r t').mp h))
    (hdatum _ (Follows.append hne₂ t' r)) (hlist r hr)
  simpa only [List.append_assoc] using this

/-- The same in a vector. -/
theorem piece_element {t u v t' : Text} {x : Datum} {xs : List Datum}
    (hskip : skipAtmosphere t = u) (hclose : u.head? ≠ some ')') (hx : Reads .datum u x v)
    (hxs : Reads .elements v (.vector xs) t') (ih : HasPiece .datum u x v)
    (ih' : HasPiece .elements v (.vector xs) t') :
    HasPiece .elements t (.vector (x :: xs)) t' := by
  obtain ⟨w, rfl, hw, hdatum⟩ := ih
  obtain ⟨w₂, rfl, ⟨v₂, rfl, hv₂⟩, hlist⟩ := ih'
  have hne := hx.piece_ne_nil
  have hne₂ := hxs.piece_ne_nil
  obtain ⟨sep, rfl, hsep, hread⟩ := skipped_piece hne hskip
  refine ⟨sep ++ w ++ (v₂ ++ [')']), by simp only [List.append_assoc],
    ⟨sep ++ w ++ v₂, by simp only [List.append_assoc], (hsep.append hw).append hv₂⟩,
    fun r hr => ?_⟩
  have := Reads.element (hread (v₂ ++ [')'] ++ r))
    (by rw [head?_append_left hne]; rwa [head?_append_left hne] at hclose)
    (hdatum _ (Follows.append hne₂ t' r)) (hlist r hr)
  simpa only [List.append_assoc] using this

/-- **Every datum has a piece of the text.** -/
theorem Reads.piece {p : Place} {t t' : Text} {d : Datum} (h : Reads p t d t') :
    HasPiece p t d t' := by
  induction h with
  | list _ ih =>
    obtain ⟨w, rfl, ⟨v, rfl, hv⟩, hread⟩ := ih
    exact ⟨'(' :: (v ++ [')']), rfl, hv.parens, fun r hr => .list (hread r hr)⟩
  | string hs =>
    obtain ⟨w, rfl, hw, hread⟩ := readString_piece hs
    refine ⟨dquote :: (w ++ [dquote]), by rw [List.cons_append, List.append_assoc]; rfl, hw.level,
      fun r _ => ?_⟩
    rw [List.cons_append, List.append_assoc]
    exact .string (hread r)
  | abbreviated hab hx ih => exact piece_abbreviated hab hx ih
  | vector _ ih =>
    obtain ⟨w, rfl, ⟨v, rfl, hv⟩, hread⟩ := ih
    have hsharp : Level ['#'] := Level.tokenChar rfl
    exact ⟨'#' :: '(' :: (v ++ [')']), rfl, hsharp.append hv.parens,
      fun r hr => .vector (hread r hr)⟩
  | bool hb =>
    obtain ⟨c, rfl, hlevel, hread⟩ := boolAfterSharp_piece hb
    exact ⟨['#', c], rfl, hlevel, fun r hr => .bool (hread r hr)⟩
  | atom hc hsharp hd => exact piece_atom hc hsharp hd
  | close hskip =>
    obtain ⟨sep, ht, hsep, hread⟩ := closing_piece hskip
    exact ⟨sep ++ [')'], ht, ⟨sep, rfl, hsep⟩, fun r _ => .close (hread r)⟩
  | dot hskip hnext hd hclose ih => exact piece_dot hskip hnext hd hclose ih
  | item hskip hclose hdot hx hls ih ih' => exact piece_item hskip hclose hdot hx hls ih ih'
  | noElement hskip =>
    obtain ⟨sep, ht, hsep, hread⟩ := closing_piece hskip
    exact ⟨sep ++ [')'], ht, ⟨sep, rfl, hsep⟩, fun r _ => .noElement (hread r)⟩
  | element hskip hclose hx hxs ih ih' => exact piece_element hskip hclose hx hxs ih ih'

/-- What a datum that begins with a parenthesis or a quote is. -/
theorem Reads.first {t t' : Text} {d : Datum} (h : Reads .datum t d t') {c : Char} {u : Text}
    (ht : t = c :: u) : c ≠ ')' ∧ (c = '(' → Reads (.list true) u d t') ∧
      (c = dquote → ∃ s, readString u = .ok (s, t')) := by
  cases h with
  | list hlist =>
    obtain ⟨rfl, rfl⟩ := List.cons.inj ht
    exact ⟨by decide, fun _ => hlist, fun h => absurd h (by decide)⟩
  | string hs =>
    obtain ⟨rfl, rfl⟩ := List.cons.inj ht
    exact ⟨by decide, fun h => absurd h (by decide), fun _ => ⟨_, hs⟩⟩
  | abbreviated hab =>
    obtain ⟨rfl, rfl⟩ := List.cons.inj ht
    obtain ⟨hl, hr, hq⟩ := abbreviation_ne hab
    exact ⟨hr, fun h => absurd h hl, fun h => absurd h hq⟩
  | vector =>
    obtain ⟨rfl, rfl⟩ := List.cons.inj ht
    exact ⟨by decide, fun h => absurd h (by decide), fun h => absurd h (by decide)⟩
  | bool =>
    obtain ⟨rfl, rfl⟩ := List.cons.inj ht
    exact ⟨by decide, fun h => absurd h (by decide), fun h => absurd h (by decide)⟩
  | atom hc =>
    obtain ⟨rfl, rfl⟩ := List.cons.inj ht
    obtain ⟨hl, hr, hq, -⟩ := isDelimiter_ne hc
    exact ⟨hr, fun h => absurd h hl, fun h => absurd h hq⟩

end Scheme14
