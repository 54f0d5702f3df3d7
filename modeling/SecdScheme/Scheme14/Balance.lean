import SecdScheme.Scheme14.Grammar

/-!
# scheme14: when the REPL asks for more

`is_balanced` decides whether the REPL asks for another line: a scan of the
text with a depth, and a look at the character before a quote in place of
tracking escapes. The reader is what the answer is meant for. Between the two
stands `Nesting`, which follows strings, escapes and comments and remembers
whether the last token was the sign of an abbreviation: what the reader reads
brings the scan from one depth back to it, and where the reader meets the end
of the text inside of something the scan is inside of it as well.
-/

namespace Scheme14

/-- The loop of `is_balanced`: the character before, the depth, and whether the
scan is in a string or in a comment. -/
def isBalancedFrom : Option Char → ℕ → Bool → Bool → Text → Bool
  | _, depth, inString, _, [] => depth == 0 && !inString
  | prev, depth, inString, inComment, c :: s =>
    if c = '\n' then isBalancedFrom (some c) depth inString false s
    else if inComment then isBalancedFrom (some c) depth inString inComment s
    else if c = ';' ∧ !inString then isBalancedFrom (some c) depth inString true s
    else if c = dquote ∧ prev ≠ some backslash then
      isBalancedFrom (some c) depth (!inString) inComment s
    else if inString then isBalancedFrom (some c) depth inString inComment s
    else if c = '(' then isBalancedFrom (some c) (depth + 1) inString inComment s
    else if c = ')' then
      if depth = 0 then false else isBalancedFrom (some c) (depth - 1) inString inComment s
    else isBalancedFrom (some c) depth inString inComment s

/-- **`is_balanced`**. -/
def isBalanced (s : Text) : Bool := isBalancedFrom none 0 false false s

/-- **The reader needs more input**: the text ends inside of a list, a vector or
a string, after a dot or after an abbreviation. -/
def ReadError.isEof : ReadError → Bool
  | .scheme message =>
    message == "unexpected EOF in list" || message == "unexpected EOF after '.'" ||
      message == "unexpected EOF in vector literal" ||
      message == "unexpected EOF in string literal" ||
      message == "unexpected EOF after quote abbreviation" ||
      message == "unexpected EOF after quasiquote abbreviation" ||
      message == "unexpected EOF after splice abbreviation" ||
      message == "unexpected EOF after unquote abbreviation"
  | _ => false

/-- The text ends too early. -/
def EndsEarly (s : Text) : Prop := ∃ e : ReadError, readAll s = .error e ∧ e.isEof = true

/-- The reader stops at an error before the end of the text. -/
def Malformed (s : Text) : Prop := ∃ e : ReadError, readAll s = .error e ∧ e.isEof = false

/-! ## The scan -/

/-- Where a scan is. After a comma an `@` belongs to it. -/
inductive NestingMode where
  | code
  | comma
  | comment
  | string
  | escape
  deriving DecidableEq

/-- Whether the scan is in a string. -/
def NestingMode.inString : NestingMode → Bool
  | .string => true
  | .escape => true
  | _ => false

/-- Whether the scan is in a comment. -/
def NestingMode.inComment : NestingMode → Bool
  | .comment => true
  | _ => false

/-- **The state of a scan**: the depth of the parentheses, and whether the last
token was the sign of an abbreviation. -/
structure Nesting where
  depth : ℕ
  mode : NestingMode
  pending : Bool
  deriving DecidableEq

namespace Nesting

/-- A character outside of strings and comments. -/
def codeStep (st : Nesting) (c : Char) : Option Nesting :=
  if isSpace c then some { st with mode := .code }
  else if c = ';' then some { st with mode := .comment }
  else if c = dquote then some ⟨st.depth, .string, false⟩
  else if c = '(' then some ⟨st.depth + 1, .code, false⟩
  else if c = ')' then if st.depth = 0 then none else some ⟨st.depth - 1, .code, false⟩
  else if c = apostrophe ∨ c = backquote then some ⟨st.depth, .code, true⟩
  else if c = ',' then some ⟨st.depth, .comma, true⟩
  else some ⟨st.depth, .code, false⟩

/-- **One character**; nothing where a parenthesis is closed that is not
open. -/
def step (st : Nesting) (c : Char) : Option Nesting :=
  match st.mode with
  | .code => st.codeStep c
  | .comma => if c = '@' then some { st with mode := .code } else st.codeStep c
  | .comment => some { st with mode := if c = '\n' then .code else .comment }
  | .string => some { st with
      mode := if c = dquote then .code else if c = backslash then .escape else .string }
  | .escape => some { st with mode := .string }

/-- **What a scan comes to**: the depth, whether the text ends in a string, and
whether it ends after the sign of an abbreviation. -/
def ends (st : Nesting) : Text → Option (ℕ × Bool × Bool)
  | [] => some (st.depth, st.mode.inString, st.pending)
  | c :: t => (st.step c).bind fun st' => st'.ends t

end Nesting

/-- The scan of a text. -/
def nesting (s : Text) : Option (ℕ × Bool × Bool) := Nesting.ends ⟨0, .code, false⟩ s

/-- **The parentheses and the strings of a text are closed.** -/
def Closed (s : Text) : Prop := ∃ p, nesting s = some (0, false, p)

/-- **The text ends after the sign of an abbreviation** that is in no list and no
vector. -/
def Dangling (s : Text) : Prop := nesting s = some (0, false, true)

/-- **Every quote after a backslash** is in a comment or is escaped by it. -/
def quotesRight : Option Char → Nesting → Text → Bool
  | _, _, [] => true
  | prev, st, c :: t =>
    (c != dquote || prev != some backslash || st.mode = .comment || st.mode = .escape) &&
      match st.step c with
      | none => true
      | some st' => quotesRight (some c) st' t

/-- The look at the character before a quote is right in a text. -/
def LooksRight (s : Text) : Prop := quotesRight none ⟨0, .code, false⟩ s = true

instance (s : Text) : Decidable (LooksRight s) := inferInstanceAs (Decidable (_ = true))

/-! ## The scan of `is_balanced` -/

/-- One step of `is_balanced`, outside of strings and comments. -/
theorem isBalancedFrom_code {prev : Option Char} (st : Nesting) {c : Char} {t : Text}
    (hq : c = dquote → prev ≠ some backslash) :
    isBalancedFrom prev st.depth false false (c :: t) =
      match st.codeStep c with
      | none => false
      | some st' => isBalancedFrom (some c) st'.depth st'.mode.inString st'.mode.inComment t := by
  obtain ⟨depth, mode, pending⟩ := st
  rw [isBalancedFrom, Nesting.codeStep]
  by_cases hsp : isSpace c = true
  · have hno : c ≠ ';' ∧ c ≠ dquote ∧ c ≠ '(' ∧ c ≠ ')' := by
      refine ⟨?_, ?_, ?_, ?_⟩ <;> rintro rfl <;> exact absurd hsp (by decide)
    rw [if_pos hsp]
    by_cases hnl : c = '\n'
    · rw [if_pos hnl]
      rfl
    · rw [if_neg hnl, if_neg (by decide : ¬ false = true), if_neg fun h => hno.1 h.1,
        if_neg fun h => hno.2.1 h.1, if_neg (by decide : ¬ false = true), if_neg hno.2.2.1,
        if_neg hno.2.2.2]
      rfl
  · have hnl : c ≠ '\n' := by
      rintro rfl
      exact hsp (by decide)
    rw [if_neg hsp, if_neg hnl, if_neg (by decide : ¬ false = true)]
    by_cases hsc : c = ';'
    · rw [if_pos hsc, if_pos ⟨hsc, rfl⟩]
      rfl
    rw [if_neg hsc, if_neg fun h => hsc h.1]
    by_cases hdq : c = dquote
    · rw [if_pos hdq, if_pos ⟨hdq, hq hdq⟩]
      rfl
    rw [if_neg hdq, if_neg fun h => hdq h.1, if_neg (by decide : ¬ false = true)]
    by_cases hopen : c = '('
    · rw [if_pos hopen, if_pos hopen]
      rfl
    rw [if_neg hopen, if_neg hopen]
    by_cases hclose : c = ')'
    · rw [if_pos hclose, if_pos hclose]
      by_cases hd : depth = 0
      · rw [if_pos hd, if_pos hd]
      · rw [if_neg hd, if_neg hd]
        rfl
    rw [if_neg hclose, if_neg hclose]
    by_cases hquote : c = apostrophe ∨ c = backquote
    · rw [if_pos hquote]
      rfl
    · rw [if_neg hquote]
      by_cases hcomma : c = ','
      · rw [if_pos hcomma]
        rfl
      · rw [if_neg hcomma]
        rfl

/-- **One step of `is_balanced`** where the look back is right. -/
theorem isBalancedFrom_step {prev : Option Char} {st : Nesting} {c : Char} {t : Text}
    (hq : c = dquote → prev = some backslash → st.mode = .comment ∨ st.mode = .escape)
    (hprev : st.mode = .escape → prev = some backslash) :
    isBalancedFrom prev st.depth st.mode.inString st.mode.inComment (c :: t) =
      match st.step c with
      | none => false
      | some st' => isBalancedFrom (some c) st'.depth st'.mode.inString st'.mode.inComment t := by
  obtain ⟨depth, mode, pending⟩ := st
  have hp : mode ≠ .comment → mode ≠ .escape → c = dquote → prev ≠ some backslash :=
    fun hcm hes hc hp => (hq hc hp).elim hcm hes
  cases mode with
  | code => exact isBalancedFrom_code _ (hp nofun nofun)
  | comma =>
    by_cases hat : c = '@'
    · subst hat
      rfl
    · rw [Nesting.step]
      dsimp only
      rw [if_neg hat]
      exact isBalancedFrom_code ⟨depth, .comma, pending⟩ (hp nofun nofun)
  | comment =>
    rw [isBalancedFrom, Nesting.step]
    by_cases hnl : c = '\n'
    · rw [if_pos hnl]
      dsimp only
      rw [if_pos hnl]
      rfl
    · rw [if_neg hnl, if_pos (show NestingMode.comment.inComment = true from rfl)]
      dsimp only
      rw [if_neg hnl]
  | string =>
    rw [isBalancedFrom, Nesting.step]
    by_cases hnl : c = '\n'
    · subst hnl
      rfl
    rw [if_neg hnl, if_neg (show ¬ NestingMode.string.inComment = true by decide),
      if_neg fun h => Bool.false_ne_true h.2]
    by_cases hc : c = dquote
    · rw [if_pos ⟨hc, hp nofun nofun hc⟩]
      dsimp only
      rw [if_pos hc]
      rfl
    · rw [if_neg fun h => hc h.1, if_pos (show NestingMode.string.inString = true from rfl)]
      dsimp only
      rw [if_neg hc]
      split <;> rfl
  | escape =>
    rw [isBalancedFrom, Nesting.step]
    by_cases hnl : c = '\n'
    · subst hnl
      rfl
    · rw [if_neg hnl, if_neg (show ¬ NestingMode.escape.inComment = true by decide),
        if_neg fun h => Bool.false_ne_true h.2, if_neg fun h => h.2 (hprev rfl),
        if_pos (show NestingMode.escape.inString = true from rfl)]
      rfl

/-- A backslash is what an escape begins with. -/
theorem Nesting.eq_backslash_of_escape {st st' : Nesting} {c : Char} (h : st.step c = some st')
    (hm : st'.mode = .escape) : some c = some backslash := by
  obtain ⟨depth, mode, pending⟩ := st
  have hcode : ∀ {st₁ : Nesting}, st₁.codeStep c = some st' → some c = some backslash := by
    intro st₁ h
    unfold codeStep at h
    split_ifs at h <;> cases h <;> cases hm
  cases mode with
  | code => exact hcode h
  | comma =>
    rw [Nesting.step] at h
    dsimp only at h
    split at h
    · cases h
      cases hm
    · exact hcode h
  | comment =>
    cases h
    dsimp only at hm
    split at hm <;> cases hm
  | string =>
    cases h
    dsimp only at hm
    split_ifs at hm with h₁ h₂
    rw [h₂]
  | escape =>
    cases h
    cases hm

/-- **Where the look back is right, `is_balanced` is the scan.** -/
theorem isBalancedFrom_eq {prev : Option Char} {st : Nesting} {t : Text}
    (hq : quotesRight prev st t = true) (hprev : st.mode = .escape → prev = some backslash) :
    isBalancedFrom prev st.depth st.mode.inString st.mode.inComment t = true ↔
      ∃ p, st.ends t = some (0, false, p) := by
  induction t generalizing prev st with
  | nil =>
    rw [isBalancedFrom, Nesting.ends]
    simp
  | cons c t ih =>
    rw [quotesRight, Bool.and_eq_true_iff] at hq
    rw [isBalancedFrom_step ?_ hprev, Nesting.ends]
    · cases hstep : st.step c with
      | none => simp
      | some st' =>
        rw [hstep] at hq
        exact ih hq.2 (Nesting.eq_backslash_of_escape hstep)
    · intro hc hp
      simpa [hc, hp] using hq.1

theorem isBalanced_iff {s : Text} (h : LooksRight s) : isBalanced s = true ↔ Closed s :=
  isBalancedFrom_eq h nofun

/-! ## The scan of what the reader reads -/

/-- A scan outside of strings and comments. -/
abbrev Nesting.code (n : ℕ) (p : Bool) : Nesting := ⟨n, .code, p⟩

section Reader

variable {n : ℕ} {p : Bool} {c : Char} {t t' u : Text}

/-- Separators change nothing. -/
theorem ends_skipFrom (n : ℕ) (p : Bool) (t : Text) :
    (Nesting.code n p).ends t = (Nesting.code n p).ends (skipFrom false t) ∧
      Nesting.ends ⟨n, .comment, p⟩ t = (Nesting.code n p).ends (skipFrom true t) := by
  induction t with
  | nil => exact ⟨rfl, rfl⟩
  | cons c t ih =>
    constructor
    · unfold skipFrom
      split
      · rename_i hsp
        rw [Nesting.ends, Nesting.step, Nesting.codeStep]
        dsimp only
        rw [if_pos hsp]
        exact ih.1
      · split
        · rename_i hsp hc
          rw [Nesting.ends, Nesting.step, Nesting.codeStep]
          dsimp only
          rw [if_neg hsp, if_pos hc]
          exact ih.2
        · rfl
    · rw [skipFrom, Nesting.ends, Nesting.step]
      by_cases hnl : c = '\n'
      · subst hnl
        exact ih.1
      · rw [show (c != '\n') = true from bne_iff_ne.mpr hnl]
        dsimp only
        rw [if_neg hnl]
        exact ih.2

theorem ends_skip (n : ℕ) (p : Bool) (t : Text) :
    (Nesting.code n p).ends t = (Nesting.code n p).ends (skipAtmosphere t) := (ends_skipFrom n p t).1

/-- A character of a token. -/
theorem step_token (hc : isDelimiter c = false) (n : ℕ) (p : Bool) :
    (Nesting.code n p).step c = some (.code n false) := by
  simp only [isDelimiter, Bool.or_eq_false_iff, beq_eq_false_iff_ne] at hc
  obtain ⟨⟨⟨⟨⟨⟨⟨hsp, hopen⟩, hclose⟩, hapo⟩, hback⟩, hcomma⟩, hdq⟩, hsc⟩ := hc
  rw [Nesting.step, Nesting.codeStep]
  simp [hsp, hopen, hclose, hapo, hback, hcomma, hdq, hsc]

theorem ends_token (n : ℕ) (t : Text) :
    (Nesting.code n false).ends t
      = (Nesting.code n false).ends (t.dropWhile fun c => !isDelimiter c) := by
  induction t with
  | nil => rfl
  | cons c t ih =>
    cases hc : isDelimiter c with
    | true => rw [List.dropWhile_cons_of_neg (by simp [hc])]
    | false =>
      rw [List.dropWhile_cons_of_pos (by simp [hc]), Nesting.ends, step_token hc]
      exact ih

/-- A string that is read is closed. -/
theorem ends_readString {s : Text} (h : readString t = .ok (s, t')) (n : ℕ) :
    Nesting.ends ⟨n, .string, false⟩ t = (Nesting.code n false).ends t' := by
  fun_induction readString t generalizing s with
  | case1 => exact absurd h readError_ne_ok
  | case2 t =>
    obtain ⟨-, rfl⟩ := Prod.mk.inj (Except.ok.inj h)
    rfl
  | case3 => exact absurd h readError_ne_ok
  | case4 c t _ ih =>
    obtain ⟨r, hr, h⟩ := Except.bind_eq_ok.mp h
    obtain ⟨-, rfl⟩ := Prod.mk.inj (Except.ok.inj h)
    exact ih hr
  | case5 c t hq hb ih =>
    obtain ⟨r, hr, h⟩ := Except.bind_eq_ok.mp h
    obtain ⟨-, rfl⟩ := Prod.mk.inj (Except.ok.inj h)
    rw [Nesting.ends, Nesting.step]
    dsimp only
    rw [if_neg hq, if_neg hb]
    exact ih hr

/-- A comma, with its `@` if there is one. -/
theorem ends_comma (h : t.head? ≠ some '@') (n : ℕ) :
    Nesting.ends ⟨n, .comma, true⟩ t = (Nesting.code n true).ends t := by
  cases t with
  | nil => rfl
  | cons c t =>
    rw [Nesting.ends, Nesting.ends, Nesting.step, Nesting.step]
    dsimp only
    rw [if_neg fun hc => h (by rw [hc]; rfl)]
    rfl

/-- The sign of an abbreviation is pending. -/
theorem ends_abbreviation {head : String} (h : abbreviation c t = some (head, u)) (n : ℕ)
    (p : Bool) : (Nesting.code n p).ends (c :: t) = (Nesting.code n true).ends u := by
  unfold abbreviation at h
  split_ifs at h with h₁ h₂ h₃ h₄
  · obtain ⟨-, rfl⟩ := Prod.mk.inj (Option.some.inj h)
    subst h₁
    rfl
  · obtain ⟨-, rfl⟩ := Prod.mk.inj (Option.some.inj h)
    subst h₂
    rfl
  · obtain ⟨-, rfl⟩ := Prod.mk.inj (Option.some.inj h)
    obtain ⟨u, rfl⟩ := List.head?_eq_some_iff.mp h₄
    subst h₃
    rfl
  · obtain ⟨-, rfl⟩ := Prod.mk.inj (Option.some.inj h)
    subst h₃
    exact ends_comma h₄ n

theorem ends_open (n : ℕ) (p : Bool) (t : Text) :
    (Nesting.code n p).ends ('(' :: t) = (Nesting.code (n + 1) false).ends t := rfl

theorem ends_close (n : ℕ) (p : Bool) (t : Text) :
    (Nesting.code (n + 1) p).ends (')' :: t) = (Nesting.code n false).ends t := rfl

theorem ends_cons_token (hc : isDelimiter c = false) (n : ℕ) (p : Bool) (t : Text) :
    (Nesting.code n p).ends (c :: t) = (Nesting.code n false).ends t := by
  rw [Nesting.ends, step_token hc]
  rfl

theorem ends_boolAfterSharp {b : Bool} (h : boolAfterSharp t = some (b, t')) (n : ℕ) :
    (Nesting.code n false).ends t = (Nesting.code n false).ends t' := by
  unfold boolAfterSharp at h
  cases t with
  | nil => cases h
  | cons c t =>
    dsimp only at h
    split_ifs at h with _ ht hf
    · obtain ⟨-, rfl⟩ := Prod.mk.inj (Option.some.inj h)
      exact ends_cons_token (by rcases ht with rfl | rfl <;> decide) n false t
    · obtain ⟨-, rfl⟩ := Prod.mk.inj (Option.some.inj h)
      exact ends_cons_token (by rcases hf with rfl | rfl <;> decide) n false t

/-- How many parentheses a place is inside of. -/
def Place.inside : Place → ℕ
  | .datum => 0
  | _ => 1

/-- **What is read** brings a scan out of the parentheses of its place. -/
theorem Reads.ends {place : Place} {d : Datum} (h : Reads place t d t') (n : ℕ) (p : Bool) :
    (Nesting.code (n + place.inside) p).ends t = (Nesting.code n false).ends t' := by
  induction h generalizing n p with
  | list _ ih => exact (ends_open n p _).trans (ih n false)
  | string hs => exact ends_readString hs n
  | abbreviated hab _ ih =>
    calc (Nesting.code n p).ends _
      _ = (Nesting.code n true).ends _ := ends_abbreviation hab n p
      _ = (Nesting.code n true).ends (skipAtmosphere _) := ends_skip n true _
      _ = (Nesting.code n false).ends _ := ih n true
  | vector _ ih => exact ih n false
  | bool hb => exact (ends_cons_token (by decide) n p _).trans (ends_boolAfterSharp hb n)
  | atom hc _ _ => exact (ends_cons_token hc n p _).trans (ends_token n _)
  | close hskip =>
    rw [ends_skip, hskip]
    exact ends_close n p _
  | @dot t u d v t' hskip _ _ hclose ih =>
    calc (Nesting.code (n + 1) p).ends t
      _ = (Nesting.code (n + 1) p).ends ('.' :: u) := by rw [ends_skip, hskip]
      _ = (Nesting.code (n + 1) false).ends u := ends_cons_token (by decide) (n + 1) p u
      _ = (Nesting.code (n + 1) false).ends (skipAtmosphere u) := ends_skip (n + 1) false u
      _ = (Nesting.code (n + 1) false).ends v := ih (n + 1) false
      _ = (Nesting.code (n + 1) false).ends (')' :: t') := by rw [ends_skip, hclose]
      _ = (Nesting.code n false).ends t' := ends_close n false t'
  | @item first t u x v ls t' hskip _ _ _ _ ih ih' =>
    calc (Nesting.code (n + 1) p).ends t
      _ = (Nesting.code (n + 1) p).ends u := by rw [ends_skip, hskip]
      _ = (Nesting.code (n + 1) false).ends v := ih (n + 1) p
      _ = (Nesting.code n false).ends t' := ih' n false
  | noElement hskip =>
    rw [ends_skip, hskip]
    exact ends_close n p _
  | @element t u x v xs t' hskip _ _ _ ih ih' =>
    calc (Nesting.code (n + 1) p).ends t
      _ = (Nesting.code (n + 1) p).ends u := by rw [ends_skip, hskip]
      _ = (Nesting.code (n + 1) false).ends v := ih (n + 1) p
      _ = (Nesting.code n false).ends t' := ih' n false

theorem Reads.ends_datum {d : Datum} (h : Reads .datum t d t') (n : ℕ) (p : Bool) :
    (Nesting.code n p).ends t = (Nesting.code n false).ends t' := h.ends n p

/-! ## The scan where the reader meets the end -/

theorem Except.map_eq_error {ε α β : Type} {x : Except ε α} {f : α → β} {e : ε} :
    x.map f = .error e ↔ x = .error e := by
  cases x <;> simp [Except.map]

/-- How a sequence fails. -/
theorem Except.bind_eq_error {ε α β : Type} {x : Except ε α} {f : α → Except ε β} {e : ε} :
    (x >>= f) = .error e ↔ x = .error e ∨ ∃ a, x = .ok a ∧ f a = .error e := by
  cases x with
  | ok a => exact ⟨fun h => .inr ⟨a, rfl, h⟩, fun h => h.elim nofun fun ⟨_, ha, h⟩ => by
      cases ha
      exact h⟩
  | error e' => exact ⟨fun h => .inl (congrArg Except.error (Except.error.inj h)), fun h =>
      h.elim (fun h => congrArg Except.error (Except.error.inj h)) nofun⟩

/-- A scan comes to the end too early: inside of more parentheses, in a string
or after the sign of an abbreviation. -/
def Early (n : ℕ) (r : Option (ℕ × Bool × Bool)) : Prop :=
  ∃ m b q, r = some (m, b, q) ∧ n ≤ m ∧ (n < m ∨ b = true ∨ q = true)

theorem Early.of_succ {r : Option (ℕ × Bool × Bool)} (h : Early (n + 1) r) : Early n r := by
  obtain ⟨m, b, q, hr, hm, -⟩ := h
  exact ⟨m, b, q, hr, Nat.le_of_succ_le hm, .inl hm⟩

/-- The end of the text inside of a parenthesis. -/
theorem early_of_skip (h : skipAtmosphere t = []) : Early n ((Nesting.code (n + 1) p).ends t) := by
  rw [ends_skip, h]
  exact ⟨n + 1, false, p, rfl, n.le_succ, .inl n.lt_succ_self⟩

/-- A string that is not closed. -/
theorem ends_readString_error {e : ReadError} (h : readString t = .error e) (n : ℕ) :
    Nesting.ends ⟨n, .string, false⟩ t = some (n, true, false) := by
  fun_induction readString t with
  | case1 => rfl
  | case2 => cases h
  | case3 => rfl
  | case4 c t _ ih =>
    rcases Except.bind_eq_error.mp h with hr | ⟨r, -, h⟩
    · exact ih hr
    · cases h
  | case5 c t hq hb ih =>
    rcases Except.bind_eq_error.mp h with hr | ⟨r, -, h⟩
    · rw [Nesting.ends, Nesting.step]
      dsimp only
      rw [if_neg hq, if_neg hb]
      exact ih hr
    · cases h

/-- A result that does not say that the text ends too early. -/
def NotEof {α : Type} (x : Except ReadError α) : Prop := ∀ e, x = .error e → e.isEof = false

theorem NotEof.map {α β : Type} {x : Except ReadError α} (h : NotEof x) (f : α → β) :
    NotEof (x.map f) := fun e he => h e (Except.map_eq_error.mp he)

theorem notEof_ok {α : Type} {a : α} : NotEof (.ok a) := nofun

theorem notEof_error {α : Type} {e : ReadError} (h : e.isEof = false) :
    NotEof (.error e : Except ReadError α) := fun _ he => Except.error.inj he ▸ h

theorem notEof_makeIntFromText (t : Text) : NotEof (makeIntFromText t) := by
  have hmagnitude : ∀ t : Text, NotEof (bigIntMagnitude t) := by
    intro t
    unfold bigIntMagnitude
    repeat' split
    all_goals first
      | exact notEof_ok
      | exact notEof_error rfl
  unfold makeIntFromText
  repeat' split
  all_goals first
    | exact notEof_ok
    | exact (hmagnitude _).map _

theorem notEof_parseNumber (t : Text) : NotEof (parseNumber t) := by
  unfold parseNumber
  dsimp only
  repeat' split
  all_goals first
    | exact notEof_ok
    | exact (notEof_makeIntFromText _).map _

/-- An atom is no end of the text. -/
theorem notEof_readAtom (t : Text) : NotEof (readAtom t) := by
  unfold readAtom
  dsimp only
  split
  · exact notEof_error (by decide)
  · intro e he
    obtain hatom | ⟨a, -, h⟩ := Except.bind_eq_error.mp he
    · revert hatom
      unfold atomOf
      repeat' split
      all_goals first
        | exact notEof_ok e
        | exact (notEof_parseNumber _).map _ e
    · cases h

/-- Nothing is read where there are only separators. -/
theorem skipAtmosphere_of_readExpr {fuel : ℕ} (h : readExpr fuel t = .ok none) :
    skipAtmosphere t = [] := by
  cases fuel with
  | zero => cases h
  | succ fuel =>
    unfold readExpr at h
    cases hskip : skipAtmosphere t with
    | nil => rfl
    | cons c u =>
      rw [hskip] at h
      obtain ⟨r, -, hr⟩ := Except.map_eq_ok.mp h
      exact absurd hr (Option.some_ne_none r)

/-- What the end of the text is to the four functions together, by induction on
the bound. -/
structure EndsAt (fuel : ℕ) : Prop where
  expr {t e} : readExpr fuel t = .error e → e.isEof = true →
    ∀ n p, Early n ((Nesting.code n p).ends t)
  datum {c t e} : isSpace c = false ∧ c ≠ ';' → readDatum fuel c t = .error e → e.isEof = true →
    ∀ n p, Early n ((Nesting.code n p).ends (c :: t))
  list {first t e} : readList fuel first t = .error e → e.isEof = true →
    ∀ n p, Early n ((Nesting.code (n + 1) p).ends t)
  vector {t e} : readVector fuel t = .error e → e.isEof = true →
    ∀ n p, Early n ((Nesting.code (n + 1) p).ends t)

theorem endsAt_datum {fuel : ℕ} (ih : EndsAt fuel) {e : ReadError}
    (hc : isSpace c = false ∧ c ≠ ';') (h : readDatum (fuel + 1) c t = .error e)
    (he : e.isEof = true) (n : ℕ) (p : Bool) : Early n ((Nesting.code n p).ends (c :: t)) := by
  unfold readDatum at h
  split at h
  · rename_i hl
    subst hl
    exact ih.list h he n false
  rename_i hl
  split at h
  · cases h
    exact absurd he (by decide)
  rename_i hr
  split at h
  · rename_i hq
    subst hq
    have hs := ends_readString_error (Except.map_eq_error.mp h) n
    exact ⟨n, true, false, hs, Nat.le_refl n, .inr (.inl rfl)⟩
  rename_i hq
  cases hab : abbreviation c t with
  | some r =>
    obtain ⟨head, u⟩ := r
    rw [hab] at h
    rw [ends_abbreviation hab]
    obtain h | ⟨r, hr, h⟩ := Except.bind_eq_error.mp h
    · exact ih.expr h he n true
    · cases r with
      | none =>
        rw [ends_skip, skipAtmosphere_of_readExpr hr]
        exact ⟨n, false, true, rfl, Nat.le_refl n, .inr (.inr rfl)⟩
      | some r => cases h
  | none =>
    rw [hab] at h
    dsimp only at h
    split at h
    · rename_i hv
      obtain ⟨rfl, hv⟩ := hv
      obtain ⟨u, rfl⟩ := List.head?_eq_some_iff.mp hv
      exact ih.vector (Except.map_eq_error.mp h) he n false
    · split at h
      · cases h
      · exact absurd he (Bool.eq_false_iff.mp (notEof_readAtom _ e h))

theorem endsAt_list {fuel : ℕ} (ih : EndsAt fuel) {first : Bool} {e : ReadError}
    (h : readList (fuel + 1) first t = .error e) (he : e.isEof = true) (n : ℕ) (p : Bool) :
    Early n ((Nesting.code (n + 1) p).ends t) := by
  unfold readList at h
  cases hskip : skipAtmosphere t with
  | nil => exact early_of_skip hskip
  | cons c u =>
    rw [hskip] at h
    rw [ends_skip, hskip]
    dsimp only at h
    have hu := skipAtmosphere_cons hskip
    split at h
    · cases h
    rename_i hc
    split at h
    · -- the rest of a dotted list
      rename_i hdot
      obtain ⟨rfl, hnext⟩ := hdot
      rw [ends_cons_token (by decide)]
      split at h
      · cases h
        exact absurd he (by decide)
      obtain h | ⟨r, hr, h⟩ := Except.bind_eq_error.mp h
      · exact (ih.expr h he (n + 1) false).of_succ
      · cases r with
        | none => exact early_of_skip (skipAtmosphere_of_readExpr hr)
        | some r =>
          obtain ⟨x, v⟩ := r
          rw [ends_skip, ((readsAt fuel).expr hr).ends_datum]
          dsimp only at h
          cases hv : skipAtmosphere v with
          | nil => exact early_of_skip hv
          | cons c' w =>
            rw [hv] at h
            dsimp only at h
            split at h
            · cases h
            · cases h
              exact absurd he (by decide)
    · obtain h | ⟨r, hr, h⟩ := Except.bind_eq_error.mp h
      · exact (ih.expr h he (n + 1) p).of_succ
      · cases r with
        | none =>
          exact absurd (hu.symm.trans (skipAtmosphere_of_readExpr hr)) (List.cons_ne_nil c u)
        | some r =>
          obtain ⟨x, v⟩ := r
          have hx := (readsAt fuel).expr hr
          rw [hu] at hx
          rw [hx.ends_datum (n + 1) p]
          obtain h | ⟨r, -, h⟩ := Except.bind_eq_error.mp h
          · exact ih.list h he n false
          · cases h

theorem endsAt_vector {fuel : ℕ} (ih : EndsAt fuel) {e : ReadError}
    (h : readVector (fuel + 1) t = .error e) (he : e.isEof = true) (n : ℕ) (p : Bool) :
    Early n ((Nesting.code (n + 1) p).ends t) := by
  unfold readVector at h
  cases hskip : skipAtmosphere t with
  | nil => exact early_of_skip hskip
  | cons c u =>
    rw [hskip] at h
    rw [ends_skip, hskip]
    dsimp only at h
    have hu := skipAtmosphere_cons hskip
    split at h
    · cases h
    · obtain h | ⟨r, hr, h⟩ := Except.bind_eq_error.mp h
      · exact (ih.expr h he (n + 1) p).of_succ
      · cases r with
        | none =>
          exact absurd (hu.symm.trans (skipAtmosphere_of_readExpr hr)) (List.cons_ne_nil c u)
        | some r =>
          obtain ⟨x, v⟩ := r
          have hx := (readsAt fuel).expr hr
          rw [hu] at hx
          rw [hx.ends_datum (n + 1) p]
          obtain h | ⟨r, -, h⟩ := Except.bind_eq_error.mp h
          · exact ih.vector h he n false
          · cases h

theorem endsAt (fuel : ℕ) : EndsAt fuel := by
  induction fuel with
  | zero =>
    constructor <;> intros
    all_goals
      rename_i h he _ _
      cases h
      exact absurd he (by decide)
  | succ fuel ih =>
    refine ⟨fun {t e} h he n p => ?_, endsAt_datum ih, endsAt_list ih, endsAt_vector ih⟩
    unfold readExpr at h
    cases hskip : skipAtmosphere t with
    | nil =>
      rw [hskip] at h
      cases h
    | cons c u =>
      rw [hskip] at h
      rw [ends_skip, hskip]
      exact ih.datum (skipFrom_eq_cons hskip) (Except.map_eq_error.mp h) he n p

end Reader

/-! ## When the REPL asks for more -/

/-- A text that is read is closed, and nothing is pending. -/
theorem ends_readAllFrom {fuel : ℕ} {t : Text} {ds : List Datum}
    (h : readAllFrom fuel t = .ok ds) : (Nesting.code 0 false).ends t = some (0, false, false) := by
  induction fuel generalizing t ds with
  | zero => cases h
  | succ fuel ih =>
    obtain ⟨r, hr, h⟩ := Except.bind_eq_ok.mp h
    cases r with
    | none =>
      rw [ends_skip, skipAtmosphere_of_readExpr hr]
      rfl
    | some r =>
      obtain ⟨d, t'⟩ := r
      obtain ⟨ds', hds, -⟩ := Except.bind_eq_ok.mp h
      rw [ends_skip, (readOne_eq_some_iff.mp hr).ends_datum 0 false]
      exact ih hds

/-- **A text that ends too early** is not closed, or an abbreviation is
pending. -/
theorem early_readAllFrom {fuel : ℕ} {t : Text} {e : ReadError}
    (h : readAllFrom fuel t = .error e) (he : e.isEof = true) :
    Early 0 ((Nesting.code 0 false).ends t) := by
  induction fuel generalizing t with
  | zero =>
    cases h
    exact absurd he (by decide)
  | succ fuel ih =>
    obtain h | ⟨r, hr, h⟩ := Except.bind_eq_error.mp h
    · exact (endsAt _).expr h he 0 false
    · cases r with
      | none => cases h
      | some r =>
        obtain ⟨d, t'⟩ := r
        rw [ends_skip, (readOne_eq_some_iff.mp hr).ends_datum 0 false]
        obtain h | ⟨ds, -, h⟩ := Except.bind_eq_error.mp h
        · exact ih h
        · cases h

/-- A text is read, ends too early or is malformed. -/
theorem readAll_cases (s : Text) :
    (∃ ds, readAll s = .ok ds) ∨ EndsEarly s ∨ Malformed s := by
  cases h : readAll s with
  | ok ds => exact .inl ⟨ds, rfl⟩
  | error e =>
    cases he : e.isEof with
    | true => exact .inr (.inl ⟨e, h, he⟩)
    | false => exact .inr (.inr ⟨e, h, he⟩)

theorem EndsEarly.not_malformed {s : Text} (h : EndsEarly s) : ¬ Malformed s := by
  rintro ⟨e', hr', he'⟩
  obtain ⟨e, hr, he⟩ := h
  rw [hr] at hr'
  cases hr'
  rw [he] at he'
  cases he'

/-- A text that ends too early is dangling or not closed. -/
theorem EndsEarly.closed_iff {s : Text} (h : EndsEarly s) : Closed s ↔ Dangling s := by
  obtain ⟨e, hr, he⟩ := h
  obtain ⟨m, b, q, hs, -, hearly⟩ := early_readAllFrom hr he
  constructor
  · rintro ⟨p, hp⟩
    obtain ⟨rfl, rfl, rfl⟩ : m = 0 ∧ b = false ∧ q = p := by
      simpa using hs.symm.trans hp
    rcases hearly with hm | hb | rfl
    · exact absurd hm (Nat.lt_irrefl 0)
    · cases hb
    · exact hp
  · exact fun hd => ⟨true, hd⟩

/-- **Where the REPL asks as the reader needs**: in a text where the look at the
character before a quote is right, it does if and only if what is malformed is
closed all the same, and what is not does not end after the sign of an
abbreviation outside of all lists. -/
theorem asksRight_iff {s : Text} (h : LooksRight s) :
    (isBalanced s = false ↔ EndsEarly s) ↔
      (Malformed s → Closed s) ∧ (¬ Malformed s → ¬ Dangling s) := by
  have hclosed : isBalanced s = false ↔ ¬ Closed s := by
    rw [← isBalanced_iff h, Bool.not_eq_true]
  rw [hclosed]
  rcases readAll_cases s with ⟨ds, hr⟩ | hearly | hbad
  · have hs := ends_readAllFrom hr
    have hnone : ∀ b : Bool, ¬ ∃ e : ReadError, readAll s = .error e ∧ e.isEof = b := by
      rintro b ⟨e, he, -⟩
      rw [hr] at he
      cases he
    refine iff_of_true (iff_of_false (fun hc => hc ⟨false, hs⟩) (hnone true))
      ⟨fun hm => absurd hm (hnone false), fun _ hd => ?_⟩
    cases hs.symm.trans hd
  · have hno := hearly.not_malformed
    rw [iff_true_right hearly, hearly.closed_iff]
    exact ⟨fun hd => ⟨fun hm => absurd hm hno, fun _ => hd⟩, fun hd => hd.2 hno⟩
  · have hno : ¬ EndsEarly s := fun hearly => hearly.not_malformed hbad
    rw [iff_false_right hno, not_not]
    exact ⟨fun hc => ⟨fun _ => hc, fun hm => absurd hbad hm⟩, fun hc => hc.1 hbad⟩

/-- An open list is asked for, and the reader needs it. -/
theorem asksRight_iff_open : isBalanced ['(', 'a'] = false ↔ EndsEarly ['(', 'a'] := by
  have hearly : EndsEarly ['(', 'a'] := ⟨.scheme "unexpected EOF in list", rfl, by decide⟩
  refine (asksRight_iff (by decide)).mpr ⟨fun h => absurd h hearly.not_malformed, fun _ h => ?_⟩
  exact absurd (show nesting ['(', 'a'] = some (0, false, true) from h) (by decide)

/-- **The REPL asks where nothing helps**: after a parenthesis that is not open, and
after a string that ends with a backslash. -/
theorem asks_in_vain :
    ¬ (isBalanced [')'] = false ↔ EndsEarly [')']) ∧
      ¬ (isBalanced [dquote, backslash, backslash, dquote] = false ↔
        EndsEarly [dquote, backslash, backslash, dquote]) := by
  constructor
  · intro h
    obtain ⟨e, he, heof⟩ := h.mp (by decide)
    cases he
    exact absurd heof (by decide)
  · intro h
    obtain ⟨e, he, -⟩ := h.mp (by decide)
    cases he

end Scheme14
