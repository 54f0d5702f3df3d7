import SecdScheme.Scheme14.Pieces
import SecdScheme.Scheme14.Sources

/-!
# scheme14: reading from a port

`read` looks for the end of a datum with a scanner of its own, which looks at
one character and the one before it, and gives what it has taken to the
reader. The scanner follows the reader inside lists and strings, as long as
no quote comes right after a backslash. Outside them it stops at the first
character that is not white space: what it takes is the whole datum only for
a list, a string and a token of one character.
-/

namespace Scheme14

/-! ## The scanner and the reader -/

/-- What the scanner has in a state of the reader. -/
def Lex.scan (l : Lex) (seen : Bool) : Scan :=
  ⟨l.depth, l.mode == .string || l.mode == .escaped, l.mode == .comment, seen⟩

/-- The last character taken is the one the reader was at. -/
structure Lex.Last (l : Lex) (buf : Text) : Prop where
  last : l.afterBackslash = true ↔ buf.head? = some backslash
  escaped : l.mode = .escaped → l.afterBackslash = true

theorem Lex.Last.step {l : Lex} (buf : Text) (c : Char) : (l.step c).Last (c :: buf) := by
  have hlast : (l.step c).afterBackslash = (c == backslash) := by
    unfold Lex.step
    dsimp only
    cases l.mode <;> dsimp only <;> repeat' split
    all_goals rfl
  refine ⟨?_, fun h => ?_⟩
  · rw [hlast, beq_iff_eq]
    exact ⟨fun h => congrArg some h, fun h => Option.some.inj h⟩
  · rw [hlast, beq_iff_eq]
    unfold Lex.step at h
    dsimp only at h
    cases hm : l.mode <;> rw [hm] at h <;> dsimp only at h <;> repeat' split at h
    all_goals first
      | exact ‹c = backslash›
      | cases h

/-- A character outside strings and comments that is no quote. -/
theorem Scan.step_code {c : Char} (hq : c ≠ dquote) (hs : c ≠ ';') (depth : ℤ) (seen : Bool)
    (last : Option Char) : Scan.step ⟨depth, false, false, seen⟩ last c =
      ⟨depth + Lex.turn c, false, false,
        seen || !(c == ')' || isSpace c)⟩ := by
  have hlook : Scan.step ⟨depth, false, false, seen⟩ last c =
      Scan.look ⟨depth, false, false, seen⟩ last c := by
    simp [Scan.step, hs]
  rw [hlook]
  by_cases hl : c = '('
  · subst hl
    show Scan.mk (depth + 1) false false true = ⟨depth + 1, false, false, seen || true⟩
    rw [Bool.or_true]
  by_cases hr : c = ')'
  · subst hr
    show Scan.mk (depth - 1) false false seen = ⟨depth + -1, false, false, seen || false⟩
    rw [Bool.or_false]
    rfl
  have hturn : Lex.turn c = 0 := by
    unfold Lex.turn
    rw [if_neg hl, if_neg hr]
  rw [hturn, Int.add_zero]
  by_cases hsp : isSpace c = true
  · simp [Scan.look, hq, hl, hr, hsp]
  · simp [Scan.look, hq, hl, hr, hsp]

/-- A quote that is not taken for an escaped one. -/
theorem Scan.step_dquote {last : Option Char} (h : last ≠ some backslash) (depth : ℤ)
    (inString seen : Bool) : Scan.step ⟨depth, inString, false, seen⟩ last dquote =
      ⟨depth, !inString, false, seen || inString⟩ := by
  have hsp : isSpace dquote = false := by decide
  have hs : dquote ≠ ';' := by decide
  have hl : dquote ≠ '(' := by decide
  have hr : dquote ≠ ')' := by decide
  cases inString <;> simp [Scan.step, Scan.look, h, hsp, hs, hl, hr]

theorem Lex.plain_step_dquote {l : Lex} (hl : l.mode = .string) :
    (l.step dquote).plain = (l.plain && !l.afterBackslash) := by
  unfold Lex.step
  rw [hl]
  rfl

/-- **The scanner makes the steps of the reader**, where no quote is
misjudged. -/
theorem Lex.scan_step {l : Lex} {buf : Text} (hlast : l.Last buf) {c : Char}
    (hplain : (l.step c).plain = true) (seen : Bool) :
    ∃ seen', (seen = true → seen' = true) ∧
      (l.scan seen).step buf.head? c = (l.step c).scan seen' := by
  obtain ⟨mode, depth, ab, plain⟩ := l
  obtain ⟨hback, hesc⟩ := hlast
  cases mode with
  | code =>
    by_cases hq : c = dquote
    · subst hq
      have hab : ab = false := by
        cases ab with
        | false => rfl
        | true => exact absurd hplain (by simp [Lex.step])
      have hne : buf.head? ≠ some backslash := fun h => by
        rw [← hback, hab] at h
        exact Bool.false_ne_true h
      refine ⟨seen || false, fun h => by rw [h]; rfl, ?_⟩
      exact Scan.step_dquote hne depth false seen
    by_cases hs : c = ';'
    · subst hs
      exact ⟨seen, id, rfl⟩
    refine ⟨seen || !(c == ')' || isSpace c), fun h => by rw [h]; rfl, ?_⟩
    show Scan.step ⟨depth, false, false, seen⟩ buf.head? c = _
    rw [Scan.step_code hq hs]
    simp [Lex.step, Lex.scan, hq, hs]
  | comment =>
    by_cases hn : c = '\n'
    · subst hn
      exact ⟨seen, id, rfl⟩
    · refine ⟨seen, id, ?_⟩
      show Scan.step ⟨depth, false, true, seen⟩ buf.head? c = _
      simp [Scan.step, Lex.step, Lex.scan, hn]
  | string =>
    by_cases hq : c = dquote
    · subst hq
      have hab : ab = false := by
        cases ab with
        | false => rfl
        | true => exact absurd hplain (by simp [Lex.step])
      have hne : buf.head? ≠ some backslash := fun h => by
        rw [← hback, hab] at h
        exact Bool.false_ne_true h
      refine ⟨seen || true, fun h => by rw [h]; rfl, ?_⟩
      exact Scan.step_dquote hne depth true seen
    · refine ⟨seen, id, ?_⟩
      show Scan.step ⟨depth, true, false, seen⟩ buf.head? c = _
      by_cases hb : c = backslash
      · subst hb
        rfl
      · simp [Scan.step, Scan.look, Lex.step, Lex.scan, hq, hb]
  | escaped =>
    have hbuf : buf.head? = some backslash := hback.mp (hesc rfl)
    refine ⟨seen, id, ?_⟩
    show Scan.step ⟨depth, true, false, seen⟩ buf.head? c = _
    rw [hbuf]
    simp [Scan.step, Scan.look, Lex.step, Lex.scan]

/-- Where the scanner does not stop: in a list, or in a string. -/
def Lex.inside (l : Lex) : Prop := 1 ≤ l.depth ∨ l.quoted

theorem Lex.stops_scan {l : Lex} (h : l.inside) (seen : Bool) : (l.scan seen).stops = false := by
  unfold Scan.stops Lex.scan
  rcases h with h | h | h
  · have hne : l.depth ≠ 0 := by omega
    simp [hne]
  · simp [h]
  · simp [h]

/-- **Inside, the scanner goes on** as the reader does. -/
theorem scanPort_run {w : Text} {l : Lex} {buf : Text} (hlast : l.Last buf)
    (hplain : (l.run w).plain = true) (hstay : l.Stays Lex.inside w) (seen : Bool) :
    (l.run w).Last (w.reverse ++ buf) ∧ ∃ seen', (seen = true → seen' = true) ∧
      ∀ rest, scanPort (l.scan seen) buf (w ++ rest) =
        scanPort ((l.run w).scan seen') (w.reverse ++ buf) rest := by
  induction w generalizing l buf seen with
  | nil => exact ⟨hlast, seen, id, fun _ => rfl⟩
  | cons c w ih =>
    obtain ⟨seen₁, hseen₁, hstep⟩ := Lex.scan_step hlast (Lex.plain_of_run hplain) seen
    obtain ⟨hlast', seen₂, hseen₂, hrun⟩ := ih (Lex.Last.step buf c) hplain hstay.2 seen₁
    rw [List.reverse_cons, List.append_assoc]
    refine ⟨hlast', seen₂, fun h => hseen₂ (hseen₁ h), fun rest => ?_⟩
    rw [List.cons_append, scanPort]
    rw [hstep, Lex.stops_scan hstay.1, if_neg Bool.false_ne_true]
    exact hrun rest

/-! ## The end of a datum -/

/-- **The scanner stops after a list.** -/
theorem scanPort_list {w : Text} (hw : Level w) {buf : Text}
    (hplain : (Lex.start.run ('(' :: (w ++ [')']))).plain = true) (rest : Text) :
    scanPort .start buf ('(' :: (w ++ [')']) ++ rest) =
      some (('(' :: (w ++ [')'])).reverse ++ buf, rest) := by
  obtain ⟨hmode, hdepth, hstay⟩ := hw (Lex.start.step '(') rfl
  rw [Lex.run_cons, Lex.run_append] at hplain
  obtain ⟨-, seen, hseen, hrun⟩ := scanPort_run (Lex.Last.step buf '(')
    (Lex.plain_of_step hplain) (hstay.mono fun l hl => .inl hl) true
  have hend : ((Lex.start.step '(').run w).scan seen = ⟨1, false, false, true⟩ := by
    unfold Lex.scan
    rw [hmode, hdepth, hseen rfl]
    rfl
  rw [hend] at hrun
  have hopen : scanPort .start buf ('(' :: (w ++ [')']) ++ rest) =
      scanPort ((Lex.start.step '(').scan true) ('(' :: buf) (w ++ (')' :: rest)) := by
    rw [show '(' :: (w ++ [')']) ++ rest = '(' :: (w ++ (')' :: rest)) by simp, scanPort]
    exact if_neg Bool.false_ne_true
  have hclose : scanPort ⟨1, false, false, true⟩ (w.reverse ++ '(' :: buf) (')' :: rest) =
      some (')' :: (w.reverse ++ '(' :: buf), rest) := by
    rw [scanPort]
    exact if_pos rfl
  rw [hopen, hrun, hclose]
  simp

/-- **The scanner stops after a string.** -/
theorem scanPort_string {w : Text} (hw : InsideString w) {buf : Text}
    (hbuf : buf.head? ≠ some backslash)
    (hplain : (Lex.start.run (dquote :: (w ++ [dquote]))).plain = true) (rest : Text) :
    scanPort .start buf (dquote :: (w ++ [dquote]) ++ rest) =
      some ((dquote :: (w ++ [dquote])).reverse ++ buf, rest) := by
  have hlast : Lex.start.Last buf := ⟨⟨fun h => absurd h Bool.false_ne_true, fun h => absurd h hbuf⟩,
    fun h => by cases h⟩
  obtain ⟨hmode, hstay, hdepth⟩ := hw (Lex.start.step dquote) rfl
  rw [Lex.run_cons, Lex.run_append] at hplain
  have hplain' := Lex.plain_of_step hplain
  obtain ⟨hlast', seen, -, hrun⟩ := scanPort_run (w := dquote :: w) hlast hplain'
    ⟨.inr (.inl rfl), hstay.mono fun l hl => .inr hl.1⟩ false
  have hne : ((dquote :: w).reverse ++ buf).head? ≠ some backslash := fun h => by
    have hback : ((Lex.start.step dquote).run w).afterBackslash = true := hlast'.last.mpr h
    have hfalse : (((Lex.start.step dquote).run w).step dquote).plain = false := by
      rw [Lex.plain_step_dquote hmode, hback]
      exact Bool.and_false _
    exact absurd (hplain.symm.trans hfalse) (by decide)
  have hclose : ((Lex.start.run (dquote :: w)).scan seen).step
      ((dquote :: w).reverse ++ buf).head? dquote = ⟨0, false, false, true⟩ := by
    unfold Lex.scan
    rw [Lex.run_cons, hmode, hdepth]
    show Scan.step ⟨0, true, false, seen⟩ _ dquote = _
    rw [Scan.step_dquote hne, Bool.or_true]
    rfl
  have hend : scanPort ((Lex.start.run (dquote :: w)).scan seen) ((dquote :: w).reverse ++ buf)
      (dquote :: rest) = some (dquote :: ((dquote :: w).reverse ++ buf), rest) := by
    rw [scanPort, hclose]
    exact if_pos rfl
  rw [show dquote :: (w ++ [dquote]) ++ rest = (dquote :: w) ++ (dquote :: rest) by simp,
    show Scan.start = Lex.start.scan false from rfl, hrun, hend]
  simp

/-- Outside lists and strings the scanner stops at once. -/
theorem scanPort_first {c : Char} (hq : c ≠ dquote) (hs : c ≠ ';') (hl : c ≠ '(') (hr : c ≠ ')')
    (hsp : isSpace c = false) (buf t : Text) :
    scanPort .start buf (c :: t) = some (c :: buf, t) := by
  have hturn : Lex.turn c = 0 := by
    unfold Lex.turn
    rw [if_neg hl, if_neg hr]
  have hstep : Scan.start.step buf.head? c = ⟨0, false, false, true⟩ := by
    rw [show Scan.start = ⟨0, false, false, false⟩ from rfl, Scan.step_code hq hs, hturn, hsp,
      beq_eq_false_iff_ne.mpr hr]
    rfl
  rw [scanPort, hstep]
  exact if_pos rfl

/-- **Before a datum** the scanner goes through the separators. -/
theorem scanPort_skip {t u : Text} {c : Char} {b : Bool} (h : skipFrom b t = c :: u) (buf : Text)
    (hbuf : b = false → buf.head? ≠ some backslash) :
    ∃ sep, t = sep ++ c :: u ∧ (sep.reverse ++ buf).head? ≠ some backslash ∧
      scanPort ⟨0, false, b, false⟩ buf t = scanPort .start (sep.reverse ++ buf) (c :: u) := by
  induction t generalizing b buf with
  | nil => exact absurd h (List.cons_ne_nil c u).symm
  | cons x t ih =>
    cases b with
    | true =>
      obtain ⟨sep, rfl, hlast, hscan⟩ := ih h (x :: buf) (fun hx => by
        rw [bne_eq_false_iff_eq.mp hx]
        exact fun h => absurd (Option.some.inj h) (by decide))
      refine ⟨x :: sep, rfl, by rwa [List.reverse_cons, List.append_assoc], ?_⟩
      rw [List.reverse_cons, List.append_assoc, scanPort]
      by_cases hx : x = '\n'
      · subst hx
        exact (if_neg Bool.false_ne_true).trans hscan
      · have hstep : Scan.step ⟨0, false, true, false⟩ buf.head? x = ⟨0, false, true, false⟩ := by
          simp [Scan.step, hx]
        rw [bne_iff_ne.mpr hx] at hscan
        rw [hstep]
        exact (if_neg Bool.false_ne_true).trans hscan
    | false =>
      unfold skipFrom at h
      split at h
      · rename_i hsp
        have hq : x ≠ dquote := by rintro rfl; exact absurd hsp (by decide)
        have hs : x ≠ ';' := by rintro rfl; exact absurd hsp (by decide)
        have hb : x ≠ backslash := by rintro rfl; exact absurd hsp (by decide)
        have hturn : Lex.turn x = 0 := by
          unfold Lex.turn
          rw [if_neg (by rintro rfl; exact absurd hsp (by decide)),
            if_neg (by rintro rfl; exact absurd hsp (by decide))]
        obtain ⟨sep, rfl, hlast, hscan⟩ := ih h (x :: buf)
          (fun _ h => hb (Option.some.inj h))
        refine ⟨x :: sep, rfl, by rwa [List.reverse_cons, List.append_assoc], ?_⟩
        rw [List.reverse_cons, List.append_assoc, scanPort, Scan.step_code hq hs, hturn, hsp,
          Bool.or_true]
        exact (if_neg Bool.false_ne_true).trans hscan
      · split at h
        · rename_i hx
          subst hx
          obtain ⟨sep, rfl, hlast, hscan⟩ := ih h (';' :: buf)
            (fun h => by cases h)
          refine ⟨';' :: sep, rfl, by rwa [List.reverse_cons, List.append_assoc], ?_⟩
          rw [List.reverse_cons, List.append_assoc, scanPort]
          exact (if_neg Bool.false_ne_true).trans hscan
        · obtain ⟨rfl, rfl⟩ := List.cons.inj h
          exact ⟨[], rfl, hbuf rfl, rfl⟩

/-- Where there is no datum, the scanner sees nothing. -/
theorem scanPort_blank {t : Text} {b : Bool} (h : skipFrom b t = []) (buf : Text) :
    scanPort ⟨0, false, b, false⟩ buf t = none := by
  induction t generalizing b buf with
  | nil => rfl
  | cons x t ih =>
    cases b with
    | true =>
      rw [scanPort]
      by_cases hx : x = '\n'
      · subst hx
        exact (if_neg Bool.false_ne_true).trans (ih h _)
      · have hstep : Scan.step ⟨0, false, true, false⟩ buf.head? x = ⟨0, false, true, false⟩ := by
          simp [Scan.step, hx]
        rw [hstep]
        rw [skipFrom_true_cons, bne_iff_ne.mpr hx] at h
        exact (if_neg Bool.false_ne_true).trans (ih h _)
    | false =>
      unfold skipFrom at h
      split at h
      · rename_i hsp
        have hq : x ≠ dquote := by rintro rfl; exact absurd hsp (by decide)
        have hs : x ≠ ';' := by rintro rfl; exact absurd hsp (by decide)
        have hturn : Lex.turn x = 0 := by
          unfold Lex.turn
          rw [if_neg (by rintro rfl; exact absurd hsp (by decide)),
            if_neg (by rintro rfl; exact absurd hsp (by decide))]
        rw [scanPort, Scan.step_code hq hs, hturn, hsp, Bool.or_true]
        exact (if_neg Bool.false_ne_true).trans (ih h _)
      · split at h
        · rename_i hx
          subst hx
          rw [scanPort]
          exact (if_neg Bool.false_ne_true).trans (ih h _)
        · exact absurd h (List.cons_ne_nil _ _)

/-! ## One call -/

/-- **The data of a text, with a condition on the piece of each.** -/
inductive EachDatum (P : Text → Prop) : Text → List Datum → Prop
  | nil {t} : skipAtmosphere t = [] → EachDatum P t []
  | cons {t w t' d ds} : skipAtmosphere t = w ++ t' → Reads .datum (w ++ t') d t' → P w →
      EachDatum P t' ds → EachDatum P t (d :: ds)

/-- A list, a string or a token of one character. -/
def ScannedWhole (w : Text) : Prop :=
  w.head? = some '(' ∨ w.head? = some dquote ∨ w.length = 1

/-- No quote that opens or closes a string comes right after a backslash. -/
def QuotesPlain (w : Text) : Prop := (Lex.start.run w).plain = true

/-- What a port has after a call: the text after the datum, or some of it is
gone, but nothing that is read. -/
def LeavesRest (port : Text) (d : Datum) (rest : Text) : Prop :=
  ∃ t', Reads .datum (skipAtmosphere port) d t' ∧
    ∃ sep, t' = sep ++ rest ∧ skipAtmosphere t' = skipAtmosphere rest

/-- **Calls of `read` give the data of a port**, one after the other, each
leaves the text after its datum, and then the port is at its end. -/
def PortReads (who : String) : Sources → Text → List Datum → Prop
  | srcs, port, [] => (readOneFromPort srcs who port).1 = .ok none
  | srcs, port, d :: ds =>
    (readOneFromPort srcs who port).1 = .ok (some d) ∧
      LeavesRest port d (readOneFromPort srcs who port).2.2 ∧
      PortReads who (readOneFromPort srcs who port).2.1 (readOneFromPort srcs who port).2.2 ds

/-- A table as sessions leave it. -/
structure Sources.Usual (srcs : Sources) : Prop where
  sentry : SentryFirst srcs
  length_le : srcs.length ≤ 0xFFFF

theorem Sources.usual_session (before : List Request) :
    Sources.Usual (Request.session before) := by
  obtain ⟨hs, hlen⟩ := Request.session_spec before
  exact ⟨hs, by omega⟩

/-- What a call does with what the scanner has taken. -/
theorem readOneFromPort_of_scan {port buf rest : Text}
    (hscan : scanPort .start [] port = some (buf, rest)) (srcs : Sources) (who : String) :
    readOneFromPort srcs who port =
      ((readOne (readerText (sourceIntern srcs ⟨who, buf.reverse, false⟩).2
        (sourceIntern srcs ⟨who, buf.reverse, false⟩).1)).map (·.map Prod.fst),
        (sourceIntern srcs ⟨who, buf.reverse, false⟩).2, rest) := by
  unfold readOneFromPort
  rw [hscan]

theorem readOneFromPort_blank {port : Text} (h : skipAtmosphere port = []) (srcs : Sources)
    (who : String) : (readOneFromPort srcs who port).1 = .ok none := by
  have hscan : scanPort .start [] port = none := scanPort_blank h []
  unfold readOneFromPort
  rw [hscan]

/-- **The scanner takes the piece of a datum** that it is made for. -/
theorem scanPort_piece {port w t' : Text} {d : Datum} (hport : skipAtmosphere port = w ++ t')
    (hd : Reads .datum (w ++ t') d t') (hwhole : ScannedWhole w) (hplain : QuotesPlain w) :
    ∃ sep, port = sep ++ (w ++ t') ∧
      scanPort .start [] port = some (w.reverse ++ sep.reverse, t') := by
  obtain ⟨c, w, rfl⟩ := List.exists_cons_of_ne_nil hd.piece_ne_nil
  obtain ⟨hsp, hsemi⟩ := skipFrom_eq_cons hport
  obtain ⟨sep, hsep, hback, hscan⟩ := scanPort_skip hport []
    (fun _ h => absurd h (Option.some_ne_none _).symm)
  rw [List.append_nil] at hback hscan
  refine ⟨sep, hsep, hscan.trans ?_⟩
  show scanPort .start sep.reverse (c :: w ++ t') = _
  obtain ⟨w', hw', -, hread⟩ := hd.piece
  obtain rfl := List.append_cancel_right hw'
  obtain ⟨hr, hlist, hstring⟩ := hd.first (List.cons_append ..)
  have hopen : c = '(' → scanPort .start sep.reverse (c :: w ++ t') =
      some ((c :: w).reverse ++ sep.reverse, t') := by
    rintro rfl
    obtain ⟨u, hu, ⟨v, rfl, hv⟩, -⟩ := (hlist rfl).piece
    obtain rfl := List.append_cancel_right hu
    exact scanPort_list hv hplain t'
  have hquote : c = dquote → scanPort .start sep.reverse (c :: w ++ t') =
      some ((c :: w).reverse ++ sep.reverse, t') := by
    rintro rfl
    obtain ⟨s, hs⟩ := hstring rfl
    obtain ⟨v, hv, hin, -⟩ := readString_piece hs
    have hw : w ++ t' = v ++ [dquote] ++ t' := by
      rw [List.append_assoc]
      exact hv
    obtain rfl := List.append_cancel_right hw
    exact scanPort_string hin hback hplain t'
  rcases hwhole with hl | hq | hone
  · exact hopen (Option.some.inj hl)
  · exact hquote (Option.some.inj hq)
  · obtain rfl : w = [] := List.length_eq_zero_iff.mp (Nat.succ.inj hone)
    by_cases hl : c = '('
    · exact hopen hl
    by_cases hq : c = dquote
    · exact hquote hq
    exact scanPort_first hq hsemi hl hr hsp sep.reverse t'

/-- A call reads a piece, where the table has a place for it. -/
theorem readOneFromPort_piece {port w t' : Text} {d : Datum}
    (hport : skipAtmosphere port = w ++ t') (hd : Reads .datum (w ++ t') d t')
    (hwhole : ScannedWhole w) (hplain : QuotesPlain w) {srcs : Sources}
    (hlen : srcs.length < 0xFFFF) (who : String) :
    (readOneFromPort srcs who port).1 = .ok (some d) ∧
      (readOneFromPort srcs who port).2.1.length = max 1 srcs.length + 1 ∧
      (readOneFromPort srcs who port).2.2 = t' := by
  obtain ⟨sep, hsep, hscan⟩ := scanPort_piece hport hd hwhole hplain
  have hne := hd.piece_ne_nil
  rw [readOneFromPort_of_scan hscan, readerText_sourceIntern hlen]
  refine ⟨?_, ?_, rfl⟩
  · have hskip : skipAtmosphere (sep ++ w) = w := by
      obtain ⟨sep', hsep', -, hread⟩ := skipped_piece hne hport
      obtain rfl := List.append_cancel_right (hsep.symm.trans hsep')
      have := hread []
      rwa [List.append_nil] at this
    have hdatum : Reads .datum (skipAtmosphere (sep ++ w)) d [] := by
      obtain ⟨w', hw', -, hread⟩ := hd.piece
      obtain rfl := List.append_cancel_right hw'
      have := hread [] (.inl rfl)
      rwa [List.append_nil, ← hskip] at this
    show (readOne (w.reverse ++ sep.reverse).reverse).map (·.map Prod.fst) = _
    rw [List.reverse_append, List.reverse_reverse, List.reverse_reverse,
      readOne_eq_some_iff.mpr hdatum]
    rfl
  · show (sourceIntern srcs _).2.length = _
    rw [length_sourceIntern]
    omega

/-! ## All calls -/

/-- **Where the scanner is made for the data, and has a place for each, it
reads them.** -/
theorem portReads_of_each {who : String} {srcs : Sources} {port : Text} {ds : List Datum}
    (h : EachDatum (fun w => ScannedWhole w ∧ QuotesPlain w) port ds)
    (hroom : max 1 srcs.length + ds.length ≤ 0xFFFF) : PortReads who srcs port ds := by
  induction h generalizing srcs with
  | nil hskip => exact readOneFromPort_blank hskip srcs who
  | @cons port w t' d ds hport hd hw _ ih =>
    rw [List.length_cons] at hroom
    obtain ⟨hdatum, hlen, hrest⟩ :=
      readOneFromPort_piece hport hd hw.1 hw.2 (show srcs.length < 0xFFFF by omega) who
    refine ⟨hdatum, ⟨t', by rwa [hport], [], ?_, ?_⟩, ?_⟩
    · exact hrest.symm
    · rw [hrest]
    · rw [hrest]
      exact ih (by omega)

theorem Reads.unique {t t₁ t₂ : Text} {d₁ d₂ : Datum} (h₁ : Reads .datum (skipAtmosphere t) d₁ t₁)
    (h₂ : Reads .datum (skipAtmosphere t) d₂ t₂) : d₁ = d₂ ∧ t₁ = t₂ := by
  have heq := (readOne_eq_some_iff.mpr h₁).symm.trans (readOne_eq_some_iff.mpr h₂)
  exact Prod.mk.inj (Option.some.inj (Except.ok.inj heq))

/-- A table without a place has no datum to give. -/
theorem length_lt_of_readOneFromPort {srcs : Sources} (hs : srcs.Usual) {who : String}
    {port : Text} {d : Datum} (h : (readOneFromPort srcs who port).1 = .ok (some d)) :
    srcs.length < 0xFFFF ∧ (readOneFromPort srcs who port).2.1.Usual ∧
      (readOneFromPort srcs who port).2.1.length = max 1 srcs.length + 1 := by
  cases hscan : scanPort .start [] port with
  | none =>
    unfold readOneFromPort at h
    rw [hscan] at h
    exact absurd (Except.ok.inj h) (Option.some_ne_none d).symm
  | some r =>
    obtain ⟨buf, rest⟩ := r
    rw [readOneFromPort_of_scan hscan] at h ⊢
    have hlen : srcs.length < 0xFFFF := by
      refine Nat.lt_of_not_le fun hfull => ?_
      rw [readerText_sourceIntern_full hs.sentry hfull] at h
      exact absurd (Except.ok.inj h) (Option.some_ne_none d).symm
    have hlen' : (sourceIntern srcs ⟨who, buf.reverse, false⟩).2.length
        = max 1 srcs.length + 1 := by
      rw [length_sourceIntern]
      omega
    exact ⟨hlen, ⟨hs.sentry.sourceIntern _, by rw [hlen']; omega⟩, hlen'⟩

/-- **A datum that is read is a list, a string or a token of one character.** -/
theorem scannedWhole_of_leavesRest {srcs : Sources} {who : String} {port w t' : Text} {d : Datum}
    (hport : skipAtmosphere port = w ++ t') (hd : Reads .datum (w ++ t') d t')
    (hrest : LeavesRest port d (readOneFromPort srcs who port).2.2) : ScannedWhole w := by
  obtain ⟨c, w, rfl⟩ := List.exists_cons_of_ne_nil hd.piece_ne_nil
  obtain ⟨hsp, hsemi⟩ := skipFrom_eq_cons hport
  by_cases hl : c = '('
  · exact .inl (congrArg some hl)
  by_cases hq : c = dquote
  · exact .inr (.inl (congrArg some hq))
  have hr : c ≠ ')' := (hd.first (List.cons_append ..)).1
  -- the scanner has stopped after the first character
  obtain ⟨sep, -, -, hscan⟩ := scanPort_skip hport []
    (fun _ h => absurd h (Option.some_ne_none _).symm)
  rw [scanPort_first hq hsemi hl hr hsp] at hscan
  rw [readOneFromPort_of_scan hscan] at hrest
  obtain ⟨t'', hd'', sep', hsep', -⟩ := hrest
  obtain ⟨-, rfl⟩ := Reads.unique (by rwa [hport] : Reads .datum (skipAtmosphere port) d t') hd''
  have hlen := congrArg List.length hsep'
  rw [List.length_append] at hlen
  have hshow : (w ++ t').length = w.length + t'.length := List.length_append
  refine .inr (.inr ?_)
  show w.length + 1 = 1
  have : t'.length = sep'.length + (w ++ t').length := hlen
  omega

/-- **What is read was made for the scanner**, and found a place. -/
theorem each_of_portReads {who : String} {srcs : Sources} {port t : Text} {ds : List Datum}
    (hs : srcs.Usual) (ht : ReadsAll t ds) (hport : skipAtmosphere port = skipAtmosphere t)
    (h : PortReads who srcs port ds) :
    EachDatum ScannedWhole t ds ∧ max 1 srcs.length + ds.length ≤ 0xFFFF := by
  induction ht generalizing srcs port with
  | nil hskip =>
    refine ⟨.nil hskip, ?_⟩
    have := hs.length_le
    show max 1 srcs.length ≤ 0xFFFF
    omega
  | @cons t d t' ds hd _ ih =>
    obtain ⟨hdatum, hrest, hports⟩ := h
    obtain ⟨hlen, hs', hlen'⟩ := length_lt_of_readOneFromPort hs hdatum
    obtain ⟨w, hw, -, -⟩ := hd.piece
    have hd' := hd
    rw [hw] at hd'
    have hwhole := scannedWhole_of_leavesRest (hport.trans hw) hd' hrest
    obtain ⟨t'', hd'', sep, -, hsep⟩ := hrest
    rw [hport] at hd''
    obtain ⟨-, rfl⟩ := Reads.unique hd hd''
    obtain ⟨heach, hroom⟩ := ih hs' hsep.symm hports
    refine ⟨.cons hw hd' hwhole heach, ?_⟩
    rw [List.length_cons]
    omega

/-- **Two readers.** Of a text that the program reader accepts, the calls of
`read` give the same data only if each datum is a list, a string or a token
of one character, and the table of sources has a place for each; and they do
if besides no quote of a string comes right after a backslash. -/
theorem portReads_iff_of_readAll (before : List Request) (who : String) {t : Text}
    {ds : List Datum} (h : readAll t = .ok ds) :
    (PortReads who (Request.session before) t ds → EachDatum ScannedWhole t ds ∧
        max 1 (Request.session before).length + ds.length ≤ 0xFFFF) ∧
      (EachDatum (fun w => ScannedWhole w ∧ QuotesPlain w) t ds →
        max 1 (Request.session before).length + ds.length ≤ 0xFFFF →
        PortReads who (Request.session before) t ds) :=
  ⟨each_of_portReads (Sources.usual_session before) (readsAll_of_readAllFrom h) rfl,
    portReads_of_each⟩

/-- A list is read from a port. -/
theorem portReads_list : PortReads "<read>" (Request.session []) ['(', 'a', ')']
    [.pair (.sym "a") .nil] := by
  refine (portReads_iff_of_readAll [] "<read>" (t := ['(', 'a', ')']) rfl).2 ?_ (by decide)
  have hd : Reads .datum ['(', 'a', ')'] (.pair (.sym "a") .nil) [] :=
    readOne_eq_some_iff (t := ['(', 'a', ')']).mp rfl
  exact .cons (w := ['(', 'a', ')']) rfl hd ⟨.inl rfl, rfl⟩ (.nil rfl)

/-- Of a symbol of two letters the first one is read. -/
theorem portReads_symbol : readAll ['a', 'b'] = .ok [.sym "ab"] ∧
    ¬ PortReads "<read>" (Request.session []) ['a', 'b'] [.sym "ab"] := by
  refine ⟨rfl, fun h => ?_⟩
  have hread : (readOneFromPort (Request.session []) "<read>" ['a', 'b']).1
      = .ok (some (.sym "a")) := rfl
  have hsym := Option.some.inj (Except.ok.inj (hread.symm.trans h.1))
  exact absurd (Value.sym.inj (Datum.atom.inj hsym)) (by decide)

end Scheme14
