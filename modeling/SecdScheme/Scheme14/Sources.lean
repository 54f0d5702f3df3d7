import SecdScheme.Scheme14.Grammar
import Mathlib.Data.List.Induction

/-!
# scheme14: the table of sources

A text that is read is registered first, and the reader takes it from the
table by its number. A number has 16 bits, and `0` is the number of the
sentry `<unknown>`, whose text is empty: it is given to a text that no longer
finds a place. So a full table costs more than the positions of what is read
– the reader reads the text of the sentry.

This module has the table, the reading of files, of what is typed in and of
ports, and says exactly for which requests the answer depends on the requests
before.
-/

namespace Scheme14

/-! ## The table -/

/-- `SourceFile`. -/
structure SourceFile where
  name : String
  text : Text
  isLibrary : Bool
  deriving DecidableEq

/-- `g_sources`. -/
abbrev Sources := List SourceFile

/-- `source_table_init`: the sentry is at `0`. -/
def sourceTableInit (srcs : Sources) : Sources :=
  if srcs = [] then [⟨"<unknown>", [], false⟩] else srcs

/-- `source_intern`: the number of the text. -/
def sourceIntern (srcs : Sources) (f : SourceFile) : ℕ × Sources :=
  let srcs := sourceTableInit srcs
  if 0xFFFF ≤ srcs.length then (0, srcs) else (srcs.length, srcs ++ [f])

/-- The text a `Reader` is made for. -/
def readerText (srcs : Sources) (id : ℕ) : Text := (srcs[id]?.map (·.text)).getD []

/-! ## Reading from a port -/

/-- What `read_one_from_port` keeps while it looks for the end of a datum. -/
structure Scan where
  depth : ℤ
  inString : Bool
  inComment : Bool
  seen : Bool
  deriving DecidableEq, Repr

namespace Scan

/-- Before the first character. -/
def start : Scan := ⟨0, false, false, false⟩

/-- One character, outside a comment, after `last`. -/
def look (s : Scan) (last : Option Char) (c : Char) : Scan :=
  let s :=
    if c = dquote ∧ last ≠ some backslash then { s with inString := !s.inString } else s
  if s.inString then s
  else if c = '(' then { s with depth := s.depth + 1, seen := true }
  else if c = ')' then { s with depth := s.depth - 1 }
  else if isSpace c then s
  else { s with seen := true }

/-- One character. -/
def step (s : Scan) (last : Option Char) (c : Char) : Scan :=
  let inComment := (s.inComment || (c = ';' && !s.inString)) && c != '\n'
  if inComment then { s with inComment := true }
  else { s with inComment := false }.look last c

/-- Whether the character just looked at is taken for the last one. -/
def stops (s : Scan) : Bool := !s.inComment && s.seen && s.depth = 0 && !s.inString

end Scan

/-- The loop of `read_one_from_port`: the characters taken, the last one
first, and what the port has left; nothing where the port ends before
anything was seen. -/
def scanPort : Scan → Text → Text → Option (Text × Text)
  | s, buf, [] => if s.seen then some (buf, []) else none
  | s, buf, c :: t =>
    let s := s.step buf.head? c
    if s.stops then some (c :: buf, t) else scanPort s (c :: buf) t

/-- **`read_one_from_port`**: the datum, or nothing at the end of the port,
the table and what the port has left. -/
def readOneFromPort (srcs : Sources) (who : String) (port : Text) :
    Except ReadError (Option Datum) × Sources × Text :=
  match scanPort .start [] port with
  | none => (.ok none, srcs, [])
  | some (buf, rest) =>
    let (id, srcs) := sourceIntern srcs ⟨who, buf.reverse, false⟩
    ((readOne (readerText srcs id)).map (·.map Prod.fst), srcs, rest)

/-! ## Requests -/

/-- A text that is read: a file, what was typed in, or the next datum of a
port. -/
inductive Request where
  | all (f : SourceFile)
  | one (who : String) (port : Text)

/-- What is read. -/
inductive Answer where
  | all (data : Except ReadError (List Datum))
  | one (datum : Except ReadError (Option Datum)) (rest : Text)

namespace Request

/-- A request, with the table there is. -/
def perform (srcs : Sources) : Request → Answer × Sources
  | all f =>
    let (id, srcs) := sourceIntern srcs f
    (.all (readAll (readerText srcs id)), srcs)
  | one who port =>
    let r := readOneFromPort srcs who port
    (.one r.1 r.2.2, r.2.1)

/-- The table after some requests. -/
def session (rs : List Request) : Sources := rs.foldl (fun srcs r => (r.perform srcs).2) []

/-- Whether a request registers a text. -/
def registers : Request → Bool
  | all _ => true
  | one _ port => (scanPort .start [] port).isSome

/-- Whether a request has no datum to read. -/
def blank : Request → Bool
  | all f => skipAtmosphere f.text = []
  | one _ port => (scanPort .start [] port).isNone

end Request

/-! ## The text a number stands for -/

theorem sourceTableInit_ne_nil (srcs : Sources) : sourceTableInit srcs ≠ [] := by
  unfold sourceTableInit
  split
  · exact List.cons_ne_nil _ _
  · assumption

theorem length_sourceTableInit (srcs : Sources) :
    (sourceTableInit srcs).length = max 1 srcs.length := by
  unfold sourceTableInit
  cases srcs with
  | nil => rfl
  | cons f srcs =>
    rw [if_neg (List.cons_ne_nil f srcs), Nat.max_eq_right]
    exact Nat.succ_le_succ (Nat.zero_le _)

/-- A text that finds a place is the one the reader takes. -/
theorem readerText_sourceIntern {srcs : Sources} (h : srcs.length < 0xFFFF) (f : SourceFile) :
    readerText (sourceIntern srcs f).2 (sourceIntern srcs f).1 = f.text := by
  have hlen : ¬ 0xFFFF ≤ (sourceTableInit srcs).length := by
    rw [length_sourceTableInit]
    omega
  unfold sourceIntern
  rw [if_neg hlen]
  show (((sourceTableInit srcs ++ [f])[(sourceTableInit srcs).length]?).map (·.text)).getD [] = _
  rw [List.getElem?_concat_length]
  rfl

/-- The sentry stays at its place. -/
def SentryFirst (srcs : Sources) : Prop := srcs = [] ∨ (srcs[0]?.map (·.text)) = some []

theorem SentryFirst.init {srcs : Sources} (h : SentryFirst srcs) :
    (sourceTableInit srcs)[0]?.map (·.text) = some [] := by
  unfold sourceTableInit
  rcases h with rfl | h
  · rfl
  · rw [if_neg]
    · exact h
    · rintro rfl
      simp at h

theorem SentryFirst.sourceIntern {srcs : Sources} (h : SentryFirst srcs) (f : SourceFile) :
    SentryFirst (sourceIntern srcs f).2 := by
  have hinit := h.init
  unfold Scheme14.sourceIntern
  dsimp only
  split
  · exact .inr hinit
  · refine .inr ?_
    have hpos := List.length_pos_iff.mpr (sourceTableInit_ne_nil srcs)
    rw [List.getElem?_append_left hpos]
    exact hinit

/-- **A text that finds no place** is read as the empty text. -/
theorem readerText_sourceIntern_full {srcs : Sources} (hs : SentryFirst srcs)
    (h : 0xFFFF ≤ srcs.length) (f : SourceFile) :
    readerText (sourceIntern srcs f).2 (sourceIntern srcs f).1 = [] := by
  have hlen : 0xFFFF ≤ (sourceTableInit srcs).length := by
    rw [length_sourceTableInit]
    exact Nat.le_trans h (Nat.le_max_right _ _)
  unfold sourceIntern
  rw [if_pos hlen]
  show ((sourceTableInit srcs)[0]?.map (·.text)).getD [] = []
  rw [hs.init]
  rfl

theorem length_sourceIntern (srcs : Sources) (f : SourceFile) :
    (sourceIntern srcs f).2.length = max srcs.length (min 0xFFFF (max 1 srcs.length + 1)) := by
  unfold sourceIntern
  dsimp only
  split
  · rename_i h
    rw [length_sourceTableInit] at h ⊢
    omega
  · rename_i h
    rw [length_sourceTableInit] at h
    rw [List.length_append, length_sourceTableInit]
    show max 1 srcs.length + 1 = _
    omega

/-! ## Sessions -/

namespace Request

theorem sentryFirst_perform {srcs : Sources} (h : SentryFirst srcs) (r : Request) :
    SentryFirst (r.perform srcs).2 := by
  cases r with
  | all f => exact h.sourceIntern f
  | one who port =>
    show SentryFirst (readOneFromPort srcs who port).2.1
    unfold readOneFromPort
    split
    · exact h
    · exact h.sourceIntern _

theorem length_perform (srcs : Sources) (r : Request) :
    (r.perform srcs).2.length =
      if r.registers then max srcs.length (min 0xFFFF (max 1 srcs.length + 1))
      else srcs.length := by
  cases r with
  | all f => exact length_sourceIntern srcs f
  | one who port =>
    show (readOneFromPort srcs who port).2.1.length = _
    unfold readOneFromPort registers
    cases hscan : scanPort .start [] port with
    | none => simp only [hscan, Option.isSome_none, Bool.false_eq_true, if_false]
    | some r =>
      simp only [hscan, Option.isSome_some, if_true]
      exact length_sourceIntern srcs _

theorem session_append (rs : List Request) (r : Request) :
    session (rs ++ [r]) = (r.perform (session rs)).2 := by
  unfold session
  rw [List.foldl_append]
  rfl

/-- **The table after a session**: the sentry and the texts registered, as
long as there was a place. -/
theorem session_spec (rs : List Request) :
    SentryFirst (session rs) ∧
      max 1 (session rs).length = min 0xFFFF (rs.countP registers + 1) := by
  induction rs using List.reverseRecOn with
  | nil => exact ⟨.inl rfl, rfl⟩
  | append_singleton rs r ih =>
    obtain ⟨hs, hlen⟩ := ih
    rw [session_append]
    refine ⟨sentryFirst_perform hs r, ?_⟩
    rw [length_perform, List.countP_append, List.countP_singleton]
    split
    · omega
    · omega

end Request

/-! ## What the scan of a port takes -/

/-- What is known of the characters taken so far: there are only separators
among them, or a datum has begun. -/
def Scan.Tracks (s : Scan) (taken : Text) : Prop :=
  (s.seen = false ∧ s.inString = false ∧
      ∀ t, skipAtmosphere (taken ++ t) = skipFrom s.inComment t) ∨
    ∀ t, skipAtmosphere (taken ++ t) ≠ []

theorem Scan.Tracks.step {s : Scan} {taken : Text} (h : s.Tracks taken) (last : Option Char)
    (c : Char) : (s.step last c).Tracks (taken ++ [c]) := by
  rcases h with ⟨hseen, hstr, hskip⟩ | h
  · obtain ⟨depth, inString, inComment, seen⟩ := s
    subst hseen hstr
    have hnext : ∀ t, skipAtmosphere (taken ++ [c] ++ t) = skipFrom inComment (c :: t) :=
      fun t => by rw [List.append_assoc]; exact hskip (c :: t)
    cases inComment with
    | true =>
      -- a comment goes on up to the end of the line
      by_cases hc : c = '\n'
      · subst hc
        exact .inl ⟨rfl, rfl, hnext⟩
      · have hstep : Scan.step ⟨depth, false, true, false⟩ last c = ⟨depth, false, true, false⟩ := by
          simp [Scan.step, hc]
        rw [hstep]
        refine .inl ⟨rfl, rfl, fun t => ?_⟩
        rw [hnext, skipFrom_true_cons, bne_iff_ne.mpr hc]
    | false =>
      by_cases hc : c = ';'
      · subst hc
        exact .inl ⟨rfl, rfl, hnext⟩
      · by_cases hsp : isSpace c = true
        · have hstep : Scan.step ⟨depth, false, false, false⟩ last c
              = ⟨depth, false, false, false⟩ := by
            have hq : c ≠ dquote := by rintro rfl; exact absurd hsp (by decide)
            have hl : c ≠ '(' := by rintro rfl; exact absurd hsp (by decide)
            have hr : c ≠ ')' := by rintro rfl; exact absurd hsp (by decide)
            simp [Scan.step, Scan.look, hc, hq, hl, hr, hsp]
          rw [hstep]
          refine .inl ⟨rfl, rfl, fun t => ?_⟩
          rw [hnext, skipFrom_space hsp]
        · refine .inr fun t => ?_
          rw [hnext, skipFrom_datum (Bool.eq_false_iff.mpr hsp) hc]
          exact List.cons_ne_nil c t
  · refine .inr fun t => ?_
    rw [List.append_assoc]
    exact h _

/-- **What the scan takes has a datum in it.** -/
theorem skipAtmosphere_of_scanPort {s : Scan} {buf t buf' rest : Text}
    (hs : s.Tracks buf.reverse) (h : scanPort s buf t = some (buf', rest)) :
    skipAtmosphere buf'.reverse ≠ [] := by
  have hend : ∀ {s : Scan} {buf : Text}, s.Tracks buf.reverse → s.seen = true →
      skipAtmosphere buf.reverse ≠ [] := by
    intro s buf hs hseen
    rcases hs with ⟨hno, -⟩ | hs
    · exact absurd (hseen.symm.trans hno) (by decide)
    · have := hs []
      rwa [List.append_nil] at this
  induction t generalizing s buf with
  | nil =>
    unfold scanPort at h
    split at h
    · obtain ⟨rfl, -⟩ := Prod.mk.inj (Option.some.inj h)
      exact hend hs ‹_›
    · exact absurd h (Option.some_ne_none _).symm
  | cons c t ih =>
    have hs' : (s.step buf.head? c).Tracks (c :: buf).reverse := by
      rw [List.reverse_cons]
      exact hs.step _ _
    unfold scanPort at h
    dsimp only at h
    split at h
    · obtain ⟨rfl, -⟩ := Prod.mk.inj (Option.some.inj h)
      refine hend hs' ?_
      have hstop : (s.step buf.head? c).stops = true := ‹_›
      unfold Scan.stops at hstop
      simp only [Bool.and_eq_true] at hstop
      exact hstop.1.1.2
    · exact ih hs' h

/-! ## Reading and the requests before -/

namespace Request

/-- **A request finds a place, or has nothing to read, or is answered as if
there were nothing to read.** -/
theorem perform_eq_fresh_iff {srcs : Sources} (hs : SentryFirst srcs) (r : Request) :
    (r.perform srcs).1 = (r.perform []).1 ↔ srcs.length < 0xFFFF ∨ r.blank = true := by
  have hfresh : ∀ f, readerText (sourceIntern [] f).2 (sourceIntern [] f).1 = f.text :=
    fun f => readerText_sourceIntern (by decide) f
  cases r with
  | all f =>
    show Answer.all (readAll (readerText (sourceIntern srcs f).2 (sourceIntern srcs f).1))
        = Answer.all (readAll (readerText (sourceIntern [] f).2 (sourceIntern [] f).1)) ↔ _
    rw [hfresh, Answer.all.injEq]
    by_cases hlen : srcs.length < 0xFFFF
    · rw [readerText_sourceIntern hlen]
      exact ⟨fun _ => .inl hlen, fun _ => rfl⟩
    · rw [readerText_sourceIntern_full hs (Nat.le_of_not_lt hlen), eq_comm,
        show readAll [] = .ok [] from rfl, readAll_eq_nil_iff]
      show _ ↔ _ ∨ decide (skipAtmosphere f.text = []) = true
      rw [decide_eq_true_iff]
      exact ⟨.inr, fun h => h.resolve_left hlen⟩
  | one who port =>
    show Answer.one (readOneFromPort srcs who port).1 (readOneFromPort srcs who port).2.2
        = Answer.one (readOneFromPort [] who port).1 (readOneFromPort [] who port).2.2 ↔
      _ ∨ (scanPort .start [] port).isNone = true
    unfold readOneFromPort
    cases hscan : scanPort .start [] port with
    | none => exact ⟨fun _ => .inr rfl, fun _ => rfl⟩
    | some r =>
      obtain ⟨buf, rest⟩ := r
      have hstart : Scan.start.Tracks ([] : Text).reverse := .inl ⟨rfl, rfl, fun t => rfl⟩
      have hbuf := skipAtmosphere_of_scanPort hstart hscan
      show Answer.one ((readOne (readerText (sourceIntern srcs ⟨who, buf.reverse, false⟩).2
          (sourceIntern srcs ⟨who, buf.reverse, false⟩).1)).map (·.map Prod.fst)) rest
        = Answer.one ((readOne (readerText (sourceIntern [] ⟨who, buf.reverse, false⟩).2
          (sourceIntern [] ⟨who, buf.reverse, false⟩).1)).map (·.map Prod.fst)) rest ↔ _
      rw [hfresh, Answer.one.injEq]
      by_cases hlen : srcs.length < 0xFFFF
      · rw [readerText_sourceIntern hlen]
        exact ⟨fun _ => .inl hlen, fun _ => ⟨rfl, rfl⟩⟩
      · rw [readerText_sourceIntern_full hs (Nat.le_of_not_lt hlen)]
        refine ⟨fun h => absurd h.1 fun heq => hbuf ?_, fun h => ?_⟩
        · refine (readOne_eq_none_iff _).mp ?_
          obtain ⟨r, hr, hnone⟩ := Except.map_eq_ok.mp heq.symm
          rw [hr, Option.map_eq_none_iff.mp hnone]
        · rcases h with h | h
          · exact absurd h hlen
          · exact absurd h Bool.false_ne_true

/-- **Reading depends on the requests before exactly when the table is full**
and there is something to read: fewer than 65534 texts have been registered,
or the answer is that of an empty text. -/
theorem perform_after_session_iff (before : List Request) (r : Request) :
    (r.perform (session before)).1 = (r.perform []).1 ↔
      before.countP registers < 0xFFFE ∨ r.blank = true := by
  obtain ⟨hs, hlen⟩ := session_spec before
  rw [perform_eq_fresh_iff hs]
  refine or_congr_left ?_
  omega

/-- **A text is lost** after 65534 others. -/
theorem perform_full_table :
    ¬ ∀ before r, (perform (session before) r).1 = (perform [] r).1 := by
  intro h
  have hlost : ∀ n, 0xFFFE ≤ n →
      (perform (session (List.replicate n (.all ⟨"a.scm", [], false⟩)))
        (.all ⟨"b.scm", ['1'], false⟩)).1
        ≠ (perform [] (.all ⟨"b.scm", ['1'], false⟩)).1 := by
    intro n hn heq
    obtain ⟨hs, hlen⟩ := session_spec (List.replicate n (.all ⟨"a.scm", [], false⟩))
    rw [List.countP_replicate, if_pos (show (all ⟨"a.scm", [], false⟩).registers = true from rfl)]
      at hlen
    rcases (perform_eq_fresh_iff hs _).mp heq with hfull | hblank
    · omega
    · exact absurd hblank (by decide)
  exact hlost 0xFFFE (Nat.le_refl _) (h _ _)

end Request

end Scheme14
