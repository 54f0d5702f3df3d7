import SecdScheme.Lib.Cmd
import Mathlib.Data.List.TakeWhile

/-!
# scheme14: input ports

A port has room for one character that has been looked at, or the end of the
file. `read-char`, `peek-char` and `read-line` share it. What a port still has
to give is that character and the bytes of its file; seen so, the three
operations are those on a list of bytes.
-/

namespace Scheme14

namespace Ports

/-- **`Port`**. The file of an input port is the bytes that it has not given
yet, that of an output port the bytes that it was given; a port that has been
closed has no file. Of the character looked at, `none` is the end of the file. -/
structure Port where
  fp : Option (List UInt8)
  isInput : Bool
  isClosed : Bool
  ownsFp : Bool
  hasPeek : Bool
  peekCh : Option UInt8
  deriving DecidableEq

/-- How an operation on a port fails. -/
inductive PortErr where
  /-- `prim_type_error`. -/
  | typeError (who expected : String)
  /-- `prim_error` where a file cannot be opened. -/
  | cannotOpen (who : String)
  /-- The file of a port that has none is used. -/
  | nullFile
  | outOfFuel
  deriving DecidableEq

/-- An operation on a port. -/
abbrev PortM (α : Type) := Cmd Port PortErr α

/-- `std::fgetc`. -/
def fgetc : PortM (Option UInt8) := fun p =>
  match p.fp with
  | none => (.error .nullFile, p)
  | some [] => (.ok none, p)
  | some (c :: rest) => (.ok (some c), { p with fp := some rest })

/-- `Port::get_char`. -/
def getChar : PortM (Option UInt8) := do
  let p ← Cmd.getState
  if p.hasPeek then
    Cmd.modifyState fun p => { p with hasPeek := false }
    return p.peekCh
  else fgetc

/-- `Port::peek_char`. -/
def peekChar : PortM (Option UInt8) := do
  if !(← Cmd.getState).hasPeek then
    let c ← fgetc
    Cmd.modifyState fun p => { p with peekCh := c, hasPeek := true }
  return (← Cmd.getState).peekCh

/-- `Port::unget_char`. -/
def ungetChar (c : Option UInt8) : PortM Unit :=
  Cmd.modifyState fun p => { p with peekCh := c, hasPeek := true }

/-- `\n`. -/
abbrev lineFeed : UInt8 := 10

/-- `\r`. -/
abbrev carriageReturn : UInt8 := 13

/-- What an operation returns. -/
inductive Outcome where
  | eof
  | char (c : UInt8)
  | line (text : List UInt8)
  deriving DecidableEq

/-- A character, or the end of the file. -/
def charOutcome : Option UInt8 → Outcome
  | none => .eof
  | some c => .char c

/-- The loop of `read-line`; it runs at most as often as there are bytes. -/
def readLineFrom : ℕ → List UInt8 → PortM Outcome
  | 0, _ => Cmd.fail .outOfFuel
  | fuel + 1, line => do
    match ← getChar with
    | none => if line.isEmpty then return .eof else return .line line
    | some c =>
      if c = lineFeed then return .line line
      else if c = carriageReturn then
        let next ← getChar
        if next ≠ some lineFeed ∧ next ≠ none then ungetChar next
        return .line line
      else readLineFrom fuel (line ++ [c])

/-- **What a port still has to give**: the character looked at, and the file. -/
def Port.left (p : Port) : List UInt8 :=
  (if p.hasPeek then p.peekCh.toList else []) ++ p.fp.getD []

/-- `prim_read_line`. -/
def primReadLine : PortM Outcome := do
  readLineFrom ((← Cmd.getState).left.length + 1) []

/-- `prim_read_char`. -/
def primReadChar : PortM Outcome := do return charOutcome (← getChar)

/-- `prim_peek_char`. -/
def primPeekChar : PortM Outcome := do return charOutcome (← peekChar)

/-- The operations that share the character looked at. -/
inductive Call where
  | readChar
  | peekChar
  | readLine
  deriving DecidableEq

/-- What a call does. -/
def Call.perform : Call → PortM Outcome
  | readChar => primReadChar
  | peekChar => primPeekChar
  | readLine => primReadLine

/-- An input port that has been opened. -/
def openInput (bytes : List UInt8) : Port := ⟨some bytes, true, false, true, false, none⟩

/-- An output port that has been opened. -/
def openOutput : Port := ⟨some [], false, false, true, false, none⟩

/-- `Port::close`: a port that does not own its file is not closed. -/
def Port.close (p : Port) : Port :=
  if !p.ownsFp then p
  else if p.fp.isSome && !p.isClosed then { p with isClosed := true, fp := none }
  else p

/-! ## The operations on what is left -/

/-- **A port that can be read**: it has a file, and where the end has been looked
at nothing is behind it. -/
structure Port.Ready (p : Port) : Prop where
  file : p.fp ≠ none
  ended : p.hasPeek = true → p.peekCh = none → p.fp = some []

theorem ready_openInput (bytes : List UInt8) : (openInput bytes).Ready :=
  ⟨nofun, nofun⟩

theorem left_openInput (bytes : List UInt8) : (openInput bytes).left = bytes := rfl

/-- `fgetc` gives the next byte. -/
theorem fgetc_spec {p : Port} (h : p.Ready) (hpeek : p.hasPeek = false) :
    ∃ p', fgetc p = (.ok p.left.head?, p') ∧ p'.Ready ∧ p'.hasPeek = false ∧
      p'.left = p.left.tail := by
  obtain ⟨fp, isInput, isClosed, ownsFp, hasPeek, peekCh⟩ := p
  obtain rfl : hasPeek = false := hpeek
  cases fp with
  | none => exact absurd rfl h.file
  | some bytes =>
    cases bytes with
    | nil => exact ⟨_, rfl, h, rfl, rfl⟩
    | cons c rest => exact ⟨_, rfl, ⟨nofun, nofun⟩, rfl, rfl⟩

/-- **`get_char` takes the next byte.** -/
theorem getChar_spec {p : Port} (h : p.Ready) :
    ∃ p', getChar p = (.ok p.left.head?, p') ∧ p'.Ready ∧ p'.hasPeek = false ∧
      p'.left = p.left.tail := by
  cases hpeek : p.hasPeek with
  | false =>
    obtain ⟨p', hrun, hspec⟩ := fgetc_spec h hpeek
    refine ⟨p', ?_, hspec⟩
    show (if p.hasPeek = true then _ else fgetc : PortM _) p = _
    rw [hpeek, if_neg Bool.false_ne_true, hrun]
  | true =>
    have hrun : getChar p = (.ok p.peekCh, { p with hasPeek := false }) := by
      show (if p.hasPeek = true then _ else fgetc : PortM _) p = _
      rw [hpeek, if_pos rfl]
      rfl
    refine ⟨{ p with hasPeek := false }, ?_, ⟨h.file, nofun⟩, rfl, ?_⟩
    · rw [hrun]
      unfold Port.left
      rw [hpeek, if_pos rfl]
      cases hch : p.peekCh with
      | none =>
        rw [h.ended hpeek hch]
        rfl
      | some c => rfl
    · unfold Port.left
      rw [hpeek, if_pos rfl]
      cases hch : p.peekCh with
      | none =>
        rw [h.ended hpeek hch]
        rfl
      | some c => rfl

/-- A byte that has been taken is put back. -/
theorem ungetChar_spec {p : Port} (h : p.Ready) (hpeek : p.hasPeek = false) (c : UInt8) :
    ∃ p', ungetChar (some c) p = (.ok (), p') ∧ p'.Ready ∧ p'.left = c :: p.left := by
  refine ⟨_, rfl, ⟨h.file, nofun⟩, ?_⟩
  unfold Port.left
  rw [hpeek]
  rfl

/-- **`peek_char` looks at the next byte** and leaves it. -/
theorem peekChar_spec {p : Port} (h : p.Ready) :
    ∃ p', peekChar p = (.ok p.left.head?, p') ∧ p'.Ready ∧ p'.left = p.left := by
  cases hpeek : p.hasPeek with
  | true =>
    refine ⟨p, ?_, h, rfl⟩
    unfold peekChar
    rw [Cmd.bind_run_ok (Cmd.getState_run p), hpeek]
    show (Except.ok p.peekCh, p) = _
    unfold Port.left
    rw [hpeek, if_pos rfl]
    cases hch : p.peekCh with
    | none =>
      rw [h.ended hpeek hch]
      rfl
    | some c => rfl
  | false =>
    obtain ⟨p₁, hrun, hready, hpeek₁, hleft⟩ := fgetc_spec h hpeek
    have hfp : p₁.fp = some p.left.tail := by
      unfold Port.left at hleft
      rw [hpeek₁, if_neg Bool.false_ne_true, List.nil_append] at hleft
      cases hfile : p₁.fp with
      | none => exact absurd hfile hready.file
      | some bytes =>
        rw [hfile] at hleft
        exact congrArg some hleft
    refine ⟨{ p₁ with peekCh := p.left.head?, hasPeek := true }, ?_, ⟨hready.file, ?_⟩, ?_⟩
    · unfold peekChar
      rw [Cmd.bind_run_ok (Cmd.getState_run p), hpeek, if_pos (show (!false) = true from rfl),
        Cmd.bind_run_ok hrun]
      rfl
    · -- nothing is behind the end of the file
      intro _ hend
      show p₁.fp = some []
      rw [hfp, List.head?_eq_none_iff.1 hend]
      rfl
    · show p.left.head?.toList ++ p₁.fp.getD [] = p.left
      rw [hfp]
      cases p.left <;> rfl

/-- The bytes before the end of a line. -/
def lineOf (bytes : List UInt8) : List UInt8 :=
  bytes.takeWhile fun c => c ≠ lineFeed && c ≠ carriageReturn

/-- What is behind the end of a line. -/
def behindLine : List UInt8 → List UInt8
  | [] => []
  | c :: rest =>
    if c = lineFeed then rest
    else if c = carriageReturn then
      if rest.head? = some lineFeed then rest.tail else rest
    else behindLine rest

/-- What `read-line` returns for the bytes that are left. -/
def lineOutcome (line bytes : List UInt8) : Outcome :=
  if line = [] ∧ bytes = [] then .eof else .line (line ++ lineOf bytes)

/-- **The loop of `read-line`** takes a line and its end. -/
theorem readLineFrom_spec : ∀ (fuel : ℕ) (line : List UInt8) {p : Port}, p.Ready →
    p.left.length < fuel → ∃ p', readLineFrom fuel line p = (.ok (lineOutcome line p.left), p') ∧
      p'.Ready ∧ p'.left = behindLine p.left
  | 0, _, _, _, hfuel => absurd hfuel (Nat.not_lt_zero _)
  | fuel + 1, line, p, h, hfuel => by
    obtain ⟨p₁, hrun, hready, hpeek, hleft⟩ := getChar_spec h
    unfold readLineFrom
    rw [Cmd.bind_run_ok hrun]
    cases hbytes : p.left with
    | nil =>
      rw [hbytes] at hleft
      refine ⟨p₁, ?_, hready, hleft⟩
      cases line with
      | nil => rfl
      | cons c line =>
        show (Except.ok (Outcome.line (c :: line)), p₁) = _
        unfold lineOutcome
        rw [if_neg (fun h => absurd h.1 (List.cons_ne_nil c line))]
        show _ = (Except.ok (Outcome.line (c :: line ++ [])), p₁)
        rw [List.append_nil]
    | cons c rest =>
      rw [hbytes] at hleft hfuel
      have hline : lineOutcome line (c :: rest) = .line (line ++ lineOf (c :: rest)) :=
        if_neg fun h => absurd h.2 (List.cons_ne_nil c rest)
      rw [hline]
      show ∃ p', (if c = lineFeed then _ else if c = carriageReturn then _ else
        readLineFrom fuel (line ++ [c]) : PortM Outcome) p₁ = _ ∧ _
      by_cases hfeed : c = lineFeed
      · refine ⟨p₁, ?_, hready, ?_⟩
        · rw [if_pos hfeed, hfeed]
          show _ = (Except.ok (Outcome.line (line ++ [])), p₁)
          rw [List.append_nil]
          rfl
        · rw [hleft, hfeed]
          rfl
      rw [if_neg hfeed]
      by_cases hreturn : c = carriageReturn
      · -- the byte after it is taken, and put back unless it is of the end of the line
        obtain ⟨p₂, hrun₂, hready₂, hpeek₂, hleft₂⟩ := getChar_spec hready
        have hnone : lineOf (carriageReturn :: rest) = [] := rfl
        have hbehind : behindLine (carriageReturn :: rest) =
            if rest.head? = some lineFeed then rest.tail else rest := rfl
        rw [if_pos hreturn, Cmd.bind_run_ok hrun₂, hreturn, hnone, hbehind, List.append_nil]
        rw [hleft, List.tail_cons] at hleft₂ ⊢
        cases rest with
        | nil => exact ⟨p₂, rfl, hready₂, hleft₂⟩
        | cons d rest =>
          by_cases hnext : d = lineFeed
          · subst hnext
            exact ⟨p₂, rfl, hready₂, hleft₂⟩
          · have hne : some d ≠ some lineFeed := fun h => hnext (Option.some.inj h)
            obtain ⟨p₃, hrun₃, hready₃, hleft₃⟩ := ungetChar_spec hready₂ hpeek₂ d
            rw [List.head?_cons, if_neg hne, if_pos ⟨hne, nofun⟩, Cmd.bind_run_ok hrun₃]
            refine ⟨p₃, rfl, hready₃, ?_⟩
            rw [hleft₃, hleft₂]
            rfl
      · have hlt : p₁.left.length < fuel := by
          rw [hleft, List.tail_cons]
          exact Nat.lt_of_succ_lt_succ hfuel
        obtain ⟨p', hrun', hready', hleft'⟩ := readLineFrom_spec fuel (line ++ [c]) hready hlt
        refine ⟨p', ?_, hready', ?_⟩
        · rw [if_neg hreturn, hrun', hleft, List.tail_cons]
          have hmore : lineOutcome (line ++ [c]) rest = .line (line ++ [c] ++ lineOf rest) :=
            if_neg fun h => absurd h.1 (List.append_ne_nil_of_right_ne_nil line (List.cons_ne_nil c []))
          have htake : lineOf (c :: rest) = c :: lineOf rest := by
            unfold lineOf
            rw [List.takeWhile_cons_of_pos]
            simp [hfeed, hreturn]
          rw [hmore, htake, List.append_assoc]
          rfl
        · rw [hleft', hleft, List.tail_cons]
          show _ = if c = lineFeed then _ else if c = carriageReturn then _ else behindLine rest
          rw [if_neg hfeed, if_neg hreturn]

/-- **The operations on a list of bytes.** -/
def Call.onBytes : Call → List UInt8 → Outcome × List UInt8
  | readChar, bytes => (charOutcome bytes.head?, bytes.tail)
  | peekChar, bytes => (charOutcome bytes.head?, bytes)
  | readLine, bytes => (lineOutcome [] bytes, behindLine bytes)

/-- **Each operation is that on the bytes that are left.** -/
theorem perform_spec (call : Call) {p : Port} (h : p.Ready) :
    ∃ p', call.perform p = (.ok (call.onBytes p.left).1, p') ∧ p'.Ready ∧
      p'.left = (call.onBytes p.left).2 := by
  cases call with
  | readChar =>
    obtain ⟨p', hrun, hready, -, hleft⟩ := getChar_spec h
    refine ⟨p', ?_, hready, hleft⟩
    show primReadChar p = _
    unfold primReadChar
    rw [Cmd.bind_run_ok hrun]
    rfl
  | peekChar =>
    obtain ⟨p', hrun, hready, hleft⟩ := peekChar_spec h
    refine ⟨p', ?_, hready, hleft⟩
    show primPeekChar p = _
    unfold primPeekChar
    rw [Cmd.bind_run_ok hrun]
    rfl
  | readLine => exact readLineFrom_spec _ [] h (Nat.lt_succ_self _)

/-! ## Runs -/

/-- The calls on a list of bytes, one after the other. -/
def runBytes : List Call → List UInt8 → List Outcome × List UInt8
  | [], bytes => ([], bytes)
  | call :: calls, bytes =>
    let (outcome, bytes) := call.onBytes bytes
    let (outcomes, bytes) := runBytes calls bytes
    (outcome :: outcomes, bytes)

/-- **A run is that on the bytes that are left.** -/
theorem run_spec (calls : List Call) {p : Port} (h : p.Ready) :
    ∃ p', Cmd.mapList Call.perform calls p = (.ok (runBytes calls p.left).1, p') ∧ p'.Ready ∧
      p'.left = (runBytes calls p.left).2 := by
  induction calls generalizing p with
  | nil => exact ⟨p, rfl, h, rfl⟩
  | cons call calls ih =>
    obtain ⟨p₁, hrun, hready, hleft⟩ := perform_spec call h
    obtain ⟨p₂, hrest, hready₂, hleft₂⟩ := ih hready
    rw [hleft] at hrest hleft₂
    refine ⟨p₂, ?_, hready₂, hleft₂⟩
    show (call.perform >>= fun o => Cmd.mapList Call.perform calls >>= fun os =>
      pure (o :: os)) p = _
    rw [Cmd.bind_run_ok hrun, Cmd.bind_run_ok hrest]
    rfl

/-! ## What is delivered -/

/-- What ends a line, before the bytes that are left: a line feed, with a
carriage return before it or without, a carriage return alone, or the end of
the file. -/
def EndsLine (term rest : List UInt8) : Prop :=
  term = [lineFeed] ∨ term = [carriageReturn, lineFeed] ∨
    term = [carriageReturn] ∧ rest.head? ≠ some lineFeed ∨ term = [] ∧ rest = []

/-- **What a call takes**, before the bytes that are left, and what it returns
for it. -/
inductive Takes : Call → List UInt8 → List UInt8 → Outcome → Prop where
  | readEnd : Takes .readChar [] [] .eof
  | readChar (c : UInt8) (rest : List UInt8) : Takes .readChar [c] rest (.char c)
  | peekEnd : Takes .peekChar [] [] .eof
  | peekChar (c : UInt8) (rest : List UInt8) : Takes .peekChar [] (c :: rest) (.char c)
  | lineEnd : Takes .readLine [] [] .eof
  | line {text term rest : List UInt8} :
    (∀ c ∈ text, c ≠ lineFeed ∧ c ≠ carriageReturn) → EndsLine term rest →
    text ++ term ≠ [] → Takes .readLine (text ++ term) rest (.line text)

/-- A line and its end. -/
theorem exists_endsLine : ∀ bytes : List UInt8, bytes ≠ [] → ∃ term,
    bytes = lineOf bytes ++ term ++ behindLine bytes ∧ EndsLine term (behindLine bytes) ∧
      lineOf bytes ++ term ≠ []
  | [], hne => absurd rfl hne
  | c :: rest, _ => by
    by_cases hfeed : c = lineFeed
    · subst hfeed
      exact ⟨[lineFeed], rfl, .inl rfl, nofun⟩
    by_cases hreturn : c = carriageReturn
    · subst hreturn
      have hbehind : behindLine (carriageReturn :: rest) =
          if rest.head? = some lineFeed then rest.tail else rest := rfl
      rw [hbehind]
      by_cases hnext : rest.head? = some lineFeed
      · cases rest with
        | nil => cases hnext
        | cons d rest =>
          obtain rfl : d = lineFeed := Option.some.inj hnext
          exact ⟨[carriageReturn, lineFeed], rfl, .inr (.inl rfl), nofun⟩
      · rw [if_neg hnext]
        exact ⟨[carriageReturn], rfl, .inr (.inr (.inl ⟨rfl, hnext⟩)), nofun⟩
    · have hline : lineOf (c :: rest) = c :: lineOf rest := by
        unfold lineOf
        rw [List.takeWhile_cons_of_pos]
        simp [hfeed, hreturn]
      have hbehind : behindLine (c :: rest) = behindLine rest := by
        show (if c = lineFeed then _ else if c = carriageReturn then _ else _) = _
        rw [if_neg hfeed, if_neg hreturn]
      rw [hline, hbehind]
      cases rest with
      | nil => exact ⟨[], rfl, .inr (.inr (.inr ⟨rfl, rfl⟩)), nofun⟩
      | cons d rest =>
        obtain ⟨term, hbytes, hends, -⟩ := exists_endsLine (d :: rest) (List.cons_ne_nil d rest)
        exact ⟨term, congrArg (c :: ·) hbytes, hends, nofun⟩

theorem mem_lineOf {bytes : List UInt8} {c : UInt8} (h : c ∈ lineOf bytes) :
    c ≠ lineFeed ∧ c ≠ carriageReturn := by
  have hpass := List.mem_takeWhile_imp h
  simpa using hpass

/-- **What a call takes** of the bytes that are left. -/
theorem exists_takes (call : Call) (bytes : List UInt8) : ∃ taken,
    bytes = taken ++ (call.onBytes bytes).2 ∧
      Takes call taken (call.onBytes bytes).2 (call.onBytes bytes).1 := by
  cases bytes with
  | nil =>
    cases call with
    | readChar => exact ⟨[], rfl, .readEnd⟩
    | peekChar => exact ⟨[], rfl, .peekEnd⟩
    | readLine => exact ⟨[], rfl, .lineEnd⟩
  | cons c rest =>
    cases call with
    | readChar => exact ⟨[c], rfl, .readChar c rest⟩
    | peekChar => exact ⟨[], rfl, .peekChar c rest⟩
    | readLine =>
      obtain ⟨term, hbytes, hends, hne⟩ := exists_endsLine (c :: rest) (List.cons_ne_nil c rest)
      have hout : lineOutcome [] (c :: rest) = .line (lineOf (c :: rest)) :=
        if_neg fun h => absurd h.2 (List.cons_ne_nil c rest)
      refine ⟨lineOf (c :: rest) ++ term, hbytes, ?_⟩
      show Takes .readLine _ (behindLine (c :: rest)) (lineOutcome [] (c :: rest))
      rw [hout]
      exact .line (fun _ => mem_lineOf) hends hne

/-- **What is delivered** by one call after the other: each takes the next
bytes. -/
def Delivers : List Call → List Outcome → List (List UInt8) → List UInt8 → List UInt8 → Prop
  | [], [], [], bytes, rest => bytes = rest
  | call :: calls, o :: os, taken :: takens, bytes, rest =>
    ∃ mid, bytes = taken ++ mid ∧ Takes call taken mid o ∧ Delivers calls os takens mid rest
  | _, _, _, _, _ => False

theorem exists_delivers : ∀ (calls : List Call) (bytes : List UInt8), ∃ takens,
    Delivers calls (runBytes calls bytes).1 takens bytes (runBytes calls bytes).2
  | [], _ => ⟨[], rfl⟩
  | call :: calls, bytes => by
    obtain ⟨taken, hbytes, htakes⟩ := exists_takes call bytes
    obtain ⟨takens, hrest⟩ := exists_delivers calls (call.onBytes bytes).2
    exact ⟨taken :: takens, _, hbytes, htakes, hrest⟩

/-- **The bytes in order, each once.** -/
theorem Delivers.flatten : ∀ {calls : List Call} {os : List Outcome} {takens : List (List UInt8)}
    {bytes rest : List UInt8}, Delivers calls os takens bytes rest → bytes = takens.flatten ++ rest
  | [], [], [], _, _, h => h
  | _ :: _, _ :: _, taken :: takens, bytes, rest, ⟨mid, hbytes, _, hrest⟩ => by
    rw [hbytes, hrest.flatten, List.flatten_cons, List.append_assoc]

/-- **Looking changes nothing.** -/
theorem runBytes_peekChar (after : List Call) : ∀ (before : List Call) (bytes : List UInt8),
    ∃ os o os', (runBytes (before ++ .peekChar :: after) bytes).1 = os ++ o :: os' ∧
      os.length = before.length ∧ (runBytes (before ++ after) bytes).1 = os ++ os' ∧
      (runBytes (before ++ after) bytes).2 = (runBytes (before ++ .peekChar :: after) bytes).2
  | [], bytes => ⟨[], _, _, rfl, rfl, rfl, rfl⟩
  | call :: before, bytes => by
    obtain ⟨os, o, os', hwith, hlen, hwithout, hleft⟩ :=
      runBytes_peekChar after before (call.onBytes bytes).2
    refine ⟨(call.onBytes bytes).1 :: os, o, os', ?_, congrArg (· + 1) hlen, ?_, hleft⟩
    · exact congrArg ((call.onBytes bytes).1 :: ·) hwith
    · exact congrArg ((call.onBytes bytes).1 :: ·) hwithout

/-- **Input ports lose and repeat nothing.** Whatever calls are made on a port,
what they take is the bytes of the file in order, and what they return is what
they take, but for the ends of lines; and without a call of `peek-char` the
others return the same. -/
theorem ports_deliver (bytes : List UInt8) (calls : List Call) :
    ∃ outcomes p', Cmd.mapList Call.perform calls (openInput bytes) = (.ok outcomes, p') ∧
      (∃ takens, Delivers calls outcomes takens bytes p'.left ∧
        bytes = takens.flatten ++ p'.left) ∧
      ∀ before after, calls = before ++ .peekChar :: after →
        ∃ os o os' p'', outcomes = os ++ o :: os' ∧ os.length = before.length ∧
          Cmd.mapList Call.perform (before ++ after) (openInput bytes) = (.ok (os ++ os'), p'') ∧
          p''.left = p'.left := by
  obtain ⟨p', hrun, -, hleft⟩ := run_spec calls (ready_openInput bytes)
  rw [left_openInput] at hrun hleft
  refine ⟨_, p', hrun, ?_, ?_⟩
  · obtain ⟨takens, hdelivers⟩ := exists_delivers calls bytes
    rw [← hleft] at hdelivers
    exact ⟨takens, hdelivers, hdelivers.flatten⟩
  · rintro before after rfl
    obtain ⟨os, o, os', hwith, hlen, hwithout, hsame⟩ := runBytes_peekChar after before bytes
    obtain ⟨p'', hrun'', -, hleft''⟩ := run_spec (before ++ after) (ready_openInput bytes)
    rw [left_openInput] at hrun'' hleft''
    refine ⟨os, o, os', p'', hwith, hlen, ?_, ?_⟩
    · rw [hrun'', hwithout]
    · rw [hleft'', hleft, hsame]

end Ports

end Scheme14
