import SecdScheme.Lib.EventRuns
import SecdScheme.Scheme14.Ports
import SecdScheme.Scheme14.Sources

/-!
# scheme14: ports that have been closed

A primitive that is given a port looks whether it is open. One that is given
none takes the default port as it is, and the program may have closed that one:
`with-input-from-file` and `with-output-to-file` make an ordinary port the
default. So a closed port is never used exactly as long as no primitive is
called without a port while the default one is closed.
-/

namespace Scheme14

namespace Ports

/-- The ports there are, and the default ones. -/
structure World where
  ports : List Port
  stdinPort : ℕ
  stdoutPort : ℕ

/-- An operation on the ports. -/
abbrev WorldM (α : Type) := Cmd World PortErr α

/-- What a primitive is given for a port. -/
inductive Arg where
  | port (a : ℕ)
  | other

/-- `port_of`. -/
def portOf (v : Arg) (who : String) (wantInput : Bool) : WorldM ℕ := do
  match v with
  | .other => Cmd.fail (.typeError who "a port")
  | .port a =>
    match (← Cmd.getState).ports[a]? with
    | none => Cmd.fail (.typeError who "a port")
    | some p =>
      if p.isClosed || p.fp.isNone || p.isInput != wantInput then
        Cmd.fail (.typeError who (if wantInput then "an open input port" else "an open output port"))
      else return a

/-- `in_port_or_default`. -/
def inPortOrDefault (v : Option Arg) (who : String) : WorldM ℕ := do
  match v with
  | none => return (← Cmd.getState).stdinPort
  | some v => portOf v who true

/-- `out_port_or_default`. -/
def outPortOrDefault (v : Option Arg) (who : String) : WorldM ℕ := do
  match v with
  | none => return (← Cmd.getState).stdoutPort
  | some v => portOf v who false

/-- An operation on one of the ports. -/
def onPort {α : Type} (a : ℕ) (m : PortM α) : WorldM α := fun w =>
  match w.ports[a]? with
  | none => (.error .nullFile, w)
  | some p => ((m p).1, { w with ports := w.ports.set a (m p).2 })

/-- What a primitive returns. -/
inductive Answer where
  | outcome (o : Outcome)
  | bool (b : Bool)
  /-- The text of a datum, which goes to the reader, or the end of the file. -/
  | datum (text : Option Text)
  | port (a : ℕ)
  | done

/-- `std::fwrite` and `std::fputc`. -/
def fwrite (text : List UInt8) : PortM Answer := fun p =>
  match p.fp with
  | none => (.error .nullFile, p)
  | some written => (.ok .done, { p with fp := some (written ++ text) })

/-- `prim_close_port`, of a port. -/
def closeFile : PortM Answer := fun p => (.ok .done, p.close)

/-- `prim_char_readyp`: a file can always be read. -/
def primCharReady : PortM Answer := do
  let p ← Cmd.getState
  if p.hasPeek then return .bool true else return .bool p.fp.isSome

/-- The loop of `read_one_from_port`. -/
def readOneFrom : ℕ → Scan → Text → PortM Answer
  | 0, _, _ => Cmd.fail .outOfFuel
  | fuel + 1, s, buf => do
    match ← getChar with
    | none => if s.seen then return .datum (some buf.reverse) else return .datum none
    | some c =>
      let ch := Char.ofNat c.toNat
      let s := s.step buf.head? ch
      if s.stops then return .datum (some (ch :: buf).reverse)
      else readOneFrom fuel s (ch :: buf)

/-- The primitives that read. -/
inductive InputOp where
  | readChar
  | peekChar
  | charReady
  | readLine
  | readExpr
  | read
  deriving DecidableEq

/-- The name of a primitive that reads. -/
def InputOp.who : InputOp → String
  | readChar => "read-char"
  | peekChar => "peek-char"
  | charReady => "char-ready?"
  | readLine => "read-line"
  | readExpr => "read-expr"
  | read => "read"

/-- What a primitive that reads does with its port. -/
def InputOp.perform : InputOp → PortM Answer
  | readChar => do return .outcome (← primReadChar)
  | peekChar => do return .outcome (← primPeekChar)
  | charReady => primCharReady
  | readLine => do return .outcome (← primReadLine)
  | readExpr => do readOneFrom ((← Cmd.getState).left.length + 1) .start []
  | read => do readOneFrom ((← Cmd.getState).left.length + 1) .start []

/-- The primitives that write, with the text they write. -/
inductive OutputOp where
  | display (text : List UInt8)
  | write (text : List UInt8)
  | newline
  | writeChar (s : List UInt8)
  deriving DecidableEq

/-- The name of a primitive that writes. -/
def OutputOp.who : OutputOp → String
  | display _ => "display"
  | write _ => "write"
  | newline => "newline"
  | writeChar _ => "write-char"

/-- What a primitive that writes gives to its port; `write-char` wants a
character. -/
def OutputOp.text : OutputOp → Option (List UInt8)
  | display text => some text
  | write text => some text
  | newline => some [lineFeed]
  | writeChar [] => none
  | writeChar (c :: _) => some [c]

/-- What a primitive that writes does; it looks at its text first. -/
def OutputOp.perform (op : OutputOp) (v : Option Arg) : WorldM Answer := do
  match op.text with
  | none => Cmd.fail (.typeError op.who "a character (a string of length 1)")
  | some text => onPort (← outPortOrDefault v op.who) (fwrite text)

/-- **The primitives on ports.** -/
inductive Prim where
  /-- `open-input-file`, of a file with these bytes, if there is one. -/
  | openInputFile (file : Option (List UInt8))
  | openOutputFile (canOpen : Bool)
  /-- `prim_close_port`, under the names `close-input-port` and `close-output-port`. -/
  | closePort (v : Arg)
  | setCurrentInputPort (v : Arg)
  | setCurrentOutputPort (v : Arg)
  | input (op : InputOp) (v : Option Arg)
  | output (op : OutputOp) (v : Option Arg)

/-- A port is made. -/
def makePort (p : Port) : WorldM Answer := fun w =>
  (.ok (.port w.ports.length), { w with ports := w.ports ++ [p] })

/-- What a primitive does. -/
def Prim.perform : Prim → WorldM Answer
  | openInputFile none => Cmd.fail (.cannotOpen "open-input-file")
  | openInputFile (some bytes) => makePort (openInput bytes)
  | openOutputFile false => Cmd.fail (.cannotOpen "open-output-file")
  | openOutputFile true => makePort openOutput
  | closePort .other => Cmd.fail (.typeError "close-port" "a port")
  | closePort (.port a) => do
    if (← Cmd.getState).ports[a]?.isNone then Cmd.fail (.typeError "close-port" "a port")
    else onPort a closeFile
  | setCurrentInputPort v => do
    let a ← portOf v "%set-current-input-port!" true
    let old := (← Cmd.getState).stdinPort
    Cmd.modifyState fun w => { w with stdinPort := a }
    return .port old
  | setCurrentOutputPort v => do
    let a ← portOf v "%set-current-output-port!" false
    let old := (← Cmd.getState).stdoutPort
    Cmd.modifyState fun w => { w with stdoutPort := a }
    return .port old
  | input op v => do onPort (← inPortOrDefault v op.who) op.perform
  | output op v => op.perform v

/-! ## Operations on one port -/

/-- What an operation leaves as it is: whether the port is closed, and whether
it has a file. -/
structure Port.Same (p p' : Port) : Prop where
  isInput : p'.isInput = p.isInput
  isClosed : p'.isClosed = p.isClosed
  ownsFp : p'.ownsFp = p.ownsFp
  file : p'.fp = none ↔ p.fp = none

theorem Port.Same.refl (p : Port) : p.Same p := ⟨rfl, rfl, rfl, Iff.rfl⟩

theorem Port.Same.trans {p p' p'' : Port} (h : p.Same p') (h' : p'.Same p'') : p.Same p'' :=
  ⟨h'.isInput.trans h.isInput, h'.isClosed.trans h.isClosed, h'.ownsFp.trans h.ownsFp,
    h'.file.trans h.file⟩

/-- **An operation that does not look whether the port is open**: it fails for
want of a file only where there is none, and with no other error that is
reported. -/
structure Plain {α : Type} (m : PortM α) : Prop where
  same : ∀ p : Port, p.Same (m p).2
  file : ∀ p : Port, p.fp ≠ none → (m p).1 ≠ .error .nullFile
  unchecked : ∀ (p : Port) (who expected : String), (m p).1 ≠ .error (.typeError who expected)

namespace Plain

variable {α β : Type} {m : PortM α} {f : α → PortM β}

theorem pure {a : α} : Plain (Pure.pure a : PortM α) :=
  ⟨fun p => .refl p, fun _ _ => nofun, fun _ _ _ => nofun⟩

theorem outOfFuel : Plain (Cmd.fail .outOfFuel : PortM α) :=
  ⟨fun p => .refl p, fun _ _ => nofun, fun _ _ _ => nofun⟩

theorem getState : Plain (Cmd.getState : PortM Port) :=
  ⟨fun p => .refl p, fun _ _ => nofun, fun _ _ _ => nofun⟩

theorem bind (h : Plain m) (hf : ∀ a, Plain (f a)) : Plain (m >>= f) := by
  refine ⟨fun p => ?_, fun p hp => ?_, fun p who expected => ?_⟩
  all_goals
    rw [Cmd.bind_run]
    have hsame := h.same p
    have hfile := h.file p
    have hunchecked := h.unchecked p
    rcases hrun : m p with ⟨e | a, p₁⟩
    all_goals rw [hrun] at hsame hfile hunchecked
  · exact hsame
  · exact hsame.trans ((hf a).same p₁)
  · intro he
    exact hfile hp (congrArg Except.error (Except.error.inj he))
  · exact (hf a).file p₁ fun hnone => hp (hsame.file.1 hnone)
  · intro he
    exact hunchecked who expected (congrArg Except.error (Except.error.inj he))
  · exact (hf a).unchecked p₁ who expected

theorem ite {c : Prop} [Decidable c] {m m' : PortM α} (h : Plain m) (h' : Plain m') :
    Plain (if c then m else m') := by
  split
  · exact h
  · exact h'

theorem modifyState {f : Port → Port} (hf : ∀ p : Port, p.Same (f p)) :
    Plain (Cmd.modifyState f : PortM Unit) :=
  ⟨hf, fun _ _ => nofun, fun _ _ _ => nofun⟩

end Plain

/-- A character is read off the file. -/
theorem plain_fgetc : Plain fgetc := by
  refine ⟨fun p => ?_, fun p hp => ?_, fun p who expected => ?_⟩
  all_goals
    obtain ⟨fp, isInput, isClosed, ownsFp, hasPeek, peekCh⟩ := p
    rcases fp with _ | _ | ⟨c, rest⟩
  · exact .refl _
  · exact .refl _
  · exact ⟨rfl, rfl, rfl, nofun, nofun⟩
  · exact absurd rfl hp
  · exact nofun
  · exact nofun
  · exact nofun
  · exact nofun
  · exact nofun

theorem plain_setPeek (hasPeek : Bool) (peekCh : Port → Option UInt8) :
    Plain (Cmd.modifyState fun p => { p with hasPeek, peekCh := peekCh p } : PortM Unit) :=
  .modifyState fun _ => ⟨rfl, rfl, rfl, Iff.rfl⟩

/-- A character that was put back comes first. -/
theorem plain_getChar : Plain getChar :=
  .bind .getState fun _ => .ite (.bind (plain_setPeek false _) fun _ => .pure) plain_fgetc

theorem plain_ungetChar (c : Option UInt8) : Plain (ungetChar c) := plain_setPeek true _

/-- Peeking closes nothing. -/
theorem plain_peekChar : Plain peekChar := by
  refine .bind .getState fun p => ?_
  split
  · exact .bind plain_fgetc fun _ => .bind (plain_setPeek true _) fun _ =>
      .bind .getState fun _ => .pure
  · exact .bind .getState fun _ => .pure

/-- Neither does reading a line. -/
theorem plain_readLineFrom : ∀ (fuel : ℕ) (line : List UInt8), Plain (readLineFrom fuel line)
  | 0, _ => .outOfFuel
  | fuel + 1, line => by
    unfold readLineFrom
    refine .bind plain_getChar fun c => ?_
    split
    · exact .ite .pure .pure
    · refine .ite .pure (.ite (.bind plain_getChar fun next => ?_) (plain_readLineFrom fuel _))
      split
      · exact .bind (plain_ungetChar next) fun _ => .pure
      · exact .pure

/-- Nor reading a datum. -/
theorem plain_readOneFrom : ∀ (fuel : ℕ) (s : Scan) (buf : Text), Plain (readOneFrom fuel s buf)
  | 0, _, _ => .outOfFuel
  | fuel + 1, s, buf => by
    unfold readOneFrom
    refine .bind plain_getChar fun c => ?_
    split
    · exact .ite .pure .pure
    · exact .ite .pure (plain_readOneFrom fuel _ _)

/-- **The primitives that read** do not look whether the port is open. -/
theorem plain_perform (op : InputOp) : Plain op.perform := by
  cases op with
  | readChar => exact .bind (.bind plain_getChar fun _ => .pure) fun _ => .pure
  | peekChar => exact .bind (.bind plain_peekChar fun _ => .pure) fun _ => .pure
  | charReady => exact .bind .getState fun _ => .ite .pure .pure
  | readLine => exact .bind (.bind .getState fun _ => plain_readLineFrom _ _) fun _ => .pure
  | readExpr => exact .bind .getState fun _ => plain_readOneFrom _ _ _
  | read => exact .bind .getState fun _ => plain_readOneFrom _ _ _

/-- Nor writing. -/
theorem plain_fwrite (text : List UInt8) : Plain (fwrite text) := by
  refine ⟨fun p => ?_, fun p hp => ?_, fun p who expected => ?_⟩
  all_goals
    obtain ⟨fp, isInput, isClosed, ownsFp, hasPeek, peekCh⟩ := p
    rcases fp with _ | written
  · exact .refl _
  · exact ⟨rfl, rfl, rfl, nofun, nofun⟩
  · exact absurd rfl hp
  · exact nofun
  · exact nofun
  · exact nofun

/-! ## The ports there are -/

/-- A port that has been closed, and only such a one, has no file. -/
def Port.Sound (p : Port) : Prop := p.isClosed = true ↔ p.fp = none

/-- A port that is the same but for its text stays in order. -/
theorem Port.Sound.same {p p' : Port} (h : p.Sound) (hsame : p.Same p') : p'.Sound := by
  unfold Port.Sound at *
  rw [hsame.isClosed, hsame.file]
  exact h

/-- A port that is closed is in order. -/
theorem Port.Sound.close {p : Port} (h : p.Sound) : p.close.Sound := by
  unfold Port.close
  split
  · exact h
  · split
    · exact ⟨fun _ => rfl, fun _ => rfl⟩
    · exact h

theorem isInput_close (p : Port) : p.close.isInput = p.isInput := by
  unfold Port.close
  split
  · rfl
  · split <;> rfl

/-- **What holds of the ports** after every primitive: closed ports have no
file, and the default ports are there, and of their directions. -/
structure World.Sound (w : World) : Prop where
  ports : ∀ p ∈ w.ports, p.Sound
  stdin : ∃ p, w.ports[w.stdinPort]? = some p ∧ p.isInput = true
  stdout : ∃ p, w.ports[w.stdoutPort]? = some p ∧ p.isInput = false

/-- The ports at the start: the standard input and the standard output, which
are never closed. -/
def startWorld (stdinBytes : List UInt8) : World :=
  ⟨[⟨some stdinBytes, true, false, false, false, none⟩, ⟨some [], false, false, false, false, none⟩],
    0, 1⟩

/-- The standard ports are in order. -/
theorem sound_startWorld (stdinBytes : List UInt8) : (startWorld stdinBytes).Sound := by
  refine ⟨fun p hp => ?_, ⟨_, rfl, rfl⟩, ⟨_, rfl, rfl⟩⟩
  rcases List.mem_cons.1 hp with rfl | hp
  · exact ⟨nofun, nofun⟩
  · rw [List.mem_singleton.1 hp]
    exact ⟨nofun, nofun⟩

/-- A port is replaced by one of its direction. -/
theorem World.Sound.set {w : World} (h : w.Sound) {a : ℕ} {p p' : Port}
    (hp : w.ports[a]? = some p) (hinput : p'.isInput = p.isInput) (hsound : p'.Sound) :
    World.Sound { w with ports := w.ports.set a p' } := by
  have hdefault : ∀ {b : ℕ} {q : Port}, w.ports[b]? = some q →
      ∃ q', (w.ports.set a p')[b]? = some q' ∧ q'.isInput = q.isInput := by
    intro b q hq
    by_cases hab : a = b
    · subst hab
      obtain rfl := Option.some.inj (hp.symm.trans hq)
      exact ⟨p', List.getElem?_set_self (List.getElem?_eq_some_iff.1 hp).1, hinput⟩
    · exact ⟨q, by rw [List.getElem?_set_ne hab, hq], rfl⟩
  refine ⟨fun q hq => ?_, ?_, ?_⟩
  · rcases List.mem_or_eq_of_mem_set hq with hmem | rfl
    · exact h.ports q hmem
    · exact hsound
  · obtain ⟨q, hq, hdir⟩ := h.stdin
    obtain ⟨q', hq', hdir'⟩ := hdefault hq
    exact ⟨q', hq', hdir'.trans hdir⟩
  · obtain ⟨q, hq, hdir⟩ := h.stdout
    obtain ⟨q', hq', hdir'⟩ := hdefault hq
    exact ⟨q', hq', hdir'.trans hdir⟩

/-- A port that is opened is in order. -/
theorem World.Sound.append {w : World} (h : w.Sound) {p : Port} (hp : p.Sound) :
    World.Sound { w with ports := w.ports ++ [p] } := by
  have hdefault : ∀ {b : ℕ} {q : Port}, w.ports[b]? = some q → (w.ports ++ [p])[b]? = some q := by
    intro b q hq
    rw [List.getElem?_append_left (List.getElem?_eq_some_iff.1 hq).1, hq]
  refine ⟨fun q hq => ?_, ?_, ?_⟩
  · rcases List.mem_append.1 hq with hmem | hmem
    · exact h.ports q hmem
    · rw [List.mem_singleton.1 hmem]
      exact hp
  · obtain ⟨q, hq, hdir⟩ := h.stdin
    exact ⟨q, hdefault hq, hdir⟩
  · obtain ⟨q, hq, hdir⟩ := h.stdout
    exact ⟨q, hdefault hq, hdir⟩

/-- **`port_of` gives an open port** of the direction that is wanted, or says
that there is none. -/
theorem portOf_cases (v : Arg) (who : String) (wantInput : Bool) (w : World) :
    (∃ expected, portOf v who wantInput w = (.error (.typeError who expected), w)) ∨
      ∃ a p, v = .port a ∧ w.ports[a]? = some p ∧ p.isClosed = false ∧ p.fp ≠ none ∧
        p.isInput = wantInput ∧ portOf v who wantInput w = (.ok a, w) := by
  cases v with
  | other => exact .inl ⟨_, rfl⟩
  | port a =>
    unfold portOf
    dsimp only
    rw [Cmd.bind_run_ok (Cmd.getState_run w)]
    cases hp : w.ports[a]? with
    | none => exact .inl ⟨_, rfl⟩
    | some p =>
      dsimp only
      cases hbad : p.isClosed || p.fp.isNone || p.isInput != wantInput with
      | true => exact .inl ⟨_, rfl⟩
      | false =>
        obtain ⟨hopen, hdir⟩ := Bool.or_eq_false_iff.1 hbad
        obtain ⟨hclosed, hfile⟩ := Bool.or_eq_false_iff.1 hopen
        refine .inr ⟨a, p, rfl, hp, hclosed, fun hnone => ?_, ?_, rfl⟩
        · rw [hnone] at hfile
          cases hfile
        · exact (bne_eq_false_iff_eq.1 hdir)

/-- What is done on a port that is there. -/
theorem onPort_run {α : Type} {a : ℕ} {m : PortM α} {w : World} {p : Port}
    (hp : w.ports[a]? = some p) :
    onPort a m w = ((m p).1, { w with ports := w.ports.set a (m p).2 }) := by
  unfold onPort
  rw [hp]

/-- A primitive that reads or writes leaves the ports sound. -/
theorem sound_onPort {α : Type} {a : ℕ} {m : PortM α} (hm : Plain m) {w : World} (h : w.Sound) :
    (onPort a m w).2.Sound := by
  unfold onPort
  cases hp : w.ports[a]? with
  | none => exact h
  | some p =>
    have hsame := hm.same p
    exact h.set hp hsame.isInput ((h.ports p (List.mem_of_getElem? hp)).same hsame)

/-- **A primitive on a port leaves all ports in order.** -/
theorem sound_portOf_onPort {α : Type} {v : Arg} {who : String} {wantInput : Bool} {m : PortM α}
    (hm : Plain m) {w : World} (h : w.Sound) :
    ((portOf v who wantInput >>= fun a => onPort a m) w).2.Sound := by
  rcases portOf_cases v who wantInput w with ⟨expected, hrun⟩ | ⟨a, p, -, -, -, -, -, hrun⟩
  · rw [Cmd.bind_run_error hrun]
    exact h
  · rw [Cmd.bind_run_ok hrun]
    exact sound_onPort hm h

/-- **Every primitive leaves the ports sound.** -/
theorem sound_perform (e : Prim) {w : World} (h : w.Sound) : (e.perform w).2.Sound := by
  cases e with
  | openInputFile file =>
    cases file with
    | none => exact h
    | some bytes => exact h.append ⟨nofun, nofun⟩
  | openOutputFile canOpen =>
    cases canOpen with
    | false => exact h
    | true => exact h.append ⟨nofun, nofun⟩
  | closePort v =>
    cases v with
    | other => exact h
    | port a =>
      show ((if w.ports[a]?.isNone = true then _ else onPort a closeFile : WorldM Answer) w).2.Sound
      cases hp : w.ports[a]? with
      | none => exact h
      | some p =>
        rw [if_neg (show ¬ (some p).isNone = true from nofun), onPort_run hp]
        exact h.set hp (isInput_close p) (h.ports p (List.mem_of_getElem? hp)).close
  | setCurrentInputPort v =>
    show ((portOf v _ true >>= _) w).2.Sound
    rcases portOf_cases v "%set-current-input-port!" true w with
      ⟨expected, hrun⟩ | ⟨a, p, -, hp, -, -, hdir, hrun⟩
    · rw [Cmd.bind_run_error hrun]
      exact h
    · rw [Cmd.bind_run_ok hrun]
      exact ⟨h.ports, ⟨p, hp, hdir⟩, h.stdout⟩
  | setCurrentOutputPort v =>
    show ((portOf v _ false >>= _) w).2.Sound
    rcases portOf_cases v "%set-current-output-port!" false w with
      ⟨expected, hrun⟩ | ⟨a, p, -, hp, -, -, hdir, hrun⟩
    · rw [Cmd.bind_run_error hrun]
      exact h
    · rw [Cmd.bind_run_ok hrun]
      exact ⟨h.ports, h.stdin, ⟨p, hp, hdir⟩⟩
  | input op v =>
    cases v with
    | none => exact sound_onPort (plain_perform op) h
    | some v => exact sound_portOf_onPort (plain_perform op) h
  | output op v =>
    show (op.perform v w).2.Sound
    unfold OutputOp.perform
    cases op.text with
    | none => exact h
    | some text =>
      cases v with
      | none => exact sound_onPort (plain_fwrite text) h
      | some v => exact sound_portOf_onPort (plain_fwrite text) h

/-! ## Uses of closed ports -/

/-- The port that an argument stands for, if it is one. -/
def argPort (default : ℕ) : Option Arg → Option ℕ
  | none => some default
  | some (.port a) => some a
  | some .other => none

/-- The port that a primitive reads from or writes to, unless it stops before
that. -/
def Prim.uses (w : World) : Prim → Option ℕ
  | input _ v => argPort w.stdinPort v
  | output op v => if op.text.isNone then none else argPort w.stdoutPort v
  | _ => none

/-- Whether a port has been closed. -/
def World.Closed (w : World) (a : ℕ) : Prop := ∃ p, w.ports[a]? = some p ∧ p.isClosed = true

/-- **Closed ports are not used**: no file is used that is not there, and where
a primitive would use a port that has been closed this is reported. -/
structure Respects (w : World) (e : Prim) : Prop where
  noNullFile : (e.perform w).1 ≠ .error .nullFile
  reported : ∀ a, e.uses w = some a → w.Closed a →
    ∃ who expected, (e.perform w).1 = .error (.typeError who expected)

/-- The default port that a primitive takes, unless it stops before that. -/
def Prim.usesDefault (w : World) : Prim → Option ℕ
  | input _ none => some w.stdinPort
  | output op none => if op.text.isNone then none else some w.stdoutPort
  | _ => none

/-- **The condition**: the primitive is given a port, or the default one is
open. -/
def DefaultOpen (w : World) (e : Prim) : Prop := ∀ a, e.usesDefault w = some a → ¬ w.Closed a

/-- A primitive that has taken the default port. -/
theorem respects_default_iff {w : World} (h : w.Sound) {a : ℕ} {m : PortM Answer} (hm : Plain m)
    {p : Port} (hp : w.ports[a]? = some p) {uses usesDefault : Option ℕ} (huses : uses = some a)
    (hdefault : usesDefault = some a) :
    ((onPort a m w).1 ≠ .error .nullFile ∧ ∀ b, uses = some b → w.Closed b →
        ∃ who expected, (onPort a m w).1 = .error (.typeError who expected)) ↔
      ∀ b, usesDefault = some b → ¬ w.Closed b := by
  rw [onPort_run hp, huses, hdefault]
  constructor
  · rintro ⟨-, hreported⟩ b hb hclosed
    obtain ⟨who, expected, hr⟩ := hreported b hb hclosed
    exact hm.unchecked p who expected hr
  · intro hopen
    refine ⟨hm.file p fun hnone => hopen a rfl ⟨p, hp, ?_⟩,
      fun b hb hclosed => absurd hclosed (hopen b hb)⟩
    exact (h.ports p (List.mem_of_getElem? hp)).2 hnone

/-- A primitive that was given a port. -/
theorem respects_given (v : Arg) (who : String) (wantInput : Bool) {m : PortM Answer}
    (hm : Plain m) (w : World) (default : ℕ) :
    ((portOf v who wantInput >>= fun a => onPort a m) w).1 ≠ .error .nullFile ∧
      ∀ a, argPort default (some v) = some a → w.Closed a → ∃ who' expected,
        ((portOf v who wantInput >>= fun a => onPort a m) w).1 =
          .error (.typeError who' expected) := by
  rcases portOf_cases v who wantInput w with
    ⟨expected, hrun⟩ | ⟨a, p, rfl, hp, hopen, hfile, -, hrun⟩
  · rw [Cmd.bind_run_error hrun]
    exact ⟨nofun, fun _ _ _ => ⟨who, expected, rfl⟩⟩
  · rw [Cmd.bind_run_ok hrun, onPort_run hp]
    refine ⟨hm.file p hfile, fun b hb hclosed => ?_⟩
    obtain rfl : a = b := Option.some.inj hb
    obtain ⟨q, hq, hqclosed⟩ := hclosed
    obtain rfl := Option.some.inj (hp.symm.trans hq)
    rw [hopen] at hqclosed
    cases hqclosed

/-- Making a port the default one uses no file. -/
theorem not_nullFile_setPort (v : Arg) (who : String) (wantInput : Bool) (f : ℕ → WorldM Answer)
    (hf : ∀ a w, (f a w).1 ≠ .error .nullFile) (w : World) :
    ((portOf v who wantInput >>= f) w).1 ≠ .error .nullFile := by
  rcases portOf_cases v who wantInput w with ⟨expected, hrun⟩ | ⟨a, p, -, -, -, -, -, hrun⟩
  · rw [Cmd.bind_run_error hrun]
    exact nofun
  · rw [Cmd.bind_run_ok hrun]
    exact hf a w

/-- What is no character is reported before any port is looked for. -/
theorem respects_noText {w : World} {op : OutputOp} (htext : op.text = none) (v : Option Arg) :
    (((Prim.output op v).perform w).1 ≠ .error .nullFile ∧
      ∀ a, (Prim.output op v).uses w = some a → w.Closed a →
        ∃ who expected, ((Prim.output op v).perform w).1 = .error (.typeError who expected)) ↔
      DefaultOpen w (.output op v) := by
  have hrun : (Prim.output op v).perform w =
      (.error (.typeError op.who "a character (a string of length 1)"), w) := by
    show op.perform v w = _
    unfold OutputOp.perform
    rw [htext]
    rfl
  have hdefault : (Prim.output op v).usesDefault w = none := by
    cases v with
    | none =>
      show (if op.text.isNone = true then none else _) = none
      rw [htext]
      rfl
    | some v => rfl
  rw [hrun]
  refine ⟨fun _ a ha => ?_, fun _ => ⟨nofun, fun _ _ _ => ⟨_, _, rfl⟩⟩⟩
  rw [hdefault] at ha
  cases ha

/-- A text is written to the port that is given, or to the default one. -/
theorem respects_text {w : World} (h : w.Sound) {op : OutputOp} {text : List UInt8}
    (htext : op.text = some text) (v : Option Arg) :
    (((Prim.output op v).perform w).1 ≠ .error .nullFile ∧
      ∀ a, (Prim.output op v).uses w = some a → w.Closed a →
        ∃ who expected, ((Prim.output op v).perform w).1 = .error (.typeError who expected)) ↔
      DefaultOpen w (.output op v) := by
  have hrun : (Prim.output op v).perform w =
      (outPortOrDefault v op.who >>= fun a => onPort a (fwrite text)) w := by
    show op.perform v w = _
    unfold OutputOp.perform
    rw [htext]
  have huses : (Prim.output op v).uses w = argPort w.stdoutPort v := by
    show (if op.text.isNone = true then none else _) = _
    rw [htext]
    rfl
  rw [hrun, huses]
  cases v with
  | none =>
    obtain ⟨p, hp, -⟩ := h.stdout
    have hdefault : (Prim.output op none).usesDefault w = some w.stdoutPort := by
      show (if op.text.isNone = true then none else some w.stdoutPort) = _
      rw [htext]
      rfl
    exact respects_default_iff h (plain_fwrite text) hp rfl hdefault
  | some v =>
    exact ⟨fun _ => nofun, fun _ => respects_given v op.who false (plain_fwrite text) w _⟩

/-- **One primitive** uses no closed port exactly if it is given a port or the
default one is open. -/
theorem respects_iff {w : World} (h : w.Sound) (e : Prim) :
    Respects w e ↔ DefaultOpen w e := by
  have hsplit : Respects w e ↔ (e.perform w).1 ≠ .error .nullFile ∧
      ∀ a, e.uses w = some a → w.Closed a →
        ∃ who expected, (e.perform w).1 = .error (.typeError who expected) :=
    ⟨fun hr => ⟨hr.noNullFile, hr.reported⟩, fun hr => ⟨hr.1, hr.2⟩⟩
  rw [hsplit]
  cases e with
  | openInputFile file =>
    refine ⟨fun _ => nofun, fun _ => ⟨?_, nofun⟩⟩
    cases file with
    | none => exact nofun
    | some bytes =>
      show (Except.ok (Answer.port w.ports.length) : Except PortErr Answer) ≠ _
      exact nofun
  | openOutputFile canOpen =>
    refine ⟨fun _ => nofun, fun _ => ⟨?_, nofun⟩⟩
    cases canOpen with
    | false => exact nofun
    | true =>
      show (Except.ok (Answer.port w.ports.length) : Except PortErr Answer) ≠ _
      exact nofun
  | closePort v =>
    refine ⟨fun _ => nofun, fun _ => ⟨?_, nofun⟩⟩
    cases v with
    | other => exact nofun
    | port a =>
      show ((if w.ports[a]?.isNone = true then _ else onPort a closeFile : WorldM Answer) w).1 ≠ _
      cases hp : w.ports[a]? with
      | none => exact nofun
      | some p =>
        rw [if_neg (show ¬ (some p).isNone = true from nofun), onPort_run hp]
        exact nofun
  | setCurrentInputPort v =>
    refine ⟨fun _ => nofun, fun _ => ⟨?_, nofun⟩⟩
    refine not_nullFile_setPort v _ true _ (fun a w => ?_) w
    show (Except.ok (Answer.port w.stdinPort) : Except PortErr Answer) ≠ _
    exact nofun
  | setCurrentOutputPort v =>
    refine ⟨fun _ => nofun, fun _ => ⟨?_, nofun⟩⟩
    refine not_nullFile_setPort v _ false _ (fun a w => ?_) w
    show (Except.ok (Answer.port w.stdoutPort) : Except PortErr Answer) ≠ _
    exact nofun
  | input op v =>
    cases v with
    | none =>
      obtain ⟨p, hp, -⟩ := h.stdin
      exact respects_default_iff h (plain_perform op) hp rfl rfl
    | some v => exact ⟨fun _ => nofun, fun _ => respects_given v op.who true (plain_perform op) w _⟩
  | output op v =>
    cases htext : op.text with
    | none => exact respects_noText htext v
    | some text => exact respects_text h htext v

/-- **Closed ports are used** in no run in which every primitive that is called
without a port finds the default one open, and in every other one. -/
theorem closed_ports_iff (stdinBytes : List UInt8) (es : List Prim) :
    EventRuns.Along (fun w (e : Prim) => some (e.perform w).2) Respects (startWorld stdinBytes) es ↔
      EventRuns.Along (fun w (e : Prim) => some (e.perform w).2) DefaultOpen
        (startWorld stdinBytes) es := by
  have hkeep : ∀ (w : World) (e : Prim) (w' : World), w.Sound → some (e.perform w).2 = some w' →
      w'.Sound := by
    intro w e w' hw hstep
    obtain rfl := Option.some.inj hstep
    exact sound_perform e hw
  exact EventRuns.along_congr hkeep (fun w e hw => respects_iff hw e) (sound_startWorld stdinBytes)

/-- Within `with-output-to-file` the program gives the default port to
`close-output-port` and then writes. -/
theorem closed_ports_default :
    ¬ EventRuns.Along (fun w (e : Prim) => some (e.perform w).2) Respects (startWorld [])
      [.openOutputFile true, .setCurrentOutputPort (.port 2), .closePort (.port 2),
        .output (.display [49]) none] := by
  intro h
  obtain ⟨-, h⟩ := h _ rfl
  obtain ⟨-, h⟩ := h _ rfl
  obtain ⟨-, h⟩ := h _ rfl
  obtain ⟨h, -⟩ := h _ rfl
  exact h.noNullFile rfl

end Ports

end Scheme14
