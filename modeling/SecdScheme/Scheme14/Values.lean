import Mathlib.Data.Int.Notation
import SecdScheme.Lib.Cmd

/-!
# scheme14: values, code and the state of the machine

Values are immediate data or addresses; pairs, strings, vectors, environment
frames, closures and continuations live in tables of the world, so that two
values are the same object when they are equal. A table only grows.

Code is by value: the instructions of a template or of a branch are never
changed once they have been compiled. Source positions, and the names of
procedures in error texts, are left out.

Some fields are not in the program and are never read by it: the marks in the
dump, by which it can be said that an instruction found the entry it was
meant to find, and in the world the logs of faults, of updates and of the
reads of global cells, and the flag for an operand that did not fit.
-/

namespace Scheme14

/-- The three tables of global cells. -/
inductive Table where
  | interaction
  | report
  | null
  deriving DecidableEq, Repr

/-- A value; numbers in constructors of objects are addresses. -/
inductive Value where
  | nil
  | eof
  | bool (b : Bool)
  | int (n : ℤ)
  | real (bits : ℕ)
  | sym (name : String)
  | string (a : ℕ)
  | vector (a : ℕ)
  | pair (a : ℕ)
  | closure (a : ℕ)
  /-- The scratch closure of a machine. -/
  | scratch
  | macroObj (v : ℕ)
  | cont (a : ℕ)
  | prim (name : String)
  | special (name : String)
  | environment (t : Table)
  | port (a : ℕ)
  | values (a : ℕ)
  | errorObj (a : ℕ)
  deriving DecidableEq, Repr

namespace Value

/-- `is_true`: only `#f` is false. -/
def isTrue (v : Value) : Bool := v != .bool false

/-- `is_self_evaluating`. -/
def selfEvaluating : Value → Bool
  | nil | bool _ | int _ | real _ | string _ | vector _ => true
  | _ => false

end Value

/-- A global cell: its table and its name. -/
structure Cell where
  table : Table
  name : String
  deriving DecidableEq, Repr

/-- The instructions. A branch is a pointer, which may be missing. -/
inductive Instr where
  | ld (a b : ℕ)
  | ldc (v : Value)
  | ldg (x : Cell)
  /-- The template, and whether the closure is consumed at once. -/
  | ldf (params : List String) (rest : Option String) (body : List Instr) (noAlloc : Bool)
  | app (n : ℕ)
  | tapp (n : ℕ)
  | argsAp (n : ℕ)
  | apply
  | tapply
  | rtn
  | sel (ct cf : Option (List Instr))
  | selr (ct cf : Option (List Instr))
  | join
  | pop
  | defG (x : Cell)
  | defm (x : Cell)
  | lset (a b : ℕ)
  | gset (x : Cell)
  | callcc
  | tcallcc
  | stop

/-- A code vector. -/
abbrev Code := List Instr

/-- An environment frame. -/
structure Frame where
  next : Option ℕ
  vals : List Value
  deriving DecidableEq, Repr

/-- A closure: the parameters and the body of its template, and its
environment. -/
structure Closure where
  params : List String
  rest : Option String
  body : Code
  env : Option ℕ

/-- What pushed a dump entry. -/
inductive EntryKind where
  | call
  | branch
  deriving DecidableEq, Repr

/-- A dump entry. The kind and the two marks are not in the program: `stamp`
names the entry, and `mark` is what the machine's mark was before. -/
structure DumpEntry where
  c : Code
  pc : ℕ
  env : Option ℕ
  base : ℕ
  kind : EntryKind
  stamp : ℕ
  mark : ℕ

/-- An entry of the wind list. -/
structure WindEntry where
  before : Value
  after : Value
  id : ℕ
  deriving DecidableEq, Repr

/-- The registers of a machine. The stack has its top first; `base` counts
from the bottom. The mark, which is not in the program, is the stamp of the
dump entry that the running code is to pop, and `0` where there is none. -/
structure VM where
  stack : List Value
  dump : List DumpEntry
  env : Option ℕ
  scratch : Option Closure
  c : Code
  pc : ℕ
  base : ℕ
  mark : ℕ

/-- A continuation: a copy of the registers and of the wind list. -/
structure Cont where
  stack : List Value
  dump : List DumpEntry
  winds : List WindEntry
  c : Code
  pc : ℕ
  env : Option ℕ
  base : ℕ
  mark : ℕ

/-- An update of a global cell or of a location. -/
inductive Update where
  | globalCell (x : Cell) (v : Value)
  | location (frame index : ℕ) (v : Value)
  deriving DecidableEq, Repr

/-- A read of a global cell, while a code vector runs. -/
inductive Read where
  /-- An instruction of the code reads the cell. -/
  | instruction (c : Code) (x : Cell)
  /-- The machine reads the cell, to hand over an error of the code. -/
  | handOver (c : Code) (x : Cell)

/-- The failures a machine may find in itself. -/
inductive Fault where
  | codeExhausted
  | stackUnderflow
  | localOutOfRange
  | branchMissing
  | dumpUnderflow
  /-- JOIN or RTN finds an entry that is not its own. -/
  | foreignEntry
  deriving DecidableEq, Repr

/-- **A message**: its text, and the value whose text the printer puts behind the last
label, where it ends with one. -/
structure Message where
  text : String
  given : Option Value
  deriving DecidableEq, Repr

instance : Coe String Message := ⟨fun text => ⟨text, none⟩⟩

/-- What a detail stands behind. -/
def Message.behind (head : String) (m : Message) : Message := { m with text := head ++ m.text }

/-- `expected_given`, of a value. -/
def expectedGiven (expected : String) (v : Value) : Message :=
  ⟨"expected: " ++ expected ++ "\n  given: ", some v⟩

/-- What primitives work on. `X` is the rest: ports, files, and so on. -/
structure Data (X : Type) where
  pairs : List (Value × Value)
  strings : List String
  vectors : List (List Value)
  errors : List Message
  winds : List WindEntry
  windNextId : ℕ
  handler : Option Value
  gensymCounter : ℕ
  ext : X

/-- The whole state but for the registers. -/
structure World (X : Type) where
  data : Data X
  frames : List Frame
  closures : List Closure
  conts : List Cont
  globals : Table → String → Option Value
  macros : Table → String → Option Value
  compileTable : Table
  runDepth : ℕ
  updates : List Update
  reads : List Read
  stamps : ℕ
  faults : List Fault
  truncated : Bool

/-- How an evaluation ends without a value. -/
inductive Err where
  /-- A Scheme error; one that is not catchable goes to no handler. -/
  | scheme (message : Message) (catchable : Bool)
  /-- The request to leave. -/
  | exit (code : ℤ)
  /-- An internal error. -/
  | internal (what : String)
  | outOfFuel
  deriving DecidableEq, Repr

/-- A computation on what primitives work on. -/
abbrev DataM (X α : Type) := Cmd (Data X) Err α

/-- A computation on the world. -/
abbrev SchemeM (X α : Type) := Cmd (World X) Err α

variable {X : Type}

/-- A computation that leaves the machine's own tables alone. -/
def onData {α : Type} (m : DataM X α) : SchemeM X α := fun w =>
  ((m w.data).1, { w with data := (m w.data).2 })

/-- `error_at` and `error_here`. -/
def errorAt {σ α : Type} (message : Message) : Cmd σ Err α := Cmd.fail (.scheme message true)

/-- `internal_error`. -/
def internalError {σ α : Type} (what : String) : Cmd σ Err α := Cmd.fail (.internal what)

/-- A fault is noted. -/
def noteFault (f : Fault) : SchemeM X Unit :=
  Cmd.modifyState (fun w => { w with faults := w.faults ++ [f] })

/-- An internal error of the machine. -/
def fault {α : Type} (f : Fault) (what : String) : SchemeM X α := do
  noteFault f
  internalError what

/-- What the program takes for granted is observed. -/
def observe (c : Prop) [Decidable c] (f : Fault) : SchemeM X Unit :=
  if c then pure () else noteFault f

/-! ## Pairs -/

/-- `make_pair`. -/
def makePair (a d : Value) : DataM X Value := fun s =>
  (.ok (.pair s.pairs.length), { s with pairs := s.pairs ++ [(a, d)] })

/-- The pair at a value, if it is one. -/
def Data.pairAt (s : Data X) : Value → Option (Value × Value)
  | .pair a => s.pairs[a]?
  | _ => none

/-- `as_pair`. The address of a pair is in the table, so that it is the value
alone that may be wrong; an address that is not would read as a pair of `()`. -/
def asPair (v : Value) : DataM X (Value × Value) := fun s =>
  match v with
  | .pair a => (.ok ((s.pairs[a]?).getD (.nil, .nil)), s)
  | _ => (.error (.internal "as_pair on a non-pair"), s)

/-- `car`, of what is known to be a pair. -/
def car (v : Value) : DataM X Value := do return (← asPair v).1

/-- `cdr`. -/
def cdr (v : Value) : DataM X Value := do return (← asPair v).2

/-- `is_pair`. -/
def isPair : Value → Bool
  | .pair _ => true
  | _ => false

/-- `is_symbol`. -/
def isSymbol : Value → Bool
  | .sym _ => true
  | _ => false

/-- `list_from`: the pairs are made from the last one on. -/
def listFrom : List Value → DataM X Value
  | [] => return .nil
  | v :: vs => do makePair v (← listFrom vs)

end Scheme14
