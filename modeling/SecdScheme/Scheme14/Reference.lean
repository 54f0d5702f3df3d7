import SecdScheme.Scheme14.Machine

/-!
# scheme14: what core forms mean

The core forms as a syntax of their own, and a machine that runs them without
any code: an expression is evaluated in a scope for what is to be done with its
value. The arguments of a call are evaluated from left to right and the
operator last; a continuation is what is to be done with a value, and may be
called any number of times. The tables, the primitives and the texts of errors
are those of the program.

The procedure that a `lambda` in operator position makes is kept beside the
table of procedures, as in the program, where it lives in a register.
-/

namespace Scheme14

/-- **The core forms.** An `if` without an else branch has the constant `()`. -/
inductive Expr where
  | const (v : Value)
  | var (name : String)
  | lambda (params : List String) (rest : Option String) (body : List Expr)
  | ifE (test thenE elseE : Expr)
  | begin (forms : List Expr)
  | define (name : String) (e : Expr)
  | set (name : String) (e : Expr)
  | callcc (e : Expr)
  /-- `(apply f x xs …)`; the last argument is a list. -/
  | apply (f x : Expr) (xs : List Expr)
  | call (f : Expr) (xs : List Expr)

namespace Reference

variable {X : Type}

/-- Where an expression is evaluated: the names, and the frames with their values. -/
structure Scope where
  names : CompileEnv
  env : Option ℕ

/-- A procedure. -/
structure Proc where
  params : List String
  rest : Option String
  body : List Expr
  scope : Scope

/-- The scope of its body, with the frame of a call. -/
def Proc.inner (p : Proc) (frame : ℕ) : Scope :=
  ⟨(p.params ++ p.rest.toList) :: p.scope.names, some frame⟩

/-- **What is to be done with a value.** -/
inductive Kont where
  /-- It is the result. -/
  | halt
  /-- It is dropped, and these forms are evaluated. -/
  | seq (e : Expr) (es : List Expr) (operator : Bool) (ρ : Scope) (κ : Kont)
  | test (thenE elseE : Expr) (ρ : Scope) (κ : Kont)
  | define (name : String) (κ : Kont)
  | set (name : String) (ρ : Scope) (κ : Kont)
  | callcc (κ : Kont)
  /-- It is an argument of a call. -/
  | args (f : Expr) (todo : List Expr) (done : List Value) (ρ : Scope) (κ : Kont)
  | applyArgs (f : Expr) (todo : List Expr) (done : List Value) (ρ : Scope) (κ : Kont)
  /-- It is called with these arguments. -/
  | operator (args : List Value) (κ : Kont)
  | applyOperator (list : Value) (κ : Kont)
  /-- It is dropped, these thunks are called, and then the continuation is. -/
  | rewind (thunks : List Value) (k v : Value)

/-- The state but for the control. -/
structure World (X : Type) where
  data : Data X
  frames : List Frame
  procs : List Proc
  conts : List (Kont × List WindEntry)
  globals : String → Option Value
  updates : List Update
  /-- The procedure of the last `lambda` in operator position. -/
  scratch : Option Proc

/-- What the machine is about. -/
inductive Control where
  /-- An expression is evaluated, in operator position or not. -/
  | eval (e : Expr) (operator : Bool) (ρ : Scope) (κ : Kont)
  | value (v : Value) (κ : Kont)
  | rewind (thunks : List Value) (k v : Value)

/-- A computation of the reference. -/
abbrev RefM (X α : Type) := Cmd (World X) Err α

/-- A computation on the tables. -/
def onTables {α : Type} (m : DataM X α) : RefM X α := fun r =>
  ((m r.data).1, { r with data := (m r.data).2 })

/-! ## Variables -/

/-- A place of a variable: in a frame, or global. -/
inductive Place where
  | frame (env : Option ℕ) (index : ℕ)
  | global

/-- The place of a name: the innermost frame that has it. -/
def place (frames : List Frame) (name : String) : CompileEnv → Option ℕ → Place
  | [], _ => .global
  | rib :: names, env =>
    match rib.findIdx? (· == name) with
    | some j => .frame env j
    | none => place frames name names ((env.bind fun a => frames[a]?).bind Frame.next)

/-- The value in a frame. -/
def valueAt (frames : List Frame) (env : Option ℕ) (j : ℕ) : Option (ℕ × Value) := do
  let a ← env
  let v ← (← frames[a]?).vals[j]?
  return (a, v)

/-- The value of a variable. -/
def readVar (ρ : Scope) (name : String) : RefM X Value := do
  let r ← Cmd.getState
  match place r.frames name ρ.names ρ.env with
  | .global =>
    match r.globals name with
    | none => errorAt ("unbound variable: " ++ name)
    | some v => return v
  | .frame env j =>
    match valueAt r.frames env j with
    | none => internalError "LD: local variable index out of range"
    | some (_, v) => return v

/-- A global variable is defined or assigned. -/
def setGlobal (name : String) (v : Value) : RefM X Unit :=
  Cmd.modifyState fun r => { r with
    globals := fun n => if n = name then some v else r.globals n
    updates := r.updates ++ [.globalCell ⟨.interaction, name⟩ v] }

/-- A variable is assigned. -/
def setVar (ρ : Scope) (name : String) (v : Value) : RefM X Unit := do
  let r ← Cmd.getState
  match place r.frames name ρ.names ρ.env with
  | .global => setGlobal name v
  | .frame env j =>
    match valueAt r.frames env j with
    | none => internalError "LSET: local variable index out of range"
    | some (a, _) => Cmd.modifyState fun r => { r with
        frames := r.frames.modify a fun fr => { fr with vals := fr.vals.set j v }
        updates := r.updates ++ [.location a j v] }

/-! ## Calls -/

/-- The frame of a call. -/
def bindArgs (p : Proc) (args : List Value) : RefM X ℕ := do
  let fixed := p.params.length
  let accepted := match p.rest with
    | none => args.length = fixed
    | some _ => fixed ≤ args.length
  if !accepted then
    errorAt ("wrong number of arguments\n  " ++
      arityDetail fixed (if p.rest.isSome then 0 else fixed) args.length)
  let vals ← match p.rest with
    | none => pure args
    | some _ => (do return args.take fixed ++ [← onTables (restArgs args fixed)])
  let a := (← Cmd.getState).frames.length
  Cmd.modifyState fun r => { r with frames := r.frames ++ [⟨p.scope.env, vals⟩] }
  return a

/-- A procedure is entered. -/
def enter (p : Proc) (args : List Value) (κ : Kont) : RefM X Control := do
  let frame ← bindArgs p args
  return .eval (.begin p.body) false (p.inner frame) κ

/-- The thunks between two wind lists: what is left from the inside, and then
what is entered from the outside. -/
def thunksBetween (winds want : List WindEntry) : List Value :=
  ((winds.drop (commonWinds winds want)).reverse.map fun e => e.after) ++
    (want.drop (commonWinds winds want)).map fun e => e.before

/-- **A value is called.** A continuation forgets what is to be done. -/
def callValue (host : Host X) (callee : Value) (args : List Value) (κ : Kont) :
    RefM X Control := do
  match callee with
  | .prim name => return .value (← onTables (host.apply name args)) κ
  | .cont a =>
    let r ← Cmd.getState
    match r.conts[a]? with
    | none => internalError "a continuation that is none"
    | some (κ', winds) =>
      if windsMatch r.data.winds winds then return .value (args.headD .nil) κ'
      else do
        onTables (Cmd.modifyState fun s => { s with winds := winds })
        return .rewind (thunksBetween r.data.winds winds) callee (args.headD .nil)
  | .closure a =>
    match (← Cmd.getState).procs[a]? with
    | none => internalError "a closure that is none"
    | some p => enter p args κ
  | .scratch =>
    match (← Cmd.getState).scratch with
    | none => internalError "a closure that is none"
    | some p => enter p args κ
  | v => errorAt (.behind "attempt to call a non-procedure\n  " (expectedGiven "a procedure" v))

/-! ## Steps -/

/-- An expression. -/
def evalExpr (e : Expr) (operator : Bool) (ρ : Scope) (κ : Kont) : RefM X Control := do
  match e with
  | .const v => return .value v κ
  | .var name => return .value (← readVar ρ name) κ
  | .lambda params rest body =>
    let p : Proc := ⟨params, rest, body, ρ⟩
    if operator then
      Cmd.modifyState fun r => { r with scratch := some p }
      return .value .scratch κ
    else
      let a := (← Cmd.getState).procs.length
      Cmd.modifyState fun r => { r with procs := r.procs ++ [p] }
      return .value (.closure a) κ
  | .ifE test thenE elseE => return .eval test false ρ (.test thenE elseE ρ κ)
  | .begin [] => return .value .nil κ
  | .begin [e] => return .eval e operator ρ κ
  | .begin (e :: e' :: es) => return .eval e false ρ (.seq e' es operator ρ κ)
  | .define name e => return .eval e false ρ (.define name κ)
  | .set name e => return .eval e false ρ (.set name ρ κ)
  | .callcc e => return .eval e false ρ (.callcc κ)
  | .apply f x xs => return .eval x false ρ (.applyArgs f xs [] ρ κ)
  | .call f [] => return .eval f true ρ (.operator [] κ)
  | .call f (x :: xs) => return .eval x false ρ (.args f xs [] ρ κ)

/-- A value, and what is to be done with it. -/
def giveValue (host : Host X) (v : Value) : Kont → RefM X (Value ⊕ Control)
  | .halt => return .inl v
  | .seq e es operator ρ κ => return .inr (.eval (.begin (e :: es)) operator ρ κ)
  | .test thenE elseE ρ κ => return .inr (.eval (if v.isTrue then thenE else elseE) false ρ κ)
  | .define name κ => do
    setGlobal name v
    return .inr (.value (.sym name) κ)
  | .set name ρ κ => do
    setVar ρ name v
    return .inr (.value v κ)
  | .callcc κ => do
    let r ← Cmd.getState
    Cmd.modifyState fun r => { r with conts := r.conts ++ [(κ, r.data.winds)] }
    return .inr (← callValue host v [.cont r.conts.length] κ)
  | .args f [] done ρ κ => return .inr (.eval f true ρ (.operator (done ++ [v]) κ))
  | .args f (x :: xs) done ρ κ => return .inr (.eval x false ρ (.args f xs (done ++ [v]) ρ κ))
  | .applyArgs f [] done ρ κ => do
    let acc ← onTables (listToVector v "apply")
    let list ← onTables (listFrom (done ++ acc))
    return .inr (.eval f false ρ (.applyOperator list κ))
  | .applyArgs f (x :: xs) done ρ κ =>
    return .inr (.eval x false ρ (.applyArgs f xs (done ++ [v]) ρ κ))
  | .operator args κ => do return .inr (← callValue host v args κ)
  | .applyOperator list κ => do
    let args ← onTables (listToVector list "apply")
    return .inr (← callValue host v args κ)
  | .rewind thunks k v' => return .inr (.rewind thunks k v')

/-- What the control asks for. -/
def act (host : Host X) : Control → RefM X (Value ⊕ Control)
  | .eval e operator ρ κ => do return .inr (← evalExpr e operator ρ κ)
  | .value v κ => giveValue host v κ
  | .rewind [] k v => do return .inr (← callValue host k [v] .halt)
  | .rewind (thunk :: thunks) k v =>
    do return .inr (← callValue host thunk [] (.rewind thunks k v))

/-- `handler_installed`. -/
def handled (r : World X) : Bool :=
  match r.data.handler with
  | some v => v.isTrue
  | none => false

/-- The handler is called with an error, and its value is the result. -/
def raise (message : Message) : RefM X Control := do
  let r ← Cmd.getState
  match r.globals "raise" with
  | none => internalError "raise is not defined"
  | some raise =>
    onTables (Cmd.modifyState fun s => { s with errors := s.errors ++ [message] })
    return .eval (.call (.const raise) [.const (.errorObj r.data.errors.length)]) false
      ⟨[], none⟩ .halt

/-- **A step**: an error goes to the handler, if there is one. -/
def step (host : Host X) (control : Control) : RefM X (Value ⊕ Control) := fun r =>
  match act host control r with
  | (.ok next, r') => (.ok next, r')
  | (.error e, r') =>
    match e.catchable? with
    | none => (.error e, r')
    | some message =>
      if !handled r' then (.error e, r')
      else (do return .inr (← raise message) : RefM X (Value ⊕ Control)) r'

/-- The states of the reference. -/
abbrev State (X : Type) := Control × World X

/-- A step of a state: it goes on, or ends with a value or an error. -/
def next (host : Host X) (state : State X) : (Except Err Value × World X) ⊕ State X :=
  match step host state.1 state.2 with
  | (.ok (.inl v), r) => .inl (.ok v, r)
  | (.ok (.inr control), r) => .inr (control, r)
  | (.error e, r) => .inl (.error e, r)

/-- The start, for an expression at top level. -/
def start (e : Expr) (r : World X) : State X :=
  (.eval e false ⟨[], none⟩ .halt, { r with scratch := none })

end Reference

end Scheme14
