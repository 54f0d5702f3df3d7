import SecdScheme.Scheme14.Syntax

/-!
# scheme14: the compiler

`comp` and what it calls. A user's macro is expanded by running its
transformer on a machine of its own, so that the compiler and the machine
call each other; both are steps of a recursion on fuel, and `Self` is what
they are handed for the calls of the next level.

An operand of an instruction has 16 bits. One that does not fit is cut, as in
the program, and the world remembers that it was.
-/

namespace Scheme14

variable {X : Type}

/-- The names in scope, frame by frame. -/
abbrev CompileEnv := List (List String)

/-- What a primitive is to the machine. -/
inductive PrimKind where
  /-- An ordinary primitive. -/
  | data
  | eval
  | macroexpand1
  | macroexpand
  | load
  | compile
  deriving DecidableEq, Repr

/-- **What is around the compiler and the machine**: the primitives, and the
files that `load` reads. The number of arguments of the primitives that are
not ordinary is checked by the machine. -/
structure Host (X : Type) where
  kind : String → PrimKind
  apply : String → List Value → DataM X Value
  /-- The forms of the file that `load` is given. -/
  readForms : Value → DataM X (List Value)
  testMode : X → Bool
  reportTest : Value → Value → DataM X Unit

/-- What a step of the recursion may call. -/
structure Self (X : Type) where
  fuel : ℕ
  comp : Value → CompileEnv → Bool → SchemeM X Code
  /-- The loop of the machine. -/
  loop : VM → SchemeM X Value
  callPrim : String → List Value → SchemeM X Value

/-! ## Calls from outside the machine -/

/-- The arguments of a rest parameter, as a list. -/
def restArgs (args : List Value) (fixed : ℕ) : DataM X Value := listFrom (args.drop fixed)

/-- `make_frame`. -/
def makeFrame (clo : Closure) (args : List Value) : SchemeM X ℕ := do
  let fixed := clo.params.length
  let accepted := match clo.rest with
    | none => args.length = fixed
    | some _ => fixed ≤ args.length
  if !accepted then
    errorAt ("wrong number of arguments\n  " ++
      arityDetail fixed (if clo.rest.isSome then 0 else fixed) args.length)
  let vals ← match clo.rest with
    | none => pure args
    | some _ => (do return args.take fixed ++ [← onData (restArgs args fixed)])
  let a := (← Cmd.getState).frames.length
  Cmd.modifyState (fun w => { w with frames := w.frames ++ [⟨clo.env, vals⟩] })
  return a

/-- A machine at the start of some code. -/
def VM.start (c : Code) (env : Option ℕ) : VM :=
  { stack := [], dump := [], env := env, scratch := none, c := c, pc := 0, base := 0, mark := 0 }

/-- `VM::run`: the loop, one level deeper. -/
def run (self : Self X) (vm : VM) : SchemeM X Value := do
  Cmd.modifyState (fun w => { w with runDepth := w.runDepth + 1 })
  Cmd.finallyDo (self.loop vm) (fun w => { w with runDepth := w.runDepth - 1 })

/-- The compiler looks names up in another table meanwhile. -/
def withTable {α : Type} (t : Table) (m : SchemeM X α) : SchemeM X α := do
  let saved := (← Cmd.getState).compileTable
  Cmd.modifyState (fun w => { w with compileTable := t })
  Cmd.finallyDo m (fun w => { w with compileTable := saved })

/-- The closure a value leads to. -/
def World.closureAt (w : World X) : Value → Option Closure
  | .closure a => w.closures[a]?
  | _ => none

/-- `apply_callable`. -/
def applyCallable (self : Self X) (proc : Value) (args : List Value) : SchemeM X Value := do
  match proc with
  | .prim name => self.callPrim name args
  | v =>
    match (← Cmd.getState).closureAt v with
    | none =>
      errorAt (.behind "macro transformer is not callable\n  " (expectedGiven "a procedure" v))
    | some clo => run self (VM.start clo.body (some (← makeFrame clo args)))

/-- `macro_expand_1_expr`: the form itself where its head names no macro. -/
def macroExpand1 (self : Self X) (expr : Value) : SchemeM X Value := do
  if !isPair expr then return expr
  let (head, rest) ← onData (asPair expr)
  match head with
  | .sym name =>
    let w ← Cmd.getState
    match w.macros w.compileTable name with
    | none => return expr
    | some m => applyCallable self m (← onData (listToVector rest "macro call"))
  | _ => return expr

/-! ## Code for one form -/

/-- An operand of 16 bits. -/
def operand (n : ℕ) : SchemeM X ℕ := do
  if 65536 ≤ n then Cmd.modifyState (fun w => { w with truncated := true })
  return n % 65536

/-- `location_of`: the frame and the index of a local variable. -/
def locationOf (name : String) : CompileEnv → Option (ℕ × ℕ)
  | [] => none
  | frame :: env =>
    match frame.findIdx? (· == name) with
    | some j => some (0, j)
    | none => (locationOf name env).map fun p => (p.1 + 1, p.2)

/-- `compile_global`. -/
def compileGlobal (name : String) : SchemeM X Cell := do
  return ⟨(← Cmd.getState).compileTable, name⟩

/-- The last instruction, if it makes a closure, makes the scratch closure. -/
def markLast : Code → Code
  | [] => []
  | [.ldf params rest body _] => [.ldf params rest body true]
  | [i] => [i]
  | i :: j :: is => i :: markLast (j :: is)

/-- The words that `comp` knows. -/
inductive Keyword where
  | quote
  /-- `trace-print` and `compile-print`, which are ignored. -/
  | traceSwitch
  | derived (d : Derived)
  | ifK
  | begin
  | lambda
  | define (isMacro : Bool)
  | set
  | callcc (word : String)
  | apply
  deriving DecidableEq, Repr

/-- The word a head is. -/
def keywordOf : Value → Option Keyword
  | .sym "quote" => some .quote
  | .sym "trace-print" => some .traceSwitch
  | .sym "compile-print" => some .traceSwitch
  | .sym "if" => some .ifK
  | .sym "begin" => some .begin
  | .sym "lambda" => some .lambda
  | .sym "define" => some (.define false)
  | .sym "define-macro" => some (.define true)
  | .sym "set!" => some .set
  | .sym "call/cc" => some (.callcc "call/cc")
  | .sym "call-with-current-continuation" => some (.callcc "call-with-current-continuation")
  | .sym "apply" => some .apply
  | .sym name => (derivedOf name).map .derived
  | _ => none

/-- The code of a symbol. -/
def compVar (name : String) (env : CompileEnv) : SchemeM X Code := do
  match locationOf name env with
  | some (i, j) => return [.ld (← operand i) (← operand j)]
  | none => return [.ldg (← compileGlobal name)]

/-- The code of the arguments, one after the other. -/
def compArgs (self : Self X) (xs : List Value) (env : CompileEnv) : SchemeM X Code := do
  return (← Cmd.mapList (fun x => self.comp x env false) xs).flatten

/-- The code of the forms of a body. -/
def compForms (self : Self X) (env : CompileEnv) (tail : Bool) : List Value → SchemeM X Code
  | [] => return [.ldc .nil]
  | [e] => self.comp e env tail
  | e :: e' :: es => do
    let c ← self.comp e env false
    return c ++ .pop :: (← compForms self env tail (e' :: es))

/-- `comp_body`. -/
def compBody (self : Self X) (body : Value) (env : CompileEnv) (tail : Bool) :
    SchemeM X Code := do
  compForms self env tail (← onData (listToVector body "body"))

/-- `compile_lambda`: the instruction for the closure. -/
def compileLambda (self : Self X) (params body : Value) (env : CompileEnv) :
    SchemeM X Instr := do
  match ← onData (extractParams params) with
  | none =>
    onData (syntaxError "lambda" "parameter list must be symbols, e.g. (x y) or (x . rest)")
  | some (fixed, rest) =>
    let body ← onData (scanOutDefines body)
    let code ← compBody self body ((fixed ++ rest.toList) :: env) true
    return .ldf fixed rest (code ++ [.rtn]) false

/-- `(if test then)` and `(if test then else)`. -/
def compIf (self : Self X) (rest : Value) (env : CompileEnv) (tail : Bool) :
    SchemeM X Code := do
  onData (checkArity "if" rest 2 3)
  let test ← onData (car rest)
  let branches ← onData (cdr rest)
  let thenE ← onData (car branches)
  let others ← onData (cdr branches)
  let elseE ← if others = .nil then pure .nil else onData (car others)
  let code ← self.comp test env false
  let ct ← self.comp thenE env tail
  let cf ← self.comp elseE env tail
  if tail then return code ++ [.selr (some (ct ++ [.rtn])) (some (cf ++ [.rtn]))]
  else return code ++ [.sel (some (ct ++ [.join])) (some (cf ++ [.join]))]

/-- The note on a definition of another shape. -/
def definitionShapes (form : String) : String :=
  "expected (" ++ form ++ " name expr) or (" ++ form ++ " (name . params) body ...)"

/-- `define` and `define-macro`: the name and the code of the value. -/
def compDefine (self : Self X) (isMacro : Bool) (rest : Value) (env : CompileEnv) :
    SchemeM X Code := do
  let form := if isMacro then "define-macro" else "define"
  if (← Cmd.getState).compileTable ≠ .interaction then
    onData (syntaxError form "note: accepted only in the interaction environment")
  onData (checkArity form rest 1 0)
  let (lhs, rhsTail) ← onData (asPair rest)
  let (name, code) ← match lhs with
    | .sym name => do
      if rhsTail = .nil then
        onData (syntaxError form (if isMacro then "macro definition needs a transformer expression"
          else "variable definition needs a value expression"))
      if (← onData (cdr rhsTail)) ≠ .nil then
        onData (syntaxError form (if isMacro then "macro definition takes exactly one transformer"
          else "variable definition takes exactly one value"))
      let code ← self.comp (← onData (car rhsTail)) env false
      pure (name, code)
    | .pair _ => do
      let (f, params) ← onData (asPair lhs)
      match f with
      | .sym name =>
        let i ← compileLambda self params rhsTail env
        pure (name, [i])
      | _ => onData (syntaxError form (definitionShapes form))
    | _ => onData (syntaxError form (definitionShapes form))
  let x ← compileGlobal name
  return code ++ [if isMacro then .defm x else .defG x]

/-- `set!`. -/
def compSet (self : Self X) (rest : Value) (env : CompileEnv) : SchemeM X Code := do
  onData (checkArity "set!" rest 2 2)
  match ← onData (car rest) with
  | .sym name =>
    let code ← self.comp (← onData (do car (← cdr rest))) env false
    match locationOf name env with
    | some (i, j) => return code ++ [.lset (← operand i) (← operand j)]
    | none =>
      if (← Cmd.getState).compileTable ≠ .interaction then
        onData (syntaxError "set!" "note: accepted only in the interaction environment")
      return code ++ [.gset (← compileGlobal name)]
  | target =>
    onData (syntaxError "set!" (expectedGiven "the assignment target to be a symbol" target))

/-- `(apply f a b ... lst)`: the arguments are packed into a list before the
operator. -/
def compApply (self : Self X) (rest : Value) (env : CompileEnv) (tail : Bool) :
    SchemeM X Code := do
  onData (checkArity "apply" rest 2 0)
  match ← onData (listToVector rest "apply") with
  | [] => internalError "apply without an operator"
  | f :: xs =>
    let args ← compArgs self xs env
    let n ← operand xs.length
    let code ← self.comp f env false
    return args ++ .argsAp n :: code ++ [if tail then .tapply else .apply]

/-- The code of a call: the arguments from left to right, then the
operator. -/
def compCall (self : Self X) (head rest : Value) (env : CompileEnv) (tail : Bool) :
    SchemeM X Code := do
  let xs ← onData (listToVector rest "application")
  let args ← compArgs self xs env
  let code ← self.comp head env false
  let n ← operand xs.length
  return args ++ markLast code ++ [if tail then .tapp n else .app n]

/-- The special forms. -/
def compSpecial (self : Self X) (expr rest : Value) (env : CompileEnv) (tail : Bool) :
    Keyword → SchemeM X Code
  | .quote => do
    onData (checkArity "quote" rest 1 1)
    return [.ldc (← onData (car rest))]
  | .traceSwitch => return [.ldc (.bool true)]
  | .derived _ => do self.comp (← onData (expandForm1 self.fuel expr)) env tail
  | .ifK => compIf self rest env tail
  | .begin => compBody self rest env tail
  | .lambda => do
    onData (checkArity "lambda" rest 1 0)
    let (params, body) ← onData (asPair rest)
    return [← compileLambda self params body env]
  | .define isMacro => compDefine self isMacro rest env
  | .set => compSet self rest env
  | .callcc word => do
    onData (checkArity word rest 1 1)
    let code ← self.comp (← onData (car rest)) env false
    return code ++ [if tail then .tcallcc else .callcc]
  | .apply => compApply self rest env tail

/-- `comp`. -/
def compStep (self : Self X) (expr : Value) (env : CompileEnv) (tail : Bool) :
    SchemeM X Code := do
  if expr.selfEvaluating then return [.ldc expr]
  match expr with
  | .sym name => compVar name env
  | .pair _ =>
    let (head, rest) ← onData (asPair expr)
    match keywordOf head with
    | some word => compSpecial self expr rest env tail word
    | none =>
      let expanded ← macroExpand1 self expr
      if expanded ≠ expr then self.comp expanded env tail
      else compCall self head rest env tail
  | v => return [.ldc v]

/-! ## Entries -/

/-- `compile_top`. -/
def compileTop (self : Self X) (expr : Value) : SchemeM X Code :=
  withTable .interaction do return (← self.comp expr [] false) ++ [.stop]

/-- `compile_eval`. -/
def compileEval (self : Self X) (expr : Value) (t : Table) : SchemeM X Code :=
  withTable t do return (← self.comp expr [] true) ++ [.rtn]

/-- `eval_top`. -/
def evalTop (self : Self X) (expr : Value) : SchemeM X Value := do
  run self (VM.start (← compileTop self expr) none)

/-- `load_from_path`, from its forms on: the value of the last one. In test
mode a form is followed by the value it should have. -/
def loadForms (host : Host X) (self : Self X) : List Value → Value → SchemeM X Value
  | [], last => return last
  | form :: forms, _ => do
    let last ← evalTop self form
    if host.testMode (← Cmd.getState).data.ext then
      match forms with
      | [] => return last
      | expected :: forms =>
        onData (host.reportTest last expected)
        loadForms host self forms last
    else loadForms host self forms last

/-! ## Primitives that call the compiler or the machine -/

/-- `need_args`, for an exact number. -/
def needArgs (who : String) (args : List Value) (n : ℕ) : SchemeM X Unit :=
  if args.length = n then pure ()
  else errorAt (who ++ ": wrong number of arguments\n  " ++ arityDetail n n args.length)

/-- `expand_one_step`. -/
def expandOneStep (self : Self X) (form : Value) : SchemeM X Value := do
  let out ← onData (expandForm1 self.fuel form)
  if out ≠ form then return out
  macroExpand1 self form

/-- The loop of `macroexpand`. -/
def expandRepeatedly (self : Self X) : ℕ → Value → SchemeM X Value
  | 0, _ => errorAt "macroexpand: expansion did not terminate"
  | steps + 1, form => do
    let out ← expandOneStep self form
    if out = form then return form
    expandRepeatedly self steps out

/-- A call of a primitive. -/
def callPrimStep (host : Host X) (self : Self X) (name : String) (args : List Value) :
    SchemeM X Value := do
  match host.kind name with
  | .data => onData (host.apply name args)
  | .eval => internalError "eval was entered as an ordinary primitive"
  | .macroexpand1 =>
    needArgs "macroexpand-1" args 1
    expandOneStep self (args.headD .nil)
  | .macroexpand =>
    needArgs "macroexpand" args 1
    expandRepeatedly self 1000 (args.headD .nil)
  | .load =>
    needArgs "load" args 1
    loadForms host self (← onData (host.readForms (args.headD .nil))) .nil
  | .compile =>
    needArgs "compile" args 1
    let _ ← compileTop self (args.headD .nil)
    return .sym ":compiled"

end Scheme14
