import SecdScheme.Scheme14.Compiler

/-!
# scheme14: the machine

`VM::run`: one instruction after the other, with the calls, the rewinding
that a continuation starts with when the wind list is not its own, and the
errors that are handed to the handler. The recursion of machine and compiler
is tied at the end, `machine`.
-/

namespace Scheme14

variable {X : Type}

/-! ## The stack and the dump -/

namespace VM

/-- `stack.resize(n)`. -/
def resize (stack : List Value) (n : ℕ) : List Value :=
  if n ≤ stack.length then stack.drop (stack.length - n)
  else List.replicate (n - stack.length) .nil ++ stack

/-- `stack.push_back`. -/
def push (vm : VM) (v : Value) : VM := { vm with stack := v :: vm.stack }

end VM

/-- A new stamp. -/
def newStamp : SchemeM X ℕ := fun w => (.ok (w.stamps + 1), { w with stamps := w.stamps + 1 })

/-- `dump.push_back`: the entry for what follows the running instruction. -/
def pushEntry (vm : VM) (kind : EntryKind) : SchemeM X VM := do
  let stamp ← newStamp
  return { vm with
    dump := ⟨vm.c, vm.pc, vm.env, vm.base, kind, stamp, vm.mark⟩ :: vm.dump
    mark := stamp }

/-- An instruction pops `n` operands. The program looks at the whole stack;
that they are its own, above `base`, is observed. -/
def needOperands (vm : VM) (n : ℕ) (who : String) : SchemeM X Unit := do
  if vm.stack.length < n then fault .stackUnderflow (who ++ ": operand stack underflow")
  observe (vm.base + n ≤ vm.stack.length) .stackUnderflow

/-! ## Environments -/

/-- `env_at`. -/
def envAt (frames : List Frame) : Option ℕ → ℕ → Option ℕ
  | none, _ => none
  | some a, 0 => some a
  | some a, n + 1 =>
    match frames[a]? with
    | none => none
    | some f => envAt frames f.next n

/-- The location of a local variable, and what it holds. -/
def localAt (frames : List Frame) (env : Option ℕ) (a b : ℕ) : Option (ℕ × Value) := do
  let f ← envAt frames env a
  let v ← (← frames[f]?).vals[b]?
  return (f, v)

/-! ## Continuations -/

/-- `winds_match`. -/
def windsMatch (have_ want : List WindEntry) : Bool := have_.map (·.id) == want.map (·.id)

/-- The entries two wind lists begin with, in the first and in the second. -/
def commonWinds : List WindEntry → List WindEntry → ℕ
  | a :: as, b :: bs => if a.id = b.id then commonWinds as bs + 1 else 0
  | _, _ => 0

/-- The instructions for a call of a thunk. -/
def thunkCall (thunk : Value) : Code := [.ldc thunk, .app 0, .pop]

/-- `build_rewind_code`: the code, for the wind list there is and the one of
the continuation. -/
def rewindCode (winds : List WindEntry) (k : Value) (want : List WindEntry) (v : Value) : Code :=
  let common := commonWinds winds want
  ((winds.drop common).reverse.map fun e => thunkCall e.after).flatten ++
    ((want.drop common).map fun e => thunkCall e.before).flatten ++
    [.ldc v, .ldc k, .app 1]

/-- The registers of a continuation, with the value on the stack. -/
def Cont.resume (k : Cont) (scratch : Option Closure) (v : Value) : VM :=
  { stack := v :: k.stack, dump := k.dump, env := k.env, scratch := scratch, c := k.c, pc := k.pc,
    base := k.base, mark := k.mark }

/-! ## Calls -/

/-- A procedure body is entered: the arguments are above `argp`. -/
def enterCode (vm : VM) (argp : ℕ) (tail : Bool) (c : Code) (env : Option ℕ) : SchemeM X VM := do
  let vm ←
    if tail then pure { vm with stack := VM.resize vm.stack vm.base }
    else (do
      let vm ← pushEntry vm .call
      pure { vm with stack := VM.resize vm.stack argp, base := argp })
  return { vm with c := c, pc := 0, env := env }

/-- `vm_enter_eval`. -/
def enterEval (self : Self X) (vm : VM) (argp : ℕ) (args : List Value) (tail : Bool) :
    SchemeM X VM := do
  match args with
  | [expr, envv] =>
    match envv with
    | .environment t =>
      let code ← compileEval self expr t
      enterCode vm argp tail code none
    | v =>
      errorAt (.behind "eval: wrong type of argument\n  " (expectedGiven "an environment" v))
  | _ => errorAt ("eval: wrong number of arguments\n  " ++ arityDetail 2 2 args.length)

/-- `do_call`: the callee has been popped, and the `n` arguments are on the
stack. -/
def doCall (host : Host X) (self : Self X) (vm : VM) (callee : Value) (n : ℕ) (tail : Bool) :
    SchemeM X VM := do
  let argp := vm.stack.length - n
  let args := (vm.stack.take n).reverse
  match callee with
  | .prim name =>
    if host.kind name = .eval then enterEval self vm argp args tail
    else do
      let out ← callPrimStep host self name args
      return { vm with stack := out :: VM.resize vm.stack argp }
  | .cont a =>
    let v := args.headD .nil
    let w ← Cmd.getState
    match w.conts[a]? with
    | none => internalError "a continuation that is none"
    | some k =>
      if windsMatch w.data.winds k.winds then return k.resume vm.scratch v
      else do
        let code := rewindCode w.data.winds callee k.winds v
        onData (Cmd.modifyState fun s => { s with winds := k.winds })
        return { vm with c := code, pc := 0 }
  | .closure a =>
    match (← Cmd.getState).closures[a]? with
    | none => internalError "a closure that is none"
    | some clo =>
      let frame ← makeFrame clo args
      enterCode vm argp tail clo.body (some frame)
  | .scratch =>
    match vm.scratch with
    | none => internalError "a closure that is none"
    | some clo =>
      let frame ← makeFrame clo args
      enterCode vm argp tail clo.body (some frame)
  | v => errorAt (.behind "attempt to call a non-procedure\n  " (expectedGiven "a procedure" v))

/-- The callee is popped and called. -/
def popAndCall (host : Host X) (self : Self X) (vm : VM) (n : ℕ) (tail : Bool) :
    SchemeM X VM :=
  match vm.stack with
  | [] => internalError "no callee"
  | callee :: stack => doCall host self { vm with stack := stack } callee n tail

/-! ## Instructions -/

/-- How an instruction ends. -/
inductive Next where
  | continue (vm : VM)
  | done (v : Value)

/-- The branch that a value chooses. -/
def chooseBranch (v : Value) (ct cf : Option Code) : SchemeM X Code :=
  match (if v.isTrue then ct else cf) with
  | some c => pure c
  | none => fault .branchMissing "SEL: missing branch"

/-- A global cell is set, and the update is noted. -/
def setGlobal (x : Cell) (v : Value) : SchemeM X Unit :=
  Cmd.modifyState (fun w => { w with
    globals := fun t n => if t = x.table ∧ n = x.name then some v else w.globals t n
    updates := w.updates ++ [.globalCell x v] })

/-- A read of a global cell is noted. -/
def noteRead (read : Read) : SchemeM X Unit :=
  Cmd.modifyState (fun w => { w with reads := w.reads ++ [read] })

/-- A location is set, and the update is noted. -/
def setLocation (f b : ℕ) (v : Value) : SchemeM X Unit :=
  Cmd.modifyState (fun w => { w with
    frames := w.frames.modify f (fun fr => { fr with vals := fr.vals.set b v })
    updates := w.updates ++ [.location f b v] })

/-- The closure that a `LDF` makes. -/
def makeClosure (clo : Closure) : SchemeM X Value := fun w =>
  (.ok (.closure w.closures.length), { w with closures := w.closures ++ [clo] })

/-- The continuation that a `CALLCC` makes. -/
def makeCont (vm : VM) : SchemeM X Value := fun w =>
  (.ok (.cont w.conts.length), { w with
    conts := w.conts ++ [⟨vm.stack, vm.dump, w.data.winds, vm.c, vm.pc, vm.env, vm.base, vm.mark⟩] })

/-- The value of a macro's cell. -/
def macroValue : Value → Value
  | .closure a => .macroObj a
  | v => v

/-- RTN takes the entry of its own call, or ends the outermost code. -/
def returnStep (vm : VM) : SchemeM X Next := do
  let r := vm.stack.headD .nil
  observe (vm.base + 1 ≤ vm.stack.length) .stackUnderflow
  match vm.dump with
  | [] => do
    observe (vm.mark = 0) .foreignEntry
    return .done r
  | back :: dump => do
    observe (back.kind = .call ∧ back.stamp = vm.mark) .foreignEntry
    return .continue { vm with
      dump := dump
      stack := r :: VM.resize vm.stack vm.base
      c := back.c, pc := back.pc, env := back.env, base := back.base, mark := back.mark }

/-- JOIN takes the entry of its own SEL. -/
def joinStep (vm : VM) : SchemeM X Next := do
  match vm.dump with
  | [] => fault .dumpUnderflow "JOIN: dump underflow"
  | back :: dump =>
    observe (back.kind = .branch ∧ back.stamp = vm.mark ∧ back.env = vm.env ∧
      back.base = vm.base) .foreignEntry
    return .continue { vm with dump := dump, c := back.c, pc := back.pc, mark := back.mark }

/-- **One instruction.** The counter is already past it. -/
def execute (host : Host X) (self : Self X) (vm : VM) : Instr → SchemeM X Next
  | .ld a b => do
    match localAt (← Cmd.getState).frames vm.env a b with
    | none => fault .localOutOfRange "LD: local variable index out of range"
    | some (_, v) => return .continue (vm.push v)
  | .ldc v => return .continue (vm.push v)
  | .ldg x => do
    noteRead (.instruction vm.c x)
    match (← Cmd.getState).globals x.table x.name with
    | none => errorAt ("unbound variable: " ++ x.name)
    | some v => return .continue (vm.push v)
  | .ldf params rest body true =>
    return .continue { vm.push .scratch with scratch := some ⟨params, rest, body, vm.env⟩ }
  | .ldf params rest body false => do
    return .continue (vm.push (← makeClosure ⟨params, rest, body, vm.env⟩))
  | .app n => do
    needOperands vm (n + 1) "APP"
    return .continue (← popAndCall host self vm n false)
  | .tapp n => do
    needOperands vm (n + 1) "APP"
    return .continue (← popAndCall host self vm n true)
  | .argsAp n => do
    if n = 0 then fault .stackUnderflow "ARGS-AP: operand stack underflow"
    needOperands vm n "ARGS-AP"
    let acc ← onData (listToVector (vm.stack.headD .nil) "apply")
    let heads := ((vm.stack.take n).drop 1).reverse
    let l ← onData (listFrom (heads ++ acc))
    return .continue { vm with stack := l :: vm.stack.drop n }
  | .apply => do
    needOperands vm 2 "APPLY"
    let callee := vm.stack.headD .nil
    let args ← onData (listToVector ((vm.stack.drop 1).headD .nil) "apply")
    let vm := { vm with stack := args.reverse ++ vm.stack.drop 2 }
    return .continue (← doCall host self vm callee args.length false)
  | .tapply => do
    needOperands vm 2 "APPLY"
    let callee := vm.stack.headD .nil
    let args ← onData (listToVector ((vm.stack.drop 1).headD .nil) "apply")
    let vm := { vm with stack := args.reverse ++ vm.stack.drop 2 }
    return .continue (← doCall host self vm callee args.length true)
  | .rtn => returnStep vm
  | .sel ct cf => do
    needOperands vm 1 "SEL"
    let c ← chooseBranch (vm.stack.headD .nil) ct cf
    let vm ← pushEntry { vm with stack := vm.stack.drop 1 } .branch
    return .continue { vm with c := c, pc := 0 }
  | .selr ct cf => do
    needOperands vm 1 "SEL"
    let c ← chooseBranch (vm.stack.headD .nil) ct cf
    return .continue { vm with stack := vm.stack.drop 1, c := c, pc := 0 }
  | .join => joinStep vm
  | .pop => do
    needOperands vm 1 "POP"
    return .continue { vm with stack := vm.stack.drop 1 }
  | .defG x => do
    needOperands vm 1 "DEF"
    setGlobal x (vm.stack.headD .nil)
    return .continue { vm with stack := .sym x.name :: vm.stack.drop 1 }
  | .defm x => do
    needOperands vm 1 "DEFM"
    let v := vm.stack.headD .nil
    Cmd.modifyState (fun w => { w with
      macros := fun t n => if t = x.table ∧ n = x.name then some v else w.macros t n })
    setGlobal x (macroValue v)
    return .continue { vm with stack := .sym x.name :: vm.stack.drop 1 }
  | .lset a b => do
    needOperands vm 1 "LSET"
    match localAt (← Cmd.getState).frames vm.env a b with
    | none => fault .localOutOfRange "LSET: local variable index out of range"
    | some (f, _) => do
      setLocation f b (vm.stack.headD .nil)
      return .continue vm
  | .gset x => do
    needOperands vm 1 "GSET"
    setGlobal x (vm.stack.headD .nil)
    return .continue vm
  | .callcc => do
    needOperands vm 1 "call/cc"
    let proc := vm.stack.headD .nil
    let vm := { vm with stack := vm.stack.drop 1 }
    let k ← makeCont vm
    return .continue (← doCall host self (vm.push k) proc 1 false)
  | .tcallcc => do
    needOperands vm 1 "call/cc"
    let proc := vm.stack.headD .nil
    let vm := { vm with stack := vm.stack.drop 1 }
    let k ← makeCont vm
    return .continue (← doCall host self (vm.push k) proc 1 true)
  | .stop => return .done (vm.stack.headD .nil)

/-! ## Errors -/

/-- `handler_installed`. -/
def handlerInstalled (w : World X) : Bool :=
  match w.data.handler with
  | some v => v.isTrue
  | none => false

/-- The message of an error that can be handed to a handler. -/
def Err.catchable? : Err → Option Message
  | .scheme message true => some message
  | _ => none

/-- `abandon_to_raise`. The dump is left as it is. Whatever the table of the code
that failed, `raise` is looked up in the interaction environment. -/
def abandonToRaise (vm : VM) (message : Message) : SchemeM X VM := do
  noteRead (.handOver vm.c ⟨.interaction, "raise"⟩)
  let w ← Cmd.getState
  match w.globals .interaction "raise" with
  | none => internalError "raise is not defined"
  | some raise =>
    onData (Cmd.modifyState fun s => { s with errors := s.errors ++ [message] })
    return { vm with
      stack := [], base := 0, env := none, pc := 0, mark := 0
      c := [.ldc (.errorObj w.data.errors.length), .ldc raise, .app 1, .stop] }

/-- An error of an instruction goes to the handler, if there is one and the
machine is the outermost one. -/
def handOver (vm : VM) (m : SchemeM X Next) : SchemeM X Next := fun w =>
  match m w with
  | (.ok next, w') => (.ok next, w')
  | (.error e, w') =>
    match e.catchable? with
    | none => (.error e, w')
    | some message =>
      if 1 < w'.runDepth ∨ !handlerInstalled w' then (.error e, w')
      else (do return .continue (← abandonToRaise vm message) : SchemeM X Next) w'

/-- One turn of the loop of `VM::run`. -/
def loopStep (host : Host X) (self : Self X) (vm : VM) : SchemeM X Value := do
  match vm.c[vm.pc]? with
  | none => fault .codeExhausted "code exhausted without reaching STOP"
  | some ins =>
    match ← handOver vm (execute host self { vm with pc := vm.pc + 1 } ins) with
    | .continue vm => self.loop vm
    | .done v => return v

/-- **The compiler and the machine**, to a depth of recursion. -/
def machine (host : Host X) : ℕ → Self X
  | 0 =>
    { fuel := 0
      comp := fun _ _ _ => Cmd.fail .outOfFuel
      loop := fun _ => Cmd.fail .outOfFuel
      callPrim := fun _ _ => Cmd.fail .outOfFuel }
  | n + 1 =>
    { fuel := n + 1
      comp := compStep (machine host n)
      loop := loopStep host (machine host n)
      callPrim := callPrimStep host (machine host n) }

/-- Forms one after the other, as they are typed in: an error ends a form and
nothing else. -/
def playForms (host : Host X) (fuel : ℕ) (forms : List Value) (w : World X) : World X :=
  forms.foldl (fun w form => (evalTop (machine host fuel) form w).2) w

end Scheme14
