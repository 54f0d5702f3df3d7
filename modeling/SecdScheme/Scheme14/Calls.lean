import SecdScheme.Scheme14.Machine

/-!
# scheme14: the six calls

`APP`, `APPLY` and `CALLCC`, each also as a tail call, find the callee and put the
arguments on the stack, each its own way. What is done then is the same, and so
is what is done for a continuation, wherever it is called from.
-/

namespace Scheme14

variable {X : Type}

/-- **The calls**: whether an instruction is a tail call. -/
def Instr.callMode : Instr → Option Bool
  | .app _ | .apply | .callcc => some false
  | .tapp _ | .tapply | .tcallcc => some true
  | _ => none

/-- A call about to be made: the callee, and the machine with the `n` arguments on
the stack. -/
structure Call where
  vm : VM
  callee : Value
  n : ℕ

/-- The arguments, in the order they were written in. -/
def Call.args (c : Call) : List Value := (c.vm.stack.take c.n).reverse

/-- **What an instruction calls**, found in the operands. -/
def prepareCall (vm : VM) : Instr → SchemeM X Call
  | .app n | .tapp n => do
    needOperands vm (n + 1) "APP"
    match vm.stack with
    | [] => internalError "no callee"
    | callee :: stack => return ⟨{ vm with stack := stack }, callee, n⟩
  | .apply | .tapply => do
    needOperands vm 2 "APPLY"
    let args ← onData (listToVector ((vm.stack.drop 1).headD .nil) "apply")
    return ⟨{ vm with stack := args.reverse ++ vm.stack.drop 2 }, vm.stack.headD .nil, args.length⟩
  | .callcc | .tcallcc => do
    needOperands vm 1 "call/cc"
    let vm' := { vm with stack := vm.stack.drop 1 }
    let k ← makeCont vm'
    return ⟨vm'.push k, vm.stack.headD .nil, 1⟩
  | _ => internalError "no call"

/-- **A calling instruction** prepares its call, and makes it. -/
theorem execute_call (host : Host X) (self : Self X) (vm : VM) {i : Instr} {tail : Bool}
    (hi : i.callMode = some tail) : execute host self vm i = (do
      let c ← prepareCall vm i
      return .continue (← doCall host self c.vm c.callee c.n tail)) := by
  unfold prepareCall
  cases i with
  | app n | tapp n =>
    obtain rfl := Option.some.inj hi
    rw [Cmd.bind_assoc_run]
    refine congrArg (needOperands vm (n + 1) "APP" >>= ·) (funext fun _ => ?_)
    unfold popAndCall
    cases vm.stack <;> rfl
  | apply | tapply =>
    obtain rfl := Option.some.inj hi
    rw [Cmd.bind_assoc_run]
    refine congrArg (needOperands vm 2 "APPLY" >>= ·) (funext fun _ => ?_)
    rw [Cmd.bind_assoc_run]
    rfl
  | callcc | tcallcc =>
    obtain rfl := Option.some.inj hi
    rw [Cmd.bind_assoc_run]
    refine congrArg (needOperands vm 1 "call/cc" >>= ·) (funext fun _ => ?_)
    rw [Cmd.bind_assoc_run]
    rfl
  | _ => cases hi

/-! ## Continuations -/

/-- The call of a continuation, in a machine with the `n` arguments on the stack. -/
def callCont (vm : VM) (a n : ℕ) : SchemeM X VM := do
  let v := (vm.stack.take n).reverse.headD .nil
  let w ← Cmd.getState
  match w.conts[a]? with
  | none => internalError "a continuation that is none"
  | some k =>
    if windsMatch w.data.winds k.winds then return k.resume vm.scratch v
    else do
      let code := rewindCode w.data.winds (.cont a) k.winds v
      onData (Cmd.modifyState fun s => { s with winds := k.winds })
      return { vm with c := code, pc := 0 }

/-- Whoever calls it, and from wherever. -/
theorem doCall_cont (host : Host X) (self : Self X) (vm : VM) (a n : ℕ) (tail : Bool) :
    doCall host self vm (.cont a) n tail = callCont vm a n := rfl

end Scheme14
