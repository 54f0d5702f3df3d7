import SecdScheme.Scheme14.Reference
import SecdScheme.Scheme14.MultipleValues
import SecdScheme.Lib.Stepping

/-!
# scheme14: the code of core forms, and the registers that it waits in

`Expr.code` is what the compiler emits for a core form. A continuation of the
reference is related to the registers of the machine that wait for the same
value: the code that comes next begins with what is to be done, and what
follows it waits for the rest. A value may first have to come back through
branches and calls.
-/

namespace Scheme14

open Reference (Kont Scope Proc Control)

/-! ## Code -/

/-- A variable, local or global. -/
def varCode (names : CompileEnv) (name : String) : Instr :=
  match locationOf name names with
  | some (i, j) => .ld i j
  | none => .ldg ⟨.interaction, name⟩

/-- An assignment to it. -/
def setCode (names : CompileEnv) (name : String) : Instr :=
  match locationOf name names with
  | some (i, j) => .lset i j
  | none => .gset ⟨.interaction, name⟩

/-- The choice between two branches, which in tail position return themselves. -/
def testCode (tail : Bool) (ct cf : Code) : Instr :=
  if tail then .selr (some (ct ++ [.rtn])) (some (cf ++ [.rtn]))
  else .sel (some (ct ++ [.join])) (some (cf ++ [.join]))

/-- A call. -/
def callCode (tail : Bool) (n : ℕ) : Instr := if tail then .tapp n else .app n

/-- The call that `apply` makes. -/
def applyCode (tail : Bool) : Instr := if tail then .tapply else .apply

/-- The call that `call/cc` makes. -/
def callccCode (tail : Bool) : Instr := if tail then .tcallcc else .callcc

mutual

/-- **The code of a core form.** -/
def Expr.code : Expr → CompileEnv → Bool → Code
  | .const v, _, _ => [.ldc v]
  | .var name, names, _ => [varCode names name]
  | .lambda params rest body, names, _ =>
    [.ldf params rest (bodyCode body ((params ++ rest.toList) :: names) true ++ [.rtn]) false]
  | .ifE test thenE elseE, names, tail =>
    test.code names false ++ [testCode tail (thenE.code names tail) (elseE.code names tail)]
  | .begin forms, names, tail => bodyCode forms names tail
  | .define name e, names, _ => e.code names false ++ [.defG ⟨.interaction, name⟩]
  | .set name e, names, _ => e.code names false ++ [setCode names name]
  | .callcc e, names, tail => e.code names false ++ [callccCode tail]
  | .apply f x xs, names, tail =>
    x.code names false ++ (argsCode xs names ++ .argsAp (xs.length + 1) ::
      (f.code names false ++ [applyCode tail]))
  | .call f xs, names, tail =>
    argsCode xs names ++ (markLast (f.code names false) ++ [callCode tail xs.length])

/-- The code of the forms of a body. -/
def bodyCode : List Expr → CompileEnv → Bool → Code
  | [], _, _ => [.ldc .nil]
  | [e], names, tail => e.code names tail
  | e :: e' :: es, names, tail => e.code names false ++ .pop :: bodyCode (e' :: es) names tail

/-- The code of arguments, one after the other. -/
def argsCode : List Expr → CompileEnv → Code
  | [], _ => []
  | e :: es, names => e.code names false ++ argsCode es names

end

/-- The code of an expression in operator position or not. -/
def marked (operator : Bool) (c : Code) : Code := if operator then markLast c else c

/-- What is left of a rewinding. -/
def rewindingCode (thunks : List Value) (k v : Value) : Code :=
  (thunks.map thunkCall).flatten ++ [.ldc v, .ldc k, .app 1]

/-! ## Waiting -/

/-- The registers below a value, and the code that comes next. -/
structure Waiting where
  stack : List Value
  base : ℕ
  dump : List DumpEntry
  env : Option ℕ
  code : Code

/-- The code that comes next. -/
def VM.ahead (vm : VM) : Code := vm.c.drop vm.pc

/-- What waits below some operands. -/
def VM.below (vm : VM) (stack : List Value) (code : Code) : Waiting :=
  ⟨stack, vm.base, vm.dump, vm.env, code⟩

/-- **A value gets there** through branches and calls that end. -/
inductive Returns (P : Waiting → Prop) : Waiting → Prop
  | here {p} : P p → Returns P p
  | join {s b d env c back} : Returns P ⟨s, b, d, env, back.c.drop back.pc⟩ →
      Returns P ⟨s, b, back :: d, env, .join :: c⟩
  | rtn {s b d env c back} : b ≤ s.length →
      Returns P ⟨VM.resize s b, back.base, d, back.env, back.c.drop back.pc⟩ →
      Returns P ⟨s, b, back :: d, env, .rtn :: c⟩

/-- What comes after code in tail position returns at once. -/
def After (P : Waiting → Prop) : Bool → Waiting → Prop
  | false, p => Returns P p
  | true, p => ∃ back d c, p.dump = back :: d ∧ p.code = .rtn :: c ∧ p.base ≤ p.stack.length ∧
      Returns P ⟨VM.resize p.stack p.base, back.base, d, back.env, back.c.drop back.pc⟩

/-- **The registers wait for a value** to do with it what is to be done. -/
def Reference.Kont.Waits : Kont → Waiting → Prop
  | .halt, p => ∃ c, p.code = .stop :: c
  | .seq e es inOperator ρ κ, p => ∃ tail c, p.env = ρ.env ∧
      p.code = .pop :: (marked inOperator (bodyCode (e :: es) ρ.names tail) ++ c) ∧
      After κ.Waits tail { p with code := c }
  | .test thenE elseE ρ κ, p => ∃ tail c, p.env = ρ.env ∧
      p.code = testCode tail (thenE.code ρ.names tail) (elseE.code ρ.names tail) :: c ∧
      After κ.Waits tail { p with code := c }
  | .define name κ, p => ∃ c, p.code = .defG ⟨.interaction, name⟩ :: c ∧
      Returns κ.Waits { p with code := c }
  | .set name ρ κ, p => ∃ c, p.env = ρ.env ∧ p.code = setCode ρ.names name :: c ∧
      Returns κ.Waits { p with code := c }
  | .callcc κ, p => ∃ tail c, p.code = callccCode tail :: c ∧
      After κ.Waits tail { p with code := c }
  | .args f todo done ρ κ, p => ∃ tail c s, p.env = ρ.env ∧ p.stack = done.reverse ++ s ∧
      p.code = argsCode todo ρ.names ++ (markLast (f.code ρ.names false) ++
        callCode tail (done.length + 1 + todo.length) :: c) ∧
      After κ.Waits tail { p with stack := s, code := c }
  | .applyArgs f todo done ρ κ, p => ∃ tail c s, p.env = ρ.env ∧ p.stack = done.reverse ++ s ∧
      p.code = argsCode todo ρ.names ++ .argsAp (done.length + 1 + todo.length) ::
        (f.code ρ.names false ++ applyCode tail :: c) ∧
      After κ.Waits tail { p with stack := s, code := c }
  | .operator done κ, p => ∃ tail c s, p.stack = done.reverse ++ s ∧
      p.code = callCode tail done.length :: c ∧
      After κ.Waits tail { p with stack := s, code := c }
  | .applyOperator list κ, p => ∃ tail c s, p.stack = list :: s ∧ p.code = applyCode tail :: c ∧
      After κ.Waits tail { p with stack := s, code := c }
  | .rewind thunks k v, p => (∃ a, k = .cont a) ∧ p.code = .pop :: rewindingCode thunks k v

/-! ## The two machines at the same point -/

/-- The registers are at a control of the reference. -/
def Reference.Control.Runs : Control → VM → Prop
  | .eval e inOperator ρ κ, vm => vm.env = ρ.env ∧ ∃ tail c,
      vm.ahead = marked inOperator (e.code ρ.names tail) ++ c ∧
      After κ.Waits tail (vm.below vm.stack c)
  | .value v κ, vm => ∃ s, vm.stack = v :: s ∧ Returns κ.Waits (vm.below s vm.ahead)
  | .rewind thunks k v, vm => (∃ a, k = .cont a) ∧ vm.ahead = rewindingCode thunks k v

/-- A closure is the code of a procedure. -/
structure Reference.Proc.Compiled (p : Proc) (clo : Closure) : Prop where
  params : clo.params = p.params
  rest : clo.rest = p.rest
  env : clo.env = p.scope.env
  body : clo.body = bodyCode p.body ((p.params ++ p.rest.toList) :: p.scope.names) true ++ [.rtn]

/-- A captured continuation waits for what is to be done. -/
def Cont.Captures (k : Cont) (κ : Kont × List WindEntry) : Prop :=
  Returns κ.1.Waits ⟨k.stack, k.base, k.dump, k.env, k.c.drop k.pc⟩ ∧ k.winds = κ.2

variable {X : Type}

/-- **The worlds agree**, and the scratch closure is the last procedure made in
operator position. What the model notes beside the program is left out. -/
structure Agrees (r : Reference.World X) (scratch : Option Closure) (w : World X) : Prop where
  data : w.data = r.data
  frames : w.frames = r.frames
  globals : w.globals .interaction = r.globals
  updates : w.updates = r.updates
  closures : List.Forall₂ Proc.Compiled r.procs w.closures
  conts : List.Forall₂ (fun κ k => Cont.Captures k κ) r.conts w.conts
  scratch : Option.Rel Proc.Compiled r.scratch scratch
  depth : w.runDepth ≤ 1

end Scheme14
