import SecdScheme.Lib.CmdCongruence
import SecdScheme.Scheme14.Calls

/-!
# scheme14: what a step makes of related calls

A step of the compiler, or of the machine, is made of basic commands and of calls of
the compiler, the machine and primitives, one level deeper. A relation that the basic
commands respect, and that blocks respect, holds of two steps as soon as it holds of
their calls. What each step does is gone through here once and for all; what is to be
shown of every step, of a change of the world or of two ways to make the calls, is
then shown of the basic commands.
-/

namespace Scheme14

variable {X : Type}

/-! ## Basic commands -/

/-- **What the machine does to the world**, one thing at a time. -/
inductive Basic : ∀ {α : Type}, SchemeM X α → Prop
  | fault (f : Fault) : Basic (noteFault f)
  | read (r : Read) : Basic (noteRead r)
  | stamp : Basic newStamp
  | frame (f : Frame) : Basic (Cmd.modifyState fun w => { w with frames := w.frames ++ [f] })
  | closure (clo : Closure) : Basic (makeClosure clo)
  | cont (vm : VM) : Basic (makeCont vm)
  | macroCell (x : Cell) (v : Value) : Basic (Cmd.modifyState fun w => { w with
      macros := fun t n => if t = x.table ∧ n = x.name then some v else w.macros t n })
  | global (x : Cell) (v : Value) : Basic (setGlobal x v)
  | location (f b : ℕ) (v : Value) : Basic (setLocation f b v)
  | list (vs : List Value) : Basic (onData (listFrom vs))
  | elements (v : Value) (who : String) : Basic (onData (listToVector v who))
  | error (message : Message) :
      Basic (onData (Cmd.modifyState fun s => { s with errors := s.errors ++ [message] }))

/-- **A relation that the machine's commands respect.** What is read of the world is
never how deep the machine is. -/
structure TurnRules (X : Type) where
  Rel : ∀ {α : Type}, SchemeM X α → SchemeM X α → Prop
  pure : ∀ {α : Type} (a : α), Rel (pure a) (pure a)
  fail : ∀ {α : Type} (e : Err), Rel (Cmd.fail e : SchemeM X α) (Cmd.fail e)
  bind : ∀ {α β : Type} {m m' : SchemeM X α} {f f' : α → SchemeM X β}, Rel m m' →
    (∀ a, Rel (f a) (f' a)) → Rel (m >>= f) (m' >>= f')
  getState : ∀ {α : Type} {f f' : World X → SchemeM X α},
    (∀ w d, f' { w with runDepth := d } = f' w) → (∀ w, Rel (f w) (f' w)) →
    Rel (Cmd.getState >>= f) (Cmd.getState >>= f')
  basic : ∀ {α : Type} {m : SchemeM X α}, Basic m → Rel m m

/-- **A relation that the compiler's commands respect too**, which work on the data of
primitives at will, and change the table for a while. -/
structure Rules (X : Type) extends TurnRules X where
  data : ∀ {α : Type} (m : DataM X α), Rel (onData m) (onData m)
  cut : Rel (Cmd.modifyState fun w => { w with truncated := true })
    (Cmd.modifyState fun w => { w with truncated := true })
  withTable : ∀ {α : Type} {m m' : SchemeM X α} (t : Table), Rel m m' →
    Rel (withTable t m) (withTable t m')

/-- Where everything is related to itself, nothing is left to show. -/
def Rules.ofCongruence (C : Cmd.Congruence (World X) Err) : Rules X where
  Rel := C.Rel
  pure _ := C.refl _
  fail _ := C.refl _
  bind := C.bind
  getState _ h := C.after _ h
  basic _ := C.refl _
  data _ := C.refl _
  cut := C.refl _
  withTable _ h := C.after _ fun _ => C.after _ fun _ => C.finallyDo _ h

/-! ## The machine -/

namespace TurnRules

variable (R : TurnRules X) {α : Type} {host host' : Host X} {self self' : Self X}

theorem ite {m m' n n' : SchemeM X α} {c : Prop} [Decidable c] (h : R.Rel m m')
    (h' : R.Rel n n') : R.Rel (if c then m else n) (if c then m' else n') := by
  split
  · exact h
  · exact h'

/-- A step that may be left out. -/
theorem skip {m m' : SchemeM X Unit} {f f' : Unit → SchemeM X α} {c : Prop} [Decidable c]
    (h : R.Rel m m') (hf : R.Rel (f ()) (f' ())) :
    R.Rel (if c then m >>= f else f ()) (if c then m' >>= f' else f' ()) :=
  R.ite (R.bind h fun _ => hf) hf

/-- What comes after is the same. -/
theorem map {β : Type} {m m' : SchemeM X α} (h : R.Rel m m') (f : α → β) :
    R.Rel (do return f (← m)) (do return f (← m')) :=
  R.bind h fun _ => R.pure _

/-- A fault is written down on both sides. -/
theorem fault (f : Fault) (what : String) :
    R.Rel (Scheme14.fault f what : SchemeM X α) (Scheme14.fault f what) :=
  R.bind (R.basic (.fault f)) fun _ => R.fail _

/-- So is one that is looked for. -/
theorem observe (c : Prop) [Decidable c] (f : Fault) :
    R.Rel (Scheme14.observe c f : SchemeM X Unit) (Scheme14.observe c f) :=
  R.ite (R.pure _) (R.basic (.fault f))

/-- Operands are counted alike. -/
theorem needOperands (vm : VM) (n : ℕ) (who : String) :
    R.Rel (Scheme14.needOperands vm n who : SchemeM X Unit) (Scheme14.needOperands vm n who) := by
  unfold Scheme14.needOperands
  exact R.skip (R.fault _ _) (R.observe _ _)

/-- An entry of the dump is pushed alike. -/
theorem pushEntry (vm : VM) (kind : EntryKind) :
    R.Rel (Scheme14.pushEntry vm kind : SchemeM X VM) (Scheme14.pushEntry vm kind) :=
  R.bind (R.basic .stamp) fun _ => R.pure _

/-- A body is entered alike. -/
theorem enterCode (vm : VM) (argp : ℕ) (tail : Bool) (c : Code) (env : Option ℕ) :
    R.Rel (Scheme14.enterCode vm argp tail c env : SchemeM X VM)
      (Scheme14.enterCode vm argp tail c env) := by
  unfold Scheme14.enterCode
  cases tail with
  | true => exact R.pure _
  | false => exact R.map (R.map (R.pushEntry vm .call) _) _

/-- A frame is made. -/
theorem pushFrame (env : Option ℕ) (vals : List Value) :
    R.Rel
      (do
        let a := (← Cmd.getState).frames.length
        Cmd.modifyState (fun w => { w with frames := w.frames ++ [⟨env, vals⟩] })
        return a : SchemeM X ℕ)
      (do
        let a := (← Cmd.getState).frames.length
        Cmd.modifyState (fun w => { w with frames := w.frames ++ [⟨env, vals⟩] })
        return a) :=
  R.getState (fun _ _ => rfl) fun _ => R.bind (R.basic (.frame _)) fun _ => R.pure _

/-- A frame is made alike. -/
theorem makeFrame (clo : Closure) (args : List Value) :
    R.Rel (Scheme14.makeFrame clo args : SchemeM X ℕ) (Scheme14.makeFrame clo args) := by
  unfold Scheme14.makeFrame
  dsimp only
  refine R.ite (R.bind (R.fail _) fun _ => ?vals) ?vals
  cases clo.rest with
  | none => exact R.pushFrame clo.env args
  | some _ => exact R.bind (R.map (R.basic (.list _)) _) fun vals => R.pushFrame clo.env vals

/-- A closure is entered alike. -/
theorem enterClosure (vm : VM) (argp : ℕ) (tail : Bool) (clo : Closure) (args : List Value) :
    R.Rel
      (Scheme14.makeFrame clo args >>= fun f => Scheme14.enterCode vm argp tail clo.body (some f) :
        SchemeM X VM)
      (Scheme14.makeFrame clo args >>= fun f => Scheme14.enterCode vm argp tail clo.body (some f)) :=
  R.bind (R.makeFrame clo args) fun _ => R.enterCode vm argp tail _ _

/-- The call of a closure, or of what is no procedure. -/
theorem doCall_of_ne {callee : Value} (hprim : ∀ name, callee ≠ .prim name)
    (hcont : ∀ a, callee ≠ .cont a) (vm : VM) (n : ℕ) (tail : Bool) :
    R.Rel (Scheme14.doCall host self vm callee n tail)
      (Scheme14.doCall host' self' vm callee n tail) := by
  cases callee with
  | prim name => exact absurd rfl (hprim name)
  | cont a => exact absurd rfl (hcont a)
  | closure a =>
    refine R.getState (fun _ _ => rfl) fun w => ?_
    split
    · exact R.fail _
    · exact R.enterClosure vm _ tail _ _
  | scratch =>
    unfold Scheme14.doCall
    dsimp only
    split
    · exact R.fail _
    · exact R.enterClosure vm _ tail _ _
  | _ => exact R.fail _

/-- `RTN`. -/
theorem returnStep (vm : VM) :
    R.Rel (Scheme14.returnStep vm : SchemeM X Next) (Scheme14.returnStep vm) := by
  unfold Scheme14.returnStep
  refine R.bind (R.observe _ _) fun _ => ?_
  split
  · exact R.map (R.observe _ _) _
  · exact R.map (R.observe _ _) _

/-- `JOIN`. -/
theorem joinStep (vm : VM) :
    R.Rel (Scheme14.joinStep vm : SchemeM X Next) (Scheme14.joinStep vm) := by
  unfold Scheme14.joinStep
  split
  · exact R.fault _ _
  · exact R.map (R.observe _ _) _

/-- A branch is chosen alike. -/
theorem chooseBranch (v : Value) (ct cf : Option Code) :
    R.Rel (Scheme14.chooseBranch v ct cf : SchemeM X Code) (Scheme14.chooseBranch v ct cf) := by
  unfold Scheme14.chooseBranch
  split
  · exact R.pure _
  · exact R.fault _ _

/-- **A call is prepared alike**; only making it needs the machine below. -/
theorem prepareCall (vm : VM) (i : Instr) :
    R.Rel (Scheme14.prepareCall vm i : SchemeM X Call) (Scheme14.prepareCall vm i) := by
  cases i with
  | app n | tapp n =>
    refine R.bind (R.needOperands vm (n + 1) "APP") fun _ => ?_
    split
    · exact R.fail _
    · exact R.pure _
  | apply | tapply =>
    exact R.bind (R.needOperands vm 2 "APPLY") fun _ => R.map (R.basic (.elements _ _)) _
  | callcc | tcallcc =>
    exact R.bind (R.needOperands vm 1 "call/cc") fun _ => R.map (R.basic (.cont _)) _
  | _ => exact R.fail _

/-- **An instruction that calls nothing** is basic commands. -/
theorem execute_of_none (vm : VM) {i : Instr} (hi : i.callMode = none) :
    R.Rel (Scheme14.execute host self vm i) (Scheme14.execute host' self' vm i) := by
  cases i with
  | app n | tapp n | apply | tapply | callcc | tcallcc => cases hi
  | ld a b =>
    refine R.getState (fun _ _ => rfl) fun w => ?_
    split
    · exact R.fault _ _
    · exact R.pure _
  | ldc v => exact R.pure _
  | ldg x =>
    refine R.bind (R.basic (.read _)) fun _ => R.getState (fun _ _ => rfl) fun w => ?_
    split
    · exact R.fail _
    · exact R.pure _
  | ldf params rest body noAlloc =>
    cases noAlloc with
    | true => exact R.pure _
    | false => exact R.map (R.basic (.closure _)) _
  | argsAp n =>
    unfold Scheme14.execute
    refine R.skip (R.fault _ _) ?_
    exact R.bind (R.needOperands _ _ _) fun _ => R.bind (R.basic (.elements _ _)) fun _ =>
      R.map (R.basic (.list _)) _
  | rtn => exact R.returnStep vm
  | sel ct cf =>
    exact R.bind (R.needOperands _ _ _) fun _ => R.bind (R.chooseBranch _ _ _) fun _ =>
      R.map (R.pushEntry _ _) _
  | selr ct cf =>
    exact R.bind (R.needOperands _ _ _) fun _ => R.map (R.chooseBranch _ _ _) _
  | join => exact R.joinStep vm
  | pop => exact R.map (R.needOperands _ _ _) _
  | defG x => exact R.bind (R.needOperands _ _ _) fun _ => R.map (R.basic (.global x _)) _
  | defm x =>
    exact R.bind (R.needOperands _ _ _) fun _ => R.bind (R.basic (.macroCell x _)) fun _ =>
      R.map (R.basic (.global x _)) _
  | lset a b =>
    refine R.bind (R.needOperands _ _ _) fun _ => R.getState (fun _ _ => rfl) fun w => ?_
    split
    · exact R.fault _ _
    · exact R.map (R.basic (.location _ _ _)) _
  | gset x => exact R.bind (R.needOperands _ _ _) fun _ => R.map (R.basic (.global x _)) _
  | stop => exact R.pure _

/-- **An instruction** is basic commands, and it may be a call at its end. -/
theorem execute
    (hcall : ∀ vm callee n tail, R.Rel (Scheme14.doCall host self vm callee n tail)
      (Scheme14.doCall host' self' vm callee n tail)) (vm : VM) (i : Instr) :
    R.Rel (Scheme14.execute host self vm i) (Scheme14.execute host' self' vm i) := by
  cases hi : i.callMode with
  | none => exact R.execute_of_none vm hi
  | some tail =>
    rw [execute_call host self vm hi, execute_call host' self' vm hi]
    exact R.bind (R.prepareCall vm i) fun c => R.map (hcall _ _ _ _) _

/-- The registers for a call of `raise`. -/
theorem abandonToRaise (vm : VM) (message : Message) :
    R.Rel (Scheme14.abandonToRaise vm message : SchemeM X VM)
      (Scheme14.abandonToRaise vm message) := by
  unfold Scheme14.abandonToRaise
  refine R.bind (R.basic (.read _)) fun _ => R.getState (fun _ _ => rfl) fun w => ?_
  split
  · exact R.fail _
  · exact R.map (R.basic (.error _)) _

end TurnRules

/-! ## Calls from outside the machine -/

/-- **Calls that are related**, one by one. -/
structure Self.Related (R : Rules X) (next next' : Self X) : Prop where
  fuel : next.fuel = next'.fuel
  comp : ∀ e env tail, R.Rel (next.comp e env tail) (next'.comp e env tail)
  run : ∀ vm, R.Rel (run next vm) (run next' vm)
  callPrim : ∀ name args, R.Rel (next.callPrim name args) (next'.callPrim name args)

/-- A relation that every sequence keeps relates the machines it relates the parts of. -/
theorem Self.Related.of_congruence {C : Cmd.Congruence (World X) Err} {next next' : Self X}
    (hfuel : next.fuel = next'.fuel)
    (hcomp : ∀ e env tail, C.Rel (next.comp e env tail) (next'.comp e env tail))
    (hloop : ∀ vm, C.Rel (next.loop vm) (next'.loop vm))
    (hprim : ∀ name args, C.Rel (next.callPrim name args) (next'.callPrim name args)) :
    Self.Related (.ofCongruence C) next next' where
  fuel := hfuel
  comp := hcomp
  run vm := C.after _ fun _ => C.finallyDo _ (hloop vm)
  callPrim := hprim

namespace Self.Related

variable {R : Rules X} {self self' : Self X} (h : Self.Related R self self')
include h

/-- The call of a procedure from inside a primitive. -/
theorem applyCallable (proc : Value) (args : List Value) :
    R.Rel (applyCallable self proc args) (applyCallable self' proc args) := by
  unfold Scheme14.applyCallable
  cases proc with
  | prim name => exact h.callPrim name args
  | _ =>
    refine R.getState (fun _ _ => rfl) fun w => ?_
    split
    · exact R.fail _
    · exact R.bind (R.makeFrame _ _) fun frame => h.run _

/-- The call of a macro. -/
theorem macroExpand1 (expr : Value) :
    R.Rel (macroExpand1 self expr) (macroExpand1 self' expr) := by
  unfold Scheme14.macroExpand1
  refine R.ite (R.pure _) (R.bind (R.data _) fun p => ?_)
  obtain ⟨head, rest⟩ := p
  cases head with
  | sym name =>
    refine R.getState (fun _ _ => rfl) fun w => ?_
    split
    · exact R.pure _
    · exact R.bind (R.data _) fun args => h.applyCallable _ args
  | _ => exact R.pure _

/-! ## The special forms -/

omit h in
theorem operand (n : ℕ) : R.Rel (operand n) (operand n) :=
  R.ite (R.bind R.cut fun _ => R.pure _) (R.pure _)

omit h in
theorem compileGlobal (name : String) : R.Rel (compileGlobal name) (compileGlobal name) :=
  R.getState (fun _ _ => rfl) fun _ => R.pure _

omit h in
/-- A variable compiles alike, for want of any call. -/
theorem compVar (name : String) (env : CompileEnv) : R.Rel (compVar name env) (compVar name env) := by
  unfold Scheme14.compVar
  split
  · exact R.bind (operand _) fun _ => R.map (operand _) _
  · exact R.map (compileGlobal _) _

/-- Arguments compile alike, one by one. -/
theorem compEach (env : CompileEnv) : ∀ xs : List Value,
    R.Rel (Cmd.mapList (fun x => self.comp x env false) xs)
      (Cmd.mapList (fun x => self'.comp x env false) xs)
  | [] => R.pure _
  | x :: xs => R.bind (h.comp x env false) fun _ => R.map (compEach env xs) _

theorem compArgs (xs : List Value) (env : CompileEnv) :
    R.Rel (compArgs self xs env) (compArgs self' xs env) :=
  R.map (h.compEach env xs) _

/-- The forms of a sequence do. -/
theorem compForms (env : CompileEnv) (tail : Bool) : ∀ es : List Value,
    R.Rel (compForms self env tail es) (compForms self' env tail es)
  | [] => R.pure _
  | [e] => h.comp e env tail
  | e :: e' :: es => R.bind (h.comp e env false) fun _ => R.map (compForms env tail (e' :: es)) _

theorem compBody (body : Value) (env : CompileEnv) (tail : Bool) :
    R.Rel (compBody self body env tail) (compBody self' body env tail) :=
  R.bind (R.data _) fun forms => h.compForms env tail forms

/-- A procedure does. -/
theorem compileLambda (params body : Value) (env : CompileEnv) :
    R.Rel (compileLambda self params body env) (compileLambda self' params body env) := by
  refine R.bind (R.data _) fun ps => ?_
  split
  · exact R.data _
  · exact R.bind (R.data _) fun body' => R.map (h.compBody body' _ true) _

theorem compIf (rest : Value) (env : CompileEnv) (tail : Bool) :
    R.Rel (compIf self rest env tail) (compIf self' rest env tail) := by
  refine R.bind (R.data _) fun _ => R.bind (R.data _) fun test => R.bind (R.data _) fun branches => ?_
  refine R.bind (R.data _) fun thenE => R.bind (R.data _) fun others => ?_
  dsimp only
  refine R.ite (R.bind (R.pure _) fun elseE => ?_) (R.bind (R.data _) fun elseE => ?_) <;>
    refine R.bind (h.comp test env false) fun _ => R.bind (h.comp thenE env tail) fun _ => ?_ <;>
    exact R.bind (h.comp elseE env tail) fun _ => R.ite (R.pure _) (R.pure _)

/-- A definition does. -/
theorem compDefine (isMacro : Bool) (rest : Value) (env : CompileEnv) :
    R.Rel (compDefine self isMacro rest env) (compDefine self' isMacro rest env) := by
  unfold Scheme14.compDefine
  dsimp only
  have hend : ∀ (name : String) (code : Code), R.Rel (do
      let x ← Scheme14.compileGlobal name
      pure (code ++ [if isMacro = true then .defm x else .defG x]) : SchemeM X Code) (do
      let x ← Scheme14.compileGlobal name
      pure (code ++ [if isMacro = true then .defm x else .defG x])) :=
    fun name code => R.map (compileGlobal name) _
  refine R.getState (fun _ _ => rfl) fun w => R.ite (R.bind (R.data _) fun _ => ?_) ?_ <;>
    refine R.bind (R.data _) fun _ => R.bind (R.data _) fun p => ?_
  all_goals
    obtain ⟨lhs, rhsTail⟩ := p
    cases lhs with
    | sym name =>
      dsimp only
      refine R.ite (R.bind (R.data _) fun _ => ?_) ?_ <;>
        refine R.bind (R.data _) fun d => R.ite (R.bind (R.data _) fun _ => ?_) ?_ <;>
        exact R.bind (R.data _) fun e => R.bind (h.comp e env false) fun code => hend _ code
    | pair a =>
      dsimp only
      refine R.bind (R.data _) fun q => ?_
      obtain ⟨f, params⟩ := q
      cases f with
      | sym name => exact R.bind (h.compileLambda params rhsTail env) fun i => hend _ [i]
      | _ => exact R.bind (R.data _) fun _ => hend _ _
    | _ => exact R.bind (R.data _) fun _ => hend _ _

theorem compSet (rest : Value) (env : CompileEnv) :
    R.Rel (compSet self rest env) (compSet self' rest env) := by
  refine R.bind (R.data _) fun _ => R.bind (R.data _) fun target => ?_
  cases target with
  | sym name =>
    refine R.bind (R.data _) fun e => R.bind (h.comp e env false) fun code => ?_
    split
    · exact R.bind (operand _) fun _ => R.map (operand _) _
    · refine R.getState (fun _ _ => rfl) fun w => ?_
      exact R.skip (R.data _) (R.map (compileGlobal _) _)
  | _ => exact R.data _

theorem compApply (rest : Value) (env : CompileEnv) (tail : Bool) :
    R.Rel (compApply self rest env tail) (compApply self' rest env tail) := by
  refine R.bind (R.data _) fun _ => R.bind (R.data _) fun xs => ?_
  cases xs with
  | nil => exact R.fail _
  | cons f xs =>
    refine R.bind (h.compArgs xs env) fun _ => R.bind (operand _) fun n => ?_
    exact R.map (h.comp f env false) _

/-- A call does. -/
theorem compCall (head rest : Value) (env : CompileEnv) (tail : Bool) :
    R.Rel (compCall self head rest env tail) (compCall self' head rest env tail) :=
  R.bind (R.data _) fun xs => R.bind (h.compArgs xs env) fun _ =>
    R.bind (h.comp head env false) fun _ => R.map (operand _) _

/-- **Every special form compiles alike.** -/
theorem compSpecial (expr rest : Value) (env : CompileEnv) (tail : Bool) : ∀ word : Keyword,
    R.Rel (compSpecial self expr rest env tail word) (compSpecial self' expr rest env tail word)
  | .quote => R.bind (R.data _) fun _ => R.map (R.data _) _
  | .traceSwitch => R.pure _
  | .derived d => by
    unfold Scheme14.compSpecial
    rw [h.fuel]
    exact R.bind (R.data _) fun expanded => h.comp expanded env tail
  | .ifK => h.compIf rest env tail
  | .begin => h.compBody rest env tail
  | .lambda => R.bind (R.data _) fun _ => R.bind (R.data _) fun p =>
      R.map (h.compileLambda p.1 p.2 env) _
  | .define isMacro => h.compDefine isMacro rest env
  | .set => h.compSet rest env
  | .callcc _ => R.bind (R.data _) fun _ => R.bind (R.data _) fun e =>
      R.map (h.comp e env false) _
  | .apply => h.compApply rest env tail

/-- **A step of the compiler** is related to the step with the related calls. -/
theorem compStep (expr : Value) (env : CompileEnv) (tail : Bool) :
    R.Rel (compStep self expr env tail) (compStep self' expr env tail) := by
  unfold Scheme14.compStep
  refine R.ite (R.pure _) ?_
  cases expr with
  | sym name => exact compVar name env
  | pair a =>
    refine R.bind (R.data _) fun p => ?_
    obtain ⟨head, rest⟩ := p
    dsimp only
    split
    · exact h.compSpecial _ rest env tail _
    · refine R.bind (h.macroExpand1 _) fun expanded => R.ite (h.comp expanded env tail) ?_
      exact h.compCall head rest env tail
  | _ => exact R.pure _

/-! ## Entries -/

theorem compileTop (expr : Value) : R.Rel (compileTop self expr) (compileTop self' expr) :=
  R.withTable _ (R.map (h.comp expr [] false) _)

theorem compileEval (expr : Value) (t : Table) :
    R.Rel (compileEval self expr t) (compileEval self' expr t) :=
  R.withTable _ (R.map (h.comp expr [] true) _)

theorem evalTop (expr : Value) : R.Rel (evalTop self expr) (evalTop self' expr) :=
  R.bind (h.compileTop expr) fun _ => h.run _

/-- The forms of a file are evaluated alike. -/
theorem loadForms (host : Host X) : ∀ (forms : List Value) (last : Value),
    R.Rel (loadForms host self forms last) (loadForms host self' forms last)
  | [], _ => R.pure _
  | [form], _ => by
    unfold Scheme14.loadForms
    refine R.bind (h.evalTop form) fun last => R.getState (fun _ _ => rfl) fun w => ?_
    exact R.ite (R.pure _) (R.pure _)
  | form :: expected :: forms, _ => by
    unfold Scheme14.loadForms
    refine R.bind (h.evalTop form) fun last => R.getState (fun _ _ => rfl) fun w => ?_
    refine R.ite (R.bind (R.data _) fun _ => ?_) (loadForms host (expected :: forms) last)
    exact loadForms host forms last

theorem expandOneStep (form : Value) :
    R.Rel (expandOneStep self form) (expandOneStep self' form) := by
  unfold Scheme14.expandOneStep
  rw [h.fuel]
  exact R.bind (R.data _) fun _ => R.ite (R.pure _) (h.macroExpand1 form)

/-- An expansion goes on alike. -/
theorem expandRepeatedly : ∀ (steps : ℕ) (form : Value),
    R.Rel (expandRepeatedly self steps form) (expandRepeatedly self' steps form)
  | 0, _ => R.fail _
  | steps + 1, form => R.bind (h.expandOneStep form) fun out =>
      R.ite (R.pure _) (expandRepeatedly steps out)

/-- **A call of a primitive.** -/
theorem callPrimStep (host : Host X) (name : String) (args : List Value) :
    R.Rel (callPrimStep host self name args) (callPrimStep host self' name args) := by
  have hargs : ∀ who : String, R.Rel (needArgs who args 1) (needArgs who args 1) :=
    fun who => R.ite (R.pure _) (R.fail _)
  unfold Scheme14.callPrimStep
  cases host.kind name with
  | data => exact R.data _
  | eval => exact R.fail _
  | macroexpand1 => exact R.bind (hargs _) fun _ => h.expandOneStep _
  | macroexpand => exact R.bind (hargs _) fun _ => h.expandRepeatedly _ _
  | load =>
    exact R.bind (hargs _) fun _ => R.bind (R.data _) fun forms => h.loadForms host forms _
  | compile => exact R.bind (hargs _) fun _ => R.map (h.compileTop _) _

/-- `eval` compiles its form alike, and enters the code. -/
theorem enterEval (vm : VM) (argp : ℕ) (args : List Value) (tail : Bool) :
    R.Rel (enterEval self vm argp args tail) (enterEval self' vm argp args tail) := by
  unfold Scheme14.enterEval
  split
  · split
    · exact R.bind (h.compileEval _ _) fun _ => R.enterCode vm argp tail _ _
    · exact R.fail _
  · exact R.fail _

/-- **A call.** -/
theorem doCall (host : Host X) (vm : VM) (callee : Value) (n : ℕ) (tail : Bool) :
    R.Rel (doCall host self vm callee n tail) (doCall host self' vm callee n tail) := by
  cases callee with
  | prim name => exact R.ite (h.enterEval vm _ _ tail) (R.map (h.callPrimStep host _ _) _)
  | cont a =>
    refine R.getState (fun _ _ => rfl) fun w => ?_
    split
    · exact R.fail _
    · exact R.ite (R.pure _) (R.map (R.data _) _)
  | _ => exact R.doCall_of_ne (by nofun) (by nofun) vm n tail

/-- **An instruction.** -/
theorem execute (host : Host X) (vm : VM) (i : Instr) :
    R.Rel (execute host self vm i) (execute host self' vm i) :=
  R.toTurnRules.execute (h.doCall host) vm i

end Self.Related

/-! ## A step by itself -/

/-- A call whose errors are set apart, but for those that a handler may catch: it
gives up instead. -/
def setApart {α : Type} (m : SchemeM X α) : SchemeM X α := fun w =>
  match m w with
  | (.error (.scheme message true), w') => (.error (.scheme message true), w')
  | (.error _, w') => (.error .outOfFuel, w')
  | (.ok a, w') => (.ok a, w')

/-- **The calls with their errors set apart.** Whatever internal error a step ends in
that makes these calls, it is its own. -/
def Self.setApart (self : Self X) : Self X where
  fuel := self.fuel
  comp e env tail := Scheme14.setApart (self.comp e env tail)
  loop vm := Scheme14.setApart (self.loop vm)
  callPrim name args := Scheme14.setApart (self.callPrim name args)

/-- What is set apart gives up where it would have failed. -/
theorem givesUp_setApart {α : Type} (m : SchemeM X α) :
    Cmd.GivesUp .outOfFuel (setApart m) m := by
  intro w
  unfold setApart
  split
  · exact .inr (Eq.symm ‹_›)
  · exact .inl rfl
  · exact .inr (Eq.symm ‹_›)

/-- The machine below may be set apart. -/
theorem Self.related_setApart (self : Self X) :
    Related (.ofCongruence (Cmd.givingUp .outOfFuel)) self.setApart self :=
  .of_congruence rfl (fun _ _ _ => givesUp_setApart _) (fun _ => givesUp_setApart _)
    fun _ _ => givesUp_setApart _

/-- **The step by itself is the step**, unless it gives up. -/
theorem givesUp_compStep (self : Self X) (expr : Value) (env : CompileEnv) (tail : Bool) :
    Cmd.GivesUp .outOfFuel (compStep self.setApart expr env tail) (compStep self expr env tail) :=
  self.related_setApart.compStep expr env tail

end Scheme14
