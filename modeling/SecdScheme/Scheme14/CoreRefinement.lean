import SecdScheme.Scheme14.CoreSteps

/-!
# scheme14: every run of the code is a run of the reference

What one control of the reference does, the machine does in the turns that
lead to one instruction and in that instruction; or it has nothing to do. The
runs follow, in both directions.
-/

namespace Scheme14

open Reference (Kont Scope Proc Control)
open Cmd (Paired)
open Stepping (Steps)

variable {X : Type} {host : Host X}

/-! ## Code -/

mutual

theorem code_ne_nil : ∀ (e : Expr) (names : CompileEnv) (tail : Bool), e.code names tail ≠ []
  | .const _, _, _ | .var _, _, _ | .lambda .., _, _ => List.cons_ne_nil _ _
  | .ifE .., _, _ | .define .., _, _ | .set .., _, _ | .callcc _, _, _ =>
    List.append_ne_nil_of_right_ne_nil _ (List.cons_ne_nil _ _)
  | .begin forms, names, tail => bodyCode_ne_nil forms names tail
  | .apply .., _, _ =>
    List.append_ne_nil_of_right_ne_nil _
      (List.append_ne_nil_of_right_ne_nil _ (List.cons_ne_nil _ _))
  | .call .., _, _ =>
    List.append_ne_nil_of_right_ne_nil _
      (List.append_ne_nil_of_right_ne_nil _ (List.cons_ne_nil _ _))

theorem bodyCode_ne_nil : ∀ (es : List Expr) (names : CompileEnv) (tail : Bool),
    bodyCode es names tail ≠ []
  | [], _, _ => List.cons_ne_nil _ _
  | [e], names, tail => code_ne_nil e names tail
  | _ :: _ :: _, _, _ => List.append_ne_nil_of_right_ne_nil _ (List.cons_ne_nil _ _)

end

theorem markLast_append (c : Code) {d : Code} (hd : d ≠ []) :
    markLast (c ++ d) = c ++ markLast d := by
  induction c with
  | nil => rfl
  | cons i c ih =>
    cases hcd : c ++ d with
    | nil => exact absurd (List.append_eq_nil_iff.mp hcd).2 hd
    | cons j is =>
      rw [List.cons_append, hcd, markLast, ← hcd, ih, List.cons_append]

theorem marked_append (inOperator : Bool) (c : Code) {d : Code} (hd : d ≠ []) :
    marked inOperator (c ++ d) = c ++ marked inOperator d := by
  cases inOperator with
  | false => rfl
  | true => exact markLast_append c hd

/-- Only an instruction that makes a closure is marked. -/
theorem marked_snoc (inOperator : Bool) (c : Code) {i : Instr} (hi : markLast [i] = [i]) :
    marked inOperator (c ++ [i]) = c ++ [i] := by
  rw [marked_append _ _ (List.cons_ne_nil _ _)]
  cases inOperator with
  | false => rfl
  | true => rw [marked, if_pos rfl, hi]

theorem markLast_varCode (names : CompileEnv) (name : String) :
    markLast [varCode names name] = [varCode names name] := by
  unfold varCode
  cases locationOf name names <;> rfl

theorem markLast_setCode (names : CompileEnv) (name : String) :
    markLast [setCode names name] = [setCode names name] := by
  unfold setCode
  cases locationOf name names <;> rfl

theorem markLast_testCode (tail : Bool) (ct cf : Code) :
    markLast [testCode tail ct cf] = [testCode tail ct cf] := by
  cases tail <;> rfl

theorem markLast_callCode (tail : Bool) (n : ℕ) :
    markLast [callCode tail n] = [callCode tail n] := by
  cases tail <;> rfl

theorem markLast_applyCode (tail : Bool) : markLast [applyCode tail] = [applyCode tail] := by
  cases tail <;> rfl

theorem markLast_callccCode (tail : Bool) : markLast [callccCode tail] = [callccCode tail] := by
  cases tail <;> rfl

/-! ## One step -/

/-- How much of its work a control has before the machine has any. -/
noncomputable def Reference.Control.weight : Control → ℕ
  | .eval e _ _ _ => sizeOf e
  | .value _ (.args f todo _ _ _) => sizeOf f + sizeOf todo + 1
  | .value _ (.applyArgs _ todo _ _ _) => sizeOf todo + 1
  | _ => 0

/-- The reference and the machine go on, or end with the same value. -/
inductive Goes : Value ⊕ Control → Reference.World X → Next → World X → Prop
  | on {control r vm w} : control.Runs vm → Agrees r vm.scratch w →
      Goes (.inr control) r (.continue vm) w
  | done {v r w scratch} : Agrees r scratch w → Goes (.inl v) r (.done v) w

/-- **What the machine does for a control.** -/
inductive Progress (host : Host X) (control : Control) (r : Reference.World X) (vm : VM)
    (w : World X) : Prop
  /-- At most it gets to where a value is waited for. -/
  | waits {k vm' w' control'} : Steps (turnFrom host) k (vm, w) (vm', w') →
      Agrees r vm'.scratch w' → Reference.act host control r = (.ok (.inr control'), r) →
      control'.Runs vm' → control'.weight < control.weight → Progress host control r vm w
  /-- It comes to the instruction that does the same. -/
  | turns {k vm' w' i c} : Steps (turnFrom host) k (vm, w) (vm', w') →
      vm'.ahead = i :: c →
      Alike vm'.scratch Goes (Reference.act host control r)
        (execute host (machine host 0) { vm' with pc := vm'.pc + 1 } i w') →
      Progress host control r vm w

section Progress

variable {r : Reference.World X} {w : World X} {vm : VM} {κ : Kont} {ρ : Scope} {tail : Bool}
  {c : Code} {v : Value} {s : List Value}

/-- A value is pushed, and the rest of the code waits for it. -/
theorem runs_push {i : Instr} (hahead : vm.ahead = i :: c)
    (hafter : After κ.Waits tail (vm.below vm.stack c)) (v : Value) :
    (Control.value v κ).Runs (({ vm with pc := vm.pc + 1 } : VM).push v) := by
  refine ⟨vm.stack, rfl, ?_⟩
  have hnext := (VM.instr_of_ahead hahead).2
  show Returns κ.Waits ⟨_, _, _, _, ({ vm with pc := vm.pc + 1 } : VM).ahead⟩
  rw [hnext]
  exact hafter.returns

/-- A procedure is made: in the place of an operator, in the scratch register. -/
theorem progress_lambda {params : List String} {rest : Option String} {body : List Expr}
    {inOperator : Bool} (henv : vm.env = ρ.env)
    (hahead : vm.ahead = marked inOperator ((Expr.lambda params rest body).code ρ.names tail) ++ c)
    (hafter : After κ.Waits tail (vm.below vm.stack c)) (h : Agrees r vm.scratch w) :
    Progress host (.eval (.lambda params rest body) inOperator ρ κ) r vm w := by
  have hclo : Proc.Compiled ⟨params, rest, body, ρ⟩
      ⟨params, rest, bodyCode body ((params ++ rest.toList) :: ρ.names) true ++ [.rtn], vm.env⟩ :=
    ⟨rfl, rfl, henv, rfl⟩
  cases inOperator with
  | true =>
    refine .turns (.refl _) hahead (.ok (.on ?_ ⟨h.data, h.frames, h.globals, h.updates,
      h.closures, h.conts, .some hclo, h.depth⟩))
    exact runs_push (κ := κ) hahead hafter .scratch
  | false =>
    have hlen : r.procs.length = w.closures.length := h.closures.length_eq
    refine .turns (.refl _) hahead (.ok (.on ?_ ⟨h.data, h.frames, h.globals, h.updates,
      ?_, h.conts, h.scratch, h.depth⟩))
    · rw [hlen]
      exact runs_push hahead hafter (.closure w.closures.length)
    · exact List.rel_append h.closures (.cons hclo .nil)

/-- A sequence waits for its first form, which is dropped, unless it is the last. -/
theorem progress_begin {forms : List Expr} {inOperator : Bool} (henv : vm.env = ρ.env)
    (hahead : vm.ahead = marked inOperator ((Expr.begin forms).code ρ.names tail) ++ c)
    (hafter : After κ.Waits tail (vm.below vm.stack c)) (h : Agrees r vm.scratch w) :
    Progress host (.eval (.begin forms) inOperator ρ κ) r vm w := by
  cases forms with
  | nil =>
    have hcode : vm.ahead = .ldc .nil :: c := by rw [hahead]; cases inOperator <;> rfl
    exact .turns (.refl _) hcode (.ok (.on (runs_push hcode hafter .nil) h))
  | cons e es =>
    cases es with
    | nil =>
      exact .waits (.refl _) h rfl ⟨henv, tail, c, hahead, hafter⟩
        (by simp only [Reference.Control.weight, Expr.begin.sizeOf_spec, List.cons.sizeOf_spec]
            omega)
    | cons e' es =>
      have hcode : vm.ahead = e.code ρ.names false ++
          .pop :: (marked inOperator (bodyCode (e' :: es) ρ.names tail) ++ c) := by
        rw [hahead, Expr.code, bodyCode, List.append_cons,
          marked_append _ _ (bodyCode_ne_nil _ _ _)]
        simp
      exact .waits (.refl _) h rfl
        ⟨henv, false, _, hcode, .here ⟨tail, c, henv, rfl, hafter⟩⟩
        (by simp only [Reference.Control.weight, Expr.begin.sizeOf_spec, List.cons.sizeOf_spec]
            omega)

/-- A call waits for its last argument, or where it has none for its operator. -/
theorem progress_call {f : Expr} {xs : List Expr} {inOperator : Bool} (henv : vm.env = ρ.env)
    (hahead : vm.ahead = marked inOperator ((Expr.call f xs).code ρ.names tail) ++ c)
    (hafter : After κ.Waits tail (vm.below vm.stack c)) (h : Agrees r vm.scratch w) :
    Progress host (.eval (.call f xs) inOperator ρ κ) r vm w := by
  have hcode : vm.ahead = argsCode xs ρ.names ++ (markLast (f.code ρ.names false) ++
      callCode tail xs.length :: c) := by
    rw [hahead, Expr.code, ← List.append_assoc, marked_snoc _ _ (markLast_callCode _ _)]
    simp
  cases xs with
  | nil =>
    exact .waits (.refl _) h rfl
      ⟨henv, false, _, hcode, .here ⟨tail, c, vm.stack, rfl, rfl, hafter⟩⟩
      (by simp only [Reference.Control.weight, Expr.call.sizeOf_spec, List.nil.sizeOf_spec]
          omega)
  | cons x xs =>
    rw [argsCode, List.append_assoc] at hcode
    exact .waits (.refl _) h rfl
      ⟨henv, false, _, hcode, .here ⟨tail, c, vm.stack, henv, rfl,
        by rw [List.length_cons, Nat.add_comm xs.length 1]; rfl, hafter⟩⟩
      (by simp only [Reference.Control.weight, Expr.call.sizeOf_spec, List.cons.sizeOf_spec]
          omega)

/-- **An expression**: the code has a constant, a variable or a procedure, or waits for
the part of the form that comes first. -/
theorem progress_eval (e : Expr) (inOperator : Bool)
    (hruns : (Control.eval e inOperator ρ κ).Runs vm) (h : Agrees r vm.scratch w) :
    Progress host (.eval e inOperator ρ κ) r vm w := by
  obtain ⟨henv, tail, c, hahead, hafter⟩ := hruns
  cases e with
  | const v =>
    have hcode : vm.ahead = .ldc v :: c := by rw [hahead]; cases inOperator <;> rfl
    exact .turns (.refl _) hcode (.ok (.on (runs_push hcode hafter v) h))
  | var name =>
    have hcode : vm.ahead = varCode ρ.names name :: c := by
      rw [hahead]
      exact congrArg (· ++ c) (marked_snoc inOperator [] (markLast_varCode _ _))
    refine .turns (.refl _) hcode (Paired.map (B := fun control => Goes (.inr control)) Sum.inr ?_
      fun _ _ _ _ => id)
    refine (alike_readVar _ { vm with pc := vm.pc + 1 } henv h).map (Control.value · κ) ?_
    rintro v r' next w' ⟨rfl, h'⟩
    exact .on (runs_push hcode hafter v) h'
  | lambda params rest body => exact progress_lambda henv hahead hafter h
  | ifE test thenE elseE =>
    have hcode : vm.ahead = test.code ρ.names false ++
        testCode tail (thenE.code ρ.names tail) (elseE.code ρ.names tail) :: c := by
      rw [hahead, Expr.code, marked_snoc _ _ (markLast_testCode _ _ _), List.append_assoc]
      rfl
    exact .waits (.refl _) h rfl
      ⟨henv, false, _, hcode, .here ⟨tail, c, henv, rfl, hafter⟩⟩
      (by simp only [Reference.Control.weight, Expr.ifE.sizeOf_spec]
          omega)
  | begin forms => exact progress_begin henv hahead hafter h
  | define name e =>
    have hcode : vm.ahead = e.code ρ.names false ++ .defG ⟨.interaction, name⟩ :: c := by
      rw [hahead, Expr.code, marked_snoc _ _ rfl, List.append_assoc]
      rfl
    exact .waits (.refl _) h rfl
      ⟨henv, false, _, hcode, .here ⟨c, rfl, hafter.returns⟩⟩
      (by simp only [Reference.Control.weight, Expr.define.sizeOf_spec]
          omega)
  | set name e =>
    have hcode : vm.ahead = e.code ρ.names false ++ setCode ρ.names name :: c := by
      rw [hahead, Expr.code, marked_snoc _ _ (markLast_setCode _ _), List.append_assoc]
      rfl
    exact .waits (.refl _) h rfl
      ⟨henv, false, _, hcode, .here ⟨c, henv, rfl, hafter.returns⟩⟩
      (by simp only [Reference.Control.weight, Expr.set.sizeOf_spec]
          omega)
  | callcc e =>
    have hcode : vm.ahead = e.code ρ.names false ++ callccCode tail :: c := by
      rw [hahead, Expr.code, marked_snoc _ _ (markLast_callccCode _), List.append_assoc]
      rfl
    exact .waits (.refl _) h rfl
      ⟨henv, false, _, hcode, .here ⟨tail, c, rfl, hafter⟩⟩
      (by simp only [Reference.Control.weight, Expr.callcc.sizeOf_spec]
          omega)
  | apply f x xs =>
    have hcode : vm.ahead = x.code ρ.names false ++ (argsCode xs ρ.names ++
        .argsAp (0 + 1 + xs.length) :: (f.code ρ.names false ++ applyCode tail :: c)) := by
      rw [hahead, Expr.code, ← List.cons_append, ← List.append_assoc, ← List.append_assoc,
        marked_snoc _ _ (markLast_applyCode _)]
      simp [Nat.add_comm]
    exact .waits (.refl _) h rfl
      ⟨henv, false, _, hcode, .here ⟨tail, c, vm.stack, henv, rfl, rfl, hafter⟩⟩
      (by simp only [Reference.Control.weight, Expr.apply.sizeOf_spec]
          omega)
  | call f xs => exact progress_call henv hahead hafter h

/-- An instruction that pops the value. -/
theorem needValue (vm : VM) {v : Value} {s : List Value} (hstack : vm.stack = v :: s)
    (who : String) (w : World X) :
    ∃ faults, needOperands vm 1 who w = (.ok (), { w with faults := faults }) :=
  needOperands_run vm who (by rw [hstack]; exact Nat.succ_le_succ (Nat.zero_le _)) w

theorem goes_of_entered {scratch : Option Closure} {m : Reference.RefM X Control}
    {m' : SchemeM X VM} (hm : Alike scratch Entered (m r) (m' w)) :
    Alike scratch Goes ((do return .inr (← m) : Reference.RefM X (Value ⊕ Control)) r)
      ((do return .continue (← m') : SchemeM X Next) w) :=
  hm.bind fun _ _ _ _ he => .ok (.on he.1 he.2)

/-- The operator is on top of the arguments. -/
theorem goes_call (hhost : ∀ name, host.kind name = .data) (self : Self X) (vm : VM)
    {args : List Value} (hstack : vm.stack = v :: (args.reverse ++ s))
    (hafter : After κ.Waits tail (vm.below s vm.ahead)) (h : Agrees r vm.scratch w) :
    Alike vm.scratch Goes
      ((do return .inr (← Reference.callValue host v args κ) :
        Reference.RefM X (Value ⊕ Control)) r)
      (execute host self vm (callCode tail args.length) w) := by
  obtain ⟨faults, hneed⟩ := needOperands_run vm (m := args.length + 1) "APP"
    (by rw [hstack]; simp) w
  have hcall := goes_of_entered (alike_callValue hhost self
    { vm with stack := args.reverse ++ s } v args rfl hafter (h.noted faults))
  cases tail with
  | false =>
    show Alike _ _ _ ((needOperands vm (args.length + 1) "APP" >>= fun _ => _) w)
    rw [Cmd.bind_run_ok hneed]
    unfold popAndCall
    rw [hstack]
    exact hcall
  | true =>
    show Alike _ _ _ ((needOperands vm (args.length + 1) "APP" >>= fun _ => _) w)
    rw [Cmd.bind_run_ok hneed]
    unfold popAndCall
    rw [hstack]
    exact hcall

/-- The operator is on top of a list of arguments. -/
theorem goes_apply (hhost : ∀ name, host.kind name = .data) (self : Self X) (vm : VM)
    {list : Value}
    (hstack : vm.stack = v :: list :: s)
    (hafter : After κ.Waits tail (vm.below s vm.ahead)) (h : Agrees r vm.scratch w) :
    Alike vm.scratch Goes (Reference.giveValue host v (.applyOperator list κ) r)
      (execute host self vm (applyCode tail) w) := by
  obtain ⟨faults, hneed⟩ := needOperands_run vm (m := 2) "APPLY" (by rw [hstack]; simp) w
  have hcall : ∀ args r' w', Agrees r' vm.scratch w' → Alike vm.scratch Goes
      ((do return .inr (← Reference.callValue host v args κ) :
        Reference.RefM X (Value ⊕ Control)) r')
      ((do return .continue (← doCall host self { vm with stack := args.reverse ++ s } v
        args.length tail) : SchemeM X Next) w') := fun args r' w' h' =>
    goes_of_entered (alike_callValue hhost self { vm with stack := args.reverse ++ s } v args
      rfl hafter h')
  cases tail with
  | false =>
    show Alike _ _ _ ((needOperands vm 2 "APPLY" >>= fun _ => _) w)
    rw [Cmd.bind_run_ok hneed, hstack]
    refine (alike_onData _ (h.noted faults)).bind fun args r' args' w' hargs => ?_
    obtain ⟨rfl, h'⟩ := hargs
    exact hcall args r' w' h'
  | true =>
    show Alike _ _ _ ((needOperands vm 2 "APPLY" >>= fun _ => _) w)
    rw [Cmd.bind_run_ok hneed, hstack]
    refine (alike_onData _ (h.noted faults)).bind fun args r' args' w' hargs => ?_
    obtain ⟨rfl, h'⟩ := hargs
    exact hcall args r' w' h'

/-- The continuation is captured, and the receiver is called with it. -/
theorem goes_callcc (hhost : ∀ name, host.kind name = .data) (self : Self X) (vm : VM)
    (hstack : vm.stack = v :: s)
    (hafter : After κ.Waits tail (vm.below s vm.ahead)) (h : Agrees r vm.scratch w) :
    Alike vm.scratch Goes (Reference.giveValue host v (.callcc κ) r)
      (execute host self vm (callccCode tail) w) := by
  obtain ⟨faults, hneed⟩ := needValue vm hstack "call/cc" w
  have hlen : r.conts.length = w.conts.length := h.conts.length_eq
  have hagree : Agrees { r with conts := r.conts ++ [(κ, r.data.winds)] } vm.scratch
      { w with
        faults := faults
        conts := w.conts ++
          [⟨s, vm.dump, w.data.winds, vm.c, vm.pc, vm.env, vm.base, vm.mark⟩] } :=
    ⟨h.data, h.frames, h.globals, h.updates, h.closures,
      List.rel_append h.conts (.cons ⟨hafter.returns, by rw [h.data]⟩ .nil), h.scratch, h.depth⟩
  have hcall := goes_of_entered (alike_callValue hhost self
    { vm with stack := .cont w.conts.length :: s } v [.cont r.conts.length] (s := s)
    (by rw [hlen]; rfl) hafter hagree)
  cases tail with
  | false =>
    show Alike _ _ _ ((needOperands vm 1 "call/cc" >>= fun _ => _) w)
    rw [Cmd.bind_run_ok hneed, hstack]
    exact hcall
  | true =>
    show Alike _ _ _ ((needOperands vm 1 "call/cc" >>= fun _ => _) w)
    rw [Cmd.bind_run_ok hneed, hstack]
    exact hcall

/-- The branch of a test. -/
theorem chooseBranch_some (v : Value) (ct cf : Code) :
    (chooseBranch v (some ct) (some cf) : SchemeM X Code) = pure (if v.isTrue then ct else cf) := by
  unfold chooseBranch
  cases v.isTrue <;> rfl

/-- The value is the result. -/
theorem progress_halt (hstack : vm.stack = v :: s) (hwaits : Kont.halt.Waits (vm.below s vm.ahead))
    (h : Agrees r vm.scratch w) : Progress host (.value v .halt) r vm w := by
  obtain ⟨c, hcode⟩ := hwaits
  refine .turns (.refl _) hcode ?_
  show Alike _ _ _ ((Except.ok (Next.done (vm.stack.headD .nil)), w) : Except Err Next × World X)
  rw [hstack]
  exact .ok (.done h)

/-- The value is dropped, and the next form is evaluated. -/
theorem progress_seq {e : Expr} {es : List Expr} {inOperator : Bool} (hstack : vm.stack = v :: s)
    (hwaits : (Kont.seq e es inOperator ρ κ).Waits (vm.below s vm.ahead))
    (h : Agrees r vm.scratch w) : Progress host (.value v (.seq e es inOperator ρ κ)) r vm w := by
  obtain ⟨tail, c, henv, hcode, hafter⟩ := hwaits
  obtain ⟨faults, hneed⟩ := needValue { vm with pc := vm.pc + 1 } hstack "POP" w
  refine .turns (.refl _) hcode ?_
  show Alike _ _ _ ((needOperands _ 1 "POP" >>= fun _ => _) w)
  rw [Cmd.bind_run_ok hneed]
  refine .ok (.on ⟨henv, tail, c, (VM.instr_of_ahead hcode).2, ?_⟩ (h.noted faults))
  show After _ _ ⟨vm.stack.drop 1, _, _, _, _⟩
  rw [hstack]
  exact hafter

/-- The value chooses a branch: in tail position it is jumped to, elsewhere it is entered. -/
theorem progress_test {thenE elseE : Expr} (hstack : vm.stack = v :: s)
    (hwaits : (Kont.test thenE elseE ρ κ).Waits (vm.below s vm.ahead)) (h : Agrees r vm.scratch w) :
    Progress host (.value v (.test thenE elseE ρ κ)) r vm w := by
  obtain ⟨tail, c, henv, hcode, hafter⟩ := hwaits
  obtain ⟨faults, hneed⟩ := needValue { vm with pc := vm.pc + 1 } hstack "SEL" w
  refine .turns (.refl _) hcode ?_
  cases tail with
  | false =>
    show Alike _ _ _ ((needOperands _ 1 "SEL" >>= fun _ => _) w)
    rw [Cmd.bind_run_ok hneed]
    dsimp only
    rw [hstack, List.headD_cons, chooseBranch_some]
    refine .ok (.on ⟨henv, false, [.join], ?_, ?_⟩ ((h.noted faults).withStamps _))
    · show (if v.isTrue then thenE.code ρ.names false ++ [.join]
        else elseE.code ρ.names false ++ [.join]) = _
      cases v.isTrue <;> rfl
    · exact Returns.branch hafter ⟨vm.c, vm.pc + 1, vm.env, vm.base, .branch, w.stamps + 1,
        vm.mark⟩ (VM.instr_of_ahead hcode).2 []
  | true =>
    show Alike _ _ _ ((needOperands _ 1 "SEL" >>= fun _ => _) w)
    rw [Cmd.bind_run_ok hneed]
    dsimp only
    rw [hstack, List.headD_cons, chooseBranch_some]
    refine .ok (.on ⟨henv, true, [.rtn], ?_, ?_⟩ (h.noted faults))
    · show (if v.isTrue then thenE.code ρ.names true ++ [.rtn]
        else elseE.code ρ.names true ++ [.rtn]) = _
      cases v.isTrue <;> rfl
    · obtain ⟨back, d, c', hdump, -, hbase, hret⟩ := hafter
      exact ⟨back, d, [], hdump, rfl, hbase, hret⟩

/-- The value is stored in a global cell. -/
theorem progress_define {name : String} (hstack : vm.stack = v :: s)
    (hwaits : (Kont.define name κ).Waits (vm.below s vm.ahead)) (h : Agrees r vm.scratch w) :
    Progress host (.value v (.define name κ)) r vm w := by
  obtain ⟨c, hcode, hret⟩ := hwaits
  obtain ⟨faults, hneed⟩ := needValue { vm with pc := vm.pc + 1 } hstack "DEF" w
  refine .turns (.refl _) hcode ?_
  show Alike _ _ _ ((needOperands _ 1 "DEF" >>= fun _ => _) w)
  rw [Cmd.bind_run_ok hneed]
  dsimp only
  rw [hstack]
  refine (alike_setGlobal name v (h.noted faults)).bind fun _ r' _ w' h' => ?_
  refine .ok (.on ⟨s, rfl, ?_⟩ h'.2)
  show Returns κ.Waits ⟨_, _, _, _, ({ vm with pc := vm.pc + 1 } : VM).ahead⟩
  rw [(VM.instr_of_ahead hcode).2]
  exact hret

/-- The value is stored where the variable is. -/
theorem progress_set {name : String} (hstack : vm.stack = v :: s)
    (hwaits : (Kont.set name ρ κ).Waits (vm.below s vm.ahead)) (h : Agrees r vm.scratch w) :
    Progress host (.value v (.set name ρ κ)) r vm w := by
  obtain ⟨c, henv, hcode, hret⟩ := hwaits
  refine .turns (.refl _) hcode ?_
  refine (alike_setVar (machine host 0) { vm with pc := vm.pc + 1 } name henv hstack h).map
    (fun _ => Sum.inr (Control.value v κ)) ?_
  rintro ⟨⟩ r' next w' ⟨rfl, h'⟩
  refine .on ⟨s, hstack, ?_⟩ h'
  show Returns κ.Waits ⟨_, _, _, _, ({ vm with pc := vm.pc + 1 } : VM).ahead⟩
  rw [(VM.instr_of_ahead hcode).2]
  exact hret

/-- The value is called with the continuation. -/
theorem progress_callcc (hhost : ∀ name, host.kind name = .data) (hstack : vm.stack = v :: s)
    (hwaits : (Kont.callcc κ).Waits (vm.below s vm.ahead)) (h : Agrees r vm.scratch w) :
    Progress host (.value v (.callcc κ)) r vm w := by
  obtain ⟨tail, c, hcode, hafter⟩ := hwaits
  refine .turns (.refl _) hcode (goes_callcc hhost _ { vm with pc := vm.pc + 1 } hstack
    ?_ h)
  rw [(VM.instr_of_ahead hcode).2]
  exact hafter

/-- The value is an argument: there is another one, or the operator is next. -/
theorem progress_args {f : Expr} {todo : List Expr} {done : List Value} (hstack : vm.stack = v :: s)
    (hwaits : (Kont.args f todo done ρ κ).Waits (vm.below s vm.ahead)) (h : Agrees r vm.scratch w) :
    Progress host (.value v (.args f todo done ρ κ)) r vm w := by
  obtain ⟨tail, c, s, henv, rfl, hcode, hafter⟩ := hwaits
  have hdone : vm.stack = (done ++ [v]).reverse ++ s := by
    rw [hstack, List.reverse_append]
    rfl
  cases todo with
  | nil =>
    refine .waits (.refl _) h rfl
      ⟨henv, false, _, hcode, .here ⟨tail, c, s, hdone, ?_, hafter⟩⟩ ?_
    · rw [List.length_append]
      rfl
    · simp only [Reference.Control.weight]
      omega
  | cons x xs =>
    have hcode' : vm.ahead = x.code ρ.names false ++ (argsCode xs ρ.names ++
        (markLast (f.code ρ.names false) ++ callCode tail ((done ++ [v]).length + 1 + xs.length)
          :: c)) := by
      rw [show vm.ahead = _ from hcode, argsCode, List.append_assoc, List.length_append,
        List.length_cons, List.length_singleton]
      congr 5
      omega
    refine .waits (.refl _) h rfl
      ⟨henv, false, _, hcode', .here ⟨tail, c, s, henv, hdone, rfl, hafter⟩⟩ ?_
    simp only [Reference.Control.weight, List.cons.sizeOf_spec]
    omega

/-- The value is an argument of `apply`: after the last one the list is made. -/
theorem progress_applyArgs {f : Expr} {todo : List Expr} {done : List Value}
    (hstack : vm.stack = v :: s)
    (hwaits : (Kont.applyArgs f todo done ρ κ).Waits (vm.below s vm.ahead))
    (h : Agrees r vm.scratch w) : Progress host (.value v (.applyArgs f todo done ρ κ)) r vm w := by
  obtain ⟨tail, c, s, henv, rfl, hcode, hafter⟩ := hwaits
  have hdone : vm.stack = (done ++ [v]).reverse ++ s := by
    rw [hstack, List.reverse_append]
    rfl
  cases todo with
  | nil =>
    obtain ⟨faults, hneed⟩ := needOperands_run { vm with pc := vm.pc + 1 } (m := done.length + 1)
      "ARGS-AP" (by rw [hdone]; simp) w
    have hrest : (v :: (done.reverse ++ s)).drop (done.length + 1) = s := by
      rw [List.drop_succ_cons, ← List.length_reverse, List.drop_left]
    have hheads : ((vm.stack.take (done.length + 1)).drop 1).reverse = done := by
      rw [hstack, List.take_succ_cons, List.drop_succ_cons, List.drop_zero,
        ← List.length_reverse, List.take_left, List.reverse_reverse]
    replace hcode : vm.ahead = .argsAp (done.length + 1) ::
      (f.code ρ.names false ++ applyCode tail :: c) := hcode
    refine .turns (.refl _) hcode ?_
    show Alike _ _ _ ((needOperands _ (done.length + 1) "ARGS-AP" >>= fun _ => _) w)
    rw [Cmd.bind_run_ok hneed]
    dsimp only
    rw [hheads, hstack, List.headD_cons]
    refine (alike_onData _ (h.noted faults)).bind fun acc r' acc' w' hacc => ?_
    obtain ⟨rfl, h'⟩ := hacc
    refine (alike_onData _ h').bind fun l r' l' w' hl => ?_
    obtain ⟨rfl, h'⟩ := hl
    refine .ok (.on ⟨henv, false, _, (VM.instr_of_ahead hcode).2, .here ⟨tail, c, s, ?_, rfl,
      hafter⟩⟩ h')
    exact congrArg (l :: ·) hrest
  | cons x xs =>
    have hcode' : vm.ahead = x.code ρ.names false ++ (argsCode xs ρ.names ++
        .argsAp ((done ++ [v]).length + 1 + xs.length) ::
          (f.code ρ.names false ++ applyCode tail :: c)) := by
      rw [show vm.ahead = _ from hcode, argsCode, List.append_assoc, List.length_append,
        List.length_cons, List.length_singleton]
      congr 4
      omega
    refine .waits (.refl _) h rfl
      ⟨henv, false, _, hcode', .here ⟨tail, c, s, henv, hdone, rfl, hafter⟩⟩ ?_
    simp only [Reference.Control.weight, List.cons.sizeOf_spec]
    omega

/-- The value is called with the arguments below it. -/
theorem progress_operator (hhost : ∀ name, host.kind name = .data) {args : List Value}
    (hstack : vm.stack = v :: s) (hwaits : (Kont.operator args κ).Waits (vm.below s vm.ahead))
    (h : Agrees r vm.scratch w) : Progress host (.value v (.operator args κ)) r vm w := by
  obtain ⟨tail, c, s, rfl, hcode, hafter⟩ := hwaits
  refine .turns (.refl _) hcode (goes_call hhost _ { vm with pc := vm.pc + 1 } hstack
    ?_ h)
  rw [(VM.instr_of_ahead hcode).2]
  exact hafter

/-- The value is called with the elements of the list below it. -/
theorem progress_applyOperator (hhost : ∀ name, host.kind name = .data) {list : Value}
    (hstack : vm.stack = v :: s) (hwaits : (Kont.applyOperator list κ).Waits (vm.below s vm.ahead))
    (h : Agrees r vm.scratch w) : Progress host (.value v (.applyOperator list κ)) r vm w := by
  obtain ⟨tail, c, s, rfl, hcode, hafter⟩ := hwaits
  refine .turns (.refl _) hcode (goes_apply hhost _ { vm with pc := vm.pc + 1 } hstack
    ?_ h)
  rw [(VM.instr_of_ahead hcode).2]
  exact hafter

/-- The value of a thunk is dropped. -/
theorem progress_rewind {thunks : List Value} {k v' : Value} (hstack : vm.stack = v :: s)
    (hwaits : (Kont.rewind thunks k v').Waits (vm.below s vm.ahead)) (h : Agrees r vm.scratch w) :
    Progress host (.value v (.rewind thunks k v')) r vm w := by
  obtain ⟨hk, hcode⟩ := hwaits
  obtain ⟨faults, hneed⟩ := needValue { vm with pc := vm.pc + 1 } hstack "POP" w
  refine .turns (.refl _) hcode ?_
  show Alike _ _ _ ((needOperands _ 1 "POP" >>= fun _ => _) w)
  rw [Cmd.bind_run_ok hneed]
  exact .ok (.on ⟨hk, (VM.instr_of_ahead hcode).2⟩ (h.noted faults))

/-- **A value, where it is waited for.** -/
theorem progress_waiting (hhost : ∀ name, host.kind name = .data) (hstack : vm.stack = v :: s)
    (hwaits : κ.Waits (vm.below s vm.ahead)) (h : Agrees r vm.scratch w) :
    Progress host (.value v κ) r vm w := by
  cases κ with
  | halt => exact progress_halt hstack hwaits h
  | seq => exact progress_seq hstack hwaits h
  | test => exact progress_test hstack hwaits h
  | define => exact progress_define hstack hwaits h
  | set => exact progress_set hstack hwaits h
  | callcc => exact progress_callcc hhost hstack hwaits h
  | args => exact progress_args hstack hwaits h
  | applyArgs => exact progress_applyArgs hstack hwaits h
  | operator => exact progress_operator hhost hstack hwaits h
  | applyOperator => exact progress_applyOperator hhost hstack hwaits h
  | rewind => exact progress_rewind hstack hwaits h

/-- A constant is pushed. -/
theorem exists_ldc (host : Host X) (w : World X) {vm : VM} {v : Value} {c : Code}
    (h : vm.ahead = .ldc v :: c) :
    ∃ vm', turnFrom host (vm, w) = .inr (vm', w) ∧ vm'.stack = v :: vm.stack ∧
      vm'.scratch = vm.scratch ∧ vm'.ahead = c :=
  ⟨_, turnFrom_continue h rfl, rfl, rfl, (VM.instr_of_ahead h).2⟩

/-- **Every control makes progress.** -/
theorem progress (hhost : ∀ name, host.kind name = .data) {control : Control}
    (hruns : control.Runs vm) (h : Agrees r vm.scratch w) : Progress host control r vm w := by
  cases control with
  | eval e inOperator ρ κ => exact progress_eval e inOperator hruns h
  | value v κ =>
    obtain ⟨s, hstack, hret⟩ := hruns
    obtain ⟨k, vm', w', s', hsteps, hstack', hwaits, h'⟩ := exists_arrival hret vm rfl hstack h
    cases progress_waiting hhost hstack' hwaits h' with
    | waits hmore hagree hact hruns' hlt =>
      exact .waits (hsteps.trans hmore) hagree hact hruns' hlt
    | turns hmore hcode halike => exact .turns (hsteps.trans hmore) hcode halike
  | rewind thunks k v =>
    obtain ⟨⟨a, rfl⟩, hcode⟩ := hruns
    cases thunks with
    | nil =>
      obtain ⟨vm₁, hfirst, hstack₁, hscratch₁, hahead₁⟩ := exists_ldc host w hcode
      obtain ⟨vm₂, hsecond, hstack₂, hscratch₂, hahead₂⟩ := exists_ldc host w hahead₁
      rw [hstack₁] at hstack₂
      rw [← hscratch₁, ← hscratch₂] at h
      refine .turns (.step hfirst (.one hsecond)) hahead₂ ?_
      obtain ⟨faults, hneed⟩ := needOperands_run { vm₂ with pc := vm₂.pc + 1 } (m := 2) "APP"
        (by rw [hstack₂]; simp) w
      show Alike _ _ _ ((needOperands _ 2 "APP" >>= fun _ => _) w)
      rw [Cmd.bind_run_ok hneed]
      unfold popAndCall
      rw [hstack₂]
      have hargs : ((v :: vm.stack).take [v].length).reverse = [v] := rfl
      exact goes_of_entered (alike_callCont (machine host 0)
        { vm₂ with stack := v :: vm.stack, pc := vm₂.pc + 1 } a hargs (h.noted faults))
    | cons thunk thunks =>
      obtain ⟨vm₁, hfirst, hstack₁, hscratch₁, hahead₁⟩ := exists_ldc host w hcode
      rw [← hscratch₁] at h
      have hafter : After (Kont.rewind thunks (.cont a) v).Waits false
          (({ vm₁ with pc := vm₁.pc + 1 } : VM).below vm.stack
            ({ vm₁ with pc := vm₁.pc + 1 } : VM).ahead) :=
        .here ⟨⟨a, rfl⟩, (VM.instr_of_ahead hahead₁).2⟩
      have hargs : vm₁.stack = thunk :: (([] : List Value).reverse ++ vm.stack) := hstack₁
      exact .turns (.one hfirst) hahead₁
        (goes_call hhost _ { vm₁ with pc := vm₁.pc + 1 } hargs hafter h)

end Progress

/-! ## Errors -/

section Errors

variable {r : Reference.World X} {w : World X} {vm : VM}

/-- The handler is called in both. -/
theorem goes_raise (message : Message) (h : Agrees r vm.scratch w) :
    Alike vm.scratch Goes
      ((do return .inr (← Reference.raise message) : Reference.RefM X (Value ⊕ Control)) r)
      ((do return .continue (← abandonToRaise vm message) : SchemeM X Next) w) := by
  refine goes_of_entered ?_
  -- the machine notes what it reads, which is no part of the reference's world
  have hread := h.withReads (w.reads ++ [.handOver vm.c ⟨.interaction, "raise"⟩])
  unfold Reference.raise abandonToRaise noteRead
  rw [Cmd.bind_run_ok (Cmd.getState_run r), Cmd.bind_run_ok (Cmd.modifyState_run _ w),
    Cmd.bind_run_ok (Cmd.getState_run _), hread.globals]
  cases r.globals "raise" with
  | none => exact .error ⟨rfl, hread⟩
  | some raise =>
    refine (alike_onData _ hread).bind fun _ r' _ w' h' => ?_
    refine .ok ⟨⟨rfl, false, [.stop], ?_, .here ⟨[], rfl⟩⟩, h'.2⟩
    rw [← hread.data]
    rfl

/-- **An error goes to the handler** in both, or is the outcome of both. -/
theorem goes_handOver {control : Control} {m : SchemeM X Next}
    (hm : Alike vm.scratch Goes (Reference.act host control r) (m w)) :
    Alike vm.scratch Goes (Reference.step host control r) (handOver vm m w) := by
  unfold Reference.step handOver
  generalize Reference.act host control r = x, m w = y at hm
  cases hm with
  | ok h => exact .ok h
  | @error e r' _ w' h =>
    obtain ⟨rfl, h⟩ := h
    dsimp only
    cases e.catchable? with
    | none => exact .error ⟨rfl, h⟩
    | some message =>
      dsimp only
      have hhandled : (1 < w'.runDepth ∨ (!handlerInstalled w') = true) ↔
          (!Reference.handled r') = true := by
        unfold handlerInstalled Reference.handled
        rw [h.data]
        exact or_iff_right (Nat.not_lt.mpr h.depth)
      by_cases hinstalled : 1 < w'.runDepth ∨ (!handlerInstalled w') = true
      · rw [if_pos hinstalled, if_pos (hhandled.mp hinstalled)]
        exact .error ⟨rfl, h⟩
      · rw [if_neg hinstalled, if_neg fun hc => hinstalled (hhandled.mpr hc)]
        exact goes_raise message h

end Errors

/-! ## Runs -/

/-- The two machines at the same point, in worlds that agree. -/
def AtSamePoint (state : Reference.State X) (c : VM × World X) : Prop :=
  state.1.Runs c.1 ∧ Agrees state.2 c.1.scratch c.2

/-- The same value or error, in worlds that agree. -/
def SameOutcome (o : Except Err Value × Reference.World X) (p : Except Err Value × World X) :
    Prop :=
  p.1 = o.1 ∧ ∃ scratch, Agrees o.2 scratch p.2

/-- The instruction that does what a control asks for, as a step of both. -/
inductive StepsAlike (host : Host X) (state : Reference.State X) (c : VM × World X) : Prop
  | ends {o p} : Reference.next host state = .inl o → turnFrom host c = .inl p →
      SameOutcome o p → StepsAlike host state c
  | goes {state' c'} : Reference.next host state = .inr state' → turnFrom host c = .inr c' →
      AtSamePoint state' c' → StepsAlike host state c

theorem stepsAlike {control : Control} {r : Reference.World X} {vm : VM} {w : World X} {i : Instr}
    {c : Code} (hcode : vm.ahead = i :: c)
    (hact : Alike vm.scratch Goes (Reference.act host control r)
      (execute host (machine host 0) { vm with pc := vm.pc + 1 } i w)) :
    StepsAlike host (control, r) (vm, w) := by
  have hstep : Alike vm.scratch Goes (Reference.step host control r)
      (turn host (machine host 0) vm w) := by
    unfold turn
    rw [(VM.instr_of_ahead hcode).1]
    exact goes_handOver hact
  rcases hx : Reference.step host control r with ⟨x, r'⟩
  rcases hy : turn host (machine host 0) vm w with ⟨y, w'⟩
  rw [hx, hy] at hstep
  cases hstep with
  | ok hgoes =>
    cases hgoes with
    | @on control' _ vm' _ hruns h =>
      have hsame : AtSamePoint (control', r') (vm', w') := ⟨hruns, h⟩
      exact .goes (by simp only [Reference.next, hx]) (by simp only [turnFrom, hy]) hsame
    | @done v _ _ _ h =>
      have hsame : SameOutcome (.ok v, r') (.ok v, w') := ⟨rfl, _, h⟩
      exact .ends (by simp only [Reference.next, hx]) (by simp only [turnFrom, hy]) hsame
  | @error err _ _ _ h =>
    obtain ⟨rfl, h⟩ := h
    have hsame : SameOutcome (.error err, r') (.error err, w') := ⟨rfl, _, h⟩
    exact .ends (by simp only [Reference.next, hx]) (by simp only [turnFrom, hy]) hsame

/-- **The machine follows the reference.** -/
theorem machine_follows (hhost : ∀ name, host.kind name = .data) :
    Stepping.Follows (Reference.next host) (turnFrom host) AtSamePoint SameOutcome
      (fun state => state.1.weight) := by
  have hwait : ∀ {control control' : Control} {r : Reference.World X},
      Reference.act host control r = (.ok (.inr control'), r) →
      Reference.next host (control, r) = .inr (control', r) := by
    intro control control' r hact
    unfold Reference.next Reference.step
    rw [hact]
  constructor
  · rintro ⟨control, r⟩ ⟨vm, w⟩ o ⟨hruns, h⟩ ho
    cases progress hhost hruns h with
    | waits _ _ hact _ _ => exact absurd ((hwait hact).symm.trans ho) (fun h => by cases h)
    | turns hsteps hcode hact =>
      cases stepsAlike hcode hact with
      | ends hnext hturn hsame =>
        obtain rfl := Sum.inl.inj (hnext.symm.trans ho)
        exact ⟨_, .of_steps hsteps ⟨1, Stepping.outcome?_inl hturn 0⟩, hsame⟩
      | goes hnext _ _ => exact absurd (hnext.symm.trans ho) (fun h => by cases h)
  · rintro ⟨control, r⟩ ⟨vm, w⟩ ⟨control', r'⟩ ⟨hruns, h⟩ hgoes
    cases progress hhost hruns h with
    | @waits k vm' w' _ hsteps h' hact hruns' hlt =>
      cases (hwait hact).symm.trans hgoes
      cases k with
      | zero =>
        cases hsteps
        exact .inl ⟨hlt, hruns', h'⟩
      | succ k => exact .inr ⟨k, _, hsteps, hruns', h'⟩
    | turns hsteps hcode hact =>
      cases stepsAlike hcode hact with
      | ends hnext _ _ => exact absurd (hnext.symm.trans hgoes) (fun h => by cases h)
      | goes hnext hturn hsame =>
        cases hnext.symm.trans hgoes
        exact .inr ⟨_, _, hsteps.trans (.one hturn), hsame⟩

end Scheme14
