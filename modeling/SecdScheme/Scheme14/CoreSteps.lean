import SecdScheme.Scheme14.CoreCode
import SecdScheme.Lib.CmdPaired
import Mathlib.Data.List.Forall2

/-!
# scheme14: the machine follows the reference

A value gets through the branches and calls that end to where it is waited
for, and there one instruction does what the reference does with it. An
expression that has parts is no work for the machine.
-/

namespace Scheme14

open Reference (Kont Scope Proc Control)
open Cmd (Paired)
open Stepping (Steps)

variable {X : Type} {host : Host X}

/-! ## The stack -/

theorem resize_eq_drop {stack : List Value} {n : ℕ} (h : n ≤ stack.length) :
    VM.resize stack n = stack.drop (stack.length - n) := if_pos h

theorem resize_self (stack : List Value) : VM.resize stack stack.length = stack := by
  rw [resize_eq_drop (Nat.le_refl _), Nat.sub_self, List.drop_zero]

theorem resize_append (args stack : List Value) :
    VM.resize (args ++ stack) stack.length = stack := by
  rw [resize_eq_drop (by rw [List.length_append]; omega), List.length_append,
    Nat.add_sub_cancel, List.drop_left]

/-- What is above the base is cut off. -/
theorem resize_append_of_le {args stack : List Value} {n : ℕ} (h : n ≤ stack.length) :
    VM.resize (args ++ stack) n = VM.resize stack n := by
  rw [resize_eq_drop h, resize_eq_drop (by rw [List.length_append]; omega), List.length_append,
    Nat.add_sub_assoc h, List.drop_append, List.drop_eq_nil_of_le (by omega),
    Nat.add_sub_cancel_left, List.nil_append]

theorem resize_cons {v : Value} {stack : List Value} {n : ℕ} (h : n ≤ stack.length) :
    VM.resize (v :: stack) n = VM.resize stack n :=
  @resize_append_of_le [v] stack n h

theorem resize_resize (stack : List Value) (n : ℕ) :
    VM.resize (VM.resize stack n) n = VM.resize stack n := by
  have h := resize_self (VM.resize stack n)
  rwa [VM.length_resize] at h

/-! ## Code that comes next -/

theorem VM.instr_of_ahead {vm : VM} {i : Instr} {c : Code} (h : vm.ahead = i :: c) :
    vm.c[vm.pc]? = some i ∧ ({ vm with pc := vm.pc + 1 } : VM).ahead = c := by
  have hlt : vm.pc < vm.c.length := by
    by_contra hge
    rw [VM.ahead, List.drop_eq_nil_of_le (Nat.not_lt.mp hge)] at h
    cases h
  have hdrop := List.drop_eq_getElem_cons hlt
  rw [show vm.c.drop vm.pc = i :: c from h] at hdrop
  obtain ⟨hi, hc⟩ := List.cons.inj hdrop
  exact ⟨by rw [List.getElem?_eq_getElem hlt, hi], hc.symm⟩

/-! ## Waiting -/

section Waiting

variable {P : Waiting → Prop} {p : Waiting} {tail : Bool}

theorem After.returns (h : After P tail p) : Returns P p := by
  cases tail with
  | false => exact h
  | true =>
    obtain ⟨back, d, c, hdump, hcode, hbase, hret⟩ := h
    obtain ⟨s, b, dump, env, code⟩ := p
    cases hdump
    cases hcode
    exact .rtn hbase hret

/-- **The body of a tail call** returns where the code that calls it does. -/
theorem After.tailCall (h : After P true p) (env : Option ℕ) (c : Code) :
    After P true ⟨VM.resize p.stack p.base, p.base, p.dump, env, .rtn :: c⟩ := by
  obtain ⟨back, d, -, hdump, -, -, hret⟩ := h
  refine ⟨back, d, c, hdump, rfl, ?_, ?_⟩
  · exact Nat.le_of_eq (VM.length_resize _ _).symm
  · rw [show VM.resize (VM.resize p.stack p.base) p.base = _ from resize_resize _ _]
    exact hret

/-- The body of a call comes back to what follows the call. -/
theorem Returns.call (h : Returns P p) (back : DumpEntry) (hcode : back.c.drop back.pc = p.code)
    (henv : back.env = p.env) (hbase : back.base = p.base) (env : Option ℕ) (c : Code) :
    After P true ⟨p.stack, p.stack.length, back :: p.dump, env, .rtn :: c⟩ := by
  refine ⟨back, p.dump, c, rfl, rfl, Nat.le_refl _, ?_⟩
  dsimp only
  rw [resize_self, hcode, henv, hbase]
  exact h

/-- A branch joins what follows it. -/
theorem Returns.branch (h : Returns P p) (back : DumpEntry)
    (hcode : back.c.drop back.pc = p.code) (c : Code) :
    Returns P ⟨p.stack, p.base, back :: p.dump, p.env, .join :: c⟩ := by
  refine .join ?_
  rw [hcode]
  exact h

end Waiting

/-! ## Worlds that agree -/

namespace Agrees

variable {r : Reference.World X} {scratch : Option Closure} {w : World X}

theorem noted (h : Agrees r scratch w) (faults : List Fault) :
    Agrees r scratch { w with faults := faults } :=
  ⟨h.data, h.frames, h.globals, h.updates, h.closures, h.conts, h.scratch, h.depth⟩

theorem withReads (h : Agrees r scratch w) (reads : List Read) :
    Agrees r scratch { w with reads := reads } :=
  ⟨h.data, h.frames, h.globals, h.updates, h.closures, h.conts, h.scratch, h.depth⟩

theorem withStamps (h : Agrees r scratch w) (stamps : ℕ) :
    Agrees r scratch { w with stamps := stamps } :=
  ⟨h.data, h.frames, h.globals, h.updates, h.closures, h.conts, h.scratch, h.depth⟩

theorem withData (h : Agrees r scratch w) (s : Data X) :
    Agrees { r with data := s } scratch { w with data := s } :=
  ⟨rfl, h.frames, h.globals, h.updates, h.closures, h.conts, h.scratch, h.depth⟩

end Agrees

/-- Two commands that do the same, and agree after it. -/
abbrev Same {α : Type} (scratch : Option Closure) (a : α) (r : Reference.World X) (b : α)
    (w : World X) : Prop := a = b ∧ Agrees r scratch w

/-- **Two commands of the two machines end alike.** -/
abbrev Alike {α β : Type} (scratch : Option Closure)
    (B : α → Reference.World X → β → World X → Prop) (x : Except Err α × Reference.World X)
    (y : Except Err β × World X) : Prop :=
  Paired (fun e r e' w => e = e' ∧ Agrees r scratch w) B x y

section Commands

variable {r : Reference.World X} {scratch : Option Closure} {w : World X}

theorem alike_onData {α : Type} (m : DataM X α) (h : Agrees r scratch w) :
    Alike scratch (Same scratch) (Reference.onTables m r) (onData m w) := by
  unfold Reference.onTables onData
  rw [h.data]
  rcases m r.data with ⟨e | a, s⟩
  · exact .error ⟨rfl, h.withData s⟩
  · exact .ok ⟨rfl, h.withData s⟩

theorem alike_setGlobal (name : String) (v : Value) (h : Agrees r scratch w) :
    Alike scratch (Same scratch) (Reference.setGlobal name v r)
      (setGlobal ⟨.interaction, name⟩ v w) := by
  refine .ok ⟨rfl, h.data, h.frames, ?_, ?_, h.closures, h.conts, h.scratch, h.depth⟩
  · funext n
    show (if Table.interaction = Table.interaction ∧ n = name then some v
      else w.globals .interaction n) = if n = name then some v else r.globals n
    rw [h.globals]
    by_cases hn : n = name
    · rw [if_pos ⟨rfl, hn⟩, if_pos hn]
    · rw [if_neg (fun hc => hn hc.2), if_neg hn]
  · show w.updates ++ _ = _
    rw [h.updates]

theorem forall₂_getElem? {α β : Type} {R : α → β → Prop} {l : List α} {l' : List β}
    (h : List.Forall₂ R l l') (i : ℕ) : Option.Rel R l[i]? l'[i]? := by
  induction h generalizing i with
  | nil => exact .none
  | cons hx _ ih =>
    cases i with
    | zero => exact .some hx
    | succ i => exact ih i

/-- The frame of a call. -/
theorem alike_makeFrame {p : Proc} {clo : Closure} (hclo : Proc.Compiled p clo)
    (args : List Value) (h : Agrees r scratch w) :
    Alike scratch (Same scratch) (Reference.bindArgs p args r) (makeFrame clo args w) := by
  obtain ⟨params, rest, body, env⟩ := clo
  obtain ⟨rfl, rfl, rfl, -⟩ := hclo
  have hframe : ∀ (vals : List Value) (r' : Reference.World X) (w' : World X),
      Agrees r' scratch w' → Alike scratch (Same scratch)
        (Except.ok r'.frames.length, { r' with frames := r'.frames ++ [⟨p.scope.env, vals⟩] })
        (Except.ok w'.frames.length,
          { w' with frames := w'.frames ++ [⟨p.scope.env, vals⟩] }) := by
    intro vals r' w' h'
    rw [h'.frames]
    exact .ok ⟨rfl, h'.data, rfl, h'.globals, h'.updates, h'.closures, h'.conts, h'.scratch,
      h'.depth⟩
  unfold Reference.bindArgs makeFrame
  dsimp only
  cases hrest : p.rest with
  | none =>
    by_cases hlen : args.length = p.params.length
    · simp only [hlen, decide_true, Bool.not_true, Bool.false_eq_true, if_false]
      exact hframe args r w h
    · simp only [hlen, decide_false, Bool.not_false, if_true]
      exact .error ⟨rfl, h⟩
  | some x =>
    by_cases hlen : p.params.length ≤ args.length
    · simp only [hlen, decide_true, Bool.not_true, Bool.false_eq_true, if_false]
      refine Paired.bind (B := Same scratch) ?_ fun vals r' vals' w' hvals => ?_
      · refine Paired.bind (alike_onData _ h) fun l r' l' w' hl => ?_
        exact .ok ⟨by rw [hl.1], hl.2⟩
      · obtain ⟨rfl, h'⟩ := hvals
        exact hframe vals r' w' h'
    · simp only [hlen, decide_false, Bool.not_false, if_true]
      exact .error ⟨rfl, h⟩

end Commands

/-! ## Variables -/

section Variables

variable {r : Reference.World X} {w : World X} {vm : VM} {ρ : Scope} {name : String}

theorem envAt_none (frames : List Frame) (i : ℕ) : envAt frames none i = none := by
  cases i <;> rfl

theorem envAt_succ (frames : List Frame) (a i : ℕ) :
    envAt frames (some a) (i + 1) = envAt frames ((frames[a]?).bind Frame.next) i := by
  conv_lhs => unfold envAt
  cases frames[a]? with
  | none => exact (envAt_none frames i).symm
  | some f => rfl

/-- The address of a name leads to the frame that has it. -/
theorem place_of_locationOf (frames : List Frame) (name : String) (names : CompileEnv)
    (env : Option ℕ) : Reference.place frames name names env =
      match locationOf name names with
      | none => .global
      | some (i, j) => .frame (envAt frames env i) j := by
  induction names generalizing env with
  | nil => rfl
  | cons rib names ih =>
    unfold Reference.place locationOf
    cases rib.findIdx? (· == name) with
    | some j => cases env <;> rfl
    | none =>
      dsimp only
      rw [ih]
      cases locationOf name names with
      | none => rfl
      | some p =>
        cases env with
        | none =>
          show Reference.Place.frame (envAt frames none p.1) p.2 =
            Reference.Place.frame (envAt frames none (p.1 + 1)) p.2
          rw [envAt_none, envAt_none]
        | some a =>
          show Reference.Place.frame (envAt frames ((frames[a]?).bind Frame.next) p.1) p.2 =
            Reference.Place.frame (envAt frames (some a) (p.1 + 1)) p.2
          rw [envAt_succ]

theorem valueAt_envAt (frames : List Frame) (env : Option ℕ) (i j : ℕ) :
    Reference.valueAt frames (envAt frames env i) j = localAt frames env i j := rfl

theorem alike_readVar (self : Self X) (vm : VM) (henv : vm.env = ρ.env)
    (h : Agrees r vm.scratch w) :
    Alike vm.scratch (fun v r' next w' => next = .continue (vm.push v) ∧ Agrees r' vm.scratch w')
      (Reference.readVar ρ name r) (execute host self vm (varCode ρ.names name) w) := by
  unfold Reference.readVar varCode
  simp only [Cmd.bind_run, Cmd.getState_run, place_of_locationOf]
  cases locationOf name ρ.names with
  | none =>
    have hread := h.withReads (w.reads ++ [.instruction vm.c ⟨.interaction, name⟩])
    simp only [execute, noteRead, Cmd.bind_run, Cmd.modifyState_run, Cmd.getState_run, h.globals]
    cases r.globals name with
    | none => exact .error ⟨rfl, hread⟩
    | some v => exact .ok ⟨rfl, hread⟩
  | some p =>
    obtain ⟨i, j⟩ := p
    simp only [execute, Cmd.bind_run, Cmd.getState_run, h.frames, henv, valueAt_envAt]
    cases localAt r.frames ρ.env i j with
    | none => exact .error ⟨rfl, h.noted _⟩
    | some p => exact .ok ⟨rfl, h⟩

theorem alike_setVar (self : Self X) (vm : VM) (name : String) (henv : vm.env = ρ.env)
    {v : Value} {s : List Value} (hstack : vm.stack = v :: s) (h : Agrees r vm.scratch w) :
    Alike vm.scratch (fun _ r' next w' => next = .continue vm ∧ Agrees r' vm.scratch w')
      (Reference.setVar ρ name v r) (execute host self vm (setCode ρ.names name) w) := by
  unfold Reference.setVar setCode
  simp only [Cmd.bind_run, Cmd.getState_run, place_of_locationOf]
  cases locationOf name ρ.names with
  | none =>
    obtain ⟨faults, hneed⟩ := needOperands_run vm (m := 1) "GSET" (by rw [hstack]; simp) w
    show Alike _ _ _ ((needOperands vm 1 "GSET" >>= fun _ => _) w)
    rw [Cmd.bind_run_ok hneed, hstack]
    exact (alike_setGlobal name v (h.noted faults)).mapRight (fun _ => Next.continue vm)
      fun _ _ _ _ h' => ⟨rfl, h'.2⟩
  | some p =>
    obtain ⟨i, j⟩ := p
    obtain ⟨faults, hneed⟩ := needOperands_run vm (m := 1) "LSET" (by rw [hstack]; simp) w
    show Alike _ _ _ ((needOperands vm 1 "LSET" >>= fun _ => _) w)
    rw [Cmd.bind_run_ok hneed, hstack]
    have hplace : Reference.valueAt r.frames (envAt r.frames ρ.env i) j =
        localAt w.frames vm.env i j := by
      rw [h.frames, henv]
      rfl
    simp only [Cmd.bind_run, Cmd.getState_run, hplace]
    cases localAt w.frames vm.env i j with
    | none => exact .error ⟨rfl, h.noted (faults ++ [.localOutOfRange])⟩
    | some p =>
      refine .ok ⟨rfl, h.data, ?_, h.globals, ?_, h.closures, h.conts, h.scratch, h.depth⟩
      · exact congrArg (List.modify · p.1 _) h.frames
      · exact congrArg (· ++ _) h.updates

end Variables

/-! ## Calls -/

section Calls

variable {r : Reference.World X} {w : World X} {vm : VM} {κ : Kont} {tail : Bool}
  {args s : List Value}

/-- A control of the reference, and the registers that are there. -/
abbrev Entered (control : Control) (r : Reference.World X) (vm : VM) (w : World X) : Prop :=
  control.Runs vm ∧ Agrees r vm.scratch w

theorem alike_enter {p : Proc} {clo : Closure} (hclo : Proc.Compiled p clo)
    (hstack : vm.stack = args.reverse ++ s)
    (hafter : After κ.Waits tail (vm.below s vm.ahead)) (h : Agrees r vm.scratch w) :
    Alike vm.scratch Entered (Reference.enter p args κ r)
      ((makeFrame clo args >>= fun frame =>
        enterCode vm (vm.stack.length - args.length) tail clo.body (some frame)) w) := by
  refine (alike_makeFrame hclo args h).bind fun a r' f w' hf => ?_
  obtain ⟨rfl, h'⟩ := hf
  have hahead : ∀ vm' : VM, vm'.c = clo.body → vm'.pc = 0 → vm'.ahead =
      marked false ((Expr.begin p.body).code (p.inner a).names true) ++ [.rtn] := by
    intro vm' hc hpc
    rw [VM.ahead, hc, hpc, List.drop_zero, hclo.body]
    rfl
  cases tail with
  | true =>
    have hbase : vm.base ≤ s.length := by
      obtain ⟨-, -, -, -, -, hbase, -⟩ := hafter
      exact hbase
    refine .ok ⟨⟨rfl, true, [.rtn], hahead _ rfl rfl, ?_⟩, h'⟩
    have hbody := hafter.tailCall (some a) []
    rwa [show VM.resize (vm.below s vm.ahead).stack (vm.below s vm.ahead).base =
      VM.resize vm.stack vm.base from by rw [hstack]; exact (resize_append_of_le hbase).symm]
      at hbody
  | false =>
    have hargp : vm.stack.length - args.length = s.length := by
      rw [hstack, List.length_append, List.length_reverse, Nat.add_sub_cancel_left]
    have hcut : VM.resize vm.stack (vm.stack.length - args.length) = s := by
      rw [hargp, hstack]
      exact resize_append _ _
    refine .ok ⟨⟨rfl, true, [.rtn], hahead _ rfl rfl, ?_⟩, h'.withStamps _⟩
    have hbody := Returns.call hafter ⟨vm.c, vm.pc, vm.env, vm.base, .call, w'.stamps + 1, vm.mark⟩
      rfl rfl rfl (some a) []
    show After _ true ⟨VM.resize vm.stack (vm.stack.length - args.length),
      vm.stack.length - args.length, _, _, _⟩
    rw [hcut, hargp]
    exact hbody

/-- The call of a continuation asks nothing of the code that follows. -/
theorem alike_callCont (self : Self X) (vm : VM) (a : ℕ)
    (hargs : (vm.stack.take args.length).reverse = args)
    (h : Agrees r vm.scratch w) :
    Alike vm.scratch Entered (Reference.callValue host (.cont a) args κ r)
      (doCall host self vm (.cont a) args.length tail w) := by
  unfold Reference.callValue doCall
  rw [hargs]
  simp only [Cmd.bind_run, Cmd.getState_run]
  have hget := forall₂_getElem? h.conts a
  generalize r.conts[a]? = found, w.conts[a]? = found' at hget
  cases hget with
  | none => exact .error ⟨rfl, h⟩
  | @some κ' k hk =>
    obtain ⟨κ', winds⟩ := κ'
    obtain ⟨hret, rfl⟩ := hk
    dsimp only
    rw [h.data]
    by_cases hwinds : windsMatch r.data.winds k.winds = true
    · rw [if_pos hwinds, if_pos hwinds]
      exact .ok ⟨⟨k.stack, rfl, hret⟩, h⟩
    · rw [if_neg hwinds, if_neg hwinds]
      refine (alike_onData _ h).bind fun _ r' _ w' h' => .ok ⟨⟨⟨a, rfl⟩, ?_⟩, h'.2⟩
      show rewindCode r.data.winds (.cont a) k.winds (args.headD .nil) = _
      unfold rewindCode rewindingCode Reference.thunksBetween
      rw [List.map_append, List.flatten_append, List.map_map, List.map_map]
      rfl

/-- **A call does what the reference does.** -/
theorem alike_callValue (hhost : ∀ name, host.kind name = .data) (self : Self X) (vm : VM)
    (callee : Value) (args : List Value) {s : List Value}
    (hstack : vm.stack = args.reverse ++ s)
    (hafter : After κ.Waits tail (vm.below s vm.ahead)) (h : Agrees r vm.scratch w) :
    Alike vm.scratch Entered (Reference.callValue host callee args κ r)
      (doCall host self vm callee args.length tail w) := by
  have hargs : (vm.stack.take args.length).reverse = args := by
    rw [hstack, ← List.length_reverse, List.take_left, List.reverse_reverse]
  have hcut : VM.resize vm.stack (vm.stack.length - args.length) = s := by
    rw [hstack, List.length_append, List.length_reverse, Nat.add_sub_cancel_left]
    exact resize_append _ _
  cases callee with
  | cont a => exact alike_callCont self vm a hargs h
  | prim name =>
    unfold Reference.callValue doCall
    rw [hargs]
    dsimp only
    rw [if_neg (by rw [hhost]; exact fun h => by cases h)]
    unfold callPrimStep
    rw [hhost]
    refine (alike_onData (host.apply name args) h).bind fun v r' v' w' hv => ?_
    obtain ⟨rfl, h'⟩ := hv
    refine .ok ⟨⟨s, ?_, hafter.returns⟩, h'⟩
    rw [hcut]
  | closure a =>
    unfold Reference.callValue doCall
    rw [hargs]
    simp only [Cmd.bind_run, Cmd.getState_run]
    have hget := forall₂_getElem? h.closures a
    generalize r.procs[a]? = found, w.closures[a]? = found' at hget
    cases hget with
    | none => exact .error ⟨rfl, h⟩
    | some hclo => exact alike_enter hclo hstack hafter h
  | scratch =>
    unfold Reference.callValue doCall
    rw [hargs]
    simp only [Cmd.bind_run, Cmd.getState_run]
    have hget := h.scratch
    generalize r.scratch = found at hget
    cases hscratch : vm.scratch with
    | none =>
      rw [hscratch] at hget h
      cases hget
      exact .error ⟨rfl, h⟩
    | some clo =>
      rw [hscratch] at hget
      cases hget with
      | some hclo =>
        have hrun := alike_enter hclo hstack hafter h
        rw [hscratch] at hrun
        exact hrun
  | _ => exact .error ⟨rfl, h⟩

end Calls

/-! ## Runs of the machine -/

/-- A turn of a machine, as a step of a system. -/
def turnFrom (host : Host X) (c : VM × World X) :
    (Except Err Value × World X) ⊕ (VM × World X) :=
  match turn host (machine host 0) c.1 c.2 with
  | (.ok (.continue vm), w) => .inr (vm, w)
  | (.ok (.done v), w) => .inl (.ok v, w)
  | (.error e, w) => .inl (.error e, w)

section Runs

variable {r : Reference.World X} {w w' : World X} {vm vm' : VM} {κ : Kont} {i : Instr} {c : Code}

theorem turnFrom_continue (h : vm.ahead = i :: c)
    (hexec : execute host (machine host 0) { vm with pc := vm.pc + 1 } i w =
      (.ok (.continue vm'), w')) : turnFrom host (vm, w) = .inr (vm', w') := by
  unfold turnFrom
  rw [turn_of_execute (VM.instr_of_ahead h).1 hexec]

theorem execute_join (host : Host X) (self : Self X) (vm : VM) (w : World X) {back : DumpEntry}
    {rest : List DumpEntry} (hdump : vm.dump = back :: rest) :
    ∃ faults, execute host self vm .join w = (.ok (.continue { vm with
      dump := rest, c := back.c, pc := back.pc, mark := back.mark }),
      { w with faults := faults }) := by
  obtain ⟨faults, hobserve⟩ := observe_run (back.kind = .branch ∧ back.stamp = vm.mark ∧
    back.env = vm.env ∧ back.base = vm.base) .foreignEntry w
  refine ⟨faults, ?_⟩
  show joinStep vm w = _
  unfold joinStep
  rw [hdump]
  dsimp only
  rw [Cmd.bind_run_ok hobserve]
  rfl

/-- **A value gets to where it is waited for.** -/
theorem exists_arrival {P : Waiting → Prop} {p : Waiting} (hret : Returns P p) {v : Value} :
    ∀ (vm : VM) {w : World X} {s : List Value}, p = vm.below s vm.ahead → vm.stack = v :: s →
      Agrees r vm.scratch w → ∃ k vm' w' s', Steps (turnFrom host) k (vm, w) (vm', w') ∧
        vm'.stack = v :: s' ∧ P (vm'.below s' vm'.ahead) ∧ Agrees r vm'.scratch w' := by
  induction hret with
  | here hP =>
    rintro vm w s rfl hstack h
    exact ⟨0, vm, w, s, .refl _, hstack, hP, h⟩
  | @join s b d env c back hret ih =>
    intro vm w s' hp hstack h
    obtain ⟨rfl, rfl, hdump, rfl, hcode⟩ := Waiting.mk.inj hp
    obtain ⟨faults, hexec⟩ := execute_join host (machine host 0) { vm with pc := vm.pc + 1 } w
      hdump.symm
    obtain ⟨k, vm', w', s', hsteps, hrest⟩ := ih { vm with
      dump := d, c := back.c, pc := back.pc, mark := back.mark } rfl hstack (h.noted faults)
    exact ⟨k + 1, vm', w', s', .step (turnFrom_continue hcode.symm hexec) hsteps, hrest⟩
  | @rtn s b d env c back hbase hret ih =>
    intro vm w s' hp hstack h
    obtain ⟨rfl, rfl, hdump, rfl, hcode⟩ := Waiting.mk.inj hp
    obtain ⟨faults, hexec⟩ := execute_rtn host (machine host 0) { vm with pc := vm.pc + 1 } w
      hstack hdump.symm
    have hcut : VM.resize vm.stack vm.base = VM.resize s vm.base := by
      rw [hstack]
      exact resize_cons hbase
    obtain ⟨k, vm', w', s', hsteps, hrest⟩ := ih { vm with
      dump := d, stack := v :: VM.resize vm.stack vm.base, c := back.c, pc := back.pc
      env := back.env, base := back.base, mark := back.mark } (by rw [← hcut]; rfl)
      (by rw [hcut]) (h.noted faults)
    exact ⟨k + 1, vm', w', s', .step (turnFrom_continue hcode.symm hexec) hsteps, hrest⟩

end Runs

end Scheme14
