import SecdScheme.Scheme14.Calls
import SecdScheme.Scheme14.CompilerSound

/-!
# scheme14: the machine runs well-formed code

One step of the machine leads from a certified world and a well-formed machine
to a later world and a well-formed machine, by every instruction and by the
error that is handed to the handler. So does, by induction on the depth of the
recursion, the machine together with the compiler.
-/

namespace Scheme14

open Certified (world)

variable {X : Type} {g g' : Certified X} {α : Type} {vm vm' : VM}

/-! ## Faults -/

/-- A fault is no fault of a world in which an operand was cut. -/
theorem follows_noteFault (f : Fault) (h : g.world.truncated = false → False) :
    Cmd.Follows world g (noteFault f) (fun _ _ => True) := by
  let g' : Certified X := ⟨{ g.world with faults := g.world.faults ++ [f] }, g.placed,
    fun ht => (h ht).elim⟩
  exact .of_ok g' rfl (.of_frames (.refl _) rfl rfl rfl rfl rfl) trivial

theorem follows_fault {B : α → Certified X → Prop} (f : Fault) (what : String)
    (h : g.world.truncated = false → False) : Cmd.Follows world g (fault f what) B :=
  (follows_noteFault f h).bind fun _ _ _ _ => follows_internalError what

/-- **What is observed is so.** -/
theorem follows_observe {c : Prop} [Decidable c] (f : Fault)
    (h : g.world.truncated = false → c) : Cmd.Follows world g (observe c f) (fun _ _ => True) :=
  .ite (fun _ => .pure trivial) fun hc => follows_noteFault f fun ht => hc (h ht)

/-- The operands that an instruction pops are there. -/
theorem follows_needOperands {n : ℕ} (who : String)
    (h : g.world.truncated = false → vm.base + n ≤ vm.stack.length) :
    Cmd.Follows world g (needOperands vm n who) (fun _ _ => True) := by
  unfold needOperands
  dsimp only
  refine .ite_skip (B := fun _ _ => True) (fun hlt => follows_fault _ _ fun ht => ?_)
    (fun _ => trivial) fun g₁ h₁ _ => follows_observe _ fun ht => h (h₁.truncated ht)
  exact Nat.lt_irrefl _ (Nat.lt_of_lt_of_le hlt (Nat.le_trans (Nat.le_add_left n vm.base) (h ht)))

/-! ## The stack and the dump -/

theorem VM.length_resize (stack : List Value) (n : ℕ) : (VM.resize stack n).length = n := by
  unfold VM.resize
  split
  · rw [List.length_drop]
    omega
  · rw [List.length_append, List.length_replicate]
    omega

theorem follows_pushEntry (kind : EntryKind) :
    Cmd.Follows world g (pushEntry vm kind) (fun vm' _ => ∃ stamp, vm' = { vm with
      dump := ⟨vm.c, vm.pc, vm.env, vm.base, kind, stamp, vm.mark⟩ :: vm.dump
      mark := stamp }) := by
  let g' : Certified X := ⟨{ g.world with stamps := g.world.stamps + 1 }, g.placed, g.typed⟩
  exact .of_ok g' rfl (.of_frames (.refl _) rfl rfl rfl rfl rfl) ⟨_, rfl⟩

/-! ## Calls -/

/-- The closure in the scratch register is well formed. -/
def VM.ScratchOk (frames : List Frame) (vm : VM) : Prop :=
  ∀ clo, vm.scratch = some clo → ClosureOk frames clo

/-- **A machine about to call**, with so many arguments on the stack. In a tail
call the code is to return after it. -/
def VM.Calls (frames : List Frame) (vm : VM) (n : ℕ) (tail : Bool) : Prop :=
  vm.ScratchOk frames ∧ ∃ e Γ k, RegsOk frames e Γ (k + n) vm.env vm.stack vm.base vm.mark vm.dump ∧
    (tail = true → e = .rtn) ∧ CodeOk e Γ (k + 1) (vm.c.drop vm.pc)

theorem VM.Calls.mono {fs fs' : List Frame} (hext : FramesExt fs fs') {n : ℕ} {tail : Bool}
    (h : vm.Calls fs n tail) : vm.Calls fs' n tail := by
  obtain ⟨hscratch, e, Γ, k, hregs, htail, hcode⟩ := h
  exact ⟨fun clo hclo => (hscratch clo hclo).mono hext, e, Γ, k, hregs.mono hext, htail, hcode⟩

/-- **A body is entered**: by a call the entry of the call is pushed, by a tail
call the operands go, and the entry on top is still the right one. -/
theorem follows_enterCode {n : ℕ} {tail : Bool} {c : Code} {env : Option ℕ} (hvm : vm.Placed)
    (hcall : g.world.truncated = false → vm.Calls g.world.frames n tail) (hc : OneTable c)
    (hbody : g.world.truncated = false →
      ∃ Γ, EnvOk g.world.frames env Γ ∧ CodeOk .rtn Γ 0 c) :
    Cmd.Follows world g (enterCode vm (vm.stack.length - n) tail c env)
      (fun vm' g' => vm'.Sound g') := by
  unfold enterCode
  dsimp only
  refine .ite (fun htail => ?_) fun htail => ?_
  · refine .pure ⟨⟨hc, hvm.dump, hvm.scratch⟩, fun ht => ?_⟩
    obtain ⟨hscratch, e, Γ, k, hregs, he, -⟩ := hcall ht
    obtain ⟨Γ', henv, hcode⟩ := hbody ht
    obtain rfl := he htail
    exact ⟨hscratch, .rtn, Γ', 0, ⟨henv, VM.length_resize _ _, hregs.entries.env⟩, .inl hcode⟩
  · rw [Cmd.bind_assoc_run]
    refine (follows_pushEntry .call).bind fun vm' g₁ h₁ hvm' => ?_
    obtain ⟨stamp, rfl⟩ := hvm'
    rw [Cmd.pure_bind_eq]
    refine .pure ⟨⟨hc, fun back hback => ?_, hvm.scratch⟩, fun ht => ?_⟩
    · rcases List.mem_cons.mp hback with rfl | hback
      · exact hvm.code
      · exact hvm.dump back hback
    · obtain ⟨hscratch, e, Γ, k, hregs, -, hnext⟩ := (hcall (h₁.truncated ht)).mono h₁.frames
      obtain ⟨Γ', henv, hcode⟩ := hbody (h₁.truncated ht)
      refine ⟨hscratch, .rtn, Γ', 0, ⟨henv.mono h₁.frames, VM.length_resize _ _, ?_⟩, .inl hcode⟩
      -- what was below the arguments is what the caller goes on with
      have hargp : vm.stack.length - n = vm.base + k := by
        rw [hregs.operands]
        omega
      show DumpOk _ _ _ _ (vm.stack.length - n) _ _
      rw [hargp]
      exact @DumpOk.call _ _ _ ⟨vm.c, vm.pc, vm.env, vm.base, .call, stamp, vm.mark⟩ _ _ _ _ rfl
        hregs.scope hnext hregs.entries

variable {host : Host X} {self : Self X}

/-- The call of a closure. -/
theorem follows_callClosure {n : ℕ} {tail : Bool} {clo : Closure} (args : List Value)
    (hvm : vm.Placed) (hcall : g.world.truncated = false → vm.Calls g.world.frames n tail)
    (htable : OneTable clo.body)
    (hclo : g.world.truncated = false → ClosureOk g.world.frames clo) :
    Cmd.Follows world g (do
      let frame ← makeFrame clo args
      enterCode vm (vm.stack.length - n) tail clo.body (some frame))
      (fun vm' g' => vm'.Sound g') := by
  refine (follows_makeFrame clo args).bind fun a g₁ h₁ ⟨vals, ha, hlen⟩ => ?_
  refine follows_enterCode hvm (fun ht => (hcall (h₁.truncated ht)).mono h₁.frames) htable
    fun ht => ?_
  obtain ⟨Γ, henv, hbody⟩ := hclo (h₁.truncated ht)
  exact ⟨_, .cons ha hlen (henv.mono h₁.frames), hbody⟩

/-- **`eval` is entered** like a procedure, with no environment. -/
theorem follows_enterEval (hself : self.Sound) {n : ℕ} {tail : Bool} (args : List Value)
    (hvm : vm.Placed) (hcall : g.world.truncated = false → vm.Calls g.world.frames n tail) :
    Cmd.Follows world g (enterEval self vm (vm.stack.length - n) args tail)
      (fun vm' g' => vm'.Sound g') := by
  unfold enterEval
  split
  · split
    · rename_i expr _ t
      refine (follows_compileEval hself expr t).bind fun c g₁ h₁ ⟨hwithin, hcode⟩ => ?_
      exact follows_enterCode hvm (fun ht => (hcall (h₁.truncated ht)).mono h₁.frames)
        ⟨t, hwithin⟩ fun ht => ⟨[], .nil, hcode ht⟩
    · exact follows_errorAt _
  · exact follows_errorAt _

/-! ## Continuations -/

theorem within_thunkCalls {t : Table} (thunks : List Value) :
    Within t (thunks.map thunkCall).flatten :=
  within_flatten fun c hc => by
    obtain ⟨thunk, -, rfl⟩ := List.mem_map.mp hc
    exact ⟨trivial, trivial, trivial, trivial⟩

/-- Calls of thunks leave nothing. -/
theorem CodeOk.thunkCalls {e : Finish} {Γ : List ℕ} {k : ℕ} {rest : Code}
    (h : CodeOk e Γ k rest) (thunks : List Value) :
    CodeOk e Γ k ((thunks.map thunkCall).flatten ++ rest) := by
  induction thunks with
  | nil => exact h
  | cons thunk thunks ih =>
    rw [List.map_cons, List.flatten_cons, List.append_assoc]
    exact .ldc (.app (n := 0) (.pop ih))

theorem rewindCode_eq (winds want : List WindEntry) (k v : Value) :
    ∃ outs ins : List Value, rewindCode winds k want v =
      (outs.map thunkCall).flatten ++ ((ins.map thunkCall).flatten ++ [.ldc v, .ldc k, .app 1]) := by
  refine ⟨((winds.drop (commonWinds winds want)).reverse.map (·.after)),
    (want.drop (commonWinds winds want)).map (·.before), ?_⟩
  unfold rewindCode
  rw [List.append_assoc, List.map_map, List.map_map]
  rfl

theorem oneTable_rewindCode (winds want : List WindEntry) (k v : Value) :
    OneTable (rewindCode winds k want v) := by
  obtain ⟨outs, ins, heq⟩ := rewindCode_eq winds want k v
  rw [heq]
  exact ⟨.null, within_append.mpr ⟨within_thunkCalls outs, within_append.mpr
    ⟨within_thunkCalls ins, trivial, trivial, trivial, trivial⟩⟩⟩

/-- **The code that rewinds** may be put anywhere: it ends in a jump. -/
theorem codeOk_rewindCode {e : Finish} {Γ : List ℕ} {n : ℕ} (winds want : List WindEntry)
    (a : ℕ) (v : Value) : CodeOk e Γ n (rewindCode winds (.cont a) want v) := by
  obtain ⟨outs, ins, heq⟩ := rewindCode_eq winds want (.cont a) v
  rw [heq]
  exact CodeOk.thunkCalls (CodeOk.thunkCalls (.ldc .jump) ins) outs

theorem Certified.contOk {a : ℕ} {k : Cont} (h : g.world.conts[a]? = some k) :
    (OneTable k.c ∧ ∀ back ∈ k.dump, OneTable back.c) ∧
      (g.world.truncated = false → ContOk g.world.frames k) := by
  have hmem := List.mem_of_getElem? h
  exact ⟨g.placed.conts k hmem, fun ht => (g.typed ht).conts k hmem⟩

/-- **The call of a continuation** asks nothing of the code that follows. -/
theorem follows_callCont (a n : ℕ) (tail : Bool) (hvm : vm.Placed)
    (hregs : g.world.truncated = false → vm.ScratchOk g.world.frames ∧ ∃ e Γ k,
      RegsOk g.world.frames e Γ k vm.env vm.stack vm.base vm.mark vm.dump) :
    Cmd.Follows world g (doCall host self vm (.cont a) n tail) (fun vm' g' => vm'.Sound g') := by
  unfold doCall
  dsimp only
  refine follows_getState ?_
  split
  · exact follows_internalError _
  · rename_i k hk
    obtain ⟨⟨hc, hdump⟩, hcont⟩ := Certified.contOk hk
    refine .ite (fun _ => .pure ⟨⟨hc, hdump, hvm.scratch⟩, fun ht => ?_⟩) fun _ => ?_
    · obtain ⟨e, Γ, m, hk', hcode⟩ := hcont ht
      exact ⟨(hregs ht).1, e, Γ, m + 1,
        ⟨hk'.scope, congrArg (· + 1) hk'.operands, hk'.entries⟩, .inl hcode⟩
    · refine (follows_onData _).bind fun _ g₁ h₁ _ => .pure
        ⟨⟨oneTable_rewindCode _ _ _ _, hvm.dump, hvm.scratch⟩, fun ht => ?_⟩
      obtain ⟨hscratch, e, Γ, m, hm⟩ := hregs (h₁.truncated ht)
      exact ⟨fun clo hclo => (hscratch clo hclo).mono h₁.frames, e, Γ, m, hm.mono h₁.frames,
        .inl (codeOk_rewindCode _ _ a _)⟩

/-- **A call**, whatever is called. -/
theorem follows_doCall (hself : self.Sound) (callee : Value) (n : ℕ) (tail : Bool)
    (hvm : vm.Placed) (hcall : g.world.truncated = false → vm.Calls g.world.frames n tail) :
    Cmd.Follows world g (doCall host self vm callee n tail) (fun vm' g' => vm'.Sound g') := by
  cases callee with
  | prim name =>
    unfold doCall
    dsimp only
    refine .ite (fun _ => follows_enterEval hself _ hvm hcall) fun _ => ?_
    refine (follows_callPrimStep host hself name _).bind fun out g₁ h₁ _ => .pure
      ⟨⟨hvm.code, hvm.dump, hvm.scratch⟩, fun ht => ?_⟩
    obtain ⟨hscratch, e, Γ, k, hregs, -, hcode⟩ := (hcall (h₁.truncated ht)).mono h₁.frames
    refine ⟨hscratch, e, Γ, k + 1, ⟨hregs.scope, ?_, hregs.entries⟩, .inl hcode⟩
    show (VM.resize vm.stack (vm.stack.length - n)).length + 1 = vm.base + (k + 1)
    rw [VM.length_resize, hregs.operands]
    omega
  | cont a =>
    refine follows_callCont a n tail hvm fun ht => ?_
    obtain ⟨hscratch, e, Γ, k, hregs, -⟩ := hcall ht
    exact ⟨hscratch, e, Γ, k + n, hregs⟩
  | closure a =>
    unfold doCall
    dsimp only
    refine follows_getState ?_
    split
    · exact follows_internalError _
    · rename_i clo hclo
      obtain ⟨htable, htyped⟩ := Certified.closureOk hclo
      exact follows_callClosure _ hvm hcall htable htyped
  | scratch =>
    unfold doCall
    dsimp only
    split
    · exact follows_internalError _
    · rename_i clo hclo
      exact follows_callClosure _ hvm hcall (hvm.scratch clo hclo) fun ht => (hcall ht).1 clo hclo
  | _ => exact follows_errorAt _

/-! ## Instructions -/

/-- **A machine about to run an instruction**; the counter is already past it. -/
def VM.Runs (frames : List Frame) (vm : VM) (ins : Instr) : Prop :=
  vm.ScratchOk frames ∧ ∃ e Γ k, RegsOk frames e Γ k vm.env vm.stack vm.base vm.mark vm.dump ∧
    (CodeOk e Γ k (ins :: vm.c.drop vm.pc) ∨
      ∃ a v s, vm.stack = .cont a :: v :: s ∧ 2 ≤ k ∧ ins = .app 1)

/-- Only the call of a continuation may be the end of its code. -/
theorem VM.Runs.codeOk {frames : List Frame} {ins : Instr} (h : vm.Runs frames ins)
    (hins : ins ≠ .app 1) : vm.ScratchOk frames ∧ ∃ e Γ k,
      RegsOk frames e Γ k vm.env vm.stack vm.base vm.mark vm.dump ∧
        CodeOk e Γ k (ins :: vm.c.drop vm.pc) := by
  obtain ⟨hscratch, e, Γ, k, hregs, hcode | ⟨a, v, s, -, -, heq⟩⟩ := h
  · exact ⟨hscratch, e, Γ, k, hregs, hcode⟩
  · exact absurd heq hins

theorem VM.Runs.mono {fs fs' : List Frame} (hext : FramesExt fs fs') {ins : Instr}
    (h : vm.Runs fs ins) : vm.Runs fs' ins := by
  obtain ⟨hscratch, e, Γ, k, hregs, hcode⟩ := h
  exact ⟨fun clo hclo => (hscratch clo hclo).mono hext, e, Γ, k, hregs.mono hext, hcode⟩

/-- How an instruction may end. -/
def Next.Sound : Next → Certified X → Prop
  | .continue vm, g => vm.Sound g
  | .done _, _ => True

/-- **Operands replaced by one value.** -/
theorem VM.Calls.replaced {frames : List Frame} {n : ℕ} {tail : Bool} (h : vm.Calls frames n tail)
    {stack : List Value} (hlen : stack.length + n = vm.stack.length + 1) :
    ({ vm with stack := stack } : VM).WellTyped frames := by
  obtain ⟨hscratch, e, Γ, k, hregs, -, hcode⟩ := h
  refine ⟨hscratch, e, Γ, k + 1, ⟨hregs.scope, ?_, hregs.entries⟩, .inl hcode⟩
  have := hregs.operands
  show stack.length = vm.base + (k + 1)
  omega

/-- The operands of a call are there. -/
theorem VM.Calls.operands {frames : List Frame} {n : ℕ} {tail : Bool}
    (h : vm.Calls frames n tail) : vm.base + n ≤ vm.stack.length := by
  obtain ⟨-, e, Γ, k, hregs, -⟩ := h
  rw [hregs.operands]
  omega

/-- The machine after an instruction that replaces operands by one value. -/
theorem VM.sound_replaced {n : ℕ} {stack : List Value} (hvm : vm.Placed)
    (hcall : g.world.truncated = false → vm.Calls g.world.frames n false) (hle : g ≤ g')
    (hlen : vm.base + n ≤ vm.stack.length → stack.length + n = vm.stack.length + 1) :
    ({ vm with stack := stack } : VM).Sound g' := by
  refine ⟨⟨hvm.code, hvm.dump, hvm.scratch⟩, fun ht => ?_⟩
  have h := hcall (hle.truncated ht)
  exact (h.mono hle.frames).replaced (hlen h.operands)

theorem follows_setGlobal {x : Cell} (v : Value) (hx : x.table = .interaction) :
    Cmd.Follows world g (setGlobal x v) (fun _ _ => True) := by
  let g' : Certified X := ⟨{ g.world with
    globals := fun t n => if t = x.table ∧ n = x.name then some v else g.world.globals t n
    updates := g.world.updates ++ [.globalCell x v] },
    ⟨g.placed.closures, g.placed.conts, fun y u hy => ?_, g.placed.reads⟩, g.typed⟩
  · have hle : g ≤ g' := by
      refine ⟨.refl _, id, rfl, rfl, fun t ht => ⟨?_, rfl⟩⟩
      funext n
      exact if_neg fun h => ht (h.1.trans hx)
    exact .of_ok g' rfl hle trivial
  · rcases List.mem_append.mp hy with hy | hy
    · exact g.placed.updates y u hy
    · obtain ⟨rfl, -⟩ := Update.globalCell.inj (List.mem_singleton.mp hy)
      exact hx

theorem follows_setMacro {x : Cell} (v : Value) (hx : x.table = .interaction) :
    Cmd.Follows world g (Cmd.modifyState (fun w => { w with
      macros := fun t n => if t = x.table ∧ n = x.name then some v else w.macros t n }) :
        SchemeM X Unit) (fun _ _ => True) := by
  let g' : Certified X := ⟨{ g.world with
    macros := fun t n => if t = x.table ∧ n = x.name then some v else g.world.macros t n },
    g.placed, g.typed⟩
  have hle : g ≤ g' := by
    refine ⟨.refl _, id, rfl, rfl, fun t ht => ⟨rfl, ?_⟩⟩
    funext n
    exact if_neg fun h => ht (h.1.trans hx)
  exact .of_ok g' rfl hle trivial

theorem follows_setLocation (f b : ℕ) (v : Value) :
    Cmd.Follows world g (setLocation f b v) (fun _ _ => True) := by
  have hext := FramesExt.set g.world.frames f b v
  let g' : Certified X := ⟨{ g.world with
    frames := g.world.frames.modify f (fun fr => { fr with vals := fr.vals.set b v })
    updates := g.world.updates ++ [.location f b v] },
    ⟨g.placed.closures, g.placed.conts, fun y u hy => ?_, g.placed.reads⟩,
    fun ht => (g.typed ht).mono hext⟩
  · exact .of_ok g' rfl (.of_frames hext rfl rfl rfl rfl rfl) trivial
  · rcases List.mem_append.mp hy with hy | hy
    · exact g.placed.updates y u hy
    · cases List.mem_singleton.mp hy

/-- A cell is read that may be. -/
theorem follows_noteRead {read : Read} (hread : read.Placed) :
    Cmd.Follows world g (noteRead read) (fun _ _ => True) := by
  let g' : Certified X := ⟨{ g.world with reads := g.world.reads ++ [read] },
    ⟨g.placed.closures, g.placed.conts, g.placed.updates, fun r hr => ?_⟩, g.typed⟩
  · exact .of_ok g' rfl (.of_frames (.refl _) rfl rfl rfl rfl rfl) trivial
  · rcases List.mem_append.mp hr with hr | hr
    · exact g.placed.reads r hr
    · exact List.mem_singleton.mp hr ▸ hread

theorem follows_makeClosure {clo : Closure} (htable : OneTable clo.body)
    (hclo : g.world.truncated = false → ClosureOk g.world.frames clo) :
    Cmd.Follows world g (makeClosure clo) (fun _ _ => True) := by
  let g' : Certified X := ⟨{ g.world with closures := g.world.closures ++ [clo] },
    ⟨fun clo' h' => ?_, g.placed.conts, g.placed.updates, g.placed.reads⟩,
    fun ht => ⟨(g.typed ht).faults, fun clo' h' => ?_, (g.typed ht).conts⟩⟩
  · exact .of_ok g' rfl (.of_frames (.refl _) rfl rfl rfl rfl rfl) trivial
  · rcases List.mem_append.mp h' with h' | h'
    · exact g.placed.closures clo' h'
    · rw [List.mem_singleton.mp h']
      exact htable
  · rcases List.mem_append.mp h' with h' | h'
    · exact (g.typed ht).closures clo' h'
    · rw [List.mem_singleton.mp h']
      exact hclo ht

/-- **A continuation that is made** can be resumed. -/
theorem follows_makeCont (hvm : vm.Placed)
    (hcall : g.world.truncated = false → vm.Calls g.world.frames 0 false) :
    Cmd.Follows world g (makeCont vm) (fun _ _ => True) := by
  let k : Cont := ⟨vm.stack, vm.dump, g.world.data.winds, vm.c, vm.pc, vm.env, vm.base, vm.mark⟩
  let g' : Certified X := ⟨{ g.world with conts := g.world.conts ++ [k] },
    ⟨g.placed.closures, fun k' h' => ?_, g.placed.updates, g.placed.reads⟩,
    fun ht => ⟨(g.typed ht).faults, (g.typed ht).closures, fun k' h' => ?_⟩⟩
  · exact .of_ok g' rfl (.of_frames (.refl _) rfl rfl rfl rfl rfl) trivial
  · rcases List.mem_append.mp h' with h' | h'
    · exact g.placed.conts k' h'
    · rw [List.mem_singleton.mp h']
      exact ⟨hvm.code, hvm.dump⟩
  · rcases List.mem_append.mp h' with h' | h'
    · exact (g.typed ht).conts k' h'
    · rw [List.mem_singleton.mp h']
      obtain ⟨-, e, Γ, n, hregs, -, hcode⟩ := hcall ht
      exact ⟨e, Γ, n, hregs, hcode⟩

/-! ### RTN and JOIN -/

/-- **RTN** finds the entry of its own call, or ends the outermost code. -/
theorem follows_returnStep (hvm : vm.Placed)
    (hruns : g.world.truncated = false → vm.Runs g.world.frames .rtn) :
    Cmd.Follows world g (returnStep vm) Next.Sound := by
  -- what is below the value, and how the caller goes on
  have hdump : g.world.truncated = false → vm.ScratchOk g.world.frames ∧
      vm.base + 1 ≤ vm.stack.length ∧ ∃ env Γ,
        DumpOk g.world.frames .rtn env Γ vm.base vm.mark vm.dump := by
    intro ht
    obtain ⟨hscratch, e, Γ, k, hregs, hcode⟩ := (hruns ht).codeOk nofun
    cases hcode
    refine ⟨hscratch, ?_, _, Γ, hregs.entries⟩
    rw [hregs.operands]
    omega
  unfold returnStep
  dsimp only
  refine (follows_observe _ fun ht => (hdump ht).2.1).bind fun _ g₁ h₁ _ => ?_
  have hdump₁ : g₁.world.truncated = false → vm.ScratchOk g₁.world.frames ∧ ∃ env Γ,
      DumpOk g₁.world.frames .rtn env Γ vm.base vm.mark vm.dump := fun ht => by
    obtain ⟨hscratch, -, env, Γ, hd⟩ := hdump (h₁.truncated ht)
    exact ⟨fun clo hclo => (hscratch clo hclo).mono h₁.frames, env, Γ, hd.mono h₁.frames⟩
  split
  · rename_i hnil
    refine (follows_observe _ fun ht => ?_).bind fun _ _ _ _ => .pure trivial
    obtain ⟨-, env, Γ, hd⟩ := hdump₁ ht
    rw [hnil] at hd
    exact hd.mark_eq
  · rename_i back dump hcons
    rw [hcons] at hdump₁
    refine (follows_observe _ fun ht => ?_).bind fun _ g₂ h₂ _ => .pure ⟨⟨?_, ?_, hvm.scratch⟩,
      fun ht => ?_⟩
    · obtain ⟨-, env, Γ, hd⟩ := hdump₁ ht
      exact ⟨hd.call_inv.1, hd.call_inv.2.1⟩
    · exact hvm.dump back (hcons ▸ List.mem_cons_self)
    · exact fun back' h' => hvm.dump back' (hcons ▸ List.mem_cons_of_mem back h')
    · obtain ⟨hscratch, env, Γ, hd⟩ := hdump₁ (h₂.truncated ht)
      obtain ⟨-, -, e, Γ', k, hbase, henv, hcode, hd⟩ := hd.call_inv
      refine ⟨fun clo hclo => (hscratch clo hclo).mono h₂.frames, e, Γ', k + 1,
        RegsOk.mono h₂.frames ⟨henv, ?_, hd⟩, .inl hcode⟩
      show (VM.resize vm.stack vm.base).length + 1 = back.base + (k + 1)
      rw [VM.length_resize, hbase]
      rfl

/-- **JOIN** finds the entry of its own SEL. -/
theorem follows_joinStep (hvm : vm.Placed)
    (hruns : g.world.truncated = false → vm.Runs g.world.frames .join) :
    Cmd.Follows world g (joinStep vm) Next.Sound := by
  have hdump : g.world.truncated = false → vm.ScratchOk g.world.frames ∧ ∃ k Γ,
      RegsOk g.world.frames (.join k) Γ k vm.env vm.stack vm.base vm.mark vm.dump := by
    intro ht
    obtain ⟨hscratch, e, Γ, k, hregs, hcode⟩ := (hruns ht).codeOk nofun
    cases hcode
    exact ⟨hscratch, k, Γ, hregs⟩
  unfold joinStep
  split
  · rename_i hnil
    refine follows_fault _ _ fun ht => ?_
    obtain ⟨-, k, Γ, hregs⟩ := hdump ht
    obtain ⟨back, dump, hcons, -⟩ := hregs.entries.branch_inv
    exact List.cons_ne_nil _ _ (hcons.symm.trans hnil)
  · rename_i back dump hcons
    have hown : g.world.truncated = false → vm.ScratchOk g.world.frames ∧
        (back.kind = .branch ∧ back.stamp = vm.mark ∧ back.env = vm.env ∧ back.base = vm.base) ∧
        ∃ e k Γ, CodeOk e Γ k (back.c.drop back.pc) ∧
          RegsOk g.world.frames e Γ k vm.env vm.stack vm.base back.mark dump := by
      intro ht
      obtain ⟨hscratch, k, Γ, hregs⟩ := hdump ht
      obtain ⟨back', dump', hcons', hown, e, hcode, hd⟩ := hregs.entries.branch_inv
      obtain ⟨rfl, rfl⟩ := List.cons.inj (hcons.symm.trans hcons')
      exact ⟨hscratch, hown, e, k, Γ, hcode, hregs.scope, hregs.operands, hd⟩
    refine (follows_observe _ fun ht => (hown ht).2.1).bind fun _ g₁ h₁ _ => .pure
      ⟨⟨?_, ?_, hvm.scratch⟩, fun ht => ?_⟩
    · exact hvm.dump back (hcons ▸ List.mem_cons_self)
    · exact fun back' h' => hvm.dump back' (hcons ▸ List.mem_cons_of_mem back h')
    · obtain ⟨hscratch, -, e, k, Γ, hcode, hregs⟩ := hown (h₁.truncated ht)
      exact ⟨fun clo hclo => (hscratch clo hclo).mono h₁.frames, e, Γ, k, hregs.mono h₁.frames,
        .inl hcode⟩

/-! ### SEL and SELR -/

theorem follows_chooseBranch (v : Value) {ct cf : Option Code}
    (h : g.world.truncated = false → ct.isSome = true ∧ cf.isSome = true) :
    Cmd.Follows world g (chooseBranch v ct cf)
      (fun c _ => (if v.isTrue then ct else cf) = some c) := by
  unfold chooseBranch
  split
  · rename_i c hc
    exact .pure hc
  · rename_i hnone
    refine follows_fault _ _ fun ht => ?_
    obtain ⟨hct, hcf⟩ := h ht
    split at hnone
    · rw [hnone] at hct
      cases hct
    · rw [hnone] at hcf
      cases hcf

/-- What holds of both branches holds of the one that is chosen. -/
theorem chosen {P : Code → Prop} {b : Bool} {ct cf : Option Code} {c : Code}
    (hc : (if b then ct else cf) = some c) (ht : ∀ c ∈ ct, P c) (hf : ∀ c ∈ cf, P c) : P c := by
  cases b with
  | true => exact ht c hc
  | false => exact hf c hc

theorem branchWithin_iff {t : Table} {c : Option Code} :
    BranchWithin t c ↔ ∀ c' ∈ c, Within t c' := by
  cases c with
  | none => exact ⟨fun _ => nofun, fun _ => trivial⟩
  | some c => exact ⟨fun h c' hc' => Option.some.inj hc' ▸ h, fun h => h c rfl⟩

/-- **SEL** pushes an entry for what follows it. -/
theorem follows_sel {t : Table} {ct cf : Option Code} (hvm : vm.Placed)
    (hct : BranchWithin t ct) (hcf : BranchWithin t cf)
    (hruns : g.world.truncated = false → vm.Runs g.world.frames (.sel ct cf)) :
    Cmd.Follows world g (execute host self vm (.sel ct cf)) Next.Sound := by
  have hsel : ∀ {g' : Certified X}, g ≤ g' → g'.world.truncated = false →
      vm.ScratchOk g'.world.frames ∧ ct.isSome = true ∧ cf.isSome = true ∧ ∃ e Γ k,
        RegsOk g'.world.frames e Γ (k + 1) vm.env vm.stack vm.base vm.mark vm.dump ∧
        (∀ c ∈ ct, CodeOk (.join (k + 1)) Γ k c) ∧ (∀ c ∈ cf, CodeOk (.join (k + 1)) Γ k c) ∧
        CodeOk e Γ (k + 1) (vm.c.drop vm.pc) := by
    intro g' h ht
    obtain ⟨hscratch, e, Γ, k, hregs, hcode⟩ := (hruns (h.truncated ht)).codeOk nofun
    cases hcode with
    | sel hokt hokf hc =>
      exact ⟨fun clo hclo => (hscratch clo hclo).mono h.frames, rfl, rfl, e, Γ, _,
        hregs.mono h.frames, fun c hc' => Option.some.inj hc' ▸ hokt,
        fun c hc' => Option.some.inj hc' ▸ hokf, hc⟩
  unfold execute
  refine (follows_needOperands _ fun ht => ?_).bind fun _ g₁ h₁ _ => ?_
  · obtain ⟨-, -, -, e, Γ, k, hregs, -⟩ := hsel (le_refl g) ht
    rw [hregs.operands]
    omega
  refine (follows_chooseBranch _ fun ht => ?_).bind fun c g₂ h₂ hc => ?_
  · obtain ⟨-, hct, hcf, -⟩ := hsel h₁ ht
    exact ⟨hct, hcf⟩
  refine (follows_pushEntry .branch).bind fun vm' g₃ h₃ hvm' => ?_
  obtain ⟨stamp, rfl⟩ := hvm'
  refine .pure ⟨⟨⟨t, chosen hc (branchWithin_iff.mp hct) (branchWithin_iff.mp hcf)⟩,
    fun back hback => ?_, hvm.scratch⟩, fun ht => ?_⟩
  · rcases List.mem_cons.mp hback with rfl | hback
    · exact hvm.code
    · exact hvm.dump back hback
  · obtain ⟨hscratch, -, -, e, Γ, k, hregs, hct, hcf, hnext⟩ :=
      hsel (le_trans (le_trans h₁ h₂) h₃) ht
    refine ⟨hscratch, .join (k + 1), Γ, k, ⟨hregs.scope, ?_, ?_⟩, .inl (chosen hc hct hcf)⟩
    · show (vm.stack.drop 1).length = vm.base + k
      rw [List.length_drop, hregs.operands]
      omega
    · exact @DumpOk.branch _ _ ⟨vm.c, vm.pc, vm.env, vm.base, .branch, stamp, vm.mark⟩ _ _ _ rfl
        hnext hregs.entries

/-- **SELR** is a SEL whose branches return. -/
theorem follows_selr {t : Table} {ct cf : Option Code} (hvm : vm.Placed)
    (hct : BranchWithin t ct) (hcf : BranchWithin t cf)
    (hruns : g.world.truncated = false → vm.Runs g.world.frames (.selr ct cf)) :
    Cmd.Follows world g (execute host self vm (.selr ct cf)) Next.Sound := by
  have hselr : ∀ {g' : Certified X}, g ≤ g' → g'.world.truncated = false →
      vm.ScratchOk g'.world.frames ∧ ct.isSome = true ∧ cf.isSome = true ∧ ∃ Γ k,
        RegsOk g'.world.frames .rtn Γ (k + 1) vm.env vm.stack vm.base vm.mark vm.dump ∧
        (∀ c ∈ ct, CodeOk .rtn Γ k c) ∧ (∀ c ∈ cf, CodeOk .rtn Γ k c) := by
    intro g' h ht
    obtain ⟨hscratch, e, Γ, k, hregs, hcode⟩ := (hruns (h.truncated ht)).codeOk nofun
    cases hcode with
    | selr hokt hokf =>
      exact ⟨fun clo hclo => (hscratch clo hclo).mono h.frames, rfl, rfl, Γ, _,
        hregs.mono h.frames, fun c hc' => Option.some.inj hc' ▸ hokt,
        fun c hc' => Option.some.inj hc' ▸ hokf⟩
  unfold execute
  refine (follows_needOperands _ fun ht => ?_).bind fun _ g₁ h₁ _ => ?_
  · obtain ⟨-, -, -, Γ, k, hregs, -⟩ := hselr (le_refl g) ht
    rw [hregs.operands]
    omega
  refine (follows_chooseBranch _ fun ht => ?_).bind fun c g₂ h₂ hc => ?_
  · obtain ⟨-, hct, hcf, -⟩ := hselr h₁ ht
    exact ⟨hct, hcf⟩
  refine .pure ⟨⟨⟨t, chosen hc (branchWithin_iff.mp hct) (branchWithin_iff.mp hcf)⟩, hvm.dump,
    hvm.scratch⟩, fun ht => ?_⟩
  obtain ⟨hscratch, -, -, Γ, k, hregs, hct, hcf⟩ := hselr (le_trans h₁ h₂) ht
  refine ⟨hscratch, .rtn, Γ, k, ⟨hregs.scope, ?_, hregs.entries⟩, .inl (chosen hc hct hcf)⟩
  show (vm.stack.drop 1).length = vm.base + k
  rw [List.length_drop, hregs.operands]
  omega

/-! ### Calls -/

/-- **What is ready to be called**, with its arguments on the stack. In a tail call
the code is to return after it, and behind the call of a continuation there may
be no code. -/
def Call.Ready (frames : List Frame) (tail : Bool) (c : Call) : Prop :=
  c.vm.ScratchOk frames ∧ ∃ e Γ k,
    RegsOk frames e Γ (k + c.n) c.vm.env c.vm.stack c.vm.base c.vm.mark c.vm.dump ∧
      (tail = true → e = .rtn) ∧
      (CodeOk e Γ (k + 1) (c.vm.c.drop c.vm.pc) ∨ ∃ a, c.callee = .cont a)

theorem VM.Calls.ready {frames : List Frame} {n : ℕ} {tail : Bool} (h : vm.Calls frames n tail)
    (callee : Value) : Call.Ready frames tail ⟨vm, callee, n⟩ := by
  obtain ⟨hscratch, e, Γ, k, hregs, htail, hcode⟩ := h
  exact ⟨hscratch, e, Γ, k, hregs, htail, .inl hcode⟩

/-- **A call is made.** -/
theorem follows_made (hself : self.Sound) {c : Call} {tail : Bool} (hvm : c.vm.Placed)
    (hready : g.world.truncated = false → c.Ready g.world.frames tail) :
    Cmd.Follows world g (doCall host self c.vm c.callee c.n tail)
      (fun vm' g' => vm'.Sound g') := by
  by_cases hcont : ∃ a, c.callee = .cont a
  · obtain ⟨a, ha⟩ := hcont
    rw [ha]
    refine follows_callCont a c.n tail hvm fun ht => ?_
    obtain ⟨hscratch, e, Γ, k, hregs, -⟩ := hready ht
    exact ⟨hscratch, e, Γ, k + c.n, hregs⟩
  · refine follows_doCall hself c.callee c.n tail hvm fun ht => ?_
    obtain ⟨hscratch, e, Γ, k, hregs, htail, hcode⟩ := hready ht
    exact ⟨hscratch, e, Γ, k, hregs, htail, hcode.resolve_right hcont⟩

/-- `APP` and `TAPP` pop the callee. Where nothing follows, it is a continuation
with one argument. -/
theorem VM.Runs.app {frames : List Frame} {n : ℕ} {tail : Bool} {callee : Value}
    {stack : List Value} (h : vm.Runs frames (if tail then .tapp n else .app n))
    (hstack : vm.stack = callee :: stack) :
    Call.Ready frames tail ⟨{ vm with stack := stack }, callee, n⟩ := by
  obtain ⟨hscratch, e, Γ, k, hregs, hcode⟩ := h
  have hpop : ∀ {m}, k = m + n + 1 →
      RegsOk frames e Γ (m + n) vm.env stack vm.base vm.mark vm.dump := by
    rintro m rfl
    have hlen := hregs.operands
    rw [hstack] at hlen
    exact ⟨hregs.scope, Nat.succ.inj hlen, hregs.entries⟩
  refine ⟨hscratch, e, Γ, ?_⟩
  rcases hcode with hcode | ⟨a, v, s, hcont, hk, heq⟩
  · cases tail with
    | true =>
      cases hcode with
      | tapp hc => exact ⟨_, hpop rfl, fun _ => rfl, .inl hc⟩
    | false =>
      cases hcode with
      | app hc => exact ⟨_, hpop rfl, nofun, .inl hc⟩
  · obtain ⟨rfl, -⟩ := List.cons.inj (hstack.symm.trans hcont)
    cases tail with
    | true => cases heq
    | false =>
      obtain rfl := Instr.app.inj heq
      obtain ⟨m, rfl⟩ := Nat.exists_eq_add_of_le' hk
      exact ⟨m, hpop rfl, nofun, .inr ⟨a, rfl⟩⟩

theorem VM.Runs.app_operands {frames : List Frame} {n : ℕ} {tail : Bool}
    (h : vm.Runs frames (if tail then .tapp n else .app n)) :
    vm.base + (n + 1) ≤ vm.stack.length := by
  obtain ⟨-, e, Γ, k, hregs, hcode⟩ := h
  rw [hregs.operands]
  rcases hcode with hcode | ⟨a, v, s, -, hk, heq⟩
  · cases tail with
    | true => cases hcode; omega
    | false => cases hcode; omega
  · cases tail with
    | true => cases heq
    | false =>
      obtain rfl := Instr.app.inj heq
      omega

theorem VM.Calls.apply {frames : List Frame} (tail : Bool)
    (h : vm.Runs frames (if tail then .tapply else .apply)) : vm.Calls frames 2 tail := by
  cases tail with
  | true =>
    obtain ⟨hscratch, e, Γ, k, hregs, hcode⟩ := h.codeOk nofun
    cases hcode with
    | tapply hc => exact ⟨hscratch, _, Γ, _, hregs, fun _ => rfl, hc⟩
  | false =>
    obtain ⟨hscratch, e, Γ, k, hregs, hcode⟩ := h.codeOk nofun
    cases hcode with
    | apply hc => exact ⟨hscratch, _, Γ, _, hregs, nofun, hc⟩

theorem VM.Calls.callcc {frames : List Frame} (tail : Bool)
    (h : vm.Runs frames (if tail then .tcallcc else .callcc)) : vm.Calls frames 1 tail := by
  cases tail with
  | true =>
    obtain ⟨hscratch, e, Γ, k, hregs, hcode⟩ := h.codeOk nofun
    cases hcode with
    | tcallcc hc => exact ⟨hscratch, _, Γ, _, hregs, fun _ => rfl, hc⟩
  | false =>
    obtain ⟨hscratch, e, Γ, k, hregs, hcode⟩ := h.codeOk nofun
    cases hcode with
    | callcc hc => exact ⟨hscratch, _, Γ, _, hregs, nofun, hc⟩

/-- The operands of a call replaced by its arguments. -/
theorem VM.Calls.arguments {frames : List Frame} {n m : ℕ} {tail : Bool}
    (h : vm.Calls frames n tail) (args : List Value) (hm : args.length = m) :
    ({ vm with stack := args ++ vm.stack.drop n } : VM).Calls frames m tail := by
  obtain ⟨hscratch, e, Γ, k, hregs, htail, hcode⟩ := h
  refine ⟨hscratch, e, Γ, k, ⟨hregs.scope, ?_, hregs.entries⟩, htail, hcode⟩
  show (args ++ vm.stack.drop n).length = vm.base + (k + m)
  rw [List.length_append, List.length_drop, hregs.operands, hm]
  omega

/-- **What a calling instruction prepares** is ready to be called. -/
theorem follows_prepareCall {ins : Instr} {tail : Bool} (hi : ins.callMode = some tail)
    (hvm : vm.Placed) (hruns : g.world.truncated = false → vm.Runs g.world.frames ins) :
    Cmd.Follows world g (prepareCall vm ins) (fun c g' => c.vm.Placed ∧
      (g'.world.truncated = false → c.Ready g'.world.frames tail)) := by
  cases ins with
  | app n | tapp n =>
    have happ : g.world.truncated = false →
        vm.Runs g.world.frames (if tail then .tapp n else .app n) := by
      obtain rfl := Option.some.inj hi
      exact hruns
    refine (follows_needOperands _ fun ht => (happ ht).app_operands).bind fun _ g₁ h₁ _ => ?_
    split
    · exact follows_internalError _
    · rename_i callee stack hstack
      exact .pure ⟨⟨hvm.code, hvm.dump, hvm.scratch⟩, fun ht =>
        ((happ (h₁.truncated ht)).mono h₁.frames).app hstack⟩
  | apply | tapply =>
    have happly : g.world.truncated = false → vm.Calls g.world.frames 2 tail := by
      obtain rfl := Option.some.inj hi
      exact fun ht => .apply _ (hruns ht)
    refine (follows_needOperands _ fun ht => (happly ht).operands).bind
      fun _ g₁ h₁ _ => (follows_onData _).bind fun args g₂ h₂ _ => .pure
        ⟨⟨hvm.code, hvm.dump, hvm.scratch⟩, fun ht => ?_⟩
    have hle := le_trans h₁ h₂
    exact (((happly (hle.truncated ht)).mono hle.frames).arguments _ List.length_reverse).ready _
  | callcc | tcallcc =>
    have hcallcc : g.world.truncated = false → vm.Calls g.world.frames 1 tail := by
      obtain rfl := Option.some.inj hi
      exact fun ht => .callcc _ (hruns ht)
    refine (follows_needOperands _ fun ht => (hcallcc ht).operands).bind fun _ g₁ h₁ _ => ?_
    have hvm' : ({ vm with stack := vm.stack.drop 1 } : VM).Placed :=
      ⟨hvm.code, hvm.dump, hvm.scratch⟩
    refine (follows_makeCont hvm' fun ht => ?_).bind fun k g₂ h₂ _ => .pure
      ⟨⟨hvm.code, hvm.dump, hvm.scratch⟩, fun ht => ?_⟩
    · -- the continuation is that of the call, also where the call is a tail call
      obtain ⟨hscratch, e, Γ, k, hregs, -, hcode⟩ :=
        ((hcallcc (h₁.truncated ht)).mono h₁.frames).arguments [] rfl
      exact ⟨hscratch, e, Γ, k, hregs, nofun, hcode⟩
    · have hle := le_trans h₁ h₂
      exact (((hcallcc (hle.truncated ht)).mono hle.frames).arguments [k] rfl).ready _
  | _ => cases hi

/-- **The six calls.** -/
theorem follows_call (hself : self.Sound) {ins : Instr} {tail : Bool}
    (hi : ins.callMode = some tail) (hvm : vm.Placed)
    (hruns : g.world.truncated = false → vm.Runs g.world.frames ins) :
    Cmd.Follows world g (execute host self vm ins) Next.Sound := by
  rw [execute_call host self vm hi]
  exact (follows_prepareCall hi hvm hruns).bind fun c g₁ h₁ hc =>
    (follows_made hself hc.1 hc.2).bind fun vm' g₂ h₂ hvm' => .pure hvm'

/-- The instructions that look at one operand and leave one. -/
theorem VM.Runs.calls_one {frames : List Frame} {ins : Instr} (h : vm.Runs frames ins)
    (hins : ins ≠ .app 1) (hone : ∀ {e Γ k c}, CodeOk e Γ k (ins :: c) →
      ∃ m, k = m + 1 ∧ CodeOk e Γ (m + 1) c) : vm.Calls frames 1 false := by
  obtain ⟨hscratch, e, Γ, k, hregs, hcode⟩ := h.codeOk hins
  obtain ⟨m, rfl, hc⟩ := hone hcode
  exact ⟨hscratch, e, Γ, m, hregs, nofun, hc⟩

/-- `LSET`. -/
theorem follows_lset {a b : ℕ} (hvm : vm.Placed)
    (hruns : g.world.truncated = false → vm.Runs g.world.frames (.lset a b)) :
    Cmd.Follows world g (execute host self vm (.lset a b)) Next.Sound := by
  have hlset : ∀ {g' : Certified X}, g ≤ g' → g'.world.truncated = false →
      vm.Calls g'.world.frames 1 false ∧ ∃ f v, localAt g'.world.frames vm.env a b = some (f, v) := by
    intro g' h ht
    obtain ⟨hscratch, e, Γ, k, hregs, hcode⟩ := (hruns (h.truncated ht)).codeOk nofun
    cases hcode with
    | lset ha hb hc =>
      exact ⟨VM.Calls.mono h.frames ⟨hscratch, e, Γ, _, hregs, nofun, hc⟩,
        (hregs.mono h.frames).scope.localAt ha hb⟩
  unfold execute
  refine (follows_needOperands _ fun ht => (hlset (le_refl g) ht).1.operands).bind
    fun _ g₁ h₁ _ => follows_getState ?_
  split
  · rename_i hnone
    refine follows_fault _ _ fun ht => ?_
    obtain ⟨-, f, v, hv⟩ := hlset h₁ ht
    exact absurd (hnone.symm.trans hv) nofun
  · exact (follows_setLocation _ _ _).bind fun _ g₂ h₂ _ => .pure
      (VM.sound_replaced hvm (fun ht => (hlset h₁ ht).1) h₂ fun _ => rfl)

/-- `ARGS-AP`. -/
theorem follows_argsAp {n : ℕ} (hvm : vm.Placed)
    (hruns : g.world.truncated = false → vm.Runs g.world.frames (.argsAp n)) :
    Cmd.Follows world g (execute host self vm (.argsAp n)) Next.Sound := by
  have hcall : g.world.truncated = false → n ≠ 0 ∧ vm.Calls g.world.frames n false := by
    intro ht
    obtain ⟨hscratch, e, Γ, k, hregs, hcode⟩ := (hruns ht).codeOk nofun
    cases hcode with
    | argsAp hc => exact ⟨Nat.succ_ne_zero _, hscratch, e, Γ, _, hregs, nofun, hc⟩
  unfold execute
  dsimp only
  refine .ite_skip (B := fun _ _ => True) (fun hn => follows_fault _ _ fun ht => (hcall ht).1 hn)
    (fun _ => trivial) fun g₁ h₁ _ => ?_
  have hcall₁ : g₁.world.truncated = false → vm.Calls g₁.world.frames n false := fun ht =>
    (hcall (h₁.truncated ht)).2.mono h₁.frames
  refine (follows_needOperands _ fun ht => (hcall₁ ht).operands).bind fun _ g₂ h₂ _ => ?_
  refine (follows_onData _).bind fun acc g₃ h₃ _ => (follows_onData _).bind fun l g₄ h₄ _ => .pure
    (VM.sound_replaced hvm hcall₁ (le_trans (le_trans h₂ h₃) h₄) fun hlen => ?_)
  rw [List.length_cons, List.length_drop]
  omega

/-! ### The other instructions -/

/-- `LD`. -/
theorem follows_ld {a b : ℕ} (hvm : vm.Placed)
    (hruns : g.world.truncated = false → vm.Runs g.world.frames (.ld a b)) :
    Cmd.Follows world g (execute host self vm (.ld a b)) Next.Sound := by
  have hld : g.world.truncated = false → vm.Calls g.world.frames 0 false ∧
      ∃ f v, localAt g.world.frames vm.env a b = some (f, v) := by
    intro ht
    obtain ⟨hscratch, e, Γ, k, hregs, hcode⟩ := (hruns ht).codeOk nofun
    cases hcode with
    | ld ha hb hc => exact ⟨⟨hscratch, e, Γ, k, hregs, nofun, hc⟩, hregs.scope.localAt ha hb⟩
  unfold execute
  refine follows_getState ?_
  split
  · rename_i hnone
    refine follows_fault _ _ fun ht => ?_
    obtain ⟨-, f, v, hv⟩ := hld ht
    exact absurd (hnone.symm.trans hv) nofun
  · exact .pure (VM.sound_replaced hvm (fun ht => (hld ht).1) (le_refl g) fun _ => rfl)

/-- `LDC`: also the constant before the call of a continuation, which stands
behind code that is checked no further. -/
theorem follows_ldc {v : Value} (hvm : vm.Placed)
    (hruns : g.world.truncated = false → vm.Runs g.world.frames (.ldc v)) :
    Cmd.Follows world g (execute host self vm (.ldc v)) Next.Sound := by
  refine .pure ⟨⟨hvm.code, hvm.dump, hvm.scratch⟩, fun ht => ?_⟩
  obtain ⟨hscratch, e, Γ, k, hregs, hcode⟩ := (hruns ht).codeOk nofun
  generalize hrest : vm.c.drop vm.pc = rest at hcode
  cases hcode with
  | ldc hc =>
    have hcall : vm.Calls g.world.frames 0 false :=
      ⟨hscratch, e, Γ, k, hregs, nofun, hrest ▸ hc⟩
    exact hcall.replaced rfl
  | @jump _ _ k a =>
    -- the continuation is on the stack, and only its call is left
    obtain ⟨v, s, hstack⟩ : ∃ v s, vm.stack = v :: s :=
      List.exists_cons_of_ne_nil fun hnil => by
        have := hregs.operands
        rw [hnil, List.length_nil] at this
        omega
    refine ⟨hscratch, e, Γ, k + 2, ⟨hregs.scope, ?_, hregs.entries⟩,
      .inr ⟨a, v, s, congrArg _ hstack, Nat.le_add_left 2 k, hrest⟩⟩
    exact congrArg (· + 1) hregs.operands

/-- `LDG`. -/
theorem follows_ldg {x : Cell} (hvm : vm.Placed) (hc : Within x.table vm.c)
    (hruns : g.world.truncated = false → vm.Runs g.world.frames (.ldg x)) :
    Cmd.Follows world g (execute host self vm (.ldg x)) Next.Sound := by
  have hcall : g.world.truncated = false → vm.Calls g.world.frames 0 false := by
    intro ht
    obtain ⟨hscratch, e, Γ, k, hregs, hcode⟩ := (hruns ht).codeOk nofun
    cases hcode with
    | ldg hc => exact ⟨hscratch, e, Γ, k, hregs, nofun, hc⟩
  unfold execute
  have hread : (Read.instruction vm.c x).Placed := hc
  refine (follows_noteRead hread).bind fun _ g₁ h₁ _ => follows_getState ?_
  split
  · exact follows_errorAt _
  · exact .pure (VM.sound_replaced hvm hcall h₁ fun _ => rfl)

/-- `LDF`: a closure on the heap, or the one in the scratch register. -/
theorem follows_ldf {params : List String} {rest : Option String} {body : Code} {noAlloc : Bool}
    (hvm : vm.Placed) (htable : OneTable body)
    (hruns : g.world.truncated = false → vm.Runs g.world.frames (.ldf params rest body noAlloc)) :
    Cmd.Follows world g (execute host self vm (.ldf params rest body noAlloc)) Next.Sound := by
  let clo : Closure := ⟨params, rest, body, vm.env⟩
  have hldf : g.world.truncated = false → vm.Calls g.world.frames 0 false ∧
      ClosureOk g.world.frames clo := by
    intro ht
    obtain ⟨hscratch, e, Γ, k, hregs, hcode⟩ := (hruns ht).codeOk nofun
    cases hcode with
    | ldf hbody hc => exact ⟨⟨hscratch, e, Γ, k, hregs, nofun, hc⟩, Γ, hregs.scope, hbody⟩
  cases noAlloc with
  | true =>
    refine .pure ⟨⟨hvm.code, hvm.dump, fun clo' hclo => ?_⟩, fun ht => ?_⟩
    · obtain rfl := Option.some.inj hclo
      exact htable
    · have hpush : (vm.push .scratch).WellTyped g.world.frames := (hldf ht).1.replaced rfl
      exact ⟨fun clo' hclo => Option.some.inj hclo ▸ (hldf ht).2, hpush.2⟩
  | false =>
    exact (follows_makeClosure htable fun ht => (hldf ht).2).bind fun v g₁ h₁ _ =>
      .pure (VM.sound_replaced hvm (fun ht => (hldf ht).1) h₁ fun _ => rfl)

/-- `POP`. -/
theorem follows_pop (hvm : vm.Placed)
    (hruns : g.world.truncated = false → vm.Runs g.world.frames .pop) :
    Cmd.Follows world g (execute host self vm .pop) Next.Sound := by
  have hpop : g.world.truncated = false → vm.ScratchOk g.world.frames ∧ ∃ e Γ k,
      RegsOk g.world.frames e Γ (k + 1) vm.env vm.stack vm.base vm.mark vm.dump ∧
        CodeOk e Γ k (vm.c.drop vm.pc) := by
    intro ht
    obtain ⟨hscratch, e, Γ, k, hregs, hcode⟩ := (hruns ht).codeOk nofun
    cases hcode with
    | pop hc => exact ⟨hscratch, e, Γ, _, hregs, hc⟩
  refine (follows_needOperands _ fun ht => ?_).bind fun _ g₁ h₁ _ => .pure
    ⟨⟨hvm.code, hvm.dump, hvm.scratch⟩, fun ht => ?_⟩
  · obtain ⟨-, e, Γ, k, hregs, -⟩ := hpop ht
    rw [hregs.operands]
    omega
  · obtain ⟨hscratch, e, Γ, k, hregs, hcode⟩ := hpop (h₁.truncated ht)
    refine ⟨fun clo hclo => (hscratch clo hclo).mono h₁.frames, e, Γ, k,
      RegsOk.mono h₁.frames ⟨hregs.scope, ?_, hregs.entries⟩, .inl hcode⟩
    show (vm.stack.drop 1).length = vm.base + k
    rw [List.length_drop, hregs.operands]
    rfl

/-- A definition, or an assignment of a global variable, leaves one operand. -/
theorem follows_store {who : String} {stack : List Value} {f : SchemeM X Unit} (hvm : vm.Placed)
    (hcall : g.world.truncated = false → vm.Calls g.world.frames 1 false)
    (hlen : vm.base + 1 ≤ vm.stack.length → stack.length + 1 = vm.stack.length + 1)
    (hf : ∀ g' : Certified X, Cmd.Follows world g' f (fun _ _ => True)) :
    Cmd.Follows world g (do
      needOperands vm 1 who
      f
      return .continue { vm with stack := stack }) Next.Sound :=
  (follows_needOperands _ fun ht => (hcall ht).operands).bind fun _ g₁ h₁ _ =>
    (hf g₁).bind fun _ _ h₂ _ => .pure (VM.sound_replaced hvm hcall (le_trans h₁ h₂) hlen)

/-- `DEF`, `DEFM` and `GSET` look at the value on the stack. -/
theorem VM.Runs.stores {frames : List Frame} {ins : Instr} {x : Cell}
    (h : ins = .defG x ∨ ins = .defm x ∨ ins = .gset x) (hruns : vm.Runs frames ins) :
    vm.Calls frames 1 false := by
  refine hruns.calls_one (by rcases h with rfl | rfl | rfl <;> exact nofun) ?_
  intro e Γ k c hcode
  rcases h with rfl | rfl | rfl
  · cases hcode with
    | defG hc => exact ⟨_, rfl, hc⟩
  · cases hcode with
    | defm hc => exact ⟨_, rfl, hc⟩
  · cases hcode with
    | gset hc => exact ⟨_, rfl, hc⟩

/-- What `DEF` and `DEFM` leave: the name in the place of the value. -/
theorem VM.length_replaced {v : Value} (h : vm.base + 1 ≤ vm.stack.length) :
    (v :: vm.stack.drop 1).length + 1 = vm.stack.length + 1 := by
  rw [List.length_cons, List.length_drop]
  omega

/-- `DEFM`: the macro first, then the name. -/
theorem follows_defm {x : Cell} (hvm : vm.Placed) (hx : x.table = .interaction)
    (hruns : g.world.truncated = false → vm.Runs g.world.frames (.defm x)) :
    Cmd.Follows world g (execute host self vm (.defm x)) Next.Sound := by
  have hcall : g.world.truncated = false → vm.Calls g.world.frames 1 false :=
    fun ht => (hruns ht).stores (.inr (.inl rfl))
  refine (follows_needOperands _ fun ht => (hcall ht).operands).bind fun _ g₁ h₁ _ => ?_
  refine (follows_setMacro _ hx).bind fun _ g₂ h₂ _ => (follows_setGlobal _ hx).bind
    fun _ g₃ h₃ _ => .pure (VM.sound_replaced hvm hcall (le_trans (le_trans h₁ h₂) h₃)
      VM.length_replaced)

/-- **One instruction.** -/
theorem follows_execute (hself : self.Sound) {t : Table} {ins : Instr} (hvm : vm.Placed)
    (hc : Within t vm.c) (hins : ins.Within t)
    (hruns : g.world.truncated = false → vm.Runs g.world.frames ins) :
    Cmd.Follows world g (execute host self vm ins) Next.Sound := by
  cases ins with
  | ld a b => exact follows_ld hvm hruns
  | ldc v => exact follows_ldc hvm hruns
  | ldg x => exact follows_ldg hvm (show Within x.table vm.c from hins ▸ hc) hruns
  | ldf params rest body noAlloc => exact follows_ldf hvm ⟨t, hins⟩ hruns
  | app n => exact follows_call hself rfl hvm hruns
  | tapp n => exact follows_call hself rfl hvm hruns
  | argsAp n => exact follows_argsAp hvm hruns
  | apply => exact follows_call hself rfl hvm hruns
  | tapply => exact follows_call hself rfl hvm hruns
  | rtn => exact follows_returnStep hvm hruns
  | sel ct cf => exact follows_sel hvm hins.1 hins.2 hruns
  | selr ct cf => exact follows_selr hvm hins.1 hins.2 hruns
  | join => exact follows_joinStep hvm hruns
  | pop => exact follows_pop hvm hruns
  | defG x =>
    obtain ⟨hx, rfl⟩ := hins
    exact follows_store hvm (fun ht => (hruns ht).stores (.inl rfl)) VM.length_replaced
      fun _ => follows_setGlobal _ hx
  | defm x =>
    obtain ⟨hx, rfl⟩ := hins
    exact follows_defm hvm hx hruns
  | lset a b => exact follows_lset hvm hruns
  | gset x =>
    obtain ⟨hx, rfl⟩ := hins
    exact follows_store hvm (fun ht => (hruns ht).stores (.inr (.inr rfl))) (fun _ => rfl)
      fun _ => follows_setGlobal _ hx
  | callcc => exact follows_call hself rfl hvm hruns
  | tcallcc => exact follows_call hself rfl hvm hruns
  | stop => exact .pure trivial

/-! ## Errors and the loop -/

/-- **The machine that an error leaves**: the code stops the machine, and what
is on the dump is not asked for. -/
theorem follows_abandonToRaise (message : Message) (hvm : vm.Placed)
    (hscratch : g.world.truncated = false → vm.ScratchOk g.world.frames) :
    Cmd.Follows world g (abandonToRaise vm message) (fun vm' g' => vm'.Sound g') := by
  unfold abandonToRaise
  have hread : (Read.handOver vm.c ⟨.interaction, "raise"⟩).Placed := rfl
  refine (follows_noteRead hread).bind fun _ g₁ h₁ _ => follows_getState ?_
  split
  · exact follows_internalError _
  · refine (follows_onData _).bind fun _ g₂ h₂ _ => .pure
      ⟨⟨⟨.null, trivial, trivial, trivial, trivial, trivial⟩, hvm.dump, hvm.scratch⟩, fun ht => ?_⟩
    have hle := le_trans h₁ h₂
    refine ⟨fun clo hclo => (hscratch (hle.truncated ht) clo hclo).mono hle.frames, .stop, [], 0,
      ⟨.nil, rfl, .stop⟩, .inl ?_⟩
    exact .ldc (.ldc (.app (n := 1) .stop))

/-- An error ends the machine or is handed over, in the world it left. -/
theorem handOver_error {m : SchemeM X Next} {w w' : World X} {e : Err}
    (h : m w = (.error e, w')) : handOver vm m w = (.error e, w') ∨ ∃ message,
      handOver vm m w = (do return .continue (← abandonToRaise vm message) : SchemeM X Next) w' := by
  unfold handOver
  rw [h]
  dsimp only
  split
  · exact .inl rfl
  · rename_i message _
    split
    · exact .inl rfl
    · exact .inr ⟨message, rfl⟩

/-- **An error that is handed over** leaves a well-formed machine. -/
theorem follows_handOver {m : SchemeM X Next} (hvm : vm.Placed)
    (hscratch : g.world.truncated = false → vm.ScratchOk g.world.frames)
    (hm : Cmd.Follows world g m Next.Sound) : Cmd.Follows world g (handOver vm m) Next.Sound := by
  rcases hm.outcomes with ⟨next, g₁, hrun, h₁, hnext⟩ | ⟨e, g₁, hrun, h₁⟩
  · refine .of_ok g₁ ?_ h₁ hnext
    unfold handOver
    rw [hrun]
  · rcases @handOver_error X vm _ _ _ _ hrun with hover | ⟨message, hover⟩
    · exact .of_error g₁ hover h₁
    · -- the machine goes on in the world the failed instruction left
      have hraise := (follows_abandonToRaise message hvm (g := g₁) fun ht clo hclo =>
        (hscratch (h₁.truncated ht) clo hclo).mono h₁.frames).bind
          fun vm' g' _ hvm' => Cmd.Follows.pure (B := Next.Sound) (a := .continue vm') hvm'
      rcases hraise.outcomes with ⟨next, g₂, hrun₂, h₂, hnext⟩ | ⟨e₂, g₂, hrun₂, h₂⟩
      · exact .of_ok g₂ (hover.trans hrun₂) (le_trans h₁ h₂) hnext
      · exact .of_error g₂ (hover.trans hrun₂) (le_trans h₁ h₂)

/-- **One turn of the loop.** -/
theorem follows_loopStep (hself : self.Sound) (hvm : vm.Sound g) :
    Cmd.Follows world g (loopStep host self vm) (fun _ _ => True) := by
  unfold loopStep
  split
  · rename_i hnone
    refine follows_fault _ _ fun ht => ?_
    obtain ⟨-, e, Γ, k, -, hcode⟩ := hvm.typed ht
    have hdrop : vm.c.drop vm.pc = [] := List.drop_eq_nil_of_le (List.getElem?_eq_none_iff.mp hnone)
    rcases hcode with hcode | ⟨a, v, s, -, -, hcode⟩
    · exact hcode.ne_nil hdrop
    · exact List.cons_ne_nil _ _ (hcode.symm.trans hdrop)
  · rename_i ins hins
    obtain ⟨t, hwithin⟩ := hvm.placed.code
    have hplaced : ({ vm with pc := vm.pc + 1 } : VM).Placed :=
      ⟨hvm.placed.code, hvm.placed.dump, hvm.placed.scratch⟩
    have hruns : g.world.truncated = false →
        ({ vm with pc := vm.pc + 1 } : VM).Runs g.world.frames ins := by
      intro ht
      obtain ⟨hscratch, e, Γ, k, hregs, hcode⟩ := hvm.typed ht
      obtain ⟨hlt, hget⟩ := List.getElem?_eq_some_iff.mp hins
      have hdrop : vm.c.drop vm.pc = ins :: vm.c.drop (vm.pc + 1) := by
        rw [List.drop_eq_getElem_cons hlt, hget]
      rw [hdrop] at hcode
      refine ⟨hscratch, e, Γ, k, hregs, hcode.imp id ?_⟩
      rintro ⟨a, v, s, hstack, hk, heq⟩
      exact ⟨a, v, s, hstack, hk, (List.cons.inj heq).1⟩
    refine (follows_handOver hplaced (fun ht => (hruns ht).1) (follows_execute hself hplaced hwithin
      (within_of_getElem? hwithin hins) hruns)).bind fun next g₁ h₁ hnext => ?_
    cases next with
    | «continue» vm' => exact hself.loop g₁ vm' hnext
    | done v => exact .pure trivial

/-- **The compiler and the machine** keep worlds certified, to every depth of
recursion. -/
theorem machine_sound (host : Host X) : ∀ n, (machine host n).Sound
  | 0 => ⟨fun _ _ _ _ => .fail, fun _ _ _ => .fail, fun _ _ _ => .fail⟩
  | n + 1 =>
    have ih := machine_sound host n
    ⟨fun _ expr env tail => follows_compStep ih expr env tail,
      fun _ _ hvm => follows_loopStep ih hvm,
      fun _ name args => follows_callPrimStep host ih name args⟩

end Scheme14
