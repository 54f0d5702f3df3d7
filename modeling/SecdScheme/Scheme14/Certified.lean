import SecdScheme.Scheme14.CodeTyping
import SecdScheme.Lib.CmdGhost

/-!
# scheme14: certified worlds

What holds of the world between any two steps of the compiler and the
machine. Every code vector there is, in a closure or in a continuation, is of
one table; only cells of the interaction environment are changed, and a cell
is read by code of its own table. If no operand was ever cut, then no fault
has been noted and every closure and every continuation is well formed, for
the frames there are.

The worlds are ordered: in a later one the frames are still there, with their
sizes, and the tables of the report and of the empty environment, the table
the compiler looks into and the depth of the runs are the same.
-/

namespace Scheme14

variable {X : Type}

/-! ## Environments -/

/-- Frames that are still there, of the same size. -/
def FramesExt (frames frames' : List Frame) : Prop :=
  ∀ (a : ℕ) f, frames[a]? = some f →
    ∃ f', frames'[a]? = some f' ∧ f'.next = f.next ∧ f'.vals.length = f.vals.length

theorem FramesExt.refl (frames : List Frame) : FramesExt frames frames :=
  fun _ f h => ⟨f, h, rfl, rfl⟩

theorem FramesExt.trans {fs fs' fs'' : List Frame} (h : FramesExt fs fs')
    (h' : FramesExt fs' fs'') : FramesExt fs fs'' := by
  intro a f hf
  obtain ⟨f', hf', hnext, hlen⟩ := h a f hf
  obtain ⟨f'', hf'', hnext', hlen'⟩ := h' a f' hf'
  exact ⟨f'', hf'', hnext'.trans hnext, hlen'.trans hlen⟩

theorem FramesExt.append (fs fs' : List Frame) : FramesExt fs (fs ++ fs') := by
  intro a f hf
  obtain ⟨hlt, -⟩ := List.getElem?_eq_some_iff.mp hf
  exact ⟨f, (List.getElem?_append_left hlt).trans hf, rfl, rfl⟩

theorem FramesExt.set (fs : List Frame) (a b : ℕ) (v : Value) :
    FramesExt fs (fs.modify a fun fr => { fr with vals := fr.vals.set b v }) := by
  intro a' f hf
  by_cases ha : a = a'
  · subst ha
    refine ⟨{ f with vals := f.vals.set b v }, ?_, rfl, List.length_set⟩
    rw [List.getElem?_modify_eq, hf]
    rfl
  · exact ⟨f, (List.getElem?_modify_ne _ _ ha).trans hf, rfl, rfl⟩

/-- **An environment has frames of these sizes**, and perhaps more. -/
inductive EnvOk (frames : List Frame) : Option ℕ → List ℕ → Prop
  | nil {env} : EnvOk frames env []
  | cons {a f n Γ} : frames[a]? = some f → f.vals.length = n → EnvOk frames f.next Γ →
      EnvOk frames (some a) (n :: Γ)

theorem EnvOk.mono {fs fs' : List Frame} (hext : FramesExt fs fs') {env : Option ℕ} {Γ : List ℕ}
    (h : EnvOk fs env Γ) : EnvOk fs' env Γ := by
  induction h with
  | nil => exact .nil
  | cons hf hlen _ ih =>
    obtain ⟨f', hf', hnext, hlen'⟩ := hext _ _ hf
    exact .cons hf' (hlen'.trans hlen) (by rw [hnext]; exact ih)

/-- **A variable in scope is there.** -/
theorem EnvOk.localAt {frames : List Frame} {env : Option ℕ} {Γ : List ℕ} {a b n : ℕ}
    (h : EnvOk frames env Γ) (ha : Γ[a]? = some n) (hb : b < n) :
    ∃ f v, localAt frames env a b = some (f, v) := by
  induction h generalizing a with
  | nil => cases ha
  | @cons addr f m Γ hf hlen _ ih =>
    cases a with
    | zero =>
      obtain rfl : m = n := Option.some.inj ha
      rw [← hlen] at hb
      refine ⟨addr, f.vals[b], ?_⟩
      simp only [Scheme14.localAt, envAt, Option.bind_eq_bind, Option.bind_some, hf,
        List.getElem?_eq_getElem hb, Option.pure_def]
    | succ a =>
      obtain ⟨f', v, hv⟩ := ih ha
      refine ⟨f', v, ?_⟩
      have henv : envAt frames (some addr) (a + 1) = envAt frames f.next a := by
        rw [envAt, hf]
      unfold Scheme14.localAt at hv ⊢
      rw [henv]
      exact hv

/-! ## Closures, continuations and the dump -/

/-- A closure whose body is well formed where it was made. -/
def ClosureOk (frames : List Frame) (clo : Closure) : Prop :=
  ∃ Γ, EnvOk frames clo.env Γ ∧
    CodeOk .rtn ((clo.params.length + clo.rest.toList.length) :: Γ) 0 clo.body

/-- **The dump fits how the code finishes**: code that returns from a call has
the entry of its own call on top, and code that joins the entry of its own
SEL. Nothing is asked below the code that stops the machine. -/
inductive DumpOk (frames : List Frame) : Finish → Option ℕ → List ℕ → ℕ → ℕ → List DumpEntry → Prop
  | stop {env Γ base mark dump} : DumpOk frames .stop env Γ base mark dump
  | outermost {env Γ base} : DumpOk frames .rtn env Γ base 0 []
  | call {env Γ} {back : DumpEntry} {dump e Γ' k} : back.kind = .call →
      EnvOk frames back.env Γ' → CodeOk e Γ' (k + 1) (back.c.drop back.pc) →
      DumpOk frames e back.env Γ' back.base back.mark dump →
      DumpOk frames .rtn env Γ (back.base + k) back.stamp (back :: dump)
  | branch {Γ} {back : DumpEntry} {dump e k} : back.kind = .branch →
      CodeOk e Γ k (back.c.drop back.pc) →
      DumpOk frames e back.env Γ back.base back.mark dump →
      DumpOk frames (.join k) back.env Γ back.base back.stamp (back :: dump)

theorem DumpOk.mono {fs fs' : List Frame} (hext : FramesExt fs fs') {e : Finish}
    {env : Option ℕ} {Γ : List ℕ} {base mark : ℕ} {dump : List DumpEntry}
    (h : DumpOk fs e env Γ base mark dump) : DumpOk fs' e env Γ base mark dump := by
  induction h with
  | stop => exact .stop
  | outermost => exact .outermost
  | call hkind henv hcode _ ih => exact .call hkind (henv.mono hext) hcode ih
  | branch hkind hcode _ ih => exact .branch hkind hcode ih

/-- The outermost code has no mark. -/
theorem DumpOk.mark_eq {fs : List Frame} {env : Option ℕ} {Γ : List ℕ} {base mark : ℕ}
    (h : DumpOk fs .rtn env Γ base mark []) : mark = 0 := by
  cases h
  rfl

/-- **The entry that RTN takes** is that of its own call. -/
theorem DumpOk.call_inv {fs : List Frame} {env : Option ℕ} {Γ : List ℕ} {base mark : ℕ}
    {back : DumpEntry} {dump : List DumpEntry} (h : DumpOk fs .rtn env Γ base mark (back :: dump)) :
    back.kind = .call ∧ back.stamp = mark ∧ ∃ e Γ' k, base = back.base + k ∧
      EnvOk fs back.env Γ' ∧ CodeOk e Γ' (k + 1) (back.c.drop back.pc) ∧
      DumpOk fs e back.env Γ' back.base back.mark dump := by
  cases h with
  | call hkind henv hcode hdump => exact ⟨hkind, rfl, _, _, _, rfl, henv, hcode, hdump⟩

/-- **The entry that JOIN takes** is that of its own SEL. -/
theorem DumpOk.branch_inv {fs : List Frame} {k : ℕ} {env : Option ℕ} {Γ : List ℕ} {base mark : ℕ}
    {dump : List DumpEntry} (h : DumpOk fs (.join k) env Γ base mark dump) :
    ∃ back dump', dump = back :: dump' ∧
      (back.kind = .branch ∧ back.stamp = mark ∧ back.env = env ∧ back.base = base) ∧
      ∃ e, CodeOk e Γ k (back.c.drop back.pc) ∧ DumpOk fs e env Γ base back.mark dump' := by
  cases h with
  | branch hkind hcode hdump => exact ⟨_, _, rfl, ⟨hkind, rfl, rfl, rfl⟩, _, hcode, hdump⟩

/-- Code that returns may change its environment. -/
theorem DumpOk.env {fs : List Frame} {env env' : Option ℕ} {Γ Γ' : List ℕ} {base mark : ℕ}
    {dump : List DumpEntry} (h : DumpOk fs .rtn env Γ base mark dump) :
    DumpOk fs .rtn env' Γ' base mark dump := by
  cases h with
  | outermost => exact .outermost
  | call hkind henv hcode hdump => exact .call hkind henv hcode hdump

/-- The registers around the code, for so many operands. -/
structure RegsOk (frames : List Frame) (e : Finish) (Γ : List ℕ) (k : ℕ) (env : Option ℕ)
    (stack : List Value) (base mark : ℕ) (dump : List DumpEntry) : Prop where
  scope : EnvOk frames env Γ
  operands : stack.length = base + k
  entries : DumpOk frames e env Γ base mark dump

theorem RegsOk.mono {fs fs' : List Frame} (hext : FramesExt fs fs') {e : Finish} {Γ : List ℕ}
    {k : ℕ} {env : Option ℕ} {stack : List Value} {base mark : ℕ} {dump : List DumpEntry}
    (h : RegsOk fs e Γ k env stack base mark dump) : RegsOk fs' e Γ k env stack base mark dump :=
  ⟨h.scope.mono hext, h.operands, h.entries.mono hext⟩

/-- A continuation that can be resumed with one value. -/
def ContOk (frames : List Frame) (k : Cont) : Prop :=
  ∃ e Γ n, RegsOk frames e Γ n k.env k.stack k.base k.mark k.dump ∧
    CodeOk e Γ (n + 1) (k.c.drop k.pc)

theorem ClosureOk.mono {fs fs' : List Frame} (hext : FramesExt fs fs') {clo : Closure}
    (h : ClosureOk fs clo) : ClosureOk fs' clo := by
  obtain ⟨Γ, henv, hbody⟩ := h
  exact ⟨Γ, henv.mono hext, hbody⟩

theorem ContOk.mono {fs fs' : List Frame} (hext : FramesExt fs fs') {k : Cont}
    (h : ContOk fs k) : ContOk fs' k := by
  obtain ⟨e, Γ, n, hregs, hcode⟩ := h
  exact ⟨e, Γ, n, hregs.mono hext, hcode⟩

/-! ## Worlds -/

/-- A read that may be: an instruction reads a cell of the table of its code, and an
error is handed to `raise` as the interaction environment has it. -/
def Read.Placed : Read → Prop
  | .instruction c x => Within x.table c
  | .handOver _ x => x = ⟨.interaction, "raise"⟩

/-- Code vectors of one table each; cells changed and cells read. -/
structure Placed (closures : List Closure) (conts : List Cont) (updates : List Update)
    (reads : List Read) : Prop where
  closures : ∀ clo ∈ closures, OneTable clo.body
  conts : ∀ k ∈ conts, OneTable k.c ∧ ∀ back ∈ k.dump, OneTable back.c
  updates : ∀ x v, .globalCell x v ∈ updates → x.table = .interaction
  reads : ∀ read ∈ reads, read.Placed

/-- No fault, and everything well formed. -/
structure WellTyped (faults : List Fault) (frames : List Frame) (closures : List Closure)
    (conts : List Cont) : Prop where
  faults : faults = []
  closures : ∀ clo ∈ closures, ClosureOk frames clo
  conts : ∀ k ∈ conts, ContOk frames k

theorem WellTyped.mono {fs fs' : List Frame} (hext : FramesExt fs fs') {faults : List Fault}
    {closures : List Closure} {conts : List Cont} (h : WellTyped faults fs closures conts) :
    WellTyped faults fs' closures conts :=
  ⟨h.faults, fun clo hclo => (h.closures clo hclo).mono hext,
    fun k hk => (h.conts k hk).mono hext⟩

/-- **A certified world.** -/
structure Certified (X : Type) where
  world : World X
  placed : Placed world.closures world.conts world.updates world.reads
  typed : world.truncated = false →
    WellTyped world.faults world.frames world.closures world.conts

/-- What a later world keeps. -/
structure World.Later (w w' : World X) : Prop where
  frames : FramesExt w.frames w'.frames
  truncated : w'.truncated = false → w.truncated = false
  compileTable : w'.compileTable = w.compileTable
  runDepth : w'.runDepth = w.runDepth
  frozen : ∀ t ≠ .interaction, w'.globals t = w.globals t ∧ w'.macros t = w.macros t

theorem World.Later.refl (w : World X) : w.Later w :=
  ⟨.refl _, id, rfl, rfl, fun _ _ => ⟨rfl, rfl⟩⟩

theorem World.Later.trans {w w' w'' : World X} (h : w.Later w') (h' : w'.Later w'') :
    w.Later w'' :=
  ⟨h.frames.trans h'.frames, fun ht => h.truncated (h'.truncated ht),
    h'.compileTable.trans h.compileTable, h'.runDepth.trans h.runDepth,
    fun t ht => ⟨(h'.frozen t ht).1.trans (h.frozen t ht).1,
      (h'.frozen t ht).2.trans (h.frozen t ht).2⟩⟩

/-- A world whose frames and tables are the same. -/
theorem World.Later.of_frames {w w' : World X} (hframes : FramesExt w.frames w'.frames)
    (htruncated : w'.truncated = w.truncated) (htable : w'.compileTable = w.compileTable)
    (hdepth : w'.runDepth = w.runDepth) (hglobals : w'.globals = w.globals)
    (hmacros : w'.macros = w.macros) : w.Later w' :=
  ⟨hframes, fun ht => htruncated ▸ ht, htable, hdepth,
    fun t _ => ⟨congrFun hglobals t, congrFun hmacros t⟩⟩

namespace Certified

instance : Preorder (Certified X) where
  le g g' := g.world.Later g'.world
  le_refl g := .refl g.world
  le_trans _ _ _ := .trans

theorem closureOk {g : Certified X} {a : ℕ} {clo : Closure} (h : g.world.closures[a]? = some clo) :
    OneTable clo.body ∧ (g.world.truncated = false → ClosureOk g.world.frames clo) := by
  have hmem := List.mem_of_getElem? h
  exact ⟨g.placed.closures clo hmem, fun ht => (g.typed ht).closures clo hmem⟩

end Certified

/-! ## Machines -/

/-- The code vectors of a machine are of one table each. -/
structure VM.Placed (vm : VM) : Prop where
  code : OneTable vm.c
  dump : ∀ back ∈ vm.dump, OneTable back.c
  scratch : ∀ clo, vm.scratch = some clo → OneTable clo.body

/-- **A well-formed machine**: its code is well formed for the operands and the
environment there are, or all that is left is the call of a continuation. -/
def VM.WellTyped (frames : List Frame) (vm : VM) : Prop :=
  (∀ clo, vm.scratch = some clo → ClosureOk frames clo) ∧
    ∃ e Γ k, RegsOk frames e Γ k vm.env vm.stack vm.base vm.mark vm.dump ∧
      (CodeOk e Γ k (vm.c.drop vm.pc) ∨
        ∃ a v s, vm.stack = .cont a :: v :: s ∧ 2 ≤ k ∧ vm.c.drop vm.pc = [.app 1])

/-- What holds of a machine between two instructions. -/
structure VM.Sound (vm : VM) (g : Certified X) : Prop where
  placed : vm.Placed
  typed : g.world.truncated = false → vm.WellTyped g.world.frames

end Scheme14
