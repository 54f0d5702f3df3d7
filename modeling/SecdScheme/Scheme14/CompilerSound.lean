import SecdScheme.Scheme14.Certified
import SecdScheme.Scheme14.Lists

/-!
# scheme14: the compiler emits well-formed code

From a certified world every part of the compiler goes to a later one, also
when it fails half-way. The code it returns is within the table it looks
names up in and, unless an operand was cut, leaves one value. What the
compiler calls, the next level of the recursion, is taken to do the same.
-/

namespace Scheme14

open Certified (world)

variable {X : Type} {g g' : Certified X} {α : Type}

/-! ## Commands of the world -/

/-- **What works on data** leaves a certified world certified. -/
theorem follows_onData (m : DataM X α) : Cmd.Follows world g (onData m) (fun _ _ => True) := by
  let g' : Certified X := ⟨{ g.world with data := (m g.world.data).2 }, g.placed, g.typed⟩
  have hle : g ≤ g' := .of_frames (.refl _) rfl rfl rfl rfl rfl
  cases hm : (m g.world.data).1 with
  | ok a =>
    refine .of_ok g' (a := a) ?_ hle trivial
    rw [← hm]
    rfl
  | error e =>
    refine .of_error g' (e := e) ?_ hle
    rw [← hm]
    rfl

theorem follows_errorAt {B : α → Certified X → Prop} (message : Message) :
    Cmd.Follows world g (errorAt message) B := .fail

theorem follows_internalError {B : α → Certified X → Prop} (what : String) :
    Cmd.Follows world g (internalError what) B := .fail

/-- A syntax error is no return. -/
theorem follows_syntaxError {B : α → Certified X → Prop} (form : String) (what : Message) :
    Cmd.Follows world g (onData (syntaxError form what)) B :=
  .of_error g rfl (le_refl g)

/-- The world is read. -/
theorem follows_getState {B : α → Certified X → Prop} {f : World X → SchemeM X α}
    (h : Cmd.Follows world g (f g.world) B) : Cmd.Follows world g (Cmd.getState >>= f) B := h

/-! ## What the compiler is asked to do -/

/-- Code within a table that, unless an operand was cut, leaves one value. -/
structure Compiled (t : Table) (env : CompileEnv) (tail : Bool) (c : Code) (g : Certified X) :
    Prop where
  within : Within t c
  emits : g.world.truncated = false → Emits (env.map List.length) tail c

theorem Compiled.of_emits {t : Table} {env : CompileEnv} {tail : Bool} {c : Code}
    (hwithin : Within t c) (h : Emits (env.map List.length) tail c) : Compiled t env tail c g :=
  ⟨hwithin, fun _ => h⟩

/-- **What is asked of the next level.** -/
structure Self.Sound (next : Self X) : Prop where
  comp : ∀ (g : Certified X) expr env tail,
    Cmd.Follows world g (next.comp expr env tail) (Compiled g.world.compileTable env tail)
  loop : ∀ (g : Certified X) vm, vm.Sound g →
    Cmd.Follows world g (next.loop vm) (fun _ _ => True)
  callPrim : ∀ (g : Certified X) name args,
    Cmd.Follows world g (next.callPrim name args) (fun _ _ => True)

/-- The compiler is called in a later world. -/
theorem Self.Sound.compAt {self : Self X} (hself : self.Sound) (hle : g ≤ g') (expr : Value)
    (env : CompileEnv) (tail : Bool) :
    Cmd.Follows world g' (self.comp expr env tail) (Compiled g.world.compileTable env tail) := by
  rw [← hle.compileTable]
  exact hself.comp g' expr env tail

/-! ## Operands and variables -/

/-- An operand is the number it stands for, unless it was cut. -/
theorem follows_operand (n : ℕ) :
    Cmd.Follows world g (operand n) (fun m g' => g'.world.truncated = false → m = n) := by
  unfold operand
  dsimp only
  split
  · let g' : Certified X := ⟨{ g.world with truncated := true }, g.placed, nofun⟩
    have hle : g ≤ g' := ⟨.refl _, nofun, rfl, rfl, fun _ _ => ⟨rfl, rfl⟩⟩
    exact .of_ok g' rfl hle nofun
  · rename_i hn
    exact .pure fun _ => Nat.mod_eq_of_lt (Nat.lt_of_not_le hn)

theorem follows_compileGlobal (name : String) :
    Cmd.Follows world g (compileGlobal name) (fun x _ => x = ⟨g.world.compileTable, name⟩) :=
  follows_getState (.pure rfl)

theorem follows_compVar (name : String) (env : CompileEnv) (tail : Bool) :
    Cmd.Follows world g (compVar name env) (Compiled g.world.compileTable env tail) := by
  unfold compVar
  split
  · rename_i i j hloc
    obtain ⟨n, hn, hj⟩ := locationOf_eq_some hloc
    refine (follows_operand i).bind fun i' g₁ h₁ hi => ?_
    refine (follows_operand j).bind fun j' g₂ h₂ hj' => ?_
    refine .pure ⟨⟨trivial, trivial⟩, fun ht => ?_⟩
    rw [hj' ht, hi (h₂.truncated ht)]
    exact .one fun _ hc => .ld hn hj hc
  · refine (follows_compileGlobal name).bind fun x g₁ h₁ hx => ?_
    subst hx
    exact .pure (.of_emits ⟨rfl, trivial⟩ (.one fun _ hc => .ldg hc))

/-! ## Calls from the compiler to the machine -/

/-- **A frame of the size of a closure's parameters** is made. -/
theorem follows_makeFrame (clo : Closure) (args : List Value) :
    Cmd.Follows world g (makeFrame clo args) (fun a g' => ∃ vals,
      g'.world.frames[a]? = some ⟨clo.env, vals⟩ ∧
        vals.length = clo.params.length + clo.rest.toList.length) := by
  have hpush : ∀ (g₁ : Certified X) vals,
      vals.length = clo.params.length + clo.rest.toList.length →
      Cmd.Follows world g₁ (do
        let a := (← Cmd.getState).frames.length
        Cmd.modifyState (fun w => { w with frames := w.frames ++ [⟨clo.env, vals⟩] })
        return a : SchemeM X ℕ) (fun a g' => ∃ vals, g'.world.frames[a]? = some ⟨clo.env, vals⟩ ∧
          vals.length = clo.params.length + clo.rest.toList.length) := by
    intro g₁ vals hlen
    have hext := FramesExt.append g₁.world.frames [⟨clo.env, vals⟩]
    let g₂ : Certified X := ⟨{ g₁.world with frames := g₁.world.frames ++ [⟨clo.env, vals⟩] },
      g₁.placed, fun ht => (g₁.typed ht).mono hext⟩
    exact .of_ok g₂ rfl (.of_frames hext rfl rfl rfl rfl rfl)
      ⟨vals, List.getElem?_concat_length, hlen⟩
  unfold makeFrame
  dsimp only
  refine .ite (fun _ => (follows_errorAt _).bind_false) fun haccepted => ?_
  rw [Bool.not_eq_true', Bool.not_eq_false] at haccepted
  split
  · rename_i hrest
    rw [hrest, decide_eq_true_eq] at haccepted
    exact hpush g args (by rw [haccepted, hrest]; rfl)
  · rename_i r hrest
    rw [hrest, decide_eq_true_eq] at haccepted
    refine Cmd.Follows.bind (B := fun vals _ => vals.length = clo.params.length + clo.rest.toList.length)
      ((follows_onData _).bind fun l _ _ _ => .pure ?_) fun vals g₁ _ hlen => hpush g₁ vals hlen
    rw [hrest, List.length_append, List.length_take, Nat.min_eq_left haccepted]
    rfl

variable {self : Self X}

/-- A run of a machine. -/
theorem follows_run (hself : self.Sound) {vm : VM} (hvm : vm.Sound g) :
    Cmd.Follows world g (run self vm) (fun _ _ => True) := by
  -- the world while the machine runs is certified, but it is not a later one
  let g₁ : Certified X :=
    ⟨{ g.world with runDepth := g.world.runDepth + 1 }, g.placed, g.typed⟩
  have hback : ∀ g₂ : Certified X, g₁ ≤ g₂ → ∃ g₃ : Certified X,
      g₃.world = { g₂.world with runDepth := g₂.world.runDepth - 1 } ∧ g ≤ g₃ := by
    intro g₂ h₂
    refine ⟨⟨{ g₂.world with runDepth := g₂.world.runDepth - 1 }, g₂.placed, g₂.typed⟩, rfl,
      h₂.frames, h₂.truncated, h₂.compileTable, ?_, h₂.frozen⟩
    show g₂.world.runDepth - 1 = g.world.runDepth
    rw [h₂.runDepth]
    rfl
  have hrun : run self vm g.world = ((self.loop vm g₁.world).1,
      { (self.loop vm g₁.world).2 with runDepth := (self.loop vm g₁.world).2.runDepth - 1 }) := rfl
  rcases (hself.loop g₁ vm ⟨hvm.placed, hvm.typed⟩).outcomes with
    ⟨a, g₂, hloop, h₂, -⟩ | ⟨e, g₂, hloop, h₂⟩ <;> obtain ⟨g₃, hg₃, h₃⟩ := hback g₂ h₂
  · exact .of_ok g₃ (by rw [hrun, hloop, hg₃]) h₃ trivial
  · exact .of_error g₃ (by rw [hrun, hloop, hg₃]) h₃

/-- **The table the compiler looks into** is the old one again, also after an
error. -/
theorem follows_withTable {t : Table} {m : SchemeM X α} {B : α → Prop} {C : α → Prop}
    (h : ∀ g₁ : Certified X, g₁.world.compileTable = t →
      Cmd.Follows world g₁ m (fun a g' => B a ∧ (g'.world.truncated = false → C a))) :
    Cmd.Follows world g (withTable t m) (fun a g' => B a ∧ (g'.world.truncated = false → C a)) := by
  let g₁ : Certified X := ⟨{ g.world with compileTable := t }, g.placed, g.typed⟩
  have hback : ∀ g₂ : Certified X, g₁ ≤ g₂ → ∃ g₃ : Certified X,
      g₃.world = { g₂.world with compileTable := g.world.compileTable } ∧ g ≤ g₃ ∧
        g₃.world.truncated = g₂.world.truncated := by
    intro g₂ h₂
    exact ⟨⟨{ g₂.world with compileTable := g.world.compileTable }, g₂.placed, g₂.typed⟩, rfl,
      ⟨h₂.frames, h₂.truncated, rfl, h₂.runDepth, h₂.frozen⟩, rfl⟩
  have hrun : withTable t m g.world = ((m g₁.world).1,
      { (m g₁.world).2 with compileTable := g.world.compileTable }) := rfl
  rcases (h g₁ rfl).outcomes with ⟨a, g₂, hm, h₂, hB, hC⟩ | ⟨e, g₂, hm, h₂⟩ <;>
    obtain ⟨g₃, hg₃, h₃, ht⟩ := hback g₂ h₂
  · exact .of_ok g₃ (by rw [hrun, hm, hg₃]) h₃ ⟨hB, fun ht' => hC (ht ▸ ht')⟩
  · exact .of_error g₃ (by rw [hrun, hm, hg₃]) h₃

theorem VM.certified_start {clo : Closure} {a : ℕ} {vals : List Value} (hle : g ≤ g')
    (htable : OneTable clo.body)
    (hclo : g.world.truncated = false → ClosureOk g.world.frames clo)
    (ha : g'.world.frames[a]? = some ⟨clo.env, vals⟩)
    (hlen : vals.length = clo.params.length + clo.rest.toList.length) :
    (VM.start clo.body (some a)).Sound g' := by
  refine ⟨⟨htable, nofun, nofun⟩, fun ht => ⟨nofun, ?_⟩⟩
  obtain ⟨Γ, henv, hbody⟩ := hclo (hle.truncated ht)
  exact ⟨.rtn, _, 0, ⟨.cons ha hlen (henv.mono hle.frames), rfl, .outermost⟩, .inl hbody⟩

theorem follows_applyCallable (hself : self.Sound) (proc : Value) (args : List Value) :
    Cmd.Follows world g (applyCallable self proc args) (fun _ _ => True) := by
  unfold applyCallable
  split
  · exact hself.callPrim g _ args
  · refine follows_getState ?_
    split
    · exact follows_errorAt _
    · rename_i clo hclo
      have hat : ∃ a : ℕ, g.world.closures[a]? = some clo := by
        unfold World.closureAt at hclo
        split at hclo
        · exact ⟨_, hclo⟩
        · cases hclo
      obtain ⟨a, ha⟩ := hat
      obtain ⟨htable, htyped⟩ := Certified.closureOk ha
      refine (follows_makeFrame clo args).bind fun f g₁ h₁ ⟨vals, hf, hlen⟩ => ?_
      exact follows_run hself (VM.certified_start h₁ htable htyped hf hlen)

theorem follows_macroExpand1 (hself : self.Sound) (expr : Value) :
    Cmd.Follows world g (macroExpand1 self expr) (fun _ _ => True) := by
  unfold macroExpand1
  dsimp only
  refine .ite (fun _ => .pure trivial) fun _ => ?_
  refine (follows_onData _).bind fun p g₁ h₁ _ => ?_
  split
  · refine follows_getState ?_
    split
    · exact .pure trivial
    · exact (follows_onData _).bind fun args g₂ h₂ _ => follows_applyCallable hself _ args
  · exact .pure trivial

/-! ## The forms -/

/-- Code for each expression, one after the other. -/
theorem follows_compEach (hself : self.Sound) (env : CompileEnv) : ∀ (xs : List Value)
    {g g' : Certified X}, g ≤ g' →
      Cmd.Follows world g' (Cmd.mapList (fun x => self.comp x env false) xs) (fun cs g'' =>
        (∀ c ∈ cs, Within g.world.compileTable c) ∧
          (g''.world.truncated = false → EmitsMany (env.map List.length) xs.length cs.flatten))
  | [], g, g', _ => .pure ⟨nofun, fun _ => .nil⟩
  | x :: xs, g, g', hle => by
    unfold Cmd.mapList
    refine (hself.compAt hle x env false).bind fun c g₁ h₁ hc => ?_
    refine (follows_compEach hself env xs (le_trans hle h₁)).bind fun cs g₂ h₂ ⟨hcs, hemits⟩ => ?_
    refine .pure ⟨fun c' hc' => ?_, fun ht => .cons (hc.emits (h₂.truncated ht)) (hemits ht)⟩
    rcases List.mem_cons.mp hc' with rfl | hc'
    · exact hc.within
    · exact hcs c' hc'

theorem follows_compArgs (hself : self.Sound) (hle : g ≤ g') (env : CompileEnv)
    (xs : List Value) :
    Cmd.Follows world g' (compArgs self xs env) (fun c g'' => Within g.world.compileTable c ∧
      (g''.world.truncated = false → EmitsMany (env.map List.length) xs.length c)) :=
  (follows_compEach hself env xs hle).bind fun _ _ _ ⟨hwithin, hemits⟩ =>
    .pure ⟨within_flatten hwithin, hemits⟩

/-- **A body** leaves the value of its last form. -/
theorem follows_compForms (hself : self.Sound) (env : CompileEnv) (tail : Bool) :
    ∀ (es : List Value) {g g' : Certified X}, g ≤ g' →
      Cmd.Follows world g' (compForms self env tail es) (Compiled g.world.compileTable env tail)
  | [], g, g', _ => .pure (.of_emits ⟨trivial, trivial⟩ (.one fun _ hc => .ldc hc))
  | [e], g, g', hle => hself.compAt hle e env tail
  | e :: e' :: es, g, g', hle => by
    unfold compForms
    refine (hself.compAt hle e env false).bind fun c g₁ h₁ hc => ?_
    refine (follows_compForms hself env tail (e' :: es) (le_trans hle h₁)).bind
      fun cs g₂ h₂ hcs => ?_
    refine .pure ⟨within_append.mpr ⟨hc.within, trivial, hcs.within⟩, fun ht e k rest he hrest => ?_⟩
    rw [List.append_assoc]
    exact hc.emits (h₂.truncated ht) nofun (.pop (hcs.emits ht he hrest))

theorem follows_compBody (hself : self.Sound) (hle : g ≤ g') (body : Value) (env : CompileEnv)
    (tail : Bool) :
    Cmd.Follows world g' (compBody self body env tail) (Compiled g.world.compileTable env tail) :=
  (follows_onData _).bind fun es _ h _ => follows_compForms hself env tail es (le_trans hle h)

/-- **A lambda expression** is one instruction. -/
theorem follows_compileLambda (hself : self.Sound) (hle : g ≤ g') (params body : Value)
    (env : CompileEnv) (tail : Bool) :
    Cmd.Follows world g' (compileLambda self params body env)
      (fun i g'' => Compiled g.world.compileTable env tail [i] g'') := by
  unfold compileLambda
  refine (follows_onData _).bind fun ps g₁ h₁ _ => ?_
  split
  · exact follows_syntaxError _ _
  · rename_i fixed rest
    refine (follows_onData _).bind fun body' g₂ h₂ _ => ?_
    refine (follows_compBody hself (le_trans (le_trans hle h₁) h₂) body' _ true).bind
      fun code g₃ h₃ hcode => ?_
    refine .pure ⟨⟨within_append.mpr ⟨hcode.within, trivial, trivial⟩, trivial⟩, fun ht => ?_⟩
    refine .one fun _ hc => .ldf ?_ hc
    have hbody : CodeOk .rtn (((fixed ++ rest.toList) :: env).map List.length) 0 (code ++ [.rtn]) :=
      hcode.emits ht (fun _ => rfl) .rtn
    rwa [List.map_cons, List.length_append] at hbody

theorem follows_compIf (hself : self.Sound) (hle : g ≤ g') (rest : Value) (env : CompileEnv)
    (tail : Bool) :
    Cmd.Follows world g' (compIf self rest env tail) (Compiled g.world.compileTable env tail) := by
  unfold compIf
  dsimp only
  refine (follows_onData _).bind fun _ g₁ h₁ _ => ?_
  refine (follows_onData _).bind fun test g₂ h₂ _ => ?_
  refine (follows_onData _).bind fun branches g₃ h₃ _ => ?_
  refine (follows_onData _).bind fun thenE g₄ h₄ _ => ?_
  refine (follows_onData _).bind fun others g₅ h₅ _ => ?_
  have h := le_trans (le_trans (le_trans (le_trans (le_trans hle h₁) h₂) h₃) h₄) h₅
  refine .ite_bind (B := fun _ _ => True) (fun _ => .pure trivial) (fun _ => follows_onData _)
    fun elseE g₆ h₆ _ => ?_
  refine (hself.compAt (le_trans h h₆) test env false).bind fun code g₇ h₇ hcode => ?_
  have h' := le_trans (le_trans h h₆) h₇
  refine (hself.compAt h' thenE env tail).bind fun ct g₈ h₈ hct => ?_
  refine (hself.compAt (le_trans h' h₈) elseE env tail).bind fun cf g₉ h₉ hcf => ?_
  cases tail with
  | true =>
    refine .pure ⟨within_append.mpr ⟨hcode.within, ⟨within_append.mpr ⟨hct.within, trivial, trivial⟩,
      within_append.mpr ⟨hcf.within, trivial, trivial⟩⟩, trivial⟩, fun ht => ?_⟩
    refine (hcode.emits (h₈.truncated (h₉.truncated ht))).append fun he hc => ?_
    obtain rfl := he rfl
    exact .selr (hct.emits (h₉.truncated ht) (fun _ => rfl) .rtn) (hcf.emits ht (fun _ => rfl) .rtn)
  | false =>
    refine .pure ⟨within_append.mpr ⟨hcode.within, ⟨within_append.mpr ⟨hct.within, trivial, trivial⟩,
      within_append.mpr ⟨hcf.within, trivial, trivial⟩⟩, trivial⟩, fun ht => ?_⟩
    refine (hcode.emits (h₈.truncated (h₉.truncated ht))).append fun _ hc => ?_
    exact .sel (hct.emits (h₉.truncated ht) nofun .join) (hcf.emits ht nofun .join) hc

/-- **A definition is only compiled for the interaction environment.** -/
theorem follows_compDefine (hself : self.Sound) (hle : g ≤ g') (isMacro : Bool) (rest : Value)
    (env : CompileEnv) (tail : Bool) :
    Cmd.Follows world g' (compDefine self isMacro rest env)
      (Compiled g.world.compileTable env tail) := by
  unfold compDefine
  dsimp only
  refine follows_getState (.ite (fun _ => (follows_syntaxError _ _).bind_false) fun htable => ?_)
  rw [not_not, hle.compileTable] at htable
  refine (follows_onData _).bind fun _ g₁ h₁ _ => ?_
  refine (follows_onData _).bind fun p g₂ h₂ _ => ?_
  have h := le_trans (le_trans hle h₁) h₂
  -- what is done with the name and the code of the value
  have hrest : ∀ (name : String) (code : Code) {g₃ : Certified X}, g ≤ g₃ →
      Compiled g.world.compileTable env false code g₃ →
      Cmd.Follows world g₃ (do
        let x ← compileGlobal name
        pure (code ++ [if isMacro = true then .defm x else .defG x]))
        (Compiled g.world.compileTable env tail) := by
    intro name code g₃ h₃ hcode
    refine (follows_compileGlobal name).bind fun x g₄ h₄ hx => ?_
    have hx' : x.table = g.world.compileTable := by
      rw [hx]
      exact h₃.compileTable
    refine .pure ⟨within_append.mpr ⟨hcode.within, ?_, trivial⟩, fun ht => ?_⟩
    · cases isMacro <;> exact ⟨hx', htable⟩
    · refine (hcode.emits (h₄.truncated ht)).append fun _ hc => ?_
      cases isMacro
      · exact .defG hc
      · exact .defm hc
  obtain ⟨lhs, rhsTail⟩ := p
  dsimp only
  split
  · rename_i name
    refine .ite (fun _ => (follows_syntaxError _ _).bind_false) fun _ => ?_
    refine (follows_onData _).bind fun more g₃ h₃ _ => ?_
    refine .ite (fun _ => (follows_syntaxError _ _).bind_false) fun _ => ?_
    refine (follows_onData _).bind fun e g₄ h₄ _ => ?_
    have h' := le_trans (le_trans h h₃) h₄
    exact (hself.compAt h' e env false).bind fun code g₅ h₅ hcode =>
      hrest name code (le_trans h' h₅) hcode
  · refine (follows_onData _).bind fun q g₃ h₃ _ => ?_
    obtain ⟨f, params⟩ := q
    dsimp only
    split
    · rename_i name
      exact (follows_compileLambda hself (le_trans h h₃) params rhsTail env false).bind
        fun i g₄ h₄ hi => hrest name [i] (le_trans (le_trans h h₃) h₄) hi
    · exact (follows_syntaxError _ _).bind_false
  · exact (follows_syntaxError _ _).bind_false

theorem follows_compSet (hself : self.Sound) (hle : g ≤ g') (rest : Value) (env : CompileEnv)
    (tail : Bool) :
    Cmd.Follows world g' (compSet self rest env) (Compiled g.world.compileTable env tail) := by
  unfold compSet
  refine (follows_onData _).bind fun _ g₁ h₁ _ => ?_
  refine (follows_onData _).bind fun target g₂ h₂ _ => ?_
  split
  · rename_i name
    refine (follows_onData _).bind fun e g₃ h₃ _ => ?_
    have h := le_trans (le_trans (le_trans hle h₁) h₂) h₃
    refine (hself.compAt h e env false).bind fun code g₄ h₄ hcode => ?_
    split
    · rename_i i j hloc
      obtain ⟨n, hn, hj⟩ := locationOf_eq_some hloc
      refine (follows_operand i).bind fun i' g₅ h₅ hi => ?_
      refine (follows_operand j).bind fun j' g₆ h₆ hj' => ?_
      refine .pure ⟨within_append.mpr ⟨hcode.within, trivial, trivial⟩, fun ht => ?_⟩
      have ht₅ := h₆.truncated ht
      rw [hi ht₅, hj' ht]
      exact (hcode.emits (h₅.truncated ht₅)).append fun _ hc => .lset hn hj hc
    · dsimp only
      refine follows_getState (.ite (fun _ => (follows_syntaxError _ _).bind_false) fun htable => ?_)
      rw [not_not] at htable
      have h' := le_trans h h₄
      refine (follows_compileGlobal name).bind fun x g₅ h₅ hx => ?_
      have hx' : x.table = g.world.compileTable := by
        rw [hx]
        exact h'.compileTable
      refine .pure ⟨within_append.mpr ⟨hcode.within, ⟨hx', ?_⟩, trivial⟩, fun ht => ?_⟩
      · rw [← h'.compileTable]
        exact htable
      · exact (hcode.emits (h₅.truncated ht)).append fun _ hc => .gset hc
  · exact follows_syntaxError _ _

/-- **`apply`**: the arguments, packed into a list, and then the operator. -/
theorem follows_compApply (hself : self.Sound) (hle : g ≤ g') (rest : Value) (env : CompileEnv)
    (tail : Bool) :
    Cmd.Follows world g' (compApply self rest env tail) (Compiled g.world.compileTable env tail) := by
  unfold compApply
  refine .bind_reads (reads_onData (reads_checkArity _ _ _ _)) fun _ hcheck => ?_
  refine .bind_reads (reads_onData (reads_listToVector _ _)) fun fxs hlist => ?_
  split
  · exact follows_internalError _
  · rename_i f xs
    -- there is something to pack
    have hlen : 2 ≤ (f :: xs).length :=
      (length_of_checkArity (onData_eq_ok hcheck) (onData_eq_ok hlist)).1
    obtain ⟨m, hm⟩ : ∃ m, xs.length = m + 1 :=
      Nat.exists_eq_succ_of_ne_zero (by rw [List.length_cons] at hlen; omega)
    refine (follows_compArgs hself hle env xs).bind fun args g₁ h₁ ⟨hargs, hmany⟩ => ?_
    refine (follows_operand xs.length).bind fun n g₂ h₂ hn => ?_
    have h := le_trans (le_trans hle h₁) h₂
    refine (hself.compAt h f env false).bind fun code g₃ h₃ hcode => ?_
    refine .pure ⟨within_append.mpr ⟨within_append.mpr ⟨hargs, trivial, hcode.within⟩, ?_, trivial⟩,
      fun ht e k r he hr => ?_⟩
    · cases tail <;> trivial
    · have ht₂ := h₃.truncated ht
      rw [hn ht₂, hm, List.append_assoc, List.append_assoc]
      rw [hm] at hmany
      refine hmany (h₂.truncated ht₂) (.argsAp (hcode.emits ht nofun ?_))
      cases tail with
      | true =>
        obtain rfl := he rfl
        exact .tapply hr
      | false => exact .apply hr

/-- **A call**: the arguments, and then the operator. -/
theorem follows_compCall (hself : self.Sound) (hle : g ≤ g') (head rest : Value)
    (env : CompileEnv) (tail : Bool) :
    Cmd.Follows world g' (compCall self head rest env tail)
      (Compiled g.world.compileTable env tail) := by
  unfold compCall
  refine (follows_onData _).bind fun xs g₁ h₁ _ => ?_
  have h := le_trans hle h₁
  refine (follows_compArgs hself h env xs).bind fun args g₂ h₂ ⟨hargs, hmany⟩ => ?_
  refine (hself.compAt (le_trans h h₂) head env false).bind fun code g₃ h₃ hcode => ?_
  refine (follows_operand xs.length).bind fun n g₄ h₄ hn => ?_
  refine .pure ⟨within_append.mpr ⟨within_append.mpr ⟨hargs, within_markLast hcode.within⟩, ?_,
    trivial⟩, fun ht e k r he hr => ?_⟩
  · cases tail <;> trivial
  · rw [hn ht]
    have ht₃ := h₄.truncated ht
    rw [List.append_assoc, List.append_assoc]
    refine hmany (h₃.truncated ht₃) (.markLast (hcode.emits ht₃ nofun ?_))
    cases tail with
    | true =>
      obtain rfl := he rfl
      exact .tapp hr
    | false => exact .app hr

/-- **The special forms.** -/
theorem follows_compSpecial (hself : self.Sound) (expr rest : Value) (env : CompileEnv)
    (tail : Bool) (word : Keyword) :
    Cmd.Follows world g (compSpecial self expr rest env tail word)
      (Compiled g.world.compileTable env tail) := by
  have hle := le_refl g
  have hconst : ∀ (v : Value) (g' : Certified X),
      Compiled g.world.compileTable env tail [.ldc v] g' := fun v g' =>
    .of_emits ⟨trivial, trivial⟩ (.one fun _ hc => .ldc hc)
  cases word with
  | quote =>
    exact (follows_onData _).bind fun _ _ _ _ => (follows_onData _).bind fun v g' _ _ =>
      .pure (hconst v g')
  | traceSwitch => exact .pure (hconst _ g)
  | derived d => exact (follows_onData _).bind fun e _ h _ => hself.compAt h e env tail
  | ifK => exact follows_compIf hself hle rest env tail
  | begin => exact follows_compBody hself hle rest env tail
  | lambda =>
    refine (follows_onData _).bind fun _ g₁ h₁ _ => (follows_onData _).bind fun p g₂ h₂ _ => ?_
    exact (follows_compileLambda hself (le_trans h₁ h₂) p.1 p.2 env tail).bind fun i _ _ hi =>
      .pure hi
  | define isMacro => exact follows_compDefine hself hle isMacro rest env tail
  | set => exact follows_compSet hself hle rest env tail
  | callcc word =>
    refine (follows_onData _).bind fun _ g₁ h₁ _ => (follows_onData _).bind fun e g₂ h₂ _ => ?_
    refine (hself.compAt (le_trans h₁ h₂) e env false).bind fun code g₃ h₃ hcode => ?_
    refine .pure ⟨within_append.mpr ⟨hcode.within, ?_, trivial⟩, fun ht => ?_⟩
    · cases tail <;> trivial
    · refine (hcode.emits ht).append fun he hc => ?_
      cases tail with
      | true =>
        obtain rfl := he rfl
        exact .tcallcc hc
      | false => exact .callcc hc
  | apply => exact follows_compApply hself hle rest env tail

/-- **`comp`.** -/
theorem follows_compStep (hself : self.Sound) (expr : Value) (env : CompileEnv) (tail : Bool) :
    Cmd.Follows world g (compStep self expr env tail)
      (Compiled g.world.compileTable env tail) := by
  have hconst : ∀ (v : Value) (g' : Certified X),
      Compiled g.world.compileTable env tail [.ldc v] g' := fun v g' =>
    .of_emits ⟨trivial, trivial⟩ (.one fun _ hc => .ldc hc)
  unfold compStep
  refine .ite (fun _ => .pure (hconst _ g)) fun _ => ?_
  split
  · exact follows_compVar _ env tail
  · refine .bind_reads (reads_onData (reads_asPair _)) fun p _ => ?_
    obtain ⟨head, rest⟩ := p
    dsimp only
    split
    · exact follows_compSpecial hself _ rest env tail _
    · refine (follows_macroExpand1 hself _).bind fun expanded g₁ h₁ _ => ?_
      exact .ite (fun _ => hself.compAt h₁ expanded env tail)
        (fun _ => follows_compCall hself h₁ head rest env tail)
  · exact .pure (hconst _ g)

/-! ## Entries -/

/-- **The code of a form typed in** stops the machine. -/
theorem follows_compileTop (hself : self.Sound) (expr : Value) :
    Cmd.Follows world g (compileTop self expr) (fun c g' => Within .interaction c ∧
      (g'.world.truncated = false → CodeOk .stop [] 0 c)) := by
  refine follows_withTable fun g₁ ht₁ => ?_
  refine (hself.comp g₁ expr [] false).bind fun c g₂ h₂ hc => .pure ⟨?_, fun ht => ?_⟩
  · exact within_append.mpr ⟨ht₁ ▸ hc.within, trivial, trivial⟩
  · exact hc.emits ht nofun .stop

/-- **The code that `eval` enters** returns. -/
theorem follows_compileEval (hself : self.Sound) (expr : Value) (t : Table) :
    Cmd.Follows world g (compileEval self expr t) (fun c g' => Within t c ∧
      (g'.world.truncated = false → CodeOk .rtn [] 0 c)) := by
  refine follows_withTable fun g₁ ht₁ => ?_
  refine (hself.comp g₁ expr [] true).bind fun c g₂ h₂ hc => .pure ⟨?_, fun ht => ?_⟩
  · exact within_append.mpr ⟨ht₁ ▸ hc.within, trivial, trivial⟩
  · exact hc.emits ht (fun _ => rfl) .rtn

/-- A form is compiled and run. -/
theorem follows_evalTop (hself : self.Sound) (expr : Value) :
    Cmd.Follows world g (evalTop self expr) (fun _ _ => True) := by
  refine (follows_compileTop hself expr).bind fun c g₁ h₁ ⟨hwithin, hcode⟩ => ?_
  refine follows_run hself ⟨⟨⟨_, hwithin⟩, nofun, nofun⟩, fun ht => ⟨nofun, ?_⟩⟩
  exact ⟨.stop, [], 0, ⟨.nil, rfl, .stop⟩, .inl (hcode ht)⟩

theorem follows_loadForms (host : Host X) (hself : self.Sound) : ∀ (forms : List Value)
    (last : Value) {g : Certified X},
    Cmd.Follows world g (loadForms host self forms last) (fun _ _ => True)
  | [], _, _ => .pure trivial
  | [form], _, g => by
    unfold loadForms
    refine (follows_evalTop hself form).bind fun last g₁ h₁ _ => follows_getState ?_
    exact .ite (fun _ => .pure trivial) (fun _ => .pure trivial)
  | form :: expected :: forms, _, g => by
    unfold loadForms
    refine (follows_evalTop hself form).bind fun last g₁ h₁ _ => follows_getState ?_
    refine .ite (fun _ => ?_) (fun _ => follows_loadForms host hself (expected :: forms) last)
    exact (follows_onData _).bind fun _ _ _ _ => follows_loadForms host hself forms last

/-! ## Primitives -/

theorem follows_expandOneStep (hself : self.Sound) (form : Value) :
    Cmd.Follows world g (expandOneStep self form) (fun _ _ => True) :=
  (follows_onData _).bind fun _ _ _ _ =>
    .ite (fun _ => .pure trivial) fun _ => follows_macroExpand1 hself form

theorem follows_expandRepeatedly (hself : self.Sound) : ∀ (steps : ℕ) (form : Value)
    {g : Certified X}, Cmd.Follows world g (expandRepeatedly self steps form) (fun _ _ => True)
  | 0, _, _ => follows_errorAt _
  | steps + 1, form, _ =>
    (follows_expandOneStep hself form).bind fun out _ _ _ =>
      .ite (fun _ => .pure trivial) fun _ => follows_expandRepeatedly hself steps out

theorem follows_needArgs (who : String) (args : List Value) (n : ℕ) :
    Cmd.Follows world g (needArgs who args n) (fun _ _ => True) :=
  .ite (fun _ => .pure trivial) fun _ => follows_errorAt _

/-- **A call of a primitive.** -/
theorem follows_callPrimStep (host : Host X) (hself : self.Sound) (name : String)
    (args : List Value) : Cmd.Follows world g (callPrimStep host self name args) (fun _ _ => True) := by
  unfold callPrimStep
  split
  · exact follows_onData _
  · exact follows_internalError _
  · exact (follows_needArgs _ _ _).bind fun _ _ _ _ => follows_expandOneStep hself _
  · exact (follows_needArgs _ _ _).bind fun _ _ _ _ => follows_expandRepeatedly hself _ _
  · exact (follows_needArgs _ _ _).bind fun _ _ _ _ => (follows_onData _).bind
      fun forms _ _ _ => follows_loadForms host hself forms _
  · exact (follows_needArgs _ _ _).bind fun _ _ _ _ => (follows_compileTop hself _).bind
      fun _ _ _ _ => .pure trivial

end Scheme14
