import SecdScheme.Scheme14.CoreRefinement
import SecdScheme.Scheme14.OrdinaryHost
import SecdScheme.Scheme14.Frozen
import SecdScheme.Scheme14.Safety

/-!
# scheme14: compiled core forms run as the reference does

A form is a core form when its pairs spell one, its heads that are no words
name no macro, and no body begins with a definition. The compiler emits its
code, and leaves the world as it was. With the machine that follows the
reference: the outcomes of a core form at top level, values and errors, are
those of the reference, and so are the tables, the variables and the updates,
continuations that are called any number of times included. The primitives it
calls are ordinary ones, which call nothing back.
-/

namespace Scheme14

variable {X : Type}

/-! ## Core forms -/

/-- What a list of parameters ends with. -/
def restValue : Option String → Value
  | none => .nil
  | some r => .sym r

/-- The parameters of a procedure, as they are written. -/
def Data.IsParams (s : Data X) (ps : Value) (params : List String) (rest : Option String) : Prop :=
  s.ListTo (restValue rest) ps (symbols params)

mutual

/-- **A form that spells a core form.** -/
def Data.IsCore (s : Data X) (macros : String → Option Value) : Expr → Value → Prop
  | .const v, form => (form = v ∧ isSymbol v = false ∧ isPair v = false) ∨
      s.IsList form [.sym "quote", v]
  | .var name, form => form = .sym name
  | .lambda params rest body, form => ∃ ps forms,
      s.IsList form (.sym "lambda" :: ps :: forms) ∧ s.IsParams ps params rest ∧
      (∀ f ∈ forms.head?, s.NotDefine f) ∧ s.AreCore macros body forms
  | .ifE test thenE elseE, form => ∃ ft fa, s.IsCore macros test ft ∧ s.IsCore macros thenE fa ∧
      ((elseE = .const .nil ∧ s.IsList form [.sym "if", ft, fa]) ∨
        ∃ fb, s.IsList form [.sym "if", ft, fa, fb] ∧ s.IsCore macros elseE fb)
  | .begin es, form => ∃ forms, s.IsList form (.sym "begin" :: forms) ∧ s.AreCore macros es forms
  | .define name e, form => (∃ fe, s.IsList form [.sym "define", .sym name, fe] ∧
      s.IsCore macros e fe) ∨ s.IsProcedure macros name e form
  | .set name e, form => ∃ fe, s.IsList form [.sym "set!", .sym name, fe] ∧ s.IsCore macros e fe
  | .callcc e, form => ∃ word fe, (word = "call/cc" ∨ word = "call-with-current-continuation") ∧
      s.IsList form [.sym word, fe] ∧ s.IsCore macros e fe
  | .apply f x xs, form => ∃ ff fx fxs, s.IsList form (.sym "apply" :: ff :: fx :: fxs) ∧
      s.IsCore macros f ff ∧ s.IsCore macros x fx ∧ s.AreCore macros xs fxs
  | .call f xs, form => ∃ ff fxs, s.IsList form (ff :: fxs) ∧ keywordOf ff = none ∧
      (∀ name, ff = .sym name → macros name = none) ∧ s.IsCore macros f ff ∧
      s.AreCore macros xs fxs

/-- `(define (name . params) body …)`. -/
def Data.IsProcedure (s : Data X) (macros : String → Option Value) (name : String) :
    Expr → Value → Prop
  | .lambda params rest body, form => ∃ a ps forms,
      s.IsList form (.sym "define" :: .pair a :: forms) ∧ s.pairs[a]? = some (.sym name, ps) ∧
      s.IsParams ps params rest ∧ (∀ f ∈ forms.head?, s.NotDefine f) ∧ s.AreCore macros body forms
  | _, _ => False

/-- Forms that spell core forms, one by one. -/
def Data.AreCore (s : Data X) (macros : String → Option Value) : List Expr → List Value → Prop
  | [], forms => forms = []
  | e :: es, forms => ∃ form rest, forms = form :: rest ∧ s.IsCore macros e form ∧
      s.AreCore macros es rest

end

mutual

/-- The operands of the code fit. -/
def Expr.Fits : Expr → CompileEnv → Prop
  | .const _, _ => True
  | .var name, names => ∀ p, locationOf name names = some p → p.1 < 65536 ∧ p.2 < 65536
  | .lambda params rest body, names => AllFit body ((params ++ rest.toList) :: names)
  | .ifE test thenE elseE, names => test.Fits names ∧ thenE.Fits names ∧ elseE.Fits names
  | .begin es, names => AllFit es names
  | .define _ e, names => e.Fits names
  | .set name e, names =>
    (∀ p, locationOf name names = some p → p.1 < 65536 ∧ p.2 < 65536) ∧ e.Fits names
  | .callcc e, names => e.Fits names
  | .apply f x xs, names =>
    xs.length + 1 < 65536 ∧ f.Fits names ∧ x.Fits names ∧ AllFit xs names
  | .call f xs, names => xs.length < 65536 ∧ f.Fits names ∧ AllFit xs names

/-- All of some expressions fit. -/
def AllFit : List Expr → CompileEnv → Prop
  | [], _ => True
  | e :: es, names => e.Fits names ∧ AllFit es names

end

/-! ## The compiler on core forms -/

section Compile

variable {host : Host X} {w : World X} {names : CompileEnv} {tail : Bool} {n : ℕ}

theorem operand_of_fits {k : ℕ} (hk : k < 65536) (w : World X) : operand k w = (.ok k, w) := by
  unfold operand
  rw [if_neg (Nat.not_le.mpr hk), Nat.mod_eq_of_lt hk]
  rfl

/-- The parameters of a procedure are found, the rest parameter too. -/
theorem extractParams_of_isParams {s : Data X} {ps : Value} {params : List String}
    {rest : Option String} (h : s.IsParams ps params rest) :
    extractParams ps s = (.ok (some (params, rest)), s) := by
  have hfrom : ∀ (params : List String) {v : Value} (fuel : ℕ), s.IsParams v params rest →
      params.length < fuel → extractParamsFrom fuel v s = (.ok (some (params, rest)), s) := by
    intro params
    induction params with
    | nil =>
      intro v fuel hv hfuel
      obtain ⟨fuel, rfl⟩ := Nat.exists_eq_succ_of_ne_zero (Nat.ne_of_gt hfuel)
      unfold Data.IsParams at hv
      cases rest with
      | none =>
        obtain rfl : v = .nil := hv
        rfl
      | some r =>
        obtain rfl : v = .sym r := hv
        rfl
    | cons x params ih =>
      intro v fuel hv hfuel
      obtain ⟨fuel, rfl⟩ := Nat.exists_eq_succ_of_ne_zero (Nat.ne_of_gt (Nat.zero_lt_of_lt hfuel))
      obtain ⟨a, d, rfl, hp, hxs⟩ := hv
      unfold extractParamsFrom
      dsimp only
      rw [Cmd.bind_run_ok (asPair_pair hp)]
      dsimp only
      rw [Cmd.bind_run_ok (ih fuel hxs (Nat.lt_of_succ_lt_succ hfuel))]
      rfl
  have htail : isPair (restValue rest) = false := by cases rest <;> rfl
  have hlen := Data.ListTo.length_le htail h
  unfold symbols at hlen
  rw [List.length_map] at hlen
  exact hfrom params _ h (Nat.lt_succ_of_le hlen)

theorem compVar_core {name : String} (hw : w.compileTable = .interaction)
    (hfits : ∀ p, locationOf name names = some p → p.1 < 65536 ∧ p.2 < 65536) :
    compVar name names w = (.ok [varCode names name], w) := by
  unfold compVar varCode
  cases hloc : locationOf name names with
  | none =>
    show (Except.ok [Instr.ldg ⟨w.compileTable, name⟩], w) = _
    rw [hw]
  | some p =>
    obtain ⟨hi, hj⟩ := hfits p hloc
    obtain ⟨i, j⟩ := p
    dsimp only
    rw [Cmd.bind_run_ok (operand_of_fits hi w), Cmd.bind_run_ok (operand_of_fits hj w)]
    rfl

theorem comp_if {ft fa fb : Value} {form : Value}
    (hform : w.data.IsList form [.sym "if", ft, fa] ∧ fb = .nil ∨
      w.data.IsList form [.sym "if", ft, fa, fb]) :
    (machine host (n + 1)).comp form names tail w = (do
      let code ← (machine host n).comp ft names false
      let ct ← (machine host n).comp fa names tail
      let cf ← (machine host n).comp fb names tail
      return code ++ [testCode tail ct cf] : SchemeM X Code) w := by
  have hcode : ∀ code ct cf : Code,
      (if tail = true then (pure (code ++ [.selr (some (ct ++ [.rtn])) (some (cf ++ [.rtn]))]) :
        SchemeM X Code)
      else pure (code ++ [.sel (some (ct ++ [.join])) (some (cf ++ [.join]))])) =
      pure (code ++ [testCode tail ct cf]) := by
    intro code ct cf
    cases tail <;> rfl
  have hrun : ∀ (rest branches others : Value), checkArity "if" rest 2 3 w.data = (.ok (), w.data) →
      car rest w.data = (.ok ft, w.data) → cdr rest w.data = (.ok branches, w.data) →
      car branches w.data = (.ok fa, w.data) → cdr branches w.data = (.ok others, w.data) →
      (if others = .nil then pure .nil else onData (car others) : SchemeM X Value) w =
        (.ok fb, w) →
      compIf (machine host n) rest names tail w = (do
        let code ← (machine host n).comp ft names false
        let ct ← (machine host n).comp fa names tail
        let cf ← (machine host n).comp fb names tail
        return code ++ [testCode tail ct cf] : SchemeM X Code) w := by
    intro rest branches others harity ht hb ha ho helse
    unfold compIf
    rw [Cmd.bind_run_ok (onData_run_same harity), Cmd.bind_run_ok (onData_run_same ht),
      Cmd.bind_run_ok (onData_run_same hb), Cmd.bind_run_ok (onData_run_same ha),
      Cmd.bind_run_ok (onData_run_same ho)]
    by_cases hnil : others = .nil
    · rw [if_pos hnil] at helse ⊢
      obtain ⟨rfl, -⟩ := Cmd.eq_of_pure_ok helse
      simp only [hcode]
      rfl
    · rw [if_neg hnil] at helse ⊢
      rw [Cmd.bind_run_ok helse]
      simp only [hcode]
  rcases hform with ⟨hform, rfl⟩ | hform
  · obtain ⟨rest, -, hrest, hcomp⟩ := compStep_keyword (machine host n) names tail hform rfl
    rw [machine_comp_succ, hcomp]
    obtain ⟨branches, -, ht, hb, hbranches, -⟩ := hrest.split
    obtain ⟨others, -, ha, ho, hothers, -⟩ := hbranches.split
    obtain rfl : others = .nil := hothers
    exact hrun rest branches .nil (checkArity_of_isList hrest (Nat.le_refl _)
      (.inr (Nat.le_succ _))) ht hb ha ho rfl
  · obtain ⟨rest, -, hrest, hcomp⟩ := compStep_keyword (machine host n) names tail hform rfl
    rw [machine_comp_succ, hcomp]
    obtain ⟨branches, -, ht, hb, hbranches, -⟩ := hrest.split
    obtain ⟨others, -, ha, ho, hothers, -⟩ := hbranches.split
    obtain ⟨last, -, hl, -, -, hpair⟩ := hothers.split
    refine hrun rest branches others (checkArity_of_isList hrest (Nat.le_succ _)
      (.inr (Nat.le_refl _))) ht hb ha ho ?_
    rw [if_neg (fun h => by rw [h] at hpair; cases hpair)]
    exact onData_run_same hl

theorem comp_callcc {word : String} {fe form : Value}
    (hword : word = "call/cc" ∨ word = "call-with-current-continuation")
    (hform : w.data.IsList form [.sym word, fe]) :
    (machine host (n + 1)).comp form names tail w = (do
      let code ← (machine host n).comp fe names false
      return code ++ [callccCode tail] : SchemeM X Code) w := by
  have hkey : keywordOf (.sym word) = some (.callcc word) := by
    rcases hword with rfl | rfl <;> rfl
  obtain ⟨rest, -, hrest, hcomp⟩ := compStep_keyword (machine host n) names tail hform hkey
  have harity : checkArity word rest 1 1 w.data = (.ok (), w.data) :=
    checkArity_of_isList hrest (Nat.le_refl _) (.inr (Nat.le_refl _))
  obtain ⟨-, -, hcar, -, -, -⟩ := hrest.split
  rw [machine_comp_succ, hcomp]
  unfold compSpecial
  dsimp only
  rw [Cmd.bind_run_ok (onData_run_same harity), Cmd.bind_run_ok (onData_run_same hcar)]
  rfl

theorem comp_apply {ff fx form : Value} {fxs : List Value}
    (hform : w.data.IsList form (.sym "apply" :: ff :: fx :: fxs)) :
    (machine host (n + 1)).comp form names tail w = (do
      let args ← compArgs (machine host n) (fx :: fxs) names
      let k ← operand (fx :: fxs).length
      let code ← (machine host n).comp ff names false
      return args ++ .argsAp k :: code ++ [applyCode tail] : SchemeM X Code) w := by
  obtain ⟨rest, -, hrest, hcomp⟩ := compStep_keyword (machine host n) names tail hform rfl
  have harity : checkArity "apply" rest 2 0 w.data = (.ok (), w.data) :=
    checkArity_of_isList hrest (Nat.succ_le_succ (Nat.succ_le_succ (Nat.zero_le _))) (.inl rfl)
  rw [machine_comp_succ, hcomp]
  unfold compSpecial compApply
  dsimp only
  rw [Cmd.bind_run_ok (onData_run_same harity),
    Cmd.bind_run_ok (onData_run_same (listToVector_of_isList "apply" hrest))]
  rfl

theorem comp_application {ff form : Value} {fxs : List Value}
    (hform : w.data.IsList form (ff :: fxs)) (hword : keywordOf ff = none)
    (hplain : ∀ name, ff = .sym name → w.macros w.compileTable name = none) :
    (machine host (n + 1)).comp form names tail w = (do
      let args ← compArgs (machine host n) fxs names
      let code ← (machine host n).comp ff names false
      let k ← operand fxs.length
      return args ++ markLast code ++ [callCode tail k] : SchemeM X Code) w := by
  obtain ⟨b, rest, rfl, hp, hes⟩ := hform
  have hexpands : macroExpand1 (machine host n) (.pair b) w = (.ok (.pair b), w) := by
    cases ff with
    | sym name => exact macroExpand1_of_none hp (hplain name rfl)
    | _ =>
      unfold macroExpand1
      rw [if_neg (show ¬ (!isPair (.pair b)) = true from Bool.false_ne_true),
        Cmd.bind_run_ok (onData_run_same (asPair_pair hp))]
      rfl
  show compStep (machine host n) (.pair b) names tail w = _
  unfold compStep
  rw [if_neg (show ¬ (Value.pair b).selfEvaluating = true from Bool.false_ne_true)]
  dsimp only
  rw [Cmd.bind_run_ok (onData_run_same (asPair_pair hp))]
  dsimp only
  rw [hword]
  dsimp only
  rw [Cmd.bind_run_ok hexpands, if_neg (not_not.mpr rfl)]
  unfold compCall
  rw [Cmd.bind_run_ok (onData_run_same (listToVector_of_isList "application" hes))]
  rfl

theorem comp_setCore {name : String} {fe form : Value} (hw : w.compileTable = .interaction)
    (hform : w.data.IsList form [.sym "set!", .sym name, fe])
    (hfits : ∀ p, locationOf name names = some p → p.1 < 65536 ∧ p.2 < 65536) {code : Code}
    (hcode : (machine host n).comp fe names false w = (.ok code, w)) :
    (machine host (n + 1)).comp form names tail w = (.ok (code ++ [setCode names name]), w) := by
  obtain ⟨rest, -, hrest, hcomp⟩ := compStep_keyword (machine host n) names tail hform rfl
  have harity : checkArity "set!" rest 2 2 w.data = (.ok (), w.data) :=
    checkArity_of_isList hrest (Nat.le_refl _) (.inr (Nat.le_refl _))
  obtain ⟨values, -, hcar, hcdr, hvalues, -⟩ := hrest.split
  obtain ⟨-, -, hcar', -⟩ := hvalues.split
  have hvalue : (do car (← cdr rest) : DataM X Value) w.data = (.ok fe, w.data) := by
    rw [Cmd.bind_run_ok hcdr, hcar']
  rw [machine_comp_succ, hcomp]
  unfold compSpecial compSet setCode
  dsimp only
  rw [Cmd.bind_run_ok (onData_run_same harity), Cmd.bind_run_ok (onData_run_same hcar)]
  dsimp only
  rw [Cmd.bind_run_ok (onData_run_same hvalue), Cmd.bind_run_ok hcode]
  cases hloc : locationOf name names with
  | none =>
    dsimp only
    rw [Cmd.bind_run_ok (Cmd.getState_run w), if_neg (not_not.mpr hw)]
    show (Except.ok (code ++ [Instr.gset ⟨w.compileTable, name⟩]), w) = _
    rw [hw]
  | some p =>
    obtain ⟨hi, hj⟩ := hfits p hloc
    obtain ⟨i, j⟩ := p
    dsimp only
    rw [Cmd.bind_run_ok (operand_of_fits hi w), Cmd.bind_run_ok (operand_of_fits hj w)]
    rfl

theorem comp_defineValue {name : String} {fe form : Value} (hw : w.compileTable = .interaction)
    (hform : w.data.IsList form [.sym "define", .sym name, fe]) {code : Code}
    (hcode : (machine host n).comp fe names false w = (.ok code, w)) :
    (machine host (n + 1)).comp form names tail w =
      (.ok (code ++ [.defG ⟨.interaction, name⟩]), w) := by
  obtain ⟨rest, -, hrest, hcomp⟩ := compStep_keyword (machine host n) names tail hform rfl
  have harity : checkArity "define" rest 1 0 w.data = (.ok (), w.data) :=
    checkArity_of_isList hrest (Nat.le_succ _) (.inl rfl)
  obtain ⟨values, hparts, -, -, hvalues, -⟩ := hrest.split
  obtain ⟨last, -, hcar, hcdr, hlast, hpair⟩ := hvalues.split
  obtain rfl : last = .nil := hlast
  have hne : values ≠ .nil := fun h => by rw [h] at hpair; cases hpair
  rw [machine_comp_succ, hcomp]
  unfold compSpecial compDefine
  dsimp only
  rw [Cmd.bind_run_ok (Cmd.getState_run w), if_neg (not_not.mpr hw), if_neg Bool.false_ne_true,
    Cmd.bind_run_ok (onData_run_same harity), Cmd.bind_run_ok (onData_run_same hparts)]
  dsimp only
  rw [if_neg hne, Cmd.bind_run_ok (onData_run_same hcdr), if_neg (not_not.mpr rfl),
    Cmd.bind_run_ok (onData_run_same hcar), Cmd.bind_run_ok hcode]
  show (Except.ok (code ++ [Instr.defG ⟨w.compileTable, name⟩]), w) = _
  rw [hw]

theorem comp_defineProcedure {name : String} {a : ℕ} {ps form : Value} {forms : List Value}
    (hw : w.compileTable = .interaction)
    (hform : w.data.IsList form (.sym "define" :: .pair a :: forms))
    (ha : w.data.pairs[a]? = some (.sym name, ps)) :
    ∃ body, w.data.IsList body forms ∧ ∀ i,
      compileLambda (machine host n) ps body names w = (.ok i, w) →
      (machine host (n + 1)).comp form names tail w =
        (.ok ([i] ++ [.defG ⟨.interaction, name⟩]), w) := by
  obtain ⟨rest, -, hrest, hcomp⟩ := compStep_keyword (machine host n) names tail hform rfl
  have harity : checkArity "define" rest 1 0 w.data = (.ok (), w.data) :=
    checkArity_of_isList hrest (Nat.le_add_left _ _) (.inl rfl)
  obtain ⟨body, hparts, -, -, hbody, -⟩ := hrest.split
  refine ⟨body, hbody, fun i hi => ?_⟩
  rw [machine_comp_succ, hcomp]
  unfold compSpecial compDefine
  dsimp only
  rw [Cmd.bind_run_ok (Cmd.getState_run w), if_neg (not_not.mpr hw), if_neg Bool.false_ne_true,
    Cmd.bind_run_ok (onData_run_same harity), Cmd.bind_run_ok (onData_run_same hparts)]
  dsimp only
  rw [Cmd.bind_run_ok (onData_run_same (asPair_pair ha))]
  dsimp only
  rw [Cmd.bind_run_ok hi]
  show (Except.ok ([i] ++ [Instr.defG ⟨w.compileTable, name⟩]), w) = _
  rw [hw]

/-- The instruction for a procedure, from the code of its body. -/
theorem compileLambda_core {ps body : Value} {forms : List Value} {params : List String}
    {rest : Option String} {code : Code} (hps : w.data.IsParams ps params rest)
    (hbody : w.data.IsList body forms) (hdefs : ∀ f ∈ forms.head?, w.data.NotDefine f)
    (hcode : compForms (machine host n) ((params ++ rest.toList) :: names) true forms w =
      (.ok code, w)) :
    compileLambda (machine host n) ps body names w =
      (.ok (.ldf params rest (code ++ [.rtn]) false), w) := by
  rw [compileLambda_run (extractParams_of_isParams hps) (scanOutDefines_of_notDefine hbody hdefs)
    hbody, show w.withData w.data = w from rfl, Cmd.bind_run_ok hcode]
  rfl

/-- What the compiler does with a form that spells a core form. -/
abbrev CompilesAs (host : Host X) (w : World X) (names : CompileEnv) (n : ℕ) (form : Value)
    (e : Expr) : Prop :=
  ∀ tail, (machine host n).comp form names tail w = (.ok (e.code names tail), w)

/-- What it does with several of them. -/
structure AllCompile (host : Host X) (w : World X) (names : CompileEnv) (n : ℕ)
    (forms : List Value) (es : List Expr) : Prop where
  length : forms.length = es.length
  args : compArgs (machine host n) forms names w = (.ok (argsCode es names), w)
  body : ∀ tail, compForms (machine host n) names tail forms w = (.ok (bodyCode es names tail), w)

theorem AllCompile.nil : AllCompile host w names n [] [] :=
  ⟨rfl, rfl, fun _ => rfl⟩

theorem AllCompile.cons {form : Value} {e : Expr} {forms : List Value} {es : List Expr}
    (h : CompilesAs host w names n form e) (hs : AllCompile host w names n forms es) :
    AllCompile host w names n (form :: forms) (e :: es) := by
  refine ⟨by rw [List.length_cons, List.length_cons, hs.length], ?_, fun tail => ?_⟩
  · have hargs : (Cmd.mapList (fun x => (machine host n).comp x names false) forms >>=
        fun cs => pure cs.flatten : SchemeM X Code) w = (.ok (argsCode es names), w) := hs.args
    obtain ⟨cs, w₁, hrun, hflat⟩ := Cmd.exists_of_bind_ok hargs
    obtain ⟨hcs, rfl⟩ := Cmd.eq_of_pure_ok hflat
    show (Cmd.mapList (fun x => (machine host n).comp x names false) (form :: forms) >>=
      fun cs => pure cs.flatten : SchemeM X Code) w₁ = _
    have hcons : Cmd.mapList (fun x => (machine host n).comp x names false) (form :: forms) w₁ =
        (.ok (e.code names false :: cs), w₁) := by
      unfold Cmd.mapList
      rw [Cmd.bind_run_ok (h false), Cmd.bind_run_ok hrun]
      rfl
    rw [Cmd.bind_run_ok hcons, argsCode, ← hcs]
    rfl
  · cases forms with
    | nil =>
      cases es with
      | nil => exact h tail
      | cons e' es => cases hs.length
    | cons form' forms =>
      cases es with
      | nil => cases hs.length
      | cons e' es =>
        show ((machine host n).comp form names false >>= fun c => _) w = _
        rw [Cmd.bind_run_ok (h false), Cmd.bind_run_ok (hs.body tail)]
        rfl

/-- An expression has a size. -/
theorem exists_succ_of_sizeOf (e : Expr) {n : ℕ} (h : sizeOf e ≤ n) : ∃ m, n = m + 1 := by
  refine Nat.exists_eq_succ_of_ne_zero fun hn => ?_
  cases e <;> simp [hn] at h

mutual

/-- **A core form compiles to its code**, and the world stays as it was. -/
theorem comp_core : ∀ (e : Expr) {form : Value} {names : CompileEnv} {n : ℕ},
    w.compileTable = .interaction → w.data.IsCore (w.macros .interaction) e form →
    e.Fits names → sizeOf e ≤ n + 1 → CompilesAs host w names (n + 1) form e
  | .const v, form, names, n, hw, hcore, _, _ => by
    intro tail
    rcases hcore with ⟨rfl, hsym, hpair⟩ | hform
    · show compStep (machine host n) form names tail w = _
      unfold compStep
      cases form with
      | sym name => cases hsym
      | pair a => cases hpair
      | _ => rfl
    · obtain ⟨rest, -, hrest, hcomp⟩ := compStep_keyword (machine host n) names tail hform rfl
      have harity : checkArity "quote" rest 1 1 w.data = (.ok (), w.data) :=
        checkArity_of_isList hrest (Nat.le_refl _) (.inr (Nat.le_refl _))
      obtain ⟨-, -, hcar, -⟩ := hrest.split
      rw [machine_comp_succ, hcomp]
      unfold compSpecial
      dsimp only
      rw [Cmd.bind_run_ok (onData_run_same harity), Cmd.bind_run_ok (onData_run_same hcar)]
      rfl
  | .var name, form, names, n, hw, hcore, hfits, _ => by
    intro tail
    obtain rfl : form = .sym name := hcore
    exact compVar_core hw hfits
  | .lambda params rest body, form, names, n, hw, hcore, hfits, hn => by
    intro tail
    obtain ⟨ps, forms, hform, hps, hdefs, hcore⟩ := hcore
    rw [Expr.lambda.sizeOf_spec] at hn
    have hall := compAll_core body hw hcore hfits (show sizeOf body ≤ n by omega)
    obtain ⟨bodyV, hlist, hcomp⟩ := compStep_lambda (machine host n) names tail hform
    rw [machine_comp_succ, hcomp,
      Cmd.bind_run_ok (compileLambda_core hps hlist hdefs (hall.body true))]
    rfl
  | .ifE test thenE elseE, form, names, n, hw, hcore, ⟨hft, hfa, hfb⟩, hn => by
    intro tail
    obtain ⟨ft, fa, htest, hthen, helse⟩ := hcore
    rw [Expr.ifE.sizeOf_spec] at hn
    obtain ⟨n, rfl⟩ := exists_succ_of_sizeOf test (show _ ≤ n by omega)
    have ht := comp_core test hw htest hft (show _ ≤ n + 1 by omega)
    have ha := comp_core thenE hw hthen hfa (show _ ≤ n + 1 by omega)
    obtain ⟨fb, hform, hb⟩ : ∃ fb, (w.data.IsList form [.sym "if", ft, fa] ∧ fb = .nil ∨
        w.data.IsList form [.sym "if", ft, fa, fb]) ∧ CompilesAs host w names (n + 1) fb elseE := by
      rcases helse with ⟨rfl, hform⟩ | ⟨fb, hform, hb⟩
      · exact ⟨.nil, .inl ⟨hform, rfl⟩, fun _ => rfl⟩
      · exact ⟨fb, .inr hform, comp_core elseE hw hb hfb (by omega)⟩
    rw [comp_if hform, Cmd.bind_run_ok (ht false), Cmd.bind_run_ok (ha tail),
      Cmd.bind_run_ok (hb tail)]
    rfl
  | .begin es, form, names, n, hw, hcore, hfits, hn => by
    intro tail
    obtain ⟨forms, hform, hcore⟩ := hcore
    rw [Expr.begin.sizeOf_spec] at hn
    rw [machine_comp_succ, compStep_begin hform]
    exact (compAll_core es hw hcore hfits (by omega)).body tail
  | .define name e, form, names, n, hw, hcore, hfits, hn => by
    intro tail
    rw [Expr.define.sizeOf_spec] at hn
    rcases hcore with ⟨fe, hform, hcore⟩ | hproc
    · obtain ⟨n, rfl⟩ := exists_succ_of_sizeOf e (show _ ≤ n by omega)
      exact comp_defineValue hw hform (comp_core e hw hcore hfits (by omega) false)
    · cases e with
      | lambda params rest body =>
        obtain ⟨a, ps, forms, hform, ha, hps, hdefs, hcore⟩ := hproc
        rw [Expr.lambda.sizeOf_spec] at hn
        have hall := compAll_core body hw hcore hfits (show sizeOf body ≤ n by omega)
        obtain ⟨bodyV, hlist, hcomp⟩ := comp_defineProcedure hw hform ha
        exact hcomp _ (compileLambda_core hps hlist hdefs (hall.body true))
      | _ => exact hproc.elim
  | .set name e, form, names, n, hw, hcore, ⟨hx, hfits⟩, hn => by
    intro tail
    obtain ⟨fe, hform, hcore⟩ := hcore
    rw [Expr.set.sizeOf_spec] at hn
    obtain ⟨n, rfl⟩ := exists_succ_of_sizeOf e (show _ ≤ n by omega)
    exact comp_setCore hw hform hx (comp_core e hw hcore hfits (by omega) false)
  | .callcc e, form, names, n, hw, hcore, hfits, hn => by
    intro tail
    obtain ⟨word, fe, hword, hform, hcore⟩ := hcore
    rw [Expr.callcc.sizeOf_spec] at hn
    obtain ⟨n, rfl⟩ := exists_succ_of_sizeOf e (show _ ≤ n by omega)
    rw [comp_callcc hword hform,
      Cmd.bind_run_ok (comp_core e hw hcore hfits (by omega) false)]
    rfl
  | .apply f x xs, form, names, n, hw, hcore, ⟨hlen, hff, hfx, hfxs⟩, hn => by
    intro tail
    obtain ⟨ff, fx, fxs, hform, hf, hx, hxs⟩ := hcore
    rw [Expr.apply.sizeOf_spec] at hn
    obtain ⟨n, rfl⟩ := exists_succ_of_sizeOf f (show _ ≤ n by omega)
    have hall := (compAll_core xs hw hxs hfxs (show sizeOf xs ≤ n + 1 by omega)).cons
      (comp_core x hw hx hfx (by omega))
    have hk : operand (fx :: fxs).length w = (.ok (xs.length + 1), w) := by
      rw [hall.length]
      exact operand_of_fits hlen w
    rw [comp_apply hform, Cmd.bind_run_ok hall.args, Cmd.bind_run_ok hk,
      Cmd.bind_run_ok (comp_core f hw hf hff (by omega) false), Cmd.pure_run, Expr.code, argsCode]
    simp only [List.append_assoc, List.cons_append]
  | .call f xs, form, names, n, hw, hcore, ⟨hlen, hff, hfxs⟩, hn => by
    intro tail
    obtain ⟨ff, fxs, hform, hword, hplain, hf, hxs⟩ := hcore
    rw [Expr.call.sizeOf_spec] at hn
    obtain ⟨n, rfl⟩ := exists_succ_of_sizeOf f (show _ ≤ n by omega)
    have hall := compAll_core xs hw hxs hfxs (show sizeOf xs ≤ n + 1 by omega)
    have hk : operand fxs.length w = (.ok xs.length, w) := by
      rw [hall.length]
      exact operand_of_fits hlen w
    rw [comp_application hform hword (hw ▸ hplain), Cmd.bind_run_ok hall.args,
      Cmd.bind_run_ok (comp_core f hw hf hff (by omega) false), Cmd.bind_run_ok hk, Cmd.pure_run,
      Expr.code, List.append_assoc]

theorem compAll_core : ∀ (es : List Expr) {forms : List Value} {names : CompileEnv} {n : ℕ},
    w.compileTable = .interaction → w.data.AreCore (w.macros .interaction) es forms →
    AllFit es names → sizeOf es ≤ n → AllCompile host w names n forms es
  | [], forms, names, n, hw, hcore, _, _ => by
    obtain rfl : forms = [] := hcore
    exact .nil
  | e :: es, forms, names, n, hw, hcore, hfits, hn => by
    obtain ⟨form, rest, rfl, hform, hrest⟩ := hcore
    rw [List.cons.sizeOf_spec] at hn
    obtain ⟨n, rfl⟩ := exists_succ_of_sizeOf e (show _ ≤ n by omega)
    exact .cons (comp_core e hw hform hfits.1 (by omega))
      (compAll_core es hw hrest hfits.2 (by omega))

end

end Compile

/-! ## Runs -/

section Runs

variable {host : Host X} {e : Expr} {form : Value} {r : Reference.World X} {w : World X}

/-- **A form compiles at top level** when there is enough fuel. -/
theorem compileTop_core (hcore : w.data.IsCore (w.macros .interaction) e form) (hfits : e.Fits [])
    {n : ℕ} (hn : sizeOf e ≤ n) :
    compileTop (machine host n) form w = (.ok (e.code [] false ++ [.stop]), w) := by
  obtain ⟨n, rfl⟩ := exists_succ_of_sizeOf e hn
  have hcomp : (machine host (n + 1)).comp form [] false { w with compileTable := .interaction } =
      (.ok (e.code [] false), { w with compileTable := .interaction }) :=
    comp_core (w := { w with compileTable := .interaction }) e rfl hcore hfits hn false
  unfold compileTop withTable
  rw [Cmd.bind_run_ok (Cmd.getState_run w), Cmd.bind_run_ok (Cmd.modifyState_run _ w)]
  unfold Cmd.finallyDo
  rw [Cmd.bind_run_ok hcomp]
  rfl

/-- The instructions of ordinary primitives need nothing of the levels below. -/
theorem turn_eq (hhost : ∀ name, host.kind name = .data) (self self' : Self X) (vm : VM) :
    turn host self vm = turn host self' vm := by
  have hexec : ∀ (vm : VM) i, execute host self vm i = execute host self' vm i :=
    (Rules.ofCongruence Cmd.equality).execute (doCall_eq hhost self self')
  unfold turn
  simp only [hexec]

/-- One level of the loop is one turn. -/
theorem loop_succ (hhost : ∀ name, host.kind name = .data) (n : ℕ) (vm : VM) (w : World X) :
    (machine host (n + 1)).loop vm w = match turnFrom host (vm, w) with
      | .inl p => p
      | .inr (vm', w') => (machine host n).loop vm' w' := by
  show loopStep host (machine host n) vm w = _
  rw [loopStep_eq, turn_eq hhost (machine host n) (machine host 0), Cmd.bind_run]
  unfold turnFrom
  rcases turn host (machine host 0) vm w with ⟨e | next, w'⟩
  · rfl
  · cases next <;> rfl

/-- **The loop of the machine** ends as its turns do. -/
theorem loop_of_outcome (hhost : ∀ name, host.kind name = .data) {n : ℕ} {vm : VM} {w : World X}
    {p : Except Err Value × World X}
    (h : Stepping.outcome? (turnFrom host) n (vm, w) = some p) :
    (machine host n).loop vm w = p := by
  induction n generalizing vm w with
  | zero => cases h
  | succ n ih =>
    rw [loop_succ hhost]
    cases hturn : turnFrom host (vm, w) with
    | inl p' =>
      rw [Stepping.outcome?_inl hturn] at h
      exact Option.some.inj h
    | inr c =>
      rw [Stepping.outcome?_inr hturn] at h
      exact ih h

theorem outcome_of_loop (hhost : ∀ name, host.kind name = .data) {n : ℕ} {vm : VM} {w w' : World X}
    {o : Except Err Value} (h : (machine host n).loop vm w = (o, w'))
    (ho : o ≠ .error .outOfFuel) :
    Stepping.outcome? (turnFrom host) n (vm, w) = some (o, w') := by
  induction n generalizing vm w with
  | zero => exact absurd (Prod.mk.inj h).1.symm ho
  | succ n ih =>
    rw [loop_succ hhost] at h
    cases hturn : turnFrom host (vm, w) with
    | inl p' =>
      rw [hturn] at h
      rw [Stepping.outcome?_inl hturn]
      exact congrArg some h
    | inr c =>
      rw [hturn] at h
      rw [Stepping.outcome?_inr hturn]
      exact ih h

/-- What the reference ends with, for an expression at top level. -/
def Reference.Evaluates (host : Host X) (e : Expr) (r : Reference.World X)
    (o : Except Err Value × Reference.World X) : Prop :=
  Stepping.Ends (Reference.next host) (Reference.start e r) o

/-- **The worlds of the two machines agree** between two forms. -/
def InStep (r : Reference.World X) (w : World X) : Prop :=
  w.runDepth = 0 ∧ ∃ scratch, Agrees r scratch w

/-- At the start of a form the two machines are at the same point. -/
theorem atSamePoint_start (hmatch : InStep r w) :
    AtSamePoint (Reference.start e r)
      (VM.start (e.code [] false ++ [.stop]) none, { w with runDepth := w.runDepth + 1 }) := by
  obtain ⟨hdepth, scratch, h⟩ := hmatch
  refine ⟨⟨rfl, false, [.stop], ?_, .here ⟨[], rfl⟩⟩, h.data, h.frames, h.globals, h.updates,
    h.closures, h.conts, .none, ?_⟩
  · rfl
  · exact Nat.le_of_eq (congrArg (· + 1) hdepth)

/-- After a form the worlds agree as before it. -/
theorem SameOutcome.inStep {o : Except Err Value × Reference.World X}
    {p : Except Err Value × World X} (h : SameOutcome o p) :
    InStep o.2 { p.2 with runDepth := p.2.runDepth - 1 } := by
  obtain ⟨-, scratch, h⟩ := h
  exact ⟨Nat.sub_eq_zero_of_le h.depth, scratch, h.data, h.frames, h.globals, h.updates, h.closures,
    h.conts, h.scratch, Nat.le_trans (Nat.sub_le _ _) h.depth⟩

theorem evalTop_core (hcore : w.data.IsCore (w.macros .interaction) e form) (hfits : e.Fits [])
    {n : ℕ} (hn : sizeOf e ≤ n) : evalTop (machine host n) form w =
      run (machine host n) (VM.start (e.code [] false ++ [.stop]) none) w := by
  unfold evalTop
  rw [Cmd.bind_run_ok (compileTop_core hcore hfits hn)]

/-- A form at top level, from the loop on. -/
theorem evalTop_core_eq (hcore : w.data.IsCore (w.macros .interaction) e form)
    (hfits : e.Fits []) {n : ℕ} (hn : sizeOf e ≤ n) : evalTop (machine host n) form w =
      Cmd.finallyDo ((machine host n).loop (VM.start (e.code [] false ++ [.stop]) none))
        (fun w => { w with runDepth := w.runDepth - 1 }) { w with runDepth := w.runDepth + 1 } := by
  rw [evalTop_core hcore hfits hn, run, Cmd.bind_run_ok (Cmd.modifyState_run _ w)]

/-- **The compiler and the machine refine the meaning of core forms**, where all
primitives are ordinary. -/
theorem core_refines_ordinary (host : Host X) (hhost : ∀ name, host.kind name = .data)
    (hcore : w.data.IsCore (w.macros .interaction) e form) (hfits : e.Fits [])
    (hmatch : InStep r w) :
    (∀ o r', Reference.Evaluates host e r (o, r') → ∃ w' bound, InStep r' w' ∧
      ∀ fuel ≥ bound, evalTop (machine host fuel) form w = (o, w')) ∧
    ∀ fuel ≥ sizeOf e, ∀ o w', evalTop (machine host fuel) form w = (o, w') →
      o ≠ .error .outOfFuel →
      ∃ r', Reference.Evaluates host e r (o, r') ∧ InStep r' w' := by
  have hfollows := machine_follows (X := X) hhost
  have hstart := atSamePoint_start (e := e) hmatch
  constructor
  · intro o r' ho
    obtain ⟨⟨o', w'⟩, ⟨n, hn⟩, hsame⟩ := hfollows.forward hstart ho
    obtain rfl : o' = o := hsame.1
    refine ⟨_, max n (sizeOf e), hsame.inStep, fun fuel hfuel => ?_⟩
    rw [evalTop_core_eq hcore hfits (Nat.le_trans (Nat.le_max_right _ _) hfuel), Cmd.finallyDo,
      loop_of_outcome hhost (Stepping.outcome?_mono hn (Nat.le_trans (Nat.le_max_left _ _) hfuel))]
  · intro fuel hfuel o w' hrun ho
    rw [evalTop_core_eq hcore hfits hfuel] at hrun
    obtain ⟨hfst, rfl⟩ := Prod.mk.inj hrun
    obtain ⟨⟨o', r'⟩, hends, hsame⟩ := hfollows.backward hstart
      ⟨fuel, outcome_of_loop hhost (Prod.ext hfst rfl) ho⟩
    obtain rfl : o = o' := hsame.1
    exact ⟨r', hends, hsame.inStep⟩

/-- A core form whose other primitives end the run, beside the same form. -/
theorem givesUp_evalTop (host : Host X)
    (hcore : w.data.IsCore (w.macros .interaction) e form) (hfits : e.Fits []) {n : ℕ} (hn : sizeOf e ≤ n) :
    (evalTop (machine host.ordinary n) form w).1 = .error .outside ∨
      evalTop (machine host.ordinary n) form w = evalTop (machine host n) form w := by
  rw [evalTop_core_eq hcore hfits hn, evalTop_core_eq hcore hfits hn]
  exact (Cmd.givingUp Err.outside).finallyDo _ (givesUp_loop host n _) _

/-- **The compiler and the machine refine the meaning of core forms.** The reference
has the ordinary primitives, and a call of another one ends it: what it ends with
otherwise the machine ends with, and what the machine ends with the reference does,
if it does not come to such a call. -/
theorem core_refines (host : Host X) (hcore : w.data.IsCore (w.macros .interaction) e form)
    (hfits : e.Fits []) (hmatch : InStep r w) :
    (∀ o r', Reference.Evaluates host.ordinary e r (o, r') → o ≠ .error .outside →
      ∃ w' bound, InStep r' w' ∧ ∀ fuel ≥ bound, evalTop (machine host fuel) form w = (o, w')) ∧
    ∀ fuel ≥ sizeOf e, ∀ o w', evalTop (machine host fuel) form w = (o, w') →
      o ≠ .error .outOfFuel →
      (∃ r', Reference.Evaluates host.ordinary e r (o, r') ∧ InStep r' w') ∨
        ∃ r', Reference.Evaluates host.ordinary e r (.error .outside, r') := by
  obtain ⟨hforward, hbackward⟩ :=
    core_refines_ordinary host.ordinary (fun _ => rfl) hcore hfits hmatch
  constructor
  · intro o r' ho hinside
    obtain ⟨w', bound, hstep, hruns⟩ := hforward o r' ho
    refine ⟨w', max bound (sizeOf e), hstep, fun fuel hfuel => ?_⟩
    have hrun := hruns fuel (Nat.le_trans (Nat.le_max_left _ _) hfuel)
    have hgives := givesUp_evalTop host hcore hfits
      (Nat.le_trans (Nat.le_max_right _ _) hfuel)
    rw [hrun] at hgives
    exact (hgives.resolve_left hinside).symm
  · intro fuel hfuel o w' hrun ho
    rcases givesUp_evalTop host hcore hfits hfuel with hgives | hsame
    · obtain ⟨r', hends, -⟩ := hbackward fuel hfuel _ _ (Prod.ext hgives rfl) nofun
      exact .inr ⟨r', hends⟩
    · exact .inl (hbackward fuel hfuel o w' (hsame.trans hrun) ho)

/-- The world of the reference, where there is no procedure yet. -/
def referenceOf (w : World X) : Reference.World X where
  data := w.data
  frames := w.frames
  procs := []
  conts := []
  globals := w.globals .interaction
  updates := w.updates
  scratch := none

theorem inStep_referenceOf (hclosures : w.closures = []) (hconts : w.conts = [])
    (hdepth : w.runDepth = 0) : InStep (referenceOf w) w := by
  refine ⟨hdepth, none, rfl, rfl, rfl, rfl, ?_, ?_, .none, by rw [hdepth]; exact Nat.zero_le 1⟩
  · rw [hclosures]
    exact .nil
  · rw [hconts]
    exact .nil

/-- `((lambda (x) x) 1)`. -/
def identityCall : Expr := .call (.lambda ["x"] none [.var "x"]) [.const (.int 1)]

theorem isCore_identityCall : (pairsWorld applyIdentity).data.IsCore
    ((pairsWorld applyIdentity).macros .interaction) identityCall (.pair 4) := by
  refine ⟨.pair 2, [.int 1], ⟨4, .pair 3, rfl, rfl, 3, .nil, rfl, rfl, rfl⟩, rfl,
    fun _ h => (by cases h), ?_, .int 1, [], rfl, .inl ⟨rfl, rfl, rfl⟩, rfl⟩
  exact ⟨.pair 0, [.sym "x"],
    ⟨2, .pair 1, rfl, rfl, 1, .pair 0, rfl, rfl, 0, .nil, rfl, rfl, rfl⟩,
    ⟨0, .nil, rfl, rfl, rfl⟩, fun f hf => .inl (by cases hf; rfl), .sym "x", [], rfl, rfl, rfl⟩

theorem core_refines_identityCall :
    (∀ o r', Reference.Evaluates plainHost.ordinary identityCall
        (referenceOf (pairsWorld applyIdentity)) (o, r') → o ≠ .error .outside →
      ∃ w' bound, InStep r' w' ∧ ∀ fuel ≥ bound,
        evalTop (machine plainHost fuel) (.pair 4) (pairsWorld applyIdentity) = (o, w')) ∧
    ∀ fuel ≥ sizeOf identityCall, ∀ o w',
      evalTop (machine plainHost fuel) (.pair 4) (pairsWorld applyIdentity) = (o, w') →
      o ≠ .error .outOfFuel →
      (∃ r', Reference.Evaluates plainHost.ordinary identityCall
        (referenceOf (pairsWorld applyIdentity)) (o, r') ∧ InStep r' w') ∨
        ∃ r', Reference.Evaluates plainHost.ordinary identityCall
          (referenceOf (pairsWorld applyIdentity)) (.error .outside, r') :=
  core_refines plainHost isCore_identityCall
    ⟨by decide, ⟨fun p hp => by cases hp; decide, trivial⟩, trivial, trivial⟩
    (inStep_referenceOf rfl rfl rfl)

/-- The reference evaluates it. -/
example : (Stepping.outcome? (Reference.next plainHost) 9
    (Reference.start identityCall (referenceOf (pairsWorld applyIdentity)))).map (·.1.toOption) =
      some (some (.int 1)) := by decide +kernel

end Runs

end Scheme14
