import SecdScheme.Scheme14.Forms
import SecdScheme.Scheme14.Machine

/-!
# scheme14: the code of well-formed forms

What a step of the compiler does with a form whose shape is known, in the tables
there are: an equation for each of the forms that others expand to. And what a
form was compiled from, by a compiler whose levels make such steps.
-/

namespace Scheme14

variable {X : Type} {host : Host X} {self : Self X} {n : ℕ} {w w' : World X} {s' : Data X}
  {env : CompileEnv} {tail : Bool}

theorem machine_fuel (host : Host X) (n : ℕ) : (machine host n).fuel = n := by
  cases n <;> rfl

/-- Where there is fuel, the compiler makes a step. -/
theorem machine_comp_succ (host : Host X) (n : ℕ) :
    (machine host (n + 1)).comp = compStep (machine host n) := rfl

/-- There is no code without fuel. -/
theorem exists_succ_of_comp {expr : Value} {c : Code}
    (h : (machine host n).comp expr env tail w = (.ok c, w')) : ∃ m, n = m + 1 := by
  cases n with
  | zero => cases (Prod.mk.inj h).1
  | succ m => exact ⟨m, rfl⟩

/-- **A compiler, level by level**: where there is code, it comes from a step that
makes the calls of the level below. -/
structure Levels (next : ℕ → Self X) : Prop where
  fuel : ∀ n, (next n).fuel = n
  step : ∀ {n e env tail w c w'}, (next n).comp e env tail w = (.ok c, w') →
    ∃ m, n = m + 1 ∧ compStep (next m) e env tail w = (.ok c, w')

theorem levels_machine (host : Host X) : Levels (machine host) where
  fuel := machine_fuel host
  step h := by
    obtain ⟨m, rfl⟩ := exists_succ_of_comp h
    exact ⟨m, rfl, h⟩

/-! ## Forms -/

variable (self env tail) in
/-- **A form that starts with a word** of the compiler. -/
theorem compStep_keyword {form head : Value} {xs : List Value} {word : Keyword}
    (hform : w.data.IsList form (head :: xs)) (hword : keywordOf head = some word) :
    ∃ rest, cdr form w.data = (.ok rest, w.data) ∧ w.data.IsList rest xs ∧
      compStep self form env tail w = compSpecial self form rest env tail word w := by
  obtain ⟨a, rest, rfl, hp, hxs⟩ := hform
  refine ⟨rest, cdr_pair hp, hxs, ?_⟩
  unfold compStep
  rw [if_neg (show ¬ (Value.pair a).selfEvaluating = true from nofun)]
  dsimp only
  rw [Cmd.bind_run_ok (onData_run_same (asPair_pair hp))]
  dsimp only
  rw [hword]

/-- **A derived form** is compiled as what it expands to. -/
theorem compStep_derived {form v : Value} {name : String} {d : Derived} {xs : List Value}
    (hform : w.data.IsList form (.sym name :: xs)) (hword : keywordOf (.sym name) = some (.derived d))
    (hd : derivedOf name = some d) (hv : expandDerived self.fuel form d w.data = (.ok v, s')) :
    compStep self form env tail w = self.comp v env tail (w.withData s') := by
  obtain ⟨rest, -, -, hcomp⟩ := compStep_keyword self env tail hform hword
  obtain ⟨a, d', rfl, hp, -⟩ := hform
  have hexpand : expandForm1 self.fuel (.pair a) w.data = (.ok v, s') := by
    unfold expandForm1
    rw [if_neg (show ¬ (!isPair (.pair a)) = true from nofun), Cmd.bind_run_ok (car_pair hp)]
    dsimp only
    rw [hd]
    exact hv
  rw [hcomp]
  unfold compSpecial
  dsimp only
  rw [Cmd.bind_run_ok (onData_run hexpand)]

/-- **`begin`** is the code of its forms. -/
theorem compStep_begin {form : Value} {forms : List Value}
    (hform : w.data.IsList form (.sym "begin" :: forms)) :
    compStep self form env tail w = compForms self env tail forms w := by
  obtain ⟨rest, -, hrest, hcomp⟩ := compStep_keyword self env tail hform rfl
  rw [hcomp]
  unfold compSpecial compBody
  dsimp only
  rw [Cmd.bind_run_ok (onData_run_same (listToVector_of_isList "body" hrest))]

/-- **`set!`** of a local variable is the code of the value and a store. -/
theorem compStep_set {form e : Value} {x : String} {i j : ℕ}
    (hform : w.data.IsList form [.sym "set!", .sym x, e]) (hx : locationOf x env = some (i, j)) :
    compStep self form env tail w = (do
      let code ← self.comp e env false
      return code ++ [.lset (← operand i) (← operand j)] : SchemeM X Code) w := by
  obtain ⟨rest, -, hrest, hcomp⟩ := compStep_keyword self env tail hform rfl
  have harity : checkArity "set!" rest 2 2 w.data = (.ok (), w.data) :=
    checkArity_of_isList hrest (Nat.le_refl _) (.inr (Nat.le_refl _))
  obtain ⟨values, -, hcar, hcdr, hvalues, -⟩ := hrest.split
  obtain ⟨-, -, hcar', -⟩ := hvalues.split
  have hvalue : (do car (← cdr rest) : DataM X Value) w.data = (.ok e, w.data) := by
    rw [Cmd.bind_run_ok hcdr, hcar']
  rw [hcomp]
  unfold compSpecial compSet
  dsimp only
  rw [Cmd.bind_run_ok (onData_run_same harity), Cmd.bind_run_ok (onData_run_same hcar)]
  dsimp only
  rw [Cmd.bind_run_ok (onData_run_same hvalue), hx]

/-- **A closure**: the body is scanned for definitions, and then compiled in
the scope of the parameters. -/
theorem compileLambda_run {ps body body' : Value} {forms' : List Value} {fixed : List String}
    {r : Option String} (hps : extractParams ps w.data = (.ok (some (fixed, r)), w.data))
    (hscan : scanOutDefines body w.data = (.ok body', s')) (hforms : s'.IsList body' forms') :
    compileLambda self ps body env w = (do
      let code ← compForms self ((fixed ++ r.toList) :: env) true forms'
      return .ldf fixed r (code ++ [.rtn]) false : SchemeM X Instr) (w.withData s') := by
  unfold compileLambda compBody
  rw [Cmd.bind_run_ok (onData_run_same hps)]
  dsimp only
  rw [Cmd.bind_run_ok (onData_run hscan), Cmd.bind_assoc_run,
    Cmd.bind_run_ok (onData_run_same (listToVector_of_isList "body" hforms))]

/-- **What a closure is compiled from.** -/
theorem compileLambda_eq_ok {ps body : Value} {i : Instr}
    (h : compileLambda self ps body env w = (.ok i, w')) :
    ∃ fixed r body' s' code, extractParams ps w.data = (.ok (some (fixed, r)), w.data) ∧
      scanOutDefines body w.data = (.ok body', s') ∧
      compBody self body' ((fixed ++ r.toList) :: env) true (w.withData s') = (.ok code, w') ∧
      i = .ldf fixed r (code ++ [.rtn]) false := by
  obtain ⟨params, w₁, hparams, h⟩ := Cmd.exists_of_bind_ok h
  have hrun := onData_eq_ok hparams
  obtain rfl : w₁ = w := by
    rw [← reads_onData (reads_extractParams ps) w, hparams]
  cases params with
  | none => cases (Prod.mk.inj h).1
  | some p =>
    obtain ⟨fixed, r⟩ := p
    obtain ⟨body', w₂, hscan, h⟩ := Cmd.exists_of_bind_ok h
    obtain ⟨code, w₃, hcode, h⟩ := Cmd.exists_of_bind_ok h
    obtain ⟨rfl, rfl⟩ := Cmd.eq_of_pure_ok h
    have hscan' := onData_eq_ok hscan
    rw [onData_run hscan'] at hscan
    have hworld : w₁.withData w₂.data = w₂ := (Prod.mk.inj hscan).2
    refine ⟨fixed, r, body', w₂.data, code, hrun, hscan', ?_, rfl⟩
    rw [hworld]
    exact hcode

variable (self env tail) in
/-- **A lambda expression** is a closure. -/
theorem compStep_lambda {form ps : Value} {forms : List Value}
    (hform : w.data.IsList form (.sym "lambda" :: ps :: forms)) :
    ∃ body, w.data.IsList body forms ∧ compStep self form env tail w =
      (do return [← compileLambda self ps body env] : SchemeM X Code) w := by
  obtain ⟨rest, -, hrest, hcomp⟩ := compStep_keyword self env tail hform rfl
  have harity : checkArity "lambda" rest 1 0 w.data = (.ok (), w.data) :=
    checkArity_of_isList hrest (Nat.succ_pos _) (.inl rfl)
  obtain ⟨body, hparts, -, -, hbody, -⟩ := hrest.split
  refine ⟨body, hbody, ?_⟩
  rw [hcomp]
  unfold compSpecial
  dsimp only
  rw [Cmd.bind_run_ok (onData_run_same harity), Cmd.bind_run_ok (onData_run_same hparts)]

/-- **The call of a lambda expression**: its arguments and then itself. -/
theorem compStep_call {form : Value} {a : ℕ} {es : List Value}
    (hform : w.data.IsList form (.pair a :: es)) :
    compStep self form env tail w = (do
      let args ← compArgs self es env
      let code ← self.comp (.pair a) env false
      let m ← operand es.length
      return args ++ markLast code ++ [if tail then .tapp m else .app m] : SchemeM X Code) w := by
  obtain ⟨b, rest, rfl, hp, hes⟩ := hform
  have hexpands : macroExpand1 self (.pair b) w = (.ok (.pair b), w) := by
    unfold macroExpand1
    rw [if_neg (show ¬ (!isPair (.pair b)) = true from nofun),
      Cmd.bind_run_ok (onData_run_same (asPair_pair hp))]
    rfl
  unfold compStep
  rw [if_neg (show ¬ (Value.pair b).selfEvaluating = true from nofun)]
  dsimp only
  rw [Cmd.bind_run_ok (onData_run_same (asPair_pair hp))]
  dsimp only
  rw [show keywordOf (.pair a) = none from rfl]
  dsimp only
  rw [Cmd.bind_run_ok hexpands, if_neg (not_not.mpr rfl)]
  unfold compCall
  rw [Cmd.bind_run_ok (onData_run_same (listToVector_of_isList "application" hes))]

/-- The instruction for a variable. -/
def varInstr (t : Table) (name : String) (env : CompileEnv) : Instr :=
  match locationOf name env with
  | some (i, j) => .ld (i % 65536) (j % 65536)
  | none => .ldg ⟨t, name⟩

theorem operand_run (n : ℕ) (w : World X) : ∃ b,
    operand n w = (.ok (n % 65536), { w with truncated := b }) := by
  unfold operand
  by_cases hn : 65536 ≤ n
  · exact ⟨true, by rw [if_pos hn]; rfl⟩
  · exact ⟨w.truncated, by rw [if_neg hn]; rfl⟩

variable (self env tail w) in
/-- **A variable** is one instruction. -/
theorem compStep_sym (name : String) : ∃ b, compStep self (.sym name) env tail w =
    (.ok [varInstr w.compileTable name env], { w with truncated := b }) := by
  show ∃ b, compVar name env w = _
  unfold compVar varInstr
  cases locationOf name env with
  | none => exact ⟨w.truncated, rfl⟩
  | some p =>
    obtain ⟨i, j⟩ := p
    obtain ⟨b, hi⟩ := operand_run i w
    obtain ⟨b', hj⟩ := operand_run j { w with truncated := b }
    refine ⟨b', ?_⟩
    dsimp only
    rw [Cmd.bind_run_ok hi, Cmd.bind_run_ok hj]
    rfl

/-! ## What compiled forms were compiled from -/

section

variable {next : ℕ → Self X} {form : Value} {x : String} {c : Code} (hnext : Levels next)
include hnext

/-- **A derived form**: what it expands to, with any fuel. -/
theorem comp_derived_eq_ok {v : Value} {d : Derived} {xs : List Value}
    (hform : w.data.IsList form (.sym x :: xs)) (hword : keywordOf (.sym x) = some (.derived d))
    (hd : derivedOf x = some d) (hv : ∀ fuel, expandDerived fuel form d w.data = (.ok v, s'))
    (h : (next n).comp form env tail w = (.ok c, w')) :
    ∃ m, n = m + 1 ∧ (next m).comp v env tail (w.withData s') = (.ok c, w') := by
  replace h := hnext.step h
  obtain ⟨m, rfl, h⟩ := h
  rw [compStep_derived hform hword hd (hv _)] at h
  exact ⟨m, rfl, h⟩

/-- A sequence. -/
theorem comp_begin_eq_ok {forms : List Value}
    (hform : w.data.IsList form (.sym "begin" :: forms))
    (h : (next n).comp form env tail w = (.ok c, w')) :
    ∃ m, n = m + 1 ∧ compForms (next m) env tail forms w = (.ok c, w') := by
  replace h := hnext.step h
  obtain ⟨m, rfl, h⟩ := h
  rw [compStep_begin hform] at h
  exact ⟨m, rfl, h⟩

/-- A call: the arguments, and then the code of the lambda expression. -/
theorem comp_call_eq_ok {a : ℕ} {es : List Value} (hform : w.data.IsList form (.pair a :: es))
    (h : (next n).comp form env tail w = (.ok c, w')) :
    ∃ m args w₁ code w₂, n = m + 1 ∧ compArgs (next m) es env w = (.ok args, w₁) ∧
      (next m).comp (.pair a) env false w₁ = (.ok code, w₂) ∧
      c = args ++ markLast code ++
        [if tail then .tapp (es.length % 65536) else .app (es.length % 65536)] := by
  replace h := hnext.step h
  obtain ⟨m, rfl, h⟩ := h
  rw [compStep_call hform] at h
  obtain ⟨args, w₁, hargs, h⟩ := Cmd.exists_of_bind_ok h
  obtain ⟨code, w₂, hcode, h⟩ := Cmd.exists_of_bind_ok h
  obtain ⟨b, hop⟩ := operand_run es.length w₂
  rw [Cmd.bind_run_ok hop] at h
  obtain ⟨rfl, -⟩ := Cmd.eq_of_pure_ok h
  exact ⟨m, args, w₁, code, w₂, rfl, hargs, hcode, rfl⟩

/-- A lambda expression, where it is not called. -/
theorem comp_lambda_eq_ok {ps : Value} {forms : List Value}
    (hform : w.data.IsList form (.sym "lambda" :: ps :: forms))
    (h : (next n).comp form env tail w = (.ok c, w')) :
    ∃ m body i, n = m + 1 ∧ w.data.IsList body forms ∧
      compileLambda (next m) ps body env w = (.ok i, w') ∧ c = [i] := by
  replace h := hnext.step h
  obtain ⟨m, rfl, h⟩ := h
  obtain ⟨body, hbody, hcomp⟩ := compStep_lambda (next m) env tail hform
  rw [hcomp] at h
  obtain ⟨i, w₁, hi, h⟩ := Cmd.exists_of_bind_ok h
  obtain ⟨rfl, rfl⟩ := Cmd.eq_of_pure_ok h
  exact ⟨m, body, i, rfl, hbody, hi, rfl⟩

/-- An assignment to a local variable. -/
theorem comp_set_eq_ok {e : Value} {i j : ℕ}
    (hform : w.data.IsList form [.sym "set!", .sym x, e]) (hx : locationOf x env = some (i, j))
    (h : (next n).comp form env tail w = (.ok c, w')) :
    ∃ m code w₁, n = m + 1 ∧ (next m).comp e env false w = (.ok code, w₁) ∧
      w'.data = w₁.data ∧ c = code ++ [.lset (i % 65536) (j % 65536)] := by
  replace h := hnext.step h
  obtain ⟨m, rfl, h⟩ := h
  rw [compStep_set hform hx] at h
  obtain ⟨code, w₁, hcode, h⟩ := Cmd.exists_of_bind_ok h
  obtain ⟨b, hi⟩ := operand_run i w₁
  obtain ⟨b', hj⟩ := operand_run j { w₁ with truncated := b }
  rw [Cmd.bind_run_ok hi, Cmd.bind_run_ok hj] at h
  obtain ⟨rfl, rfl⟩ := Cmd.eq_of_pure_ok h
  exact ⟨m, code, w₁, rfl, hcode, rfl, rfl⟩

/-- A variable: its instruction, and nothing has become of the data. -/
theorem comp_sym_eq_ok (h : (next n).comp (.sym x) env tail w = (.ok c, w')) :
    c = [varInstr w.compileTable x env] ∧ ∃ b, w' = { w with truncated := b } := by
  replace h := hnext.step h
  obtain ⟨m, rfl, h⟩ := h
  obtain ⟨b, hrun⟩ := compStep_sym (next m) w env tail x
  obtain ⟨hc, hw⟩ := Prod.mk.inj (h.symm.trans hrun)
  exact ⟨Except.ok.inj hc, b, hw⟩

/-- The same variable again and again. -/
theorem compArgs_sym_eq_ok {k : ℕ}
    (h : compArgs (next n) (List.replicate k (.sym x)) env w = (.ok c, w')) :
    c = List.replicate k (varInstr w.compileTable x env) ∧ w'.data = w.data := by
  obtain ⟨cs, w₁, hcs, hend⟩ := Cmd.exists_of_bind_ok h
  obtain ⟨rfl, rfl⟩ := Cmd.eq_of_pure_ok hend
  clear h hend
  induction k generalizing w cs with
  | zero =>
    obtain ⟨rfl, rfl⟩ := Cmd.eq_of_pure_ok hcs
    exact ⟨rfl, rfl⟩
  | succ k ih =>
    obtain ⟨c, w₂, hc, hcs⟩ := Cmd.exists_of_bind_ok hcs
    obtain ⟨cs', w₃, hcs', hend⟩ := Cmd.exists_of_bind_ok hcs
    obtain ⟨rfl, rfl⟩ := Cmd.eq_of_pure_ok hend
    obtain ⟨rfl, b, rfl⟩ := comp_sym_eq_ok hnext hc
    obtain ⟨hcode, hdata⟩ := ih cs' hcs'
    exact ⟨by rw [List.flatten_cons, hcode]; rfl, hdata⟩

/-- A global definition: what it evaluates, and the instruction that defines the name. -/
theorem comp_define_eq_ok {d : DefExpr} (hform : w.data.IsDefinition form x d)
    (h : (next n).comp form env tail w = (.ok c, w')) : ∃ m code y, y.name = x ∧
      c = code ++ [.defG y] ∧ match d with
        | .value e => ∃ w₁, (next m).comp e env false w = (.ok code, w₁)
        | .procedure ps forms => ∃ body i w₁, w.data.IsList body forms ∧ code = [i] ∧
            compileLambda (next m) ps body env w = (.ok i, w₁) := by
  replace h := hnext.step h
  obtain ⟨m, rfl, h⟩ := h
  have hend : ∀ {w₁ : World X} (code : Code),
      (do let y ← compileGlobal x
          return code ++ [if false = true then .defm y else .defG y] : SchemeM X Code) w₁ =
        (.ok c, w') → ∃ y : Cell, y.name = x ∧ c = code ++ [.defG y] := by
    intro w₁ code h
    obtain ⟨y, w₂, hy, h⟩ := Cmd.exists_of_bind_ok h
    obtain ⟨rfl, -⟩ := Cmd.eq_of_pure_ok h
    obtain ⟨w₃, w₄, hw, hy⟩ := Cmd.exists_of_bind_ok hy
    obtain ⟨rfl, -⟩ := Cmd.eq_of_pure_ok hy
    exact ⟨_, rfl, rfl⟩
  -- a definition is compiled for the interaction environment only
  have htable : w.compileTable = .interaction := by
    by_contra hne
    obtain ⟨xs, hlist⟩ : ∃ xs, w.data.IsList form (.sym "define" :: xs) := by
      cases d with
      | value e => exact ⟨_, hform⟩
      | procedure ps forms =>
        obtain ⟨a, hlist, -⟩ := hform
        exact ⟨_, hlist⟩
    obtain ⟨rest, -, -, hcomp⟩ := compStep_keyword (next m) env tail hlist rfl
    rw [hcomp] at h
    unfold compSpecial compDefine at h
    dsimp only at h
    rw [Cmd.bind_run_ok (Cmd.getState_run w), if_pos hne] at h
    obtain ⟨a, w₁, ha, -⟩ := Cmd.exists_of_bind_ok h
    cases (Prod.mk.inj ha).1
  cases d with
  | value e =>
    obtain ⟨rest, -, hrest, hcomp⟩ := compStep_keyword (next m) env tail hform rfl
    have harity : checkArity "define" rest 1 0 w.data = (.ok (), w.data) :=
      checkArity_of_isList hrest (Nat.le_add_left _ _) (.inl rfl)
    obtain ⟨rhs, hparts, -, -, hrhs, -⟩ := hrest.split
    obtain ⟨d, -, hcar, hcdr, hnil, hpair⟩ := hrhs.split
    obtain rfl : d = .nil := hnil
    have hne : rhs ≠ .nil := by
      rintro rfl
      cases hpair
    rw [hcomp] at h
    unfold compSpecial compDefine at h
    dsimp only at h
    rw [Cmd.bind_run_ok (Cmd.getState_run w), if_neg (not_not.mpr htable),
      if_neg Bool.false_ne_true, Cmd.bind_run_ok (onData_run_same harity),
      Cmd.bind_run_ok (onData_run_same hparts)] at h
    dsimp only at h
    rw [if_neg hne, Cmd.bind_run_ok (onData_run_same hcdr), if_neg (not_not.mpr rfl),
      Cmd.bind_run_ok (onData_run_same hcar)] at h
    obtain ⟨code, w₁, hcode, h⟩ := Cmd.exists_of_bind_ok h
    obtain ⟨y, hy, rfl⟩ := hend code h
    exact ⟨m, code, y, hy, rfl, w₁, hcode⟩
  | procedure ps forms =>
    obtain ⟨a, hlist, ha⟩ := hform
    obtain ⟨rest, -, hrest, hcomp⟩ := compStep_keyword (next m) env tail hlist rfl
    have harity : checkArity "define" rest 1 0 w.data = (.ok (), w.data) :=
      checkArity_of_isList hrest (Nat.le_add_left _ _) (.inl rfl)
    obtain ⟨body, hparts, -, -, hbody, -⟩ := hrest.split
    rw [hcomp] at h
    unfold compSpecial compDefine at h
    dsimp only at h
    rw [Cmd.bind_run_ok (Cmd.getState_run w), if_neg (not_not.mpr htable),
      if_neg Bool.false_ne_true, Cmd.bind_run_ok (onData_run_same harity),
      Cmd.bind_run_ok (onData_run_same hparts)] at h
    dsimp only at h
    rw [Cmd.bind_run_ok (onData_run_same (asPair_pair ha))] at h
    dsimp only at h
    obtain ⟨i, w₁, hi, h⟩ := Cmd.exists_of_bind_ok h
    obtain ⟨y, hy, rfl⟩ := hend [i] h
    exact ⟨m, [i], y, hy, rfl, body, i, w₁, hbody, rfl, hi⟩

end

end Scheme14
