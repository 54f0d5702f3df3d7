import SecdScheme.Scheme14.CallsRelated
import SecdScheme.Scheme14.FormCode
import SecdScheme.Scheme14.Safety

/-!
# scheme14: operands that fit

An operand of an instruction has 16 bits: the depth of a frame, the place of a
variable in it, and the number of arguments of a call. The compiler cuts what
does not fit. Beside it stands the compiler that rejects such a form, which is
what the code is measured by: the same but for the forms that emit an operand.
-/

namespace Scheme14

open Cmd (Refines)

variable {X : Type}

/-! ## The compiler that rejects -/

/-- An operand, if it fits. -/
def wordOperand (n : ℕ) : SchemeM X ℕ :=
  if n < 65536 then pure n else errorAt "operand does not fit"

/-- A variable. -/
def rejectingVar (name : String) (env : CompileEnv) : SchemeM X Code := do
  match locationOf name env with
  | some (i, j) => return [.ld (← wordOperand i) (← wordOperand j)]
  | none => return [.ldg (← compileGlobal name)]

/-- `set!`. -/
def rejectingSet (self : Self X) (rest : Value) (env : CompileEnv) : SchemeM X Code := do
  onData (checkArity "set!" rest 2 2)
  match ← onData (car rest) with
  | .sym name =>
    let code ← self.comp (← onData (do car (← cdr rest))) env false
    match locationOf name env with
    | some (i, j) => return code ++ [.lset (← wordOperand i) (← wordOperand j)]
    | none =>
      if (← Cmd.getState).compileTable ≠ .interaction then
        onData (syntaxError "set!" "note: accepted only in the interaction environment")
      return code ++ [.gset (← compileGlobal name)]
  | target =>
    onData (syntaxError "set!" (expectedGiven "the assignment target to be a symbol" target))

/-- `apply`. -/
def rejectingApply (self : Self X) (rest : Value) (env : CompileEnv) (tail : Bool) :
    SchemeM X Code := do
  onData (checkArity "apply" rest 2 0)
  match ← onData (listToVector rest "apply") with
  | [] => internalError "apply without an operator"
  | f :: xs =>
    let args ← compArgs self xs env
    let n ← wordOperand xs.length
    let code ← self.comp f env false
    return args ++ .argsAp n :: code ++ [if tail then .tapply else .apply]

/-- A call. -/
def rejectingCall (self : Self X) (head rest : Value) (env : CompileEnv) (tail : Bool) :
    SchemeM X Code := do
  let xs ← onData (listToVector rest "application")
  let args ← compArgs self xs env
  let code ← self.comp head env false
  let n ← wordOperand xs.length
  return args ++ markLast code ++ [if tail then .tapp n else .app n]

/-- **The compiler that rejects** a form whose operands do not fit. -/
def rejectingStep (self : Self X) (expr : Value) (env : CompileEnv) (tail : Bool) :
    SchemeM X Code := do
  if expr.selfEvaluating then return [.ldc expr]
  match expr with
  | .sym name => rejectingVar name env
  | .pair _ =>
    let (head, rest) ← onData (asPair expr)
    match keywordOf head with
    | some .set => rejectingSet self rest env
    | some .apply => rejectingApply self rest env tail
    | some word => compSpecial self expr rest env tail word
    | none =>
      let expanded ← macroExpand1 self expr
      if expanded ≠ expr then self.comp expanded env tail
      else rejectingCall self head rest env tail
  | v => return [.ldc v]

/-- The compiler that rejects, to a depth of recursion. The transformers of
macros run as they do. -/
def rejectingComp (host : Host X) : ℕ → Value → CompileEnv → Bool → SchemeM X Code
  | 0 => fun _ _ _ => Cmd.fail .outOfFuel
  | n + 1 => rejectingStep { machine host n with comp := rejectingComp host n }

/-! ## What has to fit -/

/-- The place of a variable fits, if it is a local one. -/
def LocationFits (name : String) (env : CompileEnv) : Prop :=
  ∀ i j, locationOf name env = some (i, j) → i < 65536 ∧ j < 65536

/-- The quantities of a form with a head fit: the place of the variable that is
assigned, and the number of arguments of `apply` or of a call. A form whose
head is a macro that expands it is no call. -/
def FormFits (self : Self X) (w : World X) (env : CompileEnv) (form head rest : Value) : Prop :=
  match keywordOf head with
  | some .set => ∀ name, car rest w.data = (.ok (.sym name), w.data) → LocationFits name env
  | some .apply => ∀ f xs, listToVector rest "apply" w.data = (.ok (f :: xs), w.data) →
      xs.length < 65536
  | some _ => True
  | none => ∀ w' xs, macroExpand1 self form w = (.ok form, w') →
      listToVector rest "application" w'.data = (.ok xs, w'.data) → xs.length < 65536

/-- **The quantities of an expression fit.** -/
def OperandsFit (self : Self X) (w : World X) (env : CompileEnv) : Value → Prop
  | .sym name => LocationFits name env
  | .pair a =>
    let p := (w.data.pairs[a]?).getD (.nil, .nil)
    FormFits self w env (.pair a) p.1 p.2
  | _ => True

/-! ## One step -/

section Step

variable {α β : Type} {w w' w₁ : World X} {n : ℕ}

theorem operand_of_lt (h : n < 65536) : (operand n : SchemeM X ℕ) w = (.ok n, w) := by
  unfold operand
  rw [if_neg (by omega), Nat.mod_eq_of_lt h]
  rfl

theorem wordOperand_of_lt (h : n < 65536) : (wordOperand n : SchemeM X ℕ) w = (.ok n, w) := by
  unfold wordOperand
  rw [if_pos h]
  rfl

/-- **An operand in the middle of a command**: to reject it changes nothing
exactly when it fits. -/
theorem wordOperand_bind {f : ℕ → SchemeM X β} {b : β} {P : Prop}
    (hrest : n < 65536 → (f n w = (.ok b, w') ↔ P)) :
    (wordOperand n >>= f) w = (.ok b, w') ↔ n < 65536 ∧ P := by
  by_cases hn : n < 65536
  · rw [Cmd.bind_run_ok (wordOperand_of_lt hn), hrest hn]
    exact ⟨fun h => ⟨hn, h⟩, fun h => h.2⟩
  · constructor
    · intro h
      obtain ⟨a, w₁, ha, -⟩ := Cmd.exists_of_bind_ok h
      unfold wordOperand at ha
      rw [if_neg hn] at ha
      cases (Prod.mk.inj ha).1
    · exact fun h => absurd h.1 hn

/-- A place of which both numbers are operands. -/
theorem location_iff {i j : ℕ} {f : ℕ → ℕ → Code} {code : Code}
    (h : (do return f (← operand i) (← operand j) : SchemeM X Code) w = (.ok code, w')) :
    (do return f (← wordOperand i) (← wordOperand j) : SchemeM X Code) w = (.ok code, w') ↔
      i < 65536 ∧ j < 65536 := by
  rw [wordOperand_bind (P := j < 65536) fun hi => ?_]
  rw [Cmd.bind_run_ok (operand_of_lt hi)] at h
  rw [wordOperand_bind (P := True) fun hj => ?_, and_true]
  rw [Cmd.bind_run_ok (operand_of_lt hj)] at h
  exact iff_true_intro h

variable {self : Self X} {env : CompileEnv} {tail : Bool} {code : Code}

/-- The place of a variable, whatever is emitted where there is none. -/
theorem match_location_iff {name : String} {f : ℕ → ℕ → Code} {m : SchemeM X Code}
    (h : (match locationOf name env with
      | some (i, j) => do return f (← operand i) (← operand j)
      | none => m) w = (.ok code, w')) :
    (match locationOf name env with
      | some (i, j) => do return f (← wordOperand i) (← wordOperand j)
      | none => m) w = (.ok code, w') ↔ LocationFits name env := by
  unfold LocationFits
  cases hloc : locationOf name env with
  | none =>
    rw [hloc] at h
    exact ⟨fun _ _ _ h' => (nomatch h'), fun _ => h⟩
  | some p =>
    obtain ⟨i, j⟩ := p
    rw [hloc] at h
    dsimp only at h ⊢
    rw [location_iff h]
    constructor
    · intro hfits i' j' h'
      obtain ⟨rfl, rfl⟩ := Prod.mk.inj (Option.some.inj h')
      exact hfits
    · exact fun hfits => hfits i j rfl

theorem rejectingSet_iff {rest : Value} (h : compSet self rest env w = (.ok code, w')) :
    rejectingSet self rest env w = (.ok code, w') ↔
      ∀ name, car rest w.data = (.ok (.sym name), w.data) → LocationFits name env := by
  unfold compSet at h
  unfold rejectingSet
  obtain ⟨u, w₁, harity, h⟩ := Cmd.exists_of_bind_ok h
  have hw₁ : w₁ = w := by rw [← reads_onData (reads_checkArity "set!" rest 2 2) w, harity]
  rw [hw₁] at harity h
  rw [Cmd.bind_run_ok harity]
  obtain ⟨target, w₂, htarget, h⟩ := Cmd.exists_of_bind_ok h
  have hw₂ : w₂ = w := by rw [← reads_onData (reads_car rest) w, htarget]
  rw [hw₂] at htarget h
  rw [Cmd.bind_run_ok htarget]
  have hcar := onData_eq_ok htarget
  cases target with
  | sym name =>
    dsimp only at h ⊢
    obtain ⟨value, w₃, hvalue, h⟩ := Cmd.exists_of_bind_ok h
    rw [Cmd.bind_run_ok hvalue]
    obtain ⟨c, w₄, hc, h⟩ := Cmd.exists_of_bind_ok h
    rw [Cmd.bind_run_ok hc, match_location_iff h]
    constructor
    · intro hfits name' h'
      obtain rfl : name = name' :=
        Value.sym.inj (Except.ok.inj (Prod.mk.inj (hcar.symm.trans h')).1)
      exact hfits
    · exact fun hfits => hfits name hcar
  | _ => cases (Prod.mk.inj h).1

theorem rejectingApply_iff {rest : Value} (h : compApply self rest env tail w = (.ok code, w')) :
    rejectingApply self rest env tail w = (.ok code, w') ↔
      ∀ f xs, listToVector rest "apply" w.data = (.ok (f :: xs), w.data) → xs.length < 65536 := by
  unfold compApply at h
  unfold rejectingApply
  obtain ⟨u, w₁, harity, h⟩ := Cmd.exists_of_bind_ok h
  have hw₁ : w₁ = w := by rw [← reads_onData (reads_checkArity "apply" rest 2 0) w, harity]
  rw [hw₁] at harity h
  rw [Cmd.bind_run_ok harity]
  obtain ⟨xs, w₂, hxs, h⟩ := Cmd.exists_of_bind_ok h
  have hw₂ : w₂ = w := by rw [← reads_onData (reads_listToVector rest "apply") w, hxs]
  rw [hw₂] at hxs h
  rw [Cmd.bind_run_ok hxs]
  have hlist := onData_eq_ok hxs
  cases xs with
  | nil => cases (Prod.mk.inj h).1
  | cons f xs =>
    dsimp only at h ⊢
    obtain ⟨args, w₃, hargs, h⟩ := Cmd.exists_of_bind_ok h
    rw [Cmd.bind_run_ok hargs, wordOperand_bind (P := True) fun hn => ?_, and_true]
    · constructor
      · intro hfits f' xs' h'
        obtain ⟨rfl, rfl⟩ := List.cons.inj (Except.ok.inj (Prod.mk.inj (hlist.symm.trans h')).1)
        exact hfits
      · exact fun hfits => hfits f xs hlist
    · rw [Cmd.bind_run_ok (operand_of_lt hn)] at h
      exact iff_true_intro h

theorem rejectingCall_iff {head rest : Value}
    (h : compCall self head rest env tail w = (.ok code, w')) :
    rejectingCall self head rest env tail w = (.ok code, w') ↔
      ∀ xs, listToVector rest "application" w.data = (.ok xs, w.data) → xs.length < 65536 := by
  unfold compCall at h
  unfold rejectingCall
  obtain ⟨xs, w₁, hxs, h⟩ := Cmd.exists_of_bind_ok h
  have hw₁ : w₁ = w := by rw [← reads_onData (reads_listToVector rest "application") w, hxs]
  rw [hw₁] at hxs h
  rw [Cmd.bind_run_ok hxs]
  have hlist := onData_eq_ok hxs
  obtain ⟨args, w₂, hargs, h⟩ := Cmd.exists_of_bind_ok h
  rw [Cmd.bind_run_ok hargs]
  obtain ⟨c, w₃, hc, h⟩ := Cmd.exists_of_bind_ok h
  rw [Cmd.bind_run_ok hc, wordOperand_bind (P := True) fun hn => ?_, and_true]
  · constructor
    · intro hfits xs' h'
      obtain rfl := Except.ok.inj (Prod.mk.inj (hlist.symm.trans h')).1
      exact hfits
    · exact fun hfits => hfits xs hlist
  · rw [Cmd.bind_run_ok (operand_of_lt hn)] at h
    exact iff_true_intro h

/-- **The operands that a form emits are its quantities** exactly when these
fit: only then has the compiler done what the one that rejects does. -/
theorem rejectingStep_iff {expr : Value} (h : compStep self expr env tail w = (.ok code, w')) :
    rejectingStep self expr env tail w = (.ok code, w') ↔ OperandsFit self w env expr := by
  unfold compStep at h
  unfold rejectingStep
  cases expr with
  | sym name => exact match_location_iff h
  | pair a =>
    rw [if_neg (show ¬ (Value.pair a).selfEvaluating = true from nofun)] at h ⊢
    dsimp only at h ⊢
    have hform : onData (asPair (.pair a)) w = (.ok ((w.data.pairs[a]?).getD (.nil, .nil)), w) :=
      onData_run_same rfl
    rw [Cmd.bind_run_ok hform] at h ⊢
    show _ ↔ FormFits self w env (.pair a) _ _
    unfold FormFits
    generalize (w.data.pairs[a]?).getD (.nil, .nil) = p at h ⊢
    obtain ⟨head, rest⟩ := p
    dsimp only at h ⊢
    cases hword : keywordOf head with
    | none =>
      rw [hword] at h
      dsimp only at h ⊢
      obtain ⟨expanded, w₁, hexpanded, h⟩ := Cmd.exists_of_bind_ok h
      rw [Cmd.bind_run_ok hexpanded]
      by_cases hsame : expanded ≠ .pair a
      · rw [if_pos hsame] at h ⊢
        refine iff_of_true h fun w₂ xs h' => absurd ?_ hsame
        exact Except.ok.inj (Prod.mk.inj (hexpanded.symm.trans h')).1
      · rw [if_neg hsame] at h ⊢
        obtain rfl : expanded = .pair a := not_not.mp hsame
        rw [rejectingCall_iff h]
        constructor
        · intro hfits w₂ xs h' hxs
          obtain rfl := (Prod.mk.inj (hexpanded.symm.trans h')).2
          exact hfits xs hxs
        · exact fun hfits xs => hfits w₁ xs hexpanded
    | some word =>
      rw [hword] at h
      cases word with
      | set => exact rejectingSet_iff h
      | apply => exact rejectingApply_iff h
      | _ => exact iff_true_intro h
  | _ => exact iff_true_intro h

end Step

/-! ## Whole expressions -/

section Whole

variable {self : Self X} {comp : Value → CompileEnv → Bool → SchemeM X Code}

theorem refines_wordOperand (n : ℕ) : Refines (wordOperand n : SchemeM X ℕ) (operand n) := by
  intro w a w' h
  by_cases hn : n < 65536
  · rw [wordOperand_of_lt hn] at h
    rw [operand_of_lt hn, h]
  · unfold wordOperand at h
    rw [if_neg hn] at h
    cases (Prod.mk.inj h).1

theorem refines_rejectingVar (name : String) (env : CompileEnv) :
    Refines (rejectingVar name env : SchemeM X Code) (compVar name env) := by
  unfold rejectingVar compVar
  cases locationOf name env with
  | none => exact .refl _
  | some p =>
    exact (refines_wordOperand _).bind fun _ => (refines_wordOperand _).bind fun _ => .refl _

variable (hcomp : ∀ e env tail, Refines (comp e env tail) (self.comp e env tail))
include hcomp

/-- The calls with another compiler. -/
theorem related_comp : Self.Related (.ofCongruence Cmd.refining) { self with comp := comp } self :=
  .of_congruence rfl hcomp (fun _ => .refl _) fun _ _ => .refl _

theorem refines_rejectingSet (rest : Value) (env : CompileEnv) :
    Refines (rejectingSet { self with comp := comp } rest env) (compSet self rest env) := by
  refine .after _ fun _ => .after _ fun target => ?_
  cases target with
  | sym name =>
    refine .after _ fun e => (hcomp e env false).bind fun _ => ?_
    cases locationOf name env with
    | none => exact .refl _
    | some p =>
      exact (refines_wordOperand _).bind fun _ => (refines_wordOperand _).bind fun _ => .refl _
  | _ => exact .refl _

theorem refines_rejectingApply (rest : Value) (env : CompileEnv) (tail : Bool) :
    Refines (rejectingApply { self with comp := comp } rest env tail)
      (compApply self rest env tail) := by
  refine .after _ fun _ => .after _ fun xs => ?_
  cases xs with
  | nil => exact .refl _
  | cons f xs =>
    refine ((related_comp hcomp).compArgs _ env).bind fun _ => (refines_wordOperand _).bind fun _ => ?_
    exact (hcomp _ env false).bind fun _ => .refl _

theorem refines_rejectingCall (head rest : Value) (env : CompileEnv) (tail : Bool) :
    Refines (rejectingCall { self with comp := comp } head rest env tail)
      (compCall self head rest env tail) := by
  refine .after _ fun xs => ((related_comp hcomp).compArgs xs env).bind fun _ => ?_
  refine (hcomp head env false).bind fun _ => (refines_wordOperand _).bind fun _ => .refl _

theorem refines_rejectingStep (expr : Value) (env : CompileEnv) (tail : Bool) :
    Refines (rejectingStep { self with comp := comp } expr env tail)
      (compStep self expr env tail) := by
  unfold rejectingStep compStep
  refine .ite (.refl _) ?_
  cases expr with
  | sym name => exact refines_rejectingVar name env
  | pair a =>
    refine .after _ fun p => ?_
    obtain ⟨head, rest⟩ := p
    dsimp only
    cases hword : keywordOf head with
    | none =>
      refine .after _ fun expanded => .ite (hcomp expanded env tail) ?_
      exact refines_rejectingCall hcomp head rest env tail
    | some word =>
      cases word with
      | set => exact refines_rejectingSet hcomp rest env
      | apply => exact refines_rejectingApply hcomp rest env tail
      | _ => exact (related_comp hcomp).compSpecial _ rest env tail _
  | _ => exact .refl _

end Whole

/-- **Where nothing is rejected** in a whole expression, its code is that of the
compiler. -/
theorem refines_rejectingComp (host : Host X) : ∀ (n : ℕ) (e : Value) (env : CompileEnv)
    (tail : Bool), Refines (rejectingComp host n e env tail) ((machine host n).comp e env tail)
  | 0, _, _, _ => .fail _
  | n + 1, e, env, tail => refines_rejectingStep (refines_rejectingComp host n) e env tail

/-! ### The forms that are compiled on the way -/

open Classical in
/-- **The compiler that measures each form first**, also those inside of another,
and stops at one whose quantities do not fit. -/
noncomputable def measuringComp (host : Host X) :
    ℕ → Value → CompileEnv → Bool → SchemeM X Code
  | 0 => fun _ _ _ => Cmd.fail .outOfFuel
  | n + 1 => fun e env tail w =>
    if OperandsFit (machine host n) w env e then
      compStep { machine host n with comp := measuringComp host n } e env tail w
    else (.error .outOfFuel, w)

/-- **The quantities of every form fit** that is compiled for an expression. -/
def OperandsFitThroughout (host : Host X) (n : ℕ) (e : Value) (env : CompileEnv) (tail : Bool)
    (w : World X) : Prop :=
  ∃ c w', measuringComp host n e env tail w = (.ok c, w')

section Throughout

variable {host : Host X} {n : ℕ} {e : Value} {env : CompileEnv} {tail : Bool} {w w' : World X}
  {code : Code}

/-- What a step returns does not depend on which of two compilers is called for the
parts, where one returns what the other does. -/
theorem compStep_mono (self : Self X) {c c' : Value → CompileEnv → Bool → SchemeM X Code}
    (h : ∀ e env tail, Refines (c e env tail) (c' e env tail)) (e : Value) (env : CompileEnv)
    (tail : Bool) :
    Refines (compStep { self with comp := c } e env tail)
      (compStep { self with comp := c' } e env tail) := by
  have hrelated : Self.Related (.ofCongruence Cmd.refining) { self with comp := c }
      { self with comp := c' } := .of_congruence rfl h (fun _ => .refl _) fun _ _ => .refl _
  exact hrelated.compStep e env tail

theorem measuringComp_succ (h : OperandsFit (machine host n) w env e) :
    measuringComp host (n + 1) e env tail w =
      compStep { machine host n with comp := measuringComp host n } e env tail w :=
  if_pos h

/-- What is not rejected has been measured: the macros of a form are called in the
same way by each of the compilers, so that its quantities are the same. -/
theorem refines_measuringComp (host : Host X) : ∀ (n : ℕ) (e : Value) (env : CompileEnv)
    (tail : Bool), Refines (rejectingComp host n e env tail) (measuringComp host n e env tail)
  | 0, _, _, _ => .fail _
  | n + 1, e, env, tail => by
    intro w code w' h
    let self : Self X := { machine host n with comp := rejectingComp host n }
    have hstep : compStep self e env tail w = (.ok code, w') :=
      @refines_rejectingStep _ self _ (fun e env tail => Refines.refl _) e env tail w code w' h
    have hfits : OperandsFit self w env e := (rejectingStep_iff hstep).mp h
    rw [measuringComp_succ hfits]
    exact compStep_mono _ (refines_measuringComp host n) e env tail w code w' hstep

/-- What has been measured is not rejected. -/
theorem measuringComp_refines (host : Host X) : ∀ (n : ℕ) (e : Value) (env : CompileEnv)
    (tail : Bool), Refines (measuringComp host n e env tail) (rejectingComp host n e env tail)
  | 0, _, _, _ => .fail _
  | n + 1, e, env, tail => by
    intro w code w' h
    by_cases hfits : OperandsFit (machine host n) w env e
    · rw [measuringComp_succ hfits] at h
      have hstep := compStep_mono _ (measuringComp_refines host n) e env tail w code w' h
      exact (rejectingStep_iff hstep).mpr hfits
    · have hnone : measuringComp host (n + 1) e env tail w = (.error .outOfFuel, w) := if_neg hfits
      rw [hnone] at h
      cases (Prod.mk.inj h).1

/-- **A whole expression is accepted** by the compiler that rejects exactly when the
quantities of all its forms fit. -/
theorem rejectingComp_iff (h : (machine host n).comp e env tail w = (.ok code, w')) :
    rejectingComp host n e env tail w = (.ok code, w') ↔
      OperandsFitThroughout host n e env tail w := by
  constructor
  · exact fun hrejecting => ⟨code, w', refines_measuringComp host n e env tail w code w' hrejecting⟩
  · rintro ⟨c, w'', hmeasured⟩
    have hrejecting := measuringComp_refines host n e env tail w c w'' hmeasured
    have hsame := refines_rejectingComp host n e env tail w c w'' hrejecting
    rw [hrejecting, ← hsame, h]

end Throughout

/-- **Operands that fit.** What a step of the compiler emits is what it would
emit without a bound on operands, exactly when the quantities of its form fit.
For a whole expression that is so exactly when they fit for every form that is
compiled on the way; otherwise the compiler that rejects has no code. -/
theorem operands_true_iff (host : Host X) (self : Self X) (env : CompileEnv) (tail : Bool)
    (w w' : World X) (expr : Value) (code : Code) :
    (compStep self expr env tail w = (.ok code, w') →
      (rejectingStep self expr env tail w = (.ok code, w') ↔ OperandsFit self w env expr)) ∧
    ∀ n, (rejectingComp host n expr env tail w = (.ok code, w') →
        (machine host n).comp expr env tail w = (.ok code, w')) ∧
      ((machine host n).comp expr env tail w = (.ok code, w') →
        (rejectingComp host n expr env tail w = (.ok code, w') ↔
          OperandsFitThroughout host n expr env tail w)) :=
  ⟨rejectingStep_iff, fun n => ⟨refines_rejectingComp host n expr env tail w code w',
    rejectingComp_iff⟩⟩

/-- The variable of the innermost frame. -/
theorem operands_true_variable :
    (rejectingStep (machine plainHost 0) (.sym "x") [["x"]] false (pairsWorld []) =
        (.ok [.ld 0 0], pairsWorld []) ↔
      OperandsFit (machine plainHost 0) (pairsWorld []) [["x"]] (.sym "x")) ∧
    (machine plainHost 1).comp (.sym "x") [["x"]] false (pairsWorld []) =
      (.ok [.ld 0 0], pairsWorld []) ∧
    OperandsFitThroughout plainHost 1 (.sym "x") [["x"]] false (pairsWorld []) :=
  have h := operands_true_iff plainHost (machine plainHost 0) [["x"]] false (pairsWorld [])
    (pairsWorld []) (.sym "x") [.ld 0 0]
  ⟨h.1 rfl, (h.2 1).1 rfl, ((h.2 1).2 rfl).mp rfl⟩

/-! ### A call with many arguments -/

/-- The list of so many ones, in a table that has them. -/
def onesTo : ℕ → Value
  | 0 => .nil
  | k + 1 => .pair k

/-- A world with the form `(list 1 ... 1)` at its last address. -/
def onesWorld (k : ℕ) : World Unit :=
  pairsWorld (((List.range k).map fun i => (.int 1, onesTo i)) ++ [(.sym "list", onesTo k)])

theorem isList_onesTo (k : ℕ) : ∀ j ≤ k,
    (onesWorld k).data.IsList (onesTo j) (List.replicate j (.int 1))
  | 0, _ => rfl
  | j + 1, h => by
    refine ⟨j, onesTo j, rfl, ?_, isList_onesTo k j (Nat.le_of_succ_le h)⟩
    show (((List.range k).map fun i => (Value.int 1, onesTo i)) ++ _)[j]? = _
    rw [List.getElem?_append_left (by rwa [List.length_map, List.length_range]),
      List.getElem?_map, List.getElem?_range h]
    rfl

theorem onesWorld_form (k : ℕ) :
    (onesWorld k).data.pairs[k]? = some (.sym "list", onesTo k) := by
  show (((List.range k).map fun i => (Value.int 1, onesTo i)) ++ _)[k]? = _
  rw [List.getElem?_append_right (by simp), List.length_map,
    List.length_range, Nat.sub_self]
  rfl

/-- Constants are compiled to constants. -/
theorem compArgs_ones (host : Host Unit) (n k : ℕ) (w : World Unit) :
    compArgs (machine host (n + 1)) (List.replicate k (.int 1)) [] w =
      (.ok (List.replicate k (.ldc (.int 1))), w) := by
  have hmap : Cmd.mapList (fun x => (machine host (n + 1)).comp x [] false)
      (List.replicate k (.int 1)) w = (.ok (List.replicate k [.ldc (.int 1)]), w) := by
    induction k with
    | zero => rfl
    | succ k ih =>
      rw [List.replicate_succ]
      unfold Cmd.mapList
      rw [Cmd.bind_run_ok (show (machine host (n + 1)).comp (.int 1) [] false w =
        (.ok [.ldc (.int 1)], w) from rfl), Cmd.bind_run_ok ih]
      rfl
  unfold compArgs
  rw [Cmd.bind_run_ok hmap]
  show (Except.ok (List.replicate k [Instr.ldc (.int 1)]).flatten, w) = _
  rw [List.flatten_replicate_singleton]

/-- The code of the call, whatever the number of its arguments. -/
theorem comp_ones (host : Host Unit) (n k : ℕ) : ∃ w',
    (machine host (n + 2)).comp (.pair k) [] false (onesWorld k) =
      (.ok (List.replicate k (.ldc (.int 1)) ++ [.ldg ⟨.interaction, "list"⟩] ++
        [.app (k % 65536)]), w') := by
  obtain ⟨b, hop⟩ := operand_run k (onesWorld k)
  refine ⟨{ onesWorld k with truncated := b }, ?_⟩
  show compStep (machine host (n + 1)) (.pair k) [] false (onesWorld k) = _
  unfold compStep
  rw [if_neg (show ¬ (Value.pair k).selfEvaluating = true from nofun)]
  dsimp only
  rw [Cmd.bind_run_ok (onData_run_same (asPair_pair (onesWorld_form k)))]
  dsimp only
  rw [show keywordOf (.sym "list") = none from rfl]
  dsimp only
  have hexpands : macroExpand1 (machine host (n + 1)) (.pair k) (onesWorld k) =
      (.ok (.pair k), onesWorld k) := by
    unfold macroExpand1
    rw [if_neg (show ¬ (!isPair (.pair k)) = true from nofun),
      Cmd.bind_run_ok (onData_run_same (asPair_pair (onesWorld_form k)))]
    rfl
  rw [Cmd.bind_run_ok hexpands, if_neg (not_not.mpr rfl)]
  unfold compCall
  rw [Cmd.bind_run_ok (onData_run_same (listToVector_of_isList "application"
      (isList_onesTo k k (Nat.le_refl k)))),
    Cmd.bind_run_ok (compArgs_ones host n k (onesWorld k)),
    Cmd.bind_run_ok (show (machine host (n + 1)).comp (.sym "list") [] false (onesWorld k) =
      (.ok [.ldg ⟨.interaction, "list"⟩], onesWorld k) from rfl), List.length_replicate,
    Cmd.bind_run_ok hop]
  rfl

/-- **A call with 65536 arguments is compiled to a call without any.** -/
theorem comp_ones_65536 : (onesWorld 65536).data.IsList (.pair 65536)
      (.sym "list" :: List.replicate 65536 (.int 1)) ∧
    ∃ w', (machine plainHost 2).comp (.pair 65536) [] false (onesWorld 65536) =
      (.ok (List.replicate 65536 (.ldc (.int 1)) ++ [.ldg ⟨.interaction, "list"⟩] ++ [.app 0]),
        w') :=
  ⟨⟨65536, _, rfl, onesWorld_form 65536, isList_onesTo 65536 65536 (Nat.le_refl _)⟩,
    comp_ones plainHost 0 65536⟩

end Scheme14
