import SecdScheme.Scheme14.CallsRelated
import SecdScheme.Scheme14.Dotted
import SecdScheme.Scheme14.Primitives
import SecdScheme.Scheme14.Expansion

/-!
# scheme14: mistakes of the user

A step of the compiler takes the special forms apart, and a primitive its
arguments. Whatever is wrong with them is an ordinary error, but for three
mistakes: the two dotted ends that the expanders do not look for, and
`symbol->string` of what is no symbol. They end in an accessor.

A step of the compiler is looked at by itself: its calls are those of a machine,
with the errors set apart that no handler catches, so that every internal error it
ends in is its own.
-/

namespace Scheme14

open Cmd (Errs)

variable {X α : Type} {s : Data X} {w : World X} {self : Self X} {env : CompileEnv} {tail : Bool}

/-! ## Commands of the world -/

/-- Errors of the data are those of the world. -/
theorem errs_onData {E : Err → Prop} {m : DataM X α} (h : Errs E m w.data) :
    Errs E (onData m) w := by
  intro e w' hrun
  exact h e (m w.data).2 (Prod.ext (Prod.mk.inj hrun).1 rfl)

/-- A slip on the data is one in the world. -/
theorem slips_onData {m : DataM X α} (h : Slips m w.data) : Slips (onData m) w := by
  obtain ⟨e, s', hrun, he⟩ := h
  refine ⟨e, w.withData s', ?_, he⟩
  unfold onData
  rw [hrun]
  rfl

/-- What is reported, is an ordinary error. -/
theorem errs_reported {who : String} {m : DataM X α} (h : Errs (Err.ReportedBy who) m w.data) :
    Errs Err.Ordinary (onData m) w :=
  errs_onData (h.mono fun _ => Err.ReportedBy.ordinary)

/-- An error the program reports is an ordinary one. -/
theorem errs_errorAt {σ : Type} {t : σ} (message : Message) :
    Errs Err.Ordinary (errorAt message : Cmd σ Err α) t :=
  .fail trivial

/-- A part that reads, and reports what is wrong. -/
theorem errs_reads_bind {β : Type} {who : String} {m : DataM X β} {f : β → SchemeM X α}
    (hm : Cmd.Reads m) (h : Errs (Err.ReportedBy who) m w.data)
    (hf : ∀ b, m w.data = (.ok b, w.data) → Errs Err.Ordinary (f b) w) :
    Errs Err.Ordinary (onData m >>= f) w := by
  refine .bind_reads (reads_onData hm) (errs_reported h) fun b hb => hf b ?_
  have hrun := onData_eq_ok hb
  exact hrun

/-- A step that is known to return leaves only what follows. -/
theorem errs_ok_bind {β : Type} {m : DataM X β} {b : β} {f : β → SchemeM X α}
    (h : m w.data = (.ok b, w.data)) (hf : Errs Err.Ordinary (f b) w) :
    Errs Err.Ordinary (onData m >>= f) w :=
  .bind_ok (onData_run_same h) hf

/-- What comes after a failed check is never reached. -/
theorem errs_worldError_bind {β : Type} {who : String} {what : Message} {f : β → SchemeM X α} :
    Errs Err.Ordinary (onData (syntaxError who what) >>= f) w :=
  (errs_reported (errs_syntaxError what : Errs (Err.ReportedBy who) _ _)).bind
    fun _ _ h => nomatch h

/-- **What comes after the check of a special form** knows its arguments. -/
theorem errs_arity_bind {who : String} {rest : Value} {minArgs maxArgs : ℕ} {m : SchemeM X α}
    (h : ∀ xs, w.data.Listed rest xs → minArgs ≤ xs.length → Errs Err.Ordinary m w) :
    Errs Err.Ordinary (onData (checkArity who rest minArgs maxArgs) >>= fun _ => m) w := by
  refine errs_reads_bind (reads_checkArity _ _ _ _) (errs_checkArity _ _ _ _) fun _ hcheck => ?_
  obtain ⟨xs, hlisted, hmin, -⟩ := listed_of_checkArity hcheck
  exact h xs hlisted hmin

/-! ## The calls of the next level -/

/-- **Calls that report what is wrong.** -/
structure Self.Quiet (next : Self X) : Prop where
  comp : ∀ e env tail w, Errs Err.Ordinary (next.comp e env tail) w
  loop : ∀ vm w, Errs Err.Ordinary (next.loop vm) w
  callPrim : ∀ name args w, Errs Err.Ordinary (next.callPrim name args) w

/-- What is set apart has no errors. -/
theorem errs_setApart (m : SchemeM X α) : Errs Err.Ordinary (setApart m) w := by
  intro e w' h
  unfold setApart at h
  split at h <;> cases h <;> trivial

/-- **The calls of any machine**, with their errors set apart. -/
theorem Self.quiet_setApart (self : Self X) : self.setApart.Quiet where
  comp _ _ _ _ := errs_setApart _
  loop _ _ := errs_setApart _
  callPrim _ _ _ := errs_setApart _

section

variable (hself : self.Quiet)

/-- An operand is never refused. -/
theorem errs_operand (n : ℕ) : Errs Err.Ordinary (operand n : SchemeM X ℕ) w := by
  unfold operand
  exact .ite (fun _ => Errs.modifyState.bind fun _ _ _ => .pure) fun _ => .pure

theorem errs_compileGlobal (x : String) : Errs Err.Ordinary (compileGlobal x : SchemeM X _) w :=
  .bind .getState fun _ _ _ => .pure

/-- Neither a local nor a global variable is an internal error. -/
theorem errs_compVar (x : String) (env : CompileEnv) :
    Errs Err.Ordinary (compVar x env : SchemeM X _) w := by
  unfold compVar
  split
  · exact (errs_operand _).bind fun _ _ _ => (errs_operand _).bind fun _ _ _ => .pure
  · exact (errs_compileGlobal _).bind fun _ _ _ => .pure

include hself

/-- Arguments are quiet, where their compiler is. -/
theorem Self.Quiet.compArgs (xs : List Value) (env : CompileEnv) :
    Errs Err.Ordinary (compArgs self xs env) w := by
  refine Errs.bind (.mapList (I := fun _ => True) (fun x _ w _ => hself.comp x env false w) ?_ trivial)
    fun _ _ _ => .pure
  exact fun _ _ _ _ _ _ _ => trivial

/-- So are the forms of a sequence. -/
theorem Self.Quiet.compForms (env : CompileEnv) (tail : Bool) :
    ∀ (es : List Value) (w : World X), Errs Err.Ordinary (compForms self env tail es) w
  | [], _ => .pure
  | [e], w => hself.comp e env tail w
  | e :: e' :: es, w => by
    unfold Scheme14.compForms
    refine (hself.comp e env false w).bind fun _ w' _ => ?_
    exact (compForms env tail (e' :: es) w').bind fun _ _ _ => .pure

theorem Self.Quiet.compBody (body : Value) (env : CompileEnv) (tail : Bool) :
    Errs Err.Ordinary (compBody self body env tail) w :=
  (errs_reported (errs_listToVector body "body")).bind fun _ w' _ => hself.compForms env tail _ w'

omit hself in
/-- A call with the wrong number of arguments is reported. -/
theorem errs_makeFrame (clo : Closure) (args : List Value) :
    Errs Err.Ordinary (makeFrame clo args : SchemeM X ℕ) w := by
  unfold makeFrame
  dsimp only
  refine .ite (fun _ => (errs_errorAt _).bind fun _ _ h => nomatch h) fun _ => ?_
  split
  · refine .bind .pure fun _ _ _ => .bind .getState fun _ _ _ => ?_
    exact Errs.modifyState.bind fun _ _ _ => .pure
  · refine Errs.bind ?_ fun _ _ _ => .bind .getState fun _ _ _ => ?_
    · exact (errs_onData (errs_listFrom _)).bind fun _ _ _ => .pure
    · exact Errs.modifyState.bind fun _ _ _ => .pure

/-- A call from inside a primitive is quiet. -/
theorem Self.Quiet.applyCallable (proc : Value) (args : List Value) :
    Errs Err.Ordinary (applyCallable self proc args) w := by
  unfold Scheme14.applyCallable
  split
  · exact hself.callPrim _ args w
  · refine .bind .getState fun _ w' _ => ?_
    split
    · exact errs_errorAt _
    · refine (errs_makeFrame _ args).bind fun _ w'' _ => ?_
      exact Errs.modifyState.bind fun _ w₃ _ => (hself.loop _ w₃).finallyDo

/-- So is the call of a macro. -/
theorem Self.Quiet.macroExpand1 (expr : Value) : Errs Err.Ordinary (macroExpand1 self expr) w := by
  unfold Scheme14.macroExpand1
  dsimp only
  refine .ite (fun _ => .pure) fun hexpr => ?_
  obtain ⟨a, rfl⟩ := exists_pair_of_not hexpr
  refine errs_ok_bind (asPair_run a _) ?_
  split
  · refine .bind .getState fun _ w' _ => ?_
    split
    · exact .pure
    · refine (errs_reported (errs_listToVector _ "macro call")).bind fun _ w'' _ => ?_
      exact hself.applyCallable _ _
  · exact .pure

end

/-! ## The special forms -/

/-- **A lambda expression with a dotted end** in its body. -/
def Data.DottedLambda (s : Data X) (params body : Value) : Prop :=
  (∃ r, (extractParams params s).1 = .ok (some r)) ∧ s.DottedBody body

/-- **A form with a dotted end** that the compiler runs into. -/
inductive World.DottedForm (w : World X) : Value → Prop
  | doF {a : ℕ} : (w.data.pairOf a).1 = .sym "do" → w.data.DottedDo (.pair a) →
      World.DottedForm w (.pair a)
  | lambda {a b : ℕ} {xs : List Value} : w.data.pairOf a = (.sym "lambda", .pair b) →
      w.data.Listed (.pair b) xs → w.data.DottedLambda (w.data.pairOf b).1 (w.data.pairOf b).2 →
      World.DottedForm w (.pair a)
  | define {isMacro : Bool} {a b c : ℕ} {xs : List Value} {name : String} :
      w.compileTable = .interaction →
      w.data.pairOf a = (.sym (if isMacro then "define-macro" else "define"), .pair b) →
      w.data.Listed (.pair b) xs → (w.data.pairOf b).1 = .pair c →
      (w.data.pairOf c).1 = .sym name →
      w.data.DottedLambda (w.data.pairOf c).2 (w.data.pairOf b).2 → World.DottedForm w (.pair a)

/-- The walk along parameters asks for no field of what is no pair. -/
theorem errs_extractParamsFrom : ∀ (fuel : ℕ) (params : Value) (s : Data X),
    Errs (Err.ReportedBy "lambda") (extractParamsFrom fuel params : DataM X _) s
  | 0, _, _ => errs_outOfFuel
  | fuel + 1, params, s => by
    unfold extractParamsFrom
    split
    · exact .pure
    · exact .pure
    · refine .bind_ok (asPair_run _ s) ?_
      split
      · exact (errs_extractParamsFrom fuel _ s).bind fun _ _ _ => .pure
      · exact .pure
    · exact .pure

theorem errs_extractParams (params : Value) :
    Errs (Err.ReportedBy "lambda") (extractParams params : DataM X _) s :=
  .bind_ok rfl (errs_extractParamsFrom _ _ _)

section

variable (hself : self.Quiet) (hw : w.data.Closed)

include hself in
/-- `if` checks its arity before it takes its parts. -/
theorem Self.Quiet.compIf (rest : Value) (env : CompileEnv) (tail : Bool) :
    Errs Err.Ordinary (compIf self rest env tail) w := by
  unfold Scheme14.compIf
  refine errs_arity_bind fun xs hlisted hmin => ?_
  obtain ⟨test, thenE, xs, rfl⟩ : ∃ test thenE xs', xs = test :: thenE :: xs' := by
    match xs, hmin with
    | test :: thenE :: xs', _ => exact ⟨test, thenE, xs', rfl⟩
  obtain ⟨d, -, hcar, hcdr, hd⟩ := hlisted.chain.head
  obtain ⟨others, -, hcar', hcdr', hothers⟩ := hd.head
  refine errs_ok_bind hcar (errs_ok_bind hcdr (errs_ok_bind hcar' (errs_ok_bind hcdr' ?_)))
  have hrest : ∀ (elseE : Value) (w' : World X), Errs Err.Ordinary (do
      let code ← self.comp test env false
      let ct ← self.comp thenE env tail
      let cf ← self.comp elseE env tail
      if tail then return code ++ [.selr (some (ct ++ [.rtn])) (some (cf ++ [.rtn]))]
      else return code ++ [.sel (some (ct ++ [.join])) (some (cf ++ [.join]))]) w' := by
    intro elseE w'
    refine (hself.comp test env false w').bind fun _ w₁ _ => ?_
    refine (hself.comp thenE env tail w₁).bind fun _ w₂ _ => ?_
    exact (hself.comp elseE env tail w₂).bind fun _ w₃ _ => .ite (fun _ => .pure) fun _ => .pure
  refine .ite (fun _ => .bind_ok rfl (hrest .nil w)) fun hne => ?_
  cases xs with
  | nil => exact absurd hothers hne
  | cons elseE xs =>
    obtain ⟨-, -, hcar'', -, -⟩ := hothers.head
    exact errs_ok_bind hcar'' (hrest elseE w)

include hself hw in
/-- `lambda` is quiet, unless its body is dotted. -/
theorem Self.Quiet.compileLambda {params body : Value} (h : ¬ w.data.DottedLambda params body)
    (env : CompileEnv) : Errs Err.Ordinary (compileLambda self params body env) w := by
  unfold Scheme14.compileLambda
  refine errs_reads_bind (reads_extractParams params) (errs_extractParams params) fun r hr => ?_
  split
  · exact errs_reported (errs_syntaxError _)
  · have hbody : ¬ w.data.DottedBody body := fun hbody => h ⟨⟨_, congrArg Prod.fst hr⟩, hbody⟩
    refine (errs_onData (errs_scanOutDefines hw hbody)).bind fun _ w' _ => ?_
    exact (hself.compBody _ _ _).bind fun _ _ _ => .pure

include hw in
/-- **A dotted body slips**: the walk for definitions asks for the rest of what is no
pair. -/
theorem slips_compileLambda {params body : Value} (h : w.data.DottedLambda params body)
    (env : CompileEnv) : Slips (compileLambda self params body env) w := by
  obtain ⟨⟨r, hr⟩, hbody⟩ := h
  unfold Scheme14.compileLambda
  have hrun : extractParams params w.data = (.ok (some r), w.data) :=
    Prod.ext hr (reads_extractParams params w.data)
  refine .bind_ok (onData_run_same hrun) ?_
  exact (slips_onData (slips_scanOutDefines hw hbody)).bind _

include hself in
/-- `set!` checks its arity and its name first. -/
theorem Self.Quiet.compSet (rest : Value) (env : CompileEnv) :
    Errs Err.Ordinary (compSet self rest env) w := by
  unfold Scheme14.compSet
  refine errs_arity_bind fun xs hlisted hmin => ?_
  obtain ⟨target, e, xs, rfl⟩ : ∃ target e xs', xs = target :: e :: xs' := by
    match xs, hmin with
    | target :: e :: xs', _ => exact ⟨target, e, xs', rfl⟩
  obtain ⟨d, -, hcar, hcdr, hd⟩ := hlisted.chain.head
  obtain ⟨-, -, hcar', -, -⟩ := hd.head
  refine errs_ok_bind hcar ?_
  split
  · have hsecond : (do car (← cdr rest) : DataM X _) w.data = (.ok e, w.data) := by
      rw [Cmd.bind_run_ok hcdr, hcar']
    refine errs_ok_bind hsecond ((hself.comp e env false w).bind fun _ w' _ => ?_)
    split
    · exact (errs_operand _).bind fun _ _ _ => (errs_operand _).bind fun _ _ _ => .pure
    · refine .bind .getState fun _ _ _ => .ite (fun _ => errs_worldError_bind) fun _ => ?_
      exact (errs_compileGlobal _).bind fun _ _ _ => .pure
  · exact errs_reported (errs_syntaxError _)

include hself in
/-- `apply` checks its arity first. -/
theorem Self.Quiet.compApply (rest : Value) (env : CompileEnv) (tail : Bool) :
    Errs Err.Ordinary (compApply self rest env tail) w := by
  unfold Scheme14.compApply
  refine errs_arity_bind fun xs hlisted hmin => ?_
  refine errs_ok_bind (listToVector_of_listed hlisted) ?_
  cases xs with
  | nil => exact absurd hmin (by simp)
  | cons f xs =>
    refine (hself.compArgs xs env).bind fun _ _ _ => (errs_operand _).bind fun _ w' _ => ?_
    exact (hself.comp f env false w').bind fun _ _ _ => .pure

include hself in
/-- A call checks its argument list first. -/
theorem Self.Quiet.compCall (head rest : Value) (env : CompileEnv) (tail : Bool) :
    Errs Err.Ordinary (compCall self head rest env tail) w := by
  unfold Scheme14.compCall
  refine (errs_reported (errs_listToVector rest "application")).bind fun xs w' _ => ?_
  refine (hself.compArgs xs env).bind fun _ w'' _ => (hself.comp head env false w'').bind ?_
  exact fun _ _ _ => (errs_operand _).bind fun _ _ _ => .pure

include hself hw in
/-- `define` is quiet, unless it defines a procedure with a dotted body. -/
theorem Self.Quiet.compDefine {isMacro : Bool} {a b : ℕ}
    (ha : w.data.pairOf a = (.sym (if isMacro then "define-macro" else "define"), .pair b))
    (h : ¬ w.DottedForm (.pair a)) (env : CompileEnv) :
    Errs Err.Ordinary (compDefine self isMacro (.pair b) env) w := by
  unfold Scheme14.compDefine
  dsimp only
  refine .bind_ok rfl (.ite (fun _ => errs_worldError_bind) fun htable => ?_)
  refine errs_arity_bind fun xs hlisted hmin => errs_ok_bind (asPair_run b _) ?_
  split
  · refine .ite (fun _ => errs_worldError_bind) fun hne => ?_
    have hpair : isPair (w.data.pairOf b).2 = true := by
      cases xs with
      | nil => cases hlisted.chain
      | cons x xs =>
        obtain ⟨b', hb, -, hchain⟩ := hlisted.chain
        obtain rfl := Value.pair.inj hb
        cases xs with
        | nil => exact absurd hchain hne
        | cons y ys =>
          obtain ⟨d, hd, -⟩ := hchain
          rw [hd]
          rfl
    obtain ⟨d, hd⟩ := exists_pair hpair
    rw [hd]
    refine errs_ok_bind (cdr_run d _) (.ite (fun _ => errs_worldError_bind) fun _ => ?_)
    refine errs_ok_bind (car_run d _) ((hself.comp _ env false w).bind fun _ w' _ => ?_)
    exact .bind_ok rfl ((errs_compileGlobal _).bind fun _ _ _ => .pure)
  · rename_i c hc
    rw [hc]
    refine errs_ok_bind (asPair_run c _) ?_
    split
    · rename_i name hname
      have hlambda : ¬ w.data.DottedLambda (w.data.pairOf c).2 (w.data.pairOf b).2 := fun hd =>
        h (.define (by simpa using htable) ha hlisted hc hname hd)
      refine (hself.compileLambda hw hlambda env).bind fun _ w' _ => ?_
      exact .bind_ok rfl ((errs_compileGlobal _).bind fun _ _ _ => .pure)
    · exact errs_worldError_bind
  · exact errs_worldError_bind

include hw in
/-- **It slips** where it does. -/
theorem slips_compDefine {isMacro : Bool} {b c : ℕ} {xs : List Value} {name : String}
    (htable : w.compileTable = .interaction) (hlisted : w.data.Listed (.pair b) xs)
    (hc : (w.data.pairOf b).1 = .pair c) (hname : (w.data.pairOf c).1 = .sym name)
    (h : w.data.DottedLambda (w.data.pairOf c).2 (w.data.pairOf b).2) (env : CompileEnv) :
    Slips (compDefine self isMacro (.pair b) env) w := by
  unfold Scheme14.compDefine
  dsimp only
  refine .bind_ok rfl ?_
  rw [htable, if_neg (show ¬ Table.interaction ≠ .interaction from fun h => h rfl)]
  have hne : 1 ≤ xs.length := by
    cases xs with
    | nil => cases hlisted.chain
    | cons x xs => exact Nat.succ_pos _
  refine .bind_ok (onData_run_same (checkArity_of_listed hlisted hne)) ?_
  refine .bind_ok (onData_run_same (asPair_run b _)) ?_
  rw [hc]
  refine .bind_ok (onData_run_same (asPair_run c _)) ?_
  rw [hname]
  exact (slips_compileLambda hw h env).bind _

end

/-! ## The derived forms -/

/-- The word of a derived form. -/
def Derived.word : Derived → String
  | .letF => "let"
  | .letStar => "let*"
  | .letrecF => "letrec"
  | .andF => "and"
  | .orF => "or"
  | .condF => "cond"
  | .caseF => "case"
  | .doF => "do"
  | .quasiquoteF => "quasiquote"

/-- **An expander** makes only errors of its own form, unless a `do` is dotted. -/
theorem errs_expandDerived (fuel : ℕ) {a : ℕ} {d : Derived}
    (h : ¬ (d = .doF ∧ s.DottedDo (.pair a))) :
    Errs (Err.ReportedBy d.word) (expandDerived fuel (.pair a) d) s := by
  have ha : isPair (.pair a) = true := rfl
  cases d with
  | letF => exact errs_expandLet ha
  | letStar => exact errs_expandLetStar ha
  | letrecF => exact errs_expandLetrec ha
  | andF => exact errs_expandAnd ha
  | orF => exact errs_expandOr ha
  | condF => exact errs_expandCond ha
  | caseF => exact errs_expandCase ha
  | doF => exact errs_expandDo ha fun hd => h ⟨rfl, hd⟩
  | quasiquoteF =>
    refine .bind_ok (cdr_run a s) (errs_checkArity_bind fun x d xs hcar _ _ _ => ?_)
    exact .bind_ok (cdr_run a s) (.bind_ok hcar ((errs_quasiquote X fuel).2.1 _ _ _))

/-- One step of a derived form is its expander. -/
theorem expandForm1_derived {a fuel : ℕ} {d : Derived}
    (h : keywordOf (s.pairOf a).1 = some (.derived d)) :
    expandForm1 fuel (.pair a) s = expandDerived fuel (.pair a) d s := by
  unfold Data.pairOf at h
  rw [expandForm1_pair, h]

/-- A derived form is known by its word. -/
theorem derivedOf_word {name : String} {d : Derived} (h : derivedOf name = some d) :
    name = d.word := by
  unfold derivedOf at h
  split at h
  all_goals cases h
  all_goals rfl

theorem keywordOf_lambda {v : Value} (h : keywordOf v = some .lambda) : v = .sym "lambda" := by
  unfold keywordOf at h
  split at h
  all_goals try cases h
  · rfl
  · obtain ⟨_, _, hd⟩ := Option.map_eq_some_iff.mp h
    cases hd

theorem keywordOf_define {v : Value} {isMacro : Bool} (h : keywordOf v = some (.define isMacro)) :
    v = .sym (if isMacro then "define-macro" else "define") := by
  unfold keywordOf at h
  split at h
  all_goals try cases h
  · rfl
  · rfl
  · obtain ⟨_, _, hd⟩ := Option.map_eq_some_iff.mp h
    cases hd

theorem exists_derived {v : Value} {d : Derived} (h : keywordOf v = some (.derived d)) :
    v = .sym d.word := by
  cases v with
  | sym name => rw [derivedOf_word (keywordOf_derived.mp h)]
  | _ => cases h

/-! ## One step of the compiler -/

section

variable (hself : self.Quiet) (hw : w.data.Closed)

include hself hw in
/-- **What a step of the compiler reports**: all but the dotted ends. -/
theorem Self.Quiet.compStep {expr : Value} (h : ¬ w.DottedForm expr) (env : CompileEnv)
    (tail : Bool) : Errs Err.Ordinary (compStep self expr env tail) w := by
  unfold Scheme14.compStep
  refine .ite (fun _ => .pure) fun hexpr => ?_
  clear hexpr
  split
  · exact errs_compVar _ _
  · rename_i a
    refine errs_ok_bind (asPair_run a _) ?_
    dsimp only
    split
    · rename_i word hword
      cases word with
      | quote =>
        refine errs_arity_bind fun xs hlisted hmin => ?_
        cases xs with
        | nil => exact absurd hmin (by simp)
        | cons x xs =>
          obtain ⟨-, -, hcar, -, -⟩ := hlisted.chain.head
          exact errs_ok_bind hcar .pure
      | traceSwitch => exact .pure
      | derived d =>
        have hd : ¬ (d = .doF ∧ w.data.DottedDo (.pair a)) := by
          rintro ⟨rfl, hdo⟩
          exact h (.doF (exists_derived hword) hdo)
        refine (errs_onData ?_).bind fun _ w' _ => hself.comp _ env tail w'
        intro e s' hrun
        rw [expandForm1_derived hword] at hrun
        exact ((errs_expandDerived self.fuel hd).mono fun _ => Err.ReportedBy.ordinary) e s' hrun
      | ifK => exact hself.compIf _ env tail
      | begin => exact hself.compBody _ env tail
      | lambda =>
        have hhead := keywordOf_lambda hword
        refine errs_arity_bind fun xs hlisted hmin => ?_
        cases xs with
        | nil => exact absurd hmin (by simp)
        | cons x xs =>
          obtain ⟨b, hb, -, -⟩ := hlisted.chain
          rw [hb] at hlisted ⊢
          refine errs_ok_bind (asPair_run b _) ?_
          have hlambda : ¬ w.data.DottedLambda (w.data.pairOf b).1 (w.data.pairOf b).2 := fun hd =>
            h (.lambda (Prod.ext hhead hb) hlisted hd)
          exact (hself.compileLambda hw hlambda env).bind fun _ _ _ => .pure
      | define isMacro =>
        have hhead := keywordOf_define hword
        by_cases hrest : isPair (w.data.pairOf a).2 = true
        · obtain ⟨b, hb⟩ := exists_pair hrest
          rw [hb]
          exact hself.compDefine hw (Prod.ext hhead hb) h env
        · -- the check of the number of arguments fails
          unfold compSpecial Scheme14.compDefine
          dsimp only
          refine .bind_ok rfl (.ite (fun _ => errs_worldError_bind) fun _ => ?_)
          refine errs_arity_bind fun xs hlisted hmin => ?_
          cases xs with
          | nil => exact absurd hmin (by simp)
          | cons x xs =>
            obtain ⟨b, hb, -, -⟩ := hlisted.chain
            rw [hb] at hrest
            exact absurd rfl hrest
      | set => exact hself.compSet _ env
      | callcc word =>
        refine errs_arity_bind fun xs hlisted hmin => ?_
        cases xs with
        | nil => exact absurd hmin (by simp)
        | cons x xs =>
          obtain ⟨-, -, hcar, -, -⟩ := hlisted.chain.head
          exact errs_ok_bind hcar ((hself.comp x env false w).bind fun _ _ _ => .pure)
      | apply => exact hself.compApply _ env tail
    · refine (hself.macroExpand1 _).bind fun _ w' _ => .ite (fun _ => ?_) fun _ => ?_
      · exact hself.comp _ env tail w'
      · exact hself.compCall _ _ env tail
  · exact .pure

include hw in
/-- **A dotted form slips.** -/
theorem slips_compStep {expr : Value} (h : w.DottedForm expr) (env : CompileEnv) (tail : Bool) :
    Slips (compStep self expr env tail) w := by
  unfold Scheme14.compStep
  cases h with
  | @doF a hword hdo =>
    refine .bind_ok (onData_run_same (asPair_run a _)) ?_
    dsimp only
    rw [hword]
    refine (slips_onData ?_).bind _
    have hdo' : Slips (expandDerived self.fuel (.pair a) .doF) w.data := slips_expandDo hdo
    obtain ⟨e, s', hrun, he⟩ := hdo'
    exact ⟨e, s', (expandForm1_derived (d := .doF) (by rw [hword]; rfl)).trans hrun, he⟩
  | @lambda a b xs ha hlisted hd =>
    refine .bind_ok (onData_run_same (asPair_run a _)) ?_
    rw [ha]
    have hne : 1 ≤ xs.length := by
      cases xs with
      | nil => cases hlisted.chain
      | cons x xs => exact Nat.succ_pos _
    refine .bind_ok (onData_run_same (checkArity_of_listed hlisted hne)) ?_
    refine .bind_ok (onData_run_same (asPair_run b _)) ?_
    exact (slips_compileLambda hw hd env).bind _
  | @define isMacro a b c xs name htable ha hlisted hc hname hd =>
    refine .bind_ok (onData_run_same (asPair_run a _)) ?_
    rw [ha]
    cases isMacro with
    | false => exact slips_compDefine hw htable hlisted hc hname hd env
    | true => exact slips_compDefine hw htable hlisted hc hname hd env

end

/-! ## The primitives with an accessor -/

/-- The primitives that call an accessor. -/
inductive Accessing where
  | car
  | cdr
  | setCar
  | setCdr
  | caar
  | cadr
  | cdar
  | cddr
  | caddr
  | cdddr
  | length
  | listp
  | append
  | equal (fuel : ℕ)
  | memq
  | assq
  | listToString
  | symbolToString
  | makeErrorObject
  deriving DecidableEq

/-- The primitive. -/
def Accessing.prim : Accessing → List Value → DataM X Value
  | .car => primCar
  | .cdr => primCdr
  | .setCar => primSetCar
  | .setCdr => primSetCdr
  | .caar => primCaar
  | .cadr => primCadr
  | .cdar => primCdar
  | .cddr => primCddr
  | .caddr => primCaddr
  | .cdddr => primCdddr
  | .length => primLength
  | .listp => primListp
  | .append => primAppend
  | .equal fuel => primEqual fuel
  | .memq => primMemq
  | .assq => primAssq
  | .listToString => primListToString
  | .symbolToString => primSymbolToString
  | .makeErrorObject => primMakeErrorObject

/-- The bound of the model is an ordinary error. -/
theorem errs_ordinaryFuel : Errs Err.Ordinary (Cmd.fail .outOfFuel : DataM X α) s := .fail trivial

/-- The wrong number of arguments is reported. -/
theorem errs_needArgs (who : String) (args : List Value) (lo hi : ℕ) :
    Errs Err.Ordinary (needArgsBetween who args lo hi : DataM X _) s := by
  unfold needArgsBetween
  exact .ite (fun _ => errs_errorAt _) fun _ => .pure

/-- A wrong type is reported. -/
theorem errs_primTypeError (who expected : String) (got : Value) :
    Errs Err.Ordinary (primTypeError who expected got : DataM X α) s := errs_errorAt _

/-- A failed check of an argument is the end. -/
theorem errs_primTypeError_bind {β : Type} (who expected : String) (got : Value)
    (f : α → DataM X β) : Errs Err.Ordinary (primTypeError who expected got >>= f) s :=
  (errs_primTypeError who expected got).bind fun _ _ h => nomatch h

/-- `car` and `cdr` check before they look. -/
theorem errs_primField (who : String) (field : Value × Value → Value) (args : List Value) :
    Errs Err.Ordinary (primField who field args : DataM X _) s := by
  unfold primField
  dsimp only
  refine (errs_needArgs _ _ _ _).bind fun _ s' _ => ?_
  refine .ite (fun _ => errs_primTypeError_bind _ _ _ _) fun h => ?_
  exact (errs_asPair (by simpa using h)).bind fun _ _ _ => .pure

/-- `set-car!` and `set-cdr!` do as well. -/
theorem errs_primSetField (who : String) (update : Value × Value → Value → Value × Value)
    (args : List Value) : Errs Err.Ordinary (primSetField who update args : DataM X _) s := by
  unfold primSetField
  dsimp only
  refine (errs_needArgs _ _ _ _).bind fun _ s' _ => ?_
  refine .ite (fun _ => errs_primTypeError_bind _ _ _ _) fun h => ?_
  exact (errs_asPair (by simpa using h)).bind fun _ _ _ => Errs.modifyState.bind fun _ _ _ => .pure

/-- The composed accessors check at each letter. -/
theorem errs_cxr (who : String) : ∀ (ops : List Char) (v : Value) (s : Data X),
    Errs Err.Ordinary (cxr who ops v) s
  | [], _, _ => .pure
  | op :: ops, v, s => by
    unfold cxr
    dsimp only
    refine .ite (fun _ => errs_primTypeError_bind _ _ _ _) fun h => ?_
    exact (errs_asPair (by simpa using h)).bind fun _ s' _ => errs_cxr who ops _ s'

theorem errs_primCxr (who path : String) (args : List Value) :
    Errs Err.Ordinary (primCxr who path args : DataM X _) s :=
  (errs_needArgs _ _ _ _).bind fun _ _ _ => errs_cxr who _ _ _

/-! ### Lists -/

/-- The slow pointer of `list?` is behind the fast one, on pairs. -/
theorem errs_properFrom : ∀ (fuel : ℕ) {slow fast : Value} {behind : List Value},
    s.Chain fast slow behind → Errs Err.Ordinary (properFrom fuel slow fast) s
  | 0, _, _, _, _ => errs_ordinaryFuel
  | fuel + 1, slow, fast, behind, hchain => by
    unfold properFrom
    refine .ite (fun _ => .pure) fun _ => .ite (fun _ => .pure) fun hfast => ?_
    obtain ⟨a, rfl⟩ := exists_pair_of_not hfast
    refine .bind_ok (cdr_run a s) (.ite (fun _ => .pure) fun _ => .ite (fun _ => .pure) fun hnext => ?_)
    obtain ⟨b, hb⟩ := exists_pair_of_not hnext
    rw [hb]
    refine .bind_ok (cdr_run b s) ?_
    have hlong : s.Chain (s.pairOf b).2 slow (behind ++ [(s.pairOf a).1, (s.pairOf b).1]) :=
      hchain.append ⟨a, rfl, rfl, b, hb, rfl, rfl⟩
    obtain ⟨x, xs, hbehind⟩ : ∃ x xs, behind ++ [(s.pairOf a).1, (s.pairOf b).1] = x :: xs := by
      cases behind <;> exact ⟨_, _, rfl⟩
    rw [hbehind] at hlong
    obtain ⟨d, -, -, hcdr, hd⟩ := hlong.head
    exact .bind_ok hcdr (.ite (fun _ => .pure) fun _ => errs_properFrom fuel hd)

/-- The test of a list writes nothing. -/
theorem reads_properFrom : ∀ (fuel : ℕ) (slow fast : Value),
    Cmd.Reads (properFrom fuel slow fast : DataM X _)
  | 0, _, _ => .fail
  | fuel + 1, slow, fast => by
    unfold properFrom
    refine .ite .pure (.ite .pure ((reads_cdr _).bind fun d => .ite .pure (.ite .pure ?_)))
    refine (reads_cdr _).bind fun e => (reads_cdr _).bind fun slow' => .ite .pure ?_
    exact reads_properFrom fuel slow' e

/-- **A proper list** comes to an end. -/
theorem chain_of_properFrom : ∀ (fuel : ℕ) {slow fast : Value},
    properFrom fuel slow fast s = (.ok true, s) → ∃ xs, s.Chain .nil fast xs
  | 0, _, _, h => nomatch h
  | fuel + 1, slow, fast, h => by
    unfold properFrom at h
    split at h
    · rename_i hnil
      exact ⟨[], hnil⟩
    split at h
    · cases (Cmd.eq_of_pure_ok h).1
    rename_i hfast
    obtain ⟨a, rfl⟩ := exists_pair_of_not hfast
    rw [Cmd.bind_run_ok (cdr_run a s)] at h
    split at h
    · rename_i hnil
      exact ⟨[_], a, rfl, rfl, hnil⟩
    split at h
    · cases (Cmd.eq_of_pure_ok h).1
    rename_i hnext
    obtain ⟨b, hb⟩ := exists_pair_of_not hnext
    rw [hb, Cmd.bind_run_ok (cdr_run b s)] at h
    obtain ⟨slow', s₁, hslow, h⟩ := Cmd.exists_of_bind_ok h
    have hs : s₁ = s := by rw [← reads_cdr slow s, hslow]
    rw [hs] at h
    split at h
    · cases (Cmd.eq_of_pure_ok h).1
    · obtain ⟨xs, hxs⟩ := chain_of_properFrom fuel h
      exact ⟨_ :: _ :: xs, a, rfl, rfl, b, hb, rfl, hxs⟩

/-- Only a proper list is counted. -/
theorem errs_countPairs : ∀ (fuel : ℕ) {ls : Value} {xs : List Value}, s.Chain .nil ls xs →
    Errs Err.Ordinary (countPairs fuel ls) s
  | 0, _, _, _ => errs_ordinaryFuel
  | fuel + 1, ls, xs, h => by
    unfold countPairs
    refine .ite (fun _ => .pure) fun hne => ?_
    cases xs with
    | nil => exact absurd h hne
    | cons x xs =>
      obtain ⟨d, -, -, hcdr, hd⟩ := h.head
      exact .bind_ok hcdr ((errs_countPairs fuel hd).bind fun _ _ _ => .pure)

theorem errs_isProperList (v : Value) : Errs Err.Ordinary (isProperList v : DataM X _) s :=
  .bind_ok rfl (errs_properFrom _ (show s.Chain v v [] from rfl))

theorem reads_isProperList (v : Value) : Cmd.Reads (isProperList v : DataM X _) :=
  Cmd.Reads.getState.bind fun _ => reads_properFrom _ _ _

theorem errs_primLength (args : List Value) :
    Errs Err.Ordinary (primLength args : DataM X _) s := by
  unfold primLength
  dsimp only
  refine (errs_needArgs _ _ _ _).bind fun _ s' _ => ?_
  refine .bind_reads (reads_isProperList _) (errs_isProperList _) fun r hr => ?_
  refine .ite (fun _ => errs_primTypeError_bind _ _ _ _) fun htrue => ?_
  obtain rfl : r = true := by simpa using htrue
  obtain ⟨xs, hxs⟩ := chain_of_properFrom _ hr
  exact .bind_ok rfl ((errs_countPairs _ hxs).bind fun _ _ _ => .pure)

/-- **A loop along a list** looks at each pair before it reads it. -/
theorem errs_eachElement {who expected : String} {whole : Value} {f : Value → Value → DataM X (Option α)}
    (hf : ∀ v x s, Errs Err.Ordinary (f v x) s) : ∀ (fuel : ℕ) (ls : Value) (s : Data X),
      Errs Err.Ordinary (eachElement who expected whole f fuel ls) s
  | 0, _, _ => errs_ordinaryFuel
  | fuel + 1, ls, s => by
    unfold eachElement
    dsimp only
    refine .ite (fun _ => .pure) fun _ => .ite (fun _ => errs_primTypeError_bind _ _ _ _) fun h => ?_
    obtain ⟨a, rfl⟩ := exists_pair_of_not h
    refine .bind_ok (car_run a s) ((hf _ _ s).bind fun r s' _ => ?_)
    split
    · exact .pure
    · refine .bind_ok (cdr_run a s') ?_
      exact (errs_eachElement hf fuel _ s').bind fun _ _ _ => .pure

/-- The loop stops at a pair. -/
theorem isPair_of_eachElement {who expected : String} {whole : Value}
    {f : Value → Value → DataM X (Option α)} :
    ∀ (fuel : ℕ) {ls : Value} {s s' : Data X} {xs : List α} {found : Value},
      eachElement who expected whole f fuel ls s = (.ok (xs, some found), s') → isPair found = true
  | 0, _, _, _, _, _, h => nomatch h
  | fuel + 1, ls, s, s', xs, found, h => by
    unfold eachElement at h
    dsimp only at h
    split at h
    · cases (Cmd.eq_of_pure_ok h).1
    split at h
    · cases h
    rename_i hpair
    obtain ⟨x, s₁, -, h⟩ := Cmd.exists_of_bind_ok h
    obtain ⟨r, s₂, -, h⟩ := Cmd.exists_of_bind_ok h
    split at h
    · obtain ⟨hr, -⟩ := Cmd.eq_of_pure_ok h
      obtain rfl := Option.some.inj (Prod.mk.inj hr).2
      simpa using hpair
    · obtain ⟨d, s₃, -, h⟩ := Cmd.exists_of_bind_ok h
      obtain ⟨p, s₄, hrec, h⟩ := Cmd.exists_of_bind_ok h
      obtain ⟨hr, -⟩ := Cmd.eq_of_pure_ok h
      obtain ⟨ys, found'⟩ := p
      obtain rfl : found' = some found := (Prod.mk.inj hr).2
      exact isPair_of_eachElement fuel hrec

/-- `append` checks each of its lists at every pair. -/
theorem errs_appendElements (fuel : ℕ) : ∀ (args : List Value) (s : Data X),
    Errs Err.Ordinary (appendElements fuel args) s
  | [], _ => .pure
  | ls :: rest, s => by
    unfold appendElements
    refine (errs_eachElement (fun _ _ _ => .pure) fuel ls s).bind fun _ s' _ => ?_
    exact (errs_appendElements fuel rest s').bind fun _ _ _ => .pure

/-- Making pairs makes no errors. -/
theorem errs_consAll : ∀ (xs : List Value) (tail : Value) (s : Data X),
    Errs Err.Ordinary (consAll xs tail) s
  | [], _, _ => .pure
  | _ :: xs, tail, s => (errs_consAll xs tail s).bind fun _ _ _ => errs_makePair _ _

theorem errs_primAppend (args : List Value) :
    Errs Err.Ordinary (primAppend args : DataM X _) s := by
  unfold primAppend
  split
  · exact .pure
  · exact .bind_ok rfl ((errs_appendElements _ _ _).bind fun _ _ _ => errs_consAll _ _ _)

theorem errs_primMemq (args : List Value) : Errs Err.Ordinary (primMemq args : DataM X _) s := by
  unfold primMemq
  refine (errs_needArgs _ _ _ _).bind fun _ s' _ => .bind_ok rfl ?_
  exact (errs_eachElement (fun _ _ _ => .pure) _ _ _).bind fun _ _ _ => .pure

theorem errs_primAssq (args : List Value) : Errs Err.Ordinary (primAssq args : DataM X _) s := by
  unfold primAssq
  refine (errs_needArgs _ _ _ _).bind fun _ s' _ => .bind_ok rfl ?_
  refine (errs_eachElement (fun _ x s => ?_) _ _ _).bind fun p s'' hrun => ?_
  · refine .ite (fun hx => ?_) fun _ => .pure
    obtain ⟨a, rfl⟩ := exists_pair hx
    exact .bind_ok (car_run a s) .pure
  · obtain ⟨xs, found⟩ := p
    cases found with
    | none => exact .pure
    | some ls => exact errs_car (isPair_of_eachElement _ hrun)

/-! ### equal? -/

/-- The three loops, by recursion on the fuel. -/
theorem errs_equalRead : ∀ (fuel : ℕ),
    (∀ (a b : Value) (seen : List (Value × Value)) (s : Data X),
      Errs Err.Ordinary (equalRead fuel a b seen) s) ∧
    (∀ (xys seen : List (Value × Value)) (s : Data X),
      Errs Err.Ordinary (equalReadElems fuel xys seen) s) ∧
    ∀ (a b : ℕ) (seen : List (Value × Value)) (s : Data X),
      Errs Err.Ordinary (equalReadLists fuel (.pair a) (.pair b) seen) s
  | 0 => by
    refine ⟨fun _ _ _ _ => ?_, fun _ _ _ => ?_, fun _ _ _ _ => ?_⟩
    · unfold equalRead
      exact errs_ordinaryFuel
    · unfold equalReadElems
      exact errs_ordinaryFuel
    · unfold equalReadLists
      exact errs_ordinaryFuel
  | fuel + 1 => by
    obtain ⟨hvalues, helems, hlists⟩ := errs_equalRead fuel
    refine ⟨fun a b seen s => ?_, fun xys seen s => ?_, fun a b seen s => ?_⟩
    · unfold equalRead
      refine .ite (fun _ => .pure) fun _ => ?_
      split
      · exact .bind_ok rfl .pure
      · split
        · exact .pure
        · exact .bind_ok rfl (.ite (fun _ => .pure) fun _ => helems _ _ _)
      · exact hlists _ _ _ _
      · exact .pure
    · cases xys with
      | nil =>
        unfold equalReadElems
        exact .pure
      | cons xy xys =>
        unfold equalReadElems
        refine (hvalues _ _ _ s).bind fun _ s' _ => .ite (fun _ => .pure) fun _ => helems _ _ s'
    · unfold equalReadLists
      split
      · exact .pure
      · refine .bind_ok (asPair_run a s) (.bind_ok (asPair_run b s) ?_)
        refine (hvalues _ _ _ s).bind fun _ s' _ => .ite (fun _ => .pure) fun _ => ?_
        refine .ite (fun _ => .pure) fun _ => .ite (fun _ => .pure) fun hsame => ?_
        refine .ite (fun _ => hvalues _ _ _ s') fun hpair => ?_
        obtain ⟨a', ha⟩ := exists_pair_of_not hpair
        obtain ⟨b', hb⟩ : ∃ b', (s.pairOf b).2 = .pair b' := by
          refine exists_pair ?_
          rw [← not_not.mp hsame, ha]
          rfl
        rw [ha, hb]
        exact hlists a' b' _ s'

theorem errs_primEqual (fuel : ℕ) (args : List Value) :
    Errs Err.Ordinary (primEqual fuel args : DataM X _) s := by
  unfold primEqual
  exact .ite (fun _ => .pure) fun _ => ((errs_equalRead fuel).1 _ _ _ s).bind fun _ _ _ => .pure

/-! ### Strings and symbols -/

theorem errs_strOf (who : String) (v : Value) :
    Errs Err.Ordinary (strOf who v : DataM X _) s := by
  unfold strOf
  dsimp only
  exact .ite (fun _ => errs_primTypeError_bind _ _ _ _) fun _ => .bind_ok rfl .pure

theorem errs_primListToString (args : List Value) :
    Errs Err.Ordinary (primListToString args : DataM X _) s := by
  unfold primListToString
  refine (errs_needArgs _ _ _ _).bind fun _ s' _ => .bind_ok rfl ?_
  refine (errs_eachElement (fun _ x s => ?_) _ _ _).bind fun _ _ _ => .of_ok rfl
  exact (errs_strOf _ _).bind fun _ _ _ => .pure

theorem errs_primMakeErrorObject (args : List Value) :
    Errs Err.Ordinary (primMakeErrorObject args : DataM X _) s := by
  unfold primMakeErrorObject
  dsimp only
  refine (errs_needArgs _ _ _ _).bind fun _ s' _ => ?_
  refine .ite (fun _ => errs_primTypeError_bind _ _ _ _) fun h => ?_
  refine Errs.bind ?_ fun _ _ _ => .of_ok rfl
  cases harg : arg args 0 with
  | string a => exact .of_ok rfl
  | _ =>
    rw [harg] at h
    exact absurd rfl h

/-- **A symbol or nothing**: what `symbol->string` does not look at. -/
theorem errs_primSymbolToString_iff (args : List Value) :
    Errs Err.Ordinary (primSymbolToString args : DataM X _) s ↔
      ¬ (args.length = 1 ∧ isSymbol (arg args 0) = false) := by
  unfold primSymbolToString needArgsBetween
  constructor
  · rintro herrs ⟨hlen, hsym⟩
    refine Slips.not_errs (E := Err.Ordinary) ?_ (fun _ => id) herrs
    rw [if_neg (by omega)]
    refine .bind_ok rfl (Slips.bind ?_ _)
    cases harg : arg args 0 with
    | sym x =>
      rw [harg] at hsym
      cases hsym
    | _ => exact ⟨_, s, rfl, .inr rfl⟩
  · intro h
    by_cases hlen : args.length = 1
    · rw [if_neg (by omega)]
      obtain ⟨x, hx⟩ := exists_symbol (v := arg args 0) (by
        by_contra hsym
        exact h ⟨hlen, by simpa using hsym⟩)
      rw [hx]
      exact .bind_ok rfl (.bind_ok rfl (.of_ok rfl))
    · rw [if_pos (by omega)]
      exact (errs_errorAt _).bind fun _ _ h => nomatch h

/-! ## Steps -/

/-- **Where an accessor is called**: an expander with its form, a step of the
compiler, a primitive. A form is a pair. -/
inductive Step where
  | expand (fuel : ℕ) (d : Derived) (a : ℕ)
  | compile (expr : Value) (env : CompileEnv) (tail : Bool)
  | prim (p : Accessing) (args : List Value)

/-- **Whatever is wrong is reported**: by an expander as an error of its form,
and elsewhere as an ordinary error, one that can be caught. The calls that a step
of the compiler makes are steps again, so that their errors are set apart. -/
def Step.Reports (self : Self X) (w : World X) : Step → Prop
  | .expand fuel d a => Errs (Err.ReportedBy d.word) (expandDerived fuel (.pair a) d) w.data
  | .compile expr env tail => Errs Err.Ordinary (compStep self.setApart expr env tail) w
  | .prim p args => Errs Err.Ordinary (p.prim args) w.data

/-- **The mistakes that no check sees.** -/
def Step.Unseen (w : World X) : Step → Prop
  | .expand _ d a => d = .doF ∧ w.data.DottedDo (.pair a)
  | .compile expr _ _ => w.DottedForm expr
  | .prim p args => p = .symbolToString ∧ args.length = 1 ∧ isSymbol (arg args 0) = false

/-- **The primitives that take objects apart** report what they are given, but for
`symbol->string`. -/
theorem errs_accessing (p : Accessing) (args : List Value)
    (h : ¬ (p = .symbolToString ∧ args.length = 1 ∧ isSymbol (arg args 0) = false)) :
    Errs Err.Ordinary (p.prim args : DataM X _) s := by
  cases p with
  | car => exact errs_primField _ _ _
  | cdr => exact errs_primField _ _ _
  | setCar => exact errs_primSetField "set-car!" (fun p v => (v, p.2)) args
  | setCdr => exact errs_primSetField "set-cdr!" (fun p v => (p.1, v)) args
  | caar => exact errs_primCxr _ _ _
  | cadr => exact errs_primCxr _ _ _
  | cdar => exact errs_primCxr _ _ _
  | cddr => exact errs_primCxr _ _ _
  | caddr => exact errs_primCxr _ _ _
  | cdddr => exact errs_primCxr _ _ _
  | length => exact errs_primLength _
  | listp =>
    exact (errs_needArgs _ _ _ _).bind fun _ _ _ => (errs_isProperList _).bind fun _ _ _ => .pure
  | append => exact errs_primAppend _
  | equal fuel => exact errs_primEqual _ _
  | memq => exact errs_primMemq _
  | assq => exact errs_primAssq _
  | listToString => exact errs_primListToString _
  | symbolToString => exact (errs_primSymbolToString_iff args).mpr fun hargs => h ⟨rfl, hargs⟩
  | makeErrorObject => exact errs_primMakeErrorObject _

/-- **An internal error of a step without a mistake** is one of its calls: by
itself, the step gives up there. -/
theorem gives_up_of_internal (hw : w.data.Closed) {expr : Value} (h : ¬ w.DottedForm expr)
    {what : String} {w' : World X}
    (hrun : compStep self expr env tail w = (.error (.internal what), w')) :
    (compStep self.setApart expr env tail w).1 = .error .outOfFuel := by
  refine (givesUp_compStep self expr env tail w).resolve_right fun hsame => ?_
  exact self.quiet_setApart.compStep hw h env tail _ _ (hsame.trans hrun)

/-! ### Three mistakes -/

/-- The pairs of `(do ((x 1 . 2)) (#t))`, which is pair 6, and of
`(lambda () (define . 5))`, which is the last one. -/
def dottedForms : List (Value × Value) :=
  [(.int 1, .int 2), (.sym "x", .pair 0), (.pair 1, .nil), (.bool true, .nil), (.pair 3, .nil),
    (.pair 2, .pair 4), (.sym "do", .pair 5),
    (.sym "define", .int 5), (.pair 7, .nil), (.nil, .pair 8), (.sym "lambda", .pair 9)]

theorem closed_dottedForms : (pairsWorld dottedForms).data.Closed := by
  unfold Data.Closed pairsWorld dottedForms
  simp [Data.Holds]

end Scheme14
