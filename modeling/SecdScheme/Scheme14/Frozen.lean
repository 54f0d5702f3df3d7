import SecdScheme.Scheme14.Handlers
import SecdScheme.Scheme14.Internal

/-!
# scheme14: the frozen environments

What the compiler does when it looks names up in one of the tables that the
copies are. A global definition is rejected at once, and an assignment when
its value has been compiled; an assignment to a local variable and a body
that starts with definitions do not ask for the table. And a session: the
copies stay what they were, whatever is played. Code reads the cells of its own
table; but an error of an instruction, whatever its table is, goes to `raise` as
the interaction environment has it by then.
-/

namespace Scheme14

open Certified (world)

variable {X : Type} {host : Host X} {n : ℕ} {w w' w'' : World X} {env : CompileEnv} {tail : Bool}

/-! ## What is rejected -/

/-- The note that rejects a form. -/
def onlyInteraction (form : String) : Err :=
  .scheme ("bad syntax in " ++ form ++ "\n  " ++ "note: accepted only in the interaction environment")
    true

/-- **A global definition is rejected** before anything of it is looked at. -/
theorem comp_define_rejected {a : ℕ} {isMacro : Bool} {rest : Value}
    (ha : w.data.pairs[a]? = some (.sym (if isMacro then "define-macro" else "define"), rest))
    (htable : w.compileTable ≠ .interaction) :
    (machine host (n + 1)).comp (.pair a) env tail w =
      (.error (onlyInteraction (if isMacro then "define-macro" else "define")), w) := by
  have hword : keywordOf (.sym (if isMacro then "define-macro" else "define")) =
      some (.define isMacro) := by
    cases isMacro <;> rfl
  show compStep (machine host n) (.pair a) env tail w = _
  unfold compStep
  rw [if_neg (show ¬ (Value.pair a).selfEvaluating = true from nofun)]
  dsimp only
  rw [Cmd.bind_run_ok (onData_run_same (asPair_pair ha))]
  dsimp only
  rw [hword]
  unfold compSpecial compDefine
  dsimp only
  rw [Cmd.bind_run_ok (Cmd.getState_run w), if_pos htable]
  rfl

/-- **An assignment to a global variable is rejected**, when its value has
been compiled. -/
theorem comp_set_rejected (g : Certified X) {form e : Value} {x : String}
    (hform : g.world.data.IsList form [.sym "set!", .sym x, e]) (hx : locationOf x env = none)
    (htable : g.world.compileTable ≠ .interaction) :
    ((machine host (n + 1)).comp form env tail g.world).1 =
      match (machine host n).comp e env false g.world with
      | (.ok _, _) => .error (onlyInteraction "set!")
      | (.error err, _) => .error err := by
  obtain ⟨rest, -, hrest, hcomp⟩ := compStep_keyword (machine host n) env tail hform rfl
  have harity : checkArity "set!" rest 2 2 g.world.data = (.ok (), g.world.data) :=
    checkArity_of_isList hrest (Nat.le_refl _) (.inr (Nat.le_refl _))
  obtain ⟨values, -, hcar, hcdr, hvalues, -⟩ := hrest.split
  obtain ⟨-, -, hcar', -⟩ := hvalues.split
  have hvalue : (do car (← cdr rest) : DataM X Value) g.world.data = (.ok e, g.world.data) := by
    rw [Cmd.bind_run_ok hcdr, hcar']
  rw [machine_comp_succ, hcomp]
  unfold compSpecial compSet
  dsimp only
  rw [Cmd.bind_run_ok (onData_run_same harity), Cmd.bind_run_ok (onData_run_same hcar)]
  dsimp only
  rw [Cmd.bind_run_ok (onData_run_same hvalue), hx]
  dsimp only
  obtain ⟨c, g', hc, hle, -⟩ | ⟨err, g', herr, -⟩ :=
    ((machine_sound host n).comp g e env false).outcomes
  · have htable' : g'.world.compileTable ≠ .interaction := by
      rw [hle.compileTable]
      exact htable
    rw [Cmd.bind_run_ok hc, Cmd.bind_run_ok (Cmd.getState_run g'.world), if_pos htable', hc]
    rfl
  · rw [Cmd.bind_run_error herr, herr]

/-- **Only the macros of the table in force are expanded.** -/
theorem macroExpand1_of_none {self : Self X} {a : ℕ} {name : String} {rest : Value}
    (ha : w.data.pairs[a]? = some (.sym name, rest))
    (hexpands : w.macros w.compileTable name = none) :
    macroExpand1 self (.pair a) w = (.ok (.pair a), w) := by
  unfold macroExpand1
  rw [if_neg (show ¬ (!isPair (.pair a)) = true from nofun),
    Cmd.bind_run_ok (onData_run_same (asPair_pair ha))]
  dsimp only
  rw [Cmd.bind_run_ok (Cmd.getState_run w), hexpands]
  rfl

/-! ## What is not -/

/-- A world that the compiler has gone on to: the pairs there were are there,
and names are looked up in the same table, which has the same macros. -/
structure World.Onward (w w' : World X) : Prop where
  grows : w.data.Grows w'.data
  table : w'.compileTable = w.compileTable
  macros : w'.macros w.compileTable = w.macros w.compileTable

theorem World.Onward.refl (w : World X) : w.Onward w := ⟨.refl _, rfl, rfl⟩

theorem World.Onward.trans (h : w.Onward w') (h' : w'.Onward w'') : w.Onward w'' := by
  refine ⟨h.grows.trans h'.grows, h'.table.trans h.table, ?_⟩
  rw [← h.table, h'.macros, h.table, h.macros]

theorem World.Onward.withData {s' : Data X} (h : w.data.Grows s') : w.Onward (w.withData s') :=
  ⟨h, rfl, rfl⟩

/-- **An expression that compiles** in a scope, wherever the compiler may go on
to, with so much fuel or more. -/
def Compiles (host : Host X) (n : ℕ) (env : CompileEnv) (w : World X) (e : Value) : Prop :=
  ∀ m ≥ n, ∀ tail w₁, w.Onward w₁ →
    ∃ c w₂, (machine host m).comp e env tail w₁ = (.ok c, w₂) ∧ w₁.Onward w₂

theorem Compiles.mono {e : Value} {m : ℕ} (h : Compiles host n env w e) (hm : n ≤ m)
    (hw : w.Onward w') : Compiles host m env w' e :=
  fun k hk tail w₁ hw₁ => h k (Nat.le_trans hm hk) tail w₁ (hw.trans hw₁)

/-- One step of the compiler more. -/
theorem compiles_succ {e : Value} (h : ∀ m ≥ n, ∀ tail w₁, w.Onward w₁ →
    ∃ c w₂, (machine host (m + 1)).comp e env tail w₁ = (.ok c, w₂) ∧ w₁.Onward w₂) :
    Compiles host (n + 1) env w e := by
  intro m hm tail w₁ hw₁
  cases m with
  | zero => exact absurd hm (Nat.not_succ_le_zero n)
  | succ m => exact h m (Nat.le_of_succ_le_succ hm) tail w₁ hw₁

/-- What a definition evaluates compiles. -/
def DefExpr.Compiles (host : Host X) (n : ℕ) (env : CompileEnv) (w : World X) (d : DefExpr) :
    Prop :=
  ∀ w₁ e, w.Onward w₁ → w₁.data.IsExpr e d → Scheme14.Compiles host n env w₁ e

theorem compiles_sym (host : Host X) (env : CompileEnv) (w : World X) (name : String) :
    Compiles host 1 env w (.sym name) := by
  refine compiles_succ fun m _ tail w₁ _ => ?_
  obtain ⟨b, h⟩ := compStep_sym (machine host m) w₁ env tail name
  exact ⟨_, _, h, .refl _, rfl, rfl⟩

variable (tail) in
/-- Forms that compile, one after the other. -/
theorem exists_compForms {es : List Value} (hes : ∀ e ∈ es, Compiles host n env w e) :
    ∀ {w₁ : World X}, w.Onward w₁ → ∃ c w₂,
      compForms (machine host n) env tail es w₁ = (.ok c, w₂) ∧ w₁.Onward w₂ := by
  induction es with
  | nil => exact fun _ => ⟨[.ldc .nil], _, rfl, .refl _⟩
  | cons e es ih =>
    intro w₁ hw₁
    cases es with
    | nil => exact hes e List.mem_cons_self n (Nat.le_refl n) tail w₁ hw₁
    | cons e' es =>
      obtain ⟨c, w₂, hc, hw₂⟩ := hes e List.mem_cons_self n (Nat.le_refl n) false w₁ hw₁
      obtain ⟨c', w₃, hc', hw₃⟩ :=
        ih (fun e he => hes e (List.mem_cons_of_mem _ he)) (hw₁.trans hw₂)
      refine ⟨c ++ .pop :: c', w₃, ?_, hw₂.trans hw₃⟩
      unfold compForms
      rw [Cmd.bind_run_ok hc, Cmd.bind_run_ok hc']
      rfl

theorem exists_compArgs {es : List Value} (hes : ∀ e ∈ es, Compiles host n env w e) {w₁ : World X}
    (hw₁ : w.Onward w₁) :
    ∃ c w₂, compArgs (machine host n) es env w₁ = (.ok c, w₂) ∧ w₁.Onward w₂ := by
  have heach : ∃ cs w₂, Cmd.mapList (fun x => (machine host n).comp x env false) es w₁ =
      (.ok cs, w₂) ∧ w₁.Onward w₂ := by
    induction es generalizing w₁ with
    | nil => exact ⟨[], w₁, rfl, .refl _⟩
    | cons e es ih =>
      obtain ⟨c, w₂, hc, hw₂⟩ := hes e List.mem_cons_self n (Nat.le_refl n) false w₁ hw₁
      obtain ⟨cs, w₃, hcs, hw₃⟩ :=
        ih (fun e he => hes e (List.mem_cons_of_mem _ he)) (hw₁.trans hw₂)
      refine ⟨c :: cs, w₃, ?_, hw₂.trans hw₃⟩
      unfold Cmd.mapList
      rw [Cmd.bind_run_ok hc, Cmd.bind_run_ok hcs]
      rfl
  obtain ⟨cs, w₂, hcs, hw₂⟩ := heach
  refine ⟨cs.flatten, w₂, ?_, hw₂⟩
  unfold compArgs
  rw [Cmd.bind_run_ok hcs]
  rfl

/-- **An assignment to a local variable compiles**, whatever the table. -/
theorem compiles_set {set e : Value} {x : String} {names : List String} (hx : x ∈ names)
    (hset : w.data.IsList set [.sym "set!", .sym x, e])
    (he : Compiles host n (names :: env) w e) : Compiles host (n + 1) (names :: env) w set := by
  refine compiles_succ fun m hm tail w₁ hw₁ => ?_
  obtain ⟨c, w₂, hc, hw₂⟩ := he m hm false w₁ hw₁
  obtain ⟨b, hi⟩ := operand_run 0 w₂
  obtain ⟨b', hj⟩ := operand_run (names.idxOf x) { w₂ with truncated := b }
  refine ⟨c ++ [.lset (0 % 65536) (names.idxOf x % 65536)], { w₂ with truncated := b' }, ?_,
    hw₂.trans ⟨.refl _, rfl, rfl⟩⟩
  rw [machine_comp_succ, compStep_set (hw₁.grows.isList hset) (locationOf_of_mem hx),
    Cmd.bind_run_ok hc, Cmd.bind_run_ok hi, Cmd.bind_run_ok hj]
  rfl

/-- **A lambda expression compiles** when what its body is scanned to does. -/
theorem compiles_lambda {form ps : Value} {forms : List Value} {fixed : List String}
    {r : Option String} (hform : w.data.IsList form (.sym "lambda" :: ps :: forms))
    (hps : ∀ {s'}, w.data.Grows s' → extractParams ps s' = (.ok (some (fixed, r)), s'))
    (hbody : ∀ {w₁ : World X} {body : Value}, w.Onward w₁ → w₁.data.IsList body forms →
      ∃ body' s' forms', scanOutDefines body w₁.data = (.ok body', s') ∧ w₁.data.Grows s' ∧
        s'.IsList body' forms' ∧
        ∀ e ∈ forms', Compiles host n ((fixed ++ r.toList) :: env) (w₁.withData s') e) :
    Compiles host (n + 1) env w form := by
  refine compiles_succ fun m hm tail w₁ hw₁ => ?_
  obtain ⟨body, hlist, hcomp⟩ := compStep_lambda (machine host m) env tail
    (hw₁.grows.isList hform)
  obtain ⟨body', s', forms', hscan, hs', hforms', hes⟩ := hbody hw₁ hlist
  obtain ⟨c, w₂, hc, hw₂⟩ := exists_compForms true
    (fun e he => (hes e he).mono hm (.refl _)) (.refl _)
  refine ⟨[.ldf fixed r (c ++ [.rtn]) false], w₂, ?_, (World.Onward.withData hs').trans hw₂⟩
  have hlambda : compileLambda (machine host m) ps body env w₁ =
      (.ok (.ldf fixed r (c ++ [.rtn]) false), w₂) := by
    rw [compileLambda_run (hps hw₁.grows) hscan hforms', Cmd.bind_run_ok hc]
    rfl
  rw [machine_comp_succ, hcomp, Cmd.bind_run_ok hlambda]
  rfl

/-- **The call of a lambda expression compiles** when its parts do. -/
theorem compiles_call {form : Value} {a : ℕ} {es : List Value}
    (hform : w.data.IsList form (.pair a :: es)) (hes : ∀ e ∈ es, Compiles host n env w e)
    (hlam : Compiles host n env w (.pair a)) : Compiles host (n + 1) env w form := by
  refine compiles_succ fun m hm tail w₁ hw₁ => ?_
  obtain ⟨args, w₂, hargs, hw₂⟩ :=
    exists_compArgs (fun e he => (hes e he).mono hm (.refl w)) hw₁
  obtain ⟨c, w₃, hc, hw₃⟩ := hlam m hm false w₂ (hw₁.trans hw₂)
  obtain ⟨b, hop⟩ := operand_run es.length w₃
  refine ⟨args ++ markLast c ++
    [if tail then .tapp (es.length % 65536) else .app (es.length % 65536)],
    { w₃ with truncated := b }, ?_, (hw₂.trans hw₃).trans ⟨.refl _, rfl, rfl⟩⟩
  rw [machine_comp_succ, compStep_call (hw₁.grows.isList hform), Cmd.bind_run_ok hargs,
    Cmd.bind_run_ok hc, Cmd.bind_run_ok hop]
  rfl

theorem compiles_begin {form : Value} {forms : List Value}
    (hform : w.data.IsList form (.sym "begin" :: forms))
    (hforms : ∀ e ∈ forms, Compiles host n env w e) : Compiles host (n + 1) env w form := by
  refine compiles_succ fun m hm tail w₁ hw₁ => ?_
  rw [machine_comp_succ, compStep_begin (hw₁.grows.isList hform)]
  exact exists_compForms _ (fun e he => (hforms e he).mono hm (.refl w)) hw₁

/-- **A derived form compiles** when what it expands to does. -/
theorem compiles_derived {form : Value} {name : String} {d : Derived} {xs : List Value}
    (hform : w.data.IsList form (.sym name :: xs)) (hword : keywordOf (.sym name) = some (.derived d))
    (hd : derivedOf name = some d)
    (hexpand : ∀ {w₁ : World X} (m : ℕ), w.Onward w₁ → ∃ v s',
      expandDerived m form d w₁.data = (.ok v, s') ∧ w₁.data.Grows s' ∧
        Compiles host n env (w₁.withData s') v) : Compiles host (n + 1) env w form := by
  refine compiles_succ fun m hm tail w₁ hw₁ => ?_
  obtain ⟨v, s', hv, hs', hcomp⟩ := hexpand m hw₁
  obtain ⟨c, w₂, hc, hw₂⟩ := hcomp m hm tail _ (.refl _)
  refine ⟨c, w₂, ?_, (World.Onward.withData hs').trans hw₂⟩
  rw [machine_comp_succ, compStep_derived (hw₁.grows.isList hform) hword hd (by rwa [machine_fuel]),
    hc]

/-- A `let` around a form that is no definition compiles when the form does. -/
theorem compiles_let {form body : Value} {xes : List (String × Value)}
    (hform : w.data.IsLet form "let" xes [body]) (hnot : w.data.NotDefine body)
    (hes : ∀ e ∈ xes.map (·.2), Compiles host (n + 1) env w e)
    (hbody : Compiles host n (xes.map (·.1) :: env) w body) :
    Compiles host (n + 3) env w form := by
  obtain ⟨bl, hlist, -⟩ := id hform
  refine compiles_derived (d := .letF) hlist rfl rfl fun m hw₁ => ?_
  obtain ⟨v, lam, ps, s', hexpand, hmore, hv, hlam, hps⟩ := expandLet_spec (hw₁.grows.isLet hform)
  refine ⟨v, s', hexpand, hmore.grows, ?_⟩
  have hw' := hw₁.trans (World.Onward.withData hmore.grows)
  obtain ⟨a, d, rfl, hp, hd⟩ := hlam
  have hlam : s'.IsList (.pair a) (.sym "lambda" :: ps :: [body]) := ⟨a, d, rfl, hp, hd⟩
  refine compiles_call hv (fun e he => (hes e he).mono (Nat.le_refl _) hw') ?_
  have hparams : ∀ {s'' : Data X}, s'.Grows s'' →
      extractParams ps s'' = (.ok (some (xes.map (·.1), none)), s'') :=
    fun hs => extractParams_of_symbols (hs.isList hps)
  refine compiles_lambda hlam hparams fun {w₂ b} hw₂ hb => ?_
  have hw₂' := hw'.trans hw₂
  have hscan : scanOutDefines b w₂.data = (.ok b, w₂.data) :=
    scanOutDefines_of_notDefine hb fun form hform => by
      obtain rfl := Option.mem_some_iff.mp hform
      exact hw₂'.grows.notDefine hnot
  refine ⟨b, w₂.data, [body], hscan, .refl _, hb, fun e he => ?_⟩
  obtain rfl := List.mem_singleton.mp he
  rw [Option.toList_none, List.append_nil]
  exact hbody.mono (Nat.le_refl _) hw₂'

/-- **A `letrec` compiles**, whatever the table, when its expressions and its
forms do in their scope. -/
theorem compiles_letrec {form : Value} {xes : List (String × Value)} {forms : List Value}
    (hform : w.data.IsLet form "letrec" xes forms) (hne : xes ≠ []) (hforms_ne : forms ≠ [])
    (hes : ∀ xe ∈ xes, Compiles host n (xes.map (·.1) :: env) w xe.2)
    (hforms : ∀ e ∈ forms, Compiles host n (xes.map (·.1) :: env) w e) :
    Compiles host (n + 6) env w form := by
  obtain ⟨bl, hlist, -⟩ := id hform
  refine compiles_derived (d := .letrecF) hlist rfl rfl fun m hw₁ => ?_
  obtain ⟨v, body, sets, s', hexpand, hmore, hv, hsets, hbegin⟩ :=
    expandLetrec_spec (hw₁.grows.isLet hform)
  refine ⟨v, s', hexpand, hmore.grows, ?_⟩
  have hw' := hw₁.trans (World.Onward.withData hmore.grows)
  -- the assignments and the forms are two forms at least
  obtain ⟨form₁, form₂, rest, htwo⟩ : ∃ form₁ form₂ rest, sets ++ forms =
      form₁ :: form₂ :: rest := by
    obtain ⟨xe, xes', rfl⟩ := List.exists_cons_of_ne_nil hne
    cases hsets with
    | @cons set _ sets _ _ _ =>
      obtain ⟨form₂, rest, hrest⟩ := List.exists_cons_of_ne_nil
        (List.append_ne_nil_of_right_ne_nil sets hforms_ne)
      exact ⟨set, form₂, rest, congrArg (set :: ·) hrest⟩
  have hbody : s'.IsList body (.sym "begin" :: (sets ++ forms)) := by
    rw [htwo] at hbegin ⊢
    exact hbegin
  have hnot : s'.NotDefine body := hbody.notDefine (by decide)
  have hnames : (xes.map fun xe => (xe.1, Value.sym ":undef")).map (·.1) = xes.map (·.1) := by
    rw [List.map_map]
    rfl
  refine compiles_let hv hnot (fun e he => ?_) ?_
  · obtain ⟨xe, -, rfl⟩ := List.mem_map.mp (List.map_map .. ▸ he)
    exact (compiles_sym host env _ ":undef").mono (Nat.succ_pos _) (.refl _)
  · rw [hnames]
    refine compiles_begin hbody fun e he => ?_
    obtain he | he := List.mem_append.mp he
    · obtain ⟨xe, hxe, hset⟩ := exists_of_mem_forall₂ hsets he
      exact compiles_set (List.mem_map_of_mem hxe) hset ((hes xe hxe).mono (Nat.le_refl n) hw')
    · exact (hforms e he).mono (Nat.le_succ n) hw'

/-- **A lambda expression whose body starts with definitions compiles**,
whatever the table, when the values and the other forms do in their scope. -/
theorem compiles_lambda_definitions {form ps : Value} {defs rest : List Value}
    {ds : List (String × DefExpr)} {fixed : List String} {r : Option String}
    (hform : w.data.IsList form (.sym "lambda" :: ps :: (defs ++ rest)))
    (hps : ∀ {s'}, w.data.Grows s' → extractParams ps s' = (.ok (some (fixed, r)), s'))
    (hne : defs ≠ [])
    (hdefs : List.Forall₂ (fun form (d : String × DefExpr) => w.data.IsDefinition form d.1 d.2)
      defs ds)
    (hrest : ∀ form ∈ rest.head?, w.data.NotDefine form)
    (hvalues : ∀ d ∈ ds, d.2.Compiles host n (ds.map (·.1) :: (fixed ++ r.toList) :: env) w)
    (hforms : ∀ e ∈ formsLeft rest,
      Compiles host n (ds.map (·.1) :: (fixed ++ r.toList) :: env) w e) :
    Compiles host (n + 7) env w form := by
  refine compiles_lambda hform hps fun {w₁ body} hw₁ hbody => ?_
  obtain ⟨body', form', xes, s', hscan, hmore, hlist, hlet, hxes⟩ := scanOutDefines_spec hbody hne
    (hdefs.imp fun _ _ => hw₁.grows.isDefinition)
    fun form hform => hw₁.grows.notDefine (hrest form hform)
  refine ⟨body', s', [form'], hscan, hmore.grows, hlist, fun e he => ?_⟩
  obtain rfl := List.mem_singleton.mp he
  have hw' := hw₁.trans (World.Onward.withData hmore.grows)
  have hnames : xes.map (·.1) = ds.map (·.1) := by
    clear hvalues hforms hdefs hscan hlet
    induction hxes with
    | nil => rfl
    | cons hd _ ih => exact congrArg₂ List.cons hd.1 ih
  have hne' : xes ≠ [] := by
    rintro rfl
    cases hxes
    cases hdefs
    exact hne rfl
  refine compiles_letrec hlet hne' (formsLeft_ne_nil rest) (fun xe hxe => ?_) fun e he => ?_
  · obtain ⟨d, hd, -, he⟩ := exists_of_mem_forall₂ hxes hxe
    rw [hnames]
    exact hvalues d hd _ xe.2 hw' he
  · rw [hnames]
    exact (hforms e he).mono (Nat.le_refl n) hw'

/-! ## `eval` -/

/-- `eval` puts the table back, whether the expression has compiled or not. -/
theorem enterEval_compileTable {self : Self X} (vm : VM) (argp : ℕ) (args : List Value)
    (tail : Bool) (w : World X) :
    (enterEval self vm argp args tail w).2.compileTable = w.compileTable := by
  have heval : ∀ (expr : Value) (t : Table), ((do
      let code ← compileEval self expr t
      enterCode vm argp tail code none : SchemeM X VM) w).2.compileTable = w.compileTable := by
    intro expr t
    have hback : (compileEval self expr t w).2.compileTable = w.compileTable := rfl
    rw [Cmd.bind_run]
    rcases hrun : compileEval self expr t w with ⟨_ | code, w₁⟩
    · rw [hrun] at hback
      exact hback
    · rw [hrun] at hback
      cases tail <;> exact hback
  unfold enterEval
  split
  · split
    · exact heval _ _
    · rfl
  · rfl

/-! ## Sessions -/

/-- **A session after the copies were taken**: the copies are what they were,
only cells of the interaction environment are written, the instructions of code read
cells of its own table, `raise` alone is read for an error, and the compiler looks
names up where it did. -/
structure FrozenSession (frozen last : World X) : Prop where
  unchanged : ∀ t ≠ .interaction, last.globals t = frozen.globals t ∧ last.macros t = frozen.macros t
  updates : ∀ x v, .globalCell x v ∈ last.updates → x.table = .interaction
  reads : ∀ c x, .instruction c x ∈ last.reads → Within x.table c
  handOvers : ∀ c x, .handOver c x ∈ last.reads → x = ⟨.interaction, "raise"⟩
  compileTable : last.compileTable = .interaction

/-- **What the compiler, `eval` and the machine do** in whatever certified world. -/
structure FrozenCompiler (host : Host X) : Prop where
  /-- A global definition is rejected. -/
  define : ∀ (n : ℕ) (w : World X) (env : CompileEnv) (tail isMacro : Bool) (a : ℕ) (rest : Value),
    w.data.pairs[a]? = some (.sym (if isMacro then "define-macro" else "define"), rest) →
    w.compileTable ≠ .interaction → (machine host (n + 1)).comp (.pair a) env tail w =
      (.error (onlyInteraction (if isMacro then "define-macro" else "define")), w)
  /-- So is an assignment to a global variable. -/
  assign : ∀ (n : ℕ) (g : Certified X) (env : CompileEnv) (tail : Bool) (form e : Value)
    (x : String), g.world.data.IsList form [.sym "set!", .sym x, e] → locationOf x env = none →
    g.world.compileTable ≠ .interaction →
    ((machine host (n + 1)).comp form env tail g.world).1 =
      match (machine host n).comp e env false g.world with
      | (.ok _, _) => .error (onlyInteraction "set!")
      | (.error err, _) => .error err
  /-- An assignment to a local variable is its value and a store. -/
  localAssign : ∀ (n : ℕ) (w : World X) (env : CompileEnv) (tail : Bool) (form e : Value)
    (x : String) (i j : ℕ), w.data.IsList form [.sym "set!", .sym x, e] →
    locationOf x env = some (i, j) → (machine host (n + 1)).comp form env tail w = (do
      let code ← (machine host n).comp e env false
      return code ++ [.lset (← operand i) (← operand j)] : SchemeM X Code) w
  /-- A lambda expression whose body starts with definitions compiles when its
  parts do. -/
  definitions : ∀ (n : ℕ) (w : World X) (env : CompileEnv) (form ps : Value)
    (defs rest : List Value) (ds : List (String × DefExpr)) (fixed : List String)
    (r : Option String), w.data.IsList form (.sym "lambda" :: ps :: (defs ++ rest)) →
    (∀ {s'}, w.data.Grows s' → extractParams ps s' = (.ok (some (fixed, r)), s')) → defs ≠ [] →
    List.Forall₂ (fun form (d : String × DefExpr) => w.data.IsDefinition form d.1 d.2) defs ds →
    (∀ form ∈ rest.head?, w.data.NotDefine form) →
    (∀ d ∈ ds, d.2.Compiles host n (ds.map (·.1) :: (fixed ++ r.toList) :: env) w) →
    (∀ e ∈ formsLeft rest, Compiles host n (ds.map (·.1) :: (fixed ++ r.toList) :: env) w e) →
    Compiles host (n + 7) env w form
  /-- A form whose head is no macro of the table is no macro call. -/
  noMacro : ∀ (self : Self X) (w : World X) (a : ℕ) (name : String) (rest : Value),
    w.data.pairs[a]? = some (.sym name, rest) → w.macros w.compileTable name = none →
    macroExpand1 self (.pair a) w = (.ok (.pair a), w)
  /-- The code that `eval` enters is within the table of its environment. -/
  evalWithin : ∀ (n : ℕ) (g : Certified X) (expr : Value) (t : Table) (c : Code) (w' : World X),
    compileEval (machine host n) expr t g.world = (.ok c, w') → Within t c
  /-- However `eval` is left, the table is the one there was. -/
  evalTable : ∀ (n : ℕ) (w : World X) (vm : VM) (argp : ℕ) (args : List Value) (tail : Bool),
    (enterEval (machine host n) vm argp args tail w).2.compileTable = w.compileTable
  /-- The same is true of the code that is run then. -/
  runTable : ∀ (n : ℕ) (g : Certified X) (vm : VM), vm.Sound g →
    ((machine host n).loop vm g.world).2.compileTable = g.world.compileTable
  /-- Inside of another machine, and where no handler is installed, no error is handed
  over, so that nothing is read for it. -/
  handOver : ∀ (vm : VM) (m : SchemeM X Next) (w : World X),
    1 < (m w).2.runDepth ∨ handlerInstalled (m w).2 = false → handOver vm m w = m w

theorem handOver_of_unhandled (vm : VM) (m : SchemeM X Next) (w : World X)
    (h : 1 < (m w).2.runDepth ∨ handlerInstalled (m w).2 = false) : handOver vm m w = m w := by
  unfold handOver
  rcases hm : m w with ⟨e | next, w'⟩
  · rw [hm] at h
    dsimp only
    split
    · rfl
    · exact if_pos (h.imp_right (congrArg (!·)))
  · rfl

/-- **The frozen environments.** -/
theorem frozen_environments (host : Host X) (fuel fuel' : ℕ) (library forms : List Value)
    (hw : w.Fresh) : FrozenSession (freeze (playForms host fuel library w))
      (session host fuel fuel' library forms w) ∧ FrozenCompiler host := by
  constructor
  · obtain ⟨g, g', hg, hg', hle, htable⟩ := hw.session_certified host fuel fuel' library forms
    rw [← hg, ← hg']
    exact ⟨hle.frozen, g'.placed.updates, fun c x h => g'.placed.reads (.instruction c x) h,
      fun c x h => g'.placed.reads (.handOver c x) h, hle.compileTable.trans htable⟩
  · exact
    { define := fun _ _ _ _ _ _ _ ha htable => comp_define_rejected ha htable
      assign := fun _ g _ _ _ _ _ hform hx htable => comp_set_rejected g hform hx htable
      localAssign := fun _ _ _ _ _ _ _ _ _ hform hx => compStep_set hform hx
      definitions := fun _ _ _ _ _ _ _ _ _ _ hform hps hne hdefs hrest hvalues hforms =>
        compiles_lambda_definitions hform hps hne hdefs hrest hvalues hforms
      noMacro := fun _ _ _ _ _ ha hexpands => macroExpand1_of_none ha hexpands
      evalWithin := fun n g expr t c w' h => by
        obtain ⟨c', g', hc, -, hwithin, -⟩ | ⟨e, g', herr, -⟩ :=
          (follows_compileEval (g := g) (machine_sound host n) expr t).outcomes
        · obtain rfl := Except.ok.inj (Prod.mk.inj (hc.symm.trans h)).1
          exact hwithin
        · cases (Prod.mk.inj (herr.symm.trans h)).1
      evalTable := fun _ w vm argp args tail => enterEval_compileTable vm argp args tail w
      runTable := fun n g vm hvm => by
        obtain ⟨g', hg', hle⟩ := ((machine_sound host n).loop g vm hvm).exists_state
        rw [← hg', hle.compileTable]
      handOver := handOver_of_unhandled }

/-- A host with `eval`, whose other primitives return `()`. -/
def evalHost : Host Unit :=
  { plainHost with kind := fun name => if name = "eval" then .eval else .data }

/-- The pairs of `(eval '(define y 1) e)`, which is the last one, where the
primitive and the empty environment are written as they are. -/
def evalDefine : List (Value × Value) :=
  [(.int 1, .nil), (.sym "y", .pair 0), (.sym "define", .pair 1), (.pair 2, .nil),
    (.sym "quote", .pair 3), (.environment .null, .nil), (.pair 4, .pair 5),
    (.prim "eval", .pair 6)]

theorem frozen_evalDefine :
    FrozenSession (freeze (playForms evalHost 9 [] (pairsWorld evalDefine)))
      (session evalHost 9 9 [] [.pair 7] (pairsWorld evalDefine)) ∧ FrozenCompiler evalHost :=
  frozen_environments evalHost 9 9 [] [.pair 7] (fresh_pairsWorld evalDefine)

example : (evalTop (machine evalHost 9) (.pair 7) (pairsWorld evalDefine)).1 =
    .error (onlyInteraction "define") := by
  decide +kernel

/-! ### A `raise` of the user -/

/-- The code that was running. -/
def Read.code : Read → Code
  | .instruction c _ | .handOver c _ => c

/-- The cell that was read. -/
def Read.cell : Read → Cell
  | .instruction _ x | .handOver _ x => x

/-- The host with the primitives of the library's handlers, and with `eval`. -/
def evalHandlerHost : Host Unit :=
  { handlerHost [] with kind := fun name => if name = "eval" then .eval else .data }

/-- The world of the handlers' primitives, and of `eval`. -/
def evalWorld : World Unit :=
  { handlerWorld with
    globals := fun t name =>
      if t = .interaction ∧ name = "eval" then some (.prim "eval")
      else handlerWorld.globals t name }

/-- The library is read, the copies are taken, and then the user defines another
`raise`: `(define raise (lambda (obj) 42))`. -/
def redefinedRaise : World Unit :=
  playData evalHandlerHost 20 [defineLambda "raise" ["obj"] [.atom (.int 42)]]
    (freeze (playData evalHandlerHost 20
      [libraryDynamicWind, libraryWithExceptionHandler, libraryRaise] evalWorld))

/-- `(with-exception-handler (lambda (obj) 0) (lambda () (eval 'zz e)))`, where the
empty environment is written as it is. -/
def evalUnbound : Datum :=
  callOf "with-exception-handler"
    [.list [.sym "lambda", .list [.sym "obj"], .atom (.int 0)],
      .list [.sym "lambda", .nil,
        callOf "eval" [.list [.sym "quote", .sym "zz"], .atom (.environment .null)]]]

/-- The form is evaluated. -/
def evalUnboundRun : Except Err Value × World Unit :=
  (do evalTop (machine evalHandlerHost 60) (← onData (Datum.make evalUnbound)) :
    SchemeM Unit Value) redefinedRaise

/-- What the form returns, and the last read, if it is one for an error in the code of
a variable. -/
def handedOver : Except Err Value × Option (Cell × Cell) :=
  (evalUnboundRun.1, match evalUnboundRun.2.reads.getLast? with
    | some (.handOver [.ldg y, .rtn] x) => some (y, x)
    | _ => none)

/-- **The user's `raise` is run for an error in the empty environment**: the variable
that `eval` looks up there is not bound, and what the form returns is what the user's
procedure does. -/
theorem evalUnbound_reads_raise : evalUnboundRun.1 = .ok (.int 42) ∧
    ¬ ∀ read ∈ evalUnboundRun.2.reads, Within read.cell.table read.code := by
  have hrun : handedOver = (.ok (.int 42), some (⟨.null, "zz"⟩, ⟨.interaction, "raise"⟩)) := by
    decide +kernel
  unfold handedOver at hrun
  obtain ⟨hout, hlast⟩ := Prod.mk.inj hrun
  refine ⟨hout, fun hreads => ?_⟩
  split at hlast
  · rename_i y x hread
    obtain ⟨rfl, rfl⟩ := Prod.mk.inj (Option.some.inj hlast)
    have hwithin : Within .interaction [.ldg ⟨.null, "zz"⟩, .rtn] :=
      hreads _ (List.mem_of_getLast? hread)
    cases hwithin.1
  · cases hlast

end Scheme14
