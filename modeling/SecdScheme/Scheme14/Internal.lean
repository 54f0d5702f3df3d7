import SecdScheme.Scheme14.Scope
import SecdScheme.Scheme14.Safety
import SecdScheme.Scheme14.Undisturbed

/-!
# scheme14: internal definitions

The definitions a body starts with are gathered where a lambda expression is
compiled, and nowhere else. So they are local wherever the body of the form
arrives there as it was written: not so for `let*` and `letrec`, which put
more than one form into a `begin` first, and a `let*` without bindings is not
even a lambda expression. There a definition of a helper is an assignment to a
global variable.
-/

namespace Scheme14

variable {X : Type} {host : Host X} {n : ℕ} {w w' : World X} {s s' : Data X} {env Γ : CompileEnv}
  {tail : Bool}

/-! ## Code in a body -/

/-- The code that an expression was compiled to, some time. -/
def CompiledTo (host : Host X) (e : Value) (env : CompileEnv) (tail : Bool) (c : Code) : Prop :=
  ∃ n w w', (machine host n).comp e env tail w = (.ok c, w')

/-- **Forms one after the other**, and the return. -/
def Sequence (host : Host X) (env : CompileEnv) : List Value → Code → Prop
  | [], c => c = [.ldc .nil, .rtn]
  | [e], c => ∃ v, CompiledTo host e env true v ∧ c = v ++ [.rtn]
  | e :: es, c => ∃ v c', CompiledTo host e env false v ∧ c = v ++ .pop :: c' ∧
      Sequence host env es c'

/-- **Values stored one by one**: each of them is stored in its variable
before the code of the next one, and the forms come last. -/
def Stores (host : Host X) (env : CompileEnv) (names : List String) :
    List (String × Value) → List Value → Code → Prop
  | [], forms, c => Sequence host env forms c
  | xe :: xes, forms, c => ∃ v c', CompiledTo host xe.2 env false v ∧
      c = v ++ .lset 0 (names.idxOf xe.1) :: .pop :: c' ∧ Stores host env names xes forms c'

/-- An instruction that reads a variable. -/
def Instr.IsVariable : Instr → Prop
  | .ld _ _ | .ldg _ => True
  | _ => False

theorem varInstr_isVariable (t : Table) (name : String) (env : CompileEnv) :
    (varInstr t name env).IsVariable := by
  unfold varInstr
  split <;> trivial

/-- The global variable that an instruction writes. -/
def Instr.written : Instr → Option String
  | .defG x | .defm x | .gset x => some x.name
  | _ => none

/-- Code that writes a global variable. -/
def WritesGlobal (x : String) (c : Code) : Prop := ∃ i ∈ instrs c, i.written = some x

/-- The forms that are left when the definitions are taken away. -/
def formsLeft (rest : List Value) : List Value := if rest = [] then [.sym ":undef"] else rest

theorem formsLeft_ne_nil (rest : List Value) : formsLeft rest ≠ [] := by
  unfold formsLeft
  split
  · exact List.cons_ne_nil _ _
  · assumption

/-- **The code of a body with local definitions.** The names are the variables
of a closure that is entered at once. In its code `inner` the values are
stored one by one, before the other forms; none of the names is read or set
as a global variable there, and one is only written where an expression of
the body, in that scope, writes it on its own account. -/
structure LocalDefinitions (host : Host X) (Γ : CompileEnv) (xes : List (String × Value))
    (rest : List Value) (u : Instr) (inner c : Code) : Prop where
  entered : c = List.replicate xes.length u ++
    [.ldf (xes.map (·.1)) none inner true, .tapp xes.length, .rtn]
  undefined : u.IsVariable
  stored : Stores host (xes.map (·.1) :: Γ) (xes.map (·.1)) xes (formsLeft rest) inner
  visible : Hides (xes.map (·.1)) inner
  notWritten : ∀ x ∈ xes.map (·.1), WritesGlobal x c → ∃ e ∈ xes.map (·.2) ++ formsLeft rest,
    ∃ tail v, CompiledTo host e (xes.map (·.1) :: Γ) tail v ∧ WritesGlobal x v

/-! ## Forms with a body -/

/-- A form with a body: what it has besides. -/
inductive BodyForm where
  | lambda (ps : Value)
  | define (name : String) (ps : Value)
  | letF (xes : List (String × Value))
  | namedLet (name : String) (xes : List (String × Value))
  | letStar (xes : List (String × Value))
  | letrecF (xes : List (String × Value))

/-- The form, with its body. -/
def Data.IsBodyForm (s : Data X) (form : Value) (forms : List Value) : BodyForm → Prop
  | .lambda ps => s.IsList form (.sym "lambda" :: ps :: forms)
  | .define name ps => s.IsDefinition form name (.procedure ps forms)
  | .letF xes => s.IsLet form "let" xes forms
  | .namedLet name xes => ∃ bl, s.IsList form (.sym "let" :: .sym name :: bl :: forms) ∧
      s.IsBindings bl xes
  | .letStar xes => s.IsLet form "let*" xes forms
  | .letrecF xes => s.IsLet form "letrec" xes forms

/-- **Where the code of the body is** in the code of a form, and its scope. -/
inductive BodyAt : BodyForm → CompileEnv → Code → CompileEnv → Code → Prop
  | lambda {ps env fixed r c} :
      BodyAt (.lambda ps) env [.ldf fixed r c false] ((fixed ++ r.toList) :: env) c
  | define {name ps env fixed r x c} :
      BodyAt (.define name ps) env [.ldf fixed r c false, .defG x] ((fixed ++ r.toList) :: env) c
  | letF {xes env args call c} :
      BodyAt (.letF xes) env (args ++ [.ldf (xes.map (·.1)) none c true, call])
        (xes.map (·.1) :: env) c
  | namedLet {name xes env u rest call c} :
      BodyAt (.namedLet name xes) env
        [u, .ldf [name] none (.ldf (xes.map (·.1)) none c false :: rest) true, call]
        (xes.map (·.1) :: [name] :: env) c
  | letStarNil {env c} : BodyAt (.letStar []) env c env c
  | letStarOne {xe env args call c} :
      BodyAt (.letStar [xe]) env (args ++ [.ldf [xe.1] none c true, call]) ([xe.1] :: env) c
  | letStarMore {xe xe' xes env args call c Γ c'} :
      BodyAt (.letStar (xe' :: xes)) ([xe.1] :: env) c Γ c' →
      BodyAt (.letStar (xe :: xe' :: xes)) env
        (args ++ [.ldf [xe.1] none (c ++ [.rtn]) true, call]) Γ c'
  | letrecF {xes env args call c} :
      BodyAt (.letrecF xes) env (args ++ [.ldf (xes.map (·.1)) none c true, call])
        (xes.map (·.1) :: env) c

/-- **The body is scanned as it was written**, for so many forms. -/
def BodyForm.Scanned (forms : ℕ) : BodyForm → Prop
  | .lambda _ | .define _ _ | .letF _ | .namedLet _ _ => True
  | .letStar xes => xes ≠ [] ∧ forms = 1
  | .letrecF xes => xes = [] ∧ forms = 1

/-- Two ways to end with two instructions. -/
theorem append_two_inj {c c' : Code} {i j i' j' : Instr} (h : c ++ [i, j] = c' ++ [i', j']) :
    i = i' :=
  (List.cons.inj (List.append_inj' h rfl).2).1

/-- The body is at one place only. -/
theorem BodyAt.unique {kind : BodyForm} {c b b' : Code} {Γ' : CompileEnv}
    (h : BodyAt kind env c Γ b) (h' : BodyAt kind env c Γ' b') : Γ = Γ' ∧ b = b' := by
  induction h generalizing Γ' b' with
  | lambda =>
    cases h'
    exact ⟨rfl, rfl⟩
  | define =>
    cases h'
    exact ⟨rfl, rfl⟩
  | letStarNil =>
    cases h'
    exact ⟨rfl, rfl⟩
  | namedLet =>
    cases h'
    exact ⟨rfl, rfl⟩
  | @letF xes _ args call b =>
    generalize hc : args ++ [Instr.ldf (xes.map (·.1)) none b true, call] = c at h'
    cases h' with
    | letF => exact ⟨rfl, (Instr.ldf.inj (append_two_inj hc)).2.2.1⟩
  | @letrecF xes _ args call b =>
    generalize hc : args ++ [Instr.ldf (xes.map (·.1)) none b true, call] = c at h'
    cases h' with
    | letrecF => exact ⟨rfl, (Instr.ldf.inj (append_two_inj hc)).2.2.1⟩
  | @letStarOne xe _ args call b =>
    generalize hc : args ++ [Instr.ldf [xe.1] none b true, call] = c at h'
    cases h' with
    | letStarOne => exact ⟨rfl, (Instr.ldf.inj (append_two_inj hc)).2.2.1⟩
  | @letStarMore xe xe' xes _ args call b _ _ _ ih =>
    generalize hc : args ++ [Instr.ldf [xe.1] none (b ++ [.rtn]) true, call] = c at h'
    cases h' with
    | letStarMore h' =>
      have hbody := (Instr.ldf.inj (append_two_inj hc)).2.2.1
      have heq := (List.append_inj' hbody rfl).1
      subst heq
      exact ih h'

/-! ## The code of the forms -/

section

variable {next : ℕ → Self X} {form : Value} {forms : List Value} {c : Code}

/-- **The code of the body** of a lambda expression. -/
def BodyCode (next : ℕ → Self X) (s : Data X) (forms : List Value) (Γ : CompileEnv) (c : Code) :
    Prop :=
  ∃ m, ∃ w₁ w₂ : World X, ∃ s' body body', w₁.data = s ∧ s.IsList body forms ∧
    scanOutDefines body s = (.ok body', s') ∧
    compBody (next m) body' Γ true (w₁.withData s') = (.ok c, w₂)

/-- A closure has the code of its body. -/
theorem bodyCode_of_compileLambda {ps body : Value} {i : Instr} (hbody : w.data.IsList body forms)
    (h : compileLambda (next n) ps body env w = (.ok i, w')) :
    ∃ fixed r c, extractParams ps w.data = (.ok (some (fixed, r)), w.data) ∧
      i = .ldf fixed r (c ++ [.rtn]) false ∧
      BodyCode next w.data forms ((fixed ++ r.toList) :: env) c := by
  obtain ⟨fixed, r, body', s', c, hps, hscan, hc, rfl⟩ := compileLambda_eq_ok h
  exact ⟨fixed, r, c, hps, rfl, n, w, w', s', body, body', rfl, hbody, hscan, hc⟩

variable (hnext : Levels next)
include hnext

theorem bodyCode_of_comp_lambda {ps : Value}
    (hform : w.data.IsList form (.sym "lambda" :: ps :: forms))
    (h : (next n).comp form env tail w = (.ok c, w')) :
    ∃ fixed r b, extractParams ps w.data = (.ok (some (fixed, r)), w.data) ∧
      c = [.ldf fixed r (b ++ [.rtn]) false] ∧
      BodyCode next w.data forms ((fixed ++ r.toList) :: env) b := by
  obtain ⟨m, body, i, rfl, hbody, hi, rfl⟩ := comp_lambda_eq_ok hnext hform h
  obtain ⟨fixed, r, b, hps, rfl, hb⟩ := bodyCode_of_compileLambda hbody hi
  exact ⟨fixed, r, b, hps, rfl, hb⟩

/-- **A `let`**: the expressions of the bindings, and the closure that is
called at once. It is what was written, if the pairs are not overwritten meanwhile. -/
theorem bodyCode_of_comp_let {xes : List (String × Value)} (hform : w.data.IsLet form "let" xes forms)
    (h : (next n).comp form env tail w = (.ok c, w')) :
    ∃ m s₁ args, ∃ w₂ : World X, w.data.Grows s₁ ∧
      compArgs (next m) (xes.map (·.2)) env (w.withData s₁) = (.ok args, w₂) ∧
      (s₁.KeepsPairs w₂.data → ∃ b, c = args ++ [.ldf (xes.map (·.1)) none (b ++ [.rtn]) true,
          if tail then .tapp (xes.length % 65536) else .app (xes.length % 65536)] ∧
        BodyCode next w₂.data forms (xes.map (·.1) :: env) b) := by
  obtain ⟨v, lam, ps, s₁, hexpand, hmore, hv, hlam, hps⟩ := expandLet_spec hform
  obtain ⟨bl, hlist, -⟩ := hform
  obtain ⟨m, rfl, hcomp⟩ := comp_derived_eq_ok (d := .letF) hnext hlist rfl rfl (fun _ => hexpand) h
  obtain ⟨a, lamRest, rfl, hlamPair⟩ := hlam
  obtain ⟨m, args, w₂, code, w₃, rfl, hargs, hcode, rfl⟩ := comp_call_eq_ok hnext hv hcomp
  refine ⟨m, s₁, args, w₂, hmore.grows, hargs, fun hkept => ?_⟩
  have hlam' : w₂.data.IsList (.pair a) (.sym "lambda" :: ps :: forms) :=
    hkept.isList ⟨a, lamRest, rfl, hlamPair⟩
  obtain ⟨fixed, r, b, hparams, rfl, hb⟩ := bodyCode_of_comp_lambda hnext hlam' hcode
  rw [extractParams_of_symbols (hkept.isList hps)] at hparams
  obtain ⟨rfl, rfl⟩ := Prod.mk.inj (Option.some.inj (Except.ok.inj (Prod.mk.inj hparams).1))
  rw [Option.toList_none, List.append_nil] at hb
  refine ⟨b, ?_, hb⟩
  rw [List.length_map, List.append_assoc]
  rfl

/-- **A `letrec`**: undefined variables, and a body of one form, which sets
them before the other forms. -/
theorem bodyCode_of_comp_letrec {xes : List (String × Value)}
    (hform : w.data.IsLet form "letrec" xes forms)
    (h : (next n).comp form env tail w = (.ok c, w')) :
    ∃ u s' body sets b, u.IsVariable ∧ w.data.Grows s' ∧
      c = List.replicate xes.length u ++ [.ldf (xes.map (·.1)) none (b ++ [.rtn]) true,
        if tail then .tapp (xes.length % 65536) else .app (xes.length % 65536)] ∧
      List.Forall₂ (fun set (xe : String × Value) => s'.IsList set [.sym "set!", .sym xe.1, xe.2])
        sets xes ∧ s'.IsBegin body (sets ++ forms) ∧
      BodyCode next s' [body] (xes.map (·.1) :: env) b := by
  obtain ⟨v, body, sets, s₁, hexpand, hmore, hv, hsets, hbegin⟩ := expandLetrec_spec hform
  obtain ⟨bl, hlist, -⟩ := hform
  obtain ⟨m, rfl, hcomp⟩ := comp_derived_eq_ok (d := .letrecF) hnext hlist rfl rfl
    (fun _ => hexpand) h
  have hundef : (xes.map fun xe => (xe.1, Value.sym ":undef")).map (·.2) =
      List.replicate xes.length (.sym ":undef") := by
    rw [List.map_map]
    exact List.map_const'
  have hnames : (xes.map fun xe => (xe.1, Value.sym ":undef")).map (·.1) = xes.map (·.1) := by
    rw [List.map_map]
    rfl
  obtain ⟨k, s₂, args, w₂, hs₂, hargs, hbody⟩ := bodyCode_of_comp_let hnext hv hcomp
  rw [hundef] at hargs
  obtain ⟨rfl, hdata⟩ := compArgs_sym_eq_ok hnext hargs
  -- the undefined variables are the only arguments, and nothing has become of the data
  have hdata : w₂.data = s₂ := hdata
  obtain ⟨b, rfl, hb⟩ := hbody (hdata ▸ .refl _)
  rw [hdata, hnames] at hb
  have hgrows : s₁.Grows s₂ := hs₂
  refine ⟨varInstr w.compileTable ":undef" env, s₂, body, sets, b, varInstr_isVariable _ _ _,
    hmore.grows.trans hgrows, ?_, hsets.imp fun _ _ => hgrows.isList, hgrows.isBegin hbegin, hb⟩
  rw [hnames, List.length_map]
  rfl

/-! ## The code of a body -/

omit hnext in
/-- A body that does not start with a definition is the code of its forms. -/
theorem compForms_of_bodyCode (h : BodyCode next s forms Γ c)
    (hforms : ∀ form ∈ forms.head?, s.NotDefine form) : ∃ m, ∃ w₁ w₂ : World X,
      w₁.data = s ∧ compForms (next m) Γ true forms w₁ = (.ok c, w₂) := by
  obtain ⟨m, w₁, w₂, s', body, body', rfl, hbody, hscan, hc⟩ := h
  rw [scanOutDefines_of_notDefine hbody hforms] at hscan
  obtain ⟨hok, rfl⟩ := Prod.mk.inj hscan
  obtain rfl := Except.ok.inj hok
  rw [show w₁.withData w₁.data = w₁ from rfl] at hc
  unfold compBody at hc
  rw [Cmd.bind_run_ok (onData_run_same (listToVector_of_isList "body" hbody))] at hc
  exact ⟨m, w₁, w₂, rfl, hc⟩

omit hnext in
/-- **A body that starts with definitions** is the code of a `letrec`. -/
theorem letrec_of_bodyCode {defs : List Value} {ds : List (String × DefExpr)} {rest : List Value}
    (h : BodyCode next s (defs ++ rest) Γ c) (hne : defs ≠ [])
    (hdefs : List.Forall₂ (fun form (d : String × DefExpr) => s.IsDefinition form d.1 d.2) defs ds)
    (hrest : ∀ form ∈ rest.head?, s.NotDefine form) : ∃ m, ∃ w₁ w₂ : World X, ∃ form xes,
      s.Grows w₁.data ∧ w₁.data.IsLet form "letrec" xes (formsLeft rest) ∧
      List.Forall₂ (fun xe (d : String × DefExpr) => xe.1 = d.1 ∧ w₁.data.IsExpr xe.2 d.2) xes ds ∧
      (next m).comp form Γ true w₁ = (.ok c, w₂) := by
  obtain ⟨m, w₁, w₂, s', body, body', rfl, hbody, hscan, hc⟩ := h
  obtain ⟨body'', form, xes, s'', hscan', hmore, hlist, hlet, hxes⟩ :=
    scanOutDefines_spec hbody hne hdefs hrest
  rw [hscan] at hscan'
  obtain ⟨hok, rfl⟩ := Prod.mk.inj hscan'
  obtain rfl := Except.ok.inj hok
  unfold compBody at hc
  rw [Cmd.bind_run_ok (onData_run_same (listToVector_of_isList "body" hlist))] at hc
  exact ⟨m, _, w₂, form, xes, hmore.grows, hlet, hxes, hc⟩

/-- Two forms or more are put into one. -/
theorem compForms_of_bodyCode_begin {b form form' : Value} {forms : List Value}
    (h : BodyCode next s [b] Γ c) (hb : s.IsBegin b (form :: form' :: forms)) :
    ∃ m, ∃ w₁ w₂ : World X, w₁.data = s ∧
      compForms (next m) Γ true (form :: form' :: forms) w₁ = (.ok c, w₂) := by
  have hlist : s.IsList b (.sym "begin" :: form :: form' :: forms) := hb
  have hnot : s.NotDefine b := hlist.notDefine (by decide)
  obtain ⟨m, w₁, w₂, rfl, hc⟩ := compForms_of_bodyCode h fun form hform => by
    obtain rfl := Option.mem_some_iff.mp hform
    exact hnot
  obtain ⟨k, -, hforms⟩ := comp_begin_eq_ok hnext hlist (show (next m).comp b Γ true w₁ = _ from hc)
  exact ⟨k, w₁, w₂, rfl, hforms⟩

end

variable {c : Code}

/-- The forms of a sequence, as they were compiled. -/
theorem sequence_of_compForms : ∀ {es : List Value} {c : Code} {w w' : World X},
    compForms (watching host n) env true es w = (.ok c, w') →
    Sequence host env es (c ++ [.rtn])
  | [], c, w, w', h => by
    obtain ⟨rfl, -⟩ := Cmd.eq_of_pure_ok h
    rfl
  | [e], c, w, w', h => ⟨c, ⟨n, w, w', comp_of_watching h⟩, rfl⟩
  | e :: e' :: es, c, w, w', h => by
    obtain ⟨v, w₁, hv, h⟩ := Cmd.exists_of_bind_ok h
    obtain ⟨c', w₂, hc', h⟩ := Cmd.exists_of_bind_ok h
    obtain ⟨rfl, rfl⟩ := Cmd.eq_of_pure_ok h
    refine ⟨v, c' ++ [.rtn], ⟨n, w, w₁, comp_of_watching hv⟩, ?_, sequence_of_compForms hc'⟩
    rw [List.append_assoc]
    rfl

/-- A name is found in the frame of the names. -/
theorem locationOf_of_mem {x : String} {names : List String} (h : x ∈ names) :
    locationOf x (names :: env) = some (0, names.idxOf x) := by
  unfold locationOf
  have hidx : names.findIdx? (· == x) = some (names.idxOf x) := by
    rw [List.findIdx?_eq_some_iff_findIdx_eq]
    exact ⟨List.idxOf_lt_length_of_mem h, rfl⟩
  rw [hidx]

/-- The first of some assignments, and what comes after it. -/
theorem compForms_set {names : List String} {set : Value} {xe : String × Value} {es : List Value}
    (hset : w.data.IsList set [.sym "set!", .sym xe.1, xe.2]) (hx : xe.1 ∈ names) (hes : es ≠ [])
    (h : compForms (watching host n) (names :: env) tail (set :: es) w = (.ok c, w')) :
    ∃ v c', ∃ w₁ : World X, CompiledTo host xe.2 (names :: env) false v ∧
      w.data.KeepsPairs w₁.data ∧
      compForms (watching host n) (names :: env) tail es w₁ = (.ok c', w') ∧
      c = v ++ .lset 0 (names.idxOf xe.1 % 65536) :: .pop :: c' := by
  obtain ⟨e, es, rfl⟩ := List.exists_cons_of_ne_nil hes
  obtain ⟨v, w₁, hv, h⟩ := Cmd.exists_of_bind_ok h
  obtain ⟨c', w₂, hc', h⟩ := Cmd.exists_of_bind_ok h
  obtain ⟨rfl, rfl⟩ := Cmd.eq_of_pure_ok h
  have hkept := keepsPairs_of_comp hv
  obtain ⟨m, code, w₃, rfl, hcode, -, rfl⟩ :=
    comp_set_eq_ok (levels_watching host) hset (locationOf_of_mem hx) hv
  refine ⟨code, c', w₁, ⟨m, w, w₃, comp_of_watching hcode⟩, hkept, hc', ?_⟩
  rw [List.append_assoc]
  rfl

/-- **The values are stored one by one.** -/
theorem stores_of_compForms {names : List String} (hnames : names.length < 65536) :
    ∀ {xes : List (String × Value)} {sets forms : List Value} {c : Code} {w w' : World X},
    (∀ xe ∈ xes, xe.1 ∈ names) →
    List.Forall₂ (fun set (xe : String × Value) => w.data.IsList set [.sym "set!", .sym xe.1, xe.2])
      sets xes → forms ≠ [] →
    compForms (watching host n) (names :: env) true (sets ++ forms) w = (.ok c, w') →
    Stores host (names :: env) names xes forms (c ++ [.rtn])
  | [], _, forms, c, w, w', _, hsets, _, h => by
    cases hsets
    exact sequence_of_compForms h
  | xe :: xes, _, forms, c, w, w', hmem, hsets, hforms, h => by
    cases hsets with
    | cons hset hsets =>
      have hx := hmem xe List.mem_cons_self
      obtain ⟨v, c', w₁, hv, hkept, hc', rfl⟩ := compForms_set hset hx
        (List.append_ne_nil_of_right_ne_nil _ hforms) h
      have hrest := stores_of_compForms hnames (fun y hy => hmem y (List.mem_cons_of_mem xe hy))
        (hsets.imp fun _ _ => hkept.isList) hforms hc'
      refine ⟨v, c' ++ [.rtn], hv, ?_, hrest⟩
      have hlt : names.idxOf xe.1 < 65536 := Nat.lt_trans (List.idxOf_lt_length_of_mem hx) hnames
      rw [Nat.mod_eq_of_lt hlt, List.append_assoc]
      rfl

/-- The forms after some assignments are compiled where the pairs are what they were. -/
theorem compForms_after_sets {names : List String} :
    ∀ {xes : List (String × Value)} {sets forms : List Value} {c : Code} {w w' : World X},
    (∀ xe ∈ xes, xe.1 ∈ names) →
    List.Forall₂ (fun set (xe : String × Value) => w.data.IsList set [.sym "set!", .sym xe.1, xe.2])
      sets xes → forms ≠ [] →
    compForms (watching host n) (names :: env) true (sets ++ forms) w = (.ok c, w') →
    ∃ w₁ : World X, ∃ c₁ c₂, w.data.KeepsPairs w₁.data ∧ c = c₁ ++ c₂ ∧
      compForms (watching host n) (names :: env) true forms w₁ = (.ok c₂, w')
  | [], _, forms, c, w, w', _, hsets, _, h => by
    cases hsets
    exact ⟨w, [], c, .refl _, rfl, h⟩
  | xe :: xes, _, forms, c, w, w', hmem, hsets, hforms, h => by
    cases hsets with
    | cons hset hsets =>
      obtain ⟨v, c', w₁, -, hkept, hc', rfl⟩ := compForms_set hset (hmem xe List.mem_cons_self)
        (List.append_ne_nil_of_right_ne_nil _ hforms) h
      obtain ⟨w₂, c₁, c₂, hkept', rfl, hforms'⟩ :=
        compForms_after_sets (fun y hy => hmem y (List.mem_cons_of_mem xe hy))
          (hsets.imp fun _ _ => hkept.isList) hforms hc'
      refine ⟨w₂, v ++ .lset 0 (names.idxOf xe.1 % 65536) :: .pop :: c₁, c₂, hkept.trans hkept',
        ?_, hforms'⟩
      rw [List.append_assoc]
      rfl

/-! ## Local definitions -/

variable {x : String} {c' : Code}

theorem writesGlobal_append : WritesGlobal x (c ++ c') ↔ WritesGlobal x c ∨ WritesGlobal x c' := by
  unfold WritesGlobal
  simp only [instrs_append, List.mem_append, or_and_right, exists_or]

theorem writesGlobal_cons {i : Instr} : WritesGlobal x (i :: c) ↔
    WritesGlobal x [i] ∨ WritesGlobal x c :=
  writesGlobal_append (c := [i])

/-- An instruction without code of its own. -/
theorem not_writesGlobal {i : Instr} (hall : i.all = [i]) (hi : i.written = none) :
    ¬ WritesGlobal x [i] := by
  rintro ⟨j, hj, hx⟩
  have hmem : j ∈ i.all ++ [] := hj
  rw [List.append_nil, hall, List.mem_singleton] at hmem
  rw [hmem, hi] at hx
  cases hx

theorem not_writesGlobal_replicate {u : Instr} (hu : u.IsVariable) : ∀ {k : ℕ},
    ¬ WritesGlobal x (List.replicate k u)
  | 0 => nofun
  | k + 1 => by
    intro h
    obtain h | h := writesGlobal_cons.mp h
    · refine not_writesGlobal ?_ ?_ h
      · cases u <;> first | rfl | exact hu.elim
      · cases u <;> first | rfl | exact hu.elim
    · exact not_writesGlobal_replicate hu h

theorem writesGlobal_ldf {params : List String} {rest : Option String} {b : Bool} :
    WritesGlobal x [.ldf params rest c b] ↔ WritesGlobal x c := by
  show (∃ i ∈ Instr.ldf params rest c b :: instrs c ++ [], i.written = some x) ↔ _
  rw [List.append_nil]
  simp only [List.mem_cons, or_and_right, exists_or, exists_eq_left]
  exact ⟨fun h => h.resolve_left nofun, .inr⟩

/-- What a sequence writes one of its forms writes. -/
theorem Sequence.writes : ∀ {es : List Value} {c : Code}, Sequence host env es c →
    WritesGlobal x c → ∃ e ∈ es, ∃ tail v, CompiledTo host e env tail v ∧ WritesGlobal x v
  | [], c, h, hx => by
    obtain rfl : c = [.ldc .nil, .rtn] := h
    obtain hx | hx := writesGlobal_cons.mp hx
    · exact absurd hx (not_writesGlobal rfl rfl)
    · exact absurd hx (not_writesGlobal rfl rfl)
  | [e], c, ⟨v, hv, hc⟩, hx => by
    subst hc
    obtain hx | hx := writesGlobal_append.mp hx
    · exact ⟨e, List.mem_cons_self, true, v, hv, hx⟩
    · exact absurd hx (not_writesGlobal rfl rfl)
  | e :: e' :: es, c, ⟨v, c', hv, hc, hrest⟩, hx => by
    subst hc
    obtain hx | hx := writesGlobal_append.mp hx
    · exact ⟨e, List.mem_cons_self, false, v, hv, hx⟩
    · obtain hx | hx := writesGlobal_cons.mp hx
      · exact absurd hx (not_writesGlobal rfl rfl)
      · obtain ⟨e₁, he₁, hfound⟩ := Sequence.writes hrest hx
        exact ⟨e₁, List.mem_cons_of_mem e he₁, hfound⟩

theorem Stores.writes {names : List String} {forms : List Value} :
    ∀ {xes : List (String × Value)} {c : Code}, Stores host env names xes forms c →
    WritesGlobal x c → ∃ e ∈ xes.map (·.2) ++ forms, ∃ tail v,
      CompiledTo host e env tail v ∧ WritesGlobal x v
  | [], _, h, hx => Sequence.writes h hx
  | xe :: xes, c, ⟨v, c', hv, hc, hrest⟩, hx => by
    subst hc
    obtain hx | hx := writesGlobal_append.mp hx
    · exact ⟨xe.2, List.mem_cons_self, false, v, hv, hx⟩
    · obtain hx | hx := writesGlobal_cons.mp hx
      · exact absurd hx (not_writesGlobal rfl rfl)
      · obtain hx | hx := writesGlobal_cons.mp hx
        · exact absurd hx (not_writesGlobal rfl rfl)
        · obtain ⟨e, he, hfound⟩ := Stores.writes hrest hx
          exact ⟨e, List.mem_cons_of_mem xe.2 he, hfound⟩

theorem exists_of_mem_forall₂ {α β : Type} {R : α → β → Prop} {l : List α} {l' : List β}
    (h : List.Forall₂ R l l') {a : α} (ha : a ∈ l) : ∃ b ∈ l', R a b := by
  induction h with
  | nil => cases ha
  | @cons a' b l l' hab _ ih =>
    cases ha with
    | head => exact ⟨b, List.mem_cons_self, hab⟩
    | tail _ ha =>
      obtain ⟨b', hb', hab'⟩ := ih ha
      exact ⟨b', List.mem_cons_of_mem b hb', hab'⟩

/-- What the definitions become: their names and expressions. -/
def Data.AreValues (s : Data X) (xes : List (String × Value)) (ds : List (String × DefExpr)) :
    Prop :=
  List.Forall₂ (fun xe (d : String × DefExpr) => xe.1 = d.1 ∧ s.IsExpr xe.2 d.2) xes ds

/-- The code hides the names in scope. -/
theorem watching_scoped (host : Host X) (n : ℕ) : (watching host n).Scoped :=
  fun expr env tail w _ _ h => machine_scoped host n expr env tail w _ _ (comp_of_watching h)

/-- **The definitions that a scanned body starts with are local**, when the
operands have room for them. -/
theorem localDefinitions_of_bodyCode {defs : List Value} {ds : List (String × DefExpr)}
    {rest : List Value} {b : Code} (h : BodyCode (watching host) s (defs ++ rest) Γ b)
    (hne : defs ≠ [])
    (hdefs : List.Forall₂ (fun form (d : String × DefExpr) => s.IsDefinition form d.1 d.2) defs ds)
    (hrest : ∀ form ∈ rest.head?, s.NotDefine form) :
    ∃ u inner s' xes, s.KeepsPairs s' ∧ s'.AreValues xes ds ∧
      b ++ [.rtn] = List.replicate xes.length u ++
        [.ldf (xes.map (·.1)) none inner true, .tapp (xes.length % 65536), .rtn] ∧
      (xes.length < 65536 → LocalDefinitions host Γ xes rest u inner (b ++ [.rtn])) := by
  obtain ⟨m, w₁, w₂, form, xes, hs, hlet, hxes, hb⟩ := letrec_of_bodyCode h hne hdefs hrest
  obtain ⟨u, s', body, sets, c, hu, -, hshape, hsets, hbegin, hc⟩ :=
    bodyCode_of_comp_letrec (levels_watching host) hlet hb
  have hleft := formsLeft_ne_nil rest
  -- there is a definition, so that there are two forms at least
  obtain ⟨set, form', forms, htwo⟩ : ∃ set form' forms, sets ++ formsLeft rest =
      set :: form' :: forms := by
    have hlen : sets.length = defs.length := by
      rw [hsets.length_eq, hxes.length_eq, hdefs.length_eq]
    have hsets_ne : sets ≠ [] := by
      rintro rfl
      exact hne (List.eq_nil_of_length_eq_zero hlen.symm)
    obtain ⟨set, sets', rfl⟩ := List.exists_cons_of_ne_nil hsets_ne
    obtain ⟨form', forms, hforms⟩ := List.exists_cons_of_ne_nil
      (List.append_ne_nil_of_right_ne_nil sets' hleft)
    exact ⟨set, form', forms, congrArg (set :: ·) hforms⟩
  rw [htwo] at hbegin
  obtain ⟨k, w₃, w₄, rfl, hforms⟩ :=
    compForms_of_bodyCode_begin (levels_watching host) hc hbegin
  rw [← htwo] at hforms
  have hentered : b ++ [.rtn] = List.replicate xes.length u ++
      [.ldf (xes.map (·.1)) none (c ++ [.rtn]) true, .tapp (xes.length % 65536), .rtn] := by
    rw [hshape, List.append_assoc]
    rfl
  refine ⟨u, c ++ [.rtn], w₁.data, xes, hs.toKeepsPairs, hxes, hentered, fun hlt => ?_⟩
  have hstored := stores_of_compForms (by rwa [List.length_map])
    (fun xe hxe => List.mem_map_of_mem hxe) hsets hleft hforms
  have hscope : Hides (xes.map (·.1)) c :=
    (hides_compForms (watching_scoped host k) _ w₃ c w₄ hforms).mono (by
      rw [List.flatten_cons]
      exact List.subset_append_left _ _)
  refine ⟨?_, hu, hstored, hides_append.mpr ⟨hscope, hides_plain trivial⟩, fun x _ hx => ?_⟩
  · rw [hentered, Nat.mod_eq_of_lt hlt]
  · rw [hentered] at hx
    obtain hx | hx := writesGlobal_append.mp hx
    · exact absurd hx (not_writesGlobal_replicate hu)
    · obtain hx | hx := writesGlobal_cons.mp hx
      · exact hstored.writes (writesGlobal_ldf.mp hx)
      · obtain hx | hx := writesGlobal_cons.mp hx
        · exact absurd hx (not_writesGlobal rfl rfl)
        · exact absurd hx (not_writesGlobal rfl rfl)

/-- There is no definition among the instructions of such a body. -/
theorem LocalDefinitions.not_defG {xes : List (String × Value)} {rest : List Value} {u : Instr}
    {inner : Code} (h : LocalDefinitions host Γ xes rest u inner c) (y : Cell) : .defG y ∉ c := by
  rw [h.entered]
  intro hy
  obtain hy | hy := List.mem_append.mp hy
  · obtain rfl := List.eq_of_mem_replicate hy
    exact h.undefined
  · cases hy with
    | tail _ hy =>
      cases hy with
      | tail _ hy =>
        cases hy with
        | tail _ hy => cases hy

/-! ## Where the body of a form arrives -/

/-- **`lambda`, `define`, `let` and `let` with a name**: as it was written. -/
theorem bodyCode_at {form : Value} {forms : List Value} {kind : BodyForm}
    (hform : w.data.IsBodyForm form forms kind)
    (hkind : ∀ xes, kind ≠ .letStar xes ∧ kind ≠ .letrecF xes)
    (h : (watching host n).comp form env tail w = (.ok c, w')) :
    ∃ Γ b s', BodyAt kind env c Γ (b ++ [.rtn]) ∧ w.data.KeepsPairs s' ∧
      BodyCode (watching host) s' forms Γ b := by
  have hnext := levels_watching host
  cases kind with
  | lambda ps =>
    obtain ⟨fixed, r, b, -, rfl, hb⟩ := bodyCode_of_comp_lambda hnext hform h
    exact ⟨_, b, w.data, .lambda, .refl _, hb⟩
  | define name ps =>
    have hdef : w.data.IsDefinition form name (.procedure ps forms) := hform
    obtain ⟨m, code, y, -, rfl, body, i, w₁, hbody, rfl, hi⟩ := comp_define_eq_ok hnext hdef h
    obtain ⟨fixed, r, b, -, rfl, hb⟩ := bodyCode_of_compileLambda hbody hi
    exact ⟨_, b, w.data, .define, .refl _, hb⟩
  | letF xes =>
    obtain ⟨m, s₁, args, w₂, hs₁, hargs, hbody⟩ := bodyCode_of_comp_let hnext hform h
    have hkept : s₁.KeepsPairs w₂.data := keepsPairs_of_compArgs hargs
    obtain ⟨b, rfl, hb⟩ := hbody hkept
    exact ⟨_, b, w₂.data, .letF, hs₁.toKeepsPairs.trans hkept, hb⟩
  | namedLet name xes =>
    obtain ⟨bl, hlist, hbl⟩ := hform
    obtain ⟨v, lam, ps, call, s₁, hexpand, hmore, hv, hlam, hps, -⟩ :=
      expandLet_named_spec hlist hbl
    obtain ⟨m, rfl, hcomp⟩ := comp_derived_eq_ok (d := .letF) hnext hlist rfl rfl
      (fun _ => hexpand) h
    obtain ⟨u, s₂, body, sets, c', -, hs₂, rfl, hsets, hbegin, hc'⟩ :=
      bodyCode_of_comp_letrec hnext hv hcomp
    have hgrows : s₁.Grows s₂ := hs₂
    cases hsets with
    | @cons set _ sets _ hset hnil =>
      cases hnil
      obtain ⟨k, w₁, w₂, rfl, hforms⟩ := compForms_of_bodyCode_begin hnext hc' hbegin
      obtain ⟨c₁, w₃, hc₁, hforms⟩ := Cmd.exists_of_bind_ok hforms
      obtain ⟨c₂, w₄, -, hforms⟩ := Cmd.exists_of_bind_ok hforms
      obtain ⟨rfl, rfl⟩ := Cmd.eq_of_pure_ok hforms
      obtain ⟨k, code, w₅, rfl, hcode, -, rfl⟩ := comp_set_eq_ok hnext hset
        (locationOf_of_mem (List.mem_singleton_self name)) hc₁
      obtain ⟨fixed, r, b, hparams, rfl, hb⟩ :=
        bodyCode_of_comp_lambda hnext (hgrows.isList hlam) hcode
      rw [extractParams_of_symbols (hgrows.isList hps)] at hparams
      obtain ⟨rfl, rfl⟩ := Prod.mk.inj (Option.some.inj (Except.ok.inj (Prod.mk.inj hparams).1))
      rw [Option.toList_none, List.append_nil] at hb
      exact ⟨_, b, _, .namedLet, (hmore.grows.trans hgrows).toKeepsPairs, hb⟩
  | letStar xes => exact absurd rfl (hkind xes).1
  | letrecF xes => exact absurd rfl (hkind xes).2

/-- **A `let*` with bindings**: as one form. -/
theorem bodyCode_at_letStar {xes : List (String × Value)} (hne : xes ≠ []) {form : Value}
    {forms : List Value} (hform : w.data.IsLet form "let*" xes forms)
    (h : (watching host n).comp form env tail w = (.ok c, w')) :
    ∃ Γ b s' body, BodyAt (.letStar xes) env c Γ (b ++ [.rtn]) ∧ w.data.KeepsPairs s' ∧
      s'.IsBegin body forms ∧ BodyCode (watching host) s' [body] Γ b := by
  have hnext := levels_watching host
  induction xes generalizing form forms n env tail c w w' with
  | nil => exact absurd rfl hne
  | cons xe xes ih =>
    obtain ⟨v, body, s₁, hexpand, hmore, hbegin, hv⟩ := expandLetStar_spec hform
    obtain ⟨bl, hlist, -⟩ := hform
    obtain ⟨m, rfl, hcomp⟩ := comp_derived_eq_ok (d := .letStar) hnext hlist rfl rfl
      (fun _ => hexpand) h
    -- the pairs between the expansion and the body of the closure of its first variable
    have hbetween : ∀ {s₂ : Data X} {w₂ : World X} {k : ℕ} {es : List Value} {args : Code},
        s₁.Grows s₂ → compArgs (watching host k) es env ((w.withData s₁).withData s₂) =
          (.ok args, w₂) → s₂.KeepsPairs w₂.data ∧ s₁.KeepsPairs w₂.data := fun hs₂ hargs =>
      ⟨keepsPairs_of_compArgs hargs, hs₂.toKeepsPairs.trans (keepsPairs_of_compArgs hargs)⟩
    cases xes with
    | nil =>
      have hlet : s₁.IsLet v "let" [xe] [body] := hv
      obtain ⟨k, s₂, args, w₂, hs₂, hargs, hbody⟩ := bodyCode_of_comp_let hnext hlet hcomp
      obtain ⟨hkept, hkept₁⟩ := hbetween hs₂ hargs
      obtain ⟨b, rfl, hb⟩ := hbody hkept
      exact ⟨_, b, w₂.data, body, .letStarOne, hmore.grows.toKeepsPairs.trans hkept₁,
        hkept₁.isBegin hbegin, hb⟩
    | cons xe' xes =>
      obtain ⟨nested, hlet, hnested⟩ := hv
      obtain ⟨k, s₂, args, w₂, hs₂, hargs, hbody⟩ := bodyCode_of_comp_let hnext hlet hcomp
      obtain ⟨hkept, hkept₁⟩ := hbetween hs₂ hargs
      obtain ⟨b₁, rfl, hb₁⟩ := hbody hkept
      have hnested' := hkept₁.isLet hnested
      have hnot : w₂.data.NotDefine nested := by
        obtain ⟨bl', hlist', -⟩ := hnested'
        exact hlist'.notDefine (by decide)
      obtain ⟨k', w₃, w₄, hdata, hforms⟩ := compForms_of_bodyCode hb₁ fun form hform => by
        obtain rfl := Option.mem_some_iff.mp hform
        exact hnot
      rw [← hdata] at hnested' hkept₁
      obtain ⟨Γ, b, s₄, body', hat, hs₄, hbegin', hb⟩ := ih (List.cons_ne_nil _ _) hnested' hforms
      obtain rfl : body' = body := hbegin'
      have hs : s₁.KeepsPairs s₄ := hkept₁.trans hs₄
      exact ⟨Γ, b, s₄, body', .letStarMore hat, hmore.grows.toKeepsPairs.trans hs,
        hs.isBegin hbegin, hb⟩

/-! ## Definitions that are not gathered -/

section

variable {next : ℕ → Self X} {form : Value} {d : DefExpr} (hnext : Levels next)
include hnext

theorem defG_mem_of_comp (hform : w.data.IsDefinition form x d)
    (h : (next n).comp form env tail w = (.ok c, w')) : ∃ y, .defG y ∈ c := by
  obtain ⟨m, code, y, -, rfl, -⟩ := comp_define_eq_ok hnext hform h
  exact ⟨y, List.mem_append_right code List.mem_cons_self⟩

theorem defG_mem_of_compForms {forms : List Value} (hform : w.data.IsDefinition form x d)
    (h : compForms (next n) env tail (form :: forms) w = (.ok c, w')) : ∃ y, .defG y ∈ c := by
  cases forms with
  | nil => exact defG_mem_of_comp hnext hform h
  | cons form' forms =>
    obtain ⟨v, w₁, hv, h⟩ := Cmd.exists_of_bind_ok h
    obtain ⟨c', w₂, -, h⟩ := Cmd.exists_of_bind_ok h
    obtain ⟨rfl, rfl⟩ := Cmd.eq_of_pure_ok h
    obtain ⟨y, hy⟩ := defG_mem_of_comp hnext hform hv
    exact ⟨y, List.mem_append_left _ hy⟩

/-- A `let*` without bindings is its body. -/
theorem defG_mem_of_comp_letStar {defs rest : List Value} {ds : List (String × DefExpr)}
    (hform : w.data.IsLet form "let*" [] (defs ++ rest)) (hne : defs ≠ [])
    (hdefs : List.Forall₂ (fun form (d : String × DefExpr) => w.data.IsDefinition form d.1 d.2)
      defs ds)
    (h : (next n).comp form env tail w = (.ok c, w')) : ∃ y, .defG y ∈ c := by
  obtain ⟨v, body, s₁, hexpand, hmore, hbegin, hv⟩ := expandLetStar_spec hform
  obtain ⟨bl, hlist, -⟩ := hform
  obtain ⟨m, rfl, hcomp⟩ := comp_derived_eq_ok (d := .letStar) hnext hlist rfl rfl
    (fun _ => hexpand) h
  obtain rfl : v = body := hv
  cases hdefs with
  | nil => exact absurd rfl hne
  | @cons d d' defs ds hd _ =>
    have hd' := hmore.grows.isDefinition hd
    cases hforms : defs ++ rest with
    | nil =>
      rw [List.cons_append, hforms] at hbegin
      obtain rfl : v = d := hbegin
      exact defG_mem_of_comp hnext hd' hcomp
    | cons form' forms =>
      rw [List.cons_append, hforms] at hbegin
      have hlist' : (w.withData s₁).data.IsList v (.sym "begin" :: d :: form' :: forms) := hbegin
      obtain ⟨k, rfl, hc⟩ := comp_begin_eq_ok hnext hlist' hcomp
      exact defG_mem_of_compForms hnext hd' hc

end

/-- A definition after the assignments of a `letrec`. -/
theorem defG_mem_of_sets {xe : String × Value} {xes : List (String × Value)} {body : Value}
    {sets defs rest : List Value} {ds : List (String × DefExpr)} {b : Code}
    (hsets : List.Forall₂ (fun set (xe : String × Value) =>
      s.IsList set [.sym "set!", .sym xe.1, xe.2]) sets (xe :: xes))
    (hbegin : s.IsBegin body (sets ++ (defs ++ rest)))
    (hb : BodyCode (watching host) s [body] ((xe :: xes).map (·.1) :: env) b) (hne : defs ≠ [])
    (hdefs : List.Forall₂ (fun form (d : String × DefExpr) => s.IsDefinition form d.1 d.2)
      defs ds) : ∃ y, .defG y ∈ b := by
  cases hdefs with
  | nil => exact absurd rfl hne
  | @cons d d' defs ds hd _ =>
    obtain ⟨set, form', forms, htwo⟩ : ∃ set form' forms, sets ++ (d :: defs ++ rest) =
        set :: form' :: forms := by
      cases hsets with
      | @cons set _ sets _ _ _ =>
        obtain ⟨form', forms, hforms⟩ := List.exists_cons_of_ne_nil
          (List.append_ne_nil_of_right_ne_nil sets (List.cons_ne_nil d (defs ++ rest)))
        exact ⟨set, form', forms, congrArg (set :: ·) hforms⟩
    rw [htwo] at hbegin
    obtain ⟨k, w₁, w₂, rfl, hc⟩ := compForms_of_bodyCode_begin (levels_watching host) hb hbegin
    rw [← htwo] at hc
    obtain ⟨w₃, c₁, c₂, hkept, rfl, hc₂⟩ := compForms_after_sets
      (fun y hy => List.mem_map_of_mem hy) hsets (List.cons_ne_nil d (defs ++ rest)) hc
    obtain ⟨y, hy⟩ := defG_mem_of_compForms (levels_watching host) (hkept.isDefinition hd) hc₂
    exact ⟨y, List.mem_append_right c₁ hy⟩

/-! ## Which definitions are local -/

/-- **The definitions of a body are local** in the code of a form. -/
def HasLocalDefinitions (host : Host X) (s : Data X) (kind : BodyForm)
    (ds : List (String × DefExpr)) (rest : List Value) (env : CompileEnv) (c : Code) : Prop :=
  ∃ Γ b u inner s' xes, BodyAt kind env c Γ b ∧ s.KeepsPairs s' ∧ s'.AreValues xes ds ∧
    LocalDefinitions host Γ xes rest u inner b

section

variable {kind : BodyForm} {defs rest : List Value} {ds : List (String × DefExpr)} {b : Code}

/-- Where the body is scanned, all depends on the operands. -/
theorem hasLocalDefinitions_iff_of_bodyCode (hat : BodyAt kind env c Γ (b ++ [.rtn]))
    (hs : s.KeepsPairs s') (hb : BodyCode (watching host) s' (defs ++ rest) Γ b) (hne : defs ≠ [])
    (hdefs : List.Forall₂ (fun form (d : String × DefExpr) => s'.IsDefinition form d.1 d.2) defs ds)
    (hrest : ∀ form ∈ rest.head?, s'.NotDefine form) :
    HasLocalDefinitions host s kind ds rest env c ↔ ds.length < 65536 := by
  obtain ⟨u, inner, s₁, xes, hs₁, hxes, hentered, hlocal⟩ :=
    localDefinitions_of_bodyCode hb hne hdefs hrest
  constructor
  · rintro ⟨Γ', b', u', inner', s₂, xes', hat', -, hxes', hlocal'⟩
    obtain ⟨-, rfl⟩ := BodyAt.unique hat' hat
    have heq := hlocal'.entered.symm.trans hentered
    have hcall := (List.cons.inj (List.cons.inj (List.append_inj' heq rfl).2).2).1
    have hlen : xes'.length = xes.length % 65536 := Instr.tapp.inj hcall
    rw [hxes'.length_eq, hxes.length_eq] at hlen
    rw [hlen]
    exact Nat.mod_lt _ (by decide)
  · intro hlt
    rw [← hxes.length_eq] at hlt
    exact ⟨Γ, _, u, inner, s₁, xes, hat, hs.trans hs₁, hxes, hlocal hlt⟩

/-- Where the code of the body defines a global variable itself. -/
theorem not_hasLocalDefinitions {y : Cell} (hat : BodyAt kind env c Γ b) (hy : .defG y ∈ b) :
    ¬ HasLocalDefinitions host s kind ds rest env c := by
  rintro ⟨Γ', b', u, inner, s₁, xes, hat', -, -, hlocal⟩
  obtain ⟨-, rfl⟩ := BodyAt.unique hat' hat
  exact hlocal.not_defG y hy

/-- Where the body is one form, it is scanned if that form is the definition. -/
theorem hasLocalDefinitions_iff_of_begin {body : Value} (hat : BodyAt kind env c Γ (b ++ [.rtn]))
    (hs : s.KeepsPairs s') (hbegin : s'.IsBegin body (defs ++ rest))
    (hb : BodyCode (watching host) s' [body] Γ b) (hne : defs ≠ [])
    (hdefs : List.Forall₂ (fun form (d : String × DefExpr) => s'.IsDefinition form d.1 d.2) defs ds)
    (hrest : ∀ form ∈ rest.head?, s'.NotDefine form) :
    HasLocalDefinitions host s kind ds rest env c ↔
      (defs ++ rest).length = 1 ∧ ds.length < 65536 := by
  obtain ⟨form, defs', rfl⟩ := List.exists_cons_of_ne_nil hne
  cases hforms : defs' ++ rest with
  | nil =>
    rw [List.cons_append, hforms] at hbegin ⊢
    obtain rfl : body = form := hbegin
    rw [← hforms, ← List.cons_append] at hb
    rw [hasLocalDefinitions_iff_of_bodyCode hat hs hb hne hdefs hrest]
    exact ⟨fun hlt => ⟨rfl, hlt⟩, fun h => h.2⟩
  | cons form' forms =>
    rw [List.cons_append, hforms] at hbegin ⊢
    obtain ⟨m, w₁, w₂, rfl, hc⟩ := compForms_of_bodyCode_begin (levels_watching host) hb hbegin
    cases hdefs with
    | cons hform _ =>
      obtain ⟨y, hy⟩ := defG_mem_of_compForms (levels_watching host) hform hc
      refine ⟨fun h => absurd h (not_hasLocalDefinitions hat (List.mem_append_left _ hy)), ?_⟩
      rintro ⟨hlen, -⟩
      exact absurd hlen (by rw [List.length_cons, List.length_cons]; omega)

end

/-! ### Two small bodies -/

/-- The pairs of `(lambda () (define y (f 1)) y)`, which is the last one. -/
def lambdaDefine : List (Value × Value) :=
  [(.int 1, .nil), (.sym "f", .pair 0), (.pair 1, .nil), (.sym "y", .pair 2),
    (.sym "define", .pair 3), (.sym "y", .nil), (.pair 4, .pair 5), (.nil, .pair 6),
    (.sym "lambda", .pair 7)]

/-- The pairs of `(define y 1)`, which is pair 2, and of
`(let* ((x 3)) (define y 2) y)`, which is the last one. -/
def letStarDefine : List (Value × Value) :=
  [(.int 1, .nil), (.sym "y", .pair 0), (.sym "define", .pair 1),
    (.int 3, .nil), (.sym "x", .pair 3), (.pair 4, .nil),
    (.int 2, .nil), (.sym "y", .pair 6), (.sym "define", .pair 7),
    (.sym "y", .nil), (.pair 8, .pair 9), (.pair 5, .pair 10), (.sym "let*", .pair 11)]

end Scheme14
