import SecdScheme.Scheme14.Safety

/-!
# scheme14: what `macroexpand-1` shows

The compiler looks at a form, and either compiles it or goes on with what it
expands to. `macroexpand-1` is there to show the latter, with a choice of its
own between the expander and the macros.
-/

namespace Scheme14

variable {X : Type} {self : Self X} {w : World X}

/-! ## What `comp` goes on with -/

/-- **What `comp` compiles next** in the place of a form: nothing, where it
compiles the form itself. -/
def nextForm (self : Self X) (form : Value) : SchemeM X (Option Value) :=
  match form with
  | .pair _ => do
    let (head, _) ← onData (asPair form)
    match keywordOf head with
    | some (.derived _) => do return some (← onData (expandForm1 self.fuel form))
    | some _ => return none
    | none => do
      let expanded ← macroExpand1 self form
      if expanded ≠ form then return some expanded else return none
  | _ => return none

/-- The two halves of a form, as they are read. -/
def World.halves (w : World X) : Value → Value × Value
  | .pair a => (w.data.pairs[a]?).getD (.nil, .nil)
  | _ => (.nil, .nil)

/-- The code of a form that is compiled itself, with its two halves. -/
def compDirect (self : Self X) (form : Value) (halves : Value × Value) (env : CompileEnv)
    (tail : Bool) : SchemeM X Code :=
  match form with
  | .sym name => compVar name env
  | .pair _ =>
    match keywordOf halves.1 with
    | some word => compSpecial self form halves.2 env tail word
    | none => compCall self halves.1 halves.2 env tail
  | v => return [.ldc v]

theorem onData_asPair_run (a : ℕ) (w : World X) :
    onData (asPair (.pair a)) w = (.ok (w.halves (.pair a)), w) := rfl

/-- **`comp` goes on with what comes next**, and compiles the form itself where
nothing does. -/
theorem compStep_eq_next (form : Value) (env : CompileEnv) (tail : Bool) :
    compStep self form env tail w = match nextForm self form w with
      | (.ok (some v), w₁) => self.comp v env tail w₁
      | (.ok none, w₁) => compDirect self form (w.halves form) env tail w₁
      | (.error e, w₁) => (.error e, w₁) := by
  unfold compStep nextForm compDirect
  cases form with
  | pair a =>
    rw [if_neg (show ¬ (Value.pair a).selfEvaluating = true from nofun)]
    dsimp only
    rw [Cmd.bind_run_ok (onData_asPair_run a w), Cmd.bind_run_ok (onData_asPair_run a w)]
    cases hword : keywordOf (w.halves (.pair a)).1 with
    | none =>
      dsimp only
      rw [Cmd.bind_run, Cmd.bind_run]
      rcases macroExpand1 self (.pair a) w with ⟨e | expanded, w₁⟩
      · rfl
      · dsimp only
        by_cases hsame : expanded ≠ .pair a
        · rw [if_pos hsame, if_pos hsame]
          rfl
        · rw [if_neg hsame, if_neg hsame]
          rfl
    | some word =>
      cases word with
      | derived d =>
        show (onData (expandForm1 self.fuel (.pair a)) >>= fun v => self.comp v env tail) w = _
        rw [Cmd.bind_run]
        dsimp only
        rw [Cmd.bind_run]
        rcases onData (expandForm1 self.fuel (.pair a)) w with ⟨e | v, w₁⟩ <;> rfl
      | _ => rfl
  | _ => rfl

/-! ## What the tool shows -/

/-- **The tool shows what the compiler does** with a form: it returns what `comp`
compiles next, the form itself where that is what `comp` compiles, and the
form itself in no other case. -/
def ShowsNext (self : Self X) (w : World X) (form : Value) : Prop :=
  expandOneStep self form w = (do return (← nextForm self form).getD form) w ∧
    ∀ w', expandOneStep self form w = (.ok form, w') → nextForm self form w = (.ok none, w')

/-- The call of a transformer with the rest of a form. -/
def callTransformer (self : Self X) (m rest : Value) : SchemeM X Value := do
  applyCallable self m (← onData (listToVector rest "macro call"))

/-- **A form the tool and the compiler agree on.** Where its head is a word that is
compiled directly, there is no macro of that name, or the call of its transformer
returns the form; and no derived form is its own expansion, which takes a circular
one. -/
def NotShadowed (self : Self X) (w : World X) (form : Value) : Prop :=
  match form with
  | .pair _ =>
    match keywordOf (w.halves form).1 with
    | some (.derived _) => ∀ w', onData (expandForm1 self.fuel form) w ≠ (.ok form, w')
    | some _ => ∀ name m, (w.halves form).1 = .sym name → w.macros w.compileTable name = some m →
        callTransformer self m (w.halves form).2 w = (.ok form, w)
    | none => True
  | _ => True

/-- **The macros leave a form** when there is none for its head, or its transformer
returns the form. -/
theorem macroExpand1_eq_self_iff (a : ℕ) :
    macroExpand1 self (.pair a) w = (.ok (.pair a), w) ↔
      ∀ name m, (w.halves (.pair a)).1 = .sym name → w.macros w.compileTable name = some m →
        callTransformer self m (w.halves (.pair a)).2 w = (.ok (.pair a), w) := by
  unfold macroExpand1
  rw [if_neg (show ¬ (!isPair (.pair a)) = true from nofun), Cmd.bind_run_ok (onData_asPair_run a w)]
  generalize w.halves (.pair a) = p
  obtain ⟨head, rest⟩ := p
  dsimp only
  cases head with
  | sym name =>
    dsimp only
    rw [Cmd.bind_run_ok (show (Cmd.getState : SchemeM X (World X)) w = (.ok w, w) from rfl)]
    cases hm : w.macros w.compileTable name with
    | none =>
      refine iff_of_true rfl fun name' m hname h => ?_
      rw [← Value.sym.inj hname, hm] at h
      cases h
    | some m =>
      constructor
      · intro h name' m' hname hm'
        rw [← Value.sym.inj hname, hm] at hm'
        obtain rfl := Option.some.inj hm'
        exact h
      · exact fun h => h name m rfl hm
  | _ => exact iff_of_true rfl nofun

theorem keywordOf_derived {name : String} {d : Derived} :
    keywordOf (.sym name) = some (.derived d) ↔ derivedOf name = some d := by
  constructor
  · intro h
    unfold keywordOf at h
    split at h
    all_goals try cases h
    rename_i name' _ _ _ _ _ _ _ _ _ _ heq
    obtain rfl := Value.sym.inj heq
    obtain ⟨d', hd', hd⟩ := Option.map_eq_some_iff.mp h
    rw [hd', Keyword.derived.inj hd]
  · intro h
    unfold derivedOf at h
    split at h
    all_goals first
      | cases h; rfl
      | cases h

/-- **The expander looks at the same words** as the compiler. -/
theorem expandForm1_pair (fuel a : ℕ) (s : Data X) :
    expandForm1 fuel (.pair a) s = match keywordOf ((s.pairs[a]?).getD (.nil, .nil)).1 with
      | some (.derived d) => expandDerived fuel (.pair a) d s
      | _ => (.ok (.pair a), s) := by
  unfold expandForm1
  rw [if_neg (show ¬ (!isPair (.pair a)) = true from nofun), Cmd.bind_run_ok (show car (.pair a) s =
    (.ok ((s.pairs[a]?).getD (.nil, .nil)).1, s) from rfl)]
  generalize ((s.pairs[a]?).getD (.nil, .nil)).1 = head
  cases head with
  | sym name =>
    dsimp only
    cases hd : derivedOf name with
    | some d =>
      rw [keywordOf_derived.mpr hd]
    | none =>
      split
      · rename_i d hword
        rw [keywordOf_derived.mp hword] at hd
        cases hd
      · rfl
  | _ => rfl

/-- A form that the expander leaves is left to the macros. -/
theorem expandOneStep_of_left {form : Value} (h : onData (expandForm1 self.fuel form) w =
    (.ok form, w)) : expandOneStep self form w = macroExpand1 self form w := by
  unfold expandOneStep
  rw [Cmd.bind_run_ok h, if_neg (not_not.mpr rfl)]

theorem expandForm1_left {a : ℕ} (h : ∀ d, keywordOf (w.halves (.pair a)).1 ≠ some (.derived d)) :
    onData (expandForm1 self.fuel (.pair a)) w = (.ok (.pair a), w) := by
  refine onData_run_same ?_
  rw [expandForm1_pair]
  split
  · rename_i d hword
    exact absurd hword (h d)
  · rfl

/-- What is no pair is left as it is. -/
theorem expandOneStep_atom {form : Value} (h : isPair form = false) :
    expandOneStep self form w = (.ok form, w) := by
  have hexpand : onData (expandForm1 self.fuel form) w = (.ok form, w) := by
    refine onData_run_same ?_
    unfold expandForm1
    rw [h]
    rfl
  rw [expandOneStep_of_left hexpand]
  unfold macroExpand1
  rw [h]
  rfl

/-- **The tool shows what the compiler does** exactly with the forms that are
not shadowed. -/
theorem showsNext_iff (form : Value) : ShowsNext self w form ↔ NotShadowed self w form := by
  cases form with
  | pair a =>
    unfold ShowsNext NotShadowed nextForm
    dsimp only
    rw [Cmd.bind_assoc_run, Cmd.bind_run_ok (onData_asPair_run a w),
      Cmd.bind_run_ok (onData_asPair_run a w)]
    cases hword : keywordOf (w.halves (.pair a)).1 with
    | none =>
      -- both leave the form to the macros
      rw [expandOneStep_of_left (expandForm1_left (by rw [hword]; exact nofun))]
      dsimp only
      rw [iff_true, Cmd.bind_assoc_run, Cmd.bind_run, Cmd.bind_run]
      rcases macroExpand1 self (.pair a) w with ⟨e | expanded, w₁⟩
      · exact ⟨rfl, fun w' h => nomatch h⟩
      · dsimp only
        by_cases hsame : expanded ≠ .pair a
        · rw [if_pos hsame]
          exact ⟨rfl, fun w' h => absurd (Except.ok.inj (Prod.mk.inj h).1) hsame⟩
        · rw [if_neg hsame]
          obtain rfl : expanded = .pair a := not_not.mp hsame
          exact ⟨rfl, fun w' h => congrArg (Prod.mk _) (Prod.mk.inj h).2⟩
    | some word =>
      have hdirect : (∀ d, word ≠ .derived d) →
          ((expandOneStep self (.pair a) w = (.ok (.pair a), w) ∧
            ∀ w', expandOneStep self (.pair a) w = (.ok (.pair a), w') →
              ((.ok none, w) : Except Err (Option Value) × World X) = (.ok none, w')) ↔
          ∀ name m, (w.halves (.pair a)).1 = .sym name → w.macros w.compileTable name = some m →
            callTransformer self m (w.halves (.pair a)).2 w = (.ok (.pair a), w)) := by
        intro hd
        rw [← macroExpand1_eq_self_iff]
        rw [expandOneStep_of_left (expandForm1_left fun d => by
          rw [hword]
          exact fun h => hd d (Option.some.inj h))]
        constructor
        · exact fun h => h.1
        · intro h
          refine ⟨h, fun w' h' => ?_⟩
          rw [(Prod.mk.inj (h.symm.trans h')).2]
      cases word with
      | derived d =>
        dsimp only
        unfold expandOneStep
        rw [Cmd.bind_assoc_run, Cmd.bind_run, Cmd.bind_run, Cmd.bind_run]
        rcases onData (expandForm1 self.fuel (.pair a)) w with ⟨e | v, w₁⟩
        · exact iff_of_true ⟨rfl, fun w' h => nomatch h⟩ fun w' h => nomatch h
        · dsimp only
          by_cases hsame : v ≠ .pair a
          · rw [if_pos hsame]
            refine iff_of_true ⟨rfl, fun w' h => ?_⟩ fun w' h => ?_
            · exact absurd (Except.ok.inj (Prod.mk.inj h).1) hsame
            · exact hsame (Except.ok.inj (Prod.mk.inj h).1)
          · obtain rfl : v = .pair a := not_not.mp hsame
            rw [if_neg hsame]
            refine iff_of_false (fun h => ?_) fun h => h w₁ rfl
            -- the tool says that the form is final, and `comp` goes on with it
            have hnone := h.2 w₁ h.1
            exact absurd (Except.ok.inj (Prod.mk.inj hnone).1) (Option.some_ne_none _)
      | _ => exact hdirect nofun
  | _ =>
    refine iff_of_true ⟨expandOneStep_atom rfl, fun w' h => ?_⟩ trivial
    rw [expandOneStep_atom rfl] at h
    exact congrArg (Prod.mk (Except.ok none)) (Prod.mk.inj h).2

/-- `macroexpand` stops at a form that one step leaves. -/
theorem expandRepeatedly_eq_ok : ∀ {steps : ℕ} {form v : Value} {w w' : World X},
    expandRepeatedly self steps form w = (.ok v, w') →
      ∃ w₁, expandOneStep self v w₁ = (.ok v, w')
  | 0, _, _, _, _, h => nomatch h
  | steps + 1, form, v, w, w', h => by
    unfold expandRepeatedly at h
    obtain ⟨out, w₁, hout, h⟩ := Cmd.exists_of_bind_ok h
    split at h
    · rename_i hsame
      obtain ⟨rfl, rfl⟩ := Cmd.eq_of_pure_ok h
      exact ⟨w, hsame ▸ hout⟩
    · exact expandRepeatedly_eq_ok h

/-- **`macroexpand-1` and the compiler.** The compiler goes on with what comes
next for a form; the tool shows that exactly where the form is not shadowed;
and where `macroexpand` stops at a form that is not, the compiler compiles
this form itself. -/
theorem macroexpand_shows_iff (self : Self X) (w : World X) (form : Value) :
    (∀ env tail, compStep self form env tail w = match nextForm self form w with
      | (.ok (some v), w₁) => self.comp v env tail w₁
      | (.ok none, w₁) => compDirect self form (w.halves form) env tail w₁
      | (.error e, w₁) => (.error e, w₁)) ∧
    (ShowsNext self w form ↔ NotShadowed self w form) ∧
    ∀ steps v w', expandRepeatedly self steps form w = (.ok v, w') →
      ∃ w₁, expandOneStep self v w₁ = (.ok v, w') ∧
        (NotShadowed self w₁ v → nextForm self v w₁ = (.ok none, w')) := by
  refine ⟨compStep_eq_next form, showsNext_iff form, fun steps v w' h => ?_⟩
  obtain ⟨w₁, hfixed⟩ := expandRepeatedly_eq_ok h
  exact ⟨w₁, hfixed, fun hshadow => ((showsNext_iff v).mpr hshadow).2 w' hfixed⟩

/-! ### A macro named `if` -/

/-- A host whose primitives make a list of their arguments. -/
def listHost : Host Unit := { plainHost with apply := fun _ args => listFrom args }

/-- After `(define-macro if list)`, with the form `(if 1 2)` at the last
address. -/
def macroIf : World Unit :=
  { pairsWorld [(.int 2, .nil), (.int 1, .pair 0), (.sym "if", .pair 1)] with
    macros := fun t name => if t = .interaction ∧ name = "if" then some (.prim "list") else none }

/-- The tool shows `(1 2)`, and the compiler compiles the conditional. -/
theorem macroIf_shown : (expandOneStep (machine listHost 2) (.pair 2) macroIf).1 = .ok (.pair 4) ∧
    nextForm (machine listHost 2) (.pair 2) macroIf = (.ok none, macroIf) ∧
    ¬ ShowsNext (machine listHost 2) macroIf (.pair 2) := by
  have htool : (expandOneStep (machine listHost 2) (.pair 2) macroIf).1 = .ok (.pair 4) := rfl
  refine ⟨htool, rfl, fun h => ?_⟩
  rw [h.1] at htool
  exact absurd (show Value.pair 2 = .pair 4 from Except.ok.inj htool) (by decide)

end Scheme14
