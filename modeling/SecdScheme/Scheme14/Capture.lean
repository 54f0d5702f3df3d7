import SecdScheme.Scheme14.NamedLet
import SecdScheme.Scheme14.Renaming
import SecdScheme.Scheme14.Temporaries
import Mathlib.Data.Set.Insert
import Mathlib.Data.Set.Operations

/-!
# scheme14: capture

The names that an expansion binds, and those that it refers to, are symbols like
any other, so that a program may have an identifier of the same name. Here is
exactly when none of the program's variables is found elsewhere for that, whatever
the variables are called.
-/

namespace Scheme14

open Cmd (Paired exists_of_bind_ok eq_of_pure_ok)

variable {X : Type} {s s' t : Data X} {v v' : Value}

/-! ## The expanders copy what they are given -/

section

variable {R : Value → Value → Prop} (hR : Indifferent R)
include hR

omit hR in
theorem getLast?_rel {xs ys : List Value} (h : List.Forall₂ R xs ys) :
    Option.Rel R xs.getLast? ys.getLast? := by
  induction h with
  | nil => exact .none
  | cons hab hrest ih =>
    cases hrest with
    | nil => exact .some hab
    | cons _ _ =>
      rw [List.getLast?_cons_cons, List.getLast?_cons_cons]
      exact ih

omit hR in
theorem dropLast_rel {xs ys : List Value} (h : List.Forall₂ R xs ys) :
    List.Forall₂ R xs.dropLast ys.dropLast := by
  rw [List.dropLast_eq_take, List.dropLast_eq_take, h.length_eq]
  exact List.forall₂_take _ h

/-- A temporary is bound to a test. -/
theorem Indifferent.bindTest {x x' e e' thenE thenE' out out' : Value} (hx : R x x') (he : R e e')
    (hthen : R thenE thenE') (hout : R out out') : Parallel R R
      (do
        let binding ← Scheme14.listFrom [← Scheme14.listFrom [x, e]]
        Scheme14.listFrom
          [.sym "let", binding, ← Scheme14.listFrom [.sym "if", x, thenE, out]] : DataM X Value)
      (do
        let binding ← Scheme14.listFrom [← Scheme14.listFrom [x', e']]
        Scheme14.listFrom
          [.sym "let", binding, ← Scheme14.listFrom [.sym "if", x', thenE', out']]) := by
  refine (hR.listFrom (.cons hx (.cons he .nil))).bind fun b b' hb => ?_
  refine (hR.listFrom (.cons hb .nil)).bind fun bs bs' hbs => ?_
  refine (hR.listFrom (.cons (hR.keyword "if" rfl) (.cons hx (.cons hthen (.cons hout .nil))))).bind
    fun body body' hbody => ?_
  exact hR.listFrom (.cons (hR.keyword "let" rfl) (.cons hbs (.cons hbody .nil)))

theorem Indifferent.orForms {last last' : Value} (hlast : R last last')
    {xs ys : List (Value × Value)} (h : List.Forall₂ (RelatedPairs R) xs ys) :
    Parallel R R (orForms xs last : DataM X Value) (orForms ys last') := by
  induction h with
  | nil => exact .pure hlast
  | cons hp _ ih => exact ih.bind fun out out' hout => hR.bindTest hp.1 hp.2 hp.1 hout

/-- The symbols for the numbers of a word. -/
def KeepsTemporaries (R : Value → Value → Prop) (word : String) : Prop :=
  ∀ n, R (.sym (temporary word n)) (.sym (temporary word n))

theorem Indifferent.expandOr (htemp : KeepsTemporaries R "or") (h : R v v') :
    Parallel R R (expandOr v : DataM X Value) (expandOr v') := by
  refine (hR.cdr h).bind fun rest rest' hrest => ?_
  refine (hR.listToVector hrest "or").bind fun xs ys hxs => ?_
  have hlast := getLast?_rel hxs
  generalize xs.getLast? = last, ys.getLast? = last' at hlast
  cases hlast with
  | none => exact .pure (hR.atom rfl)
  | some hlast =>
    refine .bind (P := List.Forall₂ (RelatedPairs R)) (.mapList ?_ (dropLast_rel hxs))
      fun temps temps' htemps => hR.orForms hlast htemps
    exact fun x x' hx => (parallel_makeGensym "or" htemp).bind fun _ _ hname => .pure ⟨hname, hx⟩

/-! ### `cond` -/

/-- Two clauses, part by part. -/
structure RelatedClauses (R : Value → Value → Prop) (c d : CondClause) : Prop where
  test : R c.test d.test
  body : R c.body d.body
  temp : Option.Rel R c.temp d.temp
  recv : Option.Rel R c.recv d.recv
  isElse : c.isElse = d.isElse

theorem Indifferent.condClause (htemp : KeepsTemporaries R "cond") (h : R v v') :
    Parallel R (RelatedClauses R) (condClause v : DataM X CondClause) (condClause v') := by
  unfold Scheme14.condClause
  dsimp only
  refine .ite (by rw [hR.isPair_eq h]) (.fail _ _) ?_
  refine (hR.asPair h).bind fun p q hp => ?_
  have hword : ∀ (word : String), ¬ LegalName word → ∀ {u u' : Value}, R u u' →
      (u = .sym word ↔ u' = .sym word) := fun word hword u u' hu =>
    hR.eq_iff (fun z hz heq => hword (Value.sym.inj heq ▸ hz)) hu
  refine .ite (hword "else" (fun h => h.2.1 rfl) hp.1) (.pure ⟨hp.1, hp.2, .none, .none, rfl⟩) ?_
  have hbody := hp.2
  refine .ite (hR.nil_iff hbody) ?_ ?_
  · exact (parallel_makeGensym "cond" htemp).bind fun _ _ hname =>
      .pure ⟨hp.1, hbody, .some hname, .none, rfl⟩
  refine .ite (by rw [hR.isPair_eq hbody]) (.pure ⟨hp.1, hbody, .none, .none, rfl⟩) ?_
  refine (hR.car hbody).bind fun arrow arrow' harrow => ?_
  refine .ite (not_congr (hword "=>" (fun h => h.2.2 rfl) harrow))
    (.pure ⟨hp.1, hbody, .none, .none, rfl⟩) ?_
  refine (hR.cdr hbody).bind fun rest rest' hrest => ?_
  -- one expression has to follow the arrow
  have hend : ∀ alone : Bool, Parallel R (RelatedClauses R) (if (!alone) = true then do
        syntaxError "cond" (expectedGiven "exactly one expression after =>" v)
        let recv ← Scheme14.car rest
        return ⟨p.1, p.2, some (← makeGensym "cond"), some recv, false⟩
      else do
        let recv ← Scheme14.car rest
        return ⟨p.1, p.2, some (← makeGensym "cond"), some recv, false⟩ : DataM X CondClause)
      (if (!alone) = true then do
        syntaxError "cond" (expectedGiven "exactly one expression after =>" v')
        let recv ← Scheme14.car rest'
        return ⟨q.1, q.2, some (← makeGensym "cond"), some recv, false⟩
      else do
        let recv ← Scheme14.car rest'
        return ⟨q.1, q.2, some (← makeGensym "cond"), some recv, false⟩) := by
    refine fun alone => .ite Iff.rfl (.fail _ _) ?_
    refine (hR.car hrest).bind fun recv recv' hrecv => ?_
    exact (parallel_makeGensym "cond" htemp).bind fun _ _ hname =>
      .pure ⟨hp.1, hbody, .some hname, .some hrecv, rfl⟩
  refine .ite (by rw [hR.isPair_eq hrest]) ?_ (hend false)
  refine .bind (P := Eq) ((hR.cdr hrest).bind fun u u' hu => .pure ?_) fun alone _ halone =>
    halone ▸ hend alone
  have hnil : u = .nil ↔ u' = .nil := hR.nil_iff hu
  exact Bool.eq_iff_iff.mpr (beq_iff_eq.trans (hnil.trans beq_iff_eq.symm))

theorem Indifferent.condClauses (htemp : KeepsTemporaries R "cond") (clauses clauses' : Value)
    (fuel : ℕ) : ∀ {cur cur' : Value}, R cur cur' → Parallel R (List.Forall₂ (RelatedClauses R))
      (condClauses clauses fuel cur : DataM X (List CondClause))
      (condClauses clauses' fuel cur') := by
  induction fuel with
  | zero => exact fun _ => .fail _ _
  | succ fuel ih =>
    intro cur cur' hcur
    unfold Scheme14.condClauses
    dsimp only
    refine .ite (hR.nil_iff hcur) (.pure .nil) ?_
    refine .ite (by rw [hR.isPair_eq hcur]) (.fail _ _) ?_
    refine (hR.asPair hcur).bind fun p q hp => ?_
    refine (hR.condClause htemp hp.1).bind fun c d hc => ?_
    refine .ite (by rw [hc.isElse]) (.pure (.cons hc .nil)) ?_
    exact (ih hp.2).bind fun _ _ hcs => .pure (.cons hc hcs)

/-- The clauses, from the last one on. Without an `else` the last alternative is
undefined. -/
theorem Indifferent.condForms {cs ds : List CondClause} (h : List.Forall₂ (RelatedClauses R) cs ds)
    (hlast : ElseLast cs)
    (hundef : cs.any (·.isElse) = false → R (.sym ":undef") (.sym ":undef")) :
    Parallel R R (condForms cs : DataM X Value) (condForms ds) := by
  induction h with
  | nil => exact .pure (hundef rfl)
  | @cons c d cs ds hc hcs ih =>
    unfold Scheme14.condForms
    cases helse : c.isElse with
    | true =>
      -- what comes of the clauses behind, which are none, is not used
      obtain ⟨rfl, -⟩ := hlast.1 helse
      cases hcs
      refine .bind (P := fun _ _ => True) (.pure trivial) fun _ _ _ => ?_
      rw [← hc.isElse, helse, if_pos rfl, if_pos rfl]
      exact (hR.listToVector hc.body "cond").bind fun _ _ hforms => hR.makeBeginForm hforms
    | false =>
      refine .bind (ih hlast.2 fun hany => hundef (by rw [List.any_cons, helse, hany]; rfl))
        fun out out' hout => ?_
      rw [← hc.isElse, helse, if_neg Bool.false_ne_true, if_neg Bool.false_ne_true]
      have htemp := hc.temp
      have hrecv := hc.recv
      generalize c.temp = temp, d.temp = temp' at htemp
      generalize c.recv = recv, d.recv = recv' at hrecv
      cases htemp with
      | none =>
        refine (hR.listToVector hc.body "cond").bind fun _ _ hforms => ?_
        refine (hR.makeBeginForm hforms).bind fun _ _ hthen => ?_
        exact hR.listFrom (.cons (hR.keyword "if" rfl) (.cons hc.test (.cons hthen (.cons hout .nil))))
      | some hname =>
        dsimp only
        cases hrecv with
        | none =>
          dsimp only
          rw [Cmd.pure_bind_eq, Cmd.pure_bind_eq]
          exact hR.bindTest hname hc.test hname hout
        | some hrecv =>
          exact (hR.listFrom (.cons hrecv (.cons hname .nil))).bind fun _ _ hthen =>
            hR.bindTest hname hc.test hthen hout

theorem Indifferent.expandCond (htemp : KeepsTemporaries R "cond") (hst : Data.Related R s t)
    {form head : Value} {xs : List Value} (hform : s.IsList form (head :: xs))
    (hundef : xs.any s.isElse = false → R (.sym ":undef") (.sym ":undef")) :
    Paired (Data.FailRelated R) (fun a s' b t' => R a b ∧ Data.Related R s' t')
      (expandCond form s) (expandCond form t) := by
  obtain ⟨a, rest, rfl, hp, hxs⟩ := hform
  have hrest : (s.pairOf a).2 = rest := by
    unfold Data.pairOf
    rw [hp]
    rfl
  unfold Scheme14.expandCond
  rw [Cmd.bind_run_ok (cdr_run a s), Cmd.bind_run_ok (cdr_run a t), hrest]
  show Paired _ _ ((Scheme14.condClauses rest (s.pairs.length + 1) rest >>= Scheme14.condForms) s)
    ((Scheme14.condClauses (t.pairOf a).2 (t.pairs.length + 1) (t.pairOf a).2 >>=
      Scheme14.condForms) t)
  rw [← hst.pairs.length_eq]
  have hcur := (hR.pairOf hst a).2
  rw [hrest] at hcur
  refine Paired.bind (hR.condClauses htemp _ _ _ hcur s t hst).withRun fun cs s' ds t' hcs => ?_
  obtain ⟨⟨hcs, hst'⟩, hrun⟩ := hcs
  obtain ⟨-, hlast, hany, -⟩ := condClauses_eq_ok hxs hrun
  exact hR.condForms hcs hlast (fun h => hundef (hany ▸ h)) s' t' hst'

/-! ### `case` and `do` -/

theorem Indifferent.caseClause {x x' cl cl' : Value} (hx : R x x') (hcl : R cl cl')
    (hst : Data.Related R s t) (hmemv : s.isElse cl = false → R (.sym "memv") (.sym "memv")) :
    Paired (Data.FailRelated R) (fun a s' b t' => R a b ∧ Data.Related R s' t')
      (caseClause x cl s) (caseClause x' cl' t) := by
  unfold Scheme14.caseClause
  dsimp only
  by_cases hatom : (!isPair cl) = true
  · rw [if_pos hatom, if_pos (by rw [hR.isPair_eq hcl, hatom])]
    exact .error hst
  rw [if_neg hatom, if_neg (by rw [hR.isPair_eq hcl]; exact hatom)]
  obtain ⟨a, rfl⟩ := exists_pair_of_not hatom
  obtain rfl := hR.eq_of_isPair hcl rfl
  obtain ⟨hhead, hbody⟩ := hR.pairOf hst a
  rw [Cmd.bind_run_ok (asPair_run a s), Cmd.bind_run_ok (asPair_run a t)]
  have hend : ∀ {test test' : Value}, R test test' → Parallel R R
      (do Scheme14.listFrom (test :: (← Scheme14.listToVector (s.pairOf a).2 "case")) :
        DataM X Value)
      (do Scheme14.listFrom (test' :: (← Scheme14.listToVector (t.pairOf a).2 "case"))) :=
    fun htest => (hR.listToVector hbody "case").bind fun _ _ hforms =>
      hR.listFrom (.cons htest hforms)
  have helse : (s.pairOf a).1 = .sym "else" ↔ (t.pairOf a).1 = .sym "else" :=
    hR.eq_iff (fun z hz heq => hz.2.1 (Value.sym.inj heq).symm) hhead
  by_cases hword : (s.pairOf a).1 = .sym "else"
  · rw [if_pos hword, if_pos (helse.mp hword)]
    exact hend (hR.word fun h => h.2.1 rfl) s t hst
  · rw [if_neg hword, if_neg fun h => hword (helse.mpr h)]
    have hown : R (.sym "memv") (.sym "memv") := hmemv (beq_eq_false_iff_ne.mpr hword)
    refine Parallel.bind (P := R) ?_ (fun _ _ htest => hend htest) s t hst
    refine (hR.listFrom (.cons (hR.keyword "quote" rfl) (.cons hhead .nil))).bind fun _ _ hdata => ?_
    exact hR.listFrom (.cons hown (.cons hx (.cons hdata .nil)))

omit hR in
theorem Data.KeepsPairs.isElse (h : s.KeepsPairs s') {cl : Value} (hcl : s.isElse cl = true) :
    s'.isElse cl = true := by
  cases cl with
  | pair a =>
    have hword : (s.pairOf a).1 = .sym "else" := beq_iff_eq.mp hcl
    unfold Data.pairOf at hword
    cases hp : s.pairs[a]? with
    | none =>
      rw [hp] at hword
      cases hword
    | some p =>
      rw [hp] at hword
      show ((s'.pairOf a).1 == _) = true
      unfold Data.pairOf
      rw [h.pairs hp]
      exact beq_iff_eq.mpr hword
  | _ => cases hcl

theorem Indifferent.caseClauses {x x' : Value} (hx : R x x') (clauses clauses' : Value) (fuel : ℕ) :
    ∀ {cur cur' : Value} {xs : List Value} {s t : Data X}, Data.Related R s t →
      R cur cur' → s.IsList cur xs →
      (∀ cl ∈ xs, s.isElse cl = false → R (.sym "memv") (.sym "memv")) →
      Paired (Data.FailRelated R) (fun as s' bs t' => List.Forall₂ R as bs ∧ Data.Related R s' t')
        (caseClauses x clauses fuel cur s) (caseClauses x' clauses' fuel cur' t) := by
  induction fuel with
  | zero => exact fun hst _ _ _ => .error hst
  | succ fuel ih =>
    intro cur cur' xs s t hst hcur hxs hmemv
    unfold Scheme14.caseClauses
    dsimp only
    cases xs with
    | nil =>
      obtain rfl : cur = .nil := hxs
      obtain rfl := (hR.nil_iff hcur).mp rfl
      exact .ok ⟨.nil, hst⟩
    | cons cl xs =>
      obtain ⟨a, rest, rfl, hp, hrest⟩ := hxs
      obtain rfl := hR.eq_of_isPair hcur rfl
      have hpair : s.pairOf a = (cl, rest) := by
        unfold Data.pairOf
        rw [hp]
        rfl
      obtain ⟨hcl, hcdr⟩ := hR.pairOf hst a
      rw [hpair] at hcl hcdr
      have hmore : ¬ Value.pair a = .nil := Value.noConfusion
      have hnext : ¬ (!isPair (.pair a)) = true := Bool.false_ne_true
      rw [if_neg hmore, if_neg hnext, if_neg hmore, if_neg hnext,
        Cmd.bind_run_ok (asPair_run a s), Cmd.bind_run_ok (asPair_run a t), hpair]
      refine Paired.bind (hR.caseClause hx hcl hst (hmemv cl List.mem_cons_self)).withRun
        fun c s₁ d t₁ hc => ?_
      obtain ⟨⟨hc, hst₁⟩, hrun⟩ := hc
      have hkept := (morePairs_caseClause hrun).grows.toKeepsPairs
      -- a clause that was an `else` still is one
      have hmemv₁ : ∀ cl ∈ xs, s₁.isElse cl = false → R (.sym "memv") (.sym "memv") := by
        intro cl' hcl' hother
        refine hmemv cl' (List.mem_cons_of_mem cl hcl') (Bool.eq_false_iff.mpr fun helse => ?_)
        rw [hkept.isElse helse] at hother
        cases hother
      refine Paired.bind (ih hst₁ hcdr (hkept.isList hrest) hmemv₁) fun cs s₂ ds t₂ hcs => ?_
      exact .ok ⟨.cons hc hcs.1, hcs.2⟩

theorem Indifferent.expandCase (htemp : KeepsTemporaries R "case") (hst : Data.Related R s t)
    {form head : Value} {xs : List Value} (hform : s.IsList form (head :: xs))
    (hmemv : ∀ cl ∈ xs.drop 1, s.isElse cl = false → R (.sym "memv") (.sym "memv")) :
    Paired (Data.FailRelated R) (fun a s' b t' => R a b ∧ Data.Related R s' t')
      (expandCase form s) (expandCase form t) := by
  obtain ⟨a, rest, rfl, hp, hxs⟩ := hform
  have hrest : (s.pairOf a).2 = rest := by
    unfold Data.pairOf
    rw [hp]
    rfl
  have hcur := (hR.pairOf hst a).2
  rw [hrest] at hcur
  unfold Scheme14.expandCase
  rw [Cmd.bind_run_ok (cdr_run a s), Cmd.bind_run_ok (cdr_run a t), hrest]
  refine Paired.bind (hR.checkArity "case" hcur 1 0 s t hst).withRun fun _ s₁ _ t₁ hcheck => ?_
  obtain ⟨⟨-, hst₁⟩, hrun⟩ := hcheck
  obtain rfl := eq_of_reads (reads_checkArity _ _ _ _) hrun
  refine Paired.bind (hR.car hcur s t₁ hst₁).withRun fun key s₂ key' t₂ hkey => ?_
  obtain ⟨⟨hkey, hst₂⟩, hrun⟩ := hkey
  obtain rfl := eq_of_reads (reads_car _) hrun
  refine Paired.bind (hR.cdr hcur s t₂ hst₂).withRun fun clauses s₃ clauses' t₃ hclauses => ?_
  obtain ⟨⟨hclauses, hst₃⟩, hcdr⟩ := hclauses
  obtain rfl := eq_of_reads (reads_cdr _) hcdr
  refine Paired.bind (parallel_makeGensym "case" htemp s t₃ hst₃).withRun fun x s₄ x' t₄ hx => ?_
  obtain ⟨⟨hx, hst₄⟩, hgensym⟩ := hx
  have hs₄ : s.KeepsPairs s₄ := (s.expands_count 1).grows.toKeepsPairs.trans
    ((Prod.mk.inj hgensym).2 ▸ .refl _)
  -- the clauses are those of the form, in tables that have nothing else in place of them
  obtain ⟨cls, rfl, hcls⟩ : ∃ cls, xs = key :: cls ∧ s.IsList clauses cls := by
    cases xs with
    | nil =>
      obtain rfl : rest = .nil := hxs
      cases (Prod.mk.inj hrun).1
    | cons x xs =>
      obtain ⟨b, d, rfl, hb, hd⟩ := hxs
      obtain ⟨hx, -⟩ := Prod.mk.inj ((car_pair hb).symm.trans hrun)
      obtain ⟨hclause, -⟩ := Prod.mk.inj ((cdr_pair hb).symm.trans hcdr)
      obtain rfl := Except.ok.inj hx
      obtain rfl := Except.ok.inj hclause
      exact ⟨xs, rfl, hd⟩
  have hmemv₄ : ∀ cl ∈ cls, s₄.isElse cl = false → R (.sym "memv") (.sym "memv") := by
    intro cl hcl hother
    refine hmemv cl hcl (Bool.eq_false_iff.mpr fun helse => ?_)
    rw [hs₄.isElse helse] at hother
    cases hother
  show Paired _ _ ((Scheme14.caseClauses x clauses (s₄.pairs.length + 1) clauses >>= _) s₄)
    ((Scheme14.caseClauses x' clauses' (t₄.pairs.length + 1) clauses' >>= _) t₄)
  rw [← hst₄.pairs.length_eq]
  refine Paired.bind (hR.caseClauses hx _ _ _ hst₄ hclauses (hs₄.isList hcls) hmemv₄)
    fun cs s₅ ds t₅ hcs => ?_
  have hend : Parallel R R (do
      let binding ← Scheme14.listFrom [← Scheme14.listFrom [x, key]]
      Scheme14.listFrom [.sym "let", binding,
        ← Scheme14.makePair (.sym "cond") (← Scheme14.listFrom cs)] : DataM X Value) (do
      let binding ← Scheme14.listFrom [← Scheme14.listFrom [x', key']]
      Scheme14.listFrom [.sym "let", binding,
        ← Scheme14.makePair (.sym "cond") (← Scheme14.listFrom ds)]) := by
    refine (hR.listFrom (.cons hx (.cons hkey .nil))).bind fun b b' hb => ?_
    refine (hR.listFrom (.cons hb .nil)).bind fun bs bs' hbs => ?_
    refine (hR.listFrom hcs.1).bind fun l l' hl => ?_
    refine (hR.makePair (hR.keyword "cond" rfl) hl).bind fun body body' hbody => ?_
    exact hR.listFrom (.cons (hR.keyword "let" rfl) (.cons hbs (.cons hbody .nil)))
  exact hend s₅ t₅ hcs.2

/-- Two specifications of a variable, part by part. -/
def RelatedSpecs (R : Value → Value → Prop) (p q : Value × Value × Value) : Prop :=
  R p.1 q.1 ∧ R p.2.1 q.2.1 ∧ R p.2.2 q.2.2

theorem Indifferent.doSpec (h : R v v') :
    Parallel R (RelatedSpecs R) (doSpec v : DataM X _) (doSpec v') := by
  unfold Scheme14.doSpec
  dsimp only
  refine .ite (by rw [hR.isPair_eq h]) (.fail _ _) ?_
  refine (hR.asPair h).bind fun p q hp => ?_
  refine .ite (by rw [hR.isSymbol_eq hp.1, hR.isPair_eq hp.2]) (.fail _ _) ?_
  refine (hR.cdr hp.2).bind fun stepTail stepTail' htail => ?_
  have hend : ∀ {step step' : Value}, R step step' → Parallel R (RelatedSpecs R)
      (do return (p.1, ← Scheme14.car p.2, step) : DataM X _)
      (do return (q.1, ← Scheme14.car q.2, step')) := fun hstep =>
    (hR.car hp.2).bind fun _ _ hstart => .pure ⟨hp.1, hstart, hstep⟩
  exact .ite (hR.nil_iff htail) (hend hp.1) ((hR.car htail).bind fun _ _ => hend)

theorem Indifferent.expandDo (htemp : KeepsTemporaries R "loop") (h : R v v') :
    Parallel R R (expandDo v : DataM X Value) (expandDo v') := by
  refine (hR.cdr h).bind fun rest rest' hrest => ?_
  refine (hR.checkArity "do" hrest 2 0).bind fun _ _ _ => ?_
  refine (hR.car hrest).bind fun vars vars' hvars => ?_
  refine (hR.cdr hrest).bind fun d d' hd => ?_
  refine (hR.car hd).bind fun test test' htest => ?_
  refine (hR.cdr hrest).bind fun d d' hd => ?_
  refine (hR.cdr hd).bind fun body body' hbody => ?_
  refine .ite (by rw [hR.isPair_eq htest]) (.fail _ _) ?_
  refine (hR.listToVector hvars "do").bind fun vs vs' hvs => ?_
  refine .bind (P := List.Forall₂ (RelatedSpecs R)) (.mapList (fun _ _ h => hR.doSpec h) hvs)
    fun specs specs' hspecs => ?_
  have hnames : List.Forall₂ R (specs.map (·.1)) (specs'.map (·.1)) :=
    List.forall₂_map_left_iff.mpr (List.forall₂_map_right_iff.mpr (hspecs.imp fun _ _ h => h.1))
  have hstarts : List.Forall₂ R (specs.map (·.2.1)) (specs'.map (·.2.1)) :=
    List.forall₂_map_left_iff.mpr (List.forall₂_map_right_iff.mpr (hspecs.imp fun _ _ h => h.2.1))
  have hsteps : List.Forall₂ R (specs.map (·.2.2)) (specs'.map (·.2.2)) :=
    List.forall₂_map_left_iff.mpr (List.forall₂_map_right_iff.mpr (hspecs.imp fun _ _ h => h.2.2))
  refine (parallel_makeGensym "loop" htemp).bind fun x x' hx => ?_
  refine (hR.listToVector hbody "do").bind fun es es' hes => ?_
  refine (hR.listFrom (.cons hx hsteps)).bind fun recur recur' hrecur => ?_
  refine (hR.cdr htest).bind fun d d' hd => ?_
  refine (hR.listToVector hd "do").bind fun results results' hresults => ?_
  refine (hR.makeBeginForm hresults).bind fun result result' hresult => ?_
  refine (hR.car htest).bind fun e e' he => ?_
  refine (hR.makeBeginForm (List.rel_append hes (.cons hrecur .nil))).bind fun again again' hagain => ?_
  refine (hR.listFrom (.cons (hR.keyword "if" rfl)
    (.cons he (.cons hresult (.cons hagain .nil))))).bind fun ifExpr ifExpr' hif => ?_
  refine (hR.listFrom hnames).bind fun params params' hparams => ?_
  refine (hR.listFrom (.cons (hR.keyword "lambda" rfl) (.cons hparams (.cons hif .nil)))).bind
    fun lam lam' hlam => ?_
  refine (hR.listFrom (.cons hx (.cons hlam .nil))).bind fun b b' hb => ?_
  refine (hR.listFrom (.cons hb .nil)).bind fun bs bs' hbs => ?_
  refine (hR.listFrom (.cons hx hstarts)).bind fun call call' hcall => ?_
  exact hR.listFrom (.cons (hR.keyword "letrec" rfl) (.cons hbs (.cons hcall .nil)))

end

/-! ## The names of an expansion -/

/-- The word that the temporaries of a form begin with. -/
def Derived.word? : Derived → Option String
  | .orF => some "or"
  | .condF => some "cond"
  | .caseF => some "case"
  | .doF => some "loop"
  | _ => none

/-- How many temporaries a form needs, by its operands. -/
def Data.needed (s : Data X) : Derived → List Value → ℕ
  | .orF, xs => xs.length - 1
  | .condF, xs => s.keptTests xs
  | .caseF, _ | .doF, _ => 1
  | _, _ => 0

/-- The names that an expansion binds by itself. -/
def Data.Temporaries (s : Data X) (d : Derived) (v : Value) (ts : List String) : Prop :=
  match d with
  | .orF | .condF => ∃ last, s.Nested last v ts
  | .caseF | .doF => ∃ t, ts = [t] ∧ s.BindsOne v t
  | _ => ts = []

/-- **The variables that an expansion refers to by itself**: the last alternative of
a `cond` without an `else` is undefined, and a `case` compares by `memv`. -/
def Data.ownNames (s : Data X) : Derived → List Value → List String
  | .condF, cls => if cls.any s.isElse then [] else [":undef"]
  | .caseF, _ :: cls => if cls.all s.isElse then [] else ["memv"]
  | _, _ => []

section

variable {R : Value → Value → Prop} {form head : Value} {xs : List Value} {d : Derived}
  {word : String}

/-- **An expander copies** all that is no word, no temporary and no variable of its
own. -/
theorem Indifferent.expandDerived (hR : Indifferent R) (hd : d.word? = some word)
    (htemp : KeepsTemporaries R word) (hst : Data.Related R s t) (hform : s.IsList form (head :: xs))
    (hown : ∀ g ∈ s.ownNames d xs, R (.sym g) (.sym g)) (fuel : ℕ) :
    Paired (Data.FailRelated R) (fun a s' b t' => R a b ∧ Data.Related R s' t')
      (expandDerived fuel form d s) (expandDerived fuel form d t) := by
  have hsame : R form form := by
    obtain ⟨a, rest, rfl, -⟩ := hform
    exact hR.atom rfl
  cases d with
  | orF =>
    obtain rfl := Option.some.inj hd
    exact hR.expandOr htemp hsame s t hst
  | condF =>
    obtain rfl := Option.some.inj hd
    refine hR.expandCond htemp hst hform fun hnone => hown _ ?_
    show _ ∈ if xs.any s.isElse = true then [] else [":undef"]
    rw [if_neg (Bool.eq_false_iff.mp hnone)]
    exact List.mem_singleton_self _
  | caseF =>
    obtain rfl := Option.some.inj hd
    refine hR.expandCase htemp hst hform fun cl hcl hother => hown _ ?_
    cases xs with
    | nil => cases hcl
    | cons key cls =>
      have hnotAll : ¬ cls.all s.isElse = true := fun hall =>
        Bool.eq_false_iff.mp hother (List.all_eq_true.mp hall cl hcl)
      show _ ∈ if cls.all s.isElse = true then [] else ["memv"]
      rw [if_neg hnotAll]
      exact List.mem_singleton_self _
  | doF =>
    obtain rfl := Option.some.inj hd
    exact hR.expandDo htemp hsame s t hst
  | _ => cases hd

/-- A symbol is in the text or in the data. -/
def Data.Spells (s : Data X) (z : String) : Prop := ∃ p ∈ s.pairs, p.1 = .sym z ∨ p.2 = .sym z

/-- A value, with none but some symbols. -/
def SpelledIn (names : Set String) (v v' : Value) : Prop := v' = v ∧ ∀ z, v = .sym z → z ∈ names

theorem indifferent_spelledIn {names : Set String} (h : ∀ z, ¬ LegalName z → z ∈ names) :
    Indifferent (SpelledIn names) where
  atom hv := ⟨rfl, fun z hz => by
    rw [hz] at hv
    cases hv⟩
  word hz := ⟨rfl, fun z' hz' => by
    obtain rfl := Value.sym.inj hz'
    exact h _ hz⟩
  same hv := .inl hv.1

theorem related_spelledIn {names : Set String} :
    Data.Related (SpelledIn names) s s ↔ ∀ z, s.Spells z → z ∈ names := by
  constructor
  · rintro h z ⟨p, hp, hz⟩
    have hpair : RelatedPairs (SpelledIn names) p p := List.forall₂_same.mp h.pairs p hp
    exact hz.elim (hpair.1.2 z) (hpair.2.2 z)
  · intro h
    refine ⟨List.forall₂_same.mpr fun p hp => ?_, rfl⟩
    exact ⟨⟨rfl, fun z hz => h z ⟨p, hp, .inl hz⟩⟩, ⟨rfl, fun z hz => h z ⟨p, hp, .inr hz⟩⟩⟩

/-- The names there may be in an expansion. -/
def Data.namesWith (s : Data X) (d : Derived) (word : String) (xs : List Value) : Set String :=
  {z | ¬ LegalName z ∨ s.Spells z ∨ (∃ n, z = temporary word n) ∨ z ∈ s.ownNames d xs}

/-- **The names of an expansion** are those of the program, and besides the words of
the compiler a temporary and the variables that it refers to by itself. -/
theorem names_of_expandDerived {fuel : ℕ} (hd : d.word? = some word)
    (hform : s.IsList form (head :: xs)) (h : expandDerived fuel form d s = (.ok v, s'))
    {z : String} (hz : LegalName z) (hspelled : v = .sym z ∨ s'.Spells z) :
    s.Spells z ∨ (∃ n, z = temporary word n) ∨ z ∈ s.ownNames d xs := by
  have hnames : Indifferent (SpelledIn (s.namesWith d word xs)) :=
    indifferent_spelledIn fun y hy => .inl hy
  have hspell : ∀ {y}, y ∈ s.namesWith d word xs →
      SpelledIn (s.namesWith d word xs) (.sym y) (.sym y) := fun hy =>
    ⟨rfl, fun y' heq => Value.sym.inj heq ▸ hy⟩
  have hends := hnames.expandDerived hd (fun n => hspell (.inr (.inr (.inl ⟨n, rfl⟩))))
    (related_spelledIn.mpr fun y hy => .inr (.inl hy)) hform
    (fun g hg => hspell (.inr (.inr (.inr hg)))) fuel
  rw [h] at hends
  cases hends with
  | ok hv =>
    have hmem : z ∈ s.namesWith d word xs :=
      hspelled.elim (hv.1.2 z) (related_spelledIn.mp hv.2 z)
    exact hmem.resolve_left (not_not.mpr hz)

end

/-! ## Renaming a variable -/

/-- **A variable gets another name.** -/
structure Renaming where
  old : String
  new : String
  old_legal : LegalName old
  new_legal : LegalName new

namespace Renaming

variable (ρ : Renaming)

/-- **An occurrence**: what it was, or the new name where the old one was. -/
def Occurrence (v v' : Value) : Prop := v' = v ∨ v = .sym ρ.old ∧ v' = .sym ρ.new

theorem indifferent : Indifferent ρ.Occurrence where
  atom _ := .inl rfl
  word _ := .inl rfl
  same := by
    rintro v v' (rfl | ⟨rfl, rfl⟩)
    · exact .inl rfl
    · exact .inr ⟨ρ.old, ρ.new, rfl, rfl, ρ.old_legal, ρ.new_legal⟩

/-- The program with the new name, at the occurrences of the variable; those in data
may stay. -/
def Programs (s t : Data X) : Prop := Data.Related ρ.Occurrence s t

/-- What a name is called afterwards. -/
def name (z : String) : String := if z = ρ.old then ρ.new else z

/-- A scope, with the new name. -/
def scope (env : CompileEnv) : CompileEnv := env.map (List.map ρ.name)

end Renaming

/-- The scope of a part of an expansion: that of the form, and some temporaries. -/
def scopeIn (us : List String) (env : CompileEnv) : CompileEnv := us.map ([·]) ++ env

/-- **Nothing is captured**: the names are no identifiers of the program, and
in their scope each of those refers to what it refers to around it. -/
def NoCapture (ids : Set String) (ts : List String) : Prop :=
  ∀ t ∈ ts, t ∉ ids ∧ ∀ x ∈ ids, ∀ env : CompileEnv,
    locationOf x ([t] :: env) = (locationOf x env).map fun p => (p.1 + 1, p.2)

/-- **The renaming changes nothing** in the scopes of an expansion, whatever of the
program is bound around the form: an identifier is found, by the name it now has, where
it was before; so is each variable that the expansion refers to by itself. -/
structure Renaming.KeepsPlaces (ρ : Renaming) (ids : Set String) (ts gs : List String) : Prop where
  users : ∀ us, us ⊆ ts → ∀ env : CompileEnv, (∀ z ∈ env.flatten, z ∈ ids) → ∀ z ∈ ids,
    locationOf (ρ.name z) (scopeIn us (ρ.scope env)) = locationOf z (scopeIn us env)
  own : ∀ us, us ⊆ ts → ∀ env : CompileEnv, (∀ z ∈ env.flatten, z ∈ ids) → ∀ g, g ∈ us ∨ g ∈ gs →
    locationOf g (scopeIn us (ρ.scope env)) = locationOf g (scopeIn us env)

/-! ### Where a name is found -/

theorem noCapture_iff {ids : Set String} {ts : List String} :
    NoCapture ids ts ↔ ∀ t ∈ ts, t ∉ ids := by
  refine ⟨fun h t ht => (h t ht).1, fun h t ht => ⟨h t ht, fun x hx env => ?_⟩⟩
  have hne : x ≠ t := by
    rintro rfl
    exact h x ht hx
  rw [locationOf_singleton, if_neg hne]

/-- A name that is none of the temporaries is found behind them. -/
theorem locationOf_scopeIn {z : String} {us : List String} (hz : z ∉ us) (env : CompileEnv) :
    locationOf z (scopeIn us env) = (locationOf z env).map fun p => (p.1 + us.length, p.2) := by
  induction us with
  | nil =>
    show locationOf z env = _
    cases locationOf z env <;> rfl
  | cons u us ih =>
    obtain ⟨hne, hz⟩ := not_or.mp fun h => hz (List.mem_cons.mpr h)
    show locationOf z ([u] :: scopeIn us env) = _
    rw [locationOf_singleton, if_neg hne, ih hz, Option.map_map]
    rfl

/-- A temporary is found among them. -/
theorem locationOf_temporary {z : String} {us : List String} (hz : z ∈ us)
    (env env' : CompileEnv) : locationOf z (scopeIn us env) = locationOf z (scopeIn us env') := by
  induction us with
  | nil => cases hz
  | cons u us ih =>
    show locationOf z ([u] :: scopeIn us env) = locationOf z ([u] :: scopeIn us env')
    rw [locationOf_singleton, locationOf_singleton]
    by_cases hne : z = u
    · rw [if_pos hne, if_pos hne]
    · rw [if_neg hne, if_neg hne, ih ((List.mem_cons.mp hz).resolve_left hne)]

namespace Renaming

variable {ρ : Renaming} {ids : Set String} {ts gs : List String}

theorem name_old (ρ : Renaming) : ρ.name ρ.old = ρ.new := if_pos rfl

theorem name_of_ne {z : String} (hz : z ≠ ρ.old) : ρ.name z = z := if_neg hz

/-- The new name is no other name's. -/
theorem name_injOn (hnew : ρ.new ∉ ids) : Set.InjOn ρ.name ids := by
  intro y hy z hz heq
  unfold name at heq
  split at heq <;> split at heq
  · exact ‹y = ρ.old›.trans ‹z = ρ.old›.symm
  · exact absurd (heq ▸ hz) hnew
  · exact absurd (heq ▸ hy) hnew
  · exact heq

theorem findIdx?_congr {α : Type} {p q : α → Bool} {l : List α} (h : ∀ a ∈ l, p a = q a) :
    l.findIdx? p = l.findIdx? q := by
  induction l with
  | nil => rfl
  | cons a l ih =>
    rw [List.findIdx?_cons, List.findIdx?_cons, h a List.mem_cons_self,
      ih fun b hb => h b (List.mem_cons_of_mem a hb)]

/-- A name whose new name is no other's is found in the same place. -/
theorem locationOf_scope {z : String} {env : CompileEnv}
    (h : ∀ y ∈ env.flatten, ρ.name y = ρ.name z → y = z) :
    locationOf (ρ.name z) (ρ.scope env) = locationOf z env := by
  induction env with
  | nil => rfl
  | cons frame env ih =>
    have hframe : (frame.map ρ.name).findIdx? (· == ρ.name z) = frame.findIdx? (· == z) := by
      rw [List.findIdx?_map]
      refine findIdx?_congr fun y hy => ?_
      have hiff : ρ.name y = ρ.name z ↔ y = z :=
        ⟨h y (List.mem_append_left _ hy), congrArg ρ.name⟩
      exact Bool.eq_iff_iff.mpr (beq_iff_eq.trans (hiff.trans beq_iff_eq.symm))
    show locationOf (ρ.name z) (frame.map ρ.name :: ρ.scope env) = _
    rw [locationOf, locationOf, hframe, ih fun y hy => h y (List.mem_append_right _ hy)]

/-- A variable alone in its scope. -/
theorem locationOf_alone (x : String) : locationOf x [[x]] = some (0, 0) := by
  rw [locationOf_singleton, if_pos rfl]

theorem locationOf_other {x y : String} (h : y ≠ x) : locationOf y [[x]] = none := by
  rw [locationOf_singleton, if_neg h]
  rfl

/-- **The renaming changes nothing** exactly if the new name is none of the temporaries
and the expansion does not refer to the variable by itself, by either name. -/
theorem keepsPlaces_iff (hfresh : ∀ t ∈ ts, t ∉ ids) (hold : ρ.old ∈ ids) (hnew : ρ.new ∉ ids) :
    ρ.KeepsPlaces ids ts gs ↔ ρ.new ∉ ts ∧ ρ.old ∉ gs ∧ ρ.new ∉ gs := by
  have hne : ρ.old ≠ ρ.new := fun heq => hnew (heq ▸ hold)
  -- the variable is the only one around the form
  have halone : ∀ z ∈ [[ρ.old]].flatten, z ∈ ids := by
    intro z hz
    obtain rfl := List.mem_singleton.mp hz
    exact hold
  have hscope : ρ.scope [[ρ.old]] = [[ρ.new]] := by
    show [[ρ.name ρ.old]] = _
    rw [name_old]
  constructor
  · intro h
    refine ⟨fun ht => ?_, fun hg => ?_, fun hg => ?_⟩
    · have hsub : [ρ.new] ⊆ ts := List.cons_subset.mpr ⟨ht, List.nil_subset _⟩
      have hplace := h.users [ρ.new] hsub [[ρ.old]] halone ρ.old hold
      have hcaptured : locationOf ρ.new ([ρ.new] :: ρ.scope [[ρ.old]]) = some (0, 0) := by
        rw [locationOf_singleton, if_pos rfl]
      have hbehind : locationOf ρ.old ([ρ.new] :: [[ρ.old]]) = some (1, 0) := by
        rw [locationOf_singleton, if_neg hne, locationOf_alone]
        rfl
      rw [name_old] at hplace
      cases hcaptured.symm.trans (hplace.trans hbehind)
    · have hplace := h.own [] (List.nil_subset _) [[ρ.old]] halone ρ.old (.inr hg)
      rw [hscope] at hplace
      cases (locationOf_other hne).symm.trans (hplace.trans (locationOf_alone ρ.old))
    · have hplace := h.own [] (List.nil_subset _) [[ρ.old]] halone ρ.new (.inr hg)
      rw [hscope] at hplace
      cases (locationOf_alone ρ.new).symm.trans (hplace.trans (locationOf_other hne.symm))
  · rintro ⟨hts, hgs, hgs'⟩
    have hinj := name_injOn hnew
    refine ⟨fun us hus env henv z hz => ?_, fun us hus env henv g hg => ?_⟩
    · have hz' : z ∉ us := fun h => hfresh z (hus h) hz
      have hname : ρ.name z ∉ us := by
        intro hmem
        unfold name at hmem
        split at hmem
        · exact hts (hus hmem)
        · exact hz' hmem
      rw [locationOf_scopeIn hname, locationOf_scopeIn hz',
        locationOf_scope fun y hy => hinj (henv y hy) hz]
    · by_cases hmem : g ∈ us
      · exact locationOf_temporary hmem _ _
      have hg := hg.resolve_left hmem
      have hgold : g ≠ ρ.old := fun heq => hgs (heq ▸ hg)
      have hgnew : g ≠ ρ.new := fun heq => hgs' (heq ▸ hg)
      have hplace : locationOf (ρ.name g) (ρ.scope env) = locationOf g env := by
        refine locationOf_scope fun y _ heq => ?_
        rw [name_of_ne hgold] at heq
        unfold name at heq
        split at heq
        · exact absurd heq.symm hgnew
        · exact heq
      rw [name_of_ne hgold] at hplace
      rw [locationOf_scopeIn hmem, locationOf_scopeIn hmem, hplace]

end Renaming

/-! ## When nothing is captured -/

/-- The names that are bound, and the counter afterwards. -/
theorem temporaries_of_expandDerived {fuel : ℕ} {form head v : Value} {xs : List Value}
    {d : Derived} {word : String} (hd : d.word? = some word)
    (hform : s.IsList form (head :: xs)) (h : expandDerived fuel form d s = (.ok v, s')) :
    s'.Temporaries d v (temporaries word s.gensymCounter (s.needed d xs)) ∧
      s'.gensymCounter = s.gensymCounter + s.needed d xs := by
  cases d with
  | orF =>
    obtain rfl := Option.some.inj hd
    obtain ⟨v', last, s₁, hrun, hs, hnested⟩ := expandOr_spec hform
    obtain ⟨hv, rfl⟩ := Prod.mk.inj (hrun.symm.trans h)
    obtain rfl := Except.ok.inj hv
    exact ⟨⟨last, hnested⟩, hs.counter⟩
  | condF =>
    obtain rfl := Option.some.inj hd
    obtain ⟨last, hs, hnested⟩ := expandCond_eq_ok hform h
    exact ⟨⟨last, hnested⟩, hs.counter⟩
  | caseF =>
    obtain rfl := Option.some.inj hd
    obtain ⟨hs, hbinds⟩ := expandCase_eq_ok h
    exact ⟨⟨_, rfl, hbinds⟩, hs.counter⟩
  | doF =>
    obtain rfl := Option.some.inj hd
    obtain ⟨hs, hbinds⟩ := expandDo_eq_ok h
    exact ⟨⟨_, rfl, hbinds⟩, hs.counter⟩
  | _ => cases hd

/-- The pairs of `((lambda (x) (or #f x)) 5)`, which is the last one, with any
name for the variable; pair 2 is the `or`. -/
def orNamed (x : String) : List (Value × Value) :=
  [(.sym x, .nil), (.bool false, .pair 0), (.sym "or", .pair 1), (.sym x, .nil),
    (.pair 2, .nil), (.pair 3, .pair 4), (.sym "lambda", .pair 5), (.int 5, .nil),
    (.pair 6, .pair 7)]

/-- After the library has been loaded, whose forms have taken five temporaries. -/
def orWorld (x : String) : World Unit :=
  (pairsWorld (orNamed x)).withData ((pairsWorld (orNamed x)).data.count 5)

/-- The variable `x` is called `z`. -/
def renamingX : Renaming := ⟨"x", "z", by decide, by decide⟩

end Scheme14
