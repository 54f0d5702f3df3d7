import SecdScheme.Scheme14.Accessors

/-!
# scheme14: the expanders that report all that is wrong

`letrec`, `and`, `or`, `cond`, `case` and the quasiquote look at a value before
they take it apart, so that whatever is wrong with a form is an error of that
form. What is read again after something has been made is still there.
-/

namespace Scheme14

open Cmd (Errs)

variable {X α : Type} {s s' : Data X} {who : String} {E : Err → Prop}

/-! ## Checks that end the expansion -/

/-- What comes after a failed check is never reached. -/
theorem errs_syntaxError_bind (what : Message) {β : Type} (f : α → DataM X β) :
    Errs (Err.ReportedBy who) ((syntaxError who what : DataM X α) >>= f) s :=
  (errs_syntaxError what).bind fun _ _ h => nomatch h

theorem errs_makeGensym (pre : String) : Errs E (makeGensym pre : DataM X _) s := .of_ok rfl

/-- What is made of a list that is read. -/
theorem errs_makeBeginForm_bind {ls : Value} {f : Value → DataM X α}
    (h : ∀ v s', Errs (Err.ReportedBy who) (f v) s') :
    Errs (Err.ReportedBy who) (listToVector ls who >>= fun forms => makeBeginForm forms >>= f) s :=
  errs_listToVector_bind fun forms _ => (errs_makeBeginForm forms).bind fun v s' _ => h v s'

/-- Whether a value is a list of one element: only what is a pair can be. -/
theorem errs_alone_bind {v : Value} {f : Bool → DataM X α}
    (h : ∀ b : Bool, (b = true → isPair v = true) → Errs E (f b) s) :
    Errs E (if isPair v = true then (do return (← cdr v) == .nil) >>= f else pure false >>= f) s := by
  by_cases hv : isPair v = true
  · rw [if_pos hv]
    obtain ⟨a, rfl⟩ := exists_pair hv
    exact h ((s.pairOf a).2 == .nil) fun _ => rfl
  · rw [if_neg hv]
    exact h false fun hb => nomatch hb

/-! ## letrec -/

/-- The lists that are made of checked bindings, one for each. -/
theorem errs_mapBound {bs : List Value} {g : Value → DataM X Value}
    (h : ∀ one ∈ bs, ∀ s', s.Grows s' → s'.Bound one →
      ∃ v s'', g one s' = (.ok v, s'') ∧ s'.Grows s'')
    (hbs : ∀ one ∈ bs, s.Bound one) : Errs E (Cmd.mapList g bs) s := by
  refine .mapList (I := s.Grows) (fun one hone s' hs' => ?_) (fun one hone s' v s'' hs' hrun => ?_)
    (.refl s)
  · obtain ⟨v, s'', hv, -⟩ := h one hone s' hs' (hs'.bound (hbs one hone))
    exact .of_ok hv
  · obtain ⟨v', s₁, hv', hs₁⟩ := h one hone s' hs' (hs'.bound (hbs one hone))
    obtain ⟨-, rfl⟩ := Prod.mk.inj (hrun.symm.trans hv')
    exact hs'.trans hs₁

theorem grows_of_mapBound {bs vs : List Value} {g : Value → DataM X Value}
    (h : ∀ one ∈ bs, ∀ s', s.Grows s' → s'.Bound one →
      ∃ v s'', g one s' = (.ok v, s'') ∧ s'.Grows s'')
    (hbs : ∀ one ∈ bs, s.Bound one) (hrun : Cmd.mapList g bs s = (.ok vs, s')) : s.Grows s' := by
  induction bs generalizing s vs with
  | nil =>
    obtain ⟨-, rfl⟩ := Cmd.eq_of_pure_ok hrun
    exact .refl s
  | cons b bs ih =>
    obtain ⟨v, s₁, hv, hrun⟩ := Cmd.exists_of_bind_ok hrun
    obtain ⟨vs', s₂, hvs, hrun⟩ := Cmd.exists_of_bind_ok hrun
    obtain ⟨-, rfl⟩ := Cmd.eq_of_pure_ok hrun
    obtain ⟨v', s₁', hv', hgrows⟩ := h b List.mem_cons_self s (.refl s) (hbs b List.mem_cons_self)
    obtain ⟨-, rfl⟩ := Prod.mk.inj (hv.symm.trans hv')
    refine hgrows.trans (ih (fun one hone s' hs' => ?_) (fun one hone => ?_) hvs)
    · exact h one (List.mem_cons_of_mem b hone) s' (hgrows.trans hs')
    · exact hgrows.bound (hbs one (List.mem_cons_of_mem b hone))

/-- A binding to `:undef`, and an assignment, of a checked binding. -/
theorem letrecPart_spec {one : Value} (h : s.Bound one) :
    (∃ v s', (do listFrom [← car one, .sym ":undef"] : DataM X _) s = (.ok v, s') ∧ s.Grows s') ∧
      ∃ v s', (do listFrom [.sym "set!", ← car one, ← car (← cdr one)] : DataM X _) s =
        (.ok v, s') ∧ s.Grows s' := by
  obtain ⟨a, x, c, rfl, hp⟩ := h
  constructor
  · obtain ⟨v, s', hv, hs', -⟩ := listFrom_spec [.sym x, .sym ":undef"] s
    refine ⟨v, s', ?_, hs'.grows⟩
    rw [Cmd.bind_run_ok (car_pair hp), hv]
  · obtain ⟨v, s', hv, hs', -⟩ := listFrom_spec [.sym "set!", .sym x, (s.pairOf c).1] s
    refine ⟨v, s', ?_, hs'.grows⟩
    rw [Cmd.bind_run_ok (car_pair hp), Cmd.bind_run_ok (cdr_pair hp),
      Cmd.bind_run_ok (car_run c s), hv]

theorem errs_expandLetrec {form : Value} (hform : isPair form = true) :
    Errs (Err.ReportedBy "letrec") (expandLetrec form : DataM X _) s := by
  obtain ⟨a, rfl⟩ := exists_pair hform
  unfold expandLetrec
  refine .bind_ok (cdr_run a s) (errs_checkArity_bind fun x d xs hcar hcdr hd _ => ?_)
  refine .bind_ok hcar (.bind_ok hcdr (errs_checkBindings_bind fun hbound => ?_))
  refine errs_listToVector_bind fun bs hbs => ?_
  have hbs' := hbound bs hbs
  refine (errs_mapBound (fun one _ s' _ h => (letrecPart_spec h).1) hbs').bind fun _ s₁ h₁ => ?_
  have hgrows := grows_of_mapBound (fun one _ s' _ h => (letrecPart_spec h).1) hbs' h₁
  refine (errs_mapBound (fun one _ s' _ h => (letrecPart_spec h).2)
    fun one hone => hgrows.bound (hbs' one hone)).bind fun _ s₂ _ => ?_
  refine errs_listToVector_bind fun body _ => errs_listFrom_bind fun _ _ _ => ?_
  exact (errs_makeBeginForm _).bind fun _ _ _ => errs_listFrom _

/-! ## and, or -/

theorem errs_andForms : ∀ (xs : List Value) (last : Value) (s : Data X),
    Errs E (andForms xs last) s
  | [], _, _ => .pure
  | _ :: xs, last, s => (errs_andForms xs last s).bind fun _ _ _ => errs_listFrom _

theorem errs_expandAnd {form : Value} (hform : isPair form = true) :
    Errs (Err.ReportedBy "and") (expandAnd form : DataM X _) s := by
  obtain ⟨a, rfl⟩ := exists_pair hform
  unfold expandAnd
  refine .bind_ok (cdr_run a s) (errs_listToVector_bind fun xs _ => ?_)
  split
  · exact .pure
  · exact errs_andForms _ _ _

theorem errs_orForms : ∀ (xs : List (Value × Value)) (last : Value) (s : Data X),
    Errs E (orForms xs last) s
  | [], _, _ => .pure
  | (_, _) :: xs, last, s => (errs_orForms xs last s).bind fun _ _ _ =>
    errs_listFrom_bind fun _ _ _ => errs_listFrom_bind fun _ _ _ =>
      errs_listFrom_bind fun _ _ _ => errs_listFrom _

theorem errs_expandOr {form : Value} (hform : isPair form = true) :
    Errs (Err.ReportedBy "or") (expandOr form : DataM X _) s := by
  obtain ⟨a, rfl⟩ := exists_pair hform
  unfold expandOr
  refine .bind_ok (cdr_run a s) (errs_listToVector_bind fun xs _ => ?_)
  split
  · exact .pure
  · refine Errs.bind (.mapList (I := fun _ => True) (fun _ _ _ _ => ?_) (fun _ _ _ _ _ _ _ => trivial)
      trivial) fun temps _ _ => errs_orForms _ _ _
    exact (errs_makeGensym _).bind fun _ _ _ => .pure

/-! ## cond, case -/

theorem errs_condClause (cl : Value) :
    Errs (Err.ReportedBy "cond") (condClause cl : DataM X _) s := by
  unfold condClause
  dsimp only
  refine .ite (fun _ => errs_syntaxError_bind _ _) fun hcl => ?_
  obtain ⟨a, rfl⟩ := exists_pair_of_not hcl
  refine .bind_ok (asPair_run a s) ?_
  refine .ite (fun _ => .pure) fun _ => .ite (fun _ => ?_) fun _ =>
    .ite (fun _ => .pure) fun hbody => ?_
  · exact (errs_makeGensym _).bind fun _ _ _ => .pure
  obtain ⟨b, hb⟩ := exists_pair_of_not hbody
  rw [hb]
  refine .bind_ok (car_run b s) (.ite (fun _ => .pure) fun _ => .bind_ok (cdr_run b s) ?_)
  refine errs_alone_bind fun alone halone => ?_
  refine .ite (fun _ => errs_syntaxError_bind _ _) fun h => ?_
  obtain ⟨c, hc⟩ := exists_pair (halone (by simpa using h))
  rw [hc]
  exact .bind_ok (car_run c s) ((errs_makeGensym _).bind fun _ _ _ => .pure)

theorem errs_condClauses (clauses : Value) : ∀ (fuel : ℕ) (cur : Value) (s : Data X),
    Errs (Err.ReportedBy "cond") (condClauses clauses fuel cur : DataM X _) s
  | 0, _, _ => errs_outOfFuel
  | fuel + 1, cur, s => by
    unfold condClauses
    dsimp only
    refine .ite (fun _ => .pure) fun _ => .ite (fun _ => errs_syntaxError_bind _ _) fun hcur => ?_
    obtain ⟨a, rfl⟩ := exists_pair_of_not hcur
    refine .bind_ok (asPair_run a s) ((errs_condClause _).bind fun c s₁ _ => ?_)
    refine .ite (fun _ => .pure) fun _ => ?_
    exact (errs_condClauses clauses fuel _ s₁).bind fun _ _ _ => .pure

theorem errs_condForms : ∀ (cs : List CondClause) (s : Data X),
    Errs (Err.ReportedBy "cond") (condForms cs : DataM X _) s
  | [], _ => .pure
  | c :: cs, s => by
    unfold condForms
    refine (errs_condForms cs s).bind fun out s₁ _ => .ite (fun _ => ?_) fun _ => ?_
    · exact errs_listToVector_bind fun _ _ => errs_makeBeginForm _
    split
    · split
      · refine errs_listFrom_bind fun _ _ _ => errs_listFrom_bind fun _ _ _ => ?_
        exact errs_listFrom_bind fun _ _ _ => errs_listFrom_bind fun _ _ _ => errs_listFrom _
      · refine .bind_ok rfl (errs_listFrom_bind fun _ _ _ => errs_listFrom_bind fun _ _ _ => ?_)
        exact errs_listFrom_bind fun _ _ _ => errs_listFrom _
    · exact errs_makeBeginForm_bind fun _ _ => errs_listFrom _

theorem errs_expandCond {form : Value} (hform : isPair form = true) :
    Errs (Err.ReportedBy "cond") (expandCond form : DataM X _) s := by
  obtain ⟨a, rfl⟩ := exists_pair hform
  unfold expandCond
  refine .bind_ok (cdr_run a s) (.bind_ok rfl ((errs_condClauses _ _ _ _).bind fun cs _ _ => ?_))
  exact errs_condForms cs _

theorem errs_caseClause (t cl : Value) :
    Errs (Err.ReportedBy "case") (caseClause t cl : DataM X _) s := by
  unfold caseClause
  dsimp only
  refine .ite (fun _ => errs_syntaxError_bind _ _) fun hcl => ?_
  obtain ⟨a, rfl⟩ := exists_pair_of_not hcl
  refine .bind_ok (asPair_run a s) (.ite (fun _ => ?_) fun _ => ?_)
  · exact .bind_ok rfl (errs_listToVector_bind fun _ _ => errs_listFrom _)
  · refine (errs_listFrom_bind fun _ _ _ => errs_listFrom _).bind fun _ _ _ => ?_
    exact errs_listToVector_bind fun _ _ => errs_listFrom _

theorem errs_caseClauses (t clauses : Value) : ∀ (fuel : ℕ) (cur : Value) (s : Data X),
    Errs (Err.ReportedBy "case") (caseClauses t clauses fuel cur : DataM X _) s
  | 0, _, _ => errs_outOfFuel
  | fuel + 1, cur, s => by
    unfold caseClauses
    dsimp only
    refine .ite (fun _ => .pure) fun _ => .ite (fun _ => errs_syntaxError_bind _ _) fun hcur => ?_
    obtain ⟨a, rfl⟩ := exists_pair_of_not hcur
    refine .bind_ok (asPair_run a s) ((errs_caseClause t _).bind fun c s₁ _ => ?_)
    exact (errs_caseClauses t clauses fuel _ s₁).bind fun _ _ _ => .pure

theorem errs_expandCase {form : Value} (hform : isPair form = true) :
    Errs (Err.ReportedBy "case") (expandCase form : DataM X _) s := by
  obtain ⟨a, rfl⟩ := exists_pair hform
  unfold expandCase
  refine .bind_ok (cdr_run a s) (errs_checkArity_bind fun x d xs hcar hcdr hd _ => ?_)
  refine .bind_ok hcar (.bind_ok hcdr ((errs_makeGensym _).bind fun t _ _ => .bind_ok rfl ?_))
  refine (errs_caseClauses t _ _ _ _).bind fun _ _ _ => errs_listFrom_bind fun _ _ _ => ?_
  refine errs_listFrom_bind fun _ _ _ => errs_listFrom_bind fun _ _ _ => ?_
  exact (errs_makePair _ _).bind fun _ _ _ => errs_listFrom _

/-! ## Quasiquote -/

theorem errs_badQuasiquote (what : Message) : Errs (Err.ReportedBy "quasiquote")
    (errorAt (.behind "bad syntax in quasiquote\n  " what) : DataM X α) s :=
  .fail (Err.reportedBy_badSyntax "\n  " what)

theorem reads_qqTakeForm (cur : Value) : Cmd.Reads (qqTakeForm cur : DataM X _) := by
  unfold qqTakeForm
  dsimp only
  refine .ite .pure ((reads_asPair _).bind fun p => ?_)
  split
  · exact .pure
  · refine .ite (((reads_cdr _).bind fun _ => .pure).bind fun alone => ?_)
      (Cmd.Reads.pure.bind fun alone => ?_) <;>
      exact .ite (Cmd.Reads.fail.bind fun _ => (reads_car _).bind fun _ => .pure)
        ((reads_car _).bind fun _ => .pure)

theorem errs_qqTakeForm (cur : Value) :
    Errs (Err.ReportedBy "quasiquote") (qqTakeForm cur : DataM X _) s := by
  unfold qqTakeForm
  dsimp only
  refine .ite (fun _ => .pure) fun hcur => ?_
  obtain ⟨a, rfl⟩ := exists_pair_of_not hcur
  refine .bind_ok (asPair_run a s) ?_
  split
  · exact .pure
  refine errs_alone_bind fun alone halone => ?_
  refine .ite (fun _ => (errs_badQuasiquote _).bind fun _ _ h => nomatch h) fun h => ?_
  obtain ⟨c, hc⟩ := exists_pair (halone (by simpa using h))
  rw [hc]
  exact .bind_ok (car_run c s) .pure

theorem errs_qqWrap (name : String) (v : Value) : Errs E (qqWrap name v : DataM X _) s :=
  errs_listFrom_bind fun _ _ _ => errs_listFrom_bind fun _ _ _ =>
    errs_listFrom_bind fun _ _ _ => errs_listFrom _

theorem errs_qqSteps : ∀ (steps : List (Bool × Value)) (tail : Value) (s : Data X),
    Errs E (qqSteps steps tail) s
  | [], _, _ => .pure
  | (_, _) :: steps, tail, s => (errs_qqSteps steps tail s).bind fun _ _ _ => errs_listFrom _

/-- **The quasiquote**, by recursion on the fuel of its three functions. -/
theorem errs_quasiquote (X : Type) : ∀ (fuel : ℕ),
    (∀ (kind : QqKind) (arg : Value) (depth : ℕ) (s : Data X),
      Errs (Err.ReportedBy "quasiquote") (qqFormCode fuel kind arg depth) s) ∧
    (∀ (x : Value) (depth : ℕ) (s : Data X),
      Errs (Err.ReportedBy "quasiquote") (qqTransfer fuel x depth) s) ∧
    ∀ (cur : Value) (depth : ℕ) (s : Data X),
      Errs (Err.ReportedBy "quasiquote") (qqList fuel cur depth) s
  | 0 => by
    refine ⟨fun kind arg depth s => ?_, fun x depth s => ?_, fun cur depth s => ?_⟩
    · unfold qqFormCode
      exact errs_outOfFuel
    · unfold qqTransfer
      exact errs_outOfFuel
    · unfold qqList
      exact errs_outOfFuel
  | fuel + 1 => by
    obtain ⟨hform, htransfer, hlist⟩ := errs_quasiquote X fuel
    refine ⟨fun kind arg depth s => ?_, fun x depth s => ?_, fun cur depth s => ?_⟩
    · cases kind with
      | quasiquote =>
        unfold qqFormCode
        exact (htransfer _ _ _).bind fun _ _ _ => errs_qqWrap _ _
      | _ =>
        unfold qqFormCode
        exact .ite (fun _ => .pure) fun _ => (htransfer _ _ _).bind fun _ _ _ => errs_qqWrap _ _
    · unfold qqTransfer
      split
      · exact (hlist _ _ _).bind fun _ _ _ => errs_qqSteps _ _ _
      · refine .bind_ok rfl (errs_listFrom_bind fun _ _ _ => (htransfer _ _ _).bind fun _ _ _ => ?_)
        exact errs_listFrom _
      · exact errs_listFrom _
    · unfold qqList
      dsimp only
      refine .ite (fun _ => (htransfer _ _ _).bind fun _ _ _ => .pure) fun hcur => ?_
      obtain ⟨a, rfl⟩ := exists_pair_of_not hcur
      refine .bind_reads (reads_qqTakeForm _) (errs_qqTakeForm _) fun r _ => ?_
      split
      · refine .ite (fun _ => (errs_badQuasiquote _).bind fun _ _ h => nomatch h) fun _ => ?_
        exact (hform _ _ _ _).bind fun _ _ _ => .pure
      · refine .bind_ok (asPair_run a s) (.bind_reads (reads_qqTakeForm _) (errs_qqTakeForm _)
          fun r _ => ?_)
        split
        · refine .ite (fun _ => ?_) fun _ => ?_
          · exact .bind_ok rfl ((hlist _ _ _).bind fun _ _ _ => .pure)
          · exact ((hform _ _ _ _).bind fun _ _ _ => .pure).bind fun _ _ _ =>
              (hlist _ _ _).bind fun _ _ _ => .pure
        · refine .ite (fun _ => ?_) fun _ => ?_
          · exact ((htransfer _ _ _).bind fun _ _ _ => .pure).bind fun _ _ _ =>
              (hlist _ _ _).bind fun _ _ _ => .pure
          · exact (errs_listFrom_bind fun _ _ _ => .pure).bind fun _ _ _ =>
              (hlist _ _ _).bind fun _ _ _ => .pure

end Scheme14
