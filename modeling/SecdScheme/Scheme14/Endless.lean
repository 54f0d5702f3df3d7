import SecdScheme.Scheme14.ListWalks
import SecdScheme.Scheme14.Mistakes
import SecdScheme.Scheme14.Temporaries

/-!
# scheme14: expansion on circular forms

The walks with two pointers come to an end on every list. The plain loops,
along the bindings of a form, the clauses of `cond` and the parameters of a
procedure, do not where the list is circular and all of its elements pass.
Such a loop runs here on fuel for as many turns as there are pairs and one
more, so it is out of fuel exactly where the program's loop has no end.
-/

namespace Scheme14

open Cmd (Errs)
open FiniteOrbit

variable {X α β : Type} {s s' : Data X}

/-! ## Lists without an end -/

/-- **A list without an end**, all of whose elements pass: each of its cells is
followed by another one. -/
def Data.Endless (s : Data X) (Passes : Value → Prop) (v : Value) : Prop :=
  ∀ n, isPair (s.next^[n] v) = true ∧ Passes (s.head (s.next^[n] v))

/-- **As many cells as there are pairs, and one more**, are a list without an
end. -/
theorem endless_of_le {Passes : Value → Prop} (hnil : ¬ Passes .nil) {v : Value}
    (h : ∀ n ≤ s.pairs.length, isPair (s.next^[n] v) = true ∧ Passes (s.head (s.next^[n] v))) :
    s.Endless Passes v := by
  have hcells : ∀ n ≤ s.pairs.length, s.next^[n] v ∈ s.cells := fun n hn =>
    mem_cells_of_head fun hhead => hnil (hhead ▸ (h n hn).2)
  intro n
  obtain ⟨m, hm, heq⟩ := exists_iterate_le (card_cells s) hcells n
  rw [heq]
  exact h m hm

/-! ## Commands that come to an end -/

/-- **The command comes to an end**: it returns, or fails, but not for want of
fuel. -/
abbrev Halts (m : DataM X α) (s : Data X) : Prop := Errs (· ≠ .outOfFuel) m s

theorem halts_errorAt (message : Message) : Halts (errorAt message : DataM X α) s := .fail nofun

theorem halts_syntaxError (form : String) (what : Message) :
    Halts (syntaxError form what : DataM X α) s :=
  .fail nofun

theorem halts_asPair (v : Value) : Halts (asPair v : DataM X _) s := by
  cases v with
  | pair a => exact .of_ok (asPair_run a s)
  | _ => exact fun e s' h => (Except.error.inj (Prod.mk.inj h).1) ▸ nofun

theorem halts_car (v : Value) : Halts (car v : DataM X _) s :=
  (halts_asPair v).bind fun _ _ _ => .pure

theorem halts_cdr (v : Value) : Halts (cdr v : DataM X _) s :=
  (halts_asPair v).bind fun _ _ _ => .pure

/-- A temporary is made in one step. -/
theorem halts_makeGensym (pre : String) : Halts (makeGensym pre : DataM X _) s :=
  .of_ok rfl

/-- A command for each element of a list. -/
theorem halts_mapList {f : α → DataM X β} (h : ∀ a s, Halts (f a) s) (as : List α) :
    Halts (Cmd.mapList f as) s :=
  .mapList (I := fun _ => True) (fun a _ s _ => h a s) (fun _ _ _ _ _ _ _ => trivial) trivial

/-! ## Two pointers -/

/-- **The walk comes to an end** on every list. -/
theorem halts_walkList (ls : Value) : Halts (walkList ls : DataM X _) s := by
  rcases walkList_cases s ls with ⟨xs, tail, -, -, hwalk⟩ | ⟨-, hwalk⟩
  · exact .of_ok hwalk
  · exact .of_ok hwalk

/-- **Floyd's walk ends**, also on a list that goes round. -/
theorem halts_formArity (rest : Value) : Halts (formArity rest : DataM X _) s := by
  refine (halts_walkList rest).bind fun r _ _ => ?_
  split <;> exact .pure

/-- So does the check of an arity. -/
theorem halts_checkArity (form : String) (rest : Value) (minArgs maxArgs : ℕ) :
    Halts (checkArity form rest minArgs maxArgs : DataM X _) s := by
  refine (halts_formArity rest).bind fun r _ _ => ?_
  split
  · exact halts_syntaxError _ _
  · exact .ite (fun _ => halts_syntaxError _ _) fun _ => .pure

/-- So does the copy into a vector, which walks first. -/
theorem halts_listToVector (ls : Value) (who : String) :
    Halts (listToVector ls who : DataM X _) s := by
  refine (halts_walkList ls).bind fun r _ _ => ?_
  split
  · exact halts_errorAt _
  · exact .pure
  · exact halts_errorAt _

/-! ## The plain loops -/

section Loops

variable {who : String}

/-- **A loop along a list**, that stops where an element does not pass, runs out
of fuel where there are as many cells that pass. -/
theorem forall_cells_iff (Passes : Value → Prop) (Like : Data X → Prop)
    (Out : ℕ → Value → Data X → Prop) (hzero : ∀ v s₁, Out 0 v s₁)
    (hstep : ∀ n v s₁, Like s₁ → ∃ s₂, Like s₂ ∧
      (Out (n + 1) v s₁ ↔ (isPair v = true ∧ Passes (s.head v)) ∧ Out n (s.next v) s₂)) :
    ∀ n v s₁, Like s₁ → (Out n v s₁ ↔ ∀ k < n,
      isPair (s.next^[k] v) = true ∧ Passes (s.head (s.next^[k] v)))
  | 0, v, s₁, _ => iff_of_true (hzero v s₁) fun k hk => absurd hk (Nat.not_lt_zero k)
  | n + 1, v, s₁, hlike => by
    obtain ⟨s₂, hlike₂, hiff⟩ := hstep n v s₁ hlike
    rw [hiff, forall_cells_iff Passes Like Out hzero hstep n (s.next v) s₂ hlike₂]
    constructor
    · rintro ⟨hfirst, hrest⟩ k hk
      cases k with
      | zero => exact hfirst
      | succ k => exact hrest k (Nat.lt_of_succ_lt_succ hk)
    · intro h
      exact ⟨h 0 (Nat.succ_pos n), fun k hk => h (k + 1) (Nat.succ_lt_succ hk)⟩

/-- The fuel that a loop is given is enough, but on a list without an end. -/
theorem endless_iff_cells (Passes : Value → Prop) (hnil : ¬ Passes .nil) {v : Value} :
    (∀ k < s.pairs.length + 1,
      isPair (s.next^[k] v) = true ∧ Passes (s.head (s.next^[k] v))) ↔ s.Endless Passes v :=
  ⟨fun h => endless_of_le hnil fun n hn => h n (Nat.lt_succ_of_le hn), fun h k _ => h k⟩

/-- A binding as it should be. -/
def Data.Binding (s : Data X) (one : Value) : Prop := isBinding one s = (.ok true, s)

/-- What a check of one binding finds. -/
theorem exists_isBinding (one : Value) (s : Data X) : ∃ b, isBinding one s = (.ok b, s) := by
  rcases hrun : isBinding one s with ⟨e | b, s'⟩
  · exact (errs_isBinding (E := fun _ => False) one e s' hrun).elim
  · have hs := reads_isBinding one s
    rw [hrun] at hs
    obtain rfl : s' = s := hs
    exact ⟨b, rfl⟩

/-- One turn of the check of the bindings. -/
theorem checkEach_step (bindings : Value) (n : ℕ) (v : Value) :
    (checkEach who bindings (n + 1) v s).1 = .error .outOfFuel ↔
      (isPair v = true ∧ s.Binding (s.head v)) ∧
        (checkEach who bindings n (s.next v) s).1 = .error .outOfFuel := by
  rw [checkEach]
  cases v with
  | pair a =>
    obtain ⟨b, hb⟩ := exists_isBinding (s.pairOf a).1 s
    have hbinding : s.Binding (s.head (.pair a)) ↔ b = true := by
      unfold Data.Binding Data.head
      rw [hb]
      simp
    dsimp only
    rw [if_neg nofun, if_neg nofun, Cmd.bind_run_ok (asPair_run a s), Cmd.bind_run_ok hb, hbinding]
    cases b with
    | false => exact iff_of_false nofun nofun
    | true => exact ⟨fun h => ⟨⟨rfl, rfl⟩, h⟩, fun h => h.2⟩
  | nil => exact iff_of_false nofun nofun
  | _ => exact iff_of_false nofun nofun

/-- A command comes to an end unless it is out of fuel. -/
theorem halts_iff {m : DataM X α} : Halts m s ↔ (m s).1 ≠ .error .outOfFuel := by
  constructor
  · intro h hrun
    exact h .outOfFuel (m s).2 (Prod.ext hrun rfl) rfl
  · rintro h e s' hrun rfl
    exact h (congrArg Prod.fst hrun)

theorem not_binding_nil : ¬ s.Binding .nil := nofun

/-- **The check of the bindings** comes to an end but on a list without one. -/
theorem halts_checkBindings_iff (who : String) (bindings : Value) :
    Halts (checkBindings who bindings : DataM X _) s ↔ ¬ s.Endless s.Binding bindings := by
  have hloop := (forall_cells_iff (s := s) s.Binding (· = s)
    (fun n v s₁ => (checkEach who bindings n v s₁).1 = .error .outOfFuel) (fun _ _ => rfl)
    (fun n v s₁ hs => ⟨s, rfl, hs ▸ checkEach_step bindings n v⟩) (s.pairs.length + 1) bindings s rfl).trans
    (endless_iff_cells s.Binding not_binding_nil)
  rw [halts_iff, ← hloop, not_iff_not]
  unfold checkBindings
  dsimp only
  split
  · rename_i hno
    refine iff_of_false nofun fun h => ?_
    have hpair : isPair bindings = true := (hloop.1 h 0).1
    rw [hpair] at hno
    exact absurd hno.2 nofun
  · rfl

/-- One turn of the loop along the parameters. -/
theorem extractParamsFrom_step (n : ℕ) (v : Value) :
    (extractParamsFrom (n + 1) v s).1 = .error .outOfFuel ↔
      (isPair v = true ∧ isSymbol (s.head v) = true) ∧
        (extractParamsFrom n (s.next v) s).1 = .error .outOfFuel := by
  cases v with
  | pair a =>
    conv_lhs =>
      unfold extractParamsFrom
      dsimp only
    rw [Cmd.bind_run_ok (asPair_run a s)]
    show _ ↔ (_ ∧ isSymbol (s.pairOf a).1 = true) ∧
      (extractParamsFrom n (s.pairOf a).2 s).1 = _
    cases (s.pairOf a).1 with
    | sym x =>
      dsimp only
      rw [Cmd.bind_run]
      rcases extractParamsFrom n (s.pairOf a).2 s with ⟨e | r, s'⟩
      · exact ⟨fun h => ⟨⟨rfl, rfl⟩, h⟩, fun h => h.2⟩
      · exact iff_of_false (fun h => by cases h) (fun h => by cases h.2)
    | _ => exact iff_of_false (fun h => by cases h) (fun h => by cases h.1.2)
  | _ => exact iff_of_false (fun h => by cases h) (fun h => by cases h.1.1)

theorem not_isSymbol_nil : ¬ isSymbol .nil = true := nofun

/-- **The parameters of a procedure** are read to the end but on a list without
one. -/
theorem halts_extractParams_iff (params : Value) :
    Halts (extractParams params : DataM X _) s ↔ ¬ s.Endless (isSymbol · = true) params := by
  have hloop := (forall_cells_iff (s := s) (isSymbol · = true) (· = s)
    (fun n v s₁ => (extractParamsFrom n v s₁).1 = .error .outOfFuel) (fun _ _ => rfl)
    (fun n v s₁ hs => ⟨s, rfl, hs ▸ extractParamsFrom_step n v⟩) (s.pairs.length + 1) params s
    rfl).trans (endless_iff_cells (isSymbol · = true) not_isSymbol_nil)
  rw [halts_iff, ← hloop, not_iff_not]
  rfl

/-- **A clause of `cond` that is followed by others**: it is a pair, no `else`,
and what is behind `=>` is one expression. -/
def Data.Continues (s : Data X) (cl : Value) : Prop :=
  isPair cl = true ∧ s.head cl ≠ .sym "else" ∧
    (isPair (s.next cl) = true → s.head (s.next cl) = .sym "=>" →
      isPair (s.next (s.next cl)) = true ∧ s.next (s.next (s.next cl)) = .nil)

theorem not_continues_nil : ¬ s.Continues .nil := fun h => nomatch h.1

/-- The fields of a pair depend on the pairs only. -/
theorem pairOf_congr {s₁ : Data X} (h : s₁.pairs = s.pairs) (a : ℕ) : s₁.pairOf a = s.pairOf a := by
  unfold Data.pairOf
  rw [h]

/-- **A clause of `cond` is read**: it is followed by others, or it is the last
one, or no clause. -/
theorem condClause_cases (cl : Value) {s₁ : Data X} (hs : s₁.pairs = s.pairs) :
    (s.Continues cl ∧ ∃ c s₂, condClause cl s₁ = (.ok c, s₂) ∧ c.isElse = false ∧
      s₂.pairs = s.pairs) ∨
    (¬ s.Continues cl ∧ ((∃ c s₂, condClause cl s₁ = (.ok c, s₂) ∧ c.isElse = true) ∨
      ∃ message s₂, condClause cl s₁ = (.error (.scheme message true), s₂))) := by
  unfold condClause
  cases cl with
  | pair a =>
    have hhead : s.head (.pair a) = (s.pairOf a).1 := rfl
    have hnext : s.next (.pair a) = (s.pairOf a).2 := rfl
    dsimp only
    rw [if_neg nofun, Cmd.bind_run_ok (asPair_run a s₁), pairOf_congr hs a]
    unfold Data.Continues
    rw [hhead, hnext]
    by_cases helse : (s.pairOf a).1 = .sym "else"
    · rw [if_pos helse]
      exact .inr ⟨fun h => h.2.1 helse, .inl ⟨_, _, rfl, rfl⟩⟩
    rw [if_neg helse]
    cases hbody : (s.pairOf a).2 with
    | pair b =>
      rw [if_neg nofun, if_neg nofun, Cmd.bind_run_ok (car_run b s₁), pairOf_congr hs b]
      have hsecond : s.head (.pair b) = (s.pairOf b).1 := rfl
      have hthird : s.next (.pair b) = (s.pairOf b).2 := rfl
      rw [hsecond, hthird]
      by_cases harrow : (s.pairOf b).1 = .sym "=>"
      · rw [if_neg (not_not.2 harrow), Cmd.bind_run_ok (cdr_run b s₁), pairOf_congr hs b]
        cases htail : (s.pairOf b).2 with
        | pair c =>
          have hafter : s.next (.pair c) = (s.pairOf c).2 := rfl
          rw [if_pos (show isPair (.pair c) = true from rfl), hafter]
          by_cases hlast : (s.pairOf c).2 = .nil
          · refine .inl ⟨⟨rfl, helse, fun _ _ => ⟨rfl, hlast⟩⟩, ?_⟩
            have halone : (do return (← cdr (.pair c)) == .nil : DataM X Bool) s₁ =
                (.ok true, s₁) := by
              rw [Cmd.bind_run_ok (cdr_run c s₁), pairOf_congr hs c, hlast]
              rfl
            rw [Cmd.bind_run_ok halone]
            exact ⟨_, _, rfl, rfl, hs⟩
          · refine .inr ⟨fun h => hlast (h.2.2 rfl harrow).2, .inr ?_⟩
            have halone : (do return (← cdr (.pair c)) == .nil : DataM X Bool) s₁ =
                (.ok false, s₁) := by
              rw [Cmd.bind_run_ok (cdr_run c s₁), pairOf_congr hs c]
              exact congrArg (fun b => (Except.ok b, s₁)) (beq_false_of_ne hlast)
            rw [Cmd.bind_run_ok halone]
            exact ⟨_, _, rfl⟩
        | _ => exact .inr ⟨fun h => absurd (h.2.2 rfl harrow).1 nofun, .inr ⟨_, _, rfl⟩⟩
      · rw [if_pos harrow]
        exact .inl ⟨⟨rfl, helse, fun _ h => absurd h harrow⟩, _, _, rfl, rfl, hs⟩
    | nil =>
      rw [if_pos rfl]
      exact .inl ⟨⟨rfl, helse, nofun⟩, _, _, rfl, rfl, hs⟩
    | _ => exact .inl ⟨⟨rfl, helse, nofun⟩, _, _, rfl, rfl, hs⟩
  | _ => exact .inr ⟨fun h => absurd h.1 nofun, .inr ⟨_, _, rfl⟩⟩

/-- One turn of the loop along the clauses. -/
theorem condClauses_step (clauses : Value) (n : ℕ) (v : Value) {s₁ : Data X} (hs : s₁.pairs = s.pairs) :
    ∃ s₂ : Data X, s₂.pairs = s.pairs ∧ ((condClauses clauses (n + 1) v s₁).1 = .error .outOfFuel ↔
      (isPair v = true ∧ s.Continues (s.head v)) ∧
        (condClauses clauses n (s.next v) s₂).1 = .error .outOfFuel) := by
  rw [condClauses]
  cases v with
  | pair a =>
    have hpair := pairOf_congr hs a
    dsimp only
    rw [if_neg nofun, if_neg nofun]
    rw [Cmd.bind_run_ok (asPair_run a s₁), hpair]
    rcases condClause_cases (s.pairOf a).1 hs with
      ⟨hpass, c, s₂, hc, helse, hs₂⟩ | ⟨hstop, ⟨c, s₂, hc, helse⟩ | ⟨message, s₂, hc⟩⟩
    · refine ⟨s₂, hs₂, ?_⟩
      rw [Cmd.bind_run_ok hc, helse, if_neg nofun, Cmd.bind_run]
      have hhead : s.Continues (s.head (.pair a)) := hpass
      have hnext : s.next (.pair a) = (s.pairOf a).2 := rfl
      rw [hnext]
      rcases condClauses clauses n (s.pairOf a).2 s₂ with ⟨e | cs, s₃⟩
      · exact ⟨fun h => ⟨⟨rfl, hhead⟩, h⟩, fun h => h.2⟩
      · exact iff_of_false nofun nofun
    · refine ⟨s, rfl, ?_⟩
      rw [Cmd.bind_run_ok hc, helse, if_pos rfl]
      exact iff_of_false nofun fun h => hstop h.1.2
    · refine ⟨s, rfl, ?_⟩
      rw [Cmd.bind_run_error hc]
      exact iff_of_false nofun fun h => hstop h.1.2
  | nil => exact ⟨s, rfl, iff_of_false nofun nofun⟩
  | _ => exact ⟨s, rfl, iff_of_false nofun nofun⟩

/-- **The clauses of `cond`** are walked without end exactly where they go round. -/
theorem condClauses_outOfFuel (clauses v : Value) :
    (condClauses clauses (s.pairs.length + 1) v s).1 = .error .outOfFuel ↔ s.Endless s.Continues v :=
  (forall_cells_iff (s := s) s.Continues (·.pairs = s.pairs)
    (fun n v s₁ => (condClauses clauses n v s₁).1 = .error .outOfFuel) (fun _ _ => rfl)
    (fun n v _ hs => condClauses_step clauses n v hs) (s.pairs.length + 1) v s rfl).trans
    (endless_iff_cells s.Continues not_continues_nil)

end Loops

/-! ## The expanders -/

/-- What comes after lists that are made, and after other commands that come to
an end, whatever state they reach. -/
theorem halts_bind {m : DataM X α} {f : α → DataM X β} (hm : Halts m s)
    (hf : ∀ a s', Halts (f a) s') : Halts (m >>= f) s :=
  hm.bind fun a s' _ => hf a s'

/-- What a sequence needs, its first part needs. -/
theorem halts_of_bind {m : DataM X α} {f : α → DataM X β} (h : Halts (m >>= f) s) : Halts m s :=
  fun e s' hrun => h e s' (Cmd.bind_run_error hrun f)

/-- A first part that returns. -/
theorem halts_bind_ok_iff {m : DataM X α} {f : α → DataM X β} {a : α} (h : m s = (.ok a, s')) :
    Halts (m >>= f) s ↔ Halts (f a) s' := by
  rw [halts_iff, halts_iff, Cmd.bind_run_ok h]

theorem halts_ite {m m' : DataM X α} {c : Prop} [Decidable c] (h : Halts m s) (h' : Halts m' s) :
    Halts (if c then m else m') s :=
  .ite (fun _ => h) fun _ => h'

theorem halts_bindingParts (b : Value) : Halts (bindingParts b : DataM X _) s :=
  halts_bind (halts_car b) fun _ _ => halts_bind (halts_cdr b) fun _ _ =>
    halts_bind (halts_car _) fun _ _ => .pure

/-- Nothing but lists that were copied is gone along. -/
theorem halts_andForms : ∀ (xs : List Value) (last : Value) (s : Data X),
    Halts (andForms xs last : DataM X _) s
  | [], _, _ => .pure
  | _ :: xs, last, s => halts_bind (halts_andForms xs last s) fun _ _ => errs_listFrom _

theorem halts_orForms : ∀ (xs : List (Value × Value)) (last : Value) (s : Data X),
    Halts (orForms xs last : DataM X _) s
  | [], _, _ => .pure
  | _ :: xs, last, s =>
    halts_bind (halts_orForms xs last s) fun _ _ => halts_bind (errs_listFrom _) fun _ _ =>
      halts_bind (errs_listFrom _) fun _ _ => halts_bind (errs_listFrom _) fun _ _ =>
        errs_listFrom _

/-- `and` ends. -/
theorem halts_expandAnd (form : Value) : Halts (expandAnd form : DataM X _) s := by
  refine halts_bind (halts_cdr _) fun _ _ => halts_bind (halts_listToVector _ _) fun xs _ => ?_
  split
  · exact .pure
  · exact halts_andForms _ _ _

/-- `or` ends. -/
theorem halts_expandOr (form : Value) : Halts (expandOr form : DataM X _) s := by
  refine halts_bind (halts_cdr _) fun _ _ => halts_bind (halts_listToVector _ _) fun xs _ => ?_
  split
  · exact .pure
  · refine halts_bind (halts_mapList (fun x s => ?_) _) fun temps _ => halts_orForms _ _ _
    exact halts_bind (halts_makeGensym _) fun _ _ => .pure

theorem halts_condForms : ∀ (cs : List CondClause) (s : Data X),
    Halts (condForms cs : DataM X _) s
  | [], _ => .pure
  | c :: cs, s => by
    unfold condForms
    refine halts_bind (halts_condForms cs s) fun out s₁ => halts_ite ?_ ?_
    · exact halts_bind (halts_listToVector _ _) fun _ _ => errs_makeBeginForm _
    split
    · split
      · refine halts_bind (errs_listFrom _) fun _ _ => halts_bind (errs_listFrom _) fun _ _ => ?_
        refine halts_bind (errs_listFrom _) fun _ _ => halts_bind (errs_listFrom _) fun _ _ => ?_
        exact errs_listFrom _
      · refine halts_bind .pure fun _ _ => halts_bind (errs_listFrom _) fun _ _ => ?_
        refine halts_bind (errs_listFrom _) fun _ _ => halts_bind (errs_listFrom _) fun _ _ => ?_
        exact errs_listFrom _
    · refine halts_bind (halts_listToVector _ _) fun _ _ => halts_bind (errs_makeBeginForm _) ?_
      exact fun _ _ => errs_listFrom _

/-- **`cond`** comes to an end but on clauses without one. -/
theorem halts_expandCond_iff (a : ℕ) :
    Halts (expandCond (.pair a) : DataM X _) s ↔ ¬ s.Endless s.Continues (s.next (.pair a)) := by
  have hnext : s.next (.pair a) = (s.pairOf a).2 := rfl
  unfold expandCond
  rw [halts_bind_ok_iff (cdr_run a s), halts_bind_ok_iff (Cmd.getState_run s), hnext,
    ← condClauses_outOfFuel]
  constructor
  · intro h
    exact halts_iff.1 (halts_of_bind h)
  · intro h
    exact halts_bind (halts_iff.2 h) fun cs s₁ => halts_condForms cs s₁

/-! ### The expanders that bind -/

/-- After the check of a form, its first argument and the others. -/
theorem halts_checkArity_iff {form : String} {rest : Value} {k : Value → Value → DataM X α} :
    Halts (do
      checkArity form rest 1 0
      let x ← car rest
      let body ← cdr rest
      k x body) s ↔
      (checkArity form rest 1 0 s = (.ok (), s) → Halts (k (s.head rest) (s.next rest)) s) := by
  have hpair : checkArity form rest 1 0 s = (.ok (), s) → ∃ a, rest = .pair a := by
    intro hcheck
    obtain ⟨xs, hlisted, hmin, -⟩ := listed_of_checkArity hcheck
    cases xs with
    | nil => exact absurd hmin (by simp)
    | cons x xs =>
      obtain ⟨a, ha, -⟩ := hlisted.chain
      exact ⟨a, ha⟩
  constructor
  · intro h hcheck
    obtain ⟨a, rfl⟩ := hpair hcheck
    rw [halts_bind_ok_iff hcheck, halts_bind_ok_iff (car_run a s),
      halts_bind_ok_iff (cdr_run a s)] at h
    exact h
  · intro h
    refine .bind_reads (reads_checkArity _ _ _ _) (halts_checkArity _ _ _ _) fun _ hcheck => ?_
    obtain ⟨a, rfl⟩ := hpair hcheck
    exact (halts_bind_ok_iff (car_run a s)).2 ((halts_bind_ok_iff (cdr_run a s)).2 (h hcheck))

/-- **The check of bindings** is what may not end. -/
theorem halts_checkBindings_bind_iff {who : String} {bindings : Value} {m : DataM X α}
    (hm : ∀ s, Halts m s) :
    Halts (checkBindings who bindings >>= fun _ => m) s ↔ ¬ s.Endless s.Binding bindings := by
  rw [← halts_checkBindings_iff who]
  exact ⟨halts_of_bind, fun h => halts_bind h fun _ s' => hm s'⟩

/-- **The bindings of a `let`**; they come after the name where there is one. -/
def Data.LetBindings (s : Data X) (rest bindings : Value) : Prop :=
  (isSymbol (s.head rest) = true ∧ isPair (s.next rest) = true ∧ bindings = s.head (s.next rest)) ∨
    (isSymbol (s.head rest) = false ∧ bindings = s.head rest)

/-- **`let`** comes to an end but on bindings without one. -/
theorem halts_expandLet_iff (a : ℕ) :
    Halts (expandLet (.pair a) : DataM X _) s ↔
      (checkArity "let" (s.next (.pair a)) 1 0 s = (.ok (), s) →
        ∀ bindings, s.LetBindings (s.next (.pair a)) bindings →
          ¬ s.Endless s.Binding bindings) := by
  have hnext : s.next (.pair a) = (s.pairOf a).2 := rfl
  unfold expandLet
  rw [halts_bind_ok_iff (cdr_run a s), halts_checkArity_iff, hnext]
  refine imp_congr_right fun _ => ?_
  unfold Data.LetBindings
  dsimp only
  cases hsym : isSymbol (s.head (s.pairOf a).2) with
  | true =>
    rw [if_pos (show true = true from rfl)]
    cases hbody : s.next (s.pairOf a).2 with
    | pair b =>
      have hhead : s.head (.pair b) = (s.pairOf b).1 := rfl
      rw [if_neg nofun, halts_bind_ok_iff (car_run b s), halts_bind_ok_iff (cdr_run b s)]
      refine (halts_checkBindings_bind_iff fun s₁ => ?_).trans ?_
      · refine halts_bind (halts_listToVector _ _) fun bs _ => ?_
        refine halts_bind (halts_mapList (fun one _ => halts_bindingParts one) _) fun ps _ => ?_
        refine halts_bind (errs_listFrom _) fun _ _ => halts_bind (errs_makePair _ _) fun _ _ => ?_
        refine halts_bind (errs_makePair _ _) fun _ _ => halts_bind (errs_listFrom _) fun _ _ => ?_
        refine halts_bind (errs_listFrom _) fun _ _ => halts_bind (errs_listFrom _) fun _ _ => ?_
        exact errs_listFrom _
      · rw [hhead]
        constructor
        · rintro h bindings (⟨-, -, rfl⟩ | ⟨hno, -⟩)
          · exact h
          · cases hno
        · exact fun h => h _ (.inl ⟨rfl, rfl, rfl⟩)
    | _ =>
      refine iff_of_true (halts_syntaxError _ _) ?_
      rintro bindings (⟨-, hno, -⟩ | ⟨hno, -⟩)
      all_goals cases hno
  | false =>
    rw [if_neg nofun]
    refine (halts_checkBindings_bind_iff fun s₁ => ?_).trans ?_
    · refine halts_bind (halts_listToVector _ _) fun bs _ => ?_
      refine halts_bind (halts_mapList (fun one _ => halts_bindingParts one) _) fun ps _ => ?_
      refine halts_bind (errs_listFrom _) fun _ _ => halts_bind (errs_makePair _ _) fun _ _ => ?_
      exact halts_bind (errs_makePair _ _) fun _ _ => errs_listFrom _
    · constructor
      · rintro h bindings (⟨hno, -, -⟩ | ⟨-, rfl⟩)
        · cases hno
        · exact h
      · exact fun h => h _ (.inr ⟨rfl, rfl⟩)

/-- **`let*`** comes to an end but on bindings without one. -/
theorem halts_expandLetStar_iff (a : ℕ) :
    Halts (expandLetStar (.pair a) : DataM X _) s ↔
      (checkArity "let*" (s.next (.pair a)) 1 0 s = (.ok (), s) →
        ¬ s.Endless s.Binding (s.head (s.next (.pair a)))) := by
  have hnext : s.next (.pair a) = (s.pairOf a).2 := rfl
  unfold expandLetStar
  rw [halts_bind_ok_iff (cdr_run a s), halts_checkArity_iff, hnext]
  refine imp_congr_right fun _ => halts_checkBindings_bind_iff fun s₁ => ?_
  refine halts_bind (halts_listToVector _ _) fun bs _ => halts_bind (halts_listToVector _ _) ?_
  refine fun forms _ => halts_bind (errs_makeBeginForm _) fun bodyForm _ => ?_
  split
  · exact .pure
  · exact halts_bind (errs_listFrom _) fun _ _ => errs_listFrom _
  · refine halts_bind (errs_listFrom _) fun _ _ => halts_bind (errs_listFrom _) fun _ _ => ?_
    exact halts_bind (errs_listFrom _) fun _ _ => errs_listFrom _

/-- **`letrec`** comes to an end but on bindings without one. -/
theorem halts_expandLetrec_iff (a : ℕ) :
    Halts (expandLetrec (.pair a) : DataM X _) s ↔
      (checkArity "letrec" (s.next (.pair a)) 1 0 s = (.ok (), s) →
        ¬ s.Endless s.Binding (s.head (s.next (.pair a)))) := by
  have hnext : s.next (.pair a) = (s.pairOf a).2 := rfl
  unfold expandLetrec
  rw [halts_bind_ok_iff (cdr_run a s), halts_checkArity_iff, hnext]
  refine imp_congr_right fun _ => halts_checkBindings_bind_iff fun s₁ => ?_
  refine halts_bind (halts_listToVector _ _) fun bs _ => ?_
  refine halts_bind (halts_mapList (fun b _ => ?_) _) fun letBindings _ => ?_
  · exact halts_bind (halts_car _) fun _ _ => errs_listFrom _
  refine halts_bind (halts_mapList (fun b _ => ?_) _) fun sets _ => ?_
  · refine halts_bind (halts_car _) fun _ _ => halts_bind (halts_cdr _) fun _ _ => ?_
    exact halts_bind (halts_car _) fun _ _ => errs_listFrom _
  refine halts_bind (halts_listToVector _ _) fun _ _ => halts_bind (errs_listFrom _) fun _ _ => ?_
  exact halts_bind (errs_makeBeginForm _) fun _ _ => errs_listFrom _

/-! ### The expanders without a plain loop of their own -/

/-- A specification of `do` ends. -/
theorem halts_doSpec (v : Value) : Halts (doSpec v : DataM X _) s := by
  unfold doSpec
  dsimp only
  refine halts_ite (halts_syntaxError _ _) (halts_bind (halts_asPair _) fun p _ => ?_)
  refine halts_ite (halts_syntaxError _ _) (halts_bind (halts_cdr _) fun tail _ => ?_)
  refine halts_ite ?_ ?_
  · exact halts_bind .pure fun _ _ => halts_bind (halts_car _) fun _ _ => .pure
  · exact halts_bind (halts_car _) fun _ _ => halts_bind (halts_car _) fun _ _ => .pure

/-- `do` ends, once its specifications are copied. -/
theorem halts_expandDo (form : Value) : Halts (expandDo form : DataM X _) s := by
  unfold expandDo
  refine halts_bind (halts_cdr _) fun _ _ => halts_bind (halts_checkArity _ _ _ _) fun _ _ => ?_
  refine halts_bind (halts_car _) fun _ _ => halts_bind (halts_cdr _) fun _ _ => ?_
  refine halts_bind (halts_car _) fun _ _ => halts_bind (halts_cdr _) fun _ _ => ?_
  refine halts_bind (halts_cdr _) fun _ _ => ?_
  dsimp only
  refine halts_ite (halts_syntaxError _ _) (halts_bind (halts_listToVector _ _) fun _ _ => ?_)
  refine halts_bind (halts_mapList (fun v _ => halts_doSpec v) _) fun _ _ => ?_
  refine halts_bind (halts_makeGensym _) fun _ _ => ?_
  refine halts_bind (halts_listToVector _ _) fun _ _ => ?_
  refine halts_bind (errs_listFrom _) fun _ _ => halts_bind (halts_cdr _) fun _ _ => ?_
  refine halts_bind (halts_listToVector _ _) fun _ _ => halts_bind (errs_makeBeginForm _) ?_
  refine fun _ _ => halts_bind (halts_car _) fun _ _ => halts_bind (errs_makeBeginForm _) ?_
  refine fun _ _ => halts_bind (errs_listFrom _) fun _ _ => halts_bind (errs_listFrom _) ?_
  refine fun _ _ => halts_bind (errs_listFrom _) fun _ _ => halts_bind (errs_listFrom _) ?_
  exact fun _ _ => halts_bind (errs_listFrom _) fun _ _ => halts_bind (errs_listFrom _) fun _ _ =>
    errs_listFrom _

theorem halts_internalBinding (form : Value) : Halts (internalBinding form : DataM X _) s := by
  unfold internalBinding
  refine halts_bind (halts_cdr _) fun drest _ => ?_
  dsimp only
  refine halts_ite (halts_syntaxError _ _) (halts_bind (halts_asPair _) fun p _ => ?_)
  obtain ⟨lhs, rhsTail⟩ := p
  dsimp only
  split
  · refine halts_ite (halts_syntaxError _ _) ?_
    exact halts_bind (halts_car _) fun _ _ => errs_listFrom _
  · refine halts_bind (halts_asPair _) fun p _ => halts_ite (halts_syntaxError _ _) ?_
    refine halts_bind (errs_makePair _ _) fun _ _ => halts_bind (errs_makePair _ _) fun _ _ => ?_
    exact errs_listFrom _
  · exact halts_syntaxError _ _

/-- The definitions a body begins with are found in one pass. -/
theorem halts_leadingDefines : ∀ (forms : List Value) (s : Data X),
    Halts (leadingDefines forms : DataM X _) s
  | [], _ => .pure
  | form :: forms, s => by
    obtain ⟨b, hb, -⟩ := isDefine_run form s
    refine .bind_ok hb (halts_ite .pure ?_)
    refine halts_bind (halts_internalBinding form) fun _ s₁ => ?_
    exact halts_bind (halts_leadingDefines forms s₁) fun _ _ => .pure

/-- **The definitions of a body** are scanned to the end. -/
theorem halts_scanOutDefines (body : Value) : Halts (scanOutDefines body : DataM X _) s := by
  refine halts_bind (halts_listToVector _ _) fun forms s₁ => ?_
  refine halts_bind (halts_leadingDefines forms s₁) fun p _ => ?_
  obtain ⟨bindings, rest⟩ := p
  refine halts_ite .pure (halts_bind (errs_listFrom _) fun _ _ => ?_)
  exact halts_bind (errs_listFrom _) fun _ _ => errs_listFrom _

/-! ### `case` -/

/-- A clause of `case` ends. -/
theorem halts_caseClause (t cl : Value) : Halts (caseClause t cl : DataM X _) s := by
  unfold caseClause
  dsimp only
  refine halts_ite (halts_syntaxError _ _) (halts_bind (halts_asPair _) fun p _ => ?_)
  obtain ⟨head, body⟩ := p
  refine halts_ite ?_ ?_
  · refine halts_bind .pure fun _ _ => ?_
    exact halts_bind (halts_listToVector _ _) fun _ _ => errs_listFrom _
  · refine halts_bind (halts_bind (errs_listFrom _) fun _ _ => errs_listFrom _) fun _ _ => ?_
    exact halts_bind (halts_listToVector _ _) fun _ _ => errs_listFrom _

/-- The loop along the clauses of `case` is out of fuel where there are as many
clauses. -/
theorem cells_of_caseClauses (hs : s.Closed) (t clauses : Value) : ∀ (n : ℕ) (v : Value) (s₁ : Data X),
    s.Holds v → s.Grows s₁ → Errs (fun e => e = .outOfFuel → ∀ k < n,
      isPair (s.next^[k] v) = true ∧ isPair (s.head (s.next^[k] v)) = true) (caseClauses t clauses n v) s₁
  | 0, _, _, _, _ => .fail fun _ k hk => absurd hk (Nat.not_lt_zero k)
  | n + 1, v, s₁, hv, hgrows => by
    unfold caseClauses
    dsimp only
    refine .ite (fun _ => .pure) fun _ => .ite (fun _ => .fail fun h => by cases h) fun hcur => ?_
    obtain ⟨a, rfl⟩ := exists_pair_of_not hcur
    have hpair : s₁.pairOf a = s.pairOf a := hgrows.pairOf hv
    have hnext : s.next (.pair a) = (s.pairOf a).2 := rfl
    have hhead : s.head (.pair a) = (s.pairOf a).1 := rfl
    refine .bind_ok (asPair_run a s₁) (Errs.bind ?_ fun c s₂ hc => ?_)
    · exact (halts_caseClause t _).mono fun e he h => absurd h he
    have hclause : isPair (s.pairOf a).1 = true := by
      rw [← hpair]
      unfold caseClause at hc
      dsimp only at hc
      split at hc
      · cases (Prod.mk.inj hc).1
      · simpa using ‹¬ (!isPair (s₁.pairOf a).1) = true›
    have hrest := cells_of_caseClauses hs t clauses n (s.pairOf a).2 s₂ (hs.pairOf a).2
      (hgrows.trans (morePairs_caseClause hc).grows)
    rw [← hpair] at hrest
    refine Errs.bind (hrest.mono fun e he h k hk => ?_) fun _ _ _ => .pure
    rw [hpair] at he
    cases k with
    | zero => exact ⟨rfl, hclause⟩
    | succ k => exact he h k (Nat.lt_of_succ_lt_succ hk)

/-- A proper list has an end. -/
theorem not_endless_of_chain {Passes : Value → Prop} {v : Value} {xs : List Value}
    (h : s.Chain .nil v xs) : ¬ s.Endless Passes v := by
  induction xs generalizing v with
  | nil =>
    obtain rfl : v = .nil := h
    exact fun hends => absurd (hends 0).1 nofun
  | cons x xs ih =>
    obtain ⟨a, rfl, rfl, hxs⟩ := h
    exact fun hends => ih hxs fun n => hends (n + 1)

/-- **`case`** comes to an end: its clauses are the end of a list that was
walked with two pointers. -/
theorem halts_expandCase (hs : s.Closed) (a : ℕ) : Halts (expandCase (.pair a) : DataM X _) s := by
  unfold expandCase
  rw [halts_bind_ok_iff (cdr_run a s), halts_checkArity_iff]
  intro hcheck
  obtain ⟨xs, hlisted, hmin, -⟩ := listed_of_checkArity hcheck
  cases xs with
  | nil => exact absurd hmin (by simp)
  | cons x xs =>
    obtain ⟨b, hb, -, hxs⟩ := hlisted.chain
    obtain ⟨s₁, hsym, -⟩ := makeGensym_spec "case" s
    have hs₁ : s₁ = { s with gensymCounter := s.gensymCounter + 1 } := (Prod.mk.inj hsym).2.symm
    have hgrows : s.Grows s₁ := by
      rw [hs₁]
      exact ⟨⟨id⟩, id, id⟩
    have hlen : s₁.pairs.length = s.pairs.length := by rw [hs₁]
    have hnext : s.next (s.pairOf a).2 = (s.pairOf b).2 := by rw [hb]; rfl
    have hends : ¬ s.Endless (isPair · = true) (s.next (s.pairOf a).2) := by
      rw [hnext]
      exact not_endless_of_chain hxs
    refine .bind_ok hsym (.bind_ok (Cmd.getState_run s₁) (Errs.bind ?_ fun cs _ _ => ?_))
    · rw [hlen]
      refine (cells_of_caseClauses hs _ _ _ _ s₁ ?_ hgrows).mono fun e he h => ?_
      · rw [hnext]
        exact (hs.pairOf b).2
      · exact hends (endless_of_le nofun fun n hn => he h n (Nat.lt_succ_of_le hn))
    · refine halts_bind (errs_listFrom _) fun _ _ => halts_bind (errs_listFrom _) fun _ _ => ?_
      refine halts_bind (errs_listFrom _) fun _ _ => halts_bind (errs_makePair _ _) fun _ _ => ?_
      exact errs_listFrom _

/-! ## Every expander -/

/-- A proper list with an element. -/
def Data.OneOrMore (s : Data X) (v : Value) : Prop := ∃ x xs, s.Listed v (x :: xs)

/-- An arity of one or more is that of a pair with a proper rest. -/
theorem checkArity_one_iff (form : String) (rest : Value) :
    checkArity form rest 1 0 s = (.ok (), s) ↔ s.OneOrMore rest := by
  constructor
  · intro h
    obtain ⟨xs, hlisted, hmin, -⟩ := listed_of_checkArity h
    cases xs with
    | nil => exact absurd hmin (by simp)
    | cons x xs => exact ⟨x, xs, hlisted⟩
  · rintro ⟨x, xs, hlisted⟩
    exact checkArity_of_listed hlisted (by simp)

/-- **A circular list that an expander does not protect itself from**: circular
bindings, each of them as it should be, of a form that is a proper list
otherwise, and circular clauses of `cond`, each of them followed by another
one. -/
def Data.Unprotected (s : Data X) (form : Value) : Derived → Prop
  | .letF => s.OneOrMore (s.next form) ∧
      ∃ bindings, s.LetBindings (s.next form) bindings ∧ s.Endless s.Binding bindings
  | .letStar | .letrecF => s.OneOrMore (s.next form) ∧
      s.Endless s.Binding (s.head (s.next form))
  | .condF => s.Endless s.Continues (s.next form)
  | _ => False

/-- **An expansion comes to an end** but on a circular list without
protection. -/
theorem halts_expandDerived_iff (hs : s.Closed) (fuel a : ℕ) {d : Derived}
    (hd : d ≠ .quasiquoteF) :
    Halts (expandDerived fuel (.pair a) d : DataM X _) s ↔ ¬ s.Unprotected (.pair a) d := by
  cases d with
  | letF =>
    refine (halts_expandLet_iff a).trans ?_
    unfold Data.Unprotected
    rw [checkArity_one_iff, not_and, not_exists]
    exact imp_congr_right fun _ => forall_congr' fun bindings => not_and.symm
  | letStar =>
    refine (halts_expandLetStar_iff a).trans ?_
    rw [checkArity_one_iff]
    exact not_and.symm
  | letrecF =>
    refine (halts_expandLetrec_iff a).trans ?_
    rw [checkArity_one_iff]
    exact not_and.symm
  | andF => exact iff_of_true (halts_expandAnd _) nofun
  | orF => exact iff_of_true (halts_expandOr _) nofun
  | condF => exact halts_expandCond_iff a
  | caseF => exact iff_of_true (halts_expandCase hs a) nofun
  | doF => exact iff_of_true (halts_expandDo _) nofun
  | quasiquoteF => exact absurd rfl hd

/-- **An expander returns or reports a syntax error**, of its own form, after so
many steps. -/
def ExpandsOrReports (fuel : ℕ) (form : Value) (d : Derived) (s : Data X) : Prop :=
  Errs (fun e => e.ReportedBy d.word ∧ e ≠ .outOfFuel) (expandDerived fuel form d) s

/-- **Which forms are expanded**, or reported: for every expander but the
quasiquote, those without an unprotected circular list, and for `do` without a
dotted specification. The parameters of a procedure are read to the end but on
a circular list of symbols, and a body is always scanned to the end. -/
theorem expansions_end_iff (hs : s.Closed) (fuel a : ℕ) :
    (∀ d, d ≠ .quasiquoteF → (ExpandsOrReports fuel (.pair a) d s ↔
      ¬ s.Unprotected (.pair a) d ∧ ¬ (d = .doF ∧ s.DottedDo (.pair a)))) ∧
    (∀ params, Halts (extractParams params : DataM X _) s ↔
      ¬ s.Endless (isSymbol · = true) params) ∧
    ∀ body, Halts (scanOutDefines body : DataM X _) s := by
  refine ⟨fun d hd => ?_, halts_extractParams_iff, halts_scanOutDefines⟩
  rw [← halts_expandDerived_iff hs fuel a hd]
  constructor
  · intro h
    refine ⟨h.mono fun e he => he.2, ?_⟩
    rintro ⟨rfl, hdotted⟩
    exact (slips_expandDo hdotted).not_errs (fun e he => he.1.ordinary) h
  · rintro ⟨hends, hdotted⟩ e s' hrun
    exact ⟨errs_expandDerived fuel hdotted e s' hrun, hends e s' hrun⟩

/-! ### A circular list of bindings -/

/-- `(let ((x 1) . …) x)`, whose bindings go round. -/
def circularLet : List (Value × Value) :=
  [(.sym "let", .pair 1), (.pair 2, .pair 5), (.pair 3, .pair 2), (.sym "x", .pair 4),
    (.int 1, .nil), (.sym "x", .nil)]

theorem closed_circularLet : (pairsWorld circularLet).data.Closed := by
  unfold Data.Closed pairsWorld circularLet
  simp [Data.Holds]

theorem expansions_end_iff_circularLet :
    (∀ d, d ≠ .quasiquoteF → (ExpandsOrReports 0 (.pair 0) d (pairsWorld circularLet).data ↔
      ¬ (pairsWorld circularLet).data.Unprotected (.pair 0) d ∧
        ¬ (d = .doF ∧ (pairsWorld circularLet).data.DottedDo (.pair 0)))) ∧
    (∀ params, Halts (extractParams params) (pairsWorld circularLet).data ↔
      ¬ (pairsWorld circularLet).data.Endless (isSymbol · = true) params) ∧
    ∀ body, Halts (scanOutDefines body) (pairsWorld circularLet).data :=
  expansions_end_iff closed_circularLet 0 0

/-- **The expansion of a circular `let` has no end.** -/
theorem circularLet_endless :
    ¬ ExpandsOrReports 0 (.pair 0) .letF (pairsWorld circularLet).data := by
  intro h
  have hrun : (expandDerived 0 (.pair 0) .letF (pairsWorld circularLet).data).1
      = .error .outOfFuel := by rfl
  exact (h .outOfFuel _ (Prod.ext hrun rfl)).2 rfl

end Scheme14
