import SecdScheme.Scheme14.Dotted
import Mathlib.Data.List.Nodup

/-!
# scheme14: temporaries

`or`, `cond`, `case` and `do` bind names of their own, a word and the next
value of a counter. Here is which names an expansion binds.
-/

namespace Scheme14

open Cmd (exists_of_bind_ok eq_of_pure_ok)

variable {X : Type} {s s' s'' : Data X}

/-! ## Names -/

/-- A name that is generated: a word and a number. -/
def temporary (word : String) (n : ℕ) : String := word ++ toString n

theorem temporary_injective (word : String) : Function.Injective (temporary word) := by
  intro m n h
  have hdigits : Nat.toDigits 10 m = Nat.toDigits 10 n := by
    have hlist := congrArg String.toList h
    unfold temporary at hlist
    rw [String.toList_append, String.toList_append] at hlist
    have := List.append_cancel_left hlist
    rwa [Nat.toString_eq_ofList_toDigits, Nat.toString_eq_ofList_toDigits, String.toList_ofList,
      String.toList_ofList] at this
  rw [← @Nat.ofDigitChars_ten_toDigits m, hdigits, Nat.ofDigitChars_ten_toDigits]

/-- The names for the next values of the counter. -/
def temporaries (word : String) (n k : ℕ) : List String :=
  (List.range k).map fun i => temporary word (n + i + 1)

theorem temporaries_succ (word : String) (n k : ℕ) :
    temporaries word n (k + 1) = temporary word (n + 1) :: temporaries word (n + 1) k := by
  unfold temporaries
  rw [List.range_succ_eq_map, List.map_cons, List.map_map]
  refine congrArg (temporary word (n + 0 + 1) :: ·) (List.map_congr_left fun i _ => ?_)
  show temporary word (n + (i + 1) + 1) = temporary word (n + 1 + i + 1)
  rw [Nat.add_right_comm n 1 i, Nat.add_assoc n i 1]

theorem nodup_temporaries (word : String) (n k : ℕ) : (temporaries word n k).Nodup := by
  refine List.Nodup.map (fun i j h => ?_) List.nodup_range
  have := temporary_injective word h
  omega

theorem mem_temporaries {word : String} {n k : ℕ} {t : String} :
    t ∈ temporaries word n k ↔ ∃ i < k, temporary word (n + i + 1) = t := by
  simp only [temporaries, List.mem_map, List.mem_range]

/-! ## Expansions -/

/-- Pairs have been made, and some names have been generated. -/
def Data.Expands (s s' : Data X) (k : ℕ) : Prop :=
  ∃ ps, s' = { s with pairs := s.pairs ++ ps, gensymCounter := s.gensymCounter + k }

theorem Data.MorePairs.expands (h : s.MorePairs s') : s.Expands s' 0 := h

theorem Data.Expands.refl (s : Data X) : s.Expands s 0 := (Data.MorePairs.refl s).expands

theorem Data.Expands.trans {k k' : ℕ} (h : s.Expands s' k) (h' : s'.Expands s'' k') :
    s.Expands s'' (k + k') := by
  obtain ⟨ps, rfl⟩ := h
  obtain ⟨ps', rfl⟩ := h'
  refine ⟨ps ++ ps', ?_⟩
  rw [← List.append_assoc, ← Nat.add_assoc]

theorem Data.Expands.grows {k : ℕ} (h : s.Expands s' k) : s.Grows s' := by
  obtain ⟨ps, rfl⟩ := h
  exact ⟨⟨getElem?_append_of_some⟩, id, id⟩

theorem Data.Expands.counter {k : ℕ} (h : s.Expands s' k) :
    s'.gensymCounter = s.gensymCounter + k := by
  obtain ⟨ps, rfl⟩ := h
  rfl

theorem makeGensym_spec (word : String) (s : Data X) : ∃ s',
    makeGensym word s = (.ok (.sym (temporary word (s.gensymCounter + 1))), s') ∧
      s.Expands s' 1 :=
  ⟨_, rfl, [], by rw [List.append_nil]⟩

/-- **Nested conditionals**, some of them under a temporary for their test,
and the last alternative. -/
inductive Data.Nested (s : Data X) (last : Value) : Value → List String → Prop
  | last : s.Nested last last []
  | temp {v bs b e body thenE out t ts} : s.IsList v [.sym "let", bs, body] → s.IsList bs [b] →
      s.IsList b [.sym t, e] → s.IsList body [.sym "if", .sym t, thenE, out] →
      s.Nested last out ts → s.Nested last v (t :: ts)
  | test {v test thenE out ts} : s.IsList v [.sym "if", test, thenE, out] →
      s.Nested last out ts → s.Nested last v ts

theorem Data.Grows.nested (h : s.Grows s') {last v : Value} {ts : List String}
    (hv : s.Nested last v ts) : s'.Nested last v ts := by
  induction hv with
  | last => exact .last
  | temp hv hbs hb hbody _ ih =>
    exact .temp (h.isList hv) (h.isList hbs) (h.isList hb) (h.isList hbody) ih
  | test hv _ ih => exact .test (h.isList hv) ih

/-- **A form that binds one name** around everything. -/
def Data.BindsOne (s : Data X) (v : Value) (t : String) : Prop :=
  ∃ word bs b e body, s.IsList v [.sym word, bs, body] ∧ (word = "let" ∨ word = "letrec") ∧
    s.IsList bs [b] ∧ s.IsList b [.sym t, e]

/-- A temporary is bound to a test. -/
theorem bindTest_spec (t : String) (e thenE out : Value) (s : Data X) : ∃ v s',
    (do
      let binding ← listFrom [← listFrom [.sym t, e]]
      listFrom [.sym "let", binding, ← listFrom [.sym "if", .sym t, thenE, out]]) s =
        (.ok v, s') ∧ s.MorePairs s' ∧ ∀ {last : Value} {ts : List String},
          s.Nested last out ts → s'.Nested last v (t :: ts) := by
  obtain ⟨b, s₁, hb, h₁, hlist₁⟩ := listFrom_spec [.sym t, e] s
  obtain ⟨bs, s₂, hbs, h₂, hlist₂⟩ := listFrom_spec [b] s₁
  obtain ⟨body, s₃, hbody, h₃, hlist₃⟩ := listFrom_spec [.sym "if", .sym t, thenE, out] s₂
  obtain ⟨v, s₄, hv, h₄, hlist₄⟩ := listFrom_spec [.sym "let", bs, body] s₃
  refine ⟨v, s₄, ?_, ((h₁.trans h₂).trans h₃).trans h₄, fun hout => ?_⟩
  · rw [Cmd.bind_run_ok hb, Cmd.bind_run_ok hbs, Cmd.bind_run_ok hbody, hv]
  · have hgrows := (((h₁.trans h₂).trans h₃).trans h₄).grows
    exact .temp hlist₄ ((h₃.trans h₄).grows.isList hlist₂)
      (((h₂.trans h₃).trans h₄).grows.isList hlist₁) (h₄.grows.isList hlist₃)
      (hgrows.nested hout)

/-! ### `or` -/

theorem orTemps_spec : ∀ (xs : List Value) (s : Data X),
    ∃ (txs : List (String × Value)) (s' : Data X),
    Cmd.mapList (fun x => do return (← makeGensym "or", x)) xs s =
      (.ok (txs.map fun p => (.sym p.1, p.2)), s') ∧ s.Expands s' xs.length ∧
      txs.map (·.1) = temporaries "or" s.gensymCounter xs.length
  | [], s => ⟨[], s, rfl, .refl s, rfl⟩
  | x :: xs, s => by
    obtain ⟨s₁, hsym, h₁⟩ := makeGensym_spec "or" s
    obtain ⟨txs, s₂, htxs, h₂, hnames⟩ := orTemps_spec xs s₁
    refine ⟨(temporary "or" (s.gensymCounter + 1), x) :: txs, s₂, ?_, ?_, ?_⟩
    · unfold Cmd.mapList
      rw [Cmd.bind_run_ok (Cmd.bind_run_ok hsym _), Cmd.bind_run_ok htxs]
      rfl
    · rw [List.length_cons, Nat.add_comm]
      exact h₁.trans h₂
    · rw [List.map_cons, List.length_cons, temporaries_succ, hnames, h₁.counter]

theorem orForms_spec : ∀ (txs : List (String × Value)) (last : Value) (s : Data X), ∃ v s',
    orForms (txs.map fun p => (.sym p.1, p.2)) last s = (.ok v, s') ∧ s.MorePairs s' ∧
      s'.Nested last v (txs.map (·.1))
  | [], last, s => ⟨last, s, rfl, .refl s, .last⟩
  | (t, x) :: txs, last, s => by
    obtain ⟨out, s₁, hout, h₁, hnested⟩ := orForms_spec txs last s
    obtain ⟨v, s₂, hv, h₂, hstep⟩ := bindTest_spec t x (.sym t) out s₁
    refine ⟨v, s₂, ?_, h₁.trans h₂, hstep hnested⟩
    rw [List.map_cons]
    unfold orForms
    rw [Cmd.bind_run_ok hout, hv]

/-- **`or`** binds a name for each operand but the last. -/
theorem expandOr_spec {form head : Value} {xs : List Value}
    (hform : s.IsList form (head :: xs)) : ∃ v last s', expandOr form s = (.ok v, s') ∧
      s.Expands s' (xs.length - 1) ∧
      s'.Nested last v (temporaries "or" s.gensymCounter (xs.length - 1)) := by
  obtain ⟨a, rest, rfl, hp, hxs⟩ := hform
  have hlist := listToVector_of_isList "or" hxs
  rcases List.eq_nil_or_concat xs with rfl | ⟨ys, last, rfl⟩
  · refine ⟨.bool false, .bool false, s, ?_, .refl s, .last⟩
    unfold expandOr
    rw [Cmd.bind_run_ok (cdr_pair hp), Cmd.bind_run_ok hlist]
    rfl
  · obtain ⟨txs, s₁, htxs, h₁, hnames⟩ := orTemps_spec ys s
    obtain ⟨v, s₂, hv, h₂, hnested⟩ := orForms_spec txs last s₁
    have hlen : (ys.concat last).length - 1 = ys.length := by
      rw [List.length_concat, Nat.add_sub_cancel]
    rw [hlen]
    refine ⟨v, last, s₂, ?_, h₁.trans h₂.expands, hnames ▸ hnested⟩
    unfold expandOr
    rw [Cmd.bind_run_ok (cdr_pair hp), Cmd.bind_run_ok hlist, List.concat_eq_append,
      List.getLast?_concat, List.dropLast_concat]
    dsimp only
    rw [Cmd.bind_run_ok htxs, hv]

/-! ### `cond` -/

/-- Some names have been generated. -/
def Data.count (s : Data X) (k : ℕ) : Data X := { s with gensymCounter := s.gensymCounter + k }

theorem Data.expands_count (s : Data X) (k : ℕ) : s.Expands (s.count k) k :=
  ⟨[], by rw [List.append_nil]; rfl⟩

/-- An `else` clause. -/
def Data.isElse (s : Data X) : Value → Bool
  | .pair a => (s.pairOf a).1 == .sym "else"
  | _ => false

/-- A clause that is only a test, or that has `=>`: it needs the value of its
test. -/
def Data.keepsTest (s : Data X) : Value → Bool
  | .pair a =>
    match (s.pairOf a).2 with
    | .nil => true
    | .pair b => (s.pairOf b).1 == .sym "=>"
    | _ => false
  | _ => false

/-- How many clauses before the `else` need the value of their test. -/
def Data.keptTests (s : Data X) : List Value → ℕ
  | [] => 0
  | cl :: cls =>
    if s.isElse cl then 0 else (if s.keepsTest cl then 1 else 0) + s.keptTests cls

theorem keptTests_count (s : Data X) (k : ℕ) : ∀ xs, (s.count k).keptTests xs = s.keptTests xs
  | [] => rfl
  | cl :: cls => by
    unfold Data.keptTests
    rw [keptTests_count s k cls]
    rfl

/-- **What is read of a clause.** -/
theorem condClause_eq_ok {cl : Value} {c : CondClause} (h : condClause cl s = (.ok c, s')) :
    c.isElse = s.isElse cl ∧
      ((c.temp = none ∧ s' = s ∧ (s.isElse cl = true ∨ s.keepsTest cl = false)) ∨
        (c.temp = some (.sym (temporary "cond" (s.gensymCounter + 1))) ∧ s' = s.count 1 ∧
          s.isElse cl = false ∧ s.keepsTest cl = true)) := by
  unfold condClause at h
  dsimp only at h
  split at h
  · cases (Prod.mk.inj h).1
  rename_i hcl
  obtain ⟨a, rfl⟩ := exists_pair_of_not hcl
  rw [Cmd.bind_run_ok (asPair_run a s)] at h
  split at h
  · rename_i helse
    obtain ⟨rfl, rfl⟩ := eq_of_pure_ok h
    have hfound : s.isElse (.pair a) = true := beq_iff_eq.mpr helse
    exact ⟨hfound.symm, .inl ⟨rfl, rfl, .inl hfound⟩⟩
  rename_i helse
  have hother : s.isElse (.pair a) = false := beq_eq_false_iff_ne.mpr helse
  rw [hother]
  split at h
  · rename_i hbody
    obtain ⟨rfl, rfl⟩ := eq_of_pure_ok h
    refine ⟨rfl, .inr ⟨rfl, rfl, rfl, ?_⟩⟩
    unfold Data.keepsTest
    dsimp only
    rw [hbody]
  rename_i hbody
  split at h
  · rename_i hatom
    obtain ⟨rfl, rfl⟩ := eq_of_pure_ok h
    refine ⟨rfl, .inl ⟨rfl, rfl, .inr ?_⟩⟩
    unfold Data.keepsTest
    dsimp only
    split
    · exact absurd ‹_› hbody
    · rename_i b hb
      rw [hb] at hatom
      cases hatom
    · rfl
  rename_i hpair
  obtain ⟨b, hb⟩ := exists_pair_of_not hpair
  have hkeeps : s.keepsTest (.pair a) = ((s.pairOf b).1 == .sym "=>") := by
    unfold Data.keepsTest
    dsimp only
    rw [hb]
  rw [hb, Cmd.bind_run_ok (car_run b s)] at h
  split at h
  · rename_i harrow
    obtain ⟨rfl, rfl⟩ := eq_of_pure_ok h
    exact ⟨rfl, .inl ⟨rfl, rfl, .inr (hkeeps.trans (beq_eq_false_iff_ne.mpr harrow))⟩⟩
  rename_i harrow
  rw [Cmd.bind_run_ok (cdr_run b s)] at h
  -- one expression has to follow the arrow
  split at h
  swap
  · cases (Prod.mk.inj h).1
  obtain ⟨alone, s₁, halone, h⟩ := exists_of_bind_ok h
  have hreads : Cmd.Reads (do return (← cdr (s.pairOf b).2) == .nil : DataM X Bool) :=
    (reads_cdr _).bind fun _ => .pure
  have hs₁ : s₁ = s := by rw [← hreads s, halone]
  rw [hs₁] at h
  split at h
  · cases (Prod.mk.inj h).1
  obtain ⟨recv, s₂, hrecv, h⟩ := exists_of_bind_ok h
  have hs₂ : s₂ = s := by rw [← reads_car (s.pairOf b).2 s, hrecv]
  rw [hs₂] at h
  obtain ⟨rfl, rfl⟩ := eq_of_pure_ok h
  exact ⟨rfl, .inr ⟨rfl, rfl, rfl, hkeeps.trans (beq_iff_eq.mpr (not_not.mp harrow))⟩⟩

/-- An `else` clause is the last one, and it has no temporary. -/
def ElseLast : List CondClause → Prop
  | [] => True
  | c :: cs => (c.isElse = true → cs = [] ∧ c.temp = none) ∧ ElseLast cs

theorem condClauses_eq_ok {clauses : Value} : ∀ {fuel : ℕ} {xs : List Value} {cur : Value} {s s' : Data X}
    {cs : List CondClause}, s.IsList cur xs → condClauses clauses fuel cur s = (.ok cs, s') →
      s' = s.count (s.keptTests xs) ∧ ElseLast cs ∧ cs.any (·.isElse) = xs.any s.isElse ∧
        cs.filterMap (·.temp) =
          (temporaries "cond" s.gensymCounter (s.keptTests xs)).map .sym
  | 0, _, _, _, _, _, _, h => by cases (Prod.mk.inj h).1
  | fuel + 1, [], cur, s, s', cs, hcur, h => by
    obtain rfl : cur = .nil := hcur
    obtain ⟨rfl, rfl⟩ := eq_of_pure_ok h
    exact ⟨rfl, trivial, rfl, rfl⟩
  | fuel + 1, cl :: xs, cur, s, s', cs, hcur, h => by
    obtain ⟨a, rest, rfl, hp, hrest⟩ := hcur
    unfold condClauses at h
    dsimp only at h
    rw [if_neg (by simp), if_neg (show ¬ (!isPair (.pair a)) = true from Bool.false_ne_true),
      Cmd.bind_run_ok (asPair_pair hp)] at h
    obtain ⟨c, s₁, hc, h⟩ := exists_of_bind_ok h
    obtain ⟨helse, htemp⟩ := condClause_eq_ok hc
    unfold Data.keptTests
    split at h
    · -- what is behind the `else` is never read
      rename_i hiselse
      obtain ⟨rfl, rfl⟩ := eq_of_pure_ok h
      rw [hiselse] at helse
      rw [if_pos helse.symm]
      rcases htemp with ⟨hnone, rfl, -⟩ | ⟨-, -, hother, -⟩
      · refine ⟨rfl, ⟨fun _ => ⟨rfl, hnone⟩, trivial⟩, ?_, ?_⟩
        · rw [List.any_cons, List.any_cons, hiselse, ← helse, Bool.true_or, Bool.true_or]
        · rw [List.filterMap_cons_none hnone]
          rfl
      · cases hother.symm.trans helse.symm
    · rename_i hiselse
      obtain ⟨cs', s₂, hcs, h⟩ := exists_of_bind_ok h
      obtain ⟨rfl, rfl⟩ := eq_of_pure_ok h
      have hother : s.isElse cl = false := by
        rw [← helse]
        exact Bool.not_eq_true _ ▸ hiselse
      rw [if_neg (show ¬ s.isElse cl = true from Bool.not_eq_true _ ▸ hother)]
      rcases htemp with ⟨hnone, hs₁, hkeeps⟩ | ⟨hsome, hs₁, -, hkeeps⟩ <;> rw [hs₁] at hcs
      · have hkeeps' : s.keepsTest cl = false := hkeeps.resolve_left (by simp [hother])
        obtain ⟨rfl, hlast, hany, htemps⟩ := condClauses_eq_ok hrest hcs
        rw [hkeeps', if_neg Bool.false_ne_true, Nat.zero_add, List.filterMap_cons_none hnone]
        refine ⟨rfl, ⟨fun h => absurd h hiselse, hlast⟩, ?_, htemps⟩
        rw [List.any_cons, List.any_cons, hany, helse]
      · obtain ⟨rfl, hlast, hany, htemps⟩ :=
          condClauses_eq_ok ((s.expands_count 1).grows.isList hrest) hcs
        rw [keptTests_count] at htemps ⊢
        rw [hkeeps, if_pos rfl, List.filterMap_cons_some hsome, htemps, Nat.add_comm,
          temporaries_succ]
        refine ⟨?_, ⟨fun h => absurd h hiselse, hlast⟩, ?_, rfl⟩
        · unfold Data.count
          rw [Nat.add_assoc, Nat.add_comm 1]
        · rw [List.any_cons, List.any_cons, hany, helse]
          rfl

/-! Commands that have succeeded. -/

theorem eq_of_reads {α : Type} {m : DataM X α} {a : α} (hm : Cmd.Reads m)
    (h : m s = (.ok a, s')) : s = s' := by
  rw [← hm s, h]

theorem listFrom_eq_ok {xs : List Value} {v : Value} (h : listFrom xs s = (.ok v, s')) :
    s.MorePairs s' ∧ s'.IsList v xs := by
  obtain ⟨v', s₁, hrun, hmore, hlist⟩ := listFrom_spec xs s
  obtain ⟨hv, rfl⟩ := Prod.mk.inj (hrun.symm.trans h)
  obtain rfl := Except.ok.inj hv
  exact ⟨hmore, hlist⟩

theorem makeBeginForm_eq_ok {forms : List Value} {v : Value}
    (h : makeBeginForm forms s = (.ok v, s')) : s.MorePairs s' := by
  obtain ⟨v', s₁, hrun, hmore, -⟩ := makeBeginForm_spec forms s
  obtain ⟨-, rfl⟩ := Prod.mk.inj (hrun.symm.trans h)
  exact hmore

/-- The clauses, from the last one on. -/
theorem condForms_eq_ok : ∀ {cs : List CondClause} {names : List String} {v : Value}
    {s s' : Data X}, ElseLast cs → cs.filterMap (·.temp) = names.map .sym →
      condForms cs s = (.ok v, s') → ∃ last, s.MorePairs s' ∧ s'.Nested last v names
  | [], names, v, s, s', _, hnames, h => by
    obtain ⟨rfl, rfl⟩ := eq_of_pure_ok h
    obtain rfl := List.map_eq_nil_iff.mp hnames.symm
    exact ⟨_, .refl s, .last⟩
  | c :: cs, names, v, s, s', hlast, hnames, h => by
    unfold condForms at h
    obtain ⟨out, s₁, hout, h⟩ := exists_of_bind_ok h
    split at h
    · rename_i helse
      obtain ⟨rfl, hnone⟩ := hlast.1 helse
      rw [List.filterMap_cons_none hnone] at hnames
      obtain rfl := List.map_eq_nil_iff.mp hnames.symm
      obtain ⟨-, rfl⟩ := eq_of_pure_ok hout
      obtain ⟨forms, s₂, hforms, h⟩ := exists_of_bind_ok h
      obtain rfl := eq_of_reads (reads_listToVector _ _) hforms
      exact ⟨v, makeBeginForm_eq_ok h, .last⟩
    cases htemp : c.temp with
    | some t =>
      rw [htemp] at h
      rw [List.filterMap_cons_some htemp] at hnames
      obtain ⟨name, names', rfl, rfl, htail⟩ := List.map_eq_cons_iff.mp hnames.symm
      obtain ⟨last, h₁, hnested⟩ := condForms_eq_ok hlast.2 htail.symm hout
      -- what is done with the value of the test makes no difference
      have hbound : ∀ {thenE : Value} {s₂ : Data X}, s₁.MorePairs s₂ → (do
          let binding ← listFrom [← listFrom [.sym name, c.test]]
          listFrom [.sym "let", binding, ← listFrom [.sym "if", .sym name, thenE, out]]) s₂ =
            (.ok v, s') → ∃ last, s.MorePairs s' ∧ s'.Nested last v (name :: names') := by
        intro thenE s₂ h₂ hrun
        obtain ⟨v', s₃, hv, h₃, hstep⟩ := bindTest_spec name c.test thenE out s₂
        obtain ⟨hv', rfl⟩ := Prod.mk.inj (hv.symm.trans hrun)
        obtain rfl := Except.ok.inj hv'
        exact ⟨last, (h₁.trans h₂).trans h₃, hstep (h₂.grows.nested hnested)⟩
      cases hrecv : c.recv with
      | some r =>
        rw [hrecv] at h
        obtain ⟨thenE, s₂, hthen, h⟩ := exists_of_bind_ok h
        exact hbound (listFrom_eq_ok hthen).1 h
      | none =>
        rw [hrecv] at h
        dsimp only at h
        rw [Cmd.pure_bind_eq] at h
        exact hbound (.refl s₁) h
    | none =>
      rw [htemp] at h
      rw [List.filterMap_cons_none htemp] at hnames
      obtain ⟨last, h₁, hnested⟩ := condForms_eq_ok hlast.2 hnames hout
      obtain ⟨forms, s₂, hforms, h⟩ := exists_of_bind_ok h
      obtain rfl := eq_of_reads (reads_listToVector _ _) hforms
      obtain ⟨body, s₃, hbody, h⟩ := exists_of_bind_ok h
      have h₃ := makeBeginForm_eq_ok hbody
      obtain ⟨h₄, hlist⟩ := listFrom_eq_ok h
      exact ⟨last, (h₁.trans h₃).trans h₄, .test hlist ((h₃.trans h₄).grows.nested hnested)⟩

/-- **`cond`** binds a name for each clause that needs the value of its
test. -/
theorem expandCond_eq_ok {form head v : Value} {xs : List Value}
    (hform : s.IsList form (head :: xs)) (h : expandCond form s = (.ok v, s')) :
    ∃ last, s.Expands s' (s.keptTests xs) ∧
      s'.Nested last v (temporaries "cond" s.gensymCounter (s.keptTests xs)) := by
  obtain ⟨a, rest, rfl, hp, hxs⟩ := hform
  unfold expandCond at h
  rw [Cmd.bind_run_ok (cdr_pair hp)] at h
  obtain ⟨s₀, s₀', hstate, h⟩ := exists_of_bind_ok h
  obtain ⟨rfl, rfl⟩ : s = s₀ ∧ s = s₀' := ⟨Except.ok.inj (Prod.mk.inj hstate).1, (Prod.mk.inj hstate).2⟩
  obtain ⟨cs, s₁, hcs, h⟩ := exists_of_bind_ok h
  obtain ⟨rfl, hlast, -, htemps⟩ := condClauses_eq_ok hxs hcs
  obtain ⟨last, hmore, hnested⟩ := condForms_eq_ok hlast htemps h
  exact ⟨last, (s.expands_count _).trans hmore.expands, hnested⟩

/-! ### `case` and `do` -/

theorem morePairs_caseClause {t cl c : Value} (h : caseClause t cl s = (.ok c, s')) :
    s.MorePairs s' := by
  unfold caseClause at h
  dsimp only at h
  split at h
  · cases (Prod.mk.inj h).1
  obtain ⟨p, s₁, hp, h⟩ := exists_of_bind_ok h
  obtain rfl := eq_of_reads (reads_asPair _) hp
  have hrest : ∀ {test : Value} {s₂ : Data X}, s.MorePairs s₂ → (do
      listFrom (test :: (← listToVector p.2 "case"))) s₂ = (.ok c, s') → s.MorePairs s' := by
    intro test s₂ h₂ hrun
    obtain ⟨forms, s₃, hforms, hrun⟩ := exists_of_bind_ok hrun
    obtain rfl := eq_of_reads (reads_listToVector _ _) hforms
    exact h₂.trans (listFrom_eq_ok hrun).1
  split at h
  · exact hrest (.refl _) h
  · obtain ⟨test, s₂, htest, h⟩ := exists_of_bind_ok h
    obtain ⟨quoted, s₃, hquoted, htest⟩ := exists_of_bind_ok htest
    exact hrest ((listFrom_eq_ok hquoted).1.trans (listFrom_eq_ok htest).1) h

theorem morePairs_caseClauses {t clauses : Value} : ∀ {fuel : ℕ} {cur : Value} {cs : List Value}
    {s s' : Data X}, caseClauses t clauses fuel cur s = (.ok cs, s') → s.MorePairs s'
  | 0, _, _, _, _, h => by cases (Prod.mk.inj h).1
  | fuel + 1, cur, cs, s, s', h => by
    unfold caseClauses at h
    dsimp only at h
    split at h
    · obtain ⟨-, rfl⟩ := eq_of_pure_ok h
      exact .refl _
    split at h
    · cases (Prod.mk.inj h).1
    obtain ⟨p, s₁, hp, h⟩ := exists_of_bind_ok h
    obtain rfl := eq_of_reads (reads_asPair _) hp
    obtain ⟨c, s₂, hc, h⟩ := exists_of_bind_ok h
    obtain ⟨cs', s₃, hcs, h⟩ := exists_of_bind_ok h
    obtain ⟨-, rfl⟩ := eq_of_pure_ok h
    exact (morePairs_caseClause hc).trans (morePairs_caseClauses hcs)

/-- **`case`** binds one name, to the key. -/
theorem expandCase_eq_ok {form v : Value} (h : expandCase form s = (.ok v, s')) :
    s.Expands s' 1 ∧ s'.BindsOne v (temporary "case" (s.gensymCounter + 1)) := by
  unfold expandCase at h
  obtain ⟨rest, s₁, hrest, h⟩ := exists_of_bind_ok h
  obtain rfl := eq_of_reads (reads_cdr _) hrest
  obtain ⟨u, s₁, hcheck, h⟩ := exists_of_bind_ok h
  obtain rfl := eq_of_reads (reads_checkArity _ _ _ _) hcheck
  obtain ⟨key, s₁, hkey, h⟩ := exists_of_bind_ok h
  obtain rfl := eq_of_reads (reads_car _) hkey
  obtain ⟨clauses, s₁, hclauses, h⟩ := exists_of_bind_ok h
  obtain rfl := eq_of_reads (reads_cdr _) hclauses
  obtain ⟨s₂, hsym, h₂⟩ := makeGensym_spec "case" s
  rw [Cmd.bind_run_ok hsym] at h
  obtain ⟨s₃, s₃', hstate, h⟩ := exists_of_bind_ok h
  obtain ⟨rfl, rfl⟩ : s₂ = s₃ ∧ s₂ = s₃' :=
    ⟨Except.ok.inj (Prod.mk.inj hstate).1, (Prod.mk.inj hstate).2⟩
  obtain ⟨cs, s₄, hcs, h⟩ := exists_of_bind_ok h
  have h₄ := morePairs_caseClauses hcs
  obtain ⟨b, s₅, hb, h⟩ := exists_of_bind_ok h
  obtain ⟨h₅, hlist₅⟩ := listFrom_eq_ok hb
  obtain ⟨bs, s₆, hbs, h⟩ := exists_of_bind_ok h
  obtain ⟨h₆, hlist₆⟩ := listFrom_eq_ok hbs
  obtain ⟨l, s₇, hl, h⟩ := exists_of_bind_ok h
  have h₇ := (listFrom_eq_ok hl).1
  obtain ⟨body, s₈, hbody, h⟩ := exists_of_bind_ok h
  obtain ⟨c, s₈', hrun, h₈, -⟩ := makePair_spec (.sym "cond") l s₇
  obtain ⟨-, rfl⟩ := Prod.mk.inj (hrun.symm.trans hbody)
  obtain ⟨h₉, hlist₉⟩ := listFrom_eq_ok h
  have hmore := ((h₆.trans h₇).trans h₈).trans h₉
  refine ⟨h₂.trans ((h₄.trans h₅).trans hmore).expands, "let", bs, b, key, body, hlist₉, .inl rfl,
    ((h₇.trans h₈).trans h₉).grows.isList hlist₆, hmore.grows.isList hlist₅⟩

/-- **`do`** binds one name, to the loop procedure. -/
theorem expandDo_eq_ok {form v : Value} (h : expandDo form s = (.ok v, s')) :
    s.Expands s' 1 ∧ s'.BindsOne v (temporary "loop" (s.gensymCounter + 1)) := by
  unfold expandDo at h
  dsimp only at h
  obtain ⟨rest, s₁, hrest, h⟩ := exists_of_bind_ok h
  obtain rfl := eq_of_reads (reads_cdr _) hrest
  obtain ⟨u, s₁, hcheck, h⟩ := exists_of_bind_ok h
  obtain rfl := eq_of_reads (reads_checkArity _ _ _ _) hcheck
  obtain ⟨varForm, s₁, hvar, h⟩ := exists_of_bind_ok h
  obtain rfl := eq_of_reads (reads_car _) hvar
  obtain ⟨d, s₁, hd, h⟩ := exists_of_bind_ok h
  obtain rfl := eq_of_reads (reads_cdr _) hd
  obtain ⟨testForm, s₁, htest, h⟩ := exists_of_bind_ok h
  obtain rfl := eq_of_reads (reads_car _) htest
  obtain ⟨d', s₁, hd', h⟩ := exists_of_bind_ok h
  obtain rfl := eq_of_reads (reads_cdr _) hd'
  obtain ⟨body, s₁, hbody, h⟩ := exists_of_bind_ok h
  obtain rfl := eq_of_reads (reads_cdr _) hbody
  split at h
  · cases (Prod.mk.inj h).1
  obtain ⟨vs, s₁, hvs, h⟩ := exists_of_bind_ok h
  obtain rfl := eq_of_reads (reads_listToVector _ _) hvs
  obtain ⟨specs, s₁, hspecs, h⟩ := exists_of_bind_ok h
  obtain rfl := eq_of_reads (.mapList reads_doSpec vs) hspecs
  obtain ⟨s₁, hsym, h₁⟩ := makeGensym_spec "loop" s
  rw [Cmd.bind_run_ok hsym] at h
  obtain ⟨elseSeq, s₂, helse, h⟩ := exists_of_bind_ok h
  obtain rfl := eq_of_reads (reads_listToVector _ _) helse
  obtain ⟨recur, s₂, hrecur, h⟩ := exists_of_bind_ok h
  have h₂ := (listFrom_eq_ok hrecur).1
  obtain ⟨d'', s₃, hd'', h⟩ := exists_of_bind_ok h
  obtain rfl := eq_of_reads (reads_cdr _) hd''
  obtain ⟨results, s₃, hresults, h⟩ := exists_of_bind_ok h
  obtain rfl := eq_of_reads (reads_listToVector _ _) hresults
  obtain ⟨result, s₃, hresult, h⟩ := exists_of_bind_ok h
  have h₃ := makeBeginForm_eq_ok hresult
  obtain ⟨test, s₄, htest, h⟩ := exists_of_bind_ok h
  obtain rfl := eq_of_reads (reads_car _) htest
  obtain ⟨again, s₄, hagain, h⟩ := exists_of_bind_ok h
  have h₄ := makeBeginForm_eq_ok hagain
  obtain ⟨ifExpr, s₅, hif, h⟩ := exists_of_bind_ok h
  have h₅ := (listFrom_eq_ok hif).1
  obtain ⟨vars, s₆, hvars, h⟩ := exists_of_bind_ok h
  have h₆ := (listFrom_eq_ok hvars).1
  obtain ⟨lam, s₇, hlam, h⟩ := exists_of_bind_ok h
  have h₇ := (listFrom_eq_ok hlam).1
  obtain ⟨b, s₈, hb, h⟩ := exists_of_bind_ok h
  obtain ⟨h₈, hlist₈⟩ := listFrom_eq_ok hb
  obtain ⟨bs, s₉, hbs, h⟩ := exists_of_bind_ok h
  obtain ⟨h₉, hlist₉⟩ := listFrom_eq_ok hbs
  obtain ⟨call, s₁₀, hcall, h⟩ := exists_of_bind_ok h
  have h₁₀ := (listFrom_eq_ok hcall).1
  obtain ⟨h₁₁, hlist₁₁⟩ := listFrom_eq_ok h
  have hmore := ((((h₂.trans h₃).trans h₄).trans h₅).trans h₆).trans h₇
  refine ⟨h₁.trans (hmore.trans ((h₈.trans h₉).trans (h₁₀.trans h₁₁))).expands, "letrec", bs, b,
    lam, call, hlist₁₁, .inr rfl, (h₁₀.trans h₁₁).grows.isList hlist₉, ?_⟩
  exact (h₉.trans (h₁₀.trans h₁₁)).grows.isList hlist₈

end Scheme14
