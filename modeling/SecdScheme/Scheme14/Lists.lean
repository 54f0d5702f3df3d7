import SecdScheme.Scheme14.Syntax
import SecdScheme.Lib.CmdGhost
import Mathlib.Data.List.Perm.Subperm

/-!
# scheme14: lists in the tables

The walks only read, so that what one of them found the next one finds too:
a form whose number of arguments has been checked has that many. And they find
what is there: the two pointers never meet on a list that ends, because what
is left of it tells any two of its pairs apart.
-/

namespace Scheme14

variable {X : Type} {s s' s'' : Data X}

/-! ## Commands of the tables -/

/-- The tables of a world are replaced. -/
def World.withData (w : World X) (s : Data X) : World X := { w with data := s }

@[simp] theorem World.withData_data (w : World X) (s : Data X) : (w.withData s).data = s := rfl

@[simp] theorem World.withData_compileTable (w : World X) (s : Data X) :
    (w.withData s).compileTable = w.compileTable := rfl

/-- A function on data, in a world. -/
theorem onData_run {α : Type} {m : DataM X α} {w : World X} {a : α} (h : m w.data = (.ok a, s')) :
    onData m w = (.ok a, w.withData s') := by
  unfold onData
  rw [h]
  rfl

/-- A command that has only read the tables. -/
theorem onData_run_same {α : Type} {m : DataM X α} {w : World X} {a : α}
    (h : m w.data = (.ok a, w.data)) :
    onData m w = (.ok a, w) :=
  onData_run h

/-- What reads the data reads the world. -/
theorem reads_onData {α : Type} {m : DataM X α} (h : Cmd.Reads m) : Cmd.Reads (onData m) := by
  intro w
  unfold onData
  rw [h w.data]

/-- What it returned and left. -/
theorem onData_eq_ok {α : Type} {m : DataM X α} {w w' : World X} {a : α}
    (h : onData m w = (.ok a, w')) :
    m w.data = (.ok a, w'.data) := by
  obtain ⟨hfst, hsnd⟩ := Prod.mk.inj h
  exact Prod.ext hfst (congrArg World.data hsnd)

/-! ## Walks -/

theorem reads_asPair (v : Value) : Cmd.Reads (asPair v : DataM X _) := by
  intro s
  unfold asPair
  split <;> rfl

theorem reads_car (v : Value) : Cmd.Reads (car v : DataM X _) :=
  (reads_asPair v).bind fun _ => .pure

theorem reads_cdr (v : Value) : Cmd.Reads (cdr v : DataM X _) :=
  (reads_asPair v).bind fun _ => .pure

/-- A walk along a list writes nothing. -/
theorem reads_walkPairs : ∀ (fuel : ℕ) (slow fast : Value),
    Cmd.Reads (walkPairs fuel slow fast : DataM X _)
  | 0, _, _ => .fail
  | fuel + 1, slow, fast => by
    unfold walkPairs
    refine .ite .pure ((reads_asPair _).bind fun p => .ite .pure ?_)
    refine (reads_asPair _).bind fun q => (reads_cdr _).bind fun slow' => .ite .pure ?_
    exact (reads_walkPairs fuel slow' q.2).bind fun _ => .pure

theorem reads_walkList (ls : Value) : Cmd.Reads (walkList ls : DataM X _) :=
  Cmd.Reads.getState.bind fun _ => reads_walkPairs _ ls ls

theorem reads_formArity (rest : Value) : Cmd.Reads (formArity rest : DataM X _) := by
  refine (reads_walkList rest).bind fun r => ?_
  split <;> exact .pure

theorem reads_listToVector (ls : Value) (who : String) :
    Cmd.Reads (listToVector ls who : DataM X _) := by
  refine (reads_walkList ls).bind fun r => ?_
  split
  · exact .fail
  · exact .pure
  · exact .fail

theorem reads_syntaxError {α : Type} (form : String) (what : Message) :
    Cmd.Reads (syntaxError form what : DataM X α) := .fail

theorem reads_checkArity (form : String) (rest : Value) (minArgs maxArgs : ℕ) :
    Cmd.Reads (checkArity form rest minArgs maxArgs : DataM X _) := by
  refine (reads_formArity rest).bind fun r => ?_
  split
  · exact reads_syntaxError _ _
  · exact .ite (reads_syntaxError _ _) .pure

theorem reads_extractParamsFrom : ∀ (fuel : ℕ) (params : Value),
    Cmd.Reads (extractParamsFrom fuel params : DataM X _)
  | 0, _ => .fail
  | fuel + 1, params => by
    unfold extractParamsFrom
    split
    · exact .pure
    · exact .pure
    · refine (reads_asPair _).bind fun p => ?_
      split
      · exact (reads_extractParamsFrom fuel p.2).bind fun _ => .pure
      · exact .pure
    · exact .pure

theorem reads_extractParams (params : Value) : Cmd.Reads (extractParams params : DataM X _) :=
  Cmd.Reads.getState.bind fun _ => reads_extractParamsFrom _ params

/-- The elements of a proper list, as the walk finds them. -/
theorem listToVector_eq_ok {ls : Value} {who : String} {xs : List Value}
    (h : listToVector ls who s = (.ok xs, s')) :
    (walkList ls s).1 = .ok (some (xs, .nil)) := by
  obtain ⟨r, s₁, hwalk, h⟩ := Cmd.exists_of_bind_ok h
  rw [hwalk]
  split at h
  · exact absurd (Prod.mk.inj h).1 nofun
  · rw [Except.ok.inj (Prod.mk.inj h).1]
  · exact absurd (Prod.mk.inj h).1 nofun

/-- The arity is the number of elements. -/
theorem formArity_of_walk {rest : Value} {xs : List Value}
    (h : (walkList rest s).1 = .ok (some (xs, .nil))) :
    formArity rest s = (.ok (some xs.length), s) := by
  have hwalk : walkList rest s = (.ok (some (xs, .nil)), s) :=
    Prod.ext h (reads_walkList rest s)
  unfold formArity
  rw [Cmd.bind_run_ok hwalk]
  rfl

/-- **A checked number of arguments** is the length of the list. -/
theorem length_of_checkArity {form who : String} {rest : Value} {minArgs maxArgs : ℕ}
    {xs : List Value} (hcheck : checkArity form rest minArgs maxArgs s = (.ok (), s'))
    (hlist : listToVector rest who s = (.ok xs, s'')) :
    minArgs ≤ xs.length ∧ (maxArgs ≠ 0 → xs.length ≤ maxArgs) := by
  have harity := formArity_of_walk (listToVector_eq_ok hlist)
  unfold checkArity at hcheck
  rw [Cmd.bind_run_ok harity] at hcheck
  dsimp only at hcheck
  split at hcheck
  · exact absurd (Prod.mk.inj hcheck).1 nofun
  · omega

/-! ## Lists that end -/

/-- **The elements of a list, and what is behind them.** -/
def Data.ListTo (s : Data X) (tail v : Value) : List Value → Prop
  | [] => v = tail
  | x :: xs => ∃ a d, v = .pair a ∧ s.pairs[a]? = some (x, d) ∧ s.ListTo tail d xs

/-- The elements of a proper list. -/
def Data.IsList (s : Data X) (v : Value) (xs : List Value) : Prop := s.ListTo .nil v xs

/-- What is no pair has no elements. -/
theorem Data.ListTo.eq_nil {tail v : Value} {xs : List Value} (h : s.ListTo tail v xs)
    (hv : isPair v = false) : xs = [] ∧ v = tail := by
  cases xs with
  | nil => exact ⟨rfl, h⟩
  | cons x xs =>
    obtain ⟨a, d, rfl, -⟩ := h
    cases hv

/-- **What is left of a list** is told by where one is. -/
theorem Data.ListTo.unique {tail : Value} (htail : isPair tail = false) {v : Value}
    {xs ys : List Value} (hx : s.ListTo tail v xs) (hy : s.ListTo tail v ys) : xs = ys := by
  induction xs generalizing v ys with
  | nil =>
    obtain rfl : v = tail := hx
    exact (hy.eq_nil htail).1.symm
  | cons x xs ih =>
    obtain ⟨a, d, rfl, hp, hxs⟩ := hx
    cases ys with
    | nil =>
      obtain rfl : Value.pair a = tail := hy
      cases htail
    | cons y ys =>
      obtain ⟨a', d', ha, hp', hys⟩ := hy
      obtain rfl := Value.pair.inj ha
      obtain ⟨rfl, rfl⟩ := Prod.mk.inj (Option.some.inj (hp.symm.trans hp'))
      rw [ih hxs hys]

/-- The fields of a pair that is there. -/
theorem asPair_pair {a : ℕ} {p : Value × Value} (h : s.pairs[a]? = some p) :
    asPair (.pair a) s = (.ok p, s) := by
  unfold asPair
  dsimp only
  rw [h]
  rfl

theorem car_pair {a : ℕ} {p : Value × Value} (h : s.pairs[a]? = some p) :
    car (.pair a) s = (.ok p.1, s) := by
  unfold car
  rw [Cmd.bind_run_ok (asPair_pair h)]
  rfl

theorem cdr_pair {a : ℕ} {p : Value × Value} (h : s.pairs[a]? = some p) :
    cdr (.pair a) s = (.ok p.2, s) := by
  unfold cdr
  rw [Cmd.bind_run_ok (asPair_pair h)]
  rfl

/-- **The walk along a list that ends** finds its elements. The slow pointer
has more of the list before it than the fast one. -/
theorem walkPairs_of_listTo {tail : Value} (htail : isPair tail = false) :
    ∀ (fuel : ℕ) {slow fast : Value} {behind xs : List Value},
      s.ListTo tail slow (behind ++ xs) → s.ListTo tail fast xs → xs.length < 2 * fuel →
      walkPairs fuel slow fast s = (.ok (some (xs, tail)), s)
  | 0, _, _, _, xs, _, _, hfuel => absurd hfuel (by omega)
  | fuel + 1, slow, fast, behind, xs, hslow, hfast, hfuel => by
    unfold walkPairs
    cases xs with
    | nil =>
      obtain rfl : fast = tail := hfast
      rw [htail]
      rfl
    | cons x xs =>
      obtain ⟨a, d, rfl, hp, hxs⟩ := hfast
      rw [if_neg (show ¬ (!isPair (.pair a)) = true from nofun), Cmd.bind_run_ok (asPair_pair hp)]
      cases xs with
      | nil =>
        obtain rfl : d = tail := hxs
        dsimp only
        rw [htail]
        rfl
      | cons y xs =>
        obtain ⟨b, e, rfl, hq, hxs⟩ := hxs
        rw [if_neg (show ¬ (!isPair (x, Value.pair b).2) = true from nofun),
          Cmd.bind_run_ok (asPair_pair hq)]
        -- the slow pointer is somewhere before the two pairs
        have hstep : ∃ z slow' behind', cdr slow s = (.ok slow', s) ∧ behind ++ x :: [y] =
            z :: behind' ∧ s.ListTo tail slow' (behind' ++ xs) := by
          obtain ⟨z, behind', hbehind⟩ : ∃ z behind', behind ++ x :: [y] = z :: behind' := by
            cases behind with
            | nil => exact ⟨x, [y], rfl⟩
            | cons z behind => exact ⟨z, behind ++ x :: [y], rfl⟩
          have hsplit : behind ++ x :: y :: xs = z :: (behind' ++ xs) := by
            rw [← List.cons_append, ← hbehind, List.append_assoc]
            rfl
          rw [hsplit] at hslow
          obtain ⟨c, slow', rfl, hc, hrest⟩ := hslow
          exact ⟨z, slow', behind', cdr_pair hc, hbehind, hrest⟩
        obtain ⟨z, slow', behind', hcdr, hbehind, hslow'⟩ := hstep
        rw [Cmd.bind_run_ok hcdr]
        dsimp only
        have hne : e ≠ slow' := by
          rintro rfl
          have heq := Data.ListTo.unique htail hxs hslow'
          have hlen := congrArg List.length heq
          have hlen' := congrArg List.length hbehind
          simp only [List.length_append, List.length_cons, List.length_nil] at hlen hlen'
          omega
        rw [if_neg hne]
        have ih := walkPairs_of_listTo htail fuel hslow' hxs (by
          simp only [List.length_cons] at hfuel
          omega)
        rw [Cmd.bind_run_ok ih]
        rfl

/-- The pairs of a list that ends are different pairs. -/
theorem Data.ListTo.addresses {tail : Value} (htail : isPair tail = false) {v : Value}
    {xs : List Value} (h : s.ListTo tail v xs) : ∃ as : List ℕ, as.length = xs.length ∧
      as.Nodup ∧ ∀ a ∈ as, a < s.pairs.length ∧ ∃ ys, ys.length ≤ xs.length ∧
        s.ListTo tail (.pair a) ys := by
  induction xs generalizing v with
  | nil => exact ⟨[], rfl, .nil, nofun⟩
  | cons x xs ih =>
    have hv := h
    obtain ⟨a, d, rfl, hp, hxs⟩ := h
    obtain ⟨as, hlen, hnodup, has⟩ := ih hxs
    refine ⟨a :: as, congrArg (· + 1) hlen, List.nodup_cons.mpr ⟨fun hmem => ?_, hnodup⟩, ?_⟩
    · obtain ⟨-, ys, hys, hlist⟩ := has a hmem
      have heq := Data.ListTo.unique htail hv hlist
      rw [← heq, List.length_cons] at hys
      exact Nat.not_succ_le_self _ hys
    · intro b hb
      rcases List.mem_cons.mp hb with rfl | hb
      · exact ⟨(List.getElem?_eq_some_iff.mp hp).1, x :: xs, Nat.le_refl _, hv⟩
      · obtain ⟨hlt, ys, hys, hlist⟩ := has b hb
        exact ⟨hlt, ys, Nat.le_succ_of_le hys, hlist⟩

/-- **A list has no more elements than there are pairs.** -/
theorem Data.ListTo.length_le {tail : Value} (htail : isPair tail = false) {v : Value}
    {xs : List Value} (h : s.ListTo tail v xs) : xs.length ≤ s.pairs.length := by
  obtain ⟨as, hlen, hnodup, has⟩ := h.addresses htail
  have hsub : as ⊆ List.range s.pairs.length := fun a ha => List.mem_range.mpr (has a ha).1
  have := (List.subperm_of_subset hnodup hsub).length_le
  rwa [hlen, List.length_range] at this

/-- **A list that ends is walked to its end.** -/
theorem walkList_of_listTo {tail v : Value} (htail : isPair tail = false) {xs : List Value}
    (h : s.ListTo tail v xs) : walkList v s = (.ok (some (xs, tail)), s) := by
  refine walkPairs_of_listTo htail _ (show s.ListTo tail v ([] ++ xs) from h) h ?_
  have := h.length_le htail
  omega

/-- `list_to_vector` of a proper list. -/
theorem listToVector_of_isList {v : Value} {xs : List Value} (who : String) (h : s.IsList v xs) :
    listToVector v who s = (.ok xs, s) := by
  unfold listToVector
  rw [Cmd.bind_run_ok (walkList_of_listTo rfl h)]
  rfl

/-- The arity of a proper list. -/
theorem formArity_of_isList {v : Value} {xs : List Value} (h : s.IsList v xs) :
    formArity v s = (.ok (some xs.length), s) :=
  formArity_of_walk (congrArg Prod.fst (walkList_of_listTo rfl h))

/-- `check_arity` of a proper list of a right length. -/
theorem checkArity_of_isList {form : String} {v : Value} {xs : List Value} {minArgs maxArgs : ℕ}
    (h : s.IsList v xs) (hmin : minArgs ≤ xs.length) (hmax : maxArgs = 0 ∨ xs.length ≤ maxArgs) :
    checkArity form v minArgs maxArgs s = (.ok (), s) := by
  unfold checkArity
  rw [Cmd.bind_run_ok (formArity_of_isList h)]
  dsimp only
  rw [if_neg (by omega)]
  rfl

/-! ## Tables that grow -/

/-- **The pairs that were there are still what they were.** -/
structure Data.KeepsPairs (s s' : Data X) : Prop where
  pairs : ∀ {a : ℕ} {p}, s.pairs[a]? = some p → s'.pairs[a]? = some p

theorem Data.KeepsPairs.refl (s : Data X) : s.KeepsPairs s := ⟨id⟩

theorem Data.KeepsPairs.trans (h : s.KeepsPairs s') (h' : s'.KeepsPairs s'') : s.KeepsPairs s'' :=
  ⟨fun hp => h'.pairs (h.pairs hp)⟩

/-- Tables that have grown: what was there still is. -/
structure Data.Grows (s s' : Data X) : Prop extends s.KeepsPairs s' where
  strings : ∀ {a : ℕ} {t}, s.strings[a]? = some t → s'.strings[a]? = some t
  vectors : ∀ {a : ℕ} {vs}, s.vectors[a]? = some vs → s'.vectors[a]? = some vs

theorem Data.Grows.refl (s : Data X) : s.Grows s := ⟨.refl s, id, id⟩

theorem Data.Grows.trans (h : s.Grows s') (h' : s'.Grows s'') : s.Grows s'' :=
  ⟨h.toKeepsPairs.trans h'.toKeepsPairs, fun ht => h'.strings (h.strings ht),
    fun hvs => h'.vectors (h.vectors hvs)⟩

theorem getElem?_append_of_some {α : Type} {l m : List α} {a : ℕ} {x : α} (h : l[a]? = some x) :
    (l ++ m)[a]? = some x := by
  obtain ⟨hlt, -⟩ := List.getElem?_eq_some_iff.mp h
  rw [List.getElem?_append_left hlt]
  exact h

/-- A list stays one, while pairs are only added. -/
theorem Data.KeepsPairs.listTo (h : s.KeepsPairs s') {tail v : Value} {xs : List Value}
    (hv : s.ListTo tail v xs) : s'.ListTo tail v xs := by
  induction xs generalizing v with
  | nil => exact hv
  | cons x xs ih =>
    obtain ⟨a, d, rfl, hp, hxs⟩ := hv
    exact ⟨a, d, rfl, h.pairs hp, ih hxs⟩

/-- Nothing but pairs has been made. -/
def Data.MorePairs (s s' : Data X) : Prop := ∃ ps, s' = { s with pairs := s.pairs ++ ps }

theorem Data.MorePairs.refl (s : Data X) : s.MorePairs s :=
  ⟨[], by rw [List.append_nil]⟩

theorem Data.MorePairs.trans (h : s.MorePairs s') (h' : s'.MorePairs s'') : s.MorePairs s'' := by
  obtain ⟨ps, rfl⟩ := h
  obtain ⟨ps', rfl⟩ := h'
  exact ⟨ps ++ ps', by rw [List.append_assoc]⟩

/-- Adding pairs is growth. -/
theorem Data.MorePairs.grows (h : s.MorePairs s') : s.Grows s' := by
  obtain ⟨ps, rfl⟩ := h
  exact ⟨⟨getElem?_append_of_some⟩, id, id⟩

/-- A pair is made. -/
theorem makePair_spec (a d : Value) (s : Data X) : ∃ b s', makePair a d s = (.ok (.pair b), s') ∧
    s.MorePairs s' ∧ s'.pairs[b]? = some (a, d) :=
  ⟨_, _, rfl, ⟨_, rfl⟩, List.getElem?_concat_length⟩

/-- **A list is made.** -/
theorem listFrom_spec : ∀ (xs : List Value) (s : Data X), ∃ v s', listFrom xs s = (.ok v, s') ∧
    s.MorePairs s' ∧ s'.IsList v xs
  | [], s => ⟨.nil, s, rfl, .refl s, rfl⟩
  | x :: xs, s => by
    obtain ⟨d, s₁, hd, hmore₁, hlist⟩ := listFrom_spec xs s
    obtain ⟨a, s₂, ha, hmore₂, hp⟩ := makePair_spec x d s₁
    refine ⟨.pair a, s₂, ?_, hmore₁.trans hmore₂, a, d, rfl, hp, hmore₂.grows.listTo hlist⟩
    unfold listFrom
    rw [Cmd.bind_run_ok hd, ha]

end Scheme14
