import SecdScheme.Lib.TwoPointers
import SecdScheme.Scheme14.Accessors
import SecdScheme.Scheme14.Primitives

/-!
# scheme14: the walks with two pointers

Three loops of the program go along a list with two pointers, each with its
tests in places of its own: `form_arity` counts, `list_to_vector` collects and
`is_proper_list` only answers. They come to an end on every list, and they
tell the proper lists from the others alike.
-/

namespace Scheme14

open TwoPointers

variable {X : Type} {s : Data X}

/-! ## The cells of a list -/

/-- What is behind the first element of a list. -/
def Data.next (s : Data X) : Value → Value
  | .pair a => (s.pairOf a).2
  | v => v

/-- The first element of a list. -/
def Data.head (s : Data X) : Value → Value
  | .pair a => (s.pairOf a).1
  | _ => .nil

/-- The pairs that there are. -/
def Data.cells (s : Data X) : Finset Value := (Finset.range s.pairs.length).image .pair

theorem card_cells (s : Data X) : s.cells.card ≤ s.pairs.length :=
  Finset.card_image_le.trans (Finset.card_range _).le

theorem mem_cells {v : Value} : v ∈ s.cells ↔ ∃ a < s.pairs.length, .pair a = v := by
  unfold Data.cells
  simp only [Finset.mem_image, Finset.mem_range]

/-- An address outside of the table is read as a pair of `()`. -/
theorem pairOf_of_ge {a : ℕ} (h : s.pairs.length ≤ a) : s.pairOf a = (.nil, .nil) := by
  unfold Data.pairOf
  rw [List.getElem?_eq_none h]
  rfl

theorem mem_cells_of_next {v : Value} (h : isPair (s.next v) = true) : v ∈ s.cells := by
  cases v with
  | pair a =>
    refine mem_cells.2 ⟨a, ?_, rfl⟩
    by_contra hge
    rw [Data.next, pairOf_of_ge (Nat.le_of_not_lt hge)] at h
    cases h
  | _ => cases h

theorem mem_cells_of_head {v : Value} (h : s.head v ≠ .nil) : v ∈ s.cells := by
  cases v with
  | pair a =>
    refine mem_cells.2 ⟨a, ?_, rfl⟩
    by_contra hge
    rw [Data.head, pairOf_of_ge (Nat.le_of_not_lt hge)] at h
    exact h rfl
  | _ => exact absurd rfl h

/-! ## One walk -/

/-- The first elements of a list. -/
def Data.firsts (s : Data X) : ℕ → Value → List Value
  | 0, _ => []
  | n + 1, v => s.head v :: s.firsts n (s.next v)

/-- What the walk gives, from what two pointers find. -/
def Data.walked (s : Data X) (fast : Value) :
    Option (Found Value) → Except Err (Option (List Value × Value))
  | none => .error .outOfFuel
  | some .circular => .ok none
  | some (.ended n last) => .ok (some (s.firsts n fast, last))

/-- One pointer is behind the other one, and there are pairs between them. -/
def Data.Trails (s : Data X) (slow fast : Value) : Prop :=
  ∃ lag, s.next^[lag] slow = fast ∧ ∀ j < lag, isPair (s.next^[j] slow) = true

theorem Data.Trails.refl (s : Data X) (v : Value) : s.Trails v v :=
  ⟨0, rfl, nofun⟩

theorem Data.Trails.isPair {slow fast : Value} (h : s.Trails slow fast)
    (hfast : isPair fast = true) : isPair slow = true := by
  obtain ⟨lag, hlag, hpairs⟩ := h
  cases lag with
  | zero =>
    obtain rfl : slow = fast := hlag
    exact hfast
  | succ lag => exact hpairs 0 (Nat.succ_pos lag)

/-- **A round of the walk** leaves the slow pointer behind. -/
theorem Data.Trails.step {slow fast : Value} (h : s.Trails slow fast)
    (hfast : Scheme14.isPair fast = true) (hnext : Scheme14.isPair (s.next fast) = true) :
    s.Trails (s.next slow) (s.next (s.next fast)) := by
  obtain ⟨lag, rfl, hpairs⟩ := h
  have hone : s.next (s.next^[lag] slow) = s.next^[lag + 1] slow :=
    (Function.iterate_succ_apply' s.next lag slow).symm
  have htwo : s.next (s.next^[lag + 1] slow) = s.next^[lag + 1] (s.next slow) := by
    rw [← Function.iterate_succ_apply' s.next (lag + 1) slow,
      Function.iterate_succ_apply s.next (lag + 1) slow]
  rw [hone] at hnext
  refine ⟨lag + 1, by rw [hone, htwo], fun j hj => ?_⟩
  rw [← Function.iterate_succ_apply s.next j slow]
  obtain hlt | rfl | rfl : j + 1 < lag ∨ j + 1 = lag ∨ j = lag := by omega
  · exact hpairs _ hlt
  · exact hfast
  · exact hnext

/-- **The walk of the program** is the walk of two pointers. -/
theorem walkPairs_eq : ∀ (fuel : ℕ) {slow fast : Value}, s.Trails slow fast →
    walkPairs fuel slow fast s =
      (s.walked fast (walk s.next isPair fuel slow fast), s)
  | 0, _, _, _ => rfl
  | fuel + 1, slow, fast, h => by
    unfold walkPairs walk
    cases hfast : isPair fast with
    | false => rfl
    | true =>
      obtain ⟨a, rfl⟩ := exists_pair hfast
      rw [if_neg (show ¬ (!true) = true from Bool.false_ne_true), if_pos rfl,
        Cmd.bind_run_ok (asPair_run a s)]
      have hsecond : (s.pairOf a).2 = s.next (.pair a) := rfl
      rw [hsecond]
      cases hnext : isPair (s.next (.pair a)) with
      | false => rfl
      | true =>
        have hstep := h.step hfast hnext
        obtain ⟨b, hb⟩ := exists_pair hnext
        obtain ⟨c, rfl⟩ := exists_pair (h.isPair hfast)
        rw [if_neg (show ¬ (!true) = true from Bool.false_ne_true), if_pos rfl, hb,
          Cmd.bind_run_ok (asPair_run b s), Cmd.bind_run_ok (cdr_run c s)]
        rw [hb] at hstep
        show (if s.next (.pair b) = s.next (.pair c) then _ else _ : DataM X _) s = _
        split
        · rfl
        · rw [Cmd.bind_run, show (s.pairOf c).2 = s.next (.pair c) from rfl,
            show (s.pairOf b).2 = s.next (.pair b) from rfl, walkPairs_eq fuel hstep]
          cases walk s.next isPair fuel (s.next (.pair c)) (s.next (.pair b)) with
          | none => rfl
          | some found =>
            cases found with
            | circular => rfl
            | ended n last =>
              show _ = (s.walked (.pair a) (some (.ended (n + 2) last)), s)
              unfold Data.walked
              simp only [Data.firsts]
              rw [hb]
              rfl

/-- A list that goes round. -/
abbrev Data.Circular (s : Data X) (v : Value) : Prop := GoesRound s.next isPair v

/-- Where the walk ends is a chain of the pairs that it met. -/
theorem chain_of_endsAfter : ∀ {n : ℕ} {v : Value}, EndsAfter s.next isPair v n →
    s.Chain (s.next^[n] v) v (s.firsts n v)
  | 0, _, _ => rfl
  | n + 1, v, h => by
    obtain ⟨a, rfl⟩ := exists_pair (h.1 0 (Nat.succ_pos n))
    refine ⟨a, rfl, rfl, ?_⟩
    exact chain_of_endsAfter ⟨fun j hj => h.1 (j + 1) (Nat.succ_lt_succ hj), h.2⟩

theorem endsAfter_of_chain : ∀ {xs : List Value} {tail v : Value}, isPair tail = false →
    s.Chain tail v xs →
    EndsAfter s.next isPair v xs.length ∧ s.next^[xs.length] v = tail ∧
      s.firsts xs.length v = xs
  | [], _, _, htail, h => by
    obtain rfl := h
    exact ⟨⟨nofun, htail⟩, rfl, rfl⟩
  | x :: xs, tail, _, htail, ⟨a, rfl, hx, hrest⟩ => by
    obtain ⟨hends, hlast, hfirsts⟩ := endsAfter_of_chain htail hrest
    refine ⟨⟨fun j hj => ?_, hends.2⟩, hlast, ?_⟩
    · cases j with
      | zero => rfl
      | succ j => exact hends.1 j (Nat.lt_of_succ_lt_succ hj)
    · show (s.pairOf a).1 :: s.firsts xs.length (s.pairOf a).2 = x :: xs
      rw [hx, hfirsts]

/-- **What the walk along a list gives**: the elements and what is behind them,
or that the list is circular. -/
theorem walkList_cases (s : Data X) (v : Value) :
    (∃ xs tail, s.Chain tail v xs ∧ isPair tail = false ∧
        walkList v s = (.ok (some (xs, tail)), s)) ∨
      (s.Circular v ∧ walkList v s = (.ok none, s)) := by
  have hwalk : walkList v s = (s.walked v (walk s.next isPair (s.pairs.length + 1) v v), s) :=
    walkPairs_eq _ (.refl s v)
  rw [hwalk]
  rcases walk_cases (fun _ => mem_cells_of_next) (card_cells s) v with
    ⟨n, hends, hfound⟩ | ⟨hround, hfound⟩
  · rw [hfound]
    exact .inl ⟨_, _, chain_of_endsAfter hends, hends.2, rfl⟩
  · rw [hfound]
    exact .inr ⟨hround, rfl⟩

/-! ## Three loops -/

/-- The loop of `form_arity`. -/
def arityFrom : ℕ → ℕ → Value → Value → DataM X (Option ℕ)
  | 0, _, _, _ => Cmd.fail .outOfFuel
  | fuel + 1, n, slow, fast => do
    if isPair fast then
      let n := n + 1
      let fast ← cdr fast
      if !isPair fast then return if fast ≠ .nil then none else some n
      let n := n + 1
      let fast ← cdr fast
      let slow ← cdr slow
      if fast = slow then return none
      arityFrom fuel n slow fast
    else return if fast ≠ .nil then none else some n

/-- The loop of `list_to_vector`, and the test behind it. -/
def vectorFrom (who : String) (ls : Value) : ℕ → List Value → Value → Value → DataM X (List Value)
  | 0, _, _, _ => Cmd.fail .outOfFuel
  | fuel + 1, out, slow, fast => do
    if isPair fast then
      let out := out ++ [← car fast]
      let fast ← cdr fast
      if !isPair fast then improperUnless out fast else
      let out := out ++ [← car fast]
      let fast ← cdr fast
      let slow ← cdr slow
      if fast = slow then
        errorAt (who ++
          ": wrong type of argument\n  expected: a proper list\n  given: a circular list")
      else vectorFrom who ls fuel out slow fast
    else improperUnless out fast
where
  improperUnless (out : List Value) (fast : Value) : DataM X (List Value) :=
    if fast ≠ .nil then
      errorAt (.behind (who ++ ": wrong type of argument\n  ") (expectedGiven "a proper list" ls))
    else return out

theorem reads_improperUnless (who : String) (ls : Value) (out : List Value) (fast : Value) :
    Cmd.Reads (vectorFrom.improperUnless who ls out fast : DataM X _) := by
  unfold vectorFrom.improperUnless
  exact .ite .fail .pure

/-- **One loop of two pointers**: what it has gathered, what it does where the
list ends, and what it does where the pointers meet. -/
structure Data.Loops {σ β : Type} (s : Data X) (loop : ℕ → σ → Value → Value → DataM X β)
    (add : σ → Value → σ) (done : σ → Value → Except Err β) (round : Except Err β) : Prop where
  zero : ∀ gathered slow fast, loop 0 gathered slow fast s = (.error .outOfFuel, s)
  noPair : ∀ fuel gathered slow fast, isPair fast = false →
    loop (fuel + 1) gathered slow fast s = (done gathered fast, s)
  onePair : ∀ fuel gathered slow fast, isPair fast = true → isPair (s.next fast) = false →
    loop (fuel + 1) gathered slow fast s = (done (add gathered (s.head fast)) (s.next fast), s)
  twoPairs : ∀ fuel gathered slow fast, isPair fast = true → isPair (s.next fast) = true →
    isPair slow = true → loop (fuel + 1) gathered slow fast s =
      if s.next (s.next fast) = s.next slow then (round, s)
      else loop fuel (add (add gathered (s.head fast)) (s.head (s.next fast))) (s.next slow)
        (s.next (s.next fast)) s

/-- What such a loop gives, from what two pointers find. -/
def Data.looped {σ β : Type} (s : Data X) (add : σ → Value → σ) (done : σ → Value → Except Err β)
    (round : Except Err β) (gathered : σ) (fast : Value) : Option (Found Value) → Except Err β
  | none => .error .outOfFuel
  | some .circular => round
  | some (.ended n last) => done ((s.firsts n fast).foldl add gathered) last

/-- **Each loop is the walk of two pointers**, by what it has gathered. -/
theorem Data.Loops.eq {σ β : Type} {loop : ℕ → σ → Value → Value → DataM X β}
    {add : σ → Value → σ} {done : σ → Value → Except Err β} {round : Except Err β}
    (h : s.Loops loop add done round) : ∀ (fuel : ℕ) (gathered : σ) {slow fast : Value},
      s.Trails slow fast → loop fuel gathered slow fast s =
        (s.looped add done round gathered fast (walk s.next isPair fuel slow fast), s)
  | 0, gathered, slow, fast, _ => h.zero gathered slow fast
  | fuel + 1, gathered, slow, fast, htrails => by
    unfold walk
    cases hfast : isPair fast with
    | false => exact h.noPair fuel gathered slow fast hfast
    | true =>
      rw [if_pos rfl]
      cases hnext : isPair (s.next fast) with
      | false => exact h.onePair fuel gathered slow fast hfast hnext
      | true =>
        rw [if_pos rfl, h.twoPairs fuel gathered slow fast hfast hnext (htrails.isPair hfast)]
        split
        · rfl
        · rw [h.eq fuel _ (htrails.step hfast hnext)]
          cases walk s.next isPair fuel (s.next slow) (s.next (s.next fast)) with
          | none => rfl
          | some found => cases found <;> rfl

/-- The loops decide alike: from the start of a list, on as much fuel as there
are pairs and one more. -/
theorem Data.Loops.cases {σ β : Type} {loop : ℕ → σ → Value → Value → DataM X β}
    {add : σ → Value → σ} {done : σ → Value → Except Err β} {round : Except Err β}
    (h : s.Loops loop add done round) (gathered : σ) (v : Value) :
    (∀ {xs tail}, s.Chain tail v xs → isPair tail = false →
        loop (s.pairs.length + 1) gathered v v s = (done (xs.foldl add gathered) tail, s)) ∧
      (s.Circular v → loop (s.pairs.length + 1) gathered v v s = (round, s)) := by
  rw [h.eq _ gathered (.refl s v)]
  rcases walk_cases (fun _ => mem_cells_of_next) (card_cells s) v with
    ⟨n, hends, hfound⟩ | ⟨hround, hfound⟩
  · rw [hfound]
    refine ⟨fun {xs tail} hchain htail => ?_, fun hround => absurd hround hends.not_goesRound⟩
    obtain ⟨hends', hlast, hfirsts⟩ := endsAfter_of_chain htail hchain
    obtain rfl := hends.unique hends'
    rw [hlast]
    show (done ((s.firsts _ v).foldl add gathered) tail, s) = _
    rw [hfirsts]
  · rw [hfound]
    refine ⟨fun hchain htail => ?_, fun _ => rfl⟩
    exact absurd hround (endsAfter_of_chain htail hchain).1.not_goesRound

theorem loops_arityFrom (s : Data X) :
    s.Loops arityFrom (fun n _ => n + 1)
      (fun n fast => .ok (if fast ≠ .nil then none else some n)) (.ok none) where
  zero _ _ _ := rfl
  noPair fuel n slow fast hfast := by
    rw [arityFrom]
    rw [hfast]
    rfl
  onePair fuel n slow fast hfast hnext := by
    obtain ⟨a, rfl⟩ := exists_pair hfast
    rw [arityFrom]
    rw [if_pos hfast, Cmd.bind_run_ok (cdr_run a s)]
    show (if (!isPair (s.next (.pair a))) = true then _ else _ : DataM X _) s = _
    rw [hnext]
    rfl
  twoPairs fuel n slow fast hfast hnext hslow := by
    obtain ⟨a, rfl⟩ := exists_pair hfast
    obtain ⟨b, hb⟩ := exists_pair hnext
    obtain ⟨c, rfl⟩ := exists_pair hslow
    rw [arityFrom]
    rw [if_pos hfast, Cmd.bind_run_ok (cdr_run a s)]
    show (if (!isPair (s.next (.pair a))) = true then _ else _ : DataM X _) s = _
    rw [hnext, if_neg (show ¬ (!true) = true from Bool.false_ne_true),
      show (s.pairOf a).2 = .pair b from hb, Cmd.bind_run_ok (cdr_run b s),
      Cmd.bind_run_ok (cdr_run c s), hb]
    show (if s.next (.pair b) = s.next (.pair c) then _ else _ : DataM X _) s = _
    split <;> rfl

theorem loops_vectorFrom (who : String) (ls : Value) (s : Data X) :
    s.Loops (vectorFrom who ls) (fun out x => out ++ [x])
      (fun out fast => (vectorFrom.improperUnless who ls out fast s).1)
      (.error (.scheme (who ++
        ": wrong type of argument\n  expected: a proper list\n  given: a circular list") true)) where
  zero _ _ _ := rfl
  noPair fuel out slow fast hfast := by
    rw [vectorFrom]
    rw [hfast]
    exact Prod.ext rfl (reads_improperUnless who ls out fast s)
  onePair fuel out slow fast hfast hnext := by
    obtain ⟨a, rfl⟩ := exists_pair hfast
    rw [vectorFrom]
    rw [if_pos hfast, Cmd.bind_run_ok (car_run a s), Cmd.bind_run_ok (cdr_run a s)]
    show (if (!isPair (s.next (.pair a))) = true then _ else _ : DataM X _) s = _
    rw [hnext]
    exact Prod.ext rfl (reads_improperUnless who ls _ _ s)
  twoPairs fuel out slow fast hfast hnext hslow := by
    obtain ⟨a, rfl⟩ := exists_pair hfast
    obtain ⟨b, hb⟩ := exists_pair hnext
    obtain ⟨c, rfl⟩ := exists_pair hslow
    rw [vectorFrom]
    rw [if_pos hfast, Cmd.bind_run_ok (car_run a s), Cmd.bind_run_ok (cdr_run a s)]
    show (if (!isPair (s.next (.pair a))) = true then _ else _ : DataM X _) s = _
    rw [hnext, if_neg (show ¬ (!true) = true from Bool.false_ne_true),
      show (s.pairOf a).2 = .pair b from hb, Cmd.bind_run_ok (car_run b s),
      Cmd.bind_run_ok (cdr_run b s), Cmd.bind_run_ok (cdr_run c s), hb]
    show (if s.next (.pair b) = s.next (.pair c) then _ else _ : DataM X _) s = _
    split <;> rfl

theorem loops_properFrom (s : Data X) :
    s.Loops (fun fuel (_ : Unit) => properFrom fuel) (fun u _ => u)
      (fun _ fast => .ok (decide (fast = .nil))) (.ok false) where
  zero _ _ _ := rfl
  noPair fuel _ slow fast hfast := by
    unfold properFrom
    by_cases hnil : fast = .nil
    · rw [if_pos hnil, decide_eq_true hnil]
      rfl
    · rw [if_neg hnil, hfast, decide_eq_false hnil]
      rfl
  onePair fuel _ slow fast hfast hnext := by
    obtain ⟨a, rfl⟩ := exists_pair hfast
    unfold properFrom
    rw [if_neg (show ¬ Value.pair a = .nil from nofun),
      if_neg (show ¬ (!isPair (.pair a)) = true from nofun), Cmd.bind_run_ok (cdr_run a s)]
    show (if s.next (.pair a) = .nil then _ else
      if (!isPair (s.next (.pair a))) = true then _ else _ : DataM X _) s = _
    by_cases hnil : s.next (.pair a) = .nil
    · rw [if_pos hnil, decide_eq_true hnil]
      rfl
    · rw [if_neg hnil, hnext, decide_eq_false hnil]
      rfl
  twoPairs fuel _ slow fast hfast hnext hslow := by
    obtain ⟨a, rfl⟩ := exists_pair hfast
    obtain ⟨b, hb⟩ := exists_pair hnext
    obtain ⟨c, rfl⟩ := exists_pair hslow
    show properFrom (fuel + 1) _ _ s = _
    rw [properFrom]
    rw [if_neg (show ¬ Value.pair a = .nil from nofun),
      if_neg (show ¬ (!isPair (.pair a)) = true from nofun), Cmd.bind_run_ok (cdr_run a s),
      show (s.pairOf a).2 = .pair b from hb, if_neg (show ¬ Value.pair b = .nil from nofun),
      if_neg (show ¬ (!isPair (.pair b)) = true from nofun), Cmd.bind_run_ok (cdr_run b s),
      Cmd.bind_run_ok (cdr_run c s), hb]
    show (if s.next (.pair c) = s.next (.pair b) then _ else _ : DataM X _) s = _
    by_cases hmeet : s.next (.pair b) = s.next (.pair c)
    · rw [if_pos hmeet.symm, if_pos hmeet]
      rfl
    · rw [if_neg (Ne.symm hmeet), if_neg hmeet]
      rfl

theorem foldl_count (xs : List Value) (n : ℕ) :
    xs.foldl (fun n _ => n + 1) n = n + xs.length := by
  induction xs generalizing n with
  | nil => rfl
  | cons x xs ih =>
    show xs.foldl (fun n _ => n + 1) (n + 1) = _
    rw [ih, List.length_cons, Nat.add_right_comm, Nat.add_assoc]

theorem foldl_concat (xs out : List Value) :
    xs.foldl (fun out x => out ++ [x]) out = out ++ xs := by
  induction xs generalizing out with
  | nil => exact (List.append_nil out).symm
  | cons x xs ih =>
    show xs.foldl (fun out x => out ++ [x]) (out ++ [x]) = _
    rw [ih, List.append_assoc]
    rfl

/-! ## The walks agree -/

/-- `form_arity`, with its own loop. -/
def formArityLoop (rest : Value) : DataM X (Option ℕ) := do
  arityFrom ((← Cmd.getState).pairs.length + 1) 0 rest rest

/-- `list_to_vector`, with its own loop. -/
def listToVectorLoop (ls : Value) (who : String) : DataM X (List Value) := do
  vectorFrom who ls ((← Cmd.getState).pairs.length + 1) [] ls ls

theorem formArityLoop_of_chain {v tail : Value} {xs : List Value} (h : s.Chain tail v xs)
    (htail : isPair tail = false) :
    formArityLoop v s = (.ok (if tail ≠ .nil then none else some xs.length), s) := by
  show arityFrom (s.pairs.length + 1) 0 v v s = _
  rw [((loops_arityFrom s).cases 0 v).1 h htail, foldl_count, Nat.zero_add]

theorem formArityLoop_of_circular {v : Value} (h : s.Circular v) :
    formArityLoop v s = (.ok none, s) :=
  ((loops_arityFrom s).cases 0 v).2 h

theorem listToVectorLoop_of_chain (who : String) {v tail : Value} {xs : List Value}
    (h : s.Chain tail v xs) (htail : isPair tail = false) :
    listToVectorLoop v who s = vectorFrom.improperUnless who v xs tail s := by
  show vectorFrom who v (s.pairs.length + 1) [] v v s = _
  rw [((loops_vectorFrom who v s).cases [] v).1 h htail, foldl_concat]
  exact Prod.ext rfl (reads_improperUnless who v xs tail s).symm

theorem listToVectorLoop_of_circular (who : String) {v : Value} (h : s.Circular v) :
    listToVectorLoop v who s = (.error (.scheme (who ++
      ": wrong type of argument\n  expected: a proper list\n  given: a circular list") true), s) :=
  ((loops_vectorFrom who v s).cases [] v).2 h

theorem isProperList_of_chain {v tail : Value} {xs : List Value} (h : s.Chain tail v xs)
    (htail : isPair tail = false) :
    isProperList v s = (.ok (decide (tail = .nil)), s) :=
  ((loops_properFrom s).cases () v).1 h htail

theorem isProperList_of_circular {v : Value} (h : s.Circular v) :
    isProperList v s = (.ok false, s) :=
  ((loops_properFrom s).cases () v).2 h

/-- `form_arity` counts what the one walk finds. -/
theorem formArity_eq_loop (v : Value) (s : Data X) : formArity v s = formArityLoop v s := by
  unfold formArity
  rcases walkList_cases s v with ⟨xs, tail, hchain, htail, hwalk⟩ | ⟨hround, hwalk⟩
  · rw [Cmd.bind_run_ok hwalk, formArityLoop_of_chain hchain htail]
    cases tail <;> rfl
  · rw [Cmd.bind_run_ok hwalk, formArityLoop_of_circular hround]
    rfl

/-- `list_to_vector` returns what the one walk finds. -/
theorem listToVector_eq_loop (v : Value) (who : String) (s : Data X) :
    listToVector v who s = listToVectorLoop v who s := by
  unfold listToVector
  rcases walkList_cases s v with ⟨xs, tail, hchain, htail, hwalk⟩ | ⟨hround, hwalk⟩
  · rw [Cmd.bind_run_ok hwalk, listToVectorLoop_of_chain who hchain htail]
    cases tail <;> rfl
  · rw [Cmd.bind_run_ok hwalk, listToVectorLoop_of_circular who hround]
    rfl

/-- **The three walks agree.** On every list, of any length, with any end and
with any round, they come to an end: on a proper list with its length, its
elements and `#t`, and on an improper or circular one without a length, with an
error and with `#f`. -/
theorem walks_agree (s : Data X) (v : Value) (who : String) :
    (∃ xs, s.Chain .nil v xs ∧
        formArityLoop v s = (.ok (some xs.length), s) ∧
        listToVectorLoop v who s = (.ok xs, s) ∧
        isProperList v s = (.ok true, s)) ∨
      (((∃ xs tail, s.Chain tail v xs ∧ isPair tail = false ∧ tail ≠ .nil) ∨ s.Circular v) ∧
        (∀ xs, ¬ s.Chain .nil v xs) ∧
        formArityLoop v s = (.ok none, s) ∧
        (∃ message, listToVectorLoop v who s = (.error (.scheme message true), s)) ∧
        isProperList v s = (.ok false, s)) := by
  rcases walkList_cases s v with ⟨xs, tail, hchain, htail, -⟩ | ⟨hround, -⟩
  · by_cases hnil : tail = .nil
    · subst hnil
      exact .inl ⟨xs, hchain, formArityLoop_of_chain hchain htail,
        listToVectorLoop_of_chain who hchain htail, isProperList_of_chain hchain htail⟩
    · refine .inr ⟨.inl ⟨xs, tail, hchain, htail, hnil⟩, fun ys hys => hnil ?_, ?_, ?_, ?_⟩
      · obtain ⟨hends, hlast, -⟩ := endsAfter_of_chain htail hchain
        obtain ⟨hends', hlast', -⟩ := endsAfter_of_chain rfl hys
        rw [← hlast, hends.unique hends', hlast']
      · rw [formArityLoop_of_chain hchain htail, if_pos hnil]
      · rw [listToVectorLoop_of_chain who hchain htail]
        unfold vectorFrom.improperUnless
        rw [if_pos hnil]
        exact ⟨_, rfl⟩
      · rw [isProperList_of_chain hchain htail, decide_eq_false hnil]
  · refine .inr ⟨.inr hround, fun ys hys => ?_, formArityLoop_of_circular hround,
      ⟨_, listToVectorLoop_of_circular who hround⟩, isProperList_of_circular hround⟩
    exact (endsAfter_of_chain rfl hys).1.not_goesRound hround

end Scheme14
