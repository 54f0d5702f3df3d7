import SecdScheme.Lib.Traversal
import SecdScheme.Lib.Unfolding
import SecdScheme.Scheme14.Printer

/-!
# scheme14: `equal?` on graphs

`equal_values` goes down two graphs at once. It keeps in a map which objects of
the first it has taken for which of the second while it is below them, and
removes what it entered on every way out. An object that is met again is equal
if the map has that partner for it, and to any other it is not.

What the comparison decides is said of unfoldings: the labels and the children
of objects make a graph, with cycles or not.
-/

namespace Scheme14

/-! ## Objects as a graph -/

/-- What an object is without its parts. -/
inductive Label where
  | pair
  | vector
  | string (text : Option String)
  | atom (v : Value)

section Graph

variable {X : Type} (s : Data X)

/-- What is compared of an object before its parts. -/
def Data.label : Value → Label
  | .pair _ => .pair
  | .vector _ => .vector
  | .string a => .string s.strings[a]?
  | v => .atom v

/-- The parts of an object. -/
def Data.children : Value → List Value
  | .pair a => match s.pairs[a]? with
    | some p => [p.1, p.2]
    | none => []
  | .vector a => (s.vectors[a]?).getD []
  | _ => []

/-- The object is in its table. -/
def Data.Present : Value → Prop
  | .pair a => a < s.pairs.length
  | .vector a => a < s.vectors.length
  | .string a => a < s.strings.length
  | _ => True

/-- **Parts of what is there are there.** -/
def Data.Linked : Prop := ∀ v w, s.Present v → w ∈ s.children v → s.Present w

/-- **Two values unfold alike**, into trees that may be infinite. -/
abbrev Data.SameUnfolding (a b : Value) : Prop := Unfolding.Alike s.label s.children a b

/-- No cycle is in reach of a value. -/
abbrev Data.Acyclic (a : Value) : Prop := Unfolding.Acyclic s.children a

end Graph

/-! ## The map of the program -/

/-- The map of correspondences; what was entered last comes first. -/
abbrev PairMap := List (Value × Value)

/-- `seen.erase`. -/
def PairMap.erase (seen : PairMap) (k : Value) : PairMap := Traversal.eraseKey Prod.fst seen k

section Equal

variable {X : Type} (s : Data X)

mutual

/-- **`equal_values`**, with the map as it is left. -/
def equalValuesIn : ℕ → Value → Value → PairMap → Option (Bool × PairMap)
  | 0, _, _, _ => none
  | fuel + 1, a, b, seen =>
    if a = b then some (true, seen)
    else match a, b with
      | .string x, .string y => some (s.strings[x]? == s.strings[y]?, seen)
      | .vector x, .vector y =>
        match seen.lookup a with
        | some b' => some (b' == b, seen)
        | none =>
          let xs := (s.vectors[x]?).getD []
          let ys := (s.vectors[y]?).getD []
          if xs.length ≠ ys.length then some (false, seen)
          else do
            let r ← equalElemsIn fuel xs ys ((a, b) :: seen)
            return (r.1, r.2.erase a)
      | .pair _, .pair _ => equalPairsIn fuel [] a b seen
      | _, _ => some (false, seen)

/-- The elements of two vectors. -/
def equalElemsIn : ℕ → List Value → List Value → PairMap → Option (Bool × PairMap)
  | 0, _, _, _ => none
  | fuel + 1, x :: xs, y :: ys, seen => do
    let r ← equalValuesIn fuel x y seen
    if !r.1 then return (false, r.2)
    equalElemsIn fuel xs ys r.2
  | _ + 1, _, _, seen => some (true, seen)

/-- The loop along the `cdr`s; the path has the keys that it entered. -/
def equalPairsIn : ℕ → List Value → Value → Value → PairMap → Option (Bool × PairMap)
  | 0, _, _, _, _ => none
  | fuel + 1, path, a, b, seen =>
    match seen.lookup a with
    | some b' => some (b' == b, path.foldl PairMap.erase seen)
    | none =>
      match s.pairAt a, s.pairAt b with
      | some (x, u), some (y, v) => do
        let path := path ++ [a]
        let r ← equalValuesIn fuel x y ((a, b) :: seen)
        if !r.1 then return (false, path.foldl PairMap.erase r.2)
        if u = v then return (true, path.foldl PairMap.erase r.2)
        if isPair u ≠ isPair v then return (false, path.foldl PairMap.erase r.2)
        if isPair u then equalPairsIn fuel path u v r.2
        else do
          let r ← equalValuesIn fuel u v r.2
          return (r.1, path.foldl PairMap.erase r.2)
      | _, _ => none

end

end Equal

/-! ## The map is left as it was -/

section Restored

variable {X : Type} {s : Data X} {a b : Value} {seen seen₀ : PairMap} {path : List Value}

/-- The keys on a path are in the map. -/
abbrev Unwinds (path : List Value) (seen seen₀ : PairMap) : Prop :=
  Traversal.Unwinds Prod.fst path seen seen₀

/-- A pair is put into the map and onto the path. -/
theorem Unwinds.cons (h : Unwinds path seen seen₀) (ha : seen.lookup a = none) (b : Value) :
    Unwinds (path ++ [a]) ((a, b) :: seen) seen₀ := by
  refine Traversal.Unwinds.cons (e := (a, b)) h fun x hx hxa => ?_
  have hne := List.lookup_eq_none_iff.mp ha x hx
  exact bne_iff_ne.mp hne hxa.symm

/-- The path says what is taken out again. -/
theorem Unwinds.erase (h : Unwinds path seen seen₀) : path.foldl PairMap.erase seen = seen₀ :=
  h.erased

/-- What is shown of the three functions together, by induction on the bound. -/
structure RestoresAt (s : Data X) (fuel : ℕ) : Prop where
  values : ∀ {a b : Value} {seen : PairMap},
    equalValuesIn s fuel a b seen = (equalValues s fuel seen a b).map (·, seen)
  elems : ∀ {xs ys : List Value} {seen : PairMap},
    equalElemsIn s fuel xs ys seen = (equalElems s fuel seen xs ys).map (·, seen)
  pairs : ∀ {path : List Value} {a b : Value} {seen seen₀ : PairMap}, Unwinds path seen seen₀ →
    equalPairsIn s fuel path a b seen = (equalPairs s fuel seen a b).map (·, seen₀)

/-- Two values that are not both strings, vectors or pairs, and not the same. -/
theorem equalValues_atoms {fuel : ℕ} (hab : a ≠ b)
    (hstring : ∀ x y, a = .string x → b = .string y → False)
    (hvector : ∀ x y, a = .vector x → b = .vector y → False)
    (hpair : ∀ x y, a = .pair x → b = .pair y → False) :
    equalValues s (fuel + 1) seen a b = some false := by
  unfold equalValues
  rw [if_neg hab]
  split
  · exact (hstring _ _ rfl rfl).elim
  · exact (hvector _ _ rfl rfl).elim
  · exact (hpair _ _ rfl rfl).elim
  · rfl

/-- One turn of `equal_values` leaves the map as it was. -/
theorem restoresAt_values {fuel : ℕ} (ih : RestoresAt s fuel) :
    equalValuesIn s (fuel + 1) a b seen = (equalValues s (fuel + 1) seen a b).map (·, seen) := by
  unfold equalValuesIn
  by_cases hab : a = b
  · unfold equalValues
    rw [if_pos hab, if_pos hab]
    rfl
  · rw [if_neg hab]
    split
    · unfold equalValues
      rw [if_neg hab]
      rfl
    · rename_i x y
      unfold equalValues
      rw [if_neg hab]
      dsimp only
      cases hseen : seen.lookup (.vector x) with
      | some b' => rfl
      | none =>
        dsimp only
        split
        · rfl
        · rw [ih.elems]
          cases equalElems s fuel ((.vector x, .vector y) :: seen) ((s.vectors[x]?).getD [])
              ((s.vectors[y]?).getD []) with
          | none => rfl
          | some r =>
            show some (r, Traversal.eraseKey Prod.fst ((Value.vector x, Value.vector y) :: seen)
              (Prod.fst (Value.vector x, Value.vector y))) = _
            rw [Traversal.eraseKey_cons_self]
            rfl
    · unfold equalValues
      rw [if_neg hab]
      exact ih.pairs (.nil seen)
    · rename_i hstring hvector hpair
      rw [equalValues_atoms hab hstring hvector hpair]
      rfl

/-- So does one turn along two vectors. -/
theorem restoresAt_elems {fuel : ℕ} (ih : RestoresAt s fuel) (xs ys : List Value) :
    equalElemsIn s (fuel + 1) xs ys seen
      = (equalElems s (fuel + 1) seen xs ys).map (·, seen) := by
  cases xs with
  | nil => rfl
  | cons x xs =>
    cases ys with
    | nil => rfl
    | cons y ys =>
      unfold equalElemsIn equalElems
      rw [ih.values]
      cases equalValues s fuel seen x y with
      | none => rfl
      | some r =>
        cases r with
        | false => rfl
        | true => exact ih.elems

/-- So does one turn along two lists, which takes out all its pairs at the end. -/
theorem restoresAt_pairs {fuel : ℕ} (ih : RestoresAt s fuel) (h : Unwinds path seen seen₀) :
    equalPairsIn s (fuel + 1) path a b seen
      = (equalPairs s (fuel + 1) seen a b).map (·, seen₀) := by
  unfold equalPairsIn equalPairs
  cases hseen : seen.lookup a with
  | some b' =>
    dsimp only
    rw [h.erase]
    rfl
  | none =>
    have hcons := h.cons hseen b
    rcases s.pairAt a with _ | ⟨x, u⟩
    · rfl
    rcases s.pairAt b with _ | ⟨y, v⟩
    · rfl
    dsimp only
    rw [ih.values]
    cases equalValues s fuel ((a, b) :: seen) x y with
    | none => rfl
    | some r =>
      dsimp only [Option.map, bind, Option.bind]
      rw [hcons.erase]
      cases r with
      | false => rfl
      | true =>
        rw [if_neg (show ¬ (!true) = true from Bool.false_ne_true),
          if_neg (show ¬ (!true) = true from Bool.false_ne_true)]
        split
        · rfl
        · split
          · rfl
          · split
            · exact ih.pairs hcons
            · rw [ih.values]
              cases equalValues s fuel ((a, b) :: seen) u v with
              | none => rfl
              | some r =>
                show some (r, (path ++ [a]).foldl PairMap.erase ((a, b) :: seen)) = _
                rw [hcons.erase]

/-- By induction on the bound. -/
theorem restoresAt (s : Data X) (fuel : ℕ) : RestoresAt s fuel := by
  induction fuel with
  | zero => exact ⟨rfl, rfl, fun _ => rfl⟩
  | succ fuel ih =>
    exact ⟨restoresAt_values ih, fun {xs ys _} => restoresAt_elems ih xs ys, restoresAt_pairs ih⟩

/-- **The map is left as it was found.** -/
theorem equalValuesIn_eq (fuel : ℕ) (a b : Value) (seen : PairMap) :
    equalValuesIn s fuel a b seen = (equalValues s fuel seen a b).map (·, seen) :=
  (restoresAt s fuel).values

end Restored

/-! ## The answer `#t` is right -/

section Sound

variable {X : Type} {s : Data X} {a b : Value} {seen : PairMap} {fuel n : ℕ}

open Unfolding (AlikeTo Edge)

/-- The partners in a map agree down to a depth. -/
def AgreesTo (s : Data X) (n : ℕ) (seen : PairMap) : Prop :=
  ∀ x y, seen.lookup x = some y → AlikeTo s.label s.children n x y

theorem agreesTo_nil (n : ℕ) : AgreesTo s n [] := nofun

/-- What agrees to a depth agrees to a lesser one. -/
theorem AgreesTo.of_succ (h : AgreesTo s (n + 1) seen) : AgreesTo s n seen :=
  fun x y hxy => (h x y hxy).of_succ

/-- Two objects that agree may be put into the map. -/
theorem AgreesTo.cons (h : AgreesTo s n seen) (hab : AlikeTo s.label s.children n a b) :
    AgreesTo s n ((a, b) :: seen) := by
  intro x y hxy
  rw [List.lookup_cons] at hxy
  split at hxy
  · rename_i hx
    cases hxy
    rw [eq_of_beq hx]
    exact hab
  · exact h x y hxy

/-- **An object is like its partner** when their parts are, as long as it may be
taken for its partner below. The induction is on the depth. -/
theorem alikeTo_of_children (hlabel : s.label a = s.label b)
    (h : ∀ n, AgreesTo s n ((a, b) :: seen) →
      List.Forall₂ (AlikeTo s.label s.children n) (s.children a) (s.children b))
    (hseen : AgreesTo s n seen) : AlikeTo s.label s.children n a b := by
  induction n with
  | zero => trivial
  | succ n ih => exact ⟨hlabel, h n (hseen.of_succ.cons (ih hseen.of_succ))⟩

/-- The label and the parts of a pair. -/
theorem of_pairAt {x u : Value} (h : s.pairAt a = some (x, u)) :
    s.label a = .pair ∧ s.children a = [x, u] := by
  cases a with
  | pair i =>
    refine ⟨rfl, ?_⟩
    unfold Data.children
    dsimp only
    rw [show s.pairs[i]? = some (x, u) from h]
  | _ => cases h

/-- What the answer says, of the three functions together, by induction on the
bound. -/
structure SoundAt (s : Data X) (fuel : ℕ) : Prop where
  values : ∀ {seen : PairMap} {a b : Value} {n : ℕ}, equalValues s fuel seen a b = some true →
    AgreesTo s n seen → AlikeTo s.label s.children n a b
  elems : ∀ {seen : PairMap} {xs ys : List Value} {n : ℕ},
    equalElems s fuel seen xs ys = some true → xs.length = ys.length → AgreesTo s n seen →
    List.Forall₂ (AlikeTo s.label s.children n) xs ys
  pairs : ∀ {seen : PairMap} {a b : Value} {n : ℕ}, equalPairs s fuel seen a b = some true →
    AgreesTo s n seen → AlikeTo s.label s.children n a b

/-- **One turn of `equal_values`**: the map stands for what is being compared. -/
theorem soundAt_values (ih : SoundAt s fuel) (h : equalValues s (fuel + 1) seen a b = some true)
    (hseen : AgreesTo s n seen) : AlikeTo s.label s.children n a b := by
  unfold equalValues at h
  by_cases hab : a = b
  · rw [hab]
    exact Unfolding.alikeTo_refl n b
  · rw [if_neg hab] at h
    split at h
    · rename_i x y
      have hxy : s.strings[x]? = s.strings[y]? := eq_of_beq (Option.some.inj h)
      refine alikeTo_of_children ?_ (fun _ _ => .nil) hseen
      show Label.string _ = Label.string _
      rw [hxy]
    · rename_i x y
      cases hlookup : seen.lookup (.vector x) with
      | some b' =>
        rw [hlookup] at h
        rw [← eq_of_beq (Option.some.inj h)]
        exact hseen _ _ hlookup
      | none =>
        rw [hlookup] at h
        dsimp only at h
        split at h
        · cases h
        · rename_i hlen
          exact alikeTo_of_children rfl (fun n hn => ih.elems h (not_not.mp hlen) hn) hseen
    · exact ih.pairs h hseen
    · cases h

/-- One turn along two vectors. -/
theorem soundAt_elems (ih : SoundAt s fuel) {xs ys : List Value}
    (h : equalElems s (fuel + 1) seen xs ys = some true) (hlen : xs.length = ys.length)
    (hseen : AgreesTo s n seen) : List.Forall₂ (AlikeTo s.label s.children n) xs ys := by
  cases xs with
  | nil =>
    cases ys with
    | nil => exact .nil
    | cons y ys => cases hlen
  | cons x xs =>
    cases ys with
    | nil => cases hlen
    | cons y ys =>
      unfold equalElems at h
      obtain ⟨r, hr, h⟩ := Option.bind_eq_some_iff.mp h
      cases r with
      | false => cases h
      | true => exact .cons (ih.values hr hseen) (ih.elems h (Nat.succ.inj hlen) hseen)

/-- One turn along two lists. -/
theorem soundAt_pairs (ih : SoundAt s fuel) (h : equalPairs s (fuel + 1) seen a b = some true)
    (hseen : AgreesTo s n seen) : AlikeTo s.label s.children n a b := by
  unfold equalPairs at h
  cases hlookup : seen.lookup a with
  | some b' =>
    rw [hlookup] at h
    rw [← eq_of_beq (Option.some.inj h)]
    exact hseen _ _ hlookup
  | none =>
    rw [hlookup] at h
    dsimp only at h
    split at h
    · rename_i x u y v hpair hpair'
      obtain ⟨hlabel, hchildren⟩ := of_pairAt hpair
      obtain ⟨hlabel', hchildren'⟩ := of_pairAt hpair'
      obtain ⟨r, hr, h⟩ := Option.bind_eq_some_iff.mp h
      cases r with
      | false => cases h
      | true =>
        refine alikeTo_of_children (hlabel.trans hlabel'.symm) (fun n hn => ?_) hseen
        rw [hchildren, hchildren']
        refine .cons (ih.values hr hn) (.cons ?_ .nil)
        rw [if_neg (show ¬ (!true) = true from Bool.false_ne_true)] at h
        split at h
        · rename_i huv
          rw [huv]
          exact Unfolding.alikeTo_refl n v
        · split at h
          · cases h
          · split at h
            · exact ih.pairs h hn
            · exact ih.values h hn
    · cases h

/-- **`#t` is right to any depth**, by induction on the bound. -/
theorem soundAt (s : Data X) (fuel : ℕ) : SoundAt s fuel := by
  induction fuel with
  | zero => exact ⟨nofun, nofun, nofun⟩
  | succ fuel ih => exact ⟨soundAt_values ih, soundAt_elems ih, soundAt_pairs ih⟩

/-- **What is found equal unfolds alike.** -/
theorem sameUnfolding_of_equalValues (h : equalValues s fuel [] a b = some true) :
    s.SameUnfolding a b :=
  Unfolding.alike_iff.mpr fun n => (soundAt s fuel).values h (agreesTo_nil n)

end Sound

/-! ## The answer for a graph without cycles -/

section Exact

variable {X : Type} {s : Data X} {a b : Value} {seen : PairMap} {fuel : ℕ} {r : Bool}

open Unfolding (Edge)

/-- The keys of a map are above an object. -/
def KeysAbove (s : Data X) (seen : PairMap) (a : Value) : Prop :=
  ∀ k, seen.lookup k ≠ none → Relation.TransGen (Edge s.children) k a

/-- An object that is no part of itself is not in the map. -/
theorem KeysAbove.lookup_eq_none (h : KeysAbove s seen a) (ha : s.Acyclic a) :
    seen.lookup a = none := by
  by_contra hne
  exact ha.not_self (h a hne)

/-- What is above an object is above its parts. -/
theorem KeysAbove.cons (h : KeysAbove s seen a) (b : Value) {x : Value} (hx : x ∈ s.children a) :
    KeysAbove s ((a, b) :: seen) x := by
  intro k hk
  rw [List.lookup_cons] at hk
  split at hk
  · rename_i hka
    rw [eq_of_beq hka]
    exact .single hx
  · exact (h k hk).tail hx

/-- What has no parts is itself. -/
theorem eq_of_label_atom {v w : Value} (h : s.label v = .atom w) : v = w := by
  cases v <;> first | exact Label.atom.inj h | cases h

/-- Values with one label are the same atom, or two objects of a kind. -/
theorem kinds_of_label (h : s.label a = s.label b) : a = b ∨
    (∃ x y, a = .string x ∧ b = .string y ∧ s.strings[x]? = s.strings[y]?) ∨
    (∃ x y, a = .vector x ∧ b = .vector y) ∨ ∃ x y, a = .pair x ∧ b = .pair y := by
  have hpair : ∀ v, s.label v = .pair → ∃ x, v = .pair x := by
    intro v hv
    cases v <;> first | exact ⟨_, rfl⟩ | cases hv
  have hvector : ∀ v, s.label v = .vector → ∃ x, v = .vector x := by
    intro v hv
    cases v <;> first | exact ⟨_, rfl⟩ | cases hv
  have hstring : ∀ v t, s.label v = .string t → ∃ x, v = .string x ∧ s.strings[x]? = t := by
    intro v t hv
    cases v <;> first | exact ⟨_, rfl, Label.string.inj hv⟩ | cases hv
  cases hlabel : s.label a with
  | pair =>
    obtain ⟨x, hx⟩ := hpair a hlabel
    obtain ⟨y, hy⟩ := hpair b (h.symm.trans hlabel)
    exact .inr (.inr (.inr ⟨x, y, hx, hy⟩))
  | vector =>
    obtain ⟨x, hx⟩ := hvector a hlabel
    obtain ⟨y, hy⟩ := hvector b (h.symm.trans hlabel)
    exact .inr (.inr (.inl ⟨x, y, hx, hy⟩))
  | string t =>
    obtain ⟨x, hx, hxt⟩ := hstring a t hlabel
    obtain ⟨y, hy, hyt⟩ := hstring b t (h.symm.trans hlabel)
    exact .inr (.inl ⟨x, y, hx, hy, hxt.trans hyt.symm⟩)
  | atom v =>
    exact .inl ((eq_of_label_atom hlabel).trans (eq_of_label_atom (h.symm.trans hlabel)).symm)

/-- What the answer is where no key is met again, of the three functions
together, by induction on the bound. -/
structure ExactAt (s : Data X) (fuel : ℕ) : Prop where
  values : ∀ {seen : PairMap} {a b : Value} {r : Bool}, equalValues s fuel seen a b = some r →
    KeysAbove s seen a → s.Acyclic a → s.SameUnfolding a b → r = true
  elems : ∀ {seen : PairMap} {xs ys : List Value} {r : Bool},
    equalElems s fuel seen xs ys = some r → (∀ x ∈ xs, KeysAbove s seen x ∧ s.Acyclic x) →
    List.Forall₂ s.SameUnfolding xs ys → r = true
  pairs : ∀ {seen : PairMap} {a b : Value} {r : Bool}, equalPairs s fuel seen a b = some r →
    KeysAbove s seen a → s.Acyclic a → s.SameUnfolding a b → r = true

/-- One turn, where the values unfold alike. -/
theorem exactAt_values (ih : ExactAt s fuel) (h : equalValues s (fuel + 1) seen a b = some r)
    (habove : KeysAbove s seen a) (hacyclic : s.Acyclic a) (hsame : s.SameUnfolding a b) :
    r = true := by
  unfold equalValues at h
  by_cases hab : a = b
  · rw [if_pos hab] at h
    exact (Option.some.inj h).symm
  rw [if_neg hab] at h
  rcases kinds_of_label hsame.label_eq with rfl | ⟨x, y, rfl, rfl, hxy⟩ | ⟨x, y, rfl, rfl⟩ |
    ⟨x, y, rfl, rfl⟩
  · exact absurd rfl hab
  · rw [← Option.some.inj h, hxy]
    exact beq_self_eq_true _
  · dsimp only at h
    rw [habove.lookup_eq_none hacyclic] at h
    have hparts : List.Forall₂ s.SameUnfolding ((s.vectors[x]?).getD [])
        ((s.vectors[y]?).getD []) := hsame.forall₂
    dsimp only at h
    rw [if_neg (not_not.mpr hparts.length_eq)] at h
    exact ih.elems h (fun v (hv : v ∈ s.children (.vector x)) =>
      ⟨habove.cons _ hv, hacyclic.of_edge hv⟩) hparts
  · exact ih.pairs h habove hacyclic hsame

/-- One turn along two vectors. -/
theorem exactAt_elems (ih : ExactAt s fuel) {xs ys : List Value}
    (h : equalElems s (fuel + 1) seen xs ys = some r)
    (hxs : ∀ x ∈ xs, KeysAbove s seen x ∧ s.Acyclic x)
    (hsame : List.Forall₂ s.SameUnfolding xs ys) : r = true := by
  cases hsame with
  | nil => exact (Option.some.inj h).symm
  | @cons x y xs ys hx hrest =>
    unfold equalElems at h
    obtain ⟨r', hr', h⟩ := Option.bind_eq_some_iff.mp h
    obtain ⟨habove, hacyclic⟩ := hxs x List.mem_cons_self
    rw [ih.values hr' habove hacyclic hx] at h
    exact ih.elems h (fun v hv => hxs v (List.mem_cons_of_mem x hv)) hrest

/-- One turn along two lists. -/
theorem exactAt_pairs (ih : ExactAt s fuel) (h : equalPairs s (fuel + 1) seen a b = some r)
    (habove : KeysAbove s seen a) (hacyclic : s.Acyclic a) (hsame : s.SameUnfolding a b) :
    r = true := by
  unfold equalPairs at h
  rw [habove.lookup_eq_none hacyclic] at h
  dsimp only at h
  split at h
  · rename_i x u y v hpair hpair'
    have hchildren := (of_pairAt hpair).2
    have hx : x ∈ s.children a := by rw [hchildren]; exact List.mem_cons_self
    have hu : u ∈ s.children a := by
      rw [hchildren]
      exact List.mem_cons_of_mem x List.mem_cons_self
    have hparts := hsame.forall₂
    rw [hchildren, (of_pairAt hpair').2] at hparts
    obtain ⟨hxy, hrest⟩ := List.forall₂_cons.mp hparts
    obtain ⟨huv, -⟩ := List.forall₂_cons.mp hrest
    obtain ⟨r', hr', h⟩ := Option.bind_eq_some_iff.mp h
    rw [ih.values hr' (habove.cons b hx) (hacyclic.of_edge hx) hxy,
      if_neg (show ¬ (!true) = true from Bool.false_ne_true)] at h
    have hpairs : isPair u = isPair v := by
      rcases kinds_of_label huv.label_eq with rfl | ⟨_, _, rfl, rfl, -⟩ | ⟨_, _, rfl, rfl⟩ |
        ⟨_, _, rfl, rfl⟩ <;> rfl
    split at h
    · exact (Option.some.inj h).symm
    · rw [if_neg (not_not.mpr hpairs)] at h
      split at h
      · exact ih.pairs h (habove.cons b hu) (hacyclic.of_edge hu) huv
      · exact ih.values h (habove.cons b hu) (hacyclic.of_edge hu) huv
  · cases h

/-- **`#f` is right where nothing goes round**, by induction on the bound. -/
theorem exactAt (s : Data X) (fuel : ℕ) : ExactAt s fuel := by
  induction fuel with
  | zero => exact ⟨nofun, nofun, nofun⟩
  | succ fuel ih => exact ⟨exactAt_values ih, exactAt_elems ih, exactAt_pairs ih⟩

end Exact

/-! ## The comparison ends -/

section Ends

variable {X : Type} {s : Data X} {a b : Value} {seen : PairMap} {k : ℕ}

open Traversal

/-- The pairs and the vectors of the tables. -/
def Data.objects (s : Data X) : Finset Value :=
  (Finset.range s.pairs.length).image .pair ∪ (Finset.range s.vectors.length).image .vector

/-- How many of them are not in a map. -/
def Data.unseen (s : Data X) (seen : PairMap) : ℕ :=
  (s.objects.filter fun v => seen.lookup v = none).card

/-- A map that grows leaves fewer objects. -/
theorem unseen_cons_lt (hmem : a ∈ s.objects) (ha : seen.lookup a = none) (b : Value) :
    s.unseen ((a, b) :: seen) < s.unseen seen := by
  refine Traversal.card_filter_lt (fun v hv => ?_) hmem ha ?_
  · rw [List.lookup_cons] at hv
    split at hv
    · cases hv
    · exact hv
  · rw [List.lookup_cons, beq_self_eq_true]
    exact Option.some_ne_none b

/-- One comparison, and after the answer `#t` another one. -/
theorem returns_and {f g : ℕ → Option Bool} (hf : Returns f) (hg : Returns g) :
    Returns fun fuel => (do if !(← f fuel) then return false else g fuel : Option Bool) :=
  hf.andThen hg (fun r o => if !r then some false else o) fun r r' => by
    cases r with
    | false => exact ⟨false, rfl⟩
    | true => exact ⟨r', rfl⟩

/-- Vectors are compared, where their elements are. -/
theorem returns_elems {xs ys : List Value}
    (h : ∀ x ∈ xs, ∀ y ∈ ys, Returns fun fuel => equalValues s fuel seen x y) :
    Returns fun fuel => equalElems s fuel seen xs ys := by
  induction xs generalizing ys with
  | nil => exact .of_succ (returns_some true)
  | cons x xs ih =>
    cases ys with
    | nil => exact .of_succ (returns_some true)
    | cons y ys =>
      refine .of_succ ?_
      unfold equalElems
      exact returns_and (h x List.mem_cons_self y List.mem_cons_self)
        (ih fun v hv w hw => h v (List.mem_cons_of_mem x hv) w (List.mem_cons_of_mem y hw))

/-- Where fewer objects than a bound are not in the map, the comparison returns;
by induction on the bound. -/
structure ReturnsBelow (s : Data X) (k : ℕ) : Prop where
  values : ∀ {seen : PairMap} {a b : Value}, s.unseen seen < k → s.Present a → s.Present b →
    Returns fun fuel => equalValues s fuel seen a b
  pairs : ∀ {seen : PairMap} {x y : ℕ}, s.unseen seen < k → s.Present (.pair x) →
    s.Present (.pair y) → Returns fun fuel => equalPairs s fuel seen (.pair x) (.pair y)

/-- A pair that is there has fields that are there. -/
theorem pairAt_of_present {x : ℕ} (hs : s.Linked) (h : s.Present (.pair x)) :
    ∃ v w, s.pairAt (.pair x) = some (v, w) ∧ s.Present v ∧ s.Present w := by
  have hget : s.pairs[x]? = some s.pairs[x] := List.getElem?_eq_getElem h
  have hchildren := (of_pairAt (s := s) (a := .pair x) hget).2
  refine ⟨_, _, hget, hs _ _ h ?_, hs _ _ h ?_⟩
  · rw [hchildren]
    exact List.mem_cons_self
  · rw [hchildren]
    exact List.mem_cons_of_mem _ List.mem_cons_self

/-- Lists are compared, as the map grows. -/
theorem returns_pairs (hs : s.Linked) (ih : ReturnsBelow s k) {x y : ℕ}
    (hk : s.unseen seen < k + 1) (hx : s.Present (.pair x)) (hy : s.Present (.pair y)) :
    Returns fun fuel => equalPairs s fuel seen (.pair x) (.pair y) := by
  refine .of_succ ?_
  unfold equalPairs
  cases hlookup : seen.lookup (.pair x) with
  | some b' => exact returns_some _
  | none =>
    obtain ⟨v, w, hxat, hv, hw⟩ := pairAt_of_present hs hx
    obtain ⟨v', w', hyat, hv', hw'⟩ := pairAt_of_present hs hy
    have hmem : Value.pair x ∈ s.objects :=
      Finset.mem_union_left _ (Finset.mem_image_of_mem _ (Finset.mem_range.mpr hx))
    have hlt : s.unseen ((.pair x, .pair y) :: seen) < k :=
      Nat.lt_of_lt_of_le (unseen_cons_lt hmem hlookup _) (Nat.le_of_lt_succ hk)
    dsimp only
    rw [hxat, hyat]
    refine returns_and (ih.values hlt hv hv') ?_
    split
    · exact returns_some true
    · split
      · exact returns_some false
      · rename_i hpairs
        split
        · rename_i hpair
          have hpair' : isPair w' = true := by rw [← not_not.mp hpairs, hpair]
          cases w <;> cases hpair
          cases w' <;> cases hpair'
          exact ih.pairs hlt hw hw'
        · exact ih.values hlt hw hw'

/-- Values are compared, as the map grows. -/
theorem returns_values (hs : s.Linked) (ih : ReturnsBelow s k) (hk : s.unseen seen < k + 1)
    (ha : s.Present a) (hb : s.Present b) :
    Returns fun fuel => equalValues s fuel seen a b := by
  refine .of_succ ?_
  unfold equalValues
  by_cases hab : a = b
  · simp only [if_pos hab]
    exact returns_some true
  · simp only [if_neg hab]
    split
    · exact returns_some _
    · rename_i x y
      cases hlookup : seen.lookup (.vector x) with
      | some b' => exact returns_some _
      | none =>
        dsimp only
        split
        · exact returns_some false
        · have hmem : Value.vector x ∈ s.objects :=
            Finset.mem_union_right _ (Finset.mem_image_of_mem _ (Finset.mem_range.mpr ha))
          have hlt : s.unseen ((.vector x, .vector y) :: seen) < k :=
            Nat.lt_of_lt_of_le (unseen_cons_lt hmem hlookup _) (Nat.le_of_lt_succ hk)
          exact returns_elems fun v hv w hw =>
            ih.values hlt (hs (.vector x) v ha hv) (hs (.vector y) w hb hw)
    · exact returns_pairs hs ih hk ha hb
    · exact returns_some false

/-- **The comparison returns**, by induction on the objects that are not in the map. -/
theorem returnsBelow (hs : s.Linked) (k : ℕ) : ReturnsBelow s k := by
  induction k with
  | zero => exact ⟨fun h => absurd h (Nat.not_lt_zero _), fun h => absurd h (Nat.not_lt_zero _)⟩
  | succ k ih => exact ⟨returns_values hs ih, returns_pairs hs ih⟩

end Ends

/-! ## `equal?` -/

section Main

variable {X : Type} {s : Data X} {a b : Value}

/-- **`equal?` on graphs**: the comparison ends and leaves the map as it found it;
what it finds equal unfolds alike; and where no cycle is in reach of the first
value, it finds equal exactly what unfolds alike. -/
theorem equal_on_graphs (hs : s.Linked) (ha : s.Present a) (hb : s.Present b) :
    (∀ seen, ∃ bound, ∀ fuel ≥ bound, ∃ r, equalValuesIn s fuel a b seen = some (r, seen)) ∧
      ∀ fuel r seen, equalValuesIn s fuel a b [] = some (r, seen) →
        (r = true → s.SameUnfolding a b) ∧ (s.Acyclic a → (r = true ↔ s.SameUnfolding a b)) := by
  constructor
  · intro seen
    obtain ⟨bound, h⟩ := (returnsBelow hs _).values (Nat.lt_succ_self (s.unseen seen)) ha hb
    refine ⟨bound, fun fuel hfuel => ?_⟩
    obtain ⟨r, hr⟩ := h fuel hfuel
    exact ⟨r, by rw [equalValuesIn_eq, show equalValues s fuel seen a b = some r from hr]; rfl⟩
  · intro fuel r seen h
    rw [equalValuesIn_eq] at h
    obtain ⟨r', hr, heq⟩ := Option.map_eq_some_iff.mp h
    obtain ⟨rfl, -⟩ := Prod.mk.inj heq
    have hsound : r' = true → s.SameUnfolding a b := by
      rintro rfl
      exact sameUnfolding_of_equalValues hr
    refine ⟨hsound, fun hacyclic => ⟨hsound, (exactAt s fuel).values hr ?_ hacyclic⟩⟩
    exact fun k hk => absurd rfl hk

/-- Two lists of one element that go round. -/
def circles : Data Unit where
  pairs := [(.int 1, .pair 0), (.int 1, .pair 1)]
  strings := []
  vectors := []
  errors := []
  winds := []
  windNextId := 0
  handler := none
  gensymCounter := 0
  ext := ()

theorem linked_circles : circles.Linked := by
  intro v w hv hw
  cases v with
  | pair x =>
    have hx : x = 0 ∨ x = 1 := Nat.le_one_iff_eq_zero_or_eq_one.mp (Nat.le_of_lt_succ hv)
    rcases hx with rfl | rfl <;>
      rcases List.mem_pair.mp (show w ∈ [_, _] from hw) with rfl | rfl <;>
      trivial
  | vector x => exact absurd hv (Nat.not_lt_zero x)
  | _ => exact absurd hw List.not_mem_nil

/-- Two circles are compared. -/
theorem equal_on_graphs_circles :
    (∀ seen, ∃ bound, ∀ fuel ≥ bound,
      ∃ r, equalValuesIn circles fuel (.pair 0) (.pair 1) seen = some (r, seen)) ∧
      ∀ fuel r seen, equalValuesIn circles fuel (.pair 0) (.pair 1) [] = some (r, seen) →
        (r = true → circles.SameUnfolding (.pair 0) (.pair 1)) ∧
          (circles.Acyclic (.pair 0) → (r = true ↔ circles.SameUnfolding (.pair 0) (.pair 1))) :=
  equal_on_graphs linked_circles (show 0 < 2 by decide) (show 1 < 2 by decide)

example : equalValuesIn circles 4 (.pair 0) (.pair 1) [] = some (true, []) := by decide

end Main

end Scheme14
