import SecdScheme.Scheme14.Boxes
import SecdScheme.Scheme14.Equality

/-!
# scheme14: printing graphs

`write_value` keeps in a set the pairs and the vectors it is in the middle of,
all those of a list up to its end. What it meets of them again it does not go
into, and says so. A box of multiple values it goes into as well, but does not
enter: a box holds older ones only, so that every cycle has a pair or a vector in
it. Here the printer is shown with the set it changes, and with what it writes in
pieces, so that a marker is told from a text that looks like one.
-/

namespace Scheme14

open Traversal Unfolding

/-- What is written at once: a text, or the marker of a cycle. -/
inductive Piece where
  | text (t : Text)
  | circular (t : Text)

namespace Piece

/-- The characters of a piece. -/
def chars : Piece → Text
  | text t => t
  | circular t => t

/-- The piece is a marker. -/
def isCircular : Piece → Bool
  | text _ => false
  | circular _ => true

end Piece

/-- The text that is written. -/
def render (out : List Piece) : Text := out.flatMap Piece.chars

/-- A marker is in what is written. -/
def hasMarker (out : List Piece) : Bool := out.any Piece.isCircular

/-- `path.erase`. -/
def erasePath (path : List Value) (v : Value) : List Value := eraseKey id path v

section Write

variable {Y : Type} (objectText : Value → Text) (s : Data (Boxes Y))

mutual

/-- **`write_value`**, with the path as it is left. -/
def writeValueIn : ℕ → Value → List Value → Option (List Piece × List Value)
  | 0, _, _ => none
  | fuel + 1, v, path =>
    match v with
    | .pair _ => (writeListIn fuel true v [] path).map fun r => (.text ['('] :: r.1, r.2)
    | .vector a =>
      if v ∈ path then some ([.circular "#<circular-vector>".toList], path)
      else (writeElemsIn fuel true ((s.vectors[a]?).getD []) (v :: path)).map
        fun r => (.text ['#', '('] :: r.1, erasePath r.2 v)
    | .string a => some ([.text (stringText ((s.strings[a]?).getD ""))], path)
    | .values a => (writeBoxIn fuel (s.ext.boxed a) path).map
        fun r => (.text "#<values".toList :: r.1, r.2)
    | v => some ([.text (atomText objectText v)], path)

/-- The loop of `write_list`, what it has entered into the path, and what is done
at its end. -/
def writeListIn : ℕ → Bool → Value → List Value → List Value → Option (List Piece × List Value)
  | 0, _, _, _, _ => none
  | fuel + 1, first, ls, mine, path =>
    if ls = .nil then some ([.text [')']], mine.foldl erasePath path)
    else match s.pairAt ls with
      | none => (writeValueIn fuel ls path).map fun r =>
          (.text [' ', '.', ' '] :: (r.1 ++ [.text [')']]), mine.foldl erasePath r.2)
      | some (x, y) =>
        if ls ∈ path then
          some ([.text [' ', '.', ' '], .circular "#<circular>".toList, .text [')']],
            mine.foldl erasePath path)
        else (writeValueIn fuel x (ls :: path)).bind fun r =>
          (writeListIn fuel false y (mine ++ [ls]) r.2).map fun r' =>
            ((if first then [] else [.text [' ']]) ++ r.1 ++ r'.1, r'.2)

/-- The loop of `write_vector`, and the parenthesis at its end. -/
def writeElemsIn : ℕ → Bool → List Value → List Value → Option (List Piece × List Value)
  | 0, _, _, _ => none
  | _ + 1, _, [], path => some ([.text [')']], path)
  | fuel + 1, first, v :: vs, path => (writeValueIn fuel v path).bind fun r =>
      (writeElemsIn fuel false vs r.2).map fun r' =>
        ((if first then [] else [.text [' ']]) ++ r.1 ++ r'.1, r'.2)

/-- The loop over the values of a box, and the bracket at its end. -/
def writeBoxIn : ℕ → List Value → List Value → Option (List Piece × List Value)
  | 0, _, _ => none
  | _ + 1, [], path => some ([.text ['>']], path)
  | fuel + 1, v :: vs, path => (writeValueIn fuel v path).bind fun r =>
      (writeBoxIn fuel vs r.2).map fun r' => ([.text [' ']] ++ r.1 ++ r'.1, r'.2)

end

end Write

/-! ## What there is to print -/

section Parts

variable {Y : Type} (s : Data (Boxes Y))

/-- The parts of a value that the printer goes into. -/
def Data.parts : Value → List Value
  | .values a => s.ext.boxed a
  | v => s.children v

/-- **Parts of what is there are there**, those in a box as well. -/
def Data.Wired : Prop := ∀ v w, s.Present v → w ∈ s.parts v → s.Present w

/-- No cycle is in reach of a value, through boxes or not. -/
abbrev Data.NoCycle (v : Value) : Prop := Unfolding.Acyclic s.parts v

end Parts

/-- A tree of values. -/
inductive Tree where
  | atom (v : Value)
  | string (s : String)
  | vector (ts : List Tree)
  | pair (t u : Tree)
  | values (ts : List Tree)

mutual

/-- **A value unfolds to a tree.** -/
def Data.UnfoldsTo {Y : Type} (s : Data (Boxes Y)) (v : Value) : Tree → Prop
  | .atom w => v = w ∧ v.isAtom = true
  | .string t => ∃ a, v = .string a ∧ s.strings[a]? = some t
  | .vector ts => ∃ a vs, v = .vector a ∧ s.vectors[a]? = some vs ∧ s.UnfoldsToEach vs ts
  | .pair t u => ∃ a x y, v = .pair a ∧ s.pairs[a]? = some (x, y) ∧ s.UnfoldsTo x t ∧
      s.UnfoldsTo y u
  | .values ts => ∃ a, v = .values a ∧ s.UnfoldsToEach (s.ext.boxed a) ts

/-- Values unfold to trees, one by one. -/
def Data.UnfoldsToEach {Y : Type} (s : Data (Boxes Y)) (vs : List Value) : List Tree → Prop
  | [] => vs = []
  | t :: ts => ∃ v us, vs = v :: us ∧ s.UnfoldsTo v t ∧ s.UnfoldsToEach us ts

end

section TreeText

variable (objectText : Value → Text)

mutual

/-- The text of a tree. -/
def Tree.text : Tree → Text
  | .atom v => atomText objectText v
  | .string s => stringText s
  | .vector ts => '#' :: '(' :: Tree.elemsText true ts
  | .pair t u => '(' :: (t.text ++ u.tailText false)
  | .values ts => "#<values".toList ++ Tree.boxText ts

/-- A list from one of its pairs on, or what comes instead of one. -/
def Tree.tailText : Bool → Tree → Text
  | _, .atom v => if v = .nil then [')'] else [' ', '.', ' '] ++ atomText objectText v ++ [')']
  | _, .string s => [' ', '.', ' '] ++ stringText s ++ [')']
  | _, .vector ts => [' ', '.', ' '] ++ ('#' :: '(' :: Tree.elemsText true ts) ++ [')']
  | first, .pair t u => (if first then [] else [' ']) ++ t.text ++ u.tailText false
  | _, .values ts => [' ', '.', ' '] ++ ("#<values".toList ++ Tree.boxText ts) ++ [')']

/-- The elements of a vector, and the parenthesis. -/
def Tree.elemsText : Bool → List Tree → Text
  | _, [] => [')']
  | first, t :: ts => (if first then [] else [' ']) ++ t.text ++ Tree.elemsText false ts

/-- The values of a box, and the bracket. -/
def Tree.boxText : List Tree → Text
  | [] => ['>']
  | t :: ts => ' ' :: (t.text ++ Tree.boxText ts)

end

end TreeText

/-! ## Pieces -/

section Pieces

variable {out out' : List Piece} {t t' : Text}

/-- Pieces are written one after another. -/
@[simp] theorem render_append : render (out ++ out') = render out ++ render out' :=
  List.flatMap_append

@[simp] theorem render_cons_text : render (.text t :: out) = t ++ render out := rfl

@[simp] theorem render_cons_circular : render (.circular t :: out) = t ++ render out := rfl

@[simp] theorem render_nil : render [] = [] := rfl

/-- A marker is in one of two parts. -/
@[simp] theorem hasMarker_append : hasMarker (out ++ out') = (hasMarker out || hasMarker out') :=
  List.any_append

@[simp] theorem hasMarker_cons_text : hasMarker (.text t :: out) = hasMarker out := rfl

@[simp] theorem hasMarker_cons_circular : hasMarker (.circular t :: out) = true := rfl

@[simp] theorem hasMarker_nil : hasMarker [] = false := rfl

end Pieces

/-! ## One run of the printer -/

section Runs

variable {Y : Type} {objectText : Value → Text} {s : Data (Boxes Y)} {fuel : ℕ} {v ls : Value}
  {mine path path₀ : List Value} {first : Bool}

/-- A pair or a vector. -/
def Value.isObject : Value → Bool
  | .pair _ => true
  | .vector _ => true
  | _ => false

/-- **What a run comes to**: the text of the printer that is given its path, the
path as it is to be left, and no marker exactly under a condition. -/
def Written (r : Option (List Piece × List Value)) (t : Option Text) (path : List Value)
    (clear : Prop) : Prop :=
  match t with
  | none => r = none
  | some t => ∃ out, r = some (out, path) ∧ render out = t ∧ (hasMarker out = false ↔ clear)

/-- What is left to do with the result of a run. -/
theorem Written.map {r : Option (List Piece × List Value)} {t : Option Text} {clear : Prop}
    (h : Written r t path clear) {f : List Piece × List Value → List Piece × List Value}
    {g : Text → Text} (hf : ∀ out, ∃ out', f (out, path) = (out', path₀) ∧
      render out' = g (render out) ∧ hasMarker out' = hasMarker out) :
    Written (r.map f) (t.bind fun u => some (g u)) path₀ clear := by
  cases t with
  | none =>
    rw [show r = none from h]
    rfl
  | some t =>
    obtain ⟨out, rfl, rfl, hclear⟩ := h
    obtain ⟨out', hout, hrender, hmarker⟩ := hf out
    exact ⟨out', congrArg some hout, hrender, by rw [hmarker, hclear]⟩

/-- One run after the other. -/
theorem Written.bind {r : Option (List Piece × List Value)} {t t' : Option Text}
    {q : List Value → Option (List Piece × List Value)} {clear clear' : Prop}
    (h : Written r t path clear) (h' : Written (q path) t' path₀ clear') (sep : List Piece)
    (hsep : hasMarker sep = false) :
    Written (r.bind fun o => (q o.2).map fun o' => (sep ++ o.1 ++ o'.1, o'.2))
      (t.bind fun u => t'.bind fun u' => some (render sep ++ u ++ u')) path₀
      (clear ∧ clear') := by
  cases t with
  | none =>
    rw [show r = none from h]
    rfl
  | some t =>
    obtain ⟨out, rfl, rfl, hclear⟩ := h
    cases t' with
    | none =>
      rw [Option.bind_some, show q path = none from h']
      rfl
    | some t' =>
      obtain ⟨out', hr', rfl, hclear'⟩ := h'
      refine ⟨sep ++ out ++ out', ?_, ?_, ?_⟩
      · rw [Option.bind_some, hr']
        rfl
      · rw [render_append, render_append]
      · rw [hasMarker_append, hasMarker_append, hsep, Bool.false_or, Bool.or_eq_false_iff,
          hclear, hclear']

/-- The entries of a path are objects. -/
def Objects (path : List Value) : Prop := ∀ v ∈ path, v.isObject = true

/-- An object is put onto a path of objects. -/
theorem Objects.cons (h : Objects path) (hv : v.isObject = true) : Objects (v :: path) := by
  intro w hw
  rcases List.mem_cons.mp hw with rfl | hw
  · exact hv
  · exact h w hw

/-- What is no object is on no path. -/
theorem Objects.not_mem (h : Objects path) (hv : v.isObject = false) : v ∉ path := by
  intro hmem
  rw [h v hmem] at hv
  cases hv

/-- What has no parts is clear of every path. -/
theorem clear_of_no_parts (hpath : Objects path) (hv : v.isObject = false)
    (hparts : s.parts v = []) : Clear s.parts path v := by
  refine clear_iff.mpr ⟨hpath.not_mem hv, fun b hb => ?_⟩
  rw [hparts] at hb
  cases hb

/-- A box is clear of a path when what it holds is. -/
theorem clear_values_iff (hpath : Objects path) {a : ℕ} :
    Clear s.parts path (.values a) ↔ ∀ v ∈ s.ext.boxed a, Clear s.parts path v :=
  clear_iff_of_same.trans (and_iff_right (hpath.not_mem rfl))

/-- The parts of a pair are its fields. -/
theorem parts_of_pairAt {x y : Value} (h : s.pairAt ls = some (x, y)) : s.parts ls = [x, y] := by
  rw [← (of_pairAt h).2]
  cases ls with
  | pair a => rfl
  | _ => cases h

/-- What is shown of the functions together, by induction on the bound. -/
structure WritesAt (objectText : Value → Text) (s : Data (Boxes Y)) (fuel : ℕ) : Prop where
  value : ∀ {v : Value} {path : List Value}, Objects path →
    Written (writeValueIn objectText s fuel v path) (writeValue objectText s.ext.boxed s fuel v path) path
      (Clear s.parts path v)
  tail : ∀ {first : Bool} {ls : Value} {mine path path₀ : List Value}, Objects path →
    Traversal.Unwinds id mine path path₀ →
    Written (writeListIn objectText s fuel first ls mine path)
      (writeTail objectText s.ext.boxed s fuel first ls path) path₀ (Clear s.parts path ls)
  elems : ∀ {first : Bool} {vs path : List Value}, Objects path →
    Written (writeElemsIn objectText s fuel first vs path)
      (writeElems objectText s.ext.boxed s fuel first vs path) path (∀ v ∈ vs, Clear s.parts path v)
  box : ∀ {vs path : List Value}, Objects path →
    Written (writeBoxIn objectText s fuel vs path)
      (writeBox objectText s.ext.boxed s fuel vs path) path (∀ v ∈ vs, Clear s.parts path v)

/-- One turn of `write_value`: strings and symbols at once, the rest with its parts. -/
theorem writesAt_value (ih : WritesAt objectText s fuel) (hpath : Objects path) :
    Written (writeValueIn objectText s (fuel + 1) v path)
      (writeValue objectText s.ext.boxed s (fuel + 1) v path) path (Clear s.parts path v) := by
  have hatom : v.isObject = false → s.parts v = [] → ∀ t,
      Written (some ([.text t], path)) (some t) path (Clear s.parts path v) := fun hv hparts t =>
    ⟨_, rfl, List.append_nil t, iff_of_true rfl (clear_of_no_parts hpath hv hparts)⟩
  cases v with
  | pair a =>
    exact (ih.tail hpath (.nil path)).map (g := fun t => '(' :: t) fun out => ⟨_, rfl, rfl, rfl⟩
  | vector a =>
    unfold writeValueIn writeValue
    dsimp only
    by_cases hmem : Value.vector a ∈ path
    · rw [if_pos hmem, if_pos hmem]
      exact ⟨_, rfl, rfl, iff_of_false (fun h => by cases h) fun h => (clear_iff.mp h).1 hmem⟩
    · rw [if_neg hmem, if_neg hmem]
      have helems : Written
          (writeElemsIn objectText s fuel true ((s.vectors[a]?).getD []) (.vector a :: path))
          (writeElems objectText s.ext.boxed s fuel true ((s.vectors[a]?).getD []) (.vector a :: path))
          (.vector a :: path) _ := ih.elems (hpath.cons rfl)
      have hclear : (∀ v ∈ (s.vectors[a]?).getD [], Clear s.parts (.vector a :: path) v) ↔
          Clear s.parts path (.vector a) :=
        ⟨fun h => clear_iff.mpr ⟨hmem, h⟩, fun h => (clear_iff.mp h).2⟩
      rw [← hclear]
      refine helems.map (g := fun t => '#' :: '(' :: t) fun out =>
        ⟨.text ['#', '('] :: out, ?_, rfl, rfl⟩
      exact congrArg (Prod.mk _) (eraseKey_cons_self path (Value.vector a))
  | values a =>
    rw [clear_values_iff hpath]
    exact (ih.box hpath).map (g := fun t => "#<values".toList ++ t) fun out => ⟨_, rfl, rfl, rfl⟩
  | _ => exact hatom rfl rfl _

/-- One turn along the elements of a vector. -/
theorem writesAt_elems (ih : WritesAt objectText s fuel) {vs : List Value}
    (hpath : Objects path) : Written (writeElemsIn objectText s (fuel + 1) first vs path)
      (writeElems objectText s.ext.boxed s (fuel + 1) first vs path) path
      (∀ v ∈ vs, Clear s.parts path v) := by
  cases vs with
  | nil => exact ⟨_, rfl, rfl, iff_of_true rfl (List.forall_mem_nil _)⟩
  | cons v vs =>
    rw [List.forall_mem_cons]
    have hboth := (ih.value (v := v) hpath).bind
      (q := fun path => writeElemsIn objectText s fuel false vs path)
      (ih.elems hpath) (if first then [] else [.text [' ']]) (by cases first <;> rfl)
    cases first <;> exact hboth

/-- One turn along the values of a box. -/
theorem writesAt_box (ih : WritesAt objectText s fuel) {vs : List Value} (hpath : Objects path) :
    Written (writeBoxIn objectText s (fuel + 1) vs path)
      (writeBox objectText s.ext.boxed s (fuel + 1) vs path) path
      (∀ v ∈ vs, Clear s.parts path v) := by
  cases vs with
  | nil => exact ⟨_, rfl, rfl, iff_of_true rfl (List.forall_mem_nil _)⟩
  | cons v vs =>
    rw [List.forall_mem_cons]
    have hboth := (ih.value (v := v) hpath).bind
      (q := fun path => writeBoxIn objectText s fuel vs path) (ih.box hpath) [.text [' ']] rfl
    exact hboth

/-- One turn along a list, whose pairs stay on the path up to its end. -/
theorem writesAt_tail (ih : WritesAt objectText s fuel) (hpath : Objects path)
    (h : Traversal.Unwinds id mine path path₀) :
    Written (writeListIn objectText s (fuel + 1) first ls mine path)
      (writeTail objectText s.ext.boxed s (fuel + 1) first ls path) path₀ (Clear s.parts path ls) := by
  have herase : mine.foldl erasePath path = path₀ := h.erased
  unfold writeListIn writeTail
  by_cases hnil : ls = .nil
  · rw [if_pos hnil, if_pos hnil, herase, hnil]
    exact ⟨_, rfl, rfl, iff_of_true rfl (clear_of_no_parts hpath rfl rfl)⟩
  rw [if_neg hnil, if_neg hnil]
  rcases hat : s.pairAt ls with _ | ⟨x, y⟩
  · dsimp only
    refine (ih.value hpath).map (g := fun t => [' ', '.', ' '] ++ t ++ [')']) fun out => ?_
    refine ⟨_, congrArg (Prod.mk _) herase, ?_, ?_⟩
    · simp
    · simp
  · dsimp only
    by_cases hmem : ls ∈ path
    · rw [if_pos hmem, if_pos hmem, herase]
      exact ⟨_, rfl, by decide, iff_of_false (fun h => by cases h) fun h => (clear_iff.mp h).1 hmem⟩
    · rw [if_neg hmem, if_neg hmem]
      have hobject : ls.isObject = true := by cases ls <;> first | rfl | cases hat
      have hcons : Traversal.Unwinds id (mine ++ [ls]) (ls :: path) path₀ :=
        h.cons (e := ls) fun x hx (hxl : x = ls) => hmem (hxl ▸ hx)
      have hclear : Clear s.parts path ls ↔
          Clear s.parts (ls :: path) x ∧ Clear s.parts (ls :: path) y := by
        rw [clear_iff, parts_of_pairAt hat, List.forall_mem_cons, List.forall_mem_singleton]
        exact and_iff_right hmem
      rw [hclear]
      have hboth := (ih.value (v := x) (hpath.cons hobject)).bind
        (q := fun path => writeListIn objectText s fuel false y (mine ++ [ls]) path)
        (ih.tail (hpath.cons hobject) hcons) (if first then [] else [.text [' ']])
        (by cases first <;> rfl)
      cases first <;> exact hboth

/-- **What is written is the text of the abstract writer**, by induction on the bound. -/
theorem writesAt (objectText : Value → Text) (s : Data (Boxes Y)) (fuel : ℕ) :
    WritesAt objectText s fuel := by
  induction fuel with
  | zero => exact ⟨fun _ => rfl, fun _ _ => rfl, fun _ => rfl, fun _ => rfl⟩
  | succ fuel ih => exact ⟨writesAt_value ih, writesAt_tail ih, writesAt_elems ih, writesAt_box ih⟩

end Runs

/-! ## Printing ends -/

section Ends

variable {Y : Type} {objectText : Value → Text} {s : Data (Boxes Y)} {v ls : Value}
  {path : List Value} {first : Bool} {k : ℕ}

/-- How many pairs and vectors of the tables are not on a path. -/
def Data.unwritten (s : Data (Boxes Y)) (path : List Value) : ℕ :=
  (s.objects.filter (· ∉ path)).card

/-- A path that grows leaves fewer objects. -/
theorem unwritten_cons_lt (hmem : v ∈ s.objects) (hv : v ∉ path) :
    s.unwritten (v :: path) < s.unwritten path :=
  card_filter_lt (fun _ => List.not_mem_of_not_mem_cons) hmem hv
    (not_not.mpr List.mem_cons_self)

/-- A pair that is there is one of the objects. -/
theorem pair_mem_objects {a : ℕ} (h : s.Present (.pair a)) : Value.pair a ∈ s.objects :=
  Finset.mem_union_left _ (Finset.mem_image_of_mem _ (Finset.mem_range.mpr h))

/-- So is a vector. -/
theorem vector_mem_objects {a : ℕ} (h : s.Present (.vector a)) : Value.vector a ∈ s.objects :=
  Finset.mem_union_right _ (Finset.mem_image_of_mem _ (Finset.mem_range.mpr h))

/-- The parts that `equal?` looks at are among those that are written. -/
theorem Data.Wired.linked (hs : s.Wired) : s.Linked := by
  intro v w hv hw
  cases v with
  | values a => cases hw
  | _ => exact hs _ w hv hw

/-- What a box holds is older than the box. -/
theorem olderThan_of_mem_boxed {a : ℕ} (h : v ∈ s.ext.boxed a) : v.olderThan a = true := by
  have hget : s.ext.vals[a]? = some (s.ext.boxed a) := by
    show s.ext.vals[a]? = some (s.ext.vals.getD a [])
    rw [List.getD_eq_getElem?_getD]
    cases hvals : s.ext.vals[a]? with
    | some vs => rfl
    | none =>
      rw [Boxes.boxed, List.getD_eq_getElem?_getD, hvals] at h
      cases h
  exact List.all_eq_true.mp (s.ext.older a _ hget) v h

/-- Where fewer objects than a bound are off the path, the printer returns; by
induction on the bound. -/
structure WritesBelow (objectText : Value → Text) (s : Data (Boxes Y)) (k : ℕ) : Prop where
  value : ∀ {v : Value} {path : List Value}, s.unwritten path < k → s.Present v →
    Traversal.Returns fun fuel => writeValue objectText s.ext.boxed s fuel v path
  tail : ∀ {first : Bool} {ls : Value} {path : List Value}, s.unwritten path < k →
    s.Present ls → Traversal.Returns fun fuel => writeTail objectText s.ext.boxed s fuel first ls path

/-- Elements are written, where each of them is. -/
theorem returns_writeElems {vs : List Value}
    (h : ∀ v ∈ vs, Traversal.Returns fun fuel => writeValue objectText s.ext.boxed s fuel v path) :
    Traversal.Returns fun fuel => writeElems objectText s.ext.boxed s fuel first vs path := by
  induction vs generalizing first with
  | nil => exact .of_succ (returns_some [')'])
  | cons v vs ih =>
    refine .of_succ ?_
    unfold writeElems
    obtain ⟨hv, hvs⟩ := List.forall_mem_cons.mp h
    exact hv.andThen (ih hvs)
      (fun t o => o.bind fun t' => some ((if first then [] else [' ']) ++ t ++ t'))
      fun t t' => ⟨_, rfl⟩

/-- So are the values of a box. -/
theorem returns_writeBox {vs : List Value}
    (h : ∀ v ∈ vs, Traversal.Returns fun fuel => writeValue objectText s.ext.boxed s fuel v path) :
    Traversal.Returns fun fuel => writeBox objectText s.ext.boxed s fuel vs path := by
  induction vs with
  | nil => exact .of_succ (returns_some ['>'])
  | cons v vs ih =>
    refine .of_succ ?_
    unfold writeBox
    obtain ⟨hv, hvs⟩ := List.forall_mem_cons.mp h
    exact hv.andThen (ih hvs) (fun t o => o.bind fun t' => some (' ' :: (t ++ t')))
      fun t t' => ⟨_, rfl⟩

/-- A list that begins with a pair: what is behind the pair has it on the path. -/
theorem returns_writeTail_pair (hs : s.Wired) (ih : WritesBelow objectText s k)
    (hk : s.unwritten path < k + 1) {a : ℕ} (ha : s.Present (.pair a)) :
    Traversal.Returns fun fuel =>
      writeTail objectText s.ext.boxed s fuel first (.pair a) path := by
  refine .of_succ ?_
  unfold writeTail
  obtain ⟨x, y, hat, hx, hy⟩ := pairAt_of_present hs.linked ha
  simp only [reduceCtorEq, if_false, hat]
  by_cases hmem : Value.pair a ∈ path
  · simp only [if_pos hmem]
    exact returns_some _
  · simp only [if_neg hmem]
    have hlt : s.unwritten (.pair a :: path) < k :=
      Nat.lt_of_lt_of_le (unwritten_cons_lt (pair_mem_objects ha) hmem) (Nat.le_of_lt_succ hk)
    exact (ih.value hlt hx).andThen (ih.tail hlt hy)
      (fun t o => o.bind fun t' => some ((if first then [] else [' ']) ++ t ++ t'))
      fun t t' => ⟨_, rfl⟩

/-- A value that is no box. -/
theorem returns_writeValue_of_not_box (hs : s.Wired) (ih : WritesBelow objectText s k)
    (hk : s.unwritten path < k + 1) (hv : s.Present v) (hbox : v.isValues = false) :
    Traversal.Returns fun fuel => writeValue objectText s.ext.boxed s fuel v path := by
  refine .of_succ ?_
  cases v with
  | values a => cases hbox
  | pair a => exact (returns_writeTail_pair hs ih hk hv).map fun t => '(' :: t
  | vector a =>
    unfold writeValue
    by_cases hmem : Value.vector a ∈ path
    · simp only [if_pos hmem]
      exact returns_some _
    · simp only [if_neg hmem]
      have hlt : s.unwritten (.vector a :: path) < k :=
        Nat.lt_of_lt_of_le (unwritten_cons_lt (vector_mem_objects hv) hmem) (Nat.le_of_lt_succ hk)
      exact (returns_writeElems fun w hw => ih.value hlt (hs (.vector a) w hv hw)).map
        fun t => '#' :: '(' :: t
  | _ => exact returns_some _

/-- **And a box**: what it holds are older boxes, or no boxes. -/
theorem returns_writeValue_box (hs : s.Wired) (ih : WritesBelow objectText s k)
    (hk : s.unwritten path < k + 1) (a : ℕ) :
    Traversal.Returns fun fuel => writeValue objectText s.ext.boxed s fuel (.values a) path := by
  induction a using Nat.strong_induction_on with
  | _ a iha =>
    refine .of_succ ?_
    refine (returns_writeBox fun w hw => ?_).map fun t => "#<values".toList ++ t
    cases hbox : w.isValues with
    | false => exact returns_writeValue_of_not_box hs ih hk (hs (.values a) w trivial hw) hbox
    | true =>
      obtain ⟨b, rfl⟩ : ∃ b, w = .values b := by
        cases w with
        | values b => exact ⟨b, rfl⟩
        | _ => cases hbox
      exact iha b (of_decide_eq_true (olderThan_of_mem_boxed hw))

/-- **A value is written**, as its path leaves fewer objects than before. -/
theorem returns_writeValue (hs : s.Wired) (ih : WritesBelow objectText s k)
    (hk : s.unwritten path < k + 1) (hv : s.Present v) :
    Traversal.Returns fun fuel => writeValue objectText s.ext.boxed s fuel v path := by
  cases v with
  | values a => exact returns_writeValue_box hs ih hk a
  | _ => exact returns_writeValue_of_not_box hs ih hk hv rfl

/-- So is a list. -/
theorem returns_writeTail (hs : s.Wired) (ih : WritesBelow objectText s k)
    (hk : s.unwritten path < k + 1) (hls : s.Present ls) :
    Traversal.Returns fun fuel => writeTail objectText s.ext.boxed s fuel first ls path := by
  cases hpair : isPair ls with
  | true =>
    obtain ⟨a, rfl⟩ : ∃ a, ls = .pair a := by cases ls <;> first | exact ⟨_, rfl⟩ | cases hpair
    exact returns_writeTail_pair hs ih hk hls
  | false =>
    refine .of_succ ?_
    unfold writeTail
    by_cases hnil : ls = .nil
    · simp only [if_pos hnil]
      exact returns_some _
    have hat : s.pairAt ls = none := by cases ls <;> first | rfl | cases hpair
    simp only [if_neg hnil, hat]
    exact (returns_writeValue hs ih hk hls).map fun t => [' ', '.', ' '] ++ t ++ [')']

/-- **Writing returns**, by induction on the objects that are not on the path. -/
theorem writesBelow (objectText : Value → Text) (hs : s.Wired) (k : ℕ) :
    WritesBelow objectText s k := by
  induction k with
  | zero => exact ⟨fun h => absurd h (Nat.not_lt_zero _), fun h => absurd h (Nat.not_lt_zero _)⟩
  | succ k ih => exact ⟨returns_writeValue hs ih, returns_writeTail hs ih⟩

end Ends

/-! ## Trees -/

section Trees

variable {Y : Type} {objectText : Value → Text} {s : Data (Boxes Y)} {v ls : Value}
  {path : List Value} {first : Bool} {t : Text} {fuel : ℕ}

/-- **What is written without a cycle** is the text of a tree; of the functions
together, by induction on the bound. -/
structure TreeAt (objectText : Value → Text) (s : Data (Boxes Y)) (fuel : ℕ) : Prop where
  value : ∀ {v : Value} {path : List Value} {t : Text},
    writeValue objectText s.ext.boxed s fuel v path = some t → s.Present v →
    Clear s.parts path v → ∃ u, s.UnfoldsTo v u ∧ t = u.text objectText
  tail : ∀ {first : Bool} {ls : Value} {path : List Value} {t : Text},
    writeTail objectText s.ext.boxed s fuel first ls path = some t → s.Present ls →
    Clear s.parts path ls → ∃ u, s.UnfoldsTo ls u ∧ t = u.tailText objectText first
  elems : ∀ {first : Bool} {vs path : List Value} {t : Text},
    writeElems objectText s.ext.boxed s fuel first vs path = some t →
    (∀ v ∈ vs, s.Present v ∧ Clear s.parts path v) →
    ∃ us, s.UnfoldsToEach vs us ∧ t = Tree.elemsText objectText first us
  box : ∀ {vs path : List Value} {t : Text},
    writeBox objectText s.ext.boxed s fuel vs path = some t →
    (∀ v ∈ vs, s.Present v ∧ Clear s.parts path v) →
    ∃ us, s.UnfoldsToEach vs us ∧ t = Tree.boxText objectText us

/-- What is written without a marker is the text of a tree. -/
theorem treeAt_value (hs : s.Wired) (ih : TreeAt objectText s fuel)
    (h : writeValue objectText s.ext.boxed s (fuel + 1) v path = some t) (hv : s.Present v)
    (hclear : Clear s.parts path v) : ∃ u, s.UnfoldsTo v u ∧ t = u.text objectText := by
  obtain ⟨hmem, hparts⟩ := clear_iff.mp hclear
  cases v with
  | pair a =>
    obtain ⟨t', ht', heq⟩ := Option.bind_eq_some_iff.mp h
    obtain ⟨u, hu, rfl⟩ := ih.tail ht' hv hclear
    refine ⟨u, hu, (Option.some.inj heq).symm.trans ?_⟩
    -- a pair unfolds to nothing but a pair
    cases u with
    | pair u u' => rfl
    | atom w =>
      obtain ⟨-, hatom⟩ := hu
      cases hatom
    | string t =>
      obtain ⟨b, hb, -⟩ := hu
      cases hb
    | vector ts =>
      obtain ⟨b, vs, hb, -⟩ := hu
      cases hb
    | values ts =>
      obtain ⟨b, hb, -⟩ := hu
      cases hb
  | vector a =>
    have hget : s.vectors[a]? = some s.vectors[a] := List.getElem?_eq_getElem hv
    have helems : s.parts (.vector a) = s.vectors[a] := by
      show (s.vectors[a]?).getD [] = _
      rw [hget]
      rfl
    unfold writeValue at h
    dsimp only at h
    rw [if_neg hmem, hget, Option.getD_some] at h
    obtain ⟨t', ht', heq⟩ := Option.bind_eq_some_iff.mp h
    obtain ⟨us, hus, rfl⟩ := ih.elems ht' fun w hw =>
      ⟨hs (.vector a) w hv (helems ▸ hw), hparts w (helems ▸ hw)⟩
    exact ⟨.vector us, ⟨a, _, rfl, hget, hus⟩, (Option.some.inj heq).symm⟩
  | string a =>
    have hget : s.strings[a]? = some s.strings[a] := List.getElem?_eq_getElem hv
    unfold writeValue at h
    dsimp only at h
    rw [hget, Option.getD_some] at h
    exact ⟨.string s.strings[a], ⟨a, rfl, hget⟩, (Option.some.inj h).symm⟩
  | values a =>
    obtain ⟨t', ht', heq⟩ := Option.bind_eq_some_iff.mp h
    have hboxed := (clear_iff_of_same.mp hclear).2
    obtain ⟨us, hus, rfl⟩ := ih.box ht' fun w hw => ⟨hs (.values a) w hv hw, hboxed w hw⟩
    exact ⟨.values us, ⟨a, rfl, hus⟩, (Option.some.inj heq).symm⟩
  | _ => exact ⟨.atom _, ⟨rfl, rfl⟩, (Option.some.inj h).symm⟩

/-- Behind a dot stands the text of a tree. -/
theorem tailText_of_not_pair {u : Tree} (hu : s.UnfoldsTo ls u) (hnil : ls ≠ .nil)
    (hpair : s.pairAt ls = none) :
    u.tailText objectText first = [' ', '.', ' '] ++ u.text objectText ++ [')'] := by
  cases u with
  | atom w =>
    obtain ⟨rfl, -⟩ := hu
    exact if_neg hnil
  | pair u u' =>
    obtain ⟨a, x, y, rfl, hget, -⟩ := hu
    rw [Data.pairAt, hget] at hpair
    cases hpair
  | _ => rfl

/-- So is the rest of a list. -/
theorem treeAt_tail (hs : s.Wired) (ih : TreeAt objectText s fuel)
    (h : writeTail objectText s.ext.boxed s (fuel + 1) first ls path = some t)
    (hls : s.Present ls) (hclear : Clear s.parts path ls) :
    ∃ u, s.UnfoldsTo ls u ∧ t = u.tailText objectText first := by
  unfold writeTail at h
  by_cases hnil : ls = .nil
  · rw [if_pos hnil] at h
    exact ⟨.atom .nil, ⟨hnil, hnil ▸ rfl⟩, (Option.some.inj h).symm⟩
  rw [if_neg hnil] at h
  rcases hat : s.pairAt ls with _ | ⟨x, y⟩ <;> rw [hat] at h
  · obtain ⟨t', ht', heq⟩ := Option.bind_eq_some_iff.mp h
    obtain ⟨u, hu, rfl⟩ := ih.value ht' hls hclear
    exact ⟨u, hu, (Option.some.inj heq).symm.trans (tailText_of_not_pair hu hnil hat).symm⟩
  · obtain ⟨hmem, hparts⟩ := clear_iff.mp hclear
    dsimp only at h
    rw [if_neg hmem] at h
    have hhere := parts_of_pairAt hat
    have hx : x ∈ s.parts ls := hhere ▸ List.mem_cons_self
    have hy : y ∈ s.parts ls := hhere ▸ List.mem_cons_of_mem x List.mem_cons_self
    obtain ⟨t₁, ht₁, h⟩ := Option.bind_eq_some_iff.mp h
    obtain ⟨t₂, ht₂, heq⟩ := Option.bind_eq_some_iff.mp h
    obtain ⟨u₁, hu₁, rfl⟩ := ih.value ht₁ (hs ls x hls hx) (hparts x hx)
    obtain ⟨u₂, hu₂, rfl⟩ := ih.tail ht₂ (hs ls y hls hy) (hparts y hy)
    obtain ⟨a, rfl⟩ : ∃ a, ls = .pair a := by cases ls <;> first | exact ⟨_, rfl⟩ | cases hat
    exact ⟨.pair u₁ u₂, ⟨a, x, y, rfl, hat, hu₁, hu₂⟩, (Option.some.inj heq).symm⟩

/-- So are elements. -/
theorem treeAt_elems (ih : TreeAt objectText s fuel) {vs : List Value}
    (h : writeElems objectText s.ext.boxed s (fuel + 1) first vs path = some t)
    (hvs : ∀ v ∈ vs, s.Present v ∧ Clear s.parts path v) :
    ∃ us, s.UnfoldsToEach vs us ∧ t = Tree.elemsText objectText first us := by
  cases vs with
  | nil => exact ⟨[], rfl, (Option.some.inj h).symm⟩
  | cons v vs =>
    obtain ⟨⟨hv, hclear⟩, hvs⟩ := List.forall_mem_cons.mp hvs
    unfold writeElems at h
    obtain ⟨t₁, ht₁, h⟩ := Option.bind_eq_some_iff.mp h
    obtain ⟨t₂, ht₂, heq⟩ := Option.bind_eq_some_iff.mp h
    obtain ⟨u, hu, rfl⟩ := ih.value ht₁ hv hclear
    obtain ⟨us, hus, rfl⟩ := ih.elems ht₂ hvs
    exact ⟨u :: us, ⟨v, vs, rfl, hu, hus⟩, (Option.some.inj heq).symm⟩

/-- So are the values of a box. -/
theorem treeAt_box (ih : TreeAt objectText s fuel) {vs : List Value}
    (h : writeBox objectText s.ext.boxed s (fuel + 1) vs path = some t)
    (hvs : ∀ v ∈ vs, s.Present v ∧ Clear s.parts path v) :
    ∃ us, s.UnfoldsToEach vs us ∧ t = Tree.boxText objectText us := by
  cases vs with
  | nil => exact ⟨[], rfl, (Option.some.inj h).symm⟩
  | cons v vs =>
    obtain ⟨⟨hv, hclear⟩, hvs⟩ := List.forall_mem_cons.mp hvs
    unfold writeBox at h
    obtain ⟨t₁, ht₁, h⟩ := Option.bind_eq_some_iff.mp h
    obtain ⟨t₂, ht₂, heq⟩ := Option.bind_eq_some_iff.mp h
    obtain ⟨u, hu, rfl⟩ := ih.value ht₁ hv hclear
    obtain ⟨us, hus, rfl⟩ := ih.box ht₂ hvs
    exact ⟨u :: us, ⟨v, vs, rfl, hu, hus⟩, (Option.some.inj heq).symm⟩

/-- **A text without a marker** is that of the tree the value unfolds to. -/
theorem treeAt (objectText : Value → Text) (hs : s.Wired) (fuel : ℕ) :
    TreeAt objectText s fuel := by
  induction fuel with
  | zero => exact ⟨nofun, nofun, nofun, nofun⟩
  | succ fuel ih => exact ⟨treeAt_value hs ih, treeAt_tail hs ih, treeAt_elems ih, treeAt_box ih⟩

end Trees

/-! ## `write` -/

section Main

variable {Y : Type} {objectText : Value → Text} {s : Data (Boxes Y)} {v : Value}

/-- **Printing on graphs**: it ends and leaves the path as it found it; a marker is
written exactly where a cycle is in reach; and without one the text is that of the
tree the value unfolds to, however its nodes are shared. -/
theorem print_on_graphs (hs : s.Wired) (hv : s.Present v) :
    (∀ path, Objects path → ∃ bound, ∀ fuel ≥ bound,
      ∃ out, writeValueIn objectText s fuel v path = some (out, path)) ∧
      ∀ fuel out path, writeValueIn objectText s fuel v [] = some (out, path) →
        (hasMarker out = true ↔ ¬ s.NoCycle v) ∧
          (s.NoCycle v → ∃ u, s.UnfoldsTo v u ∧ render out = u.text objectText) := by
  constructor
  · intro path hpath
    obtain ⟨bound, h⟩ := (writesBelow objectText hs _).value
      (Nat.lt_succ_self (s.unwritten path)) hv
    refine ⟨bound, fun fuel hfuel => ?_⟩
    obtain ⟨t, ht⟩ := h fuel hfuel
    have hw := (writesAt objectText s fuel).value (v := v) hpath
    rw [show writeValue objectText s.ext.boxed s fuel v path = some t from ht] at hw
    obtain ⟨out, hout, -⟩ := hw
    exact ⟨out, hout⟩
  · intro fuel out path h
    have hnone : Objects [] := fun o ho => absurd ho List.not_mem_nil
    have hw := (writesAt objectText s fuel).value (v := v) hnone
    rw [h, clear_nil] at hw
    cases ht : writeValue objectText s.ext.boxed s fuel v [] with
    | none =>
      rw [ht] at hw
      cases hw
    | some t =>
      rw [ht] at hw
      obtain ⟨out', hout, hrender, hmarker⟩ := hw
      obtain ⟨rfl, -⟩ := Prod.mk.inj (Option.some.inj hout)
      refine ⟨(Bool.not_eq_false _).symm.to_iff.trans hmarker.not, fun hnone => ?_⟩
      obtain ⟨u, hu, htext⟩ := (treeAt objectText hs fuel).value ht hv (clear_nil.mpr hnone)
      exact ⟨u, hu, hrender.trans htext⟩

/-- A vector that holds a box which holds the vector. -/
def boxedCircle : Data (Boxes Unit) where
  pairs := []
  strings := []
  vectors := [[.values 0]]
  errors := []
  winds := []
  windNextId := 0
  handler := none
  gensymCounter := 0
  ext :=
    { vals := [[.vector 0, .int 1]]
      older := by
        rintro (_ | a) vs ha
        · cases ha
          rfl
        · cases ha
      rest := () }

theorem wired_boxedCircle : boxedCircle.Wired := by
  have hall : ∀ w ∈ [Value.values 0, .vector 0, .int 1], boxedCircle.Present w := by
    rintro w (_ | ⟨_, _ | ⟨_, _ | ⟨_, ⟨⟩⟩⟩⟩)
    · trivial
    · exact Nat.zero_lt_one
    · trivial
  intro v w hv hw
  refine hall w ?_
  cases v with
  | vector a =>
    obtain rfl : a = 0 := Nat.lt_one_iff.mp hv
    exact List.mem_cons.mpr (.inl (List.mem_singleton.mp hw))
  | values a =>
    cases a with
    | zero => exact List.mem_cons_of_mem _ hw
    | succ a => cases hw
  | pair a => exact absurd hv (Nat.not_lt_zero a)
  | _ => cases hw

/-- A circle through a box is printed. -/
theorem print_on_graphs_boxedCircle :
    (∀ path, Objects path → ∃ bound, ∀ fuel ≥ bound,
      ∃ out, writeValueIn (fun _ => []) boxedCircle fuel (.vector 0) path = some (out, path)) ∧
      ∀ fuel out path,
        writeValueIn (fun _ => []) boxedCircle fuel (.vector 0) [] = some (out, path) →
        (hasMarker out = true ↔ ¬ boxedCircle.NoCycle (.vector 0)) ∧
          (boxedCircle.NoCycle (.vector 0) →
            ∃ u, boxedCircle.UnfoldsTo (.vector 0) u ∧ render out = u.text fun _ => []) :=
  print_on_graphs wired_boxedCircle (show 0 < 1 from Nat.zero_lt_one)

example : (writeValueIn (fun _ => []) boxedCircle 9 (.vector 0) []).map (render ·.1) =
    some "#(#<values #<circular-vector> 1>)".toList := by decide

end Main

end Scheme14
