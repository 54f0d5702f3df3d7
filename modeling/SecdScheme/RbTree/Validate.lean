import SecdScheme.RbTree.Handle
import Mathlib.Data.List.Chain

/-!
# The validators

`rb-check-property` computes the number of black links, with `-1` for any
violation, and `rb-check-order` walks through the keys in order and keeps
what it has found in three variables of the module. The two together are
exact: whatever shape a tree has, and whatever the variables were left at by
the trees before, the answer is that of the invariant, property by property.
-/

namespace RbTree

open Llrb

variable {K D : Type}

/-! ## The procedures -/

/-- `rb-order-ok`, `rb-order-prev-set`, `rb-order-prev` and `rb-order-cmp`. -/
structure OrderVars (K : Type) where
  orderOk : Bool
  prevSet : Bool
  prev : K
  cmp : Comparator K

/-- The nodes and the variables of the walk. -/
structure Checker (K D : Type) where
  store : Store K D
  vars : OrderVars K

/-- A procedure that may set the variables. -/
abbrev CheckM (K D α : Type) := Cmd (Checker K D) (SchemeError K) α

/-- A procedure on the nodes, which leaves the variables alone. -/
def onStore {α : Type} (m : RbM K D α) : CheckM K D α := fun w =>
  ((m w.store).1, { w with store := (m w.store).2 })

/-- A `set!` on the variables of the validator. -/
def setVars (f : OrderVars K → OrderVars K) : CheckM K D Unit :=
  Cmd.modifyState (fun w => { w with vars := f w.vars })

/-- A line with a key at its end. -/
def displayAtKey [Zero K] [ToString K] (text : String) (node : Link) : RbM K D Unit := do
  display text
  display (toString (← rbKey node))
  display "\n"

/-- `(or a b)`. -/
def orM (a b : RbM K D Bool) : RbM K D Bool := do
  if (← a) then return true else b

/-- `rb-check-property`: the black height, or `-1` after a violation. -/
def rbCheckProperty [Zero K] [ToString K] : ℕ → Link → RbM K D ℤ
  | 0, _ => Cmd.fail .tooDeep
  | fuel + 1, node => do
    if rbNull node then return 1
    let rightRed ← rbIsRed (← rbRight node)
    if rightRed then displayAtKey "ERROR: Right-leaning red link at key " node
    let twoReds ← andM (rbIsRed node)
      (orM (do rbIsRed (← rbLeft node)) (do rbIsRed (← rbRight node)))
    if twoReds then displayAtKey "ERROR: Red node has red child at key " node
    let leftHeight ← rbCheckProperty fuel (← rbLeft node)
    let rightHeight ← rbCheckProperty fuel (← rbRight node)
    if rightRed ∨ twoReds ∨ leftHeight = -1 ∨ rightHeight = -1 then return -1
    else if leftHeight ≠ rightHeight then
      displayAtKey "ERROR: Black height mismatch at node " node
      return -1
    else if (← rbIsRed node) then return leftHeight
    else return leftHeight + 1

/-- **The walk in order**, with the test that the key before and the key of a
node violate the order. -/
def checkOrderWith [Zero K] [ToString K]
    (violates : OrderVars K → K → Except (SchemeError K) Bool) : ℕ → Link → CheckM K D Unit
  | 0, _ => Cmd.fail .tooDeep
  | fuel + 1, node => do
    if !rbNull node then
      checkOrderWith violates fuel (← onStore (rbLeft node))
      let vars := (← Cmd.getState).vars
      if vars.prevSet then
        if (← Cmd.ofExcept (violates vars (← onStore (rbKey node)))) then
          onStore (displayAtKey "ERROR: BST order violated at key " node)
          setVars (fun v => { v with orderOk := false })
      let key ← onStore (rbKey node)
      setVars (fun v => { v with prev := key })
      setVars (fun v => { v with prevSet := true })
      checkOrderWith violates fuel (← onStore (rbRight node))

/-- `>=`. -/
def numGe [NumericKey K] : K → K → Except (SchemeError K) Bool :=
  numPrim ">=" (fun a b => NumericKey.lt b a || NumericKey.eq a b)

/-- `rb-check-order`, with the primitive on numbers. -/
def rbCheckOrder [Zero K] [ToString K] [NumericKey K] : ℕ → Link → CheckM K D Unit :=
  checkOrderWith (fun v key => numGe v.prev key)

/-- `rb-check-order-cmp`, with the comparator of the handle. -/
def rbCheckOrderCmp [Zero K] [ToString K] [NumericKey K] : ℕ → Link → CheckM K D Unit :=
  checkOrderWith (fun v key => do return decide (0 ≤ (← v.cmp.call v.prev key)))

/-- A line of the answer. -/
def displayLine (text : String) : CheckM K D Unit :=
  onStore (do display text; display "\n")

/-- `rb-validate`, which says what it finds. -/
def rbValidate [Zero K] [ToString K] [NumericKey K] (node : Link) : CheckM K D Bool := do
  if rbNull node then
    displayLine "Tree is valid (empty)"
    return true
  else if (← onStore (rbIsRed node)) then
    displayLine "ERROR: Root is not black!"
    return false
  else
    let bound ← onStore depthBound
    let height ← onStore (rbCheckProperty bound node)
    setVars (fun v => { v with orderOk := true })
    setVars (fun v => { v with prevSet := false })
    rbCheckOrder bound node
    let orderOk := (← Cmd.getState).vars.orderOk
    if height = -1 ∨ orderOk = false then
      displayLine "Tree is INVALID"
      return false
    else
      onStore (do
        display "Tree is valid (black height: "
        display (toString height)
        display ")"
        display "\n")
      return true

/-- `rb-db-valid?`, which only answers. -/
def rbDbValid [Zero K] [ToString K] [NumericKey K] (db : Db K) : CheckM K D Bool := do
  if rbNull db.root then return true
  else if !(← onStore (rbIsBlack db.root)) then return false
  else
    let bound ← onStore depthBound
    let height ← onStore (rbCheckProperty bound db.root)
    setVars (fun v => { v with orderOk := true })
    setVars (fun v => { v with prevSet := false })
    setVars (fun v => { v with cmp := db.cmp })
    rbCheckOrderCmp bound db.root
    return height ≠ -1 && (← Cmd.getState).vars.orderOk

/-! ## Answers -/

open Llrb.Tree

/-- The command returns `v` and does nothing but display. -/
def Answers {α : Type} (m : RbM K D α) (s : Store K D) (v : α) : Prop :=
  ∃ out, m s = (.ok v, { s with out := out })

/-- The command returns `v`, displays, and leaves the variables at `vars`. -/
def Checks {α : Type} (m : CheckM K D α) (w : Checker K D) (v : α) (vars : OrderVars K) : Prop :=
  ∃ out, m w = (.ok v, ⟨{ w.store with out := out }, vars⟩)

section Answers

variable {α β : Type} {s : Store K D} {w : Checker K D}

/-- What leaves the store alone. -/
theorem Answers.of_run {m : RbM K D α} {v : α} (h : m s = (.ok v, s)) : Answers m s v :=
  ⟨s.out, h⟩

/-- A sequence answers what its second part does. -/
theorem Answers.bind {m : RbM K D α} {f : α → RbM K D β} {v : α} {u : β} (hm : Answers m s v)
    (hf : ∀ out, Answers (f v) { s with out := out } u) : Answers (m >>= f) s u := by
  obtain ⟨out, hm⟩ := hm
  obtain ⟨out', hf⟩ := hf out
  exact ⟨out', (Cmd.bind_run_ok hm f).trans hf⟩

theorem Answers.pure (v : α) : Answers (Pure.pure v : RbM K D α) s v := .of_run rfl

theorem Answers.ite {m m' : RbM K D α} {v : α} {c : Prop} [Decidable c]
    (h : c → Answers m s v) (h' : ¬ c → Answers m' s v) :
    Answers (if c then m else m') s v := by
  split
  · exact h ‹_›
  · exact h' ‹_›

/-- A step that may be left out. -/
theorem Answers.skip {m : RbM K D Unit} {f : Unit → RbM K D β} {u : β} {c : Prop} [Decidable c]
    (hm : Answers m s ()) (hf : ∀ out, Answers (f ()) { s with out := out } u) :
    Answers (if c then m >>= f else f ()) s u := by
  split
  · exact hm.bind hf
  · exact hf s.out

/-- Both tests are made, or one. -/
theorem answers_andM {a b : RbM K D Bool} {x y : Bool} (ha : Answers a s x)
    (hb : ∀ out, Answers b { s with out := out } y) : Answers (andM a b) s (x && y) := by
  refine ha.bind fun out => ?_
  cases x with
  | false => exact .pure false
  | true => exact hb out

theorem answers_orM {a b : RbM K D Bool} {x y : Bool} (ha : Answers a s x)
    (hb : ∀ out, Answers b { s with out := out } y) : Answers (orM a b) s (x || y) := by
  refine ha.bind fun out => ?_
  cases x with
  | false => exact hb out
  | true => exact .pure true

/-- Displaying answers nothing. -/
theorem answers_display (text : String) : Answers (display text : RbM K D Unit) s () := ⟨_, rfl⟩

/-- A sequence, with the variables the first part left. -/
theorem Checks.bind {m : CheckM K D α} {f : α → CheckM K D β} {v : α} {u : β}
    {vars vars' : OrderVars K} (hm : Checks m w v vars)
    (hf : ∀ out, Checks (f v) ⟨{ w.store with out := out }, vars⟩ u vars') :
    Checks (m >>= f) w u vars' := by
  obtain ⟨out, hm⟩ := hm
  obtain ⟨out', hf⟩ := hf out
  exact ⟨out', (Cmd.bind_run_ok hm f).trans hf⟩

theorem Checks.pure (v : α) : Checks (Pure.pure v : CheckM K D α) w v w.vars := ⟨w.store.out, rfl⟩

/-- A procedure on the nodes leaves the variables. -/
theorem checks_onStore {m : RbM K D α} {v : α} (h : Answers m w.store v) :
    Checks (onStore m) w v w.vars := by
  obtain ⟨out, h⟩ := h
  refine ⟨out, ?_⟩
  unfold onStore
  rw [h]

theorem Checks.ite {m m' : CheckM K D α} {v : α} {vars : OrderVars K} {c : Prop} [Decidable c]
    (h : c → Checks m w v vars) (h' : ¬ c → Checks m' w v vars) :
    Checks (if c then m else m') w v vars := by
  split
  · exact h ‹_›
  · exact h' ‹_›

theorem Checks.getState {f : Checker K D → CheckM K D β} {u : β} {vars : OrderVars K}
    (h : Checks (f w) w u vars) : Checks (Cmd.getState >>= f) w u vars := h

/-- Only `set!` changes the variables. -/
theorem checks_setVars (f : OrderVars K → OrderVars K) :
    Checks (setVars f : CheckM K D Unit) w () (f w.vars) := ⟨w.store.out, rfl⟩

/-- A tree does not depend on what has been displayed. -/
theorem Stored.out {t : Tree K (ℕ × D)} (h : Stored s t) (out : List String) :
    Stored { s with out := out } t := h.frame fun _ _ => rfl

/-- The colour of a child is read. -/
theorem answers_isRed_child {t' : Tree K (ℕ × D)} {child : RbM K D Link}
    (hchild : child s = (.ok (link t'), s)) (h' : Stored s t') :
    Answers (child >>= rbIsRed) s t'.isRed :=
  (Answers.of_run hchild).bind fun out => .of_run (rbIsRed_run (h'.out out))

theorem answers_displayAtKey [Zero K] [ToString K] {t : Tree K (ℕ × D)} (h : Stored s t)
    (hne : t.isNil = false) (text : String) :
    Answers (displayAtKey text (link t) : RbM K D Unit) s () := by
  cases t with
  | nil => cases hne
  | node c l k e r =>
    unfold displayAtKey
    exact (answers_display text).bind fun out =>
      (Answers.of_run (rbKey_run (h.out out))).bind fun _ =>
        (answers_display _).bind fun _ => answers_display _

end Answers

/-! ## The black height -/

/-- What `rb-check-property` computes on a tree. -/
def checkedHeight : Tree K D → ℤ
  | .nil => 1
  | .node c l _ _ r =>
    if r.isRed = true ∨ (c = .red ∧ (l.isRed = true ∨ r.isRed = true)) ∨
        checkedHeight l = -1 ∨ checkedHeight r = -1 then -1
    else if checkedHeight l ≠ checkedHeight r then -1
    else if c = .red then checkedHeight l
    else checkedHeight l + 1

/-- **The recursion computes the checked height.** -/
theorem answers_rbCheckProperty [Zero K] [ToString K] {s : Store K D} {t : Tree K (ℕ × D)}
    {fuel : ℕ} (h : Stored s t) (hf : t.size < fuel) :
    Answers (rbCheckProperty fuel (link t)) s (checkedHeight t) := by
  induction fuel generalizing s t with
  | zero => exact absurd hf (Nat.not_lt_zero _)
  | succ fuel ih =>
    cases t with
    | nil => exact .pure 1
    | node c l k e r =>
      have hl : l.size < fuel := by
        rw [Tree.size] at hf
        omega
      have hr : r.size < fuel := by
        rw [Tree.size] at hf
        omega
      rw [rbCheckProperty, if_neg (show ¬ rbNull (link (node c l k e r)) = true from
        Bool.false_ne_true)]
      refine (Answers.of_run (rbRight_run h)).bind fun o₁ => ?_
      refine (Answers.of_run (rbIsRed_run (h.out o₁).right)).bind fun o₂ => ?_
      refine .skip (answers_displayAtKey (h.out o₂) rfl _) fun o₃ => ?_
      have htwo : Answers (andM (rbIsRed (link (node c l k e r)))
          (orM (do rbIsRed (← rbLeft (link (node c l k e r))))
            (do rbIsRed (← rbRight (link (node c l k e r)))))) { s with out := o₃ }
          ((node c l k e r).isRed && (l.isRed || r.isRed)) :=
        answers_andM (.of_run (rbIsRed_run (h.out o₃))) fun o =>
          answers_orM (answers_isRed_child (rbLeft_run (h.out o)) (h.out o).left) fun o' =>
            answers_isRed_child (rbRight_run (h.out o')) (h.out o').right
      refine htwo.bind fun o₄ => .skip (answers_displayAtKey (h.out o₄) rfl _) fun o₅ => ?_
      refine (Answers.of_run (rbLeft_run (h.out o₅))).bind fun o₆ => ?_
      refine (ih (h.out o₆).left hl).bind fun o₇ => ?_
      refine (Answers.of_run (rbRight_run (h.out o₇))).bind fun o₈ => ?_
      refine (ih (h.out o₈).right hr).bind fun o₉ => ?_
      have hsecond : ((node c l k e r).isRed && (l.isRed || r.isRed)) = true ↔
          c = .red ∧ (l.isRed = true ∨ r.isRed = true) := by
        simp [Tree.isRed]
      rw [checkedHeight]
      simp only [hsecond, Llrb.Tree.left, Llrb.Tree.right]
      refine .ite (fun hbad => ?_) fun hok => .ite (fun hne => ?_) fun heq => ?_
      · rw [if_pos hbad]
        exact .pure (-1)
      · rw [if_neg hok, if_pos hne]
        exact (answers_displayAtKey (h.out o₉) rfl _).bind fun _ => .pure (-1)
      · rw [if_neg hok, if_neg heq]
        refine (Answers.of_run (rbIsRed_run (h.out o₉))).bind fun _ => ?_
        cases c <;> exact .pure _

/-- What `rb-check-property` is to find out. -/
structure Fine (t : Tree K D) : Prop where
  no_red_right : t.NoRedRight
  no_red_red : t.NoRedRed
  same_black : ∀ m ∈ t.blackPaths, ∀ n ∈ t.blackPaths, m = n

/-- The empty tree has nothing to check. -/
theorem fine_nil : Fine (.nil : Tree K D) := ⟨trivial, trivial, by simp [blackPaths]⟩

/-- There is a path to a leaf. -/
theorem blackPaths_ne_nil : ∀ t : Tree K D, t.blackPaths ≠ []
  | .nil => List.cons_ne_nil _ _
  | .node _ l _ _ r => by
    rw [blackPaths, Ne, List.map_eq_nil_iff, List.append_eq_nil_iff]
    exact fun h => blackPaths_ne_nil l h.1

/-- The paths through a node have the same number of black nodes when those of
its subtrees have. -/
theorem same_blackPaths_node {c : Color} {l r : Tree K D} {k : K} {d : D} :
    (∀ m ∈ (node c l k d r).blackPaths, ∀ n ∈ (node c l k d r).blackPaths, m = n) ↔
      ∀ m ∈ l.blackPaths ++ r.blackPaths, ∀ n ∈ l.blackPaths ++ r.blackPaths, m = n := by
  have hinj : ∀ m n : ℕ, ((if c = .black then m + 1 else m) = if c = .black then n + 1 else n) ↔
      m = n := by
    intro m n
    split <;> omega
  rw [blackPaths]
  simp only [List.forall_mem_map, hinj]

/-- What is checked at a node. -/
theorem fine_node {c : Color} {l r : Tree K D} {k : K} {d : D} :
    Fine (node c l k d r) ↔ r.isRed = false ∧ (c = .red → l.isRed = false ∧ r.isRed = false) ∧
      Fine l ∧ Fine r ∧ ∀ m ∈ l.blackPaths, ∀ n ∈ r.blackPaths, m = n := by
  constructor
  · rintro ⟨⟨hright, hl, hr⟩, ⟨hred, hl', hr'⟩, hsame⟩
    rw [same_blackPaths_node] at hsame
    have hin : ∀ {m}, m ∈ l.blackPaths → m ∈ l.blackPaths ++ r.blackPaths :=
      fun h => List.mem_append_left _ h
    have hin' : ∀ {m}, m ∈ r.blackPaths → m ∈ l.blackPaths ++ r.blackPaths :=
      fun h => List.mem_append_right _ h
    exact ⟨hright, hred, ⟨hl, hl', fun m hm n hn => hsame m (hin hm) n (hin hn)⟩,
      ⟨hr, hr', fun m hm n hn => hsame m (hin' hm) n (hin' hn)⟩,
      fun m hm n hn => hsame m (hin hm) n (hin' hn)⟩
  · rintro ⟨hright, hred, hl, hr, hcross⟩
    refine ⟨⟨hright, hl.no_red_right, hr.no_red_right⟩, ⟨hred, hl.no_red_red, hr.no_red_red⟩, ?_⟩
    rw [same_blackPaths_node]
    intro m hm n hn
    rcases List.mem_append.mp hm with hm | hm <;> rcases List.mem_append.mp hn with hn | hn
    · exact hl.same_black m hm n hn
    · exact hcross m hm n hn
    · exact (hcross n hn m hm).symm
    · exact hr.same_black m hm n hn

/-- **The height is `-1` exactly where something is wrong**, and else one more
than the number of black nodes on every path. -/
theorem checkedHeight_spec (t : Tree K D) :
    (checkedHeight t = -1 ∧ ¬ Fine t) ∨
      (Fine t ∧ ∀ m ∈ t.blackPaths, checkedHeight t = m + 1) := by
  induction t with
  | nil => exact .inr ⟨fine_nil, by simp [blackPaths, checkedHeight]⟩
  | node c l k d r ihl ihr =>
    rw [checkedHeight, fine_node]
    split
    · rename_i hbad
      refine .inl ⟨rfl, ?_⟩
      rintro ⟨hright, hred, hl, hr, -⟩
      have hpos : ∀ {t : Tree K D}, (checkedHeight t = -1 ∧ ¬ Fine t) ∨
          (Fine t ∧ ∀ m ∈ t.blackPaths, checkedHeight t = m + 1) → Fine t →
            checkedHeight t ≠ -1 := by
        intro t h hfine heq
        obtain ⟨-, hpaths⟩ := h.resolve_left fun h => h.2 hfine
        obtain ⟨m, hm⟩ := List.exists_mem_of_ne_nil _ (blackPaths_ne_nil t)
        have := hpaths m hm
        omega
      rcases hbad with hbad | ⟨hc, hbad⟩ | hbad | hbad
      · rw [hright] at hbad
        cases hbad
      · obtain ⟨hlr, hrr⟩ := hred hc
        rw [hlr, hrr] at hbad
        simp at hbad
      · exact hpos ihl hl hbad
      · exact hpos ihr hr hbad
    · rename_i hok
      push Not at hok
      obtain ⟨hright, hred, hl, hr⟩ := hok
      obtain ⟨hfl, hpl⟩ := ihl.resolve_left fun h => hl h.1
      obtain ⟨hfr, hpr⟩ := ihr.resolve_left fun h => hr h.1
      obtain ⟨m, hm⟩ := List.exists_mem_of_ne_nil _ (blackPaths_ne_nil l)
      obtain ⟨n, hn⟩ := List.exists_mem_of_ne_nil _ (blackPaths_ne_nil r)
      split
      · rename_i hne
        refine .inl ⟨rfl, fun h => hne ?_⟩
        rw [hpl m hm, hpr n hn, h.2.2.2.2 m hm n hn]
      · rename_i heq
        refine .inr ⟨⟨by simpa using hright, fun hc => by simpa using hred hc, hfl, hfr, ?_⟩, ?_⟩
        · intro m hm n hn
          have hm' := hpl m hm
          have hn' := hpr n hn
          have heq : checkedHeight l = checkedHeight r := not_not.mp heq
          omega
        · have hall : ∀ m ∈ l.blackPaths ++ r.blackPaths, checkedHeight l = m + 1 := by
            intro m hm
            rcases List.mem_append.mp hm with hm | hm
            · exact hpl m hm
            · rw [not_not.mp heq]
              exact hpr m hm
          rw [blackPaths, List.forall_mem_map]
          intro m hm
          cases c with
          | red => simpa using hall m hm
          | black => simpa using hall m hm

/-- **The height is `-1` exactly after a violation.** -/
theorem checkedHeight_eq_iff (t : Tree K D) : checkedHeight t = -1 ↔ ¬ Fine t := by
  rcases checkedHeight_spec t with ⟨h, hbad⟩ | ⟨hfine, hpaths⟩
  · exact ⟨fun _ => hbad, fun _ => h⟩
  · obtain ⟨m, hm⟩ := List.exists_mem_of_ne_nil _ (blackPaths_ne_nil t)
    have := hpaths m hm
    exact ⟨fun h => by omega, fun h => absurd hfine h⟩

/-! ## The walk -/

/-- What the walk does to the variables at a key. -/
def OrderVars.visit (bad : K → K → Bool) (v : OrderVars K) (key : K) : OrderVars K :=
  { v with orderOk := v.orderOk && !(v.prevSet && bad v.prev key), prev := key, prevSet := true }

/-- The variables are those of a walk: the comparator is the one asked for, and
the key before is in its domain. -/
structure OrderVars.Ready (cmp : Comparator K) (Dom : K → Prop) (v : OrderVars K) : Prop where
  cmp_eq : v.cmp = cmp
  prev_dom : v.prevSet = true → Dom v.prev

/-- A visit leaves the variables ready for the next. -/
theorem OrderVars.Ready.visit {cmp : Comparator K} {Dom : K → Prop} {v : OrderVars K}
    (h : v.Ready cmp Dom) {key : K} (hkey : Dom key) (bad : K → K → Bool) :
    (v.visit bad key).Ready cmp Dom :=
  ⟨h.cmp_eq, fun _ => hkey⟩

theorem OrderVars.Ready.foldl_visit {cmp : Comparator K} {Dom : K → Prop} (bad : K → K → Bool)
    (keys : List K) {v : OrderVars K} (h : v.Ready cmp Dom) (hkeys : ∀ key ∈ keys, Dom key) :
    (keys.foldl (OrderVars.visit bad) v).Ready cmp Dom := by
  induction keys generalizing v with
  | nil => exact h
  | cons key keys ih =>
    rw [List.forall_mem_cons] at hkeys
    exact ih (h.visit hkeys.1 bad) hkeys.2

/-- The keys of a tree, in order. -/
def keysOf (t : Tree K D) : List K := t.toList.map Prod.fst

theorem keysOf_node (c : Color) (l : Tree K D) (k : K) (d : D) (r : Tree K D) :
    keysOf (node c l k d r) = keysOf l ++ k :: keysOf r := by
  simp [keysOf, toList]

section Walk

variable [Zero K] [ToString K] {violates : OrderVars K → K → Except (SchemeError K) Bool}
  {bad : K → K → Bool} {cmp : Comparator K} {Dom : K → Prop}

/-- **At a node** the variables are changed as at its key. -/
theorem checks_visit (hbad : ∀ v key, v.cmp = cmp → Dom v.prev → Dom key →
      violates v key = .ok (bad v.prev key))
    {w : Checker K D} {c : Color} {l r : Tree K (ℕ × D)} {k : K} {e : ℕ × D} {u : OrderVars K}
    {rest : CheckM K D Unit} (h : Stored w.store (node c l k e r)) (hw : w.vars.Ready cmp Dom)
    (hk : Dom k)
    (hrest : ∀ out, Checks rest ⟨{ w.store with out := out }, w.vars.visit bad k⟩ () u) :
    Checks (do
      let vars := (← Cmd.getState).vars
      if vars.prevSet then
        if (← Cmd.ofExcept (violates vars (← onStore (rbKey (link (node c l k e r)))))) then
          onStore (displayAtKey "ERROR: BST order violated at key " (link (node c l k e r)))
          setVars (fun v => { v with orderOk := false })
      let key ← onStore (rbKey (link (node c l k e r)))
      setVars (fun v => { v with prev := key })
      setVars (fun v => { v with prevSet := true })
      rest) w () u := by
  have hkey : ∀ (out : List String) (v : OrderVars K),
      Checks (onStore (rbKey (link (node c l k e r)))) (⟨{ w.store with out := out }, v⟩) k v :=
    fun out v => checks_onStore (.of_run (rbKey_run (h.out out)))
  -- what is done after the test
  have hset : ∀ (out : List String) (v : OrderVars K), { v with prev := k, prevSet := true } =
      w.vars.visit bad k → Checks (do
        let key ← onStore (rbKey (link (node c l k e r)))
        setVars (fun v => { v with prev := key })
        setVars (fun v => { v with prevSet := true })
        rest) (⟨{ w.store with out := out }, v⟩) () u := by
    intro out v hv
    refine (hkey out v).bind fun out₁ => (checks_setVars _).bind fun out₂ =>
      (checks_setVars _).bind fun out₃ => ?_
    rw [show ({ v with prev := k, prevSet := true } : OrderVars K) = _ from hv]
    exact hrest out₃
  refine Checks.getState ?_
  dsimp only
  cases hfirst : w.vars.prevSet with
  | false =>
    rw [if_neg Bool.false_ne_true]
    refine hset w.store.out w.vars ?_
    simp [OrderVars.visit, hfirst]
  | true =>
    rw [if_pos rfl]
    refine (hkey w.store.out w.vars).bind fun out₁ => ?_
    rw [hbad w.vars k hw.cmp_eq (hw.prev_dom hfirst) hk]
    refine (Checks.pure _).bind fun out₂ => ?_
    cases hviolates : bad w.vars.prev k with
    | false =>
      refine hset out₂ w.vars ?_
      simp [OrderVars.visit, hviolates]
    | true =>
      refine (checks_onStore (answers_displayAtKey (h.out out₂) rfl _)).bind fun out₃ =>
        (checks_setVars _).bind fun out₄ => hset out₄ _ ?_
      simp [OrderVars.visit, hfirst, hviolates]

/-- **The walk** changes the variables as at one key after the other. -/
theorem checks_checkOrderWith (hbad : ∀ v key, v.cmp = cmp → Dom v.prev → Dom key →
      violates v key = .ok (bad v.prev key))
    {w : Checker K D} {t : Tree K (ℕ × D)} {fuel : ℕ} (h : Stored w.store t) (hf : t.size < fuel)
    (hw : w.vars.Ready cmp Dom) (hkeys : ∀ key ∈ keysOf t, Dom key) :
    Checks (checkOrderWith violates fuel (link t)) w () ((keysOf t).foldl (.visit bad) w.vars) := by
  induction fuel generalizing w t with
  | zero => exact absurd hf (Nat.not_lt_zero _)
  | succ fuel ih =>
    cases t with
    | nil => exact .pure ()
    | node c l k e r =>
      have hsize : l.size + r.size + 1 < fuel + 1 := hf
      rw [keysOf_node, List.forall_mem_append, List.forall_mem_cons] at hkeys
      obtain ⟨hl, hk, hr⟩ := hkeys
      rw [keysOf_node, List.foldl_append, List.foldl_cons, checkOrderWith,
        if_pos (show (!rbNull (link (node c l k e r))) = true from rfl)]
      refine (checks_onStore (.of_run (rbLeft_run h))).bind fun o₁ => ?_
      refine Checks.bind (ih (w := ⟨{ w.store with out := o₁ }, w.vars⟩) (t := l)
        (h.out o₁).left (by omega) hw hl) fun o₂ => ?_
      have hw' := hw.foldl_visit bad (keysOf l) hl
      refine checks_visit hbad (h.out o₂) hw' hk fun o₃ => ?_
      refine (checks_onStore (.of_run (rbRight_run (h.out o₃)))).bind fun o₄ => ?_
      exact ih (t := r) (h.out o₄).right (by omega) (hw'.visit hk bad) hr

end Walk

/-- **What is found out by a walk**: the order is fine as long as every key is
right after the one before. -/
theorem orderOk_foldl_visit (bad : K → K → Bool) (keys : List K) (v : OrderVars K) :
    (keys.foldl (OrderVars.visit bad) v).orderOk = true ↔
      v.orderOk = true ∧
        (if v.prevSet then v.prev :: keys else keys).IsChain (fun a b => bad a b = false) := by
  induction keys generalizing v with
  | nil => cases v.prevSet <;> simp
  | cons key keys ih =>
    rw [List.foldl_cons, ih]
    cases hfirst : v.prevSet with
    | false => simp [OrderVars.visit, hfirst]
    | true => simp [OrderVars.visit, hfirst, List.isChain_cons_cons, and_assoc]

/-- The variables after a walk that has been started. -/
def walked (bad : K → K → Bool) (prev : K) (cmp : Comparator K) (keys : List K) : OrderVars K :=
  keys.foldl (OrderVars.visit bad) ⟨true, false, prev, cmp⟩

/-- **The order is found violated** exactly where two neighbours are. -/
theorem orderOk_walked (bad : K → K → Bool) (prev : K) (cmp : Comparator K) (keys : List K) :
    (walked bad prev cmp keys).orderOk = true ↔ keys.IsChain (fun a b => bad a b = false) := by
  unfold walked
  rw [orderOk_foldl_visit]
  simp

/-! ## The answers of the validators -/

/-- **What the validators are to find out**: a left-leaning red-black tree
whose keys increase. -/
def Valid (lt : K → K → Prop) (t : Tree K D) : Prop := RedBlack t ∧ (keysOf t).Pairwise lt

/-- What a valid tree is, spelled out. -/
theorem valid_iff {lt : K → K → Prop} {t : Tree K D} :
    Valid lt t ↔ t.isRed = false ∧ Fine t ∧ (keysOf t).Pairwise lt :=
  ⟨fun ⟨⟨hroot, hright, hred, hsame⟩, hkeys⟩ => ⟨hroot, ⟨hright, hred, hsame⟩, hkeys⟩,
    fun ⟨hroot, ⟨hright, hred, hsame⟩, hkeys⟩ => ⟨⟨hroot, hright, hred, hsame⟩, hkeys⟩⟩

/-- A chain of keys of the domain is increasing throughout. -/
theorem isChain_iff_pairwise_of_dom {lt : K → K → Prop} {Dom : K → Prop} {keys : List K}
    (htrans : ∀ {a b c}, Dom a → Dom b → Dom c → lt a b → lt b c → lt a c)
    (hkeys : ∀ key ∈ keys, Dom key) : keys.IsChain lt ↔ keys.Pairwise lt := by
  refine ⟨fun h => ?_, List.Pairwise.isChain⟩
  have : IsTrans K fun a b => Dom a ∧ Dom b ∧ lt a b :=
    ⟨fun _ _ _ h h' => ⟨h.1, h'.2.1, htrans h.1 h.2.1 h'.2.1 h.2.2 h'.2.2⟩⟩
  have hchain : keys.IsChain fun a b => Dom a ∧ Dom b ∧ lt a b := by
    induction h with
    | nil => exact .nil
    | singleton a => exact .singleton a
    | cons_cons hab _ ih =>
      rw [List.forall_mem_cons, List.forall_mem_cons] at hkeys
      exact .cons_cons ⟨hkeys.1, hkeys.2.1, hab⟩ (ih (List.forall_mem_cons.mpr hkeys.2))
  exact (List.isChain_iff_pairwise.mp hchain).imp fun h => h.2.2

/-- The keys that a comparator puts one before the other. -/
def Below (cmp : K → K → Except (SchemeError K) ℤ) (a b : K) : Prop :=
  ∃ c, cmp a b = .ok c ∧ c < 0

/-- The order of a comparator is transitive on its domain. -/
theorem TotalOn.below_trans {cmp : K → K → Except (SchemeError K) ℤ} {Dom : K → Prop}
    (h : TotalOn cmp Dom) {a b d : K} (ha : Dom a) (hd : Dom d) (hab : Below cmp a b)
    (hbd : Below cmp b d) : Below cmp a d := by
  obtain ⟨c, hc, hneg⟩ := hab
  obtain ⟨c', hc', hneg'⟩ := hbd
  obtain ⟨c'', hc''⟩ := (h.ok_iff a d).mpr ⟨ha, hd⟩
  exact ⟨c'', hc'', h.trans hc hc' hc'' hneg hneg'⟩

/-- The test of `rb-check-order-cmp`. -/
def notBelow (cmp : K → K → Except (SchemeError K) ℤ) (a b : K) : Bool :=
  match cmp a b with
  | .ok c => decide (0 ≤ c)
  | .error _ => true

/-- The test of the validator is the order. -/
theorem notBelow_eq_false_iff {cmp : K → K → Except (SchemeError K) ℤ} {a b : K} :
    notBelow cmp a b = false ↔ Below cmp a b := by
  unfold notBelow Below
  cases hc : cmp a b with
  | error e => simp
  | ok c => simp

section Validators

variable {w : Checker K D} {t : Tree K (ℕ × D)}

theorem checks_displayLine (text : String) : Checks (displayLine text) w () w.vars :=
  checks_onStore ((answers_display text).bind fun _ => answers_display "\n")

/-- **`rb-db-valid?`** answers what it is to find out. -/
theorem checks_rbDbValid [Zero K] [ToString K] [NumericKey K] {db : Db K} {Dom : K → Prop}
    (h : Owned w.store t) (hroot : db.root = link t) (hcmp : TotalOn db.cmp.call Dom)
    (hkeys : ∀ key ∈ keysOf t, Dom key) :
    ∃ b vars, Checks (rbDbValid db) w b vars ∧ (b = true ↔ Valid (Below db.cmp.call) t) := by
  rw [valid_iff]
  unfold rbDbValid
  rw [hroot]
  cases t with
  | nil => exact ⟨true, w.vars, .pure true, fun _ => ⟨rfl, fine_nil, List.Pairwise.nil⟩, fun _ => rfl⟩
  | node c l k e r =>
    rw [if_neg (show ¬ rbNull (link (node c l k e r)) = true from Bool.false_ne_true)]
    have hblack := checks_onStore (w := w) (.of_run (rbIsBlack_run h.stored))
    cases c with
    | red =>
      exact ⟨false, w.vars, hblack.bind fun _ => .pure false,
        fun hb => absurd hb Bool.false_ne_true, fun hv => absurd hv.1 (by simp [isRed])⟩
    | black =>
      -- the variables are set before the walk starts
      have hready : (⟨true, false, w.vars.prev, db.cmp⟩ : OrderVars K).Ready db.cmp Dom :=
        ⟨rfl, fun h => absurd h Bool.false_ne_true⟩
      have hwalk : ∀ out, Checks (rbCheckOrderCmp (w.store.nodes.length + 1)
          (link (node .black l k e r))) ⟨{ w.store with out := out },
            ⟨true, false, w.vars.prev, db.cmp⟩⟩ ()
          (walked (notBelow db.cmp.call) w.vars.prev db.cmp (keysOf (node .black l k e r))) := by
        intro out
        refine checks_checkOrderWith (fun v key hv hprev hkey => ?_) (h.stored.out out)
          (Nat.lt_succ_of_le h.size_le) hready hkeys
        obtain ⟨c, hc⟩ := (hcmp.ok_iff v.prev key).mpr ⟨hprev, hkey⟩
        rw [hv, notBelow, hc]
        rfl
      refine ⟨decide (checkedHeight (node .black l k e r) ≠ -1) &&
          (walked (notBelow db.cmp.call) w.vars.prev db.cmp
            (keysOf (node .black l k e r))).orderOk,
        walked (notBelow db.cmp.call) w.vars.prev db.cmp (keysOf (node .black l k e r)), ?_, ?_⟩
      · refine hblack.bind fun o₁ => (checks_onStore (.of_run (depthBound_run _))).bind
          fun o₂ => ?_
        refine (checks_onStore (answers_rbCheckProperty (h.stored.out o₂)
          (Nat.lt_succ_of_le h.size_le))).bind fun o₃ => ?_
        refine (checks_setVars _).bind fun o₄ => (checks_setVars _).bind fun o₅ =>
          (checks_setVars _).bind fun o₆ => (hwalk o₆).bind fun o₇ => ?_
        exact Checks.getState (.pure _)
      · have horder : _ ↔ List.Pairwise (Below db.cmp.call) _ :=
          isChain_iff_pairwise_of_dom (fun ha _ hd => hcmp.below_trans ha hd) hkeys
        rw [Bool.and_eq_true, orderOk_walked, decide_eq_true_eq, Ne, checkedHeight_eq_iff, not_not]
        simp only [notBelow_eq_false_iff, horder]
        exact ⟨fun ⟨hfine, hpair⟩ => ⟨rfl, hfine, hpair⟩, fun ⟨_, hfine, hpair⟩ => ⟨hfine, hpair⟩⟩

/-- **`rb-validate`** answers what it is to find out. -/
theorem checks_rbValidate {w : Checker ℤ D} {t : Tree ℤ (ℕ × D)} (h : Owned w.store t) :
    ∃ b vars, Checks (rbValidate (link t)) w b vars ∧ (b = true ↔ Valid (· < ·) t) := by
  rw [valid_iff]
  unfold rbValidate
  cases t with
  | nil =>
    exact ⟨true, w.vars, (checks_displayLine _).bind fun _ => .pure true,
      fun _ => ⟨rfl, fine_nil, List.Pairwise.nil⟩, fun _ => rfl⟩
  | node c l k e r =>
    rw [if_neg (show ¬ rbNull (link (node c l k e r)) = true from Bool.false_ne_true)]
    have hred := checks_onStore (w := w) (.of_run (rbIsRed_run h.stored))
    cases c with
    | red =>
      exact ⟨false, w.vars, hred.bind fun _ => (checks_displayLine _).bind fun _ => .pure false,
        fun hb => absurd hb Bool.false_ne_true, fun hv => absurd hv.1 (by simp [isRed])⟩
    | black =>
      have hready : (⟨true, false, w.vars.prev, w.vars.cmp⟩ : OrderVars ℤ).Ready w.vars.cmp
          (fun _ => True) := ⟨rfl, fun _ => trivial⟩
      have hwalk : ∀ out, Checks (rbCheckOrder (w.store.nodes.length + 1)
          (link (node .black l k e r))) ⟨{ w.store with out := out },
            ⟨true, false, w.vars.prev, w.vars.cmp⟩⟩ ()
          (walked (fun a b => decide (b ≤ a)) w.vars.prev w.vars.cmp
            (keysOf (node .black l k e r))) := by
        intro out
        refine checks_checkOrderWith (fun v key _ _ _ => ?_) (h.stored.out out)
          (Nat.lt_succ_of_le h.size_le) hready fun _ _ => trivial
        show Except.ok (decide (key < v.prev) || decide (v.prev = key)) = _
        rw [Except.ok.injEq, ← Bool.decide_or, decide_eq_decide]
        omega
      have hfound : (walked (fun a b => decide (b ≤ a)) w.vars.prev w.vars.cmp
          (keysOf (node .black l k e r))).orderOk = true ↔
            (keysOf (node .black l k e r)).Pairwise (· < ·) := by
        rw [orderOk_walked, ← List.isChain_iff_pairwise]
        simp
      refine ⟨decide (checkedHeight (node .black l k e r) ≠ -1) &&
          (walked (fun a b => decide (b ≤ a)) w.vars.prev w.vars.cmp
            (keysOf (node .black l k e r))).orderOk,
        walked (fun a b => decide (b ≤ a)) w.vars.prev w.vars.cmp
          (keysOf (node .black l k e r)), ?_, ?_⟩
      · refine hred.bind fun o₁ => (checks_onStore (.of_run (depthBound_run _))).bind fun o₂ => ?_
        refine (checks_onStore (answers_rbCheckProperty (h.stored.out o₂)
          (Nat.lt_succ_of_le h.size_le))).bind fun o₃ => ?_
        refine (checks_setVars _).bind fun o₄ => (checks_setVars _).bind fun o₅ =>
          (hwalk o₅).bind fun o₆ => Checks.getState ?_
        refine .ite (fun hbad => ?_) fun hgood => ?_
        · rw [show (decide (checkedHeight (node .black l k e r) ≠ -1) && _) = false by
            simpa [imp_iff_not_or] using hbad]
          exact (checks_displayLine _).bind fun _ => .pure false
        · rw [show (decide (checkedHeight (node .black l k e r) ≠ -1) && _) = true by
            simpa [not_or] using hgood]
          refine (checks_onStore (v := ()) ?_).bind fun _ => .pure true
          exact (answers_display _).bind fun _ => (answers_display _).bind fun _ =>
            (answers_display _).bind fun _ => answers_display _
      · rw [Bool.and_eq_true, hfound, decide_eq_true_eq, Ne, checkedHeight_eq_iff, not_not]
        exact ⟨fun ⟨hfine, hpair⟩ => ⟨rfl, hfine, hpair⟩, fun ⟨_, hfine, hpair⟩ => ⟨hfine, hpair⟩⟩

/-- **The validators are exact**: whatever the shape of a tree, and whatever
the variables were left at, they return true exactly for a left-leaning
red-black tree whose keys increase, in the order of the numbers and in that of
a comparator. -/
theorem validators_exact :
    (∀ {D : Type} {w : Checker ℤ D} {t : Tree ℤ (ℕ × D)}, Owned w.store t →
      ∃ b vars, Checks (rbValidate (link t)) w b vars ∧ (b = true ↔ Valid (· < ·) t)) ∧
    ∀ {K D : Type} [Zero K] [ToString K] [NumericKey K] {w : Checker K D} {t : Tree K (ℕ × D)}
      {db : Db K} {Dom : K → Prop}, Owned w.store t → db.root = link t →
      TotalOn db.cmp.call Dom → (∀ key ∈ keysOf t, Dom key) →
      ∃ b vars, Checks (rbDbValid db) w b vars ∧ (b = true ↔ Valid (Below db.cmp.call) t) :=
  ⟨checks_rbValidate, checks_rbDbValid⟩

end Validators

/-- A tree with one red node, and variables that are left over from another
tree. -/
def oneRed : Checker ℤ (Option ℤ) :=
  ⟨⟨[⟨none, none, .red, 5, some 7⟩], []⟩, ⟨false, true, 9, .rbCmpNumber⟩⟩

theorem owned_oneRed : Owned oneRed.store (node .red nil (5 : ℤ) (0, some 7) nil) :=
  ⟨⟨rfl, trivial, trivial⟩, List.nodup_singleton 0⟩

/-- A handle of that tree, with a comparator of its own. -/
def descendingDb : Db ℤ := ⟨some 0, .user cmpDescending⟩

theorem validators_exact_oneRed :
    (∃ b vars, Checks (rbValidate (some 0)) oneRed b vars ∧
      (b = true ↔ Valid (· < ·) (node .red nil (5 : ℤ) (0, some (7 : ℤ)) nil))) ∧
    ∃ b vars, Checks (rbDbValid descendingDb) oneRed b vars ∧
      (b = true ↔ Valid (Below cmpDescending) (node .red nil (5 : ℤ) (0, some (7 : ℤ)) nil)) :=
  ⟨validators_exact.1 owned_oneRed,
    validators_exact.2 owned_oneRed (show descendingDb.root = _ from rfl) cmpDescending_totalOn
      (by simp [keysOf, toList])⟩

end RbTree
