import SecdScheme.Lib.SortedAssoc
import Mathlib.Data.Nat.Init
import Mathlib.Tactic.Common

/-!
# Left-leaning red-black trees

The functional algorithm: rotations, colour flips, the repair of a node on
the way up, insertion, and the two deletions with their preparation of a
red link on the way down.

A tree is seen in two ways. `Tree.toList` is its list of entries in order;
rotations, flips and preparations do not change it, and insertion and
deletion act on it as `insertSorted` and `eraseKey`. `Balanced t c n` says
that `t` is a left-leaning red-black tree with root colour `c` and `n` black
nodes on every path. The repair of a node accepts slightly more than
`Balanced` subtrees – `Loose` – and the descent of a deletion keeps one of
the three forms of `Ready`, which is what makes the preparations applicable
at every level.
-/

namespace Llrb

/-- The colour of the link above a node. -/
inductive Color where
  | black
  | red
  deriving DecidableEq, Repr

namespace Color

/-- The other colour. -/
def flip : Color → Color
  | black => red
  | red => black

end Color

/-- A binary tree whose nodes carry a colour, a key and data. -/
inductive Tree (K D : Type) where
  | nil
  | node (c : Color) (l : Tree K D) (k : K) (d : D) (r : Tree K D)
  deriving DecidableEq, Repr

namespace Tree

variable {K D : Type}

/-- An empty link counts as black. -/
def isRed : Tree K D → Bool
  | nil => false
  | node c _ _ _ _ => c == .red

/-- The tree is empty. -/
def isNil : Tree K D → Bool
  | nil => true
  | node _ _ _ _ _ => false

/-- The left subtree; that of the empty tree is empty. -/
def left : Tree K D → Tree K D
  | nil => nil
  | node _ l _ _ _ => l

/-- The right subtree. -/
def right : Tree K D → Tree K D
  | nil => nil
  | node _ _ _ _ r => r

/-- The key at the root. -/
def rootKey? : Tree K D → Option K
  | nil => none
  | node _ _ k _ _ => some k

/-- The root in a colour. -/
def setColor (c : Color) : Tree K D → Tree K D
  | nil => nil
  | node _ l k d r => node c l k d r

/-- The root with the other colour. -/
def flipRoot : Tree K D → Tree K D
  | nil => nil
  | node c l k d r => node c.flip l k d r

/-- The number of nodes. -/
def size : Tree K D → ℕ
  | nil => 0
  | node _ l _ _ r => l.size + r.size + 1

/-- The entries in order. -/
def toList : Tree K D → List (K × D)
  | nil => []
  | node _ l k d r => l.toList ++ (k, d) :: r.toList

/-- The node with the least key. -/
def minEntry : Tree K D → Option (K × D)
  | nil => none
  | node _ nil k d _ => some (k, d)
  | node _ (node c l k' d' r') _ _ _ => minEntry (node c l k' d' r')

/-- The empty tree is black. -/
@[simp] theorem isRed_nil : (nil : Tree K D).isRed = false := rfl
@[simp] theorem isRed_red (l : Tree K D) (k : K) (d : D) (r : Tree K D) :
    (node .red l k d r).isRed = true := rfl
@[simp] theorem isRed_black (l : Tree K D) (k : K) (d : D) (r : Tree K D) :
    (node .black l k d r).isRed = false := rfl
@[simp] theorem left_node (c : Color) (l : Tree K D) (k : K) (d : D) (r : Tree K D) :
    (node c l k d r).left = l := rfl
@[simp] theorem right_node (c : Color) (l : Tree K D) (k : K) (d : D) (r : Tree K D) :
    (node c l k d r).right = r := rfl
@[simp] theorem left_nil : (nil : Tree K D).left = nil := rfl
@[simp] theorem right_nil : (nil : Tree K D).right = nil := rfl

/-- Colours do not count in the order. -/
@[simp] theorem toList_setColor (c : Color) (t : Tree K D) :
    (t.setColor c).toList = t.toList := by
  cases t <;> rfl

@[simp] theorem toList_flipRoot (t : Tree K D) : t.flipRoot.toList = t.toList := by
  cases t <;> rfl

/-- There are as many entries as nodes. -/
@[simp] theorem length_toList (t : Tree K D) : t.toList.length = t.size := by
  induction t with
  | nil => rfl
  | node c l k d r ihl ihr =>
    rw [toList, List.length_append, List.length_cons, ihl, ihr, size]
    omega

/-- The least entry is the first one. -/
theorem minEntry_eq_head? (t : Tree K D) : t.minEntry = t.toList.head? := by
  induction t with
  | nil => rfl
  | node c l k d r ihl _ =>
    cases l with
    | nil => rfl
    | node c' l' k' d' r' =>
      rw [minEntry, ihl]
      simp [toList, List.head?_append]

/-- A tree that is not empty has an entry. -/
theorem toList_ne_nil {t : Tree K D} (h : t.isNil = false) : t.toList ≠ [] := by
  cases t with
  | nil => exact absurd h (by simp [isNil])
  | node c l k d r => simp [toList]

/-! ## Rotations and flips -/

/-- The left child rises over the root, and takes its colour. -/
def rotateRight : Tree K D → Tree K D
  | node c (node _ a k' d' b) k d r => node c a k' d' (node .red b k d r)
  | t => t

/-- The right child rises over the root, and takes its colour. -/
def rotateLeft : Tree K D → Tree K D
  | node c l k d (node _ b k' d' e) => node c (node .red l k d b) k' d' e
  | t => t

/-- The flip of an insertion: two red children give their colour to the
node. -/
def flipColors : Tree K D → Tree K D
  | nil => nil
  | node _ l k d r => node .red (l.setColor .black) k d (r.setColor .black)

/-- The flip of a deletion: the node and its children change colour. -/
def flipColorsDelete : Tree K D → Tree K D
  | nil => nil
  | node c l k d r => node c.flip l.flipRoot k d r.flipRoot

/-- A red right link under a black left one is turned to the left. -/
def leanLeft (t : Tree K D) : Tree K D :=
  if t.right.isRed && !t.left.isRed then t.rotateLeft else t

/-- Two red links in a row on the left are rotated apart. -/
def splitReds (t : Tree K D) : Tree K D :=
  if t.left.isRed && t.left.left.isRed then t.rotateRight else t

/-- Two red children hand their colour up. -/
def liftReds (t : Tree K D) : Tree K D :=
  if t.left.isRed && t.right.isRed then t.flipColors else t

/-- **The repair of a node on the way up.** -/
def fixUp (t : Tree K D) : Tree K D :=
  t.leanLeft.splitReds.liftReds

/-- **Bring a red link to the left child**, from the node's own colour or
from the right child. -/
def moveRedLeft (t : Tree K D) : Tree K D :=
  match t.flipColorsDelete with
  | nil => nil
  | node c l k d r =>
    if r.left.isRed then (node c l k d r.rotateRight).rotateLeft.flipColorsDelete
    else node c l k d r

/-- **Bring a red link to the right child.** -/
def moveRedRight (t : Tree K D) : Tree K D :=
  let t' := t.flipColorsDelete
  if t'.left.left.isRed then t'.rotateRight.flipColorsDelete else t'

/-- Before a descent to the left: a red link is brought along unless one is
already there. -/
def prepareLeft (t : Tree K D) : Tree K D :=
  if !t.left.isNil && !t.left.isRed && !t.left.left.isRed then t.moveRedLeft else t

/-- Before a descent to the right: a red left child is turned over. -/
def leanRight (t : Tree K D) : Tree K D :=
  if t.left.isRed then t.rotateRight else t

/-- Before a descent to the right: a red link is brought along unless one
is already there. -/
def prepareRight (t : Tree K D) : Tree K D :=
  if !t.right.isNil && !t.right.isRed && !t.right.left.isRed then t.moveRedRight else t

/-- The tree with its data mapped. -/
def mapData {E : Type} (f : D → E) : Tree K D → Tree K E
  | nil => nil
  | node c l k d r => node c (l.mapData f) k (f d) (r.mapData f)

section ToList

/-! ## What does not change the entries -/

/-- **Rotations keep the order.** -/
@[simp] theorem toList_rotateRight (t : Tree K D) : t.rotateRight.toList = t.toList := by
  rcases t with _ | ⟨c, _ | ⟨c', a, k', d', b⟩, k, d, r⟩ <;> simp [rotateRight, toList]

@[simp] theorem toList_rotateLeft (t : Tree K D) : t.rotateLeft.toList = t.toList := by
  rcases t with _ | ⟨c, l, k, d, _ | ⟨c', b, k', d', e⟩⟩ <;> simp [rotateLeft, toList]

/-- Flips do as well. -/
@[simp] theorem toList_flipColors (t : Tree K D) : t.flipColors.toList = t.toList := by
  cases t <;> simp [flipColors, toList]

@[simp] theorem toList_flipColorsDelete (t : Tree K D) :
    t.flipColorsDelete.toList = t.toList := by
  cases t <;> simp [flipColorsDelete, toList]

/-- A repair keeps the order. -/
@[simp] theorem toList_fixUp (t : Tree K D) : t.fixUp.toList = t.toList := by
  have h₁ : t.leanLeft.toList = t.toList := by unfold leanLeft; split <;> simp
  have h₂ : ∀ s : Tree K D, s.splitReds.toList = s.toList := fun s => by
    unfold splitReds; split <;> simp
  have h₃ : ∀ s : Tree K D, s.liftReds.toList = s.toList := fun s => by
    unfold liftReds; split <;> simp
  rw [fixUp, h₃, h₂, h₁]

/-- Moving red keeps the order. -/
@[simp] theorem toList_moveRedLeft (t : Tree K D) : t.moveRedLeft.toList = t.toList := by
  rw [← toList_flipColorsDelete t, moveRedLeft]
  cases t.flipColorsDelete with
  | nil => rfl
  | node c l k d r =>
    dsimp only
    split
    · rw [toList_flipColorsDelete, toList_rotateLeft, toList, toList_rotateRight, toList]
    · rfl

@[simp] theorem toList_moveRedRight (t : Tree K D) : t.moveRedRight.toList = t.toList := by
  unfold moveRedRight
  dsimp only
  split <;> simp

/-- So does the preparation of a descent. -/
@[simp] theorem toList_prepareLeft (t : Tree K D) : t.prepareLeft.toList = t.toList := by
  unfold prepareLeft
  split <;> simp

@[simp] theorem toList_leanRight (t : Tree K D) : t.leanRight.toList = t.toList := by
  unfold leanRight
  split <;> simp

@[simp] theorem toList_prepareRight (t : Tree K D) : t.prepareRight.toList = t.toList := by
  unfold prepareRight
  split <;> simp

/-- What keeps the entries keeps the size, so the subtrees of a prepared
node are smaller than the node was. -/
theorem size_eq_of_toList_eq {s t : Tree K D} (h : s.toList = t.toList) :
    s.size = t.size := by
  rw [← length_toList, ← length_toList, h]

/-- A child of a tree with the same entries is smaller than it. -/
theorem size_left_lt_of_toList_eq {t : Tree K D} {c : Color} {l r : Tree K D} {k : K} {d : D}
    (h : (node c l k d r).toList = t.toList) : l.size < t.size := by
  have := size_eq_of_toList_eq h
  rw [size] at this
  omega

theorem size_right_lt_of_toList_eq {t : Tree K D} {c : Color} {l r : Tree K D} {k : K} {d : D}
    (h : (node c l k d r).toList = t.toList) : r.size < t.size := by
  have := size_eq_of_toList_eq h
  rw [size] at this
  omega

/-- What has the entries of a node is a node. -/
theorem exists_node_of_toList_eq {s t : Tree K D} (h : s.toList = t.toList)
    (ht : t.isNil = false) : ∃ c l k d r, s = node c l k d r := by
  cases s with
  | nil => exact absurd h.symm (toList_ne_nil ht)
  | node c l k d r => exact ⟨c, l, k, d, r, rfl⟩

end ToList

/-! ## Insertion and deletion -/

variable (ord : K → K → Ordering)

/-- The entry of a key, by descent. -/
def find (k : K) : Tree K D → Option D
  | nil => none
  | node _ l k' d' r =>
    match ord k k' with
    | .eq => some d'
    | .lt => find k l
    | .gt => find k r

/-- The descent of an insertion, which repairs each node on its way back. -/
def insertImpl (k : K) (d : D) : Tree K D → Tree K D
  | nil => node .red nil k d nil
  | node c l k' d' r =>
    match ord k k' with
    | .lt => fixUp (node c (insertImpl k d l) k' d' r)
    | .gt => fixUp (node c l k' d' (insertImpl k d r))
    | .eq => fixUp (node c l k' d r)

/-- **Insertion**: the new root is black. -/
def insert (k : K) (d : D) (t : Tree K D) : Tree K D :=
  (insertImpl ord k d t).setColor .black

/-- Remove the least entry of a tree that carries a red link along. -/
def deleteMinImpl (t : Tree K D) : Tree K D :=
  if t.left.isNil then nil
  else
    match h : t.prepareLeft with
    | nil => nil
    | node c l k d r =>
      have : l.size < t.size := size_left_lt_of_toList_eq (by rw [← h, toList_prepareLeft])
      fixUp (node c (deleteMinImpl l) k d r)
termination_by t.size

/-- Remove the entry of `k` from a tree that carries a red link along. The
successor of a key with a right subtree takes its place. -/
def deleteImpl (k : K) (t : Tree K D) : Tree K D :=
  match ht : t with
  | nil => nil
  | node _ _ k' _ _ =>
    if ord k k' = .lt then
      match h : t.prepareLeft with
      | nil => nil
      | node c₁ l₁ k₁ d₁ r₁ =>
        have : l₁.size < t.size := size_left_lt_of_toList_eq (by rw [← h, toList_prepareLeft])
        fixUp (node c₁ (deleteImpl k l₁) k₁ d₁ r₁)
    else
      match h : t.leanRight with
      | nil => nil
      | node c₁ l₁ k₁ d₁ r₁ =>
        if ord k k₁ = .eq ∧ r₁.isNil then nil
        else
          match h₂ : (node c₁ l₁ k₁ d₁ r₁).prepareRight with
          | nil => nil
          | node c₂ l₂ k₂ d₂ r₂ =>
            have : r₂.size < t.size := size_right_lt_of_toList_eq
              (by rw [← h₂, toList_prepareRight, ← h, toList_leanRight])
            if ord k k₂ = .eq then
              match r₂.minEntry with
              | none => fixUp (node c₂ l₂ k₂ d₂ r₂)
              | some (k₃, d₃) => fixUp (node c₂ l₂ k₃ d₃ r₂.deleteMinImpl)
            else fixUp (node c₂ l₂ k₂ d₂ (deleteImpl k r₂))
termination_by t.size

/-! ### The equations of the deletions, case by case -/

section Equations

variable {ord} {k k₀ k₁ k₂ k₃ : K} {d₀ d₁ d₂ d₃ : D} {c₀ c₁ c₂ : Color}
  {t l₀ r₀ l₁ r₁ l₂ r₂ : Tree K D}

/-- Where nothing is on the left, the root goes. -/
theorem deleteMinImpl_of_isNil (h : t.left.isNil = true) : t.deleteMinImpl = nil := by
  rw [deleteMinImpl, if_pos h]

/-- Elsewhere the descent goes on from the prepared node. -/
theorem deleteMinImpl_of_prepareLeft (h : t.left.isNil = false)
    (hp : t.prepareLeft = node c₁ l₁ k₁ d₁ r₁) :
    t.deleteMinImpl = fixUp (node c₁ l₁.deleteMinImpl k₁ d₁ r₁) := by
  rw [deleteMinImpl, if_neg (by simp [h])]
  split
  · rename_i hn
    exact absurd (hp.symm.trans hn) (by simp)
  · rename_i hn
    injection hp.symm.trans hn with e₁ e₂ e₃ e₄ e₅
    subst e₁ e₂ e₃ e₄ e₅
    rfl

/-- Nothing is deleted from the empty tree. -/
@[simp] theorem deleteImpl_nil : deleteImpl ord k (nil : Tree K D) = nil := by
  rw [deleteImpl]

/-- A lesser key is looked for on the left of the prepared node. -/
theorem deleteImpl_of_lt (hlt : ord k k₀ = .lt)
    (hp : (node c₀ l₀ k₀ d₀ r₀).prepareLeft = node c₁ l₁ k₁ d₁ r₁) :
    deleteImpl ord k (node c₀ l₀ k₀ d₀ r₀) = fixUp (node c₁ (deleteImpl ord k l₁) k₁ d₁ r₁) := by
  rw [deleteImpl, if_pos hlt]
  split
  · rename_i hn
    exact absurd (hp.symm.trans hn) (by simp)
  · rename_i hn
    injection hp.symm.trans hn with e₁ e₂ e₃ e₄ e₅
    subst e₁ e₂ e₃ e₄ e₅
    rfl

/-- The key is the last one of the tree. -/
theorem deleteImpl_of_last (hlt : ord k k₀ ≠ .lt)
    (hp : (node c₀ l₀ k₀ d₀ r₀).leanRight = node c₁ l₁ k₁ d₁ r₁)
    (hlast : ord k k₁ = .eq ∧ r₁.isNil = true) :
    deleteImpl ord k (node c₀ l₀ k₀ d₀ r₀) = nil := by
  rw [deleteImpl, if_neg hlt]
  split
  · rfl
  · rename_i hn
    injection hp.symm.trans hn with e₁ e₂ e₃ e₄ e₅
    subst e₁ e₂ e₃ e₄ e₅
    rw [if_pos hlast]

/-- What is done once a red link has been brought along to the right. -/
theorem deleteImpl_of_prepareRight (hlt : ord k k₀ ≠ .lt)
    (hp : (node c₀ l₀ k₀ d₀ r₀).leanRight = node c₁ l₁ k₁ d₁ r₁)
    (hlast : ¬ (ord k k₁ = .eq ∧ r₁.isNil = true))
    (hq : (node c₁ l₁ k₁ d₁ r₁).prepareRight = node c₂ l₂ k₂ d₂ r₂) :
    deleteImpl ord k (node c₀ l₀ k₀ d₀ r₀) =
      if ord k k₂ = .eq then
        match r₂.minEntry with
        | none => fixUp (node c₂ l₂ k₂ d₂ r₂)
        | some (k₃, d₃) => fixUp (node c₂ l₂ k₃ d₃ r₂.deleteMinImpl)
      else fixUp (node c₂ l₂ k₂ d₂ (deleteImpl ord k r₂)) := by
  rw [deleteImpl, if_neg hlt]
  split
  · rename_i hn
    exact absurd (hp.symm.trans hn) (by simp)
  rename_i hn
  injection hp.symm.trans hn with e₁ e₂ e₃ e₄ e₅
  subst e₁ e₂ e₃ e₄ e₅
  rw [if_neg hlast]
  split
  · rename_i hn₂
    exact absurd (hq.symm.trans hn₂) (by simp)
  · rename_i hn₂
    injection hq.symm.trans hn₂ with e₁ e₂ e₃ e₄ e₅
    subst e₁ e₂ e₃ e₄ e₅
    rfl

end Equations

/-- A root with two black children is painted red, so that the descent of a
deletion starts with a red link. -/
def paintRoot (t : Tree K D) : Tree K D :=
  if !t.left.isRed && !t.right.isRed then t.setColor .red else t

/-- **Deletion of the least entry.** -/
def deleteMin (t : Tree K D) : Tree K D :=
  t.paintRoot.deleteMinImpl.setColor .black

/-- **Deletion of a key.** -/
def delete (k : K) (t : Tree K D) : Tree K D :=
  (deleteImpl ord k t.paintRoot).setColor .black

/-! ## Mapping the data

No operation looks at the data, so each of them commutes with a map of the
data. -/

section MapData

variable {E : Type} (f : D → E)

@[simp] theorem mapData_nil : (nil : Tree K D).mapData f = nil := rfl

@[simp] theorem mapData_node (c : Color) (l : Tree K D) (k : K) (d : D) (r : Tree K D) :
    (node c l k d r).mapData f = node c (l.mapData f) k (f d) (r.mapData f) := rfl

/-- Mapping the data changes no colour. -/
@[simp] theorem isRed_mapData (t : Tree K D) : (t.mapData f).isRed = t.isRed := by
  cases t <;> rfl

@[simp] theorem isNil_mapData (t : Tree K D) : (t.mapData f).isNil = t.isNil := by
  cases t <;> rfl

@[simp] theorem left_mapData (t : Tree K D) : (t.mapData f).left = t.left.mapData f := by
  cases t <;> rfl

@[simp] theorem right_mapData (t : Tree K D) : (t.mapData f).right = t.right.mapData f := by
  cases t <;> rfl

/-- The data of the entries are mapped. -/
@[simp] theorem toList_mapData (t : Tree K D) :
    (t.mapData f).toList = t.toList.map (fun e => (e.1, f e.2)) := by
  induction t with
  | nil => rfl
  | node c l k d r ihl ihr => simp [toList, ihl, ihr]

@[simp] theorem setColor_mapData (c : Color) (t : Tree K D) :
    (t.mapData f).setColor c = (t.setColor c).mapData f := by
  cases t <;> rfl

@[simp] theorem flipRoot_mapData (t : Tree K D) :
    (t.mapData f).flipRoot = t.flipRoot.mapData f := by
  cases t <;> rfl

@[simp] theorem rotateRight_mapData (t : Tree K D) :
    (t.mapData f).rotateRight = t.rotateRight.mapData f := by
  rcases t with _ | ⟨c, _ | ⟨c', a, k', d', b⟩, k, d, r⟩ <;> rfl

@[simp] theorem rotateLeft_mapData (t : Tree K D) :
    (t.mapData f).rotateLeft = t.rotateLeft.mapData f := by
  rcases t with _ | ⟨c, l, k, d, _ | ⟨c', b, k', d', e⟩⟩ <;> rfl

@[simp] theorem flipColors_mapData (t : Tree K D) :
    (t.mapData f).flipColors = t.flipColors.mapData f := by
  cases t <;> simp [flipColors]

@[simp] theorem flipColorsDelete_mapData (t : Tree K D) :
    (t.mapData f).flipColorsDelete = t.flipColorsDelete.mapData f := by
  cases t <;> simp [flipColorsDelete]

/-- **What a deletion is made of commutes with a map of the data.** -/
@[simp] theorem fixUp_mapData (t : Tree K D) : (t.mapData f).fixUp = t.fixUp.mapData f := by
  have h₁ : ∀ s : Tree K D, (s.mapData f).leanLeft = s.leanLeft.mapData f := fun s => by
    simp only [leanLeft, right_mapData, left_mapData, isRed_mapData, rotateLeft_mapData]
    split <;> rfl
  have h₂ : ∀ s : Tree K D, (s.mapData f).splitReds = s.splitReds.mapData f := fun s => by
    simp only [splitReds, left_mapData, isRed_mapData, rotateRight_mapData]
    split <;> rfl
  have h₃ : ∀ s : Tree K D, (s.mapData f).liftReds = s.liftReds.mapData f := fun s => by
    simp only [liftReds, right_mapData, left_mapData, isRed_mapData, flipColors_mapData]
    split <;> rfl
  rw [fixUp, h₁, h₂, h₃, fixUp]

@[simp] theorem moveRedLeft_mapData (t : Tree K D) :
    (t.mapData f).moveRedLeft = t.moveRedLeft.mapData f := by
  rw [moveRedLeft, moveRedLeft, flipColorsDelete_mapData]
  cases t.flipColorsDelete with
  | nil => rfl
  | node c l k d r =>
    simp only [mapData_node, left_mapData, isRed_mapData, rotateRight_mapData]
    split
    · rw [← mapData_node, rotateLeft_mapData, flipColorsDelete_mapData]
    · rfl

@[simp] theorem moveRedRight_mapData (t : Tree K D) :
    (t.mapData f).moveRedRight = t.moveRedRight.mapData f := by
  simp only [moveRedRight, flipColorsDelete_mapData, left_mapData, isRed_mapData,
    rotateRight_mapData]
  split <;> rfl

@[simp] theorem prepareLeft_mapData (t : Tree K D) :
    (t.mapData f).prepareLeft = t.prepareLeft.mapData f := by
  simp only [prepareLeft, left_mapData, isNil_mapData, isRed_mapData, moveRedLeft_mapData]
  split <;> rfl

@[simp] theorem leanRight_mapData (t : Tree K D) :
    (t.mapData f).leanRight = t.leanRight.mapData f := by
  simp only [leanRight, left_mapData, isRed_mapData, rotateRight_mapData]
  split <;> rfl

@[simp] theorem prepareRight_mapData (t : Tree K D) :
    (t.mapData f).prepareRight = t.prepareRight.mapData f := by
  simp only [prepareRight, left_mapData, right_mapData, isNil_mapData, isRed_mapData,
    moveRedRight_mapData]
  split <;> rfl

@[simp] theorem paintRoot_mapData (t : Tree K D) :
    (t.mapData f).paintRoot = t.paintRoot.mapData f := by
  simp only [paintRoot, left_mapData, right_mapData, isRed_mapData, setColor_mapData]
  split <;> rfl

@[simp] theorem minEntry_mapData (t : Tree K D) :
    (t.mapData f).minEntry = t.minEntry.map (fun e => (e.1, f e.2)) := by
  rw [minEntry_eq_head?, minEntry_eq_head?, toList_mapData, List.head?_map]

/-- So does the deletion of the least entry. -/
@[simp] theorem deleteMinImpl_mapData (t : Tree K D) :
    (t.mapData f).deleteMinImpl = t.deleteMinImpl.mapData f := by
  induction hs : t.size using Nat.strong_induction_on generalizing t with
  | _ n ih =>
    subst hs
    cases hnil : t.left.isNil with
    | true =>
      rw [deleteMinImpl_of_isNil hnil, deleteMinImpl_of_isNil (by simpa using hnil), mapData_nil]
    | false =>
      have hn : t.isNil = false := by
        cases t with
        | nil => exact absurd hnil (by simp [isNil])
        | node c l k d r => rfl
      obtain ⟨c, l, k, d, r, hp⟩ := exists_node_of_toList_eq (toList_prepareLeft t) hn
      have hlt : l.size < t.size :=
        size_left_lt_of_toList_eq (by rw [← hp, toList_prepareLeft])
      have hp' : (t.mapData f).prepareLeft = node c (l.mapData f) k (f d) (r.mapData f) := by
        rw [prepareLeft_mapData, hp, mapData_node]
      rw [deleteMinImpl_of_prepareLeft hnil hp,
        deleteMinImpl_of_prepareLeft (by simpa using hnil) hp', ih _ hlt l rfl,
        ← fixUp_mapData, mapData_node]

end MapData

end Tree

end Llrb
