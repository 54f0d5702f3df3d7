import SecdScheme.RbCal.Confined
import SecdScheme.Lib.LlrbBalance
import Mathlib.Order.Interval.Set.Basic
import Mathlib.Data.Finset.Card

/-!
# rbtree4.cal: trees in the heap

`Heap.Top s m h t A` says that the link `h` leads to the tree `t`, that its
nodes are pairwise distinct and lie in the region `A`, and that every size
field is right but the one of the root, which is `m`: while a tree is being
changed the size of its root is the one field that may lag behind. `Heap.Own`
asks that it be right as well.

A region may be larger than the tree. An operation on a tree in `A` leaves a
tree in `A` and the nodes made meanwhile, and changes no node outside of them,
`Grows`; a child that has been replaced is hung back below its parent by
`Top.hangLeft` and `Top.hangRight`.
-/

namespace RbCal

open Llrb Llrb.Tree

variable {K V : Type} {s s' s'' : Heap K V} {m : ℤ} {h : Link} {t l r : Tree K V} {A B : Set ℕ}
  {c : Color} {k : K} {d : V}

/-- **A tree at a link**, in a region; the size field of its root is `m`. -/
inductive Heap.Top (s : Heap K V) : ℤ → Link → Tree K V → Set ℕ → Prop where
  | nil (m : ℤ) (A : Set ℕ) : s.Top m none .nil A
  | node {m : ℤ} {a : ℕ} {hl hr : Link} {c : Color} {l r : Tree K V} {k : K} {d : V}
      {A B C : Set ℕ} :
      s.get a = some ⟨hl, hr, c, k, d, m⟩ → a ∈ A → s.Top l.size hl l B → s.Top r.size hr r C →
      (∀ x ∈ B, x ∈ A ∧ x ≠ a) → (∀ x ∈ C, x ∈ A ∧ x ≠ a ∧ x ∉ B) →
      s.Top m (some a) (.node c l k d r) A

/-- **A tree at a link with right sizes.** -/
def Heap.Own (s : Heap K V) (h : Link) (t : Tree K V) (A : Set ℕ) : Prop := s.Top t.size h t A

/-- **Nothing outside of a region has changed**, and no node has gone. -/
structure Grows (A : Set ℕ) (s s' : Heap K V) : Prop where
  length : s.nodes.length ≤ s'.nodes.length
  get : ∀ a < s.nodes.length, a ∉ A → s'.get a = s.get a

/-- A region and the nodes made between two heaps. -/
def Heap.upTo (s : Heap K V) (A : Set ℕ) (s' : Heap K V) : Set ℕ :=
  A ∪ Set.Ico s.nodes.length s'.nodes.length

theorem mem_upTo {x : ℕ} :
    x ∈ s.upTo A s' ↔ x ∈ A ∨ s.nodes.length ≤ x ∧ x < s'.nodes.length := Iff.rfl

namespace Grows

theorem refl (A : Set ℕ) (s : Heap K V) : Grows A s s := ⟨le_rfl, fun _ _ _ => rfl⟩

/-- More may have been written. -/
theorem mono (h : Grows A s s') (hA : A ⊆ B) : Grows B s s' :=
  ⟨h.length, fun a ha hB => h.get a ha fun hx => hB (hA hx)⟩

/-- One step after another, the second on the region the first one leaves. -/
theorem trans (h : Grows A s s') (h' : Grows (s.upTo A s') s' s'') : Grows A s s'' := by
  refine ⟨h.length.trans h'.length, fun a ha hA => ?_⟩
  have hup : a ∉ s.upTo A s' := by
    rintro (hx | hx)
    · exact hA hx
    · exact absurd hx.1 (not_le.mpr ha)
  rw [h'.get a (ha.trans_le h.length) hup, h.get a ha hA]

end Grows

/-- The regions of two steps. -/
theorem upTo_upTo (h : Grows A s s') (h' : s'.nodes.length ≤ s''.nodes.length) :
    s'.upTo (s.upTo A s') s'' = s.upTo A s'' := by
  ext x
  simp only [mem_upTo]
  have hle := h.length
  by_cases hx : x ∈ A
  · simp [hx]
  · simp only [hx, false_or]
    omega

namespace Heap

/-- More nodes may belong to a tree. -/
theorem Top.mono (ht : s.Top m h t A) (hAB : A ⊆ B) : s.Top m h t B := by
  cases ht with
  | nil => exact .nil m B
  | node hget ha hl hr hB hC =>
    exact .node hget (hAB ha) hl hr (fun x hx => ⟨hAB (hB x hx).1, (hB x hx).2⟩)
      fun x hx => ⟨hAB (hC x hx).1, (hC x hx).2⟩

/-- **A tree depends on the nodes of its region only**, and on those that are
there. -/
theorem Top.frame (ht : s.Top m h t A)
    (hs : ∀ a ∈ A, a < s.nodes.length → s'.get a = s.get a) : s'.Top m h t A := by
  induction ht with
  | nil m A => exact .nil m A
  | node hget ha hl hr hB hC ihl ihr =>
    refine .node (by rw [hs _ ha (lt_of_get hget), hget]) ha ?_ ?_ hB hC
    · exact ihl fun x hx => hs x (hB x hx).1
    · exact ihr fun x hx => hs x (hC x hx).1

/-- The nodes of a tree that are there are all it needs. -/
theorem Top.restrict (ht : s.Top m h t A) : s.Top m h t {a ∈ A | a < s.nodes.length} := by
  induction ht with
  | nil m A => exact .nil m _
  | node hget ha hl hr hB hC ihl ihr =>
    exact .node hget ⟨ha, lt_of_get hget⟩ ihl ihr
      (fun x hx => ⟨⟨(hB x hx.1).1, hx.2⟩, (hB x hx.1).2⟩)
      fun x hx => ⟨⟨(hC x hx.1).1, hx.2⟩, (hC x hx.1).2.1, fun hx' => (hC x hx.1).2.2 hx'.1⟩

theorem own_nil (A : Set ℕ) : s.Own none (Llrb.Tree.nil : Tree K V) A := .nil _ A

/-- The link of the empty tree. -/
theorem Top.eq_none (ht : s.Top m h (Llrb.Tree.nil : Tree K V) A) : h = none := by
  cases ht
  rfl

/-- A link is empty exactly where its tree is. -/
theorem Top.vector_eq (ht : s.Top m h t A) : vector h = !t.isNil := by
  cases ht <;> rfl

/-- A tree whose size is right is owned. -/
theorem Top.size_eq (ht : s.Top m h t A) (hm : m = t.size) : s.Own h t A := by
  rw [Own, ← hm]
  exact ht

end Heap

/-- The nodes of a tree, each of them once. -/
theorem Heap.Top.exists_nodes (ht : s.Top m h t A) :
    ∃ F : Finset ℕ, F.card = t.size ∧ ∀ x ∈ F, x ∈ A ∧ x < s.nodes.length := by
  classical
  induction ht with
  | nil m A => exact ⟨∅, rfl, by simp⟩
  | @node m a hl hr c l r k d A B C hget ha hl hr hB hC ihl ihr =>
    obtain ⟨F, hF, hFB⟩ := ihl
    obtain ⟨G, hG, hGC⟩ := ihr
    have hdisj : Disjoint F G := Finset.disjoint_left.mpr fun x hx hx' =>
      (hC x (hGC x hx').1).2.2 (hFB x hx).1
    have hnot : a ∉ F ∪ G := by
      rw [Finset.mem_union]
      rintro (hx | hx)
      · exact (hB a (hFB a hx).1).2 rfl
      · exact (hC a (hGC a hx).1).2.1 rfl
    refine ⟨insert a (F ∪ G), ?_, fun x hx => ?_⟩
    · rw [Finset.card_insert_of_notMem hnot, Finset.card_union_of_disjoint hdisj, hF, hG]
      rfl
    · rw [Finset.mem_insert, Finset.mem_union] at hx
      rcases hx with rfl | hx | hx
      · exact ⟨ha, lt_of_get hget⟩
      · exact ⟨(hB x (hFB x hx).1).1, (hFB x hx).2⟩
      · exact ⟨(hC x (hGC x hx).1).1, (hGC x hx).2⟩

/-- A tree has no more nodes than the heap. -/
theorem Heap.Top.size_le (ht : s.Top m h t A) : t.size ≤ s.nodes.length := by
  obtain ⟨F, hF, hmem⟩ := ht.exists_nodes
  rw [← hF, ← Finset.card_range s.nodes.length]
  exact Finset.card_le_card fun x hx => Finset.mem_range.mpr (hmem x hx).2

/-! ## Reading a node -/

section Reading

variable {a : ℕ} {n : Node K V}

/-- A node that is there. -/
theorem nodeAt_run (hn : s.get a = some n) : nodeAt (some a) s = (.ok n, s) := by
  rw [nodeAt, Option.bind_some, hn]

theorem left_run (hn : s.get a = some n) : left (some a) s = (.ok n.left, s) := by
  rw [left, Cmd.bind_run_ok (nodeAt_run hn)]
  rfl

theorem right_run (hn : s.get a = some n) : right (some a) s = (.ok n.right, s) := by
  rw [right, Cmd.bind_run_ok (nodeAt_run hn)]
  rfl

theorem color_run (hn : s.get a = some n) : color (some a) s = (.ok n.color, s) := by
  rw [color, Cmd.bind_run_ok (nodeAt_run hn)]
  rfl

theorem key_run (hn : s.get a = some n) : key (some a) s = (.ok n.key, s) := by
  rw [key, Cmd.bind_run_ok (nodeAt_run hn)]
  rfl

theorem data_run (hn : s.get a = some n) : data (some a) s = (.ok n.data, s) := by
  rw [data, Cmd.bind_run_ok (nodeAt_run hn)]
  rfl

theorem size_run (hn : s.get a = some n) : size (some a) s = (.ok n.size, s) := by
  rw [size, Cmd.bind_run_ok (nodeAt_run hn)]
  rfl

/-- The colour of a tree, an empty one being black. -/
theorem rbiColor_run (ht : s.Top m h t A) :
    rbiColor h s = (.ok (if t.isRed then .red else .black), s) := by
  cases ht with
  | nil => rfl
  | @node m a hl hr c l r k d A B C hget =>
    show color (some a) s = _
    rw [color_run hget]
    cases c <;> rfl

/-- **The size of a tree** is read off its root. -/
theorem rbiSize_run (ht : s.Own h t A) : rbiSize h s = (.ok (t.size : ℤ), s) := by
  cases ht with
  | nil => rfl
  | node hget => exact size_run hget

/-- The colour of a root is read off its tree. -/
theorem isColor_run (col : Color) (ht : s.Top m h t A) :
    isColor col h s = (.ok ((if t.isRed then Color.red else .black) == col), s) := by
  rw [isColor, Cmd.bind_run_ok (rbiColor_run ht)]
  rfl

end Reading

/-! ## Writing a node -/

section Writing

variable {a b : ℕ} {n : Node K V} {f : Node K V → Node K V}

/-- The heap after a write. -/
def Heap.put (s : Heap K V) (a : ℕ) (n : Node K V) : Heap K V :=
  ⟨s.nodes.set a n, s.writes ++ [a]⟩

@[simp] theorem Heap.length_put (s : Heap K V) (a : ℕ) (n : Node K V) :
    (s.put a n).nodes.length = s.nodes.length := List.length_set

/-- A node that was written. -/
theorem Heap.get_put_self (ha : a < s.nodes.length) : (s.put a n).get a = some n := by
  rw [put, get_set, if_pos ⟨rfl, ha⟩]

/-- A node elsewhere. -/
theorem Heap.get_put_ne (hab : b ≠ a) : (s.put a n).get b = s.get b := by
  rw [put, get_set, if_neg fun hx => hab hx.1.symm]

/-- An assignment to a field. -/
theorem update_run (hn : s.get a = some n) : update (some a) f s = (.ok (), s.put a (f n)) := by
  rw [update, hn]
  rfl

theorem setLeft_run (l : Link) (hn : s.get a = some n) :
    setLeft (some a) l s = (.ok (), s.put a { n with left := l }) := update_run hn

theorem setRight_run (r : Link) (hn : s.get a = some n) :
    setRight (some a) r s = (.ok (), s.put a { n with right := r }) := update_run hn

theorem setColor_run (c : Color) (hn : s.get a = some n) :
    setColor (some a) c s = (.ok (), s.put a { n with color := c }) := update_run hn

theorem setSize_run (m : ℤ) (hn : s.get a = some n) :
    setSize (some a) m s = (.ok (), s.put a { n with size := m }) := update_run hn

/-- A write to a node of the region. -/
theorem Grows.put (n : Node K V) (ha : a ∈ A) : Grows A s (s.put a n) := by
  refine ⟨by rw [Heap.length_put], fun b _ hb => Heap.get_put_ne ?_⟩
  rintro rfl
  exact hb ha

/-- A new node. -/
theorem alloc_run (n : Node K V) (s : Heap K V) :
    ∃ s', alloc n s = (.ok (some s.nodes.length), s') ∧ Grows ∅ s s' ∧
      s'.nodes.length = s.nodes.length + 1 ∧ s'.get s.nodes.length = some n := by
  have hget : ∀ b, Heap.get ⟨s.nodes ++ [n], s.writes⟩ b =
      if b = s.nodes.length then some n else s.get b := fun b => Heap.get_append s n s.writes
  refine ⟨_, rfl, ⟨?_, fun b hb _ => ?_⟩, ?_, ?_⟩
  · show s.nodes.length ≤ (s.nodes ++ [n]).length
    simp
  · rw [hget, if_neg hb.ne]
  · exact List.length_append
  · rw [hget, if_pos rfl]

/-- **A node whose left subtree has been changed**, perhaps after a write to the
node itself. -/
theorem Heap.Top.joinLeft {hr hl' : Link} {l' : Tree K V} {B C : Set ℕ}
    (hget : s''.get a = some ⟨hl', hr, c, k, d, m⟩) (hlt : a < s.nodes.length) (ha : a ∈ A)
    (hr₀ : s.Top r.size hr r C) (hB : ∀ x ∈ B, x ∈ A ∧ x ≠ a)
    (hC : ∀ x ∈ C, x ∈ A ∧ x ≠ a ∧ x ∉ B) (hs : Grows B s s')
    (hs' : ∀ x, x ≠ a → s''.get x = s'.get x) (hl₀ : s'.Own hl' l' (s.upTo B s')) :
    s''.Top m (some a) (.node c l' k d r) (s.upTo A s') := by
  have hne : ∀ x ∈ s.upTo B s', x ≠ a := by
    rintro x (hx | hx)
    · exact (hB x hx).2
    · exact (hlt.trans_le hx.1).ne'
  refine .node hget (Or.inl ha) (Top.frame hl₀ fun x hx _ => hs' x (hne x hx))
    (Top.frame hr₀.restrict fun x hx _ => ?_) (fun x hx => ⟨?_, hne x hx⟩) fun x hx => ?_
  · rw [hs' x (hC x hx.1).2.1, hs.get x hx.2 (hC x hx.1).2.2]
  · exact hx.imp (fun hxB => (hB x hxB).1) id
  · refine ⟨Or.inl (hC x hx.1).1, (hC x hx.1).2.1, ?_⟩
    rintro (hxB | hxB)
    · exact (hC x hx.1).2.2 hxB
    · exact absurd hx.2 (not_lt.mpr hxB.1)

/-- A node whose right subtree has been changed. -/
theorem Heap.Top.joinRight {hl hr' : Link} {r' : Tree K V} {B C : Set ℕ}
    (hget : s''.get a = some ⟨hl, hr', c, k, d, m⟩) (hlt : a < s.nodes.length) (ha : a ∈ A)
    (hl₀ : s.Top l.size hl l B) (hB : ∀ x ∈ B, x ∈ A ∧ x ≠ a)
    (hC : ∀ x ∈ C, x ∈ A ∧ x ≠ a ∧ x ∉ B) (hs : Grows C s s')
    (hs' : ∀ x, x ≠ a → s''.get x = s'.get x) (hr₀ : s'.Own hr' r' (s.upTo C s')) :
    s''.Top m (some a) (.node c l k d r') (s.upTo A s') := by
  have hne : ∀ x ∈ s.upTo C s', x ≠ a := by
    rintro x (hx | hx)
    · exact (hC x hx).2.1
    · exact (hlt.trans_le hx.1).ne'
  refine .node hget (Or.inl ha) (Top.frame hl₀.restrict fun x hx _ => ?_)
    (Top.frame hr₀ fun x hx _ => hs' x (hne x hx))
    (fun x hx => ⟨Or.inl (hB x hx.1).1, (hB x hx.1).2⟩) fun x hx => ⟨?_, hne x hx, ?_⟩
  · rw [hs' x (hB x hx.1).2, hs.get x hx.2 fun hxC => (hC x hxC).2.2 hx.1]
  · exact hx.imp (fun hxC => (hC x hxC).1) id
  · rintro ⟨hxB, hxlt⟩
    rcases hx with hx | hx
    · exact (hC x hx).2.2 hxB
    · exact absurd hxlt (not_lt.mpr hx.1)

/-- **A left subtree is hung below a node** whose left subtree was being
changed. -/
theorem Heap.Top.hangLeft {hl hr hl' : Link} {l' : Tree K V} {B C : Set ℕ}
    (hget : s.get a = some ⟨hl, hr, c, k, d, m⟩) (ha : a ∈ A) (hr₀ : s.Top r.size hr r C)
    (hB : ∀ x ∈ B, x ∈ A ∧ x ≠ a) (hC : ∀ x ∈ C, x ∈ A ∧ x ≠ a ∧ x ∉ B)
    (hs : Grows B s s') (hl₀ : s'.Own hl' l' (s.upTo B s')) :
    ∃ s'', setLeft (some a) hl' s' = (.ok (), s'') ∧ Grows A s s'' ∧
      s''.nodes.length = s'.nodes.length ∧ s''.Top m (some a) (.node c l' k d r) (s.upTo A s') := by
  have haB : a ∉ B := fun hx => (hB a hx).2 rfl
  have hget' : s'.get a = some ⟨hl, hr, c, k, d, m⟩ := by
    rw [hs.get a (lt_of_get hget) haB, hget]
  refine ⟨_, update_run hget', ⟨?_, fun x hx hxA => ?_⟩, length_put _ _ _,
    joinLeft (get_put_self (lt_of_get hget')) (lt_of_get hget) ha hr₀ hB hC hs
      (fun x hx => get_put_ne hx) hl₀⟩
  · rw [length_put]
    exact hs.length
  · rw [get_put_ne fun he : x = a => hxA (he ▸ ha), hs.get x hx fun hxB => hxA (hB x hxB).1]

/-- **A right subtree is hung below a node.** -/
theorem Heap.Top.hangRight {hl hr hr' : Link} {r' : Tree K V} {B C : Set ℕ}
    (hget : s.get a = some ⟨hl, hr, c, k, d, m⟩) (ha : a ∈ A) (hl₀ : s.Top l.size hl l B)
    (hB : ∀ x ∈ B, x ∈ A ∧ x ≠ a) (hC : ∀ x ∈ C, x ∈ A ∧ x ≠ a ∧ x ∉ B)
    (hs : Grows C s s') (hr₀ : s'.Own hr' r' (s.upTo C s')) :
    ∃ s'', setRight (some a) hr' s' = (.ok (), s'') ∧ Grows A s s'' ∧
      s''.nodes.length = s'.nodes.length ∧ s''.Top m (some a) (.node c l k d r') (s.upTo A s') := by
  have haC : a ∉ C := fun hx => (hC a hx).2.1 rfl
  have hget' : s'.get a = some ⟨hl, hr, c, k, d, m⟩ := by
    rw [hs.get a (lt_of_get hget) haC, hget]
  refine ⟨_, update_run hget', ⟨?_, fun x hx hxA => ?_⟩, length_put _ _ _,
    joinRight (get_put_self (lt_of_get hget')) (lt_of_get hget) ha hl₀ hB hC hs
      (fun x hx => get_put_ne hx) hr₀⟩
  · rw [length_put]
    exact hs.length
  · rw [get_put_ne fun he : x = a => hxA (he ▸ ha), hs.get x hx fun hxC => hxA (hC x hxC).1]

end Writing

end RbCal
