import SecdScheme.Lib.Llrb
import Mathlib.Data.List.Sort

/-!
# The invariants of a left-leaning red-black tree

`Balanced t c n` is the whole balance invariant at once, as the shape of a
derivation: a black node may have a red left child, a red node has black
children, no right child is red, and the two sides of a node have the same
number of black nodes. Insertion and the two deletions are shown to keep it,
by induction on the derivation for insertion and on the size for the
deletions, whose preparations rearrange a node before the descent.

`RedBlack` restates the invariant property by property, as a reader would
check it on a tree, and `Balanced.redBlack` derives it.
-/

namespace Llrb

namespace Tree

variable {K D : Type}

/-- **The balance invariant**: root colour `c`, and `n` black nodes on every
path. -/
inductive Balanced : Tree K D → Color → ℕ → Prop where
  | nil : Balanced nil .black 0
  | black {l r : Tree K D} {k : K} {d : D} {c : Color} {n : ℕ} :
      Balanced l c n → Balanced r .black n → Balanced (node .black l k d r) .black (n + 1)
  | red {l r : Tree K D} {k : K} {d : D} {n : ℕ} :
      Balanced l .black n → Balanced r .black n → Balanced (node .red l k d r) .red n

/-- **Balanced, up to a red root with a red left child**: what an insertion
below a red node may leave to its parent. -/
inductive Loose : Tree K D → ℕ → Prop where
  | black {t : Tree K D} {n : ℕ} : Balanced t .black n → Loose t n
  | red {l r : Tree K D} {k : K} {d : D} {c : Color} {n : ℕ} :
      Balanced l c n → Balanced r .black n → Loose (node .red l k d r) n

theorem Balanced.isRed_black {t : Tree K D} {n : ℕ} (h : Balanced t .black n) :
    t.isRed = false := by
  cases h <;> rfl

theorem Balanced.isRed_red {t : Tree K D} {n : ℕ} (h : Balanced t .red n) :
    t.isRed = true := by
  cases h
  rfl

/-- What is balanced is loosely so. -/
theorem Balanced.loose {t : Tree K D} {c : Color} {n : ℕ} (h : Balanced t c n) : Loose t n := by
  cases h with
  | nil => exact .black .nil
  | black hl hr => exact .black (.black hl hr)
  | red hl hr => exact .red hl hr

/-- Painting the root black makes a balanced tree of anything loose. -/
theorem Loose.setColor_black {t : Tree K D} {n : ℕ} (h : Loose t n) :
    ∃ m, Balanced (t.setColor .black) .black m := by
  cases h with
  | black h =>
    cases h with
    | nil => exact ⟨0, .nil⟩
    | black hl hr => exact ⟨_, .black hl hr⟩
  | red hl hr => exact ⟨_, .black hl hr⟩

/-! ## The repair of a node -/

section FixUp

variable {l r : Tree K D} {k : K} {d : D} {n : ℕ}

/-- A node with nothing to repair is left alone. -/
theorem fixUp_eq_self {c : Color} (hr : r.isRed = false)
    (hl : l.isRed = true → l.left.isRed = false) :
    fixUp (node c l k d r) = node c l k d r := by
  have h₁ : leanLeft (node c l k d r) = node c l k d r := by simp [leanLeft, hr]
  have h₂ : splitReds (node c l k d r) = node c l k d r := by
    by_cases h : l.isRed = true <;> simp_all [splitReds]
  rw [fixUp, h₁, h₂, liftReds]
  simp [hr]

/-- A red tree has no red left child. -/
theorem Balanced.left_of_red {c : Color} (hl : Balanced l c n) :
    l.isRed = true → l.left.isRed = false := by
  cases hl with
  | nil => exact fun _ => rfl
  | black _ _ => exact fun h => absurd h (by simp)
  | red h _ => exact fun _ => h.isRed_black

/-- A black node on two black trees is repaired. -/
theorem fixUp_black (hl : Balanced l .black n) (hr : Balanced r .black n) :
    Balanced (fixUp (node .black l k d r)) .black (n + 1) := by
  rw [fixUp_eq_self hr.isRed_black hl.left_of_red]
  exact .black hl hr

/-- So is one whose left tree is red. -/
theorem fixUp_black_red_left (hl : Balanced l .red n) (hr : Balanced r .black n) :
    Balanced (fixUp (node .black l k d r)) .black (n + 1) := by
  rw [fixUp_eq_self hr.isRed_black hl.left_of_red]
  exact .black hl hr

/-- A red node on two black trees stays red. -/
theorem fixUp_red (hl : Balanced l .black n) (hr : Balanced r .black n) :
    Balanced (fixUp (node .red l k d r)) .red n := by
  rw [fixUp_eq_self hr.isRed_black hl.left_of_red]
  exact .red hl hr

/-- A red right child of a black node is turned to the left. -/
theorem fixUp_black_red_right (hl : Balanced l .black n) (hr : Balanced r .red n) :
    Balanced (fixUp (node .black l k d r)) .black (n + 1) := by
  cases hr with
  | red ha hb =>
    simp only [fixUp, leanLeft, splitReds, liftReds, rotateLeft, right_node, left_node,
      isRed_red, hl.isRed_black, hb.isRed_black, Bool.not_false, Bool.and_true, if_true,
      Bool.and_false, Bool.false_eq_true, if_false]
    exact .black (.red hl ha) hb

/-- Two red children hand their colour up. -/
theorem fixUp_black_red_red (hl : Balanced l .red n) (hr : Balanced r .red n) :
    Balanced (fixUp (node .black l k d r)) .red (n + 1) := by
  cases hl with
  | red ha hb =>
    cases hr with
    | red hc he =>
      simp only [fixUp, leanLeft, splitReds, liftReds, flipColors, setColor, right_node,
        left_node, isRed_red, ha.isRed_black, Bool.not_true, Bool.and_false, Bool.and_true,
        if_true, Bool.false_eq_true, if_false]
      exact .red (.black ha hb) (.black hc he)

/-- **A black node over balanced children is repaired to a balanced node.** -/
theorem fixUp_black_of_balanced {cl cr : Color} (hl : Balanced l cl n) (hr : Balanced r cr n) :
    ∃ c, Balanced (fixUp (node .black l k d r)) c (n + 1) := by
  cases cl with
  | black =>
    cases cr with
    | black => exact ⟨_, fixUp_black hl hr⟩
    | red => exact ⟨_, fixUp_black_red_right hl hr⟩
  | red =>
    cases cr with
    | black => exact ⟨_, fixUp_black_red_left hl hr⟩
    | red => exact ⟨_, fixUp_black_red_red hl hr⟩

/-- **A black node over a loose left child is repaired to a balanced
node.** -/
theorem fixUp_black_of_loose (hl : Loose l n) (hr : Balanced r .black n) :
    ∃ c, Balanced (fixUp (node .black l k d r)) c (n + 1) := by
  cases hl with
  | black hl => exact ⟨_, fixUp_black hl hr⟩
  | red ha hb =>
    cases ha with
    | nil => exact ⟨_, fixUp_black_red_left (.red .nil hb) hr⟩
    | black h₁ h₂ => exact ⟨_, fixUp_black_red_left (.red (.black h₁ h₂) hb) hr⟩
    | red h₁ h₂ =>
      refine ⟨.red, ?_⟩
      simp only [fixUp, leanLeft, splitReds, liftReds, rotateRight, flipColors, setColor,
        right_node, left_node, isRed_red, hr.isRed_black, Bool.false_and, Bool.and_self,
        if_true, Bool.false_eq_true, if_false]
      exact .red (.black h₁ h₂) (.black hb hr)

/-- A red node over balanced children, one of them black, is repaired to a
loose node. -/
theorem fixUp_red_of_balanced_left {cl : Color} (hl : Balanced l cl n)
    (hr : Balanced r .black n) : Loose (fixUp (node .red l k d r)) n := by
  rw [fixUp_eq_self hr.isRed_black hl.left_of_red]
  exact .red hl hr

/-- A red node whose right tree may be red is loosely balanced. -/
theorem fixUp_red_of_balanced_right {cr : Color} (hl : Balanced l .black n)
    (hr : Balanced r cr n) : Loose (fixUp (node .red l k d r)) n := by
  cases hr with
  | nil => exact fixUp_red_of_balanced_left hl .nil
  | black h₁ h₂ => exact fixUp_red_of_balanced_left hl (.black h₁ h₂)
  | red ha hb =>
    simp only [fixUp, leanLeft, splitReds, liftReds, rotateLeft, right_node, left_node,
      isRed_red, hl.isRed_black, hb.isRed_black, Bool.not_false, Bool.and_true, if_true,
      Bool.and_false, Bool.false_eq_true, if_false]
    exact .red (.red hl ha) hb

end FixUp

/-! ## Insertion -/

/-- **One descent of an insertion**: below a black root the result is
balanced, below a red one it is loose. -/
theorem Balanced.insertImpl {ord : K → K → Ordering} (k : K) (d : D) {t : Tree K D}
    {c : Color} {n : ℕ} (h : Balanced t c n) :
    Loose (insertImpl ord k d t) n ∧
      (c = .black → ∃ c', Balanced (Tree.insertImpl ord k d t) c' n) := by
  induction h with
  | nil => exact ⟨.red .nil .nil, fun _ => ⟨_, .red .nil .nil⟩⟩
  | @black l r k' d' c n hl hr ihl ihr =>
    suffices hb : ∃ c', Balanced (Tree.insertImpl ord k d (node .black l k' d' r)) c' (n + 1) from
      ⟨hb.choose_spec.loose, fun _ => hb⟩
    rw [Tree.insertImpl]
    cases ord k k' with
    | lt => exact fixUp_black_of_loose ihl.1 hr
    | eq => exact fixUp_black_of_balanced hl hr
    | gt =>
      obtain ⟨cr, hcr⟩ := ihr.2 rfl
      exact fixUp_black_of_balanced hl hcr
  | @red l r k' d' n hl hr ihl ihr =>
    refine ⟨?_, fun h => absurd h (by simp)⟩
    rw [Tree.insertImpl]
    cases ord k k' with
    | lt =>
      obtain ⟨cl, hcl⟩ := ihl.2 rfl
      exact fixUp_red_of_balanced_left hcl hr
    | eq => exact fixUp_red_of_balanced_left hl hr
    | gt =>
      obtain ⟨cr, hcr⟩ := ihr.2 rfl
      exact fixUp_red_of_balanced_right hl hcr

/-- **Insertion keeps the balance.** -/
theorem Balanced.insert {ord : K → K → Ordering} (k : K) (d : D) {t : Tree K D} {n : ℕ}
    (h : Balanced t .black n) : ∃ m, Balanced (insert ord k d t) .black m :=
  (h.insertImpl k d).1.setColor_black

/-! ## The descent of a deletion -/

/-- **A tree a deletion may descend into**: it carries a red link, at its
root, to its left child, or – after a red link was moved to the right – to
its right child. -/
inductive Ready : Tree K D → Color → ℕ → Prop where
  | red {l r : Tree K D} {k : K} {d : D} {n : ℕ} :
      Balanced l .black n → Balanced r .black n → Ready (node .red l k d r) .red n
  | left {l r : Tree K D} {k : K} {d : D} {n : ℕ} :
      Balanced l .red n → Balanced r .black n → Ready (node .black l k d r) .black (n + 1)
  | right {l r : Tree K D} {k : K} {d : D} {n : ℕ} :
      Balanced l .black n → Balanced r .red n → Ready (node .black l k d r) .black (n + 1)

/-- **What a deletion leaves**: a black root stays black, below a red one any
balanced tree of the same black height may result. -/
def Shrunk (t : Tree K D) (c : Color) (n : ℕ) : Prop :=
  match c with
  | .black => Balanced t .black n
  | .red => ∃ c', Balanced t c' n

/-- A red tree is ready for a descent. -/
theorem Balanced.ready_of_red {t : Tree K D} {n : ℕ} (h : Balanced t .red n) :
    Ready t .red n := by
  cases h with
  | red hl hr => exact .red hl hr

/-- What a deletion leaves is balanced. -/
theorem Shrunk.exists_balanced {t : Tree K D} {c : Color} {n : ℕ} (h : Shrunk t c n) :
    ∃ c', Balanced t c' n := by
  cases c with
  | black => exact ⟨_, h⟩
  | red => exact h

/-- Painted black it is a tree of its own. -/
theorem Shrunk.setColor_black {t : Tree K D} {c : Color} {n : ℕ} (h : Shrunk t c n) :
    ∃ m, Balanced (t.setColor .black) .black m :=
  h.exists_balanced.choose_spec.loose.setColor_black

/-- **A node ready for a descent to the left**: its left child carries a red
link, and whatever the descent leaves there, the repaired node is what a
deletion may leave. -/
def LeftReady (t : Tree K D) (c : Color) (n : ℕ) : Prop :=
  ∃ c' l k d r m cl, t = node c' l k d r ∧ (l = nil ∧ m = 0 ∧ cl = .black ∨ Ready l cl m ∧
      (cl = .black → l.left.isRed = true)) ∧
    ∀ l', Shrunk l' cl m → Shrunk (fixUp (node c' l' k d r)) c n

/-- A red node over a balanced left child that keeps its black root. -/
theorem leftReady_of_red_of_black {l r : Tree K D} {k : K} {d : D} {n : ℕ}
    (hl : l = nil ∧ n = 0 ∨ Ready l .black n ∧ l.left.isRed = true) (hr : Balanced r .black n) :
    LeftReady (node .red l k d r) .red n := by
  refine ⟨.red, l, k, d, r, n, .black, rfl, ?_, fun l' hl' => ⟨_, fixUp_red hl' hr⟩⟩
  rcases hl with ⟨hl, hn⟩ | ⟨hl, hll⟩
  · exact Or.inl ⟨hl, hn, rfl⟩
  · exact Or.inr ⟨hl, fun _ => hll⟩

/-- **The preparation of a descent to the left** readies the left child. -/
theorem Ready.prepareLeft {t : Tree K D} {c : Color} {n : ℕ} (h : Ready t c n)
    (hleft : c = .black → t.left.isRed = true) : LeftReady t.prepareLeft c n := by
  cases h with
  | @left l r k d n hl hr =>
    have hp : (node .black l k d r).prepareLeft = node .black l k d r := by
      simp [Tree.prepareLeft, hl.isRed_red]
    rw [hp]
    refine ⟨.black, l, k, d, r, n, .red, rfl, Or.inr ⟨hl.ready_of_red, by simp⟩, ?_⟩
    rintro l' ⟨cl, hl'⟩
    cases cl with
    | black => exact fixUp_black hl' hr
    | red => exact fixUp_black_red_left hl' hr
  | @right l r k d n hl hr => exact absurd (hleft rfl) (by simp [hl.isRed_black])
  | @red l r k d n hl hr =>
    cases hl with
    | nil =>
      have hp : (node .red nil k d r).prepareLeft = node .red nil k d r := by
        simp [Tree.prepareLeft, isNil]
      rw [hp]
      exact leftReady_of_red_of_black (Or.inl ⟨rfl, rfl⟩) hr
    | @black ll lr lk ld cl m hll hlr =>
      cases cl with
      | red =>
        have hp : (node .red (node .black ll lk ld lr) k d r).prepareLeft
            = node .red (node .black ll lk ld lr) k d r := by
          simp [Tree.prepareLeft, hll.isRed_red]
        rw [hp]
        exact leftReady_of_red_of_black (Or.inr ⟨.left hll hlr, hll.isRed_red⟩) hr
      | black =>
        have hp : (node .red (node .black ll lk ld lr) k d r).prepareLeft
            = (node .red (node .black ll lk ld lr) k d r).moveRedLeft := by
          simp [Tree.prepareLeft, hll.isRed_black, isNil]
        rw [hp]
        cases hr with
        | @black rl rr rk rd cr _ hrl hrr =>
          cases hrl with
          | nil =>
            refine ⟨.black, node .red ll lk ld lr, k, d, node .red nil rk rd rr, _, .red,
              rfl, Or.inr ⟨.red hll hlr, by simp⟩, ?_⟩
            rintro l' ⟨cl, hl'⟩
            exact fixUp_black_of_balanced hl' (.red .nil hrr)
          | @black a b ak ad ca m ha hb =>
            refine ⟨.black, node .red ll lk ld lr, k, d,
              node .red (node .black a ak ad b) rk rd rr, _, .red,
              rfl, Or.inr ⟨.red hll hlr, by simp⟩, ?_⟩
            rintro l' ⟨cl, hl'⟩
            exact fixUp_black_of_balanced hl' (.red (.black ha hb) hrr)
          | @red a b ak ad _ ha hb =>
            refine ⟨.red, node .black (node .red ll lk ld lr) k d a, ak, ad,
              node .black b rk rd rr, _, .black, rfl,
              Or.inr ⟨.left (.red hll hlr) ha, by simp⟩, ?_⟩
            exact fun l' hl' => ⟨_, fixUp_red hl' (.black hb hrr)⟩

/-- **Deleting the least entry keeps the balance.** -/
theorem Ready.deleteMinImpl {t : Tree K D} {c : Color} {n : ℕ} (h : Ready t c n)
    (hleft : c = .black → t.left.isRed = true) : Shrunk t.deleteMinImpl c n := by
  induction hs : t.size using Nat.strong_induction_on generalizing t c n with
  | _ s ih =>
    subst hs
    cases hnil : t.left.isNil with
    | true =>
      rw [deleteMinImpl_of_isNil hnil]
      cases h with
      | @red l r k d n hl hr =>
        cases hl with
        | nil => exact ⟨_, .nil⟩
        | black _ _ => exact absurd hnil (by simp [isNil])
      | @left l r k d n hl hr =>
        cases hl with
        | red _ _ => exact absurd hnil (by simp [isNil])
      | right hl hr => exact absurd (hleft rfl) (by simp [hl.isRed_black])
    | false =>
      obtain ⟨c', l, k, d, r, m, cl, heq, hl, hfix⟩ := h.prepareLeft hleft
      have hlt : l.size < t.size :=
        size_left_lt_of_toList_eq (by rw [← heq, toList_prepareLeft])
      rw [deleteMinImpl_of_prepareLeft hnil heq]
      refine hfix _ ?_
      rcases hl with ⟨rfl, rfl, rfl⟩ | ⟨hl, hll⟩
      · rw [deleteMinImpl_of_isNil rfl]
        exact .nil
      · exact ih _ hlt hl hll rfl

/-- The condition under which a key may descend into a tree that carries its
red link on the right: it does not go left at once. -/
def Descends (ord : K → K → Ordering) (k : K) (t : Tree K D) (c : Color) : Prop :=
  c = .black → t.left.isRed = false → ∀ e ∈ t.rootKey?, ord k e ≠ .lt

/-- **A node ready for a descent of `k` to the right**: its right child
carries a red link – to its own left child when `k` is found at the node, so
that the least entry of the right subtree can be taken out – and whatever
the descent leaves there, the repaired node is what a deletion may leave. -/
def RightReady (ord : K → K → Ordering) (k : K) (t : Tree K D) (c : Color) (n : ℕ) : Prop :=
  ∃ c' l k' d r m cr, t = node c' l k' d r ∧
    (r = nil ∧ m = 0 ∧ cr = .black ∧ ord k k' ≠ .eq ∨
      Ready r cr m ∧ Descends ord k r cr ∧
        (ord k k' = .eq → cr = .black → r.left.isRed = true)) ∧
    ∀ r' k'' d'', Shrunk r' cr m → Shrunk (fixUp (node c' l k'' d'' r')) c n

/-- A red left child of a black node is turned over; the node then carries
its red link on the right. -/
theorem Ready.leanRight {t : Tree K D} {c : Color} {n : ℕ} (h : Ready t c n) :
    Ready t.leanRight c n ∧ t.leanRight.left.isRed = false := by
  cases h with
  | @red l r k d n hl hr =>
    have hp : (node .red l k d r).leanRight = node .red l k d r := by
      simp [Tree.leanRight, hl.isRed_black]
    rw [hp]
    exact ⟨.red hl hr, hl.isRed_black⟩
  | @right l r k d n hl hr =>
    have hp : (node .black l k d r).leanRight = node .black l k d r := by
      simp [Tree.leanRight, hl.isRed_black]
    rw [hp]
    exact ⟨.right hl hr, hl.isRed_black⟩
  | left hl hr =>
    cases hl with
    | red ha hb =>
      simp only [Tree.leanRight, left_node, isRed_red, if_true, rotateRight]
      exact ⟨.right ha (.red hb hr), ha.isRed_black⟩

/-- A red node over a balanced right child that keeps its black root. -/
theorem rightReady_of_red_of_black {ord : K → K → Ordering} {k : K} {l r : Tree K D} {k' : K}
    {d : D} {n : ℕ} (hl : Balanced l .black n) (hr : Ready r .black n)
    (hrl : r.left.isRed = true) : RightReady ord k (node .red l k' d r) .red n :=
  ⟨.red, l, k', d, r, n, .black, rfl,
    Or.inr ⟨hr, fun _ h => absurd h (by simp [hrl]), fun _ _ => hrl⟩,
    fun _ _ _ hr' => ⟨_, fixUp_red hl hr'⟩⟩

/-- **The preparation of a descent to the right** readies the right child.
The key is at or above the node, hence above its left subtree – which is
where the new root comes from when the left child lends its red link. -/
theorem Ready.prepareRight {ord : K → K → Ordering} {k : K} {t : Tree K D} {c : Color} {n : ℕ}
    (h : Ready t c n) (hleft : t.left.isRed = false)
    (hgt : ∀ e ∈ t.left.toList, ord k e.1 ≠ .eq) (hk : ∀ e ∈ t.rootKey?, ord k e ≠ .lt)
    (hne : (∃ e ∈ t.rootKey?, ord k e = .eq) → t.right.isNil = false) :
    RightReady ord k t.prepareRight c n := by
  cases h with
  | left hl hr => exact absurd hleft (by simp [hl.isRed_red])
  | @right l r k' d n hl hr =>
    have hp : (node .black l k' d r).prepareRight = node .black l k' d r := by
      simp [Tree.prepareRight, hr.isRed_red]
    rw [hp]
    refine ⟨.black, l, k', d, r, n, .red, rfl, Or.inr ⟨hr.ready_of_red, ?_, ?_⟩, ?_⟩
    · exact fun h => absurd h (by simp)
    · exact fun _ h => absurd h (by simp)
    · rintro r' k'' d'' ⟨cr, hr'⟩
      cases cr with
      | black => exact fixUp_black hl hr'
      | red => exact fixUp_black_red_right hl hr'
  | @red l r k' d n hl hr =>
    cases hr with
    | nil =>
      have hp : (node .red l k' d nil).prepareRight = node .red l k' d nil := by
        simp [Tree.prepareRight, isNil]
      rw [hp]
      refine ⟨.red, l, k', d, nil, 0, .black, rfl, Or.inl ⟨rfl, rfl, rfl, ?_⟩, ?_⟩
      · exact fun h => absurd (hne ⟨k', rfl, h⟩) (by simp [isNil])
      · exact fun r' k'' d'' hr' => ⟨_, fixUp_red hl hr'⟩
    | @black rl rr rk rd cr m hrl hrr =>
      cases cr with
      | red =>
        have hp : (node .red l k' d (node .black rl rk rd rr)).prepareRight
            = node .red l k' d (node .black rl rk rd rr) := by
          simp [Tree.prepareRight, hrl.isRed_red]
        rw [hp]
        exact rightReady_of_red_of_black hl (.left hrl hrr) hrl.isRed_red
      | black =>
        have hp : (node .red l k' d (node .black rl rk rd rr)).prepareRight
            = (node .red l k' d (node .black rl rk rd rr)).moveRedRight := by
          simp [Tree.prepareRight, hrl.isRed_black, isNil]
        rw [hp]
        cases hl with
        | @black ll lr lk ld cl _ hll hlr =>
          have hrr' : Balanced (node .red rl rk rd rr) .red m := .red hrl hrr
          cases hll with
          | nil =>
            refine ⟨.black, node .red nil lk ld lr, k', d, node .red rl rk rd rr, _, .red,
              rfl, Or.inr ⟨hrr'.ready_of_red, fun h => absurd h (by simp),
                fun _ h => absurd h (by simp)⟩, ?_⟩
            rintro r' k'' d'' ⟨cr, hr'⟩
            exact fixUp_black_of_balanced (.red .nil hlr) hr'
          | @black a b ak ad ca m ha hb =>
            refine ⟨.black, node .red (node .black a ak ad b) lk ld lr, k', d,
              node .red rl rk rd rr, _, .red,
              rfl, Or.inr ⟨hrr'.ready_of_red, fun h => absurd h (by simp),
                fun _ h => absurd h (by simp)⟩, ?_⟩
            rintro r' k'' d'' ⟨cr, hr'⟩
            exact fixUp_black_of_balanced (.red (.black ha hb) hlr) hr'
          | @red a b ak ad _ ha hb =>
            -- the left child lends its red link and becomes the root
            refine ⟨.red, node .black a ak ad b, lk, ld,
              node .black lr k' d (node .red rl rk rd rr), _, .black, rfl,
              Or.inr ⟨.right hlr hrr', ?_, ?_⟩, ?_⟩
            · exact fun _ _ => hk
            · exact fun h => absurd h (hgt (lk, ld) (by simp [toList]))
            · exact fun r' k'' d'' hr' => ⟨_, fixUp_red (.black ha hb) hr'⟩

/-- A node that leans on nothing on the right is a leaf, and red. -/
theorem Ready.of_right_nil {l : Tree K D} {k : K} {d : D} {c c' : Color} {n : ℕ}
    (h : Ready (node c' l k d nil) c n) (hl : (node c' l k d nil).left.isRed = false) :
    c = .red ∧ n = 0 ∧ l = nil := by
  cases h with
  | red hl hr =>
    cases hr
    cases hl
    exact ⟨rfl, rfl, rfl⟩
  | left hl' _ => exact absurd hl (by simp [hl'.isRed_red])
  | right _ hr => exact absurd hr.isRed_red (by simp)

/-! ## The entries after a deletion -/

/-- A preparation does not empty the left side. -/
theorem isNil_left_prepareLeft {t : Tree K D} (h : t.left.isNil = false) :
    t.prepareLeft.left.isNil = false := by
  unfold Tree.prepareLeft
  split
  · rcases t with _ | ⟨c, _ | ⟨cl, ll, lk, ld, lr⟩, k, d, r⟩
    · exact h
    · exact absurd h (by simp [isNil])
    · rcases r with _ | ⟨cr, _ | ⟨c₂, l₂, k₂, d₂, r₂⟩, rk, rd, rr⟩
      · rfl
      · rfl
      · simp only [moveRedLeft, flipColorsDelete, flipRoot]
        split <;> rfl
  · exact h

theorem isNil_right_prepareRight {t : Tree K D} (h : t.right.isNil = false) :
    t.prepareRight.right.isNil = false := by
  unfold Tree.prepareRight
  split
  · rcases t with _ | ⟨c, l, k, d, _ | ⟨cr, rl, rk, rd, rr⟩⟩
    · exact h
    · exact absurd h (by simp [isNil])
    · rcases l with _ | ⟨cl, _ | ⟨c₂, l₂, k₂, d₂, r₂⟩, lk, ld, lr⟩
      · rfl
      · rfl
      · cases c₂ <;> rfl
  · exact h

theorem Ready.isNil {t : Tree K D} {c : Color} {n : ℕ} (h : Ready t c n) : t.isNil = false := by
  cases h <;> rfl

/-- **The least entry goes.** -/
theorem toList_deleteMinImpl {t : Tree K D} {c : Color} {n : ℕ} (h : Ready t c n)
    (hleft : c = .black → t.left.isRed = true) : t.deleteMinImpl.toList = t.toList.tail := by
  induction hs : t.size using Nat.strong_induction_on generalizing t c n with
  | _ s ih =>
    subst hs
    rw [Tree.deleteMinImpl]
    by_cases hnil : t.left.isNil = true
    · rw [if_pos hnil]
      cases h with
      | @red l r k d n hl hr =>
        cases hl with
        | nil =>
          cases hr with
          | nil => rfl
        | black _ _ => exact absurd hnil (by simp [isNil])
      | @left l r k d n hl hr =>
        cases hl with
        | red _ _ => exact absurd hnil (by simp [isNil])
      | right hl hr => exact absurd (hleft rfl) (by simp [hl.isRed_black])
    · rw [if_neg hnil]
      obtain ⟨c', l, k, d, r, m, cl, heq, hl, -⟩ := h.prepareLeft hleft
      have htl : (node c' l k d r).toList = t.toList := by rw [← heq, toList_prepareLeft]
      have hlt : l.size < t.size := size_left_lt_of_toList_eq htl
      split
      · rename_i hn
        rw [heq] at hn
        exact absurd hn (by simp)
      · rename_i c₁ l₁ k₁ d₁ r₁ hn
        rw [heq] at hn
        injection hn with e₁ e₂ e₃ e₄ e₅
        subst e₁ e₂ e₃ e₄ e₅
        rcases hl with ⟨rfl, -, -⟩ | ⟨hl, hll⟩
        · have hnn := isNil_left_prepareLeft (Bool.eq_false_iff.mpr hnil)
          rw [heq] at hnn
          exact absurd hnn (by simp [Tree.isNil])
        · rw [toList_fixUp, toList, ih _ hlt hl hll rfl, ← htl, toList]
          exact (List.tail_append_of_ne_nil (toList_ne_nil hl.isNil)).symm

open SortedAssoc

variable {ord : K → K → Ordering} {Dom : K → Prop}

/-- A prepared node keeps the old root at hand: on the way to the left it
is the new root or lies in the new left subtree. -/
theorem rootEntry_prepareLeft {c₀ c : Color} {l₀ r₀ l r : Tree K D} {k₀ k : K} {d₀ d : D}
    (h : (node c₀ l₀ k₀ d₀ r₀).prepareLeft = node c l k d r) :
    k = k₀ ∨ (k₀, d₀) ∈ l.toList := by
  unfold Tree.prepareLeft at h
  split at h
  · simp only [moveRedLeft, flipColorsDelete] at h
    split at h
    · cases hr : r₀.flipRoot.rotateRight with
      | nil =>
        rw [hr] at h
        injection h with _ _ h₁
        exact Or.inl h₁.symm
      | node c' b k' d' e =>
        rw [hr] at h
        injection h with _ h₁
        exact Or.inr (by rw [← h₁]; simp [toList, flipRoot])
    · injection h with _ _ h₁
      exact Or.inl h₁.symm
  · injection h with _ _ h₁
    exact Or.inl h₁.symm

/-- On the way to the right the old root is the new root or lies in the new
right subtree. -/
theorem rootEntry_rotateRight {c₀ c : Color} {l₀ r₀ l r : Tree K D} {k₀ k : K} {d₀ d : D}
    (h : (node c₀ l₀ k₀ d₀ r₀).rotateRight = node c l k d r) :
    k = k₀ ∨ (k₀, d₀) ∈ r.toList := by
  cases l₀ with
  | nil =>
    injection h with _ _ h₁
    exact Or.inl h₁.symm
  | node c' a k' d' b =>
    injection h with _ _ _ _ h₁
    exact Or.inr (by rw [← h₁]; simp [toList])

/-- A root that leans right goes to the right, or stays. -/
theorem rootEntry_leanRight {c₀ c : Color} {l₀ r₀ l r : Tree K D} {k₀ k : K} {d₀ d : D}
    (h : (node c₀ l₀ k₀ d₀ r₀).leanRight = node c l k d r) :
    k = k₀ ∨ (k₀, d₀) ∈ r.toList := by
  unfold Tree.leanRight at h
  split at h
  · exact rootEntry_rotateRight h
  · injection h with _ _ h₁
    exact Or.inl h₁.symm

/-- So does one that is prepared. -/
theorem rootEntry_prepareRight {c₀ c : Color} {l₀ r₀ l r : Tree K D} {k₀ k : K} {d₀ d : D}
    (h : (node c₀ l₀ k₀ d₀ r₀).prepareRight = node c l k d r) :
    k = k₀ ∨ (k₀, d₀) ∈ r.toList := by
  unfold Tree.prepareRight at h
  split at h
  · simp only [moveRedRight] at h
    split at h
    · rcases hrot : (flipColorsDelete (node c₀ l₀ k₀ d₀ r₀)).rotateRight with _ | ⟨c', l', k', d', r'⟩
      · rw [hrot] at h
        exact absurd h (by simp [flipColorsDelete])
      · rw [hrot] at h
        injection h with _ _ h₁ _ h₂
        rcases rootEntry_rotateRight hrot with h₃ | h₃
        · exact Or.inl (by rw [← h₁, h₃])
        · exact Or.inr (by rw [← h₂, toList_flipRoot]; exact h₃)
    · injection h with _ _ h₁
      exact Or.inl h₁.symm
  · injection h with _ _ h₁
    exact Or.inl h₁.symm

section Delete

variable {ord : K → K → Ordering} {Dom : K → Prop}

/-- A key below the old root is below the root prepared for the left. -/
theorem lt_of_prepareLeft (ho : KeyOrder ord Dom) {k : K} (hk : Dom k) {c₀ c : Color}
    {l₀ r₀ l r : Tree K D} {k₀ k₁ : K} {d₀ d₁ : D}
    (h : (node c₀ l₀ k₀ d₀ r₀).prepareLeft = node c l k₁ d₁ r)
    (hs : StrictlySorted ord (l.toList ++ (k₁, d₁) :: r.toList))
    (hd : KeysIn Dom (l.toList ++ (k₁, d₁) :: r.toList)) (hlt : ord k k₀ = .lt) :
    ord k k₁ = .lt := by
  rcases rootEntry_prepareLeft h with rfl | hm
  · exact hlt
  · exact ho.trans hk (hd.left _ hm) hd.mid hlt (hs.left_lt hm)

/-- A key not below the old root is not below a root prepared for the
right. -/
theorem not_lt_of_rootEntry (ho : KeyOrder ord Dom) {k : K} (hk : Dom k)
    {l r : Tree K D} {k₀ k₁ : K} {d₀ d₁ : D} (h : k₁ = k₀ ∨ (k₀, d₀) ∈ r.toList)
    (hs : StrictlySorted ord (l.toList ++ (k₁, d₁) :: r.toList))
    (hd : KeysIn Dom (l.toList ++ (k₁, d₁) :: r.toList)) (hge : ord k k₀ ≠ .lt) :
    ord k k₁ ≠ .lt := by
  rcases h with rfl | hm
  · exact hge
  · have := ho.gt_of_lt_of_not_lt hk hd.mid (hd.right _ hm) (hs.lt_right hm) hge
    rw [this]
    simp

/-- Erasing a key that lies to the left of the middle entry. -/
theorem eraseKey_of_lt (ho : KeyOrder ord Dom) {k : K} (hk : Dom k) {e : K × D}
    {l₁ l₂ : List (K × D)} (hs : StrictlySorted ord (l₁ ++ e :: l₂))
    (hd : KeysIn Dom (l₁ ++ e :: l₂)) (h : ord k e.1 = .lt) :
    eraseKey ord k (l₁ ++ e :: l₂) = eraseKey ord k l₁ ++ e :: l₂ := by
  have h₂ := hs.lt_right_of ho hd hk (by rw [h]; simp)
  rw [eraseKey_append_cons, eraseKey_eq_self (l := l₂) (fun x hx => by rw [h₂ x hx]; simp),
    eraseKey_eq_self (l := [e]) (fun x hx => by rw [List.mem_singleton.mp hx, h]; simp),
    List.append_assoc, List.singleton_append]

/-- Erasing a key at or to the right of the middle entry. -/
theorem eraseKey_of_not_lt (ho : KeyOrder ord Dom) {k : K} (hk : Dom k) {e : K × D}
    {l₁ l₂ : List (K × D)} (hs : StrictlySorted ord (l₁ ++ e :: l₂))
    (hd : KeysIn Dom (l₁ ++ e :: l₂)) (h : ord k e.1 ≠ .lt) :
    eraseKey ord k (l₁ ++ e :: l₂)
      = l₁ ++ (if ord k e.1 = .eq then l₂ else e :: eraseKey ord k l₂) := by
  have h₁ := hs.gt_left ho hd hk h
  rw [eraseKey_append_cons, eraseKey_eq_self (l := l₁) (fun x hx => by rw [h₁ x hx]; simp),
    List.append_assoc]
  congr 1
  by_cases he : ord k e.1 = .eq
  · have h₂ := hs.lt_right_of ho hd hk (by rw [he]; simp)
    rw [if_pos he, eraseKey_eq_self (l := l₂) (fun x hx => by rw [h₂ x hx]; simp)]
    simp [eraseKey, he]
  · rw [if_neg he, eraseKey_eq_self (l := [e])
      (fun x hx => by rw [List.mem_singleton.mp hx]; exact he)]
    rfl

/-- **Deletion keeps the balance and erases the key**: on a sorted tree that
carries a red link along, and for a key that may descend into it. -/
theorem Ready.deleteImpl (ho : KeyOrder ord Dom) {k : K} (hk : Dom k) {t : Tree K D}
    {c : Color} {n : ℕ} (h : Ready t c n) (hs : StrictlySorted ord t.toList)
    (hd : KeysIn Dom t.toList) (hdesc : Descends ord k t c) :
    Shrunk (deleteImpl ord k t) c n ∧
      (deleteImpl ord k t).toList = eraseKey ord k t.toList := by
  induction hsz : t.size using Nat.strong_induction_on generalizing t c n with
  | _ s ih =>
    subst hsz
    cases t with
    | nil => exact absurd h.isNil (by simp [Tree.isNil])
    | node c₀ l₀ k₀ d₀ r₀ =>
      by_cases hlt : ord k k₀ = .lt
      · -- the key lies to the left
        have hleft : c = .black → (node c₀ l₀ k₀ d₀ r₀).left.isRed = true := fun hc => by
          by_contra hn
          exact hdesc hc (Bool.eq_false_iff.mpr hn) k₀ rfl hlt
        obtain ⟨c', l, k', d, r, m, cl, heq, hl, hfix⟩ := h.prepareLeft hleft
        have htl : (node c' l k' d r).toList = (node c₀ l₀ k₀ d₀ r₀).toList := by
          rw [← heq, toList_prepareLeft]
        have hsz : l.size < (node c₀ l₀ k₀ d₀ r₀).size := size_left_lt_of_toList_eq htl
        rw [deleteImpl_of_lt hlt heq]
        rw [← htl, toList] at hs hd ⊢
        have hlt' := lt_of_prepareLeft ho hk heq hs hd hlt
        have hrec : Shrunk (Tree.deleteImpl ord k l) cl m ∧
            (Tree.deleteImpl ord k l).toList = eraseKey ord k l.toList := by
          rcases hl with ⟨rfl, rfl, rfl⟩ | ⟨hl, hll⟩
          · rw [deleteImpl_nil]
            exact ⟨.nil, rfl⟩
          · exact ih _ hsz hl hs.left hd.left
              (fun hc hn => absurd (hll hc) (by simp [hn])) rfl
        rw [eraseKey_of_lt ho hk hs hd hlt']
        exact ⟨hfix _ hrec.1, by rw [toList_fixUp, toList, hrec.2]⟩
      · -- the key lies at the node or to the right
        obtain ⟨h₁, hnl⟩ := h.leanRight
        have htl₁ := toList_leanRight (node c₀ l₀ k₀ d₀ r₀)
        cases hn : (node c₀ l₀ k₀ d₀ r₀).leanRight with
        | nil =>
          rw [hn] at h₁
          exact absurd h₁.isNil (by simp [Tree.isNil])
        | node c₁ l₁ k₁ d₁ r₁ =>
          rw [hn] at h₁ hnl htl₁
          have hs₁ := hs
          have hd₁ := hd
          rw [← htl₁, toList] at hs₁ hd₁
          have hlt₁ := not_lt_of_rootEntry ho hk (rootEntry_leanRight hn) hs₁ hd₁ hlt
          by_cases hlast : ord k k₁ = .eq ∧ r₁.isNil = true
          · rw [deleteImpl_of_last hlt hn hlast, ← htl₁]
            show _ ∧ [] = eraseKey ord k (l₁.toList ++ (k₁, d₁) :: r₁.toList)
            rw [eraseKey_of_not_lt ho hk hs₁ hd₁ hlt₁, if_pos hlast.1]
            cases r₁ with
            | node c' a k' d' b => exact absurd hlast.2 (by simp [Tree.isNil])
            | nil =>
              obtain ⟨rfl, rfl, rfl⟩ := h₁.of_right_nil hnl
              exact ⟨⟨_, .nil⟩, rfl⟩
          · have hgt := hs₁.gt_left ho hd₁ hk hlt₁
            have hkey : ∀ e ∈ (node c₁ l₁ k₁ d₁ r₁).rootKey?, ord k e ≠ .lt := fun e he => by
              rw [← Option.mem_some_iff.mp he]
              exact hlt₁
            have hne : (∃ e ∈ (node c₁ l₁ k₁ d₁ r₁).rootKey?, ord k e = .eq) →
                (node c₁ l₁ k₁ d₁ r₁).right.isNil = false := by
              rintro ⟨e, he, heq⟩
              rw [← Option.mem_some_iff.mp he] at heq
              exact Bool.eq_false_iff.mpr (fun hr => hlast ⟨heq, hr⟩)
            obtain ⟨c₂, l₂, k₂, d₂, r₂, m, cr, heq, hr, hfix⟩ := h₁.prepareRight (k := k) hnl
              (fun e he => by rw [hgt e he]; simp) hkey hne
            have htl₂ : (node c₂ l₂ k₂ d₂ r₂).toList = (node c₀ l₀ k₀ d₀ r₀).toList := by
              rw [← heq, toList_prepareRight, htl₁]
            have hsz : r₂.size < (node c₀ l₀ k₀ d₀ r₀).size := size_right_lt_of_toList_eq htl₂
            rw [deleteImpl_of_prepareRight hlt hn hlast heq]
            rw [← htl₂, toList] at hs hd ⊢
            have hlt₂ := not_lt_of_rootEntry ho hk (rootEntry_prepareRight heq) hs hd hlt₁
            rw [eraseKey_of_not_lt ho hk hs hd hlt₂]
            by_cases hk₂ : ord k k₂ = .eq
            · -- found: the least entry of the right subtree takes its place
              rw [if_pos hk₂, if_pos hk₂]
              rcases hr with ⟨-, -, -, hne⟩ | ⟨hr, -, hrl⟩
              · exact absurd hk₂ hne
              · have hmin := minEntry_eq_head? r₂
                have hdel := toList_deleteMinImpl hr (hrl hk₂)
                cases hl : r₂.toList with
                | nil => exact absurd hl (toList_ne_nil hr.isNil)
                | cons e es =>
                  rw [hl] at hmin hdel
                  rw [hmin]
                  refine ⟨hfix _ _ _ (hr.deleteMinImpl (hrl hk₂)), ?_⟩
                  show (fixUp (node c₂ l₂ e.1 e.2 r₂.deleteMinImpl)).toList = _
                  rw [toList_fixUp, toList, hdel, List.tail_cons]
            · rw [if_neg hk₂, if_neg hk₂]
              have hrec : Shrunk (Tree.deleteImpl ord k r₂) cr m ∧
                  (Tree.deleteImpl ord k r₂).toList = eraseKey ord k r₂.toList := by
                rcases hr with ⟨rfl, rfl, rfl, -⟩ | ⟨hr, hdr, -⟩
                · rw [deleteImpl_nil]
                  exact ⟨.nil, rfl⟩
                · exact ih _ hsz hr hs.right hd.right hdr rfl
              exact ⟨hfix _ _ _ hrec.1, by rw [toList_fixUp, toList, hrec.2]⟩

/-! ## The three updates of a whole tree -/

/-- **An insertion puts the entry in its place.** -/
theorem toList_insertImpl (ho : KeyOrder ord Dom) {k : K} (d : D) (hk : Dom k) {t : Tree K D}
    (hs : StrictlySorted ord t.toList) (hd : KeysIn Dom t.toList) :
    (insertImpl ord k d t).toList = insertSorted ord k d t.toList := by
  induction t with
  | nil => rfl
  | node c l k' d' r ihl ihr =>
    rw [toList] at hs hd
    rw [Tree.insertImpl, toList]
    cases hc : ord k k' with
    | lt =>
      show (fixUp (node c (insertImpl ord k d l) k' d' r)).toList = _
      rw [toList_fixUp, toList, ihl hs.left hd.left, insertSorted_append_of_lt d d' _ _ hc]
    | eq =>
      show (fixUp (node c l k' d r)).toList = _
      rw [toList_fixUp, toList,
        insertSorted_append_of_gt d _ _ (hs.gt_left ho hd hk (by simp [hc])), insertSorted, hc]
    | gt =>
      show (fixUp (node c l k' d' (insertImpl ord k d r))).toList = _
      rw [toList_fixUp, toList, ihr hs.right hd.right,
        insertSorted_append_of_gt d _ _ (hs.gt_left ho hd hk (by simp [hc])), insertSorted, hc]

/-- **An insertion is that into the sorted list.** -/
theorem toList_insert (ho : KeyOrder ord Dom) {k : K} (d : D) (hk : Dom k) {t : Tree K D}
    (hs : StrictlySorted ord t.toList) (hd : KeysIn Dom t.toList) :
    (insert ord k d t).toList = insertSorted ord k d t.toList := by
  rw [Tree.insert, toList_setColor, toList_insertImpl ho d hk hs hd]

/-- **A search answers what the entries hold.** -/
theorem find_eq_lookup (ho : KeyOrder ord Dom) {k : K} (hk : Dom k) {t : Tree K D}
    (hs : StrictlySorted ord t.toList) (hd : KeysIn Dom t.toList) :
    find ord k t = lookup ord k t.toList := by
  induction t with
  | nil => rfl
  | node c l k' d' r ihl ihr =>
    rw [toList] at hs hd
    rw [find, toList]
    cases hc : ord k k' with
    | lt =>
      rw [lookup_append_of_lt d' _ _ hc (hs.lt_right_of ho hd hk (by simp [hc]))]
      exact ihl hs.left hd.left
    | eq =>
      rw [lookup_append_of_gt _ _ (hs.gt_left ho hd hk (by simp [hc])), lookup, if_pos hc]
    | gt =>
      rw [lookup_append_of_gt _ _ (hs.gt_left ho hd hk (by simp [hc])), lookup,
        if_neg (by simp [hc])]
      exact ihr hs.right hd.right

/-- A nonempty balanced tree with its root painted is ready for a
deletion. -/
theorem Balanced.paintRoot {c₀ : Color} {l r : Tree K D} {k : K} {d : D} {n : ℕ}
    (h : Balanced (node c₀ l k d r) .black n) :
    ∃ c m, Ready (node c₀ l k d r).paintRoot c m ∧
      (c = .black → (node c₀ l k d r).paintRoot.left.isRed = true) := by
  cases h with
  | @black _ _ _ _ cl n hl hr =>
    cases cl with
    | black =>
      have hp : (node .black l k d r).paintRoot = node .red l k d r := by
        simp [Tree.paintRoot, hl.isRed_black, hr.isRed_black, setColor]
      rw [hp]
      exact ⟨_, _, .red hl hr, fun h => absurd h (by simp)⟩
    | red =>
      have hp : (node .black l k d r).paintRoot = node .black l k d r := by
        simp [Tree.paintRoot, hl.isRed_red]
      rw [hp]
      exact ⟨_, _, .left hl hr, fun _ => hl.isRed_red⟩

@[simp] theorem toList_paintRoot (t : Tree K D) : t.paintRoot.toList = t.toList := by
  unfold Tree.paintRoot
  split <;> simp

/-- **Deletion keeps the balance and erases the key**, present or absent. -/
theorem Balanced.delete (ho : KeyOrder ord Dom) {k : K} (hk : Dom k) {t : Tree K D} {n : ℕ}
    (h : Balanced t .black n) (hs : StrictlySorted ord t.toList) (hd : KeysIn Dom t.toList) :
    (∃ m, Balanced (delete ord k t) .black m) ∧
      (delete ord k t).toList = eraseKey ord k t.toList := by
  cases t with
  | nil =>
    have h₀ : (Tree.nil : Tree K D).paintRoot = Tree.nil := rfl
    rw [Tree.delete, h₀, Tree.deleteImpl]
    exact ⟨⟨0, Balanced.nil⟩, rfl⟩
  | node c₀ l k' d r =>
    obtain ⟨c, m, hready, hleft⟩ := h.paintRoot
    rw [← toList_paintRoot] at hs hd
    obtain ⟨hsh, htl⟩ := hready.deleteImpl ho hk hs hd
      (fun hc hn => absurd (hleft hc) (by simp [hn]))
    exact ⟨hsh.setColor_black, by rw [Tree.delete, toList_setColor, htl, toList_paintRoot]⟩

/-- **Deleting the least entry keeps the balance.** -/
theorem Balanced.deleteMin {t : Tree K D} {n : ℕ} (h : Balanced t .black n) :
    (∃ m, Balanced t.deleteMin .black m) ∧ t.deleteMin.toList = t.toList.tail := by
  cases t with
  | nil =>
    have h₀ : (Tree.nil : Tree K D).deleteMin = Tree.nil := by
      have h₁ : (Tree.nil : Tree K D).paintRoot = Tree.nil := rfl
      rw [Tree.deleteMin, h₁, Tree.deleteMinImpl]
      rfl
    rw [h₀]
    exact ⟨⟨0, Balanced.nil⟩, rfl⟩
  | node c₀ l k' d r =>
    obtain ⟨c, m, hready, hleft⟩ := h.paintRoot
    refine ⟨(hready.deleteMinImpl hleft).setColor_black, ?_⟩
    rw [Tree.deleteMin, toList_setColor, toList_deleteMinImpl hready hleft, toList_paintRoot]

end Delete

/-! ## The invariant, property by property -/

/-- No right child is red. -/
def NoRedRight : Tree K D → Prop
  | nil => True
  | node _ l _ _ r => r.isRed = false ∧ l.NoRedRight ∧ r.NoRedRight

/-- No red node has a red child. -/
def NoRedRed : Tree K D → Prop
  | nil => True
  | node c l _ _ r =>
    (c = .red → l.isRed = false ∧ r.isRed = false) ∧ l.NoRedRed ∧ r.NoRedRed

/-- The number of black nodes on each path from the root to an empty
link. -/
def blackPaths : Tree K D → List ℕ
  | nil => [0]
  | node c l _ _ r =>
    (l.blackPaths ++ r.blackPaths).map (fun n => if c = .black then n + 1 else n)

/-- **A left-leaning red-black tree**: the root is black, no right link is
red, no two red links follow each other, and every path to an empty link has
the same number of black nodes. -/
structure RedBlack (t : Tree K D) : Prop where
  root_black : t.isRed = false
  no_red_right : t.NoRedRight
  no_red_red : t.NoRedRed
  same_black : ∀ m ∈ t.blackPaths, ∀ n ∈ t.blackPaths, m = n

/-- A balanced tree has no right-leaning and no double red. -/
theorem Balanced.noRed {t : Tree K D} {c : Color} {n : ℕ} (h : Balanced t c n) :
    t.NoRedRight ∧ t.NoRedRed := by
  induction h with
  | nil => exact ⟨trivial, trivial⟩
  | black _ hr ihl ihr =>
    exact ⟨⟨hr.isRed_black, ihl.1, ihr.1⟩, fun h => absurd h (by simp), ihl.2, ihr.2⟩
  | red hl hr ihl ihr =>
    exact ⟨⟨hr.isRed_black, ihl.1, ihr.1⟩, fun _ => ⟨hl.isRed_black, hr.isRed_black⟩,
      ihl.2, ihr.2⟩

/-- All its paths have its black height. -/
theorem Balanced.blackPaths {t : Tree K D} {c : Color} {n : ℕ} (h : Balanced t c n) :
    ∀ m ∈ t.blackPaths, m = n := by
  induction h with
  | nil => simp [Tree.blackPaths]
  | black _ _ ihl ihr =>
    intro m hm
    simp only [Tree.blackPaths, List.map_append, List.mem_append, List.mem_map, if_true] at hm
    rcases hm with ⟨a, ha, rfl⟩ | ⟨a, ha, rfl⟩
    · rw [ihl a ha]
    · rw [ihr a ha]
  | red _ _ ihl ihr =>
    intro m hm
    simp only [Tree.blackPaths, List.map_append, List.mem_append, List.mem_map, reduceCtorEq,
      if_false] at hm
    rcases hm with ⟨a, ha, rfl⟩ | ⟨a, ha, rfl⟩
    · exact ihl _ ha
    · exact ihr _ ha

/-- **A balanced tree with a black root is a left-leaning red-black tree.** -/
theorem Balanced.redBlack {t : Tree K D} {n : ℕ} (h : Balanced t .black n) : RedBlack t where
  root_black := h.isRed_black
  no_red_right := h.noRed.1
  no_red_red := h.noRed.2
  same_black m hm n hn := by rw [h.blackPaths m hm, h.blackPaths n hn]

/-! ### Data do not matter -/

section MapData

variable {E : Type} (f : D → E)

@[simp] theorem noRedRight_mapData (t : Tree K D) :
    (t.mapData f).NoRedRight ↔ t.NoRedRight := by
  induction t with
  | nil => rfl
  | node c l k d r ihl ihr => simp only [mapData_node, NoRedRight, isRed_mapData, ihl, ihr]

@[simp] theorem noRedRed_mapData (t : Tree K D) : (t.mapData f).NoRedRed ↔ t.NoRedRed := by
  induction t with
  | nil => rfl
  | node c l k d r ihl ihr => simp only [mapData_node, NoRedRed, isRed_mapData, ihl, ihr]

@[simp] theorem blackPaths_mapData (t : Tree K D) : (t.mapData f).blackPaths = t.blackPaths := by
  induction t with
  | nil => rfl
  | node c l k d r ihl ihr => simp only [mapData_node, blackPaths, ihl, ihr]

/-- A tree is red-black or not, whatever its data are. -/
theorem redBlack_mapData {t : Tree K D} : RedBlack (t.mapData f) ↔ RedBlack t := by
  constructor
  · rintro ⟨hroot, hright, hred, hsame⟩
    rw [isRed_mapData] at hroot
    rw [noRedRight_mapData] at hright
    rw [noRedRed_mapData] at hred
    rw [blackPaths_mapData] at hsame
    exact ⟨hroot, hright, hred, hsame⟩
  · rintro ⟨hroot, hright, hred, hsame⟩
    exact ⟨by rw [isRed_mapData, hroot], (noRedRight_mapData f t).mpr hright,
      (noRedRed_mapData f t).mpr hred, by rwa [blackPaths_mapData]⟩

end MapData

end Tree

end Llrb
