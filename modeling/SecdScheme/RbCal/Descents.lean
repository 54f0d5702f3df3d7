import SecdScheme.RbCal.Repairs

/-!
# rbtree4.cal: insertions and deletions

Over a sound style every descent leads to the tree that the functional
operation leaves, with all sizes right: the insertion to `insertImpl`, the
deletion of the least entry to `deleteMinImpl`, and the deletion of a key that
is there to `deleteImpl`. The last `rbi_fixsize` of `balance` repairs the one
size that lagged behind.

The repair of a node differs from `fixUp` at one place: two red children hand
their colour to the node by a real flip, so a red node would turn black. A red
node with two red children does not arise.
-/

namespace RbCal

open Llrb Llrb.Tree

variable {K V : Type} {s s' : Heap K V} {z : ℤ} {h hl hr : Link} {t l m r : Tree K V}
  {A B C : Set ℕ} {c : Color} {k kx : K} {d dx : V} {st : Style K V}

/-! ## Tests -/

section Tests

/-- The color of a root is read off its tree. -/
theorem isRed_run (ht : s.Top z h t A) : isColor .red h s = (.ok t.isRed, s) := by
  rw [isColor_run .red ht]
  cases t.isRed <;> rfl

/-- What is not red is black. -/
theorem isBlack_run (ht : s.Top z h t A) : isColor .black h s = (.ok (!t.isRed), s) := by
  rw [isColor_run .black ht]
  cases t.isRed <;> rfl

/-- The left child of a node, with its tree. -/
theorem Heap.Top.left_run (ht : s.Top z h t A) (hn : t.isNil = false) :
    ∃ hl B, left h s = (.ok hl, s) ∧ s.Own hl t.left B := by
  cases ht with
  | nil => exact absurd hn (by simp [isNil])
  | node hget _ hl₀ _ => exact ⟨_, _, RbCal.left_run hget, hl₀⟩

/-- The right child of a node, with its tree. -/
theorem Heap.Top.right_run (ht : s.Top z h t A) (hn : t.isNil = false) :
    ∃ hr C, right h s = (.ok hr, s) ∧ s.Own hr t.right C := by
  cases ht with
  | nil => exact absurd hn (by simp [isNil])
  | node hget _ _ hr₀ => exact ⟨_, _, RbCal.right_run hget, hr₀⟩

/-- The color of the left child. -/
theorem redLeft_run (ht : s.Top z h t A) (hn : t.isNil = false) :
    (do isColor .red (← left h) : CalM K V Bool) s = (.ok t.left.isRed, s) := by
  obtain ⟨hl, B, hrun, hl₀⟩ := ht.left_run hn
  rw [Cmd.bind_run_ok hrun, isRed_run hl₀]

/-- The same question the other way. -/
theorem blackLeft_run (ht : s.Top z h t A) (hn : t.isNil = false) :
    (do isColor .black (← left h) : CalM K V Bool) s = (.ok (!t.left.isRed), s) := by
  obtain ⟨hl, B, hrun, hl₀⟩ := ht.left_run hn
  rw [Cmd.bind_run_ok hrun, isBlack_run hl₀]

theorem redRight_run (ht : s.Top z h t A) (hn : t.isNil = false) :
    (do isColor .red (← right h) : CalM K V Bool) s = (.ok t.right.isRed, s) := by
  obtain ⟨hr, C, hrun, hr₀⟩ := ht.right_run hn
  rw [Cmd.bind_run_ok hrun, isRed_run hr₀]

theorem blackRight_run (ht : s.Top z h t A) (hn : t.isNil = false) :
    (do isColor .black (← right h) : CalM K V Bool) s = (.ok (!t.right.isRed), s) := by
  obtain ⟨hr, C, hrun, hr₀⟩ := ht.right_run hn
  rw [Cmd.bind_run_ok hrun, isBlack_run hr₀]

/-- The color of the left child's left child. -/
theorem redLeftLeft_run (ht : s.Top z h t A) (hn : t.isNil = false) (hl : t.left.isNil = false) :
    (do isColor .red (← left (← left h)) : CalM K V Bool) s = (.ok t.left.left.isRed, s) := by
  obtain ⟨hl, B, hrun, hl₀⟩ := ht.left_run hn
  exact (Cmd.bind_run_ok hrun _).trans (redLeft_run hl₀ ‹_›)

theorem blackLeftLeft_run (ht : s.Top z h t A) (hn : t.isNil = false)
    (hl : t.left.isNil = false) :
    (do isColor .black (← left (← left h)) : CalM K V Bool) s
      = (.ok (!t.left.left.isRed), s) := by
  obtain ⟨hl, B, hrun, hl₀⟩ := ht.left_run hn
  exact (Cmd.bind_run_ok hrun _).trans (blackLeft_run hl₀ ‹_›)

/-- The color of the right child's left child. -/
theorem blackLeftRight_run (ht : s.Top z h t A) (hn : t.isNil = false)
    (hr : t.right.isNil = false) :
    (do isColor .black (← left (← right h)) : CalM K V Bool) s
      = (.ok (!t.right.left.isRed), s) := by
  obtain ⟨hr, C, hrun, hr₀⟩ := ht.right_run hn
  exact (Cmd.bind_run_ok hrun _).trans (blackLeft_run hr₀ ‹_›)

/-- The second test of a conjunction is made only where the first one holds. -/
theorem andM_run_of {a b : CalM K V Bool} {x y : Bool} (ha : a s = (.ok x, s))
    (hb : x = true → b s = (.ok y, s)) : andM a b s = (.ok (x && y), s) := by
  rw [andM, Cmd.bind_run_ok ha]
  cases x with
  | true => exact hb rfl
  | false => rfl

/-- What is red is a node. -/
theorem isNil_of_isRed (ht : t.isRed = true) : t.isNil = false := by
  cases t with
  | nil => exact absurd ht (by simp)
  | node => rfl

end Tests

/-! ## The operations of a style on trees -/

namespace Style.Sound

variable (hst : st.Sound)

include hst

/-- A left rotation, in either style. -/
theorem leads_rotateLeft (ht : s.Top z h t A) (hr : t.right.isNil = false) :
    Leads (st.rotLeft h) id s A z t.rotateLeft := by
  rcases t with _ | ⟨c, l, k, d, _ | _⟩
  · exact absurd hr (by simp [isNil])
  · exact absurd hr (by simp [isNil])
  · exact hst.rotLeft ht

/-- A right rotation, in either style. -/
theorem leads_rotateRight (ht : s.Top z h t A) (hl : t.left.isNil = false) :
    Leads (st.rotRight h) id s A z t.rotateRight := by
  rcases t with _ | ⟨c, _ | _, k, d, r⟩
  · exact absurd hl (by simp [isNil])
  · exact absurd hl (by simp [isNil])
  · exact hst.rotRight ht

/-- A flip, in either style. -/
theorem leads_flipColors (ht : s.Top z h t A) (hl : t.left.isNil = false)
    (hr : t.right.isNil = false) :
    Leads (st.flip h) (fun _ => h) s A z t.flipColorsDelete := by
  rcases t with _ | ⟨c, _ | _, k, d, _ | _⟩
  · exact absurd hl (by simp [isNil])
  · exact absurd hl (by simp [isNil])
  · exact absurd hl (by simp [isNil])
  · exact absurd hr (by simp [isNil])
  · exact hst.flip ht

end Style.Sound

/-! ## The repair of a node -/

/-- **The repair of a node** as `balance` makes it. -/
def repair (t : Tree K V) : Tree K V :=
  let t' := t.leanLeft.splitReds
  if t'.left.isRed && t'.right.isRed then t'.flipColorsDelete else t'

/-- Leaning left leaves a node. -/
theorem isNil_leanLeft (ht : t.isNil = false) : t.leanLeft.isNil = false := by
  unfold leanLeft
  split
  · rcases t with _ | ⟨c, l, k, d, _ | _⟩
    · exact ht
    · rfl
    · rfl
  · exact ht

theorem isNil_flipColorsDelete (t : Tree K V) : t.flipColorsDelete.isNil = t.isNil := by
  cases t <;> rfl

theorem isNil_splitReds (ht : t.isNil = false) : t.splitReds.isNil = false := by
  unfold splitReds
  split
  · rcases t with _ | ⟨c, _ | _, k, d, r⟩
    · exact ht
    · rfl
    · rfl
  · exact ht

/-- The size is that of the tree. -/
theorem leads_rbiFixsize (ht : s.Top z h t A) (hn : t.isNil = false) :
    Leads (rbiFixsize h) id s A t.size t := by
  cases ht with
  | nil => exact absurd hn (by simp [isNil])
  | @node _ a hl hr c l r k d _ B C hget ha hl₀ hr₀ hB hC =>
    have hne : ∀ x, x ≠ a → (s.put a ⟨hl, hr, c, k, d, (l.size : ℤ) + r.size + 1⟩).get x
        = s.get x := fun x hx => Heap.get_put_ne hx
    have hsize : (l.size : ℤ) + r.size + 1 = ((node c l k d r).size : ℤ) := by simp [Tree.size]
    refine ⟨some a, _, ?_, .put _ ha, .node
      ((Heap.get_put_self (Heap.lt_of_get hget)).trans (by rw [hsize])) (Or.inl ha)
      (hl₀.frame fun x hx _ => hne x (hB x hx).2) (hr₀.frame fun x hx _ => hne x (hC x hx).2.1)
      (fun x hx => ⟨Or.inl (hB x hx).1, (hB x hx).2⟩)
      fun x hx => ⟨Or.inl (hC x hx).1, (hC x hx).2⟩⟩
    rw [rbiFixsize, Cmd.bind_run_ok (left_run hget), Cmd.bind_run_ok (rbiSize_run hl₀),
      Cmd.bind_run_ok (right_run hget), Cmd.bind_run_ok (rbiSize_run hr₀),
      Cmd.bind_run_ok (show setSize (some a) _ s = (.ok (), s.put a _) from setSize_run _ hget)]
    rfl

/-- **`balance` leads to the repaired node**, with its size right. -/
theorem leads_balance (hst : st.Sound) (ht : s.Top z h t A) (hn : t.isNil = false) :
    Leads (st.balance h) id s A (repair t).size (repair t) := by
  unfold Style.balance
  refine .of_read (andM_run (redRight_run ht hn) (blackLeft_run ht hn)) (.bind_ite
    (.bind (e := id) (u := t.leanLeft) (y := z) ?_ fun h₁ s₁ ht₁ => ?_))
  · unfold leanLeft
    split
    · rename_i hp
      exact hst.leads_rotateLeft ht (isNil_of_isRed (Bool.and_eq_true_iff.mp hp).1)
    · exact .pure ht
  have hn₁ := isNil_leanLeft hn
  refine .of_read (andM_run_of (redLeft_run ht₁ hn₁) fun hl =>
    redLeftLeft_run ht₁ hn₁ (isNil_of_isRed hl)) (.bind_ite
    (.bind (e := id) (u := t.leanLeft.splitReds) (y := z) ?_ fun h₂ s₂ ht₂ => ?_))
  · unfold splitReds
    split
    · rename_i hp
      exact hst.leads_rotateRight ht₁ (isNil_of_isRed (Bool.and_eq_true_iff.mp hp).1)
    · exact .pure ht₁
  have hn₂ := isNil_splitReds hn₁
  refine .of_read (andM_run (redLeft_run ht₂ hn₂) (redRight_run ht₂ hn₂)) ?_
  show Leads (if _ = true then st.flip h₂ >>= fun _ => rbiFixsize h₂
    else (pure () : CalM K V Unit) >>= fun _ => rbiFixsize h₂) _ _ _ _ _
  refine .bind_ite (.bind (e := fun _ => h₂) (u := repair t) (y := z) ?_ fun _ s₃ ht₃ => ?_)
  · unfold repair
    dsimp only
    split
    · rename_i hp
      rw [Bool.and_eq_true_iff] at hp
      exact hst.leads_flipColors ht₂ (isNil_of_isRed hp.1) (isNil_of_isRed hp.2)
    · exact .pure ht₂
  · refine leads_rbiFixsize ht₃ ?_
    unfold repair
    dsimp only
    split
    · rw [isNil_flipColorsDelete]
      exact hn₂
    · exact hn₂

/-! ### Where it is the repair of the library -/

section Repair

/-- Of a red root, black is the other color. -/
theorem setColor_black_of_isRed (ht : t.isRed = true) : t.setColor .black = t.flipRoot := by
  rcases t with _ | ⟨_ | _, l, k, d, r⟩
  · rfl
  · exact absurd ht (by simp)
  · rfl

theorem isRed_leanLeft (t : Tree K V) : t.leanLeft.isRed = t.isRed := by
  unfold leanLeft
  split
  · rcases t with _ | ⟨_ | _, l, k, d, _ | _⟩ <;> rfl
  · rfl

theorem isRed_splitReds (t : Tree K V) : t.splitReds.isRed = t.isRed := by
  unfold splitReds
  split
  · rcases t with _ | ⟨_ | _, _ | _, k, d, r⟩ <;> rfl
  · rfl

/-- A black node is repaired as in the library, whatever its children are. -/
theorem repair_black : repair (node .black l k d r) = fixUp (node .black l k d r) := by
  have hred : (node .black l k d r).leanLeft.splitReds.isRed = false := by
    rw [isRed_splitReds, isRed_leanLeft]
    rfl
  unfold repair fixUp liftReds
  generalize (node .black l k d r).leanLeft.splitReds = t at hred
  dsimp only
  split
  · rename_i hp
    rw [Bool.and_eq_true_iff] at hp
    rcases t with _ | ⟨_ | _, l, k, d, r⟩
    · rfl
    · have hl : l.setColor .black = l.flipRoot := setColor_black_of_isRed hp.1
      have hr : r.setColor .black = r.flipRoot := setColor_black_of_isRed hp.2
      rw [flipColors, hl, hr]
      rfl
    · exact absurd hred (by simp)
  · rfl

/-- A red node over a right child that is black. -/
theorem repair_red_of_right (hr : r.isRed = false) (hl : l.isRed = true → l.left.isRed = false) :
    repair (node .red l k d r) = fixUp (node .red l k d r) := by
  have h₁ : leanLeft (node .red l k d r) = node .red l k d r := by simp [leanLeft, hr]
  have h₂ : splitReds (node .red l k d r) = node .red l k d r := by
    by_cases h : l.isRed = true <;> simp_all [splitReds]
  rw [fixUp_eq_self hr hl, repair, h₁, h₂]
  simp [hr]

/-- A red node over a left child that is black. -/
theorem repair_red_of_left (hl : l.isRed = false) (hr : r.isRed = true → r.right.isRed = false) :
    repair (node .red l k d r) = fixUp (node .red l k d r) := by
  cases hred : r.isRed with
  | false => exact repair_red_of_right hred fun h => absurd h (by simp [hl])
  | true =>
    cases r with
    | nil => exact absurd hred (by simp)
    | node cr rl rk rd rr =>
      have hrr : rr.isRed = false := hr hred
      have h₁ : leanLeft (node .red l k d (node cr rl rk rd rr))
          = node .red (node .red l k d rl) rk rd rr := by
        simp only [leanLeft, right_node, left_node, hred, hl, rotateLeft]
        rfl
      have h₂ : splitReds (node .red (node .red l k d rl) rk rd rr)
          = node .red (node .red l k d rl) rk rd rr := by
        simp [splitReds, hl]
      rw [fixUp, repair, liftReds, h₁, h₂]
      simp [hrr]

/-- A red node of a balanced tree has no red right child. -/
theorem Balanced.right_of_red {n : ℕ} (ht : Balanced t c n) :
    t.isRed = true → t.right.isRed = false := by
  cases ht with
  | nil => exact fun _ => rfl
  | black _ _ => exact fun h => absurd h (by simp)
  | red _ h => exact fun _ => h.isRed_black

end Repair

/-! ## Insertion -/

/-- A new leaf. -/
theorem leads_rbiNode (k : K) (d : V) (s : Heap K V) (A : Set ℕ) :
    Leads (rbiNode k d) id s A ((node .red nil k d nil : Tree K V).size)
      (node .red nil k d nil) := by
  obtain ⟨s', hrun, hg, hlen, hnew⟩ := alloc_run (⟨none, none, .red, k, d, 1⟩ : Node K V) s
  refine ⟨_, s', hrun, hg.mono (Set.empty_subset A), .node (B := ∅) (C := ∅) hnew
    (Or.inr ⟨le_rfl, by omega⟩) (.nil _ _) (.nil _ _) nofun nofun⟩

/-- The three-way comparison of a comparison function. -/
def signOf (f : K → K → ℤ) (a b : K) : Ordering := compare (f a b) 0

theorem signOf_lt {f : K → K → ℤ} {a b : K} : signOf f a b = .lt ↔ f a b < 0 := compare_lt_iff_lt

theorem signOf_gt {f : K → K → ℤ} {a b : K} : signOf f a b = .gt ↔ f a b > 0 := compare_gt_iff_gt

theorem signOf_eq {f : K → K → ℤ} {a b : K} : signOf f a b = .eq ↔ f a b = 0 := compare_eq_iff_eq

/-- A comparison that is a function of the keys. -/
theorem compareKeys_run (f : K → K → ℤ) (a b : K) (s : Heap K V) :
    compareKeys (some fun a b => .ok (f a b)) a b s = (.ok (f a b), s) := rfl

/-- After an insertion below a balanced node its repair is that of the
library. -/
theorem repair_insert (ord : K → K → Ordering) (kx : K) (dx : V) {n : ℕ}
    (hb : Balanced (node c l k d r) c n) :
    repair (node c (insertImpl ord kx dx l) k d r) = fixUp (node c (insertImpl ord kx dx l) k d r) ∧
    repair (node c l k d (insertImpl ord kx dx r)) = fixUp (node c l k d (insertImpl ord kx dx r)) ∧
    repair (node c l k dx r) = fixUp (node c l k dx r) := by
  cases hb with
  | black hl hr => exact ⟨repair_black, repair_black, repair_black⟩
  | red hl hr =>
    obtain ⟨cl, hl'⟩ : ∃ cl, Balanced (insertImpl ord kx dx l) cl n := (hl.insertImpl kx dx).2 rfl
    obtain ⟨cr, hr'⟩ : ∃ cr, Balanced (insertImpl ord kx dx r) cr n := (hr.insertImpl kx dx).2 rfl
    exact ⟨repair_red_of_right hr.isRed_black hl'.left_of_red,
      repair_red_of_left hl.isRed_black (Balanced.right_of_red hr'),
      repair_red_of_right hr.isRed_black hl.left_of_red⟩

/-- **An insertion leads to the tree of the functional insertion.** -/
theorem leads_put (hst : st.Sound) (f : K → K → ℤ) {n fuel : ℕ} (hb : Balanced t c n)
    (ht : s.Own h t A) (hf : t.size < fuel) :
    Leads (st.put fuel h kx dx (some fun a b => .ok (f a b))) id s A
      (insertImpl (signOf f) kx dx t).size (insertImpl (signOf f) kx dx t) := by
  induction t generalizing c n fuel h A s with
  | nil =>
    obtain ⟨fuel, rfl⟩ := Nat.exists_eq_succ_of_ne_zero (Nat.ne_zero_of_lt hf)
    rw [ht.eq_none]
    exact leads_rbiNode kx dx s A
  | node c₀ l k d r ihl ihr =>
    obtain ⟨fuel, rfl⟩ := Nat.exists_eq_succ_of_ne_zero (Nat.ne_zero_of_lt hf)
    rw [Tree.size] at hf
    have hc : c = c₀ := by cases hb <;> rfl
    subst hc
    obtain ⟨hleft, hright, hmid⟩ := repair_insert (signOf f) kx dx hb
    have hvec : vector h = true := ht.vector_eq
    obtain ⟨⟨cl, nl, hbl⟩, ⟨cr, nr, hbr⟩⟩ :
        (∃ cl nl, Balanced l cl nl) ∧ ∃ cr nr, Balanced r cr nr := by
      cases hb with
      | black hl hr => exact ⟨⟨_, _, hl⟩, ⟨_, _, hr⟩⟩
      | red hl hr => exact ⟨⟨_, _, hl⟩, ⟨_, _, hr⟩⟩
    unfold Style.put
    rw [if_neg (by rw [hvec]; decide)]
    refine .bind (hst.enter ht) fun h₁ s₁ ht₁ => ?_
    refine .of_read (key_of_top ht₁) (.of_read (compareKeys_run f kx k s₁) ?_)
    dsimp only
    rw [insertImpl]
    cases hcmp : signOf f kx k with
    | lt =>
      have hneg := signOf_lt.mp hcmp
      rw [if_pos hneg]
      refine .replaceLeft (f := fun x => st.put fuel x kx dx (some fun a b => .ok (f a b))) ht₁
        (fun hl B hl₀ => ihl hbl hl₀ (by omega)) fun s₂ ht₂ => ?_
      rw [← hleft]
      exact leads_balance hst ht₂ rfl
    | gt =>
      have hpos := signOf_gt.mp hcmp
      rw [if_neg (by omega), if_pos hpos]
      refine .replaceRight (f := fun x => st.put fuel x kx dx (some fun a b => .ok (f a b))) ht₁
        (fun hr C hr₀ => ihr hbr hr₀ (by omega)) fun s₂ ht₂ => ?_
      rw [← hright]
      exact leads_balance hst ht₂ rfl
    | eq =>
      have hzero := signOf_eq.mp hcmp
      rw [if_neg (by omega), if_neg (by omega)]
      refine .bind (leads_setData dx ht₁) fun _ s₂ ht₂ => ?_
      rw [← hmid]
      exact leads_balance hst ht₂ rfl

/-! ## Bringing a red link along -/

section Moves

variable {cl cr : Color} {ll rl lr rr : Tree K V} {kl kr : K} {dl dr : V}

theorem size_rotateRight (t : Tree K V) : t.rotateRight.size = t.size :=
  size_eq_of_toList_eq (toList_rotateRight t)

/-- **Moving red to the left**, in either style. -/
theorem leads_moveRedLeft (hst : st.Sound)
    (ht : s.Top z h (node c (node cl ll kl dl rl) k d (node cr lr kr dr rr)) A) :
    Leads (st.moveRedLeft h) id s A z
      (node c (node cl ll kl dl rl) k d (node cr lr kr dr rr)).moveRedLeft := by
  unfold Style.moveRedLeft
  refine .bind (hst.flip ht) fun _ s₁ ht₁ => ?_
  obtain ⟨hr, C, hrun, hr₀⟩ := ht₁.right_run rfl
  obtain ⟨hl, B, hrun', hl₀⟩ := hr₀.left_run rfl
  refine .of_read hrun (.of_read hrun' (.of_read (isRed_run hl₀) ?_))
  show Leads (if lr.isRed = true then _ else _) id s₁ _ z (if lr.isRed = true then _ else _)
  by_cases hred : lr.isRed = true
  · rw [if_pos hred, if_pos hred]
    obtain ⟨cx, lx, kx, dx, rx, rfl⟩ : ∃ cx lx kx dx rx, lr = node cx lx kx dx rx := by
      cases lr with
      | nil => exact absurd hred (by simp)
      | node cx lx kx dx rx => exact ⟨cx, lx, kx, dx, rx, rfl⟩
    refine .replaceRight (f := st.rotRight) ht₁ 
      (u := rotateRight (node cr.flip (node cx lx kx dx rx) kr dr rr)) (fun hr C hr₀ => ?_)
      fun s₂ ht₂ => ?_
    · rw [size_rotateRight]
      exact hst.rotRight hr₀
    · refine .bind (hst.rotLeft ht₂) fun h₃ s₃ ht₃ => ?_
      refine .bind (hst.flip ht₃) fun _ s₄ ht₄ => ?_
      exact .pure ht₄
  · rw [if_neg hred, if_neg hred]
    exact .pure ht₁

/-- **Moving red to the right**, in either style. -/
theorem leads_moveRedRight (hst : st.Sound)
    (ht : s.Top z h (node c (node cl ll kl dl rl) k d (node cr lr kr dr rr)) A) :
    Leads (st.moveRedRight h) id s A z
      (node c (node cl ll kl dl rl) k d (node cr lr kr dr rr)).moveRedRight := by
  unfold Style.moveRedRight
  refine .bind (hst.flip ht) fun _ s₁ ht₁ => ?_
  obtain ⟨hl, B, hrun, hl₀⟩ := ht₁.left_run rfl
  obtain ⟨hl', B', hrun', hl₀'⟩ := hl₀.left_run rfl
  refine .of_read hrun (.of_read hrun' (.of_read (isRed_run hl₀') ?_))
  show Leads (if ll.isRed = true then _ else _) id s₁ _ z (if ll.isRed = true then _ else _)
  by_cases hred : ll.isRed = true
  · rw [if_pos hred, if_pos hred]
    refine .bind (hst.rotRight ht₁) fun h₂ s₂ ht₂ => ?_
    obtain ⟨cx, lx, kx, dx, rx, rfl⟩ : ∃ cx lx kx dx rx, ll = node cx lx kx dx rx := by
      cases ll with
      | nil => exact absurd hred (by simp)
      | node cx lx kx dx rx => exact ⟨cx, lx, kx, dx, rx, rfl⟩
    refine .bind (hst.flip ht₂) fun _ s₃ ht₃ => ?_
    exact .pure ht₃
  · rw [if_neg hred, if_neg hred]
    exact .pure ht₁

end Moves

/-- **The preparation of a descent to the left.** A red link can be brought
along where neither child is empty. -/
theorem leads_towardsLeft (hst : st.Sound) (ht : s.Top z h t A) (hl : t.left.isNil = false)
    (hr : t.left.isRed = false → t.left.left.isRed = false → t.right.isNil = false) :
    Leads (st.towardsLeft h) id s A z t.prepareLeft := by
  rcases t with _ | ⟨c, _ | ⟨cl, ll, kl, dl, rl⟩, k, d, r⟩
  · exact absurd hl (by simp [isNil])
  · exact absurd hl (by simp [isNil])
  · unfold Style.towardsLeft
    refine .of_read (andM_run (blackLeft_run ht rfl) (blackLeftLeft_run ht rfl rfl)) ?_
    unfold prepareLeft
    rw [hl, Bool.not_false, Bool.true_and]
    split
    · rename_i hp
      simp only [Bool.and_eq_true_iff, Bool.not_eq_true'] at hp
      cases r with
      | nil => exact absurd (hr hp.1 hp.2) (by simp [isNil])
      | node cr lr kr dr rr => exact leads_moveRedLeft hst ht
    · exact .pure ht

/-- The preparation of a descent to the right. -/
theorem leads_towardsRight (hst : st.Sound) (ht : s.Top z h t A) (hr : t.right.isNil = false)
    (hl : t.right.isRed = false → t.right.left.isRed = false → t.left.isNil = false) :
    Leads (st.towardsRight h) id s A z t.prepareRight := by
  rcases t with _ | ⟨c, l, k, d, _ | ⟨cr, lr, kr, dr, rr⟩⟩
  · exact absurd hr (by simp [isNil])
  · exact absurd hr (by simp [isNil])
  · unfold Style.towardsRight
    refine .of_read (andM_run (blackRight_run ht rfl) (blackLeftRight_run ht rfl rfl)) ?_
    unfold prepareRight
    rw [hr, Bool.not_false, Bool.true_and]
    split
    · rename_i hp
      simp only [Bool.and_eq_true_iff, Bool.not_eq_true'] at hp
      cases l with
      | nil => exact absurd (hl hp.1 hp.2) (by simp [isNil])
      | node cl ll kl dl rl => exact leads_moveRedRight hst ht
    · exact .pure ht

/-- A red left child is turned over. -/
theorem leads_leanRight (hst : st.Sound) (ht : s.Top z h t A) :
    Leads (if t.left.isRed = true then st.rotRight h else pure h) id s A z t.leanRight := by
  unfold leanRight
  split
  · exact hst.leads_rotateRight ht (isNil_of_isRed ‹_›)
  · exact .pure ht

/-! ## Deletion of the least entry -/

section Enter

variable {α : Type} {u : Tree K V} {f : Link → CalM K V Link} {g : CalM K V α} {link : α → Link}
  {y : ℤ}

/-- The left child is entered, and what a function makes of it replaces it. -/
theorem Leads.enterLeft (hst : st.Sound) (ht : s.Top z h (node c l k d r) A)
    (hl : l.isNil = false)
    (hf : ∀ s hl B, s.Own hl l B → Leads (f hl) id s B u.size u)
    (hg : ∀ s', s'.Top z h (node c u k d r) (s.upTo A s') → Leads g link s' (s.upTo A s') y t) :
    Leads (do setLeft h (← f (← st.enter (← left h))); g) link s A y t := by
  have hboth : Leads (do setLeft h (← (fun x => st.enter x >>= f) (← left h)); g)
      link s A y t := by
    refine .replaceLeft ht (fun x B hl₀ => ?_) hg
    cases l with
    | nil => exact absurd hl (by simp [isNil])
    | node => exact .bind (hst.enter hl₀) fun x s' ht' => hf s' x _ ht'
  simpa only [Cmd.bind_assoc_run] using hboth

/-- The right child is entered. -/
theorem Leads.enterRight (hst : st.Sound) (ht : s.Top z h (node c l k d r) A)
    (hr : r.isNil = false)
    (hf : ∀ s hr C, s.Own hr r C → Leads (f hr) id s C u.size u)
    (hg : ∀ s', s'.Top z h (node c l k d u) (s.upTo A s') → Leads g link s' (s.upTo A s') y t) :
    Leads (do setRight h (← f (← st.enter (← right h))); g) link s A y t := by
  have hboth : Leads (do setRight h (← (fun x => st.enter x >>= f) (← right h)); g)
      link s A y t := by
    refine .replaceRight ht (fun x C hr₀ => ?_) hg
    cases r with
    | nil => exact absurd hr (by simp [isNil])
    | node => exact .bind (hst.enter hr₀) fun x s' ht' => hf s' x _ ht'
  simpa only [Cmd.bind_assoc_run] using hboth

end Enter

section Ready

variable {n : ℕ}

/-- Below a node that is ready a black left child has a sibling. -/
theorem Ready.right_ne_nil (hready : Ready t c n) (hn : t.left.isNil = false)
    (hred : t.left.isRed = false) : t.right.isNil = false := by
  cases hready with
  | left hl _ => exact absurd (hl.isRed_red.symm.trans hred) (by decide)
  | right _ hr => exact isNil_of_isRed hr.isRed_red
  | red hl hr =>
    cases hl with
    | nil => exact absurd hn (by simp [isNil])
    | black _ _ =>
      cases hr
      rfl

/-- A node that is ready to be descended has a left child, unless its right one is red. -/
theorem Ready.left_ne_nil (hready : Ready t c n) (hn : t.right.isNil = false)
    (hred : t.right.isRed = false) : t.left.isNil = false := by
  cases hready with
  | left hl _ => exact isNil_of_isRed hl.isRed_red
  | right _ hr => exact absurd (hr.isRed_red.symm.trans hred) (by decide)
  | red hl hr =>
    cases hr with
    | nil => exact absurd hn (by simp [isNil])
    | black _ _ =>
      cases hl
      rfl

/-- A red node prepared for the left has a black right child. -/
theorem Ready.right_of_prepareLeft (hready : Ready t c n) (hleft : c = .black → t.left.isRed = true)
    (hp : t.prepareLeft = node .red l k d r) : r.isRed = false := by
  cases hready with
  | @left l₀ r₀ k₀ d₀ n hl hr =>
    have hself : (node .black l₀ k₀ d₀ r₀).prepareLeft = node .black l₀ k₀ d₀ r₀ := by
      simp [prepareLeft, hl.isRed_red]
    rw [hself] at hp
    cases hp
  | right hl hr => exact absurd (hleft rfl) (by simp [hl.isRed_black])
  | @red l₀ r₀ k₀ d₀ n hl hr =>
    unfold prepareLeft at hp
    split at hp
    · cases hr with
      | nil => cases hp
      | @black a b ka da ca n ha hb =>
        simp only [moveRedLeft, flipColorsDelete] at hp
        cases a with
        | nil => cases hp
        | node ca la ka da ra =>
          cases ca with
          | black => cases hp
          | red =>
            cases hp
            rfl
    · cases hp
      exact hr.isRed_black

/-- A red node prepared for the right has a black left child. -/
theorem Ready.left_of_prepareRight (hready : Ready t c n) (hleft : t.left.isRed = false)
    (hp : t.prepareRight = node .red l k d r) : l.isRed = false := by
  cases hready with
  | left hl _ => exact absurd (hl.isRed_red.symm.trans hleft) (by decide)
  | @right l₀ r₀ k₀ d₀ n hl hr =>
    have hself : (node .black l₀ k₀ d₀ r₀).prepareRight = node .black l₀ k₀ d₀ r₀ := by
      simp [prepareRight, hr.isRed_red]
    rw [hself] at hp
    cases hp
  | @red l₀ r₀ k₀ d₀ n hl hr =>
    unfold prepareRight at hp
    split at hp
    · cases hl with
      | nil => cases hp
      | @black a b ka da ca n ha hb =>
        simp only [moveRedRight, flipColorsDelete] at hp
        cases a with
        | nil => cases hp
        | node ca la ka da ra =>
          cases ca with
          | black => cases hp
          | red =>
            cases hp
            rfl
    · cases hp
      exact hl.isRed_black

/-- After a deletion on the left the repair is that of the library. -/
theorem Ready.repair_left {cl : Color} {m : ℕ} {c' : Color} {u : Tree K V} (hready : Ready t c n)
    (hleft : c = .black → t.left.isRed = true) (hp : t.prepareLeft = node c' l k d r)
    (hu : Shrunk u cl m) : repair (node c' u k d r) = fixUp (node c' u k d r) := by
  obtain ⟨cu, hu⟩ := hu.exists_balanced
  cases c' with
  | black => exact repair_black
  | red => exact repair_red_of_right (Ready.right_of_prepareLeft hready hleft hp) hu.left_of_red

/-- After a deletion on the right, where the entry may have changed. -/
theorem Ready.repair_right {cr : Color} {m : ℕ} {c' : Color} {u : Tree K V}
    (hready : Ready t c n) (hleft : t.left.isRed = false) (hp : t.prepareRight = node c' l k d r)
    (hu : Shrunk u cr m) : repair (node c' l kx dx u) = fixUp (node c' l kx dx u) := by
  obtain ⟨cu, hu⟩ := hu.exists_balanced
  cases c' with
  | black => exact repair_black
  | red =>
    exact repair_red_of_left (Ready.left_of_prepareRight hready hleft hp)
      (Balanced.right_of_red hu)

end Ready

/-- **The deletion of the least entry** leads to the tree of the functional
deletion. -/
theorem leads_delmin (hst : st.Sound) {n fuel : ℕ} (hready : Ready t c n)
    (hleft : c = .black → t.left.isRed = true) (ht : s.Own h t A) (hf : t.size ≤ fuel) :
    Leads (st.delmin fuel h) id s A t.deleteMinImpl.size t.deleteMinImpl := by
  induction fuel generalizing t c n s h A with
  | zero =>
    cases hready <;> simp [Tree.size] at hf
  | succ fuel ih =>
    obtain ⟨hl₁, B, hrun, hl₀⟩ := ht.left_run hready.isNil
    unfold Style.delmin
    refine .of_read hrun ?_
    cases hnil : t.left.isNil with
    | true =>
      rw [if_pos (by rw [hl₀.vector_eq, hnil]; rfl), deleteMinImpl_of_isNil hnil]
      exact .pure (.nil _ A)
    | false =>
      rw [if_neg (by rw [hl₀.vector_eq, hnil]; decide)]
      obtain ⟨c', l, k, d, r, m, cl, heq, hl, hfix⟩ := hready.prepareLeft hleft
      have hln : l.isNil = false := by
        have hkeep := isNil_left_prepareLeft hnil
        rw [heq] at hkeep
        exact hkeep
      have hlt : l.size < t.size :=
        size_left_lt_of_toList_eq (by rw [← heq, toList_prepareLeft])
      obtain ⟨hl, hll⟩ : Ready l cl m ∧ (cl = .black → l.left.isRed = true) := by
        rcases hl with ⟨rfl, -, -⟩ | hl
        · exact absurd hln (by simp [isNil])
        · exact hl
      refine .bind (leads_towardsLeft hst ht hnil
        fun hred _ => Ready.right_ne_nil hready hnil hred) fun h₁ s₁ ht₁ => ?_
      rw [heq] at ht₁
      rw [deleteMinImpl_of_prepareLeft hnil heq]
      refine .enterLeft hst ht₁ hln (f := st.delmin fuel) (u := l.deleteMinImpl)
        (fun s hl' B hl₀ => ih hl hll hl₀ (by omega)) fun s₂ ht₂ => ?_
      rw [← Ready.repair_left hready hleft heq (hl.deleteMinImpl hll)]
      exact leads_balance hst ht₂ rfl

/-- **The deletion of the greatest entry.** -/
theorem leads_delmax (hst : st.Sound) {n fuel : ℕ} (hready : Ready t c n) (hf : t.size ≤ fuel) :
    ∃ t' : Tree K V, Shrunk t' c n ∧ t'.toList = t.toList.dropLast ∧
      ∀ (s : Heap K V) h A, s.Own h t A → Leads (st.delmax fuel h) id s A t'.size t' := by
  induction fuel generalizing t c n with
  | zero =>
    cases hready <;> simp [Tree.size] at hf
  | succ fuel ih =>
    obtain ⟨hready₁, hnl⟩ := hready.leanRight
    have htl₁ := toList_leanRight t
    have hrun : ∀ (s : Heap K V) h A (t' : Tree K V), s.Own h t A →
        (∀ s₁ h₁, s₁.Top t.size h₁ t.leanRight (s.upTo A s₁) → Leads (do
          if !vector (← right h₁) then return none
          let h₁ ← st.towardsRight h₁
          setRight h₁ (← st.delmax fuel (← st.enter (← right h₁)))
          st.balance h₁) id s₁ (s.upTo A s₁) t'.size t') →
        Leads (st.delmax (fuel + 1) h) id s A t'.size t' := fun s h A t' ht hrest => by
      obtain ⟨hl, B, hrun, hl₀⟩ := ht.left_run hready.isNil
      unfold Style.delmax
      exact .of_read hrun (.of_read (isRed_run hl₀) (.bind_ite
        (.bind (leads_leanRight hst ht) fun h₁ s₁ ht₁ => hrest s₁ h₁ ht₁)))
    generalize t.leanRight = t₁ at hready₁ hnl htl₁ hrun
    cases hnil : t₁.right.isNil with
    | true =>
      rcases t₁ with _ | ⟨c₁, l₁, k₁, d₁, _ | _⟩
      · exact absurd hready₁.isNil (by simp [isNil])
      · obtain ⟨rfl, rfl, rfl⟩ := hready₁.of_right_nil hnl
        refine ⟨.nil, ⟨_, .nil⟩, by rw [← htl₁]; rfl, fun s h A ht => hrun s h A _ ht ?_⟩
        intro s₁ h₁ ht₁
        obtain ⟨hr, C, hright, hr₀⟩ := ht₁.right_run rfl
        refine .of_read hright ?_
        rw [if_pos (by rw [hr₀.vector_eq]; rfl)]
        exact .pure (.nil _ _)
      · exact absurd hnil (by simp [isNil])
    | false =>
      have hsize : t₁.size = t.size := size_eq_of_toList_eq htl₁
      obtain ⟨e₁, -⟩ : ∃ e, e ∈ t₁.rootKey? := by
        rcases t₁ with _ | _
        · exact absurd hready₁.isNil (by simp [isNil])
        · exact ⟨_, rfl⟩
      have hright : RightReady (fun _ _ => .gt) e₁ t₁.prepareRight c n :=
        hready₁.prepareRight hnl (fun _ _ => by simp) (fun _ _ => by simp)
          (by simp)
      obtain ⟨c₂, l₂, k₂, d₂, r₂, m, cr, heq, hr, hfix⟩ := hright
      have hrn : r₂.isNil = false := by
        have hkeep := isNil_right_prepareRight hnil
        rw [heq] at hkeep
        exact hkeep
      have htl₂ : (node c₂ l₂ k₂ d₂ r₂).toList = t.toList := by
        rw [← heq, toList_prepareRight, htl₁]
      have hlt : r₂.size < t.size := size_right_lt_of_toList_eq htl₂
      obtain ⟨hr, -, -⟩ := hr.resolve_left fun hno => absurd hrn (by rw [hno.1]; simp [isNil])
      obtain ⟨t', hsh, hlist, hleads⟩ := ih hr (by omega)
      refine ⟨fixUp (node c₂ l₂ k₂ d₂ t'), hfix t' k₂ d₂ hsh, ?_,
        fun s h A ht => hrun s h A _ ht ?_⟩
      · rw [toList_fixUp, toList, hlist, ← htl₂, toList,
          List.dropLast_append_of_ne_nil (by simp),
          List.dropLast_cons_of_ne_nil (toList_ne_nil hrn)]
      · intro s₁ h₁ ht₁
        obtain ⟨hr₁, C, hright, hr₀⟩ := ht₁.right_run hready₁.isNil
        refine .of_read hright ?_
        rw [if_neg (by rw [hr₀.vector_eq, hnil]; decide)]
        refine .bind (leads_towardsRight hst ht₁ hnil
          fun hred _ => Ready.left_ne_nil hready₁ hnil hred) fun h₂ s₂ ht₂ => ?_
        rw [heq] at ht₂
        refine .enterRight hst ht₂ hrn (f := st.delmax fuel) (u := t')
          (fun s hr' C hr₀ => hleads s hr' C hr₀) fun s₃ ht₃ => ?_
        rw [← Ready.repair_right hready₁ hnl heq hsh]
        exact leads_balance hst ht₃ rfl

/-! ## Deletion of a key -/

/-- **The least node of a tree** and its entry. -/
theorem rbiMinNode_run (fuel : ℕ) (ht : s.Own h t A) (hn : t.isNil = false) (hf : t.size ≤ fuel) :
    ∃ a n, rbiMinNode fuel h s = (.ok (some a), s) ∧ a ∈ A ∧ s.get a = some n ∧
      t.minEntry = some (n.key, n.data) := by
  induction t generalizing h A fuel with
  | nil => exact absurd hn (by simp [isNil])
  | node c l k d r ihl _ =>
    rw [Tree.size] at hf
    obtain ⟨fuel, rfl⟩ := Nat.exists_eq_succ_of_ne_zero (Nat.ne_zero_of_lt hf)
    cases ht with
    | @node _ a hl hr _ _ _ _ _ _ B C hget ha hl₀ hr₀ hB hC =>
      cases l with
      | nil =>
        refine ⟨a, _, ?_, ha, hget, rfl⟩
        rw [rbiMinNode, Cmd.bind_run_ok (left_run hget), hl₀.eq_none]
        rfl
      | node c' l' k' d' r' =>
        obtain ⟨b, n, hrun, hb, hgetb, hmin⟩ := ihl fuel hl₀ rfl (by omega)
        refine ⟨b, n, ?_, (hB b hb).1, hgetb, hmin⟩
        rw [rbiMinNode, Cmd.bind_run_ok (left_run hget),
          if_pos (show vector hl = true from hl₀.vector_eq)]
        exact (Cmd.bind_run_ok (left_run hget) _).trans hrun

/-- A node takes over the entry of another one. -/
theorem Leads.takeEntry {α : Type} {g : CalM K V α} {link : α → Link} {y : ℤ} {a : ℕ}
    {n : Node K V} (ht : s.Top z h (node c l k d r) A) (hn : s.get a = some n)
    (hne : h ≠ some a)
    (hg : ∀ s' B, s'.Top z h (node c l n.key n.data r) B → Leads g link s' B y t) :
    Leads (do setKey h (← key (some a)); setData h (← data (some a)); g) link s A y t := by
  obtain ⟨_, s₁, hrun₁, hg₁, ht₁⟩ := leads_setKey n.key ht
  have hn₁ : s₁.get a = some n := by
    cases ht with
    | node hget =>
      injection hrun₁.symm.trans (update_run hget) with _ hs
      rw [hs, Heap.get_put_ne fun hx => hne (by rw [hx]), hn]
  refine .of_read (key_run hn) (.after hrun₁ hg₁ (.of_read (data_run hn₁) ?_))
  exact .bind (leads_setData n.data ht₁) fun _ s₂ ht₂ => hg s₂ _ ht₂

section Delete

open SortedAssoc

variable {f : K → K → ℤ}

/-- A key below the middle entry is among the entries on the left. -/
theorem mem_left_of_lt (ho : KeyOrder (signOf f) fun _ => True) {l₁ l₂ : List (K × V)}
    {e e' : K × V} (hs : StrictlySorted (signOf f) (l₁ ++ e' :: l₂)) (he : e ∈ l₁ ++ e' :: l₂)
    (heq : signOf f kx e.1 = .eq) (hlt : signOf f kx e'.1 = .lt) : e ∈ l₁ := by
  rw [List.mem_append, List.mem_cons] at he
  rcases he with he | rfl | he
  · exact he
  · exact absurd (heq.symm.trans hlt) (by simp)
  · have hlt' := hs.lt_right_of ho (fun _ _ => trivial) trivial (by rw [hlt]; simp) e he
    exact absurd (heq.symm.trans hlt') (by simp)

/-- A key above the middle entry is among the entries on the right. -/
theorem mem_right_of_gt (ho : KeyOrder (signOf f) fun _ => True) {l₁ l₂ : List (K × V)}
    {e e' : K × V} (hs : StrictlySorted (signOf f) (l₁ ++ e' :: l₂)) (he : e ∈ l₁ ++ e' :: l₂)
    (heq : signOf f kx e.1 = .eq) (hlt : signOf f kx e'.1 ≠ .lt) (hne : signOf f kx e'.1 ≠ .eq) :
    e ∈ l₂ := by
  rw [List.mem_append, List.mem_cons] at he
  rcases he with he | rfl | he
  · have hgt := hs.gt_left ho (fun _ _ => trivial) trivial hlt e he
    exact absurd (heq.symm.trans hgt) (by simp)
  · exact absurd heq hne
  · exact he

/-- A tree with an entry has a root. -/
theorem isNil_of_mem {e : K × V} (he : e ∈ t.toList) : t.isNil = false := by
  cases t with
  | nil => exact absurd he (by simp [toList])
  | node => rfl

/-- What the deletion of a key that is there does, up to a depth. -/
def Deletes (st : Style K V) (f : K → K → ℤ) (kx : K) (fuel : ℕ) : Prop :=
  ∀ (t : Tree K V) (c : Color) (n : ℕ) (s : Heap K V) (h : Link) (A : Set ℕ), Ready t c n →
    StrictlySorted (signOf f) t.toList → Descends (signOf f) kx t c →
    (∃ e ∈ t.toList, signOf f kx e.1 = .eq) → t.size ≤ fuel → s.Own h t A →
    Leads (st.del fuel h kx (some fun a b => .ok (f a b))) id s A
      (deleteImpl (signOf f) kx t).size (deleteImpl (signOf f) kx t)

variable {n fuel : ℕ}

/-- The descent of a deletion to the left. -/
theorem Deletes.left (hst : st.Sound) (ho : KeyOrder (signOf f) fun _ => True)
    (ih : Deletes st f kx fuel) {c₀ : Color} (hready : Ready (node c₀ l k d r) c n)
    (hs : StrictlySorted (signOf f) (node c₀ l k d r).toList)
    (hdesc : Descends (signOf f) kx (node c₀ l k d r) c)
    (hk : ∃ e ∈ (node c₀ l k d r).toList, signOf f kx e.1 = .eq)
    (hf : (node c₀ l k d r).size ≤ fuel + 1) (ht : s.Own h (node c₀ l k d r) A)
    (hlt : signOf f kx k = .lt) :
    Leads (st.del (fuel + 1) h kx (some fun a b => .ok (f a b))) id s A
      (deleteImpl (signOf f) kx (node c₀ l k d r)).size
      (deleteImpl (signOf f) kx (node c₀ l k d r)) := by
  obtain ⟨e, he, heq⟩ := hk
  have hleft : c = .black → (node c₀ l k d r).left.isRed = true := fun hc => by
    by_contra hn
    exact hdesc hc (Bool.eq_false_iff.mpr hn) k rfl hlt
  obtain ⟨c₁, l₁, k₁, d₁, r₁, m, cl, hp, hl, hfix⟩ := hready.prepareLeft hleft
  have htl : (node c₁ l₁ k₁ d₁ r₁).toList = (node c₀ l k d r).toList := by
    rw [← hp, toList_prepareLeft]
  have hsize : l₁.size < (node c₀ l k d r).size := size_left_lt_of_toList_eq htl
  have hs₁ := htl ▸ hs
  rw [toList] at hs₁
  have hnil : (node c₀ l k d r).left.isNil = false := isNil_of_mem (mem_left_of_lt ho hs he heq hlt)
  have hin : e ∈ l₁.toList := mem_left_of_lt ho hs₁ (by rw [← toList, htl]; exact he) heq
    (lt_of_prepareLeft ho trivial hp hs₁ (fun _ _ => trivial) hlt)
  obtain ⟨hl, hll⟩ : Ready l₁ cl m ∧ (cl = .black → l₁.left.isRed = true) :=
    hl.resolve_left fun hno => absurd (isNil_of_mem hin) (by rw [hno.1]; simp [isNil])
  have hdl : Descends (signOf f) kx l₁ cl := fun hc hn => absurd (hll hc) (by simp [hn])
  unfold Style.del
  refine .of_read (key_of_top ht) (.of_read (compareKeys_run f kx k s) ?_)
  rw [if_pos (signOf_lt.mp hlt)]
  refine .bind (leads_towardsLeft hst ht hnil
    fun hred _ => Ready.right_ne_nil hready hnil hred) fun h₁ s₁ ht₁ => ?_
  rw [hp] at ht₁
  rw [deleteImpl_of_lt hlt hp]
  refine .enterLeft hst ht₁ (isNil_of_mem hin) (f := fun x => st.del fuel x kx _)
    (u := deleteImpl (signOf f) kx l₁)
    (fun s hl' B hl₀ => ih l₁ cl m s hl' B hl hs₁.left hdl ⟨e, hin, heq⟩ (by omega) hl₀)
    fun s₂ ht₂ => ?_
  rw [← Ready.repair_left hready hleft hp
    (hl.deleteImpl ho trivial hs₁.left (fun _ _ => trivial) hdl).1]
  exact leads_balance hst ht₂ rfl

/-- The key is found at the root, or the descent goes to the right. -/
theorem Deletes.right (hst : st.Sound) (ho : KeyOrder (signOf f) fun _ => True)
    (ih : Deletes st f kx fuel) {c₀ : Color} (hready : Ready (node c₀ l k d r) c n)
    (hs : StrictlySorted (signOf f) (node c₀ l k d r).toList)
    (hk : ∃ e ∈ (node c₀ l k d r).toList, signOf f kx e.1 = .eq)
    (hf : (node c₀ l k d r).size ≤ fuel + 1) (ht : s.Own h (node c₀ l k d r) A)
    (hlt : signOf f kx k ≠ .lt) :
    Leads (st.del (fuel + 1) h kx (some fun a b => .ok (f a b))) id s A
      (deleteImpl (signOf f) kx (node c₀ l k d r)).size
      (deleteImpl (signOf f) kx (node c₀ l k d r)) := by
  obtain ⟨e, he, heq⟩ := hk
  have hdom : ∀ l : List (K × V), KeysIn (fun _ => True) l := fun _ _ _ => trivial
  obtain ⟨hready₁, hnl⟩ := hready.leanRight
  have htl₁ := toList_leanRight (node c₀ l k d r)
  unfold Style.del
  refine .of_read (key_of_top ht) (.of_read (compareKeys_run f kx k s) ?_)
  rw [if_neg fun hx => hlt (signOf_lt.mpr hx)]
  obtain ⟨hl, B, hrun, hl₀⟩ := ht.left_run rfl
  refine .of_read hrun (.of_read (isRed_run hl₀) (.bind_ite
    (.bind (leads_leanRight hst ht) fun h₁ s₁ ht₁ => ?_)))
  cases hn : (node c₀ l k d r).leanRight with
  | nil =>
    rw [hn] at hready₁
    exact absurd hready₁.isNil (by simp [isNil])
  | node c₁ l₁ k₁ d₁ r₁ =>
    rw [hn] at hready₁ hnl htl₁ ht₁
    replace ht₁ : s₁.Top _ h₁ (node c₁ l₁ k₁ d₁ r₁) _ := ht₁
    have hs₁ := htl₁ ▸ hs
    have he₁ := htl₁ ▸ he
    rw [toList] at hs₁ he₁
    have hlt₁ := not_lt_of_rootEntry ho trivial (rootEntry_leanRight hn) hs₁ (hdom _) hlt
    have hlastRun : andM
        (do return (← compareKeys (some fun a b => .ok (f a b)) kx (← key h₁)) == 0)
        (do return !vector (← RbCal.right h₁)) s₁ = (.ok (f kx k₁ == 0 && r₁.isNil), s₁) := by
      obtain ⟨hr, C, hright, hr₀⟩ := ht₁.right_run rfl
      refine andM_run ?_ ?_
      · rw [Cmd.bind_run_ok (key_of_top ht₁), Cmd.bind_run_ok (compareKeys_run f kx k₁ s₁)]
        rfl
      · rw [Cmd.bind_run_ok hright, hr₀.vector_eq, Bool.not_not]
        rfl
    refine .of_read hlastRun ?_
    by_cases hlast : signOf f kx k₁ = .eq ∧ r₁.isNil = true
    · rw [if_pos (by rw [signOf_eq.mp hlast.1, hlast.2]; rfl), deleteImpl_of_last hlt hn hlast]
      exact .pure (.nil _ _)
    · rw [if_neg fun hx => hlast ?_]
      swap
      · rw [Bool.and_eq_true_iff, beq_iff_eq] at hx
        exact ⟨signOf_eq.mpr hx.1, hx.2⟩
      have hrn : r₁.isNil = false := by
        by_cases hk₁ : signOf f kx k₁ = .eq
        · exact Bool.eq_false_iff.mpr fun hr => hlast ⟨hk₁, hr⟩
        · exact isNil_of_mem (mem_right_of_gt ho hs₁ he₁ heq hlt₁ hk₁)
      have hgt := hs₁.gt_left ho (hdom _) trivial hlt₁
      have hroot : ∀ e ∈ (node c₁ l₁ k₁ d₁ r₁).rootKey?, signOf f kx e ≠ .lt := fun e he => by
        rw [← Option.mem_some_iff.mp he]
        exact hlt₁
      have hleft : ∀ e ∈ (node c₁ l₁ k₁ d₁ r₁).left.toList, signOf f kx e.1 ≠ .eq := fun e he => by
        rw [hgt e he]
        simp
      obtain ⟨c₂, l₂, k₂, d₂, r₂, m, cr, hp, hr, hfix⟩ := hready₁.prepareRight hnl hleft hroot
        fun _ => hrn
      have hrn₂ : r₂.isNil = false := by
        have hkeep := isNil_right_prepareRight (t := node c₁ l₁ k₁ d₁ r₁) hrn
        rw [hp] at hkeep
        exact hkeep
      have htl₂ : (node c₂ l₂ k₂ d₂ r₂).toList = (node c₀ l k d r).toList := by
        rw [← hp, toList_prepareRight, htl₁]
      have hsize : r₂.size < (node c₀ l k d r).size := size_right_lt_of_toList_eq htl₂
      have hs₂ := htl₂ ▸ hs
      have he₂ := htl₂ ▸ he
      rw [toList] at hs₂ he₂
      have hlt₂ := not_lt_of_rootEntry ho trivial (rootEntry_prepareRight hp) hs₂ (hdom _) hlt₁
      obtain ⟨hr, hdr, hrl⟩ := hr.resolve_left fun hno =>
        absurd hrn₂ (by rw [hno.1]; simp [isNil])
      refine .bind (leads_towardsRight hst ht₁ hrn
        fun hred _ => Ready.left_ne_nil hready₁ hrn hred) fun h₂ s₂ ht₂ => ?_
      rw [hp] at ht₂
      replace ht₂ : s₂.Top _ h₂ (node c₂ l₂ k₂ d₂ r₂) _ := ht₂
      refine .of_read (key_of_top ht₂) (.of_read (compareKeys_run f kx k₂ s₂) ?_)
      rw [deleteImpl_of_prepareRight hlt hn hlast hp]
      by_cases hk₂ : signOf f kx k₂ = .eq
      · -- found: the least entry of the right subtree takes its place
        rw [if_pos (signOf_eq.mp hk₂), if_pos hk₂]
        have ht₂' := ht₂
        cases ht₂ with
        | node hget ha hl₀ hr₀ hB hC =>
          obtain ⟨a, e', hmin, haC, hgeta, hentry⟩ := rbiMinNode_run fuel hr₀ hrn₂ (by omega)
          rw [hentry]
          refine .of_read (RbCal.right_run hget) (.of_read hmin (.takeEntry ht₂' hgeta
            (fun hx => (hC a haC).2.1 (Option.some.inj hx).symm) fun s₃ D ht₃ => ?_))
          refine .enterRight hst ht₃ hrn₂ (f := st.delmin fuel) (u := r₂.deleteMinImpl)
            (fun s hr' C hr₀ => leads_delmin hst hr (hrl hk₂) hr₀ (by omega)) fun s₄ ht₄ => ?_
          dsimp only
          rw [← Ready.repair_right hready₁ hnl hp (hr.deleteMinImpl (hrl hk₂))]
          exact leads_balance hst ht₄ rfl
      · rw [if_neg fun hx => hk₂ (signOf_eq.mpr hx), if_neg hk₂]
        have hin := mem_right_of_gt ho hs₂ he₂ heq hlt₂ hk₂
        refine .enterRight hst ht₂ hrn₂ (f := fun x => st.del fuel x kx _)
          (u := deleteImpl (signOf f) kx r₂)
          (fun s hr' C hr₀ => ih r₂ cr m s hr' C hr hs₂.right hdr ⟨e, hin, heq⟩ (by omega) hr₀)
          fun s₃ ht₃ => ?_
        rw [← Ready.repair_right hready₁ hnl hp
          (hr.deleteImpl ho trivial hs₂.right (hdom _) hdr).1]
        exact leads_balance hst ht₃ rfl

/-- **The deletion of a key** that is there leads to the tree of the functional
deletion. -/
theorem deletes (hst : st.Sound) (ho : KeyOrder (signOf f) fun _ => True) (fuel : ℕ) :
    Deletes st f kx fuel := by
  induction fuel with
  | zero =>
    intro t c n s h A hready hs hdesc hk hf ht
    cases hready <;> simp [Tree.size] at hf
  | succ fuel ih =>
    intro t c n s h A hready hs hdesc hk hf ht
    cases t with
    | nil => exact absurd hready.isNil (by simp [isNil])
    | node c₀ l k d r =>
      by_cases hlt : signOf f kx k = .lt
      · exact ih.left hst ho hready hs hdesc hk hf ht hlt
      · exact ih.right hst ho hready hs hk hf ht hlt

end Delete

end RbCal
