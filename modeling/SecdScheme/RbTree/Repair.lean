import SecdScheme.RbTree.Refine

/-!
# Rotations, flips and the repair of a node

The procedures that rearrange the nodes around one node. Each of them is
specified by the functional operation of the same name: on a tree with
addresses the two agree exactly, because none of them allocates.
-/

namespace RbTree

open Llrb Llrb.Tree

variable {K D : Type} {s : Store K D}

/-- An update of the field values of a root, which leaves the links below
alone, is an update of the root of the tree. -/
theorem Reaches.updateRoot {c c' : Color} {l r : Tree K (ℕ × D)} {k k' : K} {e : ℕ × D} {d' : D}
    {f : Node K D → Node K D} (h : Owned s (node c l k e r))
    (hf : f ⟨link l, link r, c, k, e.2⟩ = ⟨link l, link r, c', k', d'⟩) :
    Reaches (updateNode e.1 f) s (addrs (node c l k e r)) () (node c' l k' (e.1, d') r) := by
  obtain ⟨he, hl, hr, hel, her, hd⟩ := owned_node_iff.mp h
  refine ⟨s.set e.1 ⟨link l, link r, c', k', d'⟩, ?_, ?_, ?_, ?_⟩
  · rw [updateNode, he]
    dsimp only
    rw [hf]
  · refine owned_node_iff.mpr ⟨?_, ?_, ?_, hel, her, hd⟩
    · rw [Store.get_set, if_pos rfl, he]
      rfl
    · exact hl.frame (fun a ha => by
        rw [Store.get_set, if_neg (ne_of_mem_of_not_mem ha hel)])
    · exact hr.frame (fun a ha => by
        rw [Store.get_set, if_neg (ne_of_mem_of_not_mem ha her)])
  · exact Frame.set s _ (by simp)
  · intro a ha
    rw [addrs_node] at ha ⊢
    exact Or.inl ha

theorem Reaches.setColor {t : Tree K (ℕ × D)} (c : Color) (h : Owned s t) :
    Reaches (rbSetColor (link t) c) s (addrs t) () (t.setColor c) := by
  cases t with
  | nil => exact Reaches.pure h
  | node c₀ l k e r => exact Reaches.updateRoot h rfl

/-! ## Rotations -/

theorem Reaches.rotateRight {t : Tree K (ℕ × D)} (h : Owned s t) :
    Reaches (rbRotateRight (link t)) s (addrs t) (link t.rotateRight) t.rotateRight := by
  rcases t with _ | ⟨c, _ | ⟨c', a, k', e', b⟩, k, e, r⟩
  · exact Reaches.pure h
  · refine Reaches.of_read (rbLeft_run h.stored) ?_
    exact Reaches.pure h
  obtain ⟨he, hl, hr, hel, her, hd⟩ := owned_node_iff.mp h
  obtain ⟨he', ha, hb, hea, heb, hab⟩ := owned_node_iff.mp hl
  simp only [addrs_node, List.mem_append, List.mem_cons, not_or] at hel hd
  obtain ⟨hela, hne, helb⟩ := hel
  let s' := (((s.set e.1 ⟨link b, link r, c, k, e.2⟩).set e'.1 ⟨link a, some e.1, c', k', e'.2⟩).set
    e'.1 ⟨link a, some e.1, c, k', e'.2⟩).set e.1 ⟨link b, link r, .red, k, e.2⟩
  have hget : ∀ x, s'.get x = if x = e.1 then some ⟨link b, link r, .red, k, e.2⟩
      else if x = e'.1 then some ⟨link a, some e.1, c, k', e'.2⟩ else s.get x := by
    intro x
    by_cases hx : x = e.1
    · subst hx
      simp [s', Store.get_set, he, hne]
    · by_cases hx' : x = e'.1
      · subst hx'
        simp [s', Store.get_set, he', hx]
      · simp [s', Store.get_set, hx, hx']
  refine ⟨s', ?_, ?_, ⟨by simp [s'], rfl, fun x _ hx => ?_⟩, fun x hx => ?_⟩
  · simp [rbRotateRight, rbNull, rbLeft, rbRight, rbColor, rbSetLeft, rbSetRight, rbSetColor,
      nodeAt, updateNode, Cmd.bind_run, Store.get_set, he, he', hne, Ne.symm hne, s',
      Tree.rotateRight]
  · refine owned_node_iff.mpr ⟨?_, ?_, owned_node_iff.mpr ⟨?_, ?_, ?_, helb, her, ?_⟩, hea, ?_, ?_⟩
    · rw [hget, if_neg (Ne.symm hne), if_pos rfl]
      rfl
    · refine ha.frame (fun x hx => ?_)
      rw [hget, if_neg (ne_of_mem_of_not_mem hx hela), if_neg (ne_of_mem_of_not_mem hx hea)]
    · rw [hget, if_pos rfl]
    · refine hb.frame (fun x hx => ?_)
      rw [hget, if_neg (ne_of_mem_of_not_mem hx helb), if_neg (ne_of_mem_of_not_mem hx heb)]
    · refine hr.frame (fun x hx => ?_)
      rw [hget, if_neg (ne_of_mem_of_not_mem hx her),
        if_neg (ne_of_mem_of_not_mem hx (hd _ (Or.inr (Or.inl rfl))))]
    · exact fun x hx => hd x (Or.inr (Or.inr hx))
    · simp only [addrs_node, List.mem_append, List.mem_cons, not_or]
      exact ⟨heb, Ne.symm hne, hd _ (Or.inr (Or.inl rfl))⟩
    · intro x hx
      simp only [addrs_node, List.mem_append, List.mem_cons, not_or]
      exact ⟨hab x hx, ne_of_mem_of_not_mem hx hela, hd x (Or.inl hx)⟩
  · simp only [addrs_node, List.mem_append, List.mem_cons, not_or] at hx
    rw [hget, if_neg hx.2.1, if_neg hx.1.2.1]
  · exact Or.inl (by rwa [addrs_eq_of_toList_eq (toList_rotateRight _)] at hx)

theorem Reaches.rotateLeft {t : Tree K (ℕ × D)} (h : Owned s t) :
    Reaches (rbRotateLeft (link t)) s (addrs t) (link t.rotateLeft) t.rotateLeft := by
  rcases t with _ | ⟨c, l, k, e, _ | ⟨c', b, k', e', r⟩⟩
  · exact Reaches.pure h
  · refine Reaches.of_read (rbRight_run h.stored) ?_
    exact Reaches.pure h
  obtain ⟨he, hl, hr, hel, her, hd⟩ := owned_node_iff.mp h
  obtain ⟨he', hb, hr', heb, her', hbr⟩ := owned_node_iff.mp hr
  simp only [addrs_node, List.mem_append, List.mem_cons, not_or] at her hd
  obtain ⟨herb, hne, herr⟩ := her
  let s' := (((s.set e.1 ⟨link l, link b, c, k, e.2⟩).set e'.1 ⟨some e.1, link r, c', k', e'.2⟩).set
    e'.1 ⟨some e.1, link r, c, k', e'.2⟩).set e.1 ⟨link l, link b, .red, k, e.2⟩
  have hget : ∀ x, s'.get x = if x = e.1 then some ⟨link l, link b, .red, k, e.2⟩
      else if x = e'.1 then some ⟨some e.1, link r, c, k', e'.2⟩ else s.get x := by
    intro x
    by_cases hx : x = e.1
    · subst hx
      simp [s', Store.get_set, he, hne]
    · by_cases hx' : x = e'.1
      · subst hx'
        simp [s', Store.get_set, he', hx]
      · simp [s', Store.get_set, hx, hx']
  refine ⟨s', ?_, ?_, ⟨by simp [s'], rfl, fun x _ hx => ?_⟩, fun x hx => ?_⟩
  · simp [rbRotateLeft, rbNull, rbLeft, rbRight, rbColor, rbSetLeft, rbSetRight, rbSetColor,
      nodeAt, updateNode, Cmd.bind_run, Store.get_set, he, he', hne, Ne.symm hne, s',
      Tree.rotateLeft]
  · refine owned_node_iff.mpr ⟨?_, owned_node_iff.mpr ⟨?_, ?_, ?_, hel, herb, ?_⟩, ?_, ?_, her', ?_⟩
    · rw [hget, if_neg (Ne.symm hne), if_pos rfl]
      rfl
    · rw [hget, if_pos rfl]
    · refine hl.frame (fun x hx => ?_)
      rw [hget, if_neg (ne_of_mem_of_not_mem hx hel),
        if_neg (fun h => (hd x hx).2.1 h)]
    · refine hb.frame (fun x hx => ?_)
      rw [hget, if_neg (ne_of_mem_of_not_mem hx herb), if_neg (ne_of_mem_of_not_mem hx heb)]
    · exact fun x hx => (hd x hx).1
    · refine hr'.frame (fun x hx => ?_)
      rw [hget, if_neg (ne_of_mem_of_not_mem hx herr), if_neg (ne_of_mem_of_not_mem hx her')]
    · simp only [addrs_node, List.mem_append, List.mem_cons, not_or]
      exact ⟨fun h => (hd _ h).2.1 rfl, Ne.symm hne, heb⟩
    · intro x hx
      simp only [addrs_node, List.mem_append, List.mem_cons] at hx
      rcases hx with hx | rfl | hx
      · exact (hd x hx).2.2
      · exact herr
      · exact hbr x hx
  · simp only [addrs_node, List.mem_append, List.mem_cons, not_or] at hx
    rw [hget, if_neg hx.2.1, if_neg hx.2.2.2.1]
  · exact Or.inl (by rwa [addrs_eq_of_toList_eq (toList_rotateLeft _)] at hx)

/-! ## Work on one child -/

namespace Reaches

variable {α : Type} {m : RbM K D α} {v : α} {c : Color} {l l' r r' : Tree K (ℕ × D)} {k : K}
  {e : ℕ × D}

/-- **What keeps the root of the left subtree in place** is work on the
tree. -/
theorem onLeft (h : Owned s (node c l k e r)) (hm : Reaches m s (addrs l) v l')
    (hlink : link l' = link l) :
    Reaches m s (addrs (node c l k e r)) v (node c l' k e r) := by
  obtain ⟨he, hl, hr, hel, her, hd⟩ := owned_node_iff.mp h
  obtain ⟨s', hrun, ho, hfr, hsub⟩ := hm
  have helt := Store.lt_of_get he
  refine ⟨s', hrun, owned_node_iff.mpr ⟨?_, ho, ?_, ?_, her, ?_⟩,
    ⟨hfr.length, hfr.out, fun a ha hafp => ?_⟩, fun a ha => ?_⟩
  · rw [hfr.get _ helt hel, he, hlink]
  · refine hr.frame (fun a ha => ?_)
    rw [hfr.get a (hr.stored.lt_length a ha) (fun hal => hd a hal ha)]
  · exact fun hx => (hsub _ hx).elim hel (not_le.mpr helt)
  · exact fun a ha har => (hsub a ha).elim (fun hal => hd a hal har)
      (fun hle => absurd (hr.stored.lt_length a har) (not_lt.mpr hle))
  · rw [addrs_node, List.mem_append, not_or] at hafp
    exact hfr.get a ha hafp.1
  · rw [addrs_node, List.mem_append] at ha ⊢
    rcases ha with ha | ha
    · exact (hsub a ha).imp_left Or.inl
    · exact Or.inl (Or.inr ha)

/-- The same on the right. -/
theorem onRight (h : Owned s (node c l k e r)) (hm : Reaches m s (addrs r) v r')
    (hlink : link r' = link r) :
    Reaches m s (addrs (node c l k e r)) v (node c l k e r') := by
  obtain ⟨he, hl, hr, hel, her, hd⟩ := owned_node_iff.mp h
  obtain ⟨s', hrun, ho, hfr, hsub⟩ := hm
  have helt := Store.lt_of_get he
  refine ⟨s', hrun, owned_node_iff.mpr ⟨?_, ?_, ho, hel, ?_, ?_⟩,
    ⟨hfr.length, hfr.out, fun a ha hafp => ?_⟩, fun a ha => ?_⟩
  · rw [hfr.get _ helt her, he, hlink]
  · refine hl.frame (fun a ha => ?_)
    rw [hfr.get a (hl.stored.lt_length a ha) (fun har => hd a ha har)]
  · exact fun hx => (hsub _ hx).elim her (not_le.mpr helt)
  · exact fun a ha har => (hsub a har).elim (hd a ha)
      (fun hle => absurd (hl.stored.lt_length a ha) (not_lt.mpr hle))
  · rw [addrs_node, List.mem_append, List.mem_cons, not_or, not_or] at hafp
    exact hfr.get a ha hafp.2.2
  · rw [addrs_node, List.mem_append, List.mem_cons] at ha ⊢
    rcases ha with ha | ha | ha
    · exact Or.inl (Or.inl ha)
    · exact Or.inl (Or.inr (Or.inl ha))
    · exact (hsub a ha).imp_left (fun h => Or.inr (Or.inr h))

end Reaches

@[simp] theorem link_setColor (c : Color) (t : Tree K (ℕ × D)) :
    link (t.setColor c) = link t := by
  cases t <;> rfl

@[simp] theorem link_flipRoot (t : Tree K (ℕ × D)) : link t.flipRoot = link t := by
  cases t <;> rfl

/-! ## Flips -/

theorem Reaches.flipColors {t : Tree K (ℕ × D)} (h : Owned s t) :
    Reaches (rbFlipColors (link t)) s (addrs t) () t.flipColors := by
  cases t with
  | nil => exact Reaches.pure h
  | node c l k e r =>
    refine Reaches.bind (Reaches.setColor .red h) (fun s₁ h₁ => ?_)
    refine Reaches.of_read (rbLeft_run h₁.stored :) ?_
    refine Reaches.bind (Reaches.onLeft h₁ (Reaches.setColor .black (owned_node_iff.mp h₁).2.1)
      (link_setColor _ _)) (fun s₂ h₂ => ?_)
    refine Reaches.of_read (rbRight_run h₂.stored :) ?_
    exact Reaches.onRight h₂ (Reaches.setColor .black (owned_node_iff.mp h₂).2.2.1)
      (link_setColor _ _)

theorem Reaches.toggleColor {t : Tree K (ℕ × D)} (h : Owned s t) :
    Reaches (toggleColor (link t)) s (addrs t) () t.flipRoot := by
  refine Reaches.of_read (rbIsRed_run h.stored) ?_
  have ht : t.flipRoot = t.setColor (if t.isRed then .black else .red) := by
    rcases t with _ | ⟨_ | _, l, k, e, r⟩ <;> rfl
  rw [ht]
  exact Reaches.setColor _ h

/-- A conditional step before the rest, in the form the do-block takes. -/
theorem Reaches.bind_if {β : Type} {m : RbM K D Unit} {f : Unit → RbM K D β} {fp : List ℕ} {v : β}
    {t : Tree K (ℕ × D)} (b : Bool) (h : Reaches ((if b then m else Pure.pure ()) >>= f) s fp v t) :
    Reaches (if b then m >>= f else f ()) s fp v t := by
  cases b with
  | true => exact h
  | false => exact h

/-- A choice between two steps before the rest, in the same form. -/
theorem Reaches.bind_ite {α β : Type} {m₁ m₂ : RbM K D α} {f : α → RbM K D β} {fp : List ℕ}
    {v : β} {t : Tree K (ℕ × D)} (b : Bool)
    (h : Reaches ((if b then m₁ else m₂) >>= f) s fp v t) :
    Reaches (if b then m₁ >>= f else m₂ >>= f) s fp v t := by
  cases b with
  | true => exact h
  | false => exact h

/-- The toggle of a child, which is skipped when there is none. -/
theorem Reaches.toggleColorIf {t : Tree K (ℕ × D)} (h : Owned s t) :
    Reaches (if !rbNull (link t) then RbTree.toggleColor (link t) else Pure.pure ())
      s (addrs t) () t.flipRoot := by
  cases t with
  | nil => exact Reaches.pure h
  | node c l k e r => exact Reaches.toggleColor h

theorem Reaches.flipColorsDelete {t : Tree K (ℕ × D)} (h : Owned s t) :
    Reaches (rbFlipColorsDelete (link t)) s (addrs t) () t.flipColorsDelete := by
  cases t with
  | nil => exact Reaches.pure h
  | node c l k e r =>
    refine Reaches.bind (Reaches.toggleColor h) (fun s₁ h₁ => ?_)
    refine Reaches.of_read (rbLeft_run h₁.stored :) ?_
    refine Reaches.bind_if (!rbNull (link l)) (Reaches.bind
      (Reaches.onLeft h₁ (Reaches.toggleColorIf (owned_node_iff.mp h₁).2.1) (link_flipRoot _))
      (fun s₂ h₂ => ?_))
    refine Reaches.of_read (rbRight_run h₂.stored :) ?_
    exact Reaches.onRight h₂ (Reaches.toggleColorIf (owned_node_iff.mp h₂).2.2.1)
      (link_flipRoot _)

/-! ## The repair of a node -/

theorem Reaches.leanLeft {t : Tree K (ℕ × D)} (h : Owned s t) :
    Reaches (if t.right.isRed && !t.left.isRed then rbRotateLeft (link t) else Pure.pure (link t))
      s (addrs t) (link t.leanLeft) t.leanLeft := by
  unfold Tree.leanLeft
  split
  · exact Reaches.rotateLeft h
  · exact Reaches.pure h

theorem Reaches.splitReds {t : Tree K (ℕ × D)} (h : Owned s t) :
    Reaches (if t.left.isRed && (!t.left.isNil && t.left.left.isRed) then rbRotateRight (link t)
      else Pure.pure (link t)) s (addrs t) (link t.splitReds) t.splitReds := by
  have htest : (t.left.isRed && (!t.left.isNil && t.left.left.isRed)) =
      (t.left.isRed && t.left.left.isRed) := by
    cases t.left <;> simp [isNil]
  rw [htest]
  unfold Tree.splitReds
  split
  · exact Reaches.rotateRight h
  · exact Reaches.pure h

@[simp] theorem link_flipColors (t : Tree K (ℕ × D)) : link t.flipColors = link t := by
  cases t <;> rfl

@[simp] theorem link_flipColorsDelete (t : Tree K (ℕ × D)) :
    link t.flipColorsDelete = link t := by
  cases t <;> rfl

theorem Reaches.liftReds {t : Tree K (ℕ × D)} (h : Owned s t) :
    Reaches (do
        if t.left.isRed && t.right.isRed then rbFlipColors (link t)
        return link t) s (addrs t) (link t.liftReds) t.liftReds := by
  unfold Tree.liftReds
  split
  · rw [link_flipColors]
    exact Reaches.bind (Reaches.flipColors h) (fun s' h' => Reaches.pure h')
  · exact Reaches.pure h

theorem Reaches.fixUp {t : Tree K (ℕ × D)} (h : Owned s t) :
    Reaches (rbFixUp (link t)) s (addrs t) (link t.fixUp) t.fixUp := by
  rw [rbFixUp, rbNull_link]
  cases hn : t.isNil with
  | true =>
    cases t with
    | nil => exact Reaches.pure h
    | node c l k e r => exact absurd hn (by simp [isNil])
  | false =>
    refine Reaches.of_read (andM_run (rightIsRed_run h.stored) (leftIsBlack_run h.stored)) ?_
    refine Reaches.bind_ite _ (Reaches.bind (Reaches.leanLeft h) (fun s₁ h₁ => ?_))
    refine Reaches.of_read (rbLeft_run h₁.stored) ?_
    refine Reaches.of_read (andM_run (rbIsRed_run h₁.stored.left)
      (andM_run (by rw [rbNull_link]; rfl) (leftIsRed_run h₁.stored.left))) ?_
    refine Reaches.bind_ite _ (Reaches.bind (Reaches.splitReds h₁) (fun s₂ h₂ => ?_))
    refine Reaches.of_read (andM_run (leftIsRed_run h₂.stored) (rightIsRed_run h₂.stored)) ?_
    exact Reaches.liftReds h₂

/-! ## Bringing a red link along -/

theorem isNil_and_isRed_left (t : Tree K D) : (!t.isNil && t.left.isRed) = t.left.isRed := by
  cases t <;> simp [isNil]

theorem Reaches.moveRedLeft {t : Tree K (ℕ × D)} (h : Owned s t) :
    Reaches (rbMoveRedLeft (link t)) s (addrs t) (link t.moveRedLeft) t.moveRedLeft := by
  cases t with
  | nil => exact Reaches.pure h
  | node c₀ l₀ k e r₀ =>
    refine Reaches.bind (Reaches.flipColorsDelete h)
      (fun s₁ (h₁ : Owned s₁ (node c₀.flip l₀.flipRoot k e r₀.flipRoot)) => ?_)
    refine Reaches.of_read (rbRight_run h₁.stored :) ?_
    refine Reaches.of_read (andM_run (by rw [rbNull_link]; rfl)
      (leftIsRed_run h₁.stored.right)) ?_
    rw [right_node, isNil_and_isRed_left, Tree.moveRedLeft, Tree.flipColorsDelete]
    dsimp only
    split
    · refine Reaches.assoc (Reaches.bind
        (Reaches.setRight h₁ (Reaches.rotateRight (owned_node_iff.mp h₁).2.2.1))
        (fun s₂ h₂ => ?_))
      refine Reaches.bind (Reaches.rotateLeft h₂) (fun s₃ h₃ => ?_)
      rw [link_flipColorsDelete]
      exact Reaches.bind (Reaches.flipColorsDelete h₃) (fun s₄ h₄ => Reaches.pure h₄)
    · exact Reaches.pure h₁

theorem Reaches.moveRedRight {t : Tree K (ℕ × D)} (h : Owned s t) :
    Reaches (rbMoveRedRight (link t)) s (addrs t) (link t.moveRedRight) t.moveRedRight := by
  cases t with
  | nil => exact Reaches.pure h
  | node c₀ l₀ k e r₀ =>
    refine Reaches.bind (Reaches.flipColorsDelete h)
      (fun s₁ (h₁ : Owned s₁ (node c₀.flip l₀.flipRoot k e r₀.flipRoot)) => ?_)
    refine Reaches.of_read (rbLeft_run h₁.stored :) ?_
    refine Reaches.of_read (andM_run (by rw [rbNull_link]; rfl)
      (leftIsRed_run h₁.stored.left)) ?_
    rw [left_node, isNil_and_isRed_left, Tree.moveRedRight, Tree.flipColorsDelete,
      left_node]
    split
    · refine Reaches.bind (Reaches.rotateRight h₁) (fun s₂ h₂ => ?_)
      rw [link_flipColorsDelete]
      exact Reaches.bind (Reaches.flipColorsDelete h₂) (fun s₃ h₃ => Reaches.pure h₃)
    · exact Reaches.pure h₁

theorem Reaches.towardsLeft {t : Tree K (ℕ × D)} (h : Owned s t) :
    Reaches (towardsLeft (link t)) s (addrs t) (link t.prepareLeft) t.prepareLeft := by
  refine Reaches.of_read (rbLeft_run h.stored) ?_
  refine Reaches.of_read (andM_run (rbIsBlack_run h.stored.left)
    (andM_run (by rw [rbNull_link]; rfl) (leftIsBlack_run h.stored.left))) ?_
  have htest : (!t.left.isRed && (!t.left.isNil && !t.left.left.isRed)) =
      (!t.left.isNil && !t.left.isRed && !t.left.left.isRed) := by
    cases t.left.isRed <;> cases t.left.isNil <;> rfl
  rw [htest]
  unfold Tree.prepareLeft
  split
  · exact Reaches.moveRedLeft h
  · exact Reaches.pure h

theorem Reaches.towardsRight {t : Tree K (ℕ × D)} (h : Owned s t) :
    Reaches (towardsRight (link t)) s (addrs t) (link t.prepareRight) t.prepareRight := by
  refine Reaches.of_read (rbRight_run h.stored) ?_
  refine Reaches.of_read (andM_run (rbIsBlack_run h.stored.right)
    (andM_run (by rw [rbNull_link]; rfl) (leftIsBlack_run h.stored.right))) ?_
  have htest : (!t.right.isRed && (!t.right.isNil && !t.right.left.isRed)) =
      (!t.right.isNil && !t.right.isRed && !t.right.left.isRed) := by
    cases t.right.isRed <;> cases t.right.isNil <;> rfl
  rw [htest]
  unfold Tree.prepareRight
  split
  · exact Reaches.moveRedRight h
  · exact Reaches.pure h

theorem Reaches.paintRoot {t : Tree K (ℕ × D)} (h : Owned s t) :
    Reaches (paintRoot (link t)) s (addrs t) () t.paintRoot := by
  refine Reaches.of_read (andM_run (leftIsBlack_run h.stored) (rightIsBlack_run h.stored)) ?_
  unfold Tree.paintRoot
  split
  · exact Reaches.setColor .red h
  · exact Reaches.pure h

/-- The root is black when the work is done. -/
theorem Reaches.blacken {t : Tree K (ℕ × D)} (h : Owned s t) :
    Reaches (do
        if !rbNull (link t) then rbSetColor (link t) .black
        return link t) s (addrs t) (link (t.setColor .black)) (t.setColor .black) := by
  rw [link_setColor]
  cases t with
  | nil => exact Reaches.pure h
  | node c l k e r =>
    exact Reaches.bind (Reaches.setColor .black h) (fun s₁ h₁ => Reaches.pure h₁)

end RbTree
