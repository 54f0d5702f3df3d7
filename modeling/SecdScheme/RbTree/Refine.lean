import SecdScheme.RbTree.Code
import Mathlib.Data.List.Nodup
import Mathlib.Data.Fintype.Card

/-!
# The node procedures refine the functional tree

A tree in the heap is described by a functional tree whose data carry the
address of their node, `Tree K (ℕ × D)`. The link of a subtree is then its
root's address, `Stored` says that every node of the tree is in the heap with
the links its subtrees have, and the addresses of a tree are read off its
entries – so a rotation, which does not change the entries, does not change
the footprint either.

`Reaches m s fp v t` is the specification of a procedure: started in `s` it
returns `v`, leaves the tree `t` stored with pairwise distinct nodes, and
touches no node that existed before outside the footprint `fp`. Procedures
are composed by `Reaches.bind`, and an update of a child by
`Reaches.setLeft` and `Reaches.setRight`.
-/

namespace RbTree

open Llrb Llrb.Tree

variable {K D : Type}

/-! ## Stores -/

/-- A node that was written. -/
theorem Store.get_set (s : Store K D) (a b : ℕ) (n : Node K D) :
    (s.set a n).get b = if b = a then (s.get a).map (fun _ => n) else s.get b := by
  by_cases h : b = a
  · subst h
    by_cases hb : b < s.nodes.length <;> simp [Store.get, Store.set, hb]
  · simp [Store.get, Store.set, List.getElem?_set_ne (Ne.symm h), h]

@[simp] theorem Store.length_set (s : Store K D) (a : ℕ) (n : Node K D) :
    (s.set a n).nodes.length = s.nodes.length := by
  simp [Store.set]

@[simp] theorem Store.out_set (s : Store K D) (a : ℕ) (n : Node K D) :
    (s.set a n).out = s.out := rfl

/-- A node that can be read is there. -/
theorem Store.lt_of_get {s : Store K D} {a : ℕ} {n : Node K D} (h : s.get a = some n) :
    a < s.nodes.length :=
  (List.getElem?_eq_some_iff.mp h).1

/-! ## Trees in the heap -/

/-- The link to a tree: the address of its root. -/
def link : Tree K (ℕ × D) → Link
  | .nil => none
  | .node _ _ _ e _ => some e.1

/-- The addresses of the nodes of a tree, in order. -/
def addrs (t : Tree K (ℕ × D)) : List ℕ := t.toList.map (fun e => e.2.1)

/-- The tree without its addresses. -/
def erase (t : Tree K (ℕ × D)) : Tree K D := t.mapData Prod.snd

/-- **Every node of the tree is in the heap**, with the links of its
subtrees. -/
def Stored (s : Store K D) : Tree K (ℕ × D) → Prop
  | .nil => True
  | .node c l k e r =>
    s.get e.1 = some ⟨link l, link r, c, k, e.2⟩ ∧ Stored s l ∧ Stored s r

/-- **A tree of its own in the heap**: stored, with no node occurring
twice. -/
structure Owned (s : Store K D) (t : Tree K (ℕ × D)) : Prop where
  stored : Stored s t
  nodup : (addrs t).Nodup

@[simp] theorem link_nil : link (nil : Tree K (ℕ × D)) = none := rfl

@[simp] theorem link_node (c : Color) (l : Tree K (ℕ × D)) (k : K) (e : ℕ × D)
    (r : Tree K (ℕ × D)) : link (node c l k e r) = some e.1 := rfl

@[simp] theorem addrs_nil : addrs (nil : Tree K (ℕ × D)) = [] := rfl

/-- The addresses of the nodes, in order. -/
@[simp] theorem addrs_node (c : Color) (l : Tree K (ℕ × D)) (k : K) (e : ℕ × D)
    (r : Tree K (ℕ × D)) : addrs (node c l k e r) = addrs l ++ e.1 :: addrs r := by
  simp [addrs, toList]

/-- What keeps the entries keeps the addresses. -/
theorem addrs_eq_of_toList_eq {t t' : Tree K (ℕ × D)} (h : t'.toList = t.toList) :
    addrs t' = addrs t := by
  rw [addrs, h, addrs]

/-- The link of a tree is `RB-NIL`, where the tree is empty. -/
@[simp] theorem rbNull_link (t : Tree K (ℕ × D)) : rbNull (link t) = t.isNil := by
  cases t <;> rfl

theorem owned_nil (s : Store K D) : Owned s nil := ⟨trivial, List.nodup_nil⟩

/-- **An owned node**: it is where it is said to be, and both its subtrees are owned and
apart. -/
theorem owned_node_iff {s : Store K D} {c : Color} {l r : Tree K (ℕ × D)} {k : K} {e : ℕ × D} :
    Owned s (node c l k e r) ↔
      s.get e.1 = some ⟨link l, link r, c, k, e.2⟩ ∧ Owned s l ∧ Owned s r ∧
        e.1 ∉ addrs l ∧ e.1 ∉ addrs r ∧ (∀ a ∈ addrs l, a ∉ addrs r) := by
  constructor
  · rintro ⟨⟨h, hl, hr⟩, hn⟩
    rw [addrs_node, List.nodup_append, List.nodup_cons] at hn
    obtain ⟨hnl, ⟨her, hnr⟩, hd⟩ := hn
    exact ⟨h, ⟨hl, hnl⟩, ⟨hr, hnr⟩, fun he => hd _ he _ List.mem_cons_self rfl, her,
      fun a ha ha' => hd _ ha _ (List.mem_cons_of_mem _ ha') rfl⟩
  · rintro ⟨h, hl, hr, hel, her, hd⟩
    refine ⟨⟨h, hl.stored, hr.stored⟩, ?_⟩
    rw [addrs_node, List.nodup_append, List.nodup_cons]
    refine ⟨hl.nodup, ⟨her, hr.nodup⟩, ?_⟩
    rintro a ha b hb rfl
    rcases List.mem_cons.mp hb with rfl | hb
    · exact hel ha
    · exact hd a ha hb

/-- All its addresses are there. -/
theorem Stored.lt_length {s : Store K D} {t : Tree K (ℕ × D)} (h : Stored s t) :
    ∀ a ∈ addrs t, a < s.nodes.length := by
  induction t with
  | nil => simp
  | node c l k e r ihl ihr =>
    intro a ha
    rw [addrs_node, List.mem_append, List.mem_cons] at ha
    rcases ha with ha | rfl | ha
    · exact ihl h.2.1 a ha
    · exact Store.lt_of_get h.1
    · exact ihr h.2.2 a ha

/-- **A stored tree depends on its own nodes only.** -/
theorem Stored.frame {s s' : Store K D} {t : Tree K (ℕ × D)} (h : Stored s t)
    (hs : ∀ a ∈ addrs t, s'.get a = s.get a) : Stored s' t := by
  induction t with
  | nil => trivial
  | node c l k e r ihl ihr =>
    simp only [addrs_node, List.mem_append, List.mem_cons] at hs
    exact ⟨by rw [hs e.1 (Or.inr (Or.inl rfl))]; exact h.1,
      ihl h.2.1 (fun a ha => hs a (Or.inl ha)),
      ihr h.2.2 (fun a ha => hs a (Or.inr (Or.inr ha)))⟩

/-- Nodes elsewhere may be written. -/
theorem Owned.frame {s s' : Store K D} {t : Tree K (ℕ × D)} (h : Owned s t)
    (hs : ∀ a ∈ addrs t, s'.get a = s.get a) : Owned s' t :=
  ⟨h.stored.frame hs, h.nodup⟩

/-- A tree has no more nodes than the heap. -/
theorem Owned.size_le {s : Store K D} {t : Tree K (ℕ × D)} (h : Owned s t) :
    t.size ≤ s.nodes.length := by
  have hlen : (addrs t).length = t.size := by rw [addrs, List.length_map, length_toList]
  rw [← hlen, ← List.toFinset_card_of_nodup h.nodup, ← Finset.card_range s.nodes.length]
  refine Finset.card_le_card (fun a ha => ?_)
  rw [Finset.mem_range]
  exact h.stored.lt_length a (List.mem_toFinset.mp ha)

/-! ## Reading -/

section Reading

variable {s : Store K D} {t : Tree K (ℕ × D)}

/-- The left link is that of the left subtree. -/
theorem rbLeft_run (h : Stored s t) : rbLeft (link t) s = (.ok (link t.left), s) := by
  cases t with
  | nil => rfl
  | node c l k e r => simp [rbLeft, nodeAt, Cmd.bind_run, h.1]

theorem rbRight_run (h : Stored s t) : rbRight (link t) s = (.ok (link t.right), s) := by
  cases t with
  | nil => rfl
  | node c l k e r => simp [rbRight, nodeAt, Cmd.bind_run, h.1]

/-- The colour that is read is that of the tree. -/
theorem rbColor_run (h : Stored s t) :
    rbColor (link t) s = (.ok (if t.isRed then .red else .black), s) := by
  cases t with
  | nil => rfl
  | node c l k e r => cases c <;> simp [rbColor, nodeAt, Cmd.bind_run, h.1]

theorem rbIsRed_run (h : Stored s t) : rbIsRed (link t) s = (.ok t.isRed, s) := by
  cases t with
  | nil => rfl
  | node c l k e r =>
    rw [rbIsRed, rbNull_link, if_neg (by simp [isNil]), Cmd.bind_run_ok (rbColor_run h)]
    cases c <;> rfl

theorem rbIsBlack_run (h : Stored s t) : rbIsBlack (link t) s = (.ok (!t.isRed), s) := by
  cases t with
  | nil => rfl
  | node c l k e r =>
    rw [rbIsBlack, rbNull_link, if_neg (by simp [isNil]), Cmd.bind_run_ok (rbColor_run h)]
    cases c <;> rfl

/-- The key that is read is that of the root. -/
theorem rbKey_run [Zero K] {c : Color} {l r : Tree K (ℕ × D)} {k : K} {e : ℕ × D}
    (h : Stored s (node c l k e r)) : rbKey (link (node c l k e r)) s = (.ok k, s) := by
  simp [rbKey, nodeAt, Cmd.bind_run, h.1]

theorem rbData_run [HasFalse D] {c : Color} {l r : Tree K (ℕ × D)} {k : K} {e : ℕ × D}
    (h : Stored s (node c l k e r)) : rbData (link (node c l k e r)) s = (.ok e.2, s) := by
  simp [rbData, nodeAt, Cmd.bind_run, h.1]

/-- A subtree is stored too. -/
theorem Stored.left (h : Stored s t) : Stored s t.left := by
  cases t with
  | nil => trivial
  | node c l k e r => exact h.2.1

theorem Stored.right (h : Stored s t) : Stored s t.right := by
  cases t with
  | nil => trivial
  | node c l k e r => exact h.2.2

/-- `(and a b)` of two tests that only read. -/
theorem andM_run {a b : RbM K D Bool} {x y : Bool} (ha : a s = (.ok x, s))
    (hb : b s = (.ok y, s)) : andM a b s = (.ok (x && y), s) := by
  rw [andM, Cmd.bind_run_ok ha]
  cases x with
  | true => exact hb
  | false => rfl

/-- The colour of the left child. -/
theorem leftIsRed_run (h : Stored s t) :
    (do rbIsRed (← rbLeft (link t)) : RbM K D Bool) s = (.ok t.left.isRed, s) := by
  rw [Cmd.bind_run_ok (rbLeft_run h), rbIsRed_run h.left]

/-- The colour of the right child. -/
theorem rightIsRed_run (h : Stored s t) :
    (do rbIsRed (← rbRight (link t)) : RbM K D Bool) s = (.ok t.right.isRed, s) := by
  rw [Cmd.bind_run_ok (rbRight_run h), rbIsRed_run h.right]

theorem leftIsBlack_run (h : Stored s t) :
    (do rbIsBlack (← rbLeft (link t)) : RbM K D Bool) s = (.ok (!t.left.isRed), s) := by
  rw [Cmd.bind_run_ok (rbLeft_run h), rbIsBlack_run h.left]

theorem rightIsBlack_run (h : Stored s t) :
    (do rbIsBlack (← rbRight (link t)) : RbM K D Bool) s = (.ok (!t.right.isRed), s) := by
  rw [Cmd.bind_run_ok (rbRight_run h), rbIsBlack_run h.right]

end Reading

/-! ## The specification of a procedure -/

/-- **No node outside the footprint has changed**, and none has
disappeared. -/
structure Frame (fp : List ℕ) (s s' : Store K D) : Prop where
  length : s.nodes.length ≤ s'.nodes.length
  out : s'.out = s.out
  get : ∀ a < s.nodes.length, a ∉ fp → s'.get a = s.get a

/-- **What a procedure does**: from `s` it returns `v` and leaves `t`, built
from nodes of the footprint and new ones, with everything else as it was. -/
def Reaches {α : Type} (m : RbM K D α) (s : Store K D) (fp : List ℕ) (v : α)
    (t : Tree K (ℕ × D)) : Prop :=
  ∃ s', m s = (.ok v, s') ∧ Owned s' t ∧ Frame fp s s' ∧
    ∀ a ∈ addrs t, a ∈ fp ∨ s.nodes.length ≤ a

theorem Frame.refl (fp : List ℕ) (s : Store K D) : Frame fp s s :=
  ⟨le_rfl, rfl, fun _ _ _ => rfl⟩

/-- A set on a node of the footprint stays in the frame. -/
theorem Frame.set {fp : List ℕ} (s : Store K D) {a : ℕ} (n : Node K D) (h : a ∈ fp) :
    Frame fp s (s.set a n) := by
  refine ⟨by simp, rfl, fun b _ hb => ?_⟩
  rw [Store.get_set, if_neg]
  rintro rfl
  exact hb h

namespace Reaches

variable {α β : Type} {s : Store K D} {fp : List ℕ} {t t' : Tree K (ℕ × D)}

/-- A tree that is left as it is. -/
theorem pure {v : α} (h : Owned s t) : Reaches (Pure.pure v) s (addrs t) v t :=
  ⟨s, rfl, h, .refl _ _, fun _ ha => Or.inl ha⟩

/-- A command that only read may be followed by the rest. -/
theorem of_read {m : RbM K D α} {f : α → RbM K D β} {x : α} {v : β}
    (hm : m s = (.ok x, s)) (hf : Reaches (f x) s fp v t) : Reaches (m >>= f) s fp v t := by
  obtain ⟨s', hrun, h⟩ := hf
  exact ⟨s', by rw [Cmd.bind_run_ok hm, hrun], h⟩

/-- The rest of a run, from the state its first part reached. -/
theorem of_run {m : RbM K D α} {f : α → RbM K D β} {x : α} {v : β} {s₁ : Store K D}
    (hrun : m s = (.ok x, s₁)) (hfr : Frame fp s s₁)
    (hsub : ∀ a ∈ addrs t, a ∈ fp ∨ s.nodes.length ≤ a)
    (hf : Reaches (f x) s₁ (addrs t) v t') : Reaches (m >>= f) s fp v t' := by
  obtain ⟨s₂, hrun₂, ho₂, hfr₂, hsub₂⟩ := hf
  refine ⟨s₂, by rw [Cmd.bind_run_ok hrun, hrun₂], ho₂,
    ⟨hfr.length.trans hfr₂.length, hfr₂.out.trans hfr.out, fun a ha hafp => ?_⟩,
    fun a ha => ?_⟩
  · have hnt : a ∉ addrs t := fun hat =>
      (hsub a hat).elim hafp (fun hle => absurd ha (not_lt.mpr hle))
    rw [hfr₂.get a (ha.trans_le hfr.length) hnt, hfr.get a ha hafp]
  · rcases hsub₂ a ha with h | h
    · exact hsub a h
    · exact Or.inr (hfr.length.trans h)

/-- **One procedure after another**, the second on the tree the first one
left. -/
theorem bind {m : RbM K D α} {f : α → RbM K D β} {x : α} {v : β}
    (hm : Reaches m s fp x t) (hf : ∀ s', Owned s' t → Reaches (f x) s' (addrs t) v t') :
    Reaches (m >>= f) s fp v t' := by
  obtain ⟨s₁, hrun, ho, hfr, hsub⟩ := hm
  exact of_run hrun hfr hsub (hf s₁ ho)

/-- Two steps in front of the rest may be taken together. -/
theorem assoc {γ : Type} {m : RbM K D α} {g : α → RbM K D β} {f : β → RbM K D γ} {v : γ}
    (h : Reaches ((m >>= g) >>= f) s fp v t) :
    Reaches (m >>= fun x => g x >>= f) s fp v t := by
  rwa [← Cmd.bind_assoc_run]

/-- **A new left subtree is hung below a node.** -/
theorem setLeft {m : RbM K D Link} {c : Color} {l l' r : Tree K (ℕ × D)} {k : K} {e : ℕ × D}
    (h : Owned s (node c l k e r)) (hm : Reaches m s (addrs l) (link l') l') :
    Reaches (do rbSetLeft (link (node c l k e r)) (← m)) s (addrs (node c l k e r)) ()
      (node c l' k e r) := by
  obtain ⟨he, hl, hr, hel, her, hd⟩ := owned_node_iff.mp h
  obtain ⟨s', hrun, ho, hfr, hsub⟩ := hm
  have helt := Store.lt_of_get he
  have he' : s'.get e.1 = some ⟨link l, link r, c, k, e.2⟩ := by rw [hfr.get _ helt hel, he]
  have hel' : e.1 ∉ addrs l' := fun hx => (hsub _ hx).elim hel (not_le.mpr helt)
  have hdl' : ∀ a ∈ addrs l', a ∉ addrs r := fun a ha har =>
    (hsub a ha).elim (fun hal => hd a hal har)
      (fun hle => absurd (hr.stored.lt_length a har) (not_lt.mpr hle))
  refine ⟨s'.set e.1 ⟨link l', link r, c, k, e.2⟩, ?_, ?_, ?_, ?_⟩
  · rw [Cmd.bind_run_ok hrun]
    simp [rbSetLeft, updateNode, he']
  · refine owned_node_iff.mpr ⟨?_, ?_, ?_, hel', her, hdl'⟩
    · rw [Store.get_set, if_pos rfl, he']
      rfl
    · exact ho.frame (fun a ha => by
        rw [Store.get_set, if_neg (ne_of_mem_of_not_mem ha hel')])
    · refine hr.frame (fun a ha => ?_)
      rw [Store.get_set, if_neg (ne_of_mem_of_not_mem ha her),
        hfr.get a (hr.stored.lt_length a ha) (fun hal => hd a hal ha)]
  · refine ⟨by rw [Store.length_set]; exact hfr.length, hfr.out, fun a ha hafp => ?_⟩
    rw [addrs_node, List.mem_append, List.mem_cons, not_or, not_or] at hafp
    rw [Store.get_set, if_neg hafp.2.1, hfr.get a ha hafp.1]
  · intro a ha
    rw [addrs_node, List.mem_append] at ha ⊢
    rcases ha with ha | ha
    · exact (hsub a ha).imp_left Or.inl
    · exact Or.inl (Or.inr ha)

/-- **A new right subtree is hung below a node.** -/
theorem setRight {m : RbM K D Link} {c : Color} {l r r' : Tree K (ℕ × D)} {k : K} {e : ℕ × D}
    (h : Owned s (node c l k e r)) (hm : Reaches m s (addrs r) (link r') r') :
    Reaches (do rbSetRight (link (node c l k e r)) (← m)) s (addrs (node c l k e r)) ()
      (node c l k e r') := by
  obtain ⟨he, hl, hr, hel, her, hd⟩ := owned_node_iff.mp h
  obtain ⟨s', hrun, ho, hfr, hsub⟩ := hm
  have helt := Store.lt_of_get he
  have he' : s'.get e.1 = some ⟨link l, link r, c, k, e.2⟩ := by rw [hfr.get _ helt her, he]
  have her' : e.1 ∉ addrs r' := fun hx => (hsub _ hx).elim her (not_le.mpr helt)
  have hdr' : ∀ a ∈ addrs l, a ∉ addrs r' := fun a ha har =>
    (hsub a har).elim (hd a ha)
      (fun hle => absurd (hl.stored.lt_length a ha) (not_lt.mpr hle))
  refine ⟨s'.set e.1 ⟨link l, link r', c, k, e.2⟩, ?_, ?_, ?_, ?_⟩
  · rw [Cmd.bind_run_ok hrun]
    simp [rbSetRight, updateNode, he']
  · refine owned_node_iff.mpr ⟨?_, ?_, ?_, hel, her', hdr'⟩
    · rw [Store.get_set, if_pos rfl, he']
      rfl
    · refine hl.frame (fun a ha => ?_)
      rw [Store.get_set, if_neg (ne_of_mem_of_not_mem ha hel),
        hfr.get a (hl.stored.lt_length a ha) (fun har => hd a ha har)]
    · exact ho.frame (fun a ha => by
        rw [Store.get_set, if_neg (ne_of_mem_of_not_mem ha her')])
  · refine ⟨by rw [Store.length_set]; exact hfr.length, hfr.out, fun a ha hafp => ?_⟩
    rw [addrs_node, List.mem_append, List.mem_cons, not_or, not_or] at hafp
    rw [Store.get_set, if_neg hafp.2.1, hfr.get a ha hafp.2.2]
  · intro a ha
    rw [addrs_node, List.mem_append, List.mem_cons] at ha ⊢
    rcases ha with ha | ha | ha
    · exact Or.inl (Or.inl ha)
    · exact Or.inl (Or.inr (Or.inl ha))
    · exact (hsub a ha).imp_left (fun h => Or.inr (Or.inr h))

end Reaches

end RbTree
