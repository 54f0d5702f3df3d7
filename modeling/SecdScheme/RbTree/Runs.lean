import SecdScheme.RbTree.Descent
import SecdScheme.Lib.OrderedMap
import Mathlib.Order.Compare

/-!
# Runs of updates

A root that has only been changed by the library's updates holds a
left-leaning red-black tree for a finite map. `TreeAt` is that invariant: the
tree is stored in nodes of its own, it is balanced, and its entries represent
the map. Each update keeps it, and so does every run of updates from
`RB-NIL`.
-/

namespace RbTree

open Llrb Llrb.Tree SortedAssoc OrderedMap

variable {K D : Type} {s : Store K D} {root : Link} {tests : KeyTests K}
  {ord : K → K → Ordering} {Dom : K → Prop} {t : Tree K (ℕ × D)} {m m' : K → Option D}

/-- **A root holds a map**: it is the link to a balanced tree, stored in
nodes of its own, whose entries represent the map. -/
structure TreeAt (s : Store K D) (root : Link) (ord : K → K → Ordering) (Dom : K → Prop)
    (t : Tree K (ℕ × D)) (m : K → Option D) : Prop where
  link_eq : root = link t
  owned : Owned s t
  balanced : ∃ n, Balanced (erase t) .black n
  represents : Represents ord Dom (erase t).toList m

/-- `RB-NIL` holds the empty map. -/
theorem treeAt_nil (s : Store K D) : TreeAt s none ord Dom nil (fun _ => none) :=
  ⟨rfl, owned_nil s, ⟨0, .nil⟩, .empty⟩

theorem keysIn_erase : KeysIn Dom (erase t).toList ↔ KeysIn Dom t.toList := by
  rw [erase, toList_mapData]
  constructor
  · exact fun h e he => h (e.1, e.2.2) (List.mem_map_of_mem he)
  · intro h e he
    obtain ⟨x, hx, rfl⟩ := List.mem_map.mp he
    exact h x hx

/-- **What an update touches**: the nodes of the tree and new ones, and the
tree is made of these. -/
structure Evolves (s : Store K D) (t : Tree K (ℕ × D)) (s' : Store K D)
    (t' : Tree K (ℕ × D)) : Prop where
  frame : Frame (addrs t) s s'
  within : ∀ a ∈ addrs t', a ∈ addrs t ∨ s.nodes.length ≤ a

theorem Evolves.refl (s : Store K D) (t : Tree K (ℕ × D)) : Evolves s t s t :=
  ⟨.refl _ s, fun _ => .inl⟩

namespace TreeAt

theorem keysIn (h : TreeAt s root ord Dom t m) : KeysIn Dom t.toList :=
  keysIn_erase.mp h.represents.keys

/-- **A procedure that refines an update of the tree** updates the map, and
touches no nodes but those of the tree. -/
theorem update {op : RbM K D Link} {u : Tree K D} (hr : Refines op s t u)
    (hb : ∃ n, Balanced u .black n) (hm : Represents ord Dom u.toList m') :
    ∃ s' t', op s = (.ok (link t'), s') ∧ TreeAt s' (link t') ord Dom t' m' ∧
      Evolves s t s' t' := by
  obtain ⟨t', ⟨s', hrun, ho, hfr, hsub⟩, rfl⟩ := hr
  exact ⟨s', t', hrun, ⟨rfl, ho, hb, hm⟩, hfr, hsub⟩

section Updates

variable [DecidableEq K]

theorem insert [Zero K] (ho : KeyOrder ord Dom) (ha : tests.Agrees ord Dom)
    (h : TreeAt s root ord Dom t m) {k : K} (hk : Dom k) (d : D) :
    ∃ s' t', insertWith tests root k d s = (.ok (link t'), s') ∧
      TreeAt s' (link t') ord Dom t' (OrderedMap.insert m k d) ∧ Evolves s t s' t' := by
  obtain ⟨n, hb⟩ := h.balanced
  rw [h.link_eq]
  refine update (Refines.insert ha hk d h.owned h.keysIn) (hb.insert k d) ?_
  rw [toList_insert ho d hk h.represents.sorted h.represents.keys]
  exact h.represents.insertSorted ho d hk

theorem delete [Zero K] [HasFalse D] (ho : KeyOrder ord Dom) (ha : tests.Agrees ord Dom)
    (h : TreeAt s root ord Dom t m) {k : K} (hk : Dom k) :
    ∃ s' t', deleteWith tests root k s = (.ok (link t'), s') ∧
      TreeAt s' (link t') ord Dom t' (OrderedMap.erase m k) ∧ Evolves s t s' t' := by
  obtain ⟨n, hb⟩ := h.balanced
  obtain ⟨hb', htl⟩ := hb.delete ho hk h.represents.sorted h.represents.keys
  rw [h.link_eq]
  refine update (Refines.delete ha hk h.owned h.keysIn) hb' ?_
  rw [htl]
  exact h.represents.eraseKey ho hk

end Updates

theorem deleteMin (ho : KeyOrder ord Dom) (h : TreeAt s root ord Dom t m) :
    ∃ s' t', rbDeleteMin root s = (.ok (link t'), s') ∧
      TreeAt s' (link t') ord Dom t' (removeLeast ord m) ∧ Evolves s t s' t' := by
  obtain ⟨n, hb⟩ := h.balanced
  rw [h.link_eq]
  refine update (Refines.deleteMin h.owned) hb.deleteMin.1 ?_
  rw [hb.deleteMin.2]
  exact h.represents.tail ho

/-- **A search answers what the map holds.** -/
theorem search [Zero K] [HasFalse D] (ho : KeyOrder ord Dom) (ha : tests.Agrees ord Dom)
    (h : TreeAt s root ord Dom t m) {k : K} (hk : Dom k) :
    (do searchWith tests (← depthBound) root k : RbM K D D) s =
      (.ok ((m k).getD HasFalse.ff), s) := by
  rw [Cmd.bind_run_ok (depthBound_run s), h.link_eq,
    searchWith_run ha hk h.owned.stored (Nat.lt_succ_iff.mpr h.owned.size_le) h.keysIn,
    find_eq_lookup ho hk h.represents.sorted h.represents.keys, h.represents.lookup_eq ho hk]

theorem contains [Zero K] (ho : KeyOrder ord Dom) (ha : tests.Agrees ord Dom)
    (h : TreeAt s root ord Dom t m) {k : K} (hk : Dom k) :
    (do containsWith tests (← depthBound) root k : RbM K D Bool) s = (.ok (m k).isSome, s) := by
  rw [Cmd.bind_run_ok (depthBound_run s), h.link_eq,
    containsWith_run ha hk h.owned.stored (Nat.lt_succ_iff.mpr h.owned.size_le) h.keysIn,
    find_eq_lookup ho hk h.represents.sorted h.represents.keys, h.represents.lookup_eq ho hk]

/-- What is changed outside the tree does not concern it. -/
theorem frame (h : TreeAt s root ord Dom t m) {s' : Store K D}
    (hs : ∀ a ∈ addrs t, s'.get a = s.get a) : TreeAt s' root ord Dom t m :=
  ⟨h.link_eq, h.owned.frame hs, h.balanced, h.represents⟩

end TreeAt

/-! ## Numeric keys -/

/-- The numeric tests decide an order whose `lt` and `gt` are those of
numbers. -/
theorem numericTests_agrees [NumericKey K]
    (h : ∀ {a b}, Dom a → Dom b → NumericKey.isNumber a = true ∧ NumericKey.isNumber b = true ∧
      (NumericKey.lt a b = true ↔ ord a b = .lt) ∧ (NumericKey.lt b a = true ↔ ord a b = .gt)) :
    (numericTests : KeyTests K).Agrees ord Dom := by
  have hprim : ∀ (who : String) (op : K → K → Bool) {a b : K}, NumericKey.isNumber a = true →
      NumericKey.isNumber b = true → numPrim who op a b = .ok (op a b) :=
    fun who op a b ha hb => by simp [numPrim, ha, hb]
  have hlt : ∀ {a b}, Dom a → Dom b → numLt a b = .ok (decide (ord a b = .lt)) :=
    fun {a b} ha hb => by
      obtain ⟨hna, hnb, hl, -⟩ := h ha hb
      rw [numLt, hprim _ _ hna hnb, Bool.eq_iff_iff.mpr (hl.trans decide_eq_true_iff.symm)]
  have hgt : ∀ {a b}, Dom a → Dom b → numGt a b = .ok (decide (ord a b = .gt)) :=
    fun {a b} ha hb => by
      obtain ⟨hna, hnb, -, hg⟩ := h ha hb
      rw [numGt, hprim _ _ hna hnb, Bool.eq_iff_iff.mpr (hg.trans decide_eq_true_iff.symm)]
  have heq : ∀ {a b}, Dom a → Dom b → numEq a b = .ok (decide (ord a b = .eq)) :=
    fun {a b} ha hb => by
      obtain ⟨hna, hnb, hl, hg⟩ := h ha hb
      have hiff : NumericKey.eq a b = true ↔ decide (ord a b = .eq) = true := by
        rw [NumericKey.eq_iff a b hna hnb, ← Bool.not_eq_true, ← Bool.not_eq_true, hl, hg,
          decide_eq_true_iff]
        cases ord a b <;> simp
      rw [numEq, hprim _ _ hna hnb, Bool.eq_iff_iff.mpr hiff]
  refine ⟨fun {a b} ha hb => ?_, fun {a b} ha hb => ?_, hlt, heq⟩
  · simp only [numericTests, hlt ha hb, hgt ha hb]
    cases ord a b <;> rfl
  · simp only [numericTests, hlt ha hb, heq ha hb]
    cases ord a b <;> rfl

/-- The integers with their usual order. -/
theorem keyOrder_int : KeyOrder (compare : ℤ → ℤ → Ordering) (fun _ => True) where
  eq_iff _ _ := compare_eq_iff_eq
  gt_iff _ _ := by rw [compare_gt_iff_gt, compare_lt_iff_lt]
  trans _ _ _ hab hbc := by
    rw [compare_lt_iff_lt] at hab hbc ⊢
    exact hab.trans hbc

theorem numericTests_agrees_int :
    (numericTests : KeyTests ℤ).Agrees compare (fun _ => True) :=
  numericTests_agrees (fun {a b} _ _ => ⟨rfl, rfl, by
    rw [compare_lt_iff_lt]; exact decide_eq_true_iff, by
    rw [compare_gt_iff_gt]; exact decide_eq_true_iff⟩)

/-! ## Runs -/

/-- An update of a tree. -/
inductive Update (K D : Type) where
  | insert (key : K) (data : D)
  | delete (key : K)
  | deleteMin
  deriving DecidableEq, Repr

section Runs

variable [HasFalse D]

/-- The procedure of an update, on a root. -/
def Update.exec : Update ℤ D → Link → RbM ℤ D Link
  | .insert key data, root => rbInsert root key data
  | .delete key, root => rbDelete root key
  | .deleteMin, root => rbDeleteMin root

/-- One update after another, each on the root the last one returned. -/
def runUpdates : List (Update ℤ D) → Link → RbM ℤ D Link
  | [], root => pure root
  | u :: us, root => do runUpdates us (← u.exec root)

omit [HasFalse D] in
/-- What an update does to a finite map. -/
noncomputable def Update.onMap : Update ℤ D → (ℤ → Option D) → ℤ → Option D
  | .insert key data, m => OrderedMap.insert m key data
  | .delete key, m => OrderedMap.erase m key
  | .deleteMin, m => removeLeast compare m

omit [HasFalse D] in
/-- The finite map a sequence of updates makes from the empty one. -/
noncomputable def mapAfter (us : List (Update ℤ D)) : ℤ → Option D :=
  us.foldl (fun m u => u.onMap m) (fun _ => none)

/-- **Each update keeps the invariant.** -/
theorem TreeAt.exec {s : Store ℤ D} {root : Link} {t : Tree ℤ (ℕ × D)} {m : ℤ → Option D}
    (h : TreeAt s root compare (fun _ => True) t m) (u : Update ℤ D) :
    ∃ s' t', u.exec root s = (.ok (link t'), s') ∧
      TreeAt s' (link t') compare (fun _ => True) t' (u.onMap m) := by
  cases u with
  | insert k d =>
    obtain ⟨s', t', hrun, h', -⟩ := h.insert keyOrder_int numericTests_agrees_int trivial d
    exact ⟨s', t', (congrFun (rbInsert_eq _ _ _) s).trans hrun, h'⟩
  | delete k =>
    obtain ⟨s', t', hrun, h', -⟩ := h.delete keyOrder_int numericTests_agrees_int trivial
    exact ⟨s', t', (congrFun (rbDelete_eq _ _) s).trans hrun, h'⟩
  | deleteMin =>
    obtain ⟨s', t', hrun, h', -⟩ := h.deleteMin keyOrder_int
    exact ⟨s', t', hrun, h'⟩

/-- **And so does a run of updates.** -/
theorem TreeAt.runUpdates {s : Store ℤ D} {root : Link} {t : Tree ℤ (ℕ × D)}
    {m : ℤ → Option D} (h : TreeAt s root compare (fun _ => True) t m)
    (us : List (Update ℤ D)) :
    ∃ s' t', runUpdates us root s = (.ok (link t'), s') ∧
      TreeAt s' (link t') compare (fun _ => True) t' (us.foldl (fun m u => u.onMap m) m) := by
  induction us generalizing s root t m with
  | nil => exact ⟨s, t, by rw [h.link_eq]; rfl, h.link_eq ▸ h⟩
  | cons u us ih =>
    obtain ⟨s₁, t₁, hrun₁, h₁⟩ := h.exec u
    obtain ⟨s₂, t₂, hrun₂, h₂⟩ := ih h₁
    exact ⟨s₂, t₂, by rw [RbTree.runUpdates, Cmd.bind_run_ok hrun₁, hrun₂], h₂⟩

/-- **Left-leaning red-black trees over whole runs.** After any sequence of
insertions, deletions and deletions of the least key from `RB-NIL`, on any
heap, the root is the link to a tree stored in the heap that is a
left-leaning red-black tree with strictly increasing keys, whose pairs are
those of the finite map updated in the same way, and on which search and the
test of presence answer as the map does. A prefix of a run is a run, so this
holds of every tree on the way. -/
theorem runUpdates_redBlack_of_map (us : List (Update ℤ D)) (s : Store ℤ D) :
    ∃ s' t, runUpdates us none s = (.ok (link t), s') ∧ Owned s' t ∧
      RedBlack (erase t) ∧ StrictlySorted compare (erase t).toList ∧
      (∀ k d, (k, d) ∈ (erase t).toList ↔ mapAfter us k = some d) ∧
      (∀ k, rbSearch (link t) k s' = (.ok ((mapAfter us k).getD HasFalse.ff), s')) ∧
      (∀ k, rbContains (link t) k s' = (.ok (mapAfter us k).isSome, s')) := by
  obtain ⟨s', t, hrun, h⟩ := (treeAt_nil s).runUpdates us
  obtain ⟨n, hb⟩ := h.balanced
  exact ⟨s', t, hrun, h.owned, hb.redBlack, h.represents.sorted, h.represents.mem_iff,
    fun k => (congrFun (rbSearch_eq _ k) s').trans
      (h.search keyOrder_int numericTests_agrees_int trivial),
    fun k => (congrFun (rbContains_eq _ k) s').trans
      (h.contains keyOrder_int numericTests_agrees_int trivial)⟩

end Runs

end RbTree
