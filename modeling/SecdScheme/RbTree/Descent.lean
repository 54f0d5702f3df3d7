import SecdScheme.RbTree.KeyTests
import SecdScheme.RbTree.Repair
import SecdScheme.Lib.LlrbBalance

/-!
# The descents

Search, insertion and deletion on the heap, against the functional
operations on the tree without its addresses. Insertion allocates a node and
deletion moves an entry from one node to another, so the addresses are not
those of the functional operation on the tree with addresses; `Refines` asks
for the entries only.

What a descent compares is given by an order on a domain of keys, `Agrees`:
on the keys of the domain the tests return what the order says.
-/

namespace RbTree

open Llrb Llrb.Tree SortedAssoc

variable {K D : Type} {s : Store K D}

/-- **The tests decide the order** on the keys of the domain. -/
structure KeyTests.Agrees (tests : KeyTests K) (ord : K → K → Ordering) (Dom : K → Prop) :
    Prop where
  place : ∀ {a b}, Dom a → Dom b → tests.place a b = .ok (ord a b)
  seek : ∀ {a b}, Dom a → Dom b → tests.seek a b = .ok (ord a b)
  less : ∀ {a b}, Dom a → Dom b → tests.less a b = .ok (decide (ord a b = .lt))
  equal : ∀ {a b}, Dom a → Dom b → tests.equal a b = .ok (decide (ord a b = .eq))

/-- **A procedure refines a functional result**: it returns the link of a
tree with that shape and those entries. -/
def Refines (m : RbM K D Link) (s : Store K D) (t : Tree K (ℕ × D)) (u : Tree K D) : Prop :=
  ∃ t', Reaches m s (addrs t) (link t') t' ∧ erase t' = u

@[simp] theorem erase_nil : erase (nil : Tree K (ℕ × D)) = nil := rfl

@[simp] theorem erase_node (c : Color) (l : Tree K (ℕ × D)) (k : K) (e : ℕ × D)
    (r : Tree K (ℕ × D)) : erase (node c l k e r) = node c (erase l) k e.2 (erase r) := rfl

/-- A procedure that is specified exactly, before one that refines. -/
theorem Refines.bind {α : Type} {m : RbM K D α} {f : α → RbM K D Link} {x : α}
    {t t₁ : Tree K (ℕ × D)} {u : Tree K D} (hm : Reaches m s (addrs t) x t₁)
    (hf : ∀ s', Owned s' t₁ → Refines (f x) s' t₁ u) : Refines (m >>= f) s t u := by
  obtain ⟨s₁, hrun, ho, hfr, hsub⟩ := hm
  obtain ⟨t', hr, hu⟩ := hf s₁ ho
  exact ⟨t', Reaches.of_run hrun hfr hsub hr, hu⟩

theorem Refines.bind_ite {m₁ m₂ : RbM K D Link} {f : Link → RbM K D Link}
    {t : Tree K (ℕ × D)} {u : Tree K D} (b : Bool)
    (h : Refines ((if b then m₁ else m₂) >>= f) s t u) :
    Refines (if b then m₁ >>= f else m₂ >>= f) s t u := by
  obtain ⟨t', hr, hu⟩ := h
  exact ⟨t', Reaches.bind_ite b hr, hu⟩

theorem Refines.of_read {α : Type} {m : RbM K D α} {f : α → RbM K D Link} {x : α}
    {t : Tree K (ℕ × D)} {u : Tree K D} (hm : m s = (.ok x, s)) (hf : Refines (f x) s t u) :
    Refines (m >>= f) s t u := by
  obtain ⟨t', hr, hu⟩ := hf
  exact ⟨t', Reaches.of_read hm hr, hu⟩

/-- The empty tree has no nodes to touch. -/
theorem Reaches.none (s : Store K D) (fp : List ℕ) :
    Reaches (Pure.pure Option.none : RbM K D Link) s fp Option.none nil :=
  ⟨s, rfl, owned_nil s, .refl _ _, fun _ ha => absurd ha (by simp)⟩

section Reading

variable {t : Tree K (ℕ × D)} {c : Color} {l r : Tree K (ℕ × D)} {k : K} {e : ℕ × D}
  {Dom : K → Prop}

theorem keysIn_node (h : KeysIn Dom (node c l k e r).toList) :
    KeysIn Dom l.toList ∧ Dom k ∧ KeysIn Dom r.toList :=
  ⟨h.left, h.mid, h.right⟩

end Reading

/-! ## Search -/

section Search

variable [Zero K] [HasFalse D] {tests : KeyTests K} {ord : K → K → Ordering} {Dom : K → Prop}

/-- **A search returns the data found by descent**, or false. -/
theorem searchWith_run (ha : tests.Agrees ord Dom) {k : K} (hk : Dom k) {t : Tree K (ℕ × D)}
    {fuel : ℕ} (h : Stored s t) (hf : t.size < fuel) (hd : KeysIn Dom t.toList) :
    searchWith tests fuel (link t) k s = (.ok ((find ord k (erase t)).getD HasFalse.ff), s) := by
  induction t generalizing fuel with
  | nil =>
    obtain ⟨fuel, rfl⟩ := Nat.exists_eq_succ_of_ne_zero (Nat.ne_zero_of_lt hf)
    rfl
  | node c l k' e r ihl ihr =>
    obtain ⟨fuel, rfl⟩ := Nat.exists_eq_succ_of_ne_zero (Nat.ne_zero_of_lt hf)
    obtain ⟨hdl, hk', hdr⟩ := keysIn_node hd
    rw [size] at hf
    rw [searchWith, rbNull_link, if_neg (by simp [isNil]), Cmd.bind_run_ok (rbKey_run h),
      ha.seek hk hk', erase_node, find]
    cases ord k k' with
    | lt => exact (Cmd.bind_run_ok (rbLeft_run h) _).trans (ihl h.2.1 (by omega) hdl)
    | eq => exact rbData_run h
    | gt => exact (Cmd.bind_run_ok (rbRight_run h) _).trans (ihr h.2.2 (by omega) hdr)

omit [HasFalse D] in
/-- The same for the test of presence. -/
theorem containsWith_run (ha : tests.Agrees ord Dom) {k : K} (hk : Dom k) {t : Tree K (ℕ × D)}
    {fuel : ℕ} (h : Stored s t) (hf : t.size < fuel) (hd : KeysIn Dom t.toList) :
    containsWith tests fuel (link t) k s = (.ok (find ord k (erase t)).isSome, s) := by
  induction t generalizing fuel with
  | nil =>
    obtain ⟨fuel, rfl⟩ := Nat.exists_eq_succ_of_ne_zero (Nat.ne_zero_of_lt hf)
    rfl
  | node c l k' e r ihl ihr =>
    obtain ⟨fuel, rfl⟩ := Nat.exists_eq_succ_of_ne_zero (Nat.ne_zero_of_lt hf)
    obtain ⟨hdl, hk', hdr⟩ := keysIn_node hd
    rw [size] at hf
    rw [containsWith, rbNull_link, if_neg (by simp [isNil]), Cmd.bind_run_ok (rbKey_run h),
      ha.seek hk hk', erase_node, find]
    cases ord k k' with
    | lt => exact (Cmd.bind_run_ok (rbLeft_run h) _).trans (ihl h.2.1 (by omega) hdl)
    | eq => rfl
    | gt => exact (Cmd.bind_run_ok (rbRight_run h) _).trans (ihr h.2.2 (by omega) hdr)

omit [Zero K] [HasFalse D] in
/-- The leftmost node holds the least entry. -/
theorem rbSearchMinNode_run {t : Tree K (ℕ × D)} {fuel : ℕ} (h : Stored s t)
    (hf : t.size < fuel) {k : K} {e : ℕ × D} (hm : t.minEntry = some (k, e)) :
    rbSearchMinNode fuel (link t) s = (.ok (some e.1), s) ∧
      ∃ n, s.get e.1 = some n ∧ n.key = k ∧ n.data = e.2 := by
  induction t generalizing fuel with
  | nil => exact absurd hm (by simp [minEntry])
  | node c l k' e' r ihl _ =>
    obtain ⟨fuel, rfl⟩ := Nat.exists_eq_succ_of_ne_zero (Nat.ne_zero_of_lt hf)
    rw [size] at hf
    rw [rbSearchMinNode, rbNull_link, if_neg (by simp [isNil]), Cmd.bind_run_ok (rbLeft_run h),
      left_node, rbNull_link]
    cases l with
    | nil =>
      obtain ⟨rfl, rfl⟩ := Prod.mk.inj (Option.some.inj hm)
      exact ⟨rfl, _, h.1, rfl, rfl⟩
    | node cl ll lk le lr => exact ihl h.2.1 (by omega) hm

end Search

/-! ## Insertion -/

section Insertion

variable [Zero K] {tests : KeyTests K} {ord : K → K → Ordering} {Dom : K → Prop}

omit [Zero K] in
theorem Reaches.makeRbNode (s : Store K D) (k : K) (d : D) :
    Reaches (makeRbNode k d) s [] (some s.nodes.length)
      (node .red nil k (s.nodes.length, d) nil) := by
  refine ⟨_, rfl, ⟨⟨?_, trivial, trivial⟩, by simp⟩, ⟨by simp, rfl, fun a ha _ => ?_⟩, ?_⟩
  · simp [Store.get]
  · simp [Store.get, List.getElem?_append_left ha]
  · intro a ha
    simp only [addrs_node, addrs_nil, List.nil_append, List.mem_singleton] at ha
    exact Or.inr ha.ge

/-- **Insertion refines the functional one.** -/
theorem Refines.insertImpl (ha : tests.Agrees ord Dom) {k : K} (hk : Dom k) (d : D)
    {t : Tree K (ℕ × D)} {fuel : ℕ} (h : Owned s t) (hf : t.size < fuel)
    (hd : KeysIn Dom t.toList) :
    Refines (insertImplWith tests fuel (link t) k d) s t (Tree.insertImpl ord k d (erase t)) := by
  induction t generalizing fuel with
  | nil =>
    obtain ⟨fuel, rfl⟩ := Nat.exists_eq_succ_of_ne_zero (Nat.ne_zero_of_lt hf)
    exact ⟨node .red nil k (s.nodes.length, d) nil, Reaches.makeRbNode s k d, rfl⟩
  | node c l k' e r ihl ihr =>
    obtain ⟨fuel, rfl⟩ := Nat.exists_eq_succ_of_ne_zero (Nat.ne_zero_of_lt hf)
    obtain ⟨hdl, hk', hdr⟩ := keysIn_node hd
    obtain ⟨he, hl, hr, -⟩ := owned_node_iff.mp h
    rw [size] at hf
    have hfl : l.size < fuel := by omega
    have hfr : r.size < fuel := by omega
    rw [insertImplWith, rbNull_link, if_neg (by simp [isNil]), erase_node, Tree.insertImpl]
    have htest : (Cmd.ofExcept (tests.place k k') : RbM K D Ordering) s = (.ok (ord k k'), s) := by
      rw [ha.place hk hk']
      rfl
    cases hc : ord k k' with
    | lt =>
      obtain ⟨l', hm, hl'⟩ := ihl hl hfl hdl
      refine ⟨(node c l' k' e r).fixUp, ?_, by rw [← hl']; exact (fixUp_mapData _ _).symm⟩
      refine Reaches.of_read (rbKey_run h.stored) (Reaches.of_read htest ?_)
      rw [hc]
      refine Reaches.of_read (rbLeft_run h.stored) ?_
      exact Reaches.assoc (Reaches.bind (Reaches.setLeft h hm) (fun s₁ h₁ => Reaches.fixUp h₁))
    | eq =>
      refine ⟨(node c l k' (e.1, d) r).fixUp, ?_, (fixUp_mapData _ _).symm⟩
      refine Reaches.of_read (rbKey_run h.stored) (Reaches.of_read htest ?_)
      rw [hc]
      exact Reaches.bind (Reaches.updateRoot h rfl) (fun s₁ h₁ => Reaches.fixUp h₁)
    | gt =>
      obtain ⟨r', hm, hr'⟩ := ihr hr hfr hdr
      refine ⟨(node c l k' e r').fixUp, ?_, by rw [← hr']; exact (fixUp_mapData _ _).symm⟩
      refine Reaches.of_read (rbKey_run h.stored) (Reaches.of_read htest ?_)
      rw [hc]
      refine Reaches.of_read (rbRight_run h.stored) ?_
      exact Reaches.assoc (Reaches.bind (Reaches.setRight h hm) (fun s₁ h₁ => Reaches.fixUp h₁))

end Insertion

theorem depthBound_run (s : Store K D) :
    (depthBound : RbM K D ℕ) s = (.ok (s.nodes.length + 1), s) := rfl

/-! ## Deletion of the least entry -/

/-- **The deletion of the least entry is the functional one**, addresses
included. -/
theorem Reaches.deleteMinImpl {t : Tree K (ℕ × D)} {fuel : ℕ} (h : Owned s t)
    (hf : t.size < fuel) :
    Reaches (rbDeleteMinImpl fuel (link t)) s (addrs t) (link t.deleteMinImpl)
      t.deleteMinImpl := by
  induction fuel generalizing s t with
  | zero => exact absurd hf (Nat.not_lt_zero _)
  | succ fuel ih =>
    cases t with
    | nil =>
      rw [deleteMinImpl_of_isNil rfl]
      exact Reaches.pure h
    | node c₀ l₀ k₀ e₀ r₀ =>
      refine Reaches.of_read (rbLeft_run h.stored) ?_
      rw [rbNull_link]
      cases hnil : (node c₀ l₀ k₀ e₀ r₀).left.isNil with
      | true =>
        rw [deleteMinImpl_of_isNil hnil]
        exact Reaches.none s _
      | false =>
        obtain ⟨c, l, k, e, r, hp⟩ :=
          exists_node_of_toList_eq (toList_prepareLeft (node c₀ l₀ k₀ e₀ r₀)) rfl
        have hlt : l.size < fuel :=
          (size_left_lt_of_toList_eq (by rw [← hp, toList_prepareLeft])).trans_le
            (Nat.lt_succ_iff.mp hf)
        rw [deleteMinImpl_of_prepareLeft hnil hp]
        refine Reaches.bind (Reaches.towardsLeft h) (fun s₁ h₁ => ?_)
        rw [hp] at h₁ ⊢
        refine Reaches.of_read (rbLeft_run h₁.stored) ?_
        refine Reaches.assoc (Reaches.bind
          (Reaches.setLeft h₁ (ih (owned_node_iff.mp h₁).2.1 hlt)) (fun s₂ h₂ => ?_))
        exact Reaches.fixUp h₂

/-! ## Deletion of a key -/

/-- The preparation of a descent is skipped where there is nothing to
descend into, which changes nothing. -/
theorem Reaches.towardsLeftIf {t : Tree K (ℕ × D)} (h : Owned s t) :
    Reaches (if !rbNull (link t.left) then RbTree.towardsLeft (link t) else Pure.pure (link t))
      s (addrs t) (link t.prepareLeft) t.prepareLeft := by
  rw [rbNull_link]
  cases hn : t.left.isNil with
  | true =>
    rw [Tree.prepareLeft, hn]
    exact Reaches.pure h
  | false => exact Reaches.towardsLeft h

theorem Reaches.towardsRightIf {t : Tree K (ℕ × D)} (h : Owned s t) :
    Reaches (if !rbNull (link t.right) then RbTree.towardsRight (link t) else Pure.pure (link t))
      s (addrs t) (link t.prepareRight) t.prepareRight := by
  rw [rbNull_link]
  cases hn : t.right.isNil with
  | true =>
    rw [Tree.prepareRight, hn]
    exact Reaches.pure h
  | false => exact Reaches.towardsRight h

theorem Reaches.leanRight {t : Tree K (ℕ × D)} (h : Owned s t) :
    Reaches (if t.left.isRed then rbRotateRight (link t) else Pure.pure (link t))
      s (addrs t) (link t.leanRight) t.leanRight := by
  unfold Tree.leanRight
  split
  · exact Reaches.rotateRight h
  · exact Reaches.pure h

section Deletion

variable [Zero K] [HasFalse D] {tests : KeyTests K} {ord : K → K → Ordering} {Dom : K → Prop}

/-- **A node takes over the entry of its successor**, which leaves the right
subtree. -/
theorem Reaches.replaceByMin {c : Color} {l r : Tree K (ℕ × D)} {k k₃ : K} {e e₃ : ℕ × D}
    (h : Owned s (node c l k e r)) (hmin : r.minEntry = some (k₃, e₃)) :
    Reaches (do
        let minNode ← rbSearchMinNode (← depthBound) (← rbRight (link (node c l k e r)))
        rbSetKey (link (node c l k e r)) (← rbKey minNode)
        rbSetData (link (node c l k e r)) (← rbData minNode)
        rbSetRight (link (node c l k e r))
          (← rbDeleteMinImpl (← depthBound) (← rbRight (link (node c l k e r))))
        rbFixUp (link (node c l k e r)))
      s (addrs (node c l k e r)) (link (node c l k₃ (e.1, e₃.2) r.deleteMinImpl).fixUp)
      (node c l k₃ (e.1, e₃.2) r.deleteMinImpl).fixUp := by
  have hsize : ∀ {s' : Store K D} {k' : K} {e' : ℕ × D}, Owned s' (node c l k' e' r) →
      r.size < s'.nodes.length + 1 := fun h' => by
      have := h'.size_le
      rw [size] at this
      omega
  obtain ⟨hrun, n, hn, hkey, -⟩ :=
    rbSearchMinNode_run h.stored.right (hsize h) hmin
  have hkeyrun : (rbKey (some e₃.1) : RbM K D K) s = (.ok k₃, s) := by
    simp [rbKey, nodeAt, Cmd.bind_run, hn, hkey]
  refine Reaches.of_read (depthBound_run s) ?_
  refine Reaches.of_read (rbRight_run h.stored) ?_
  refine Reaches.of_read hrun ?_
  refine Reaches.of_read hkeyrun ?_
  refine Reaches.bind (Reaches.updateRoot h rfl)
    (fun s₁ (h₁ : Owned s₁ (node c l k₃ (e.1, e.2) r)) => ?_)
  obtain ⟨-, n₁, hn₁, -, hdata₁⟩ := rbSearchMinNode_run h₁.stored.right (hsize h₁) hmin
  have hdatarun : (rbData (some e₃.1) : RbM K D D) s₁ = (.ok e₃.2, s₁) := by
    simp [rbData, nodeAt, Cmd.bind_run, hn₁, hdata₁]
  refine Reaches.of_read hdatarun ?_
  refine Reaches.bind (Reaches.updateRoot h₁ rfl)
    (fun s₂ (h₂ : Owned s₂ (node c l k₃ (e.1, e₃.2) r)) => ?_)
  refine Reaches.of_read (depthBound_run s₂) ?_
  refine Reaches.of_read (rbRight_run h₂.stored :) ?_
  refine Reaches.assoc (Reaches.bind (Reaches.setRight h₂
    (Reaches.deleteMinImpl (owned_node_iff.mp h₂).2.2.1 (hsize h₂))) (fun s₃ h₃ => ?_))
  exact Reaches.fixUp h₃

omit [HasFalse D] in
/-- A test between the key of a root and another one. -/
theorem rootTest_run {test : K → K → Except (SchemeError K) Bool} {b : Bool} {c : Color}
    {l r : Tree K (ℕ × D)} {k k' : K} {e : ℕ × D} (h : Stored s (node c l k' e r))
    (ht : test k k' = .ok b) :
    (do Cmd.ofExcept (test k (← rbKey (link (node c l k' e r)))) : RbM K D Bool) s =
      (.ok b, s) := by
  rw [Cmd.bind_run_ok (rbKey_run h), ht]
  rfl

/-- **Deletion refines the functional one.** -/
theorem Refines.deleteImpl (ha : tests.Agrees ord Dom) {k : K} (hk : Dom k)
    {t : Tree K (ℕ × D)} {fuel : ℕ} (h : Owned s t) (hf : t.size < fuel)
    (hd : KeysIn Dom t.toList) :
    Refines (deleteImplWith tests fuel (link t) k) s t (Tree.deleteImpl ord k (erase t)) := by
  induction fuel generalizing s t with
  | zero => exact absurd hf (Nat.not_lt_zero _)
  | succ fuel ih =>
    cases t with
    | nil => exact ⟨nil, Reaches.pure h, by rw [erase_nil, deleteImpl_nil]⟩
    | node c₀ l₀ k₀ e₀ r₀ =>
      have hk₀ : Dom k₀ := (keysIn_node hd).2.1
      rw [deleteImplWith, rbNull_link, if_neg (by simp [isNil])]
      refine Refines.of_read (rbKey_run h.stored) ?_
      rw [ha.less hk hk₀]
      by_cases hlt : ord k k₀ = .lt
      · -- to the left
        obtain ⟨c, l, k', e, r, hp⟩ :=
          exists_node_of_toList_eq (toList_prepareLeft (node c₀ l₀ k₀ e₀ r₀)) rfl
        have htl : (node c l k' e r).toList = (node c₀ l₀ k₀ e₀ r₀).toList := by
          rw [← hp, toList_prepareLeft]
        have hsz : l.size < fuel :=
          (size_left_lt_of_toList_eq htl).trans_le (Nat.lt_succ_iff.mp hf)
        have hp' : (node c₀ (erase l₀) k₀ e₀.2 (erase r₀)).prepareLeft =
            node c (erase l) k' e.2 (erase r) := by
          rw [← erase_node, ← erase_node, ← hp]
          exact prepareLeft_mapData _ _
        rw [erase_node, deleteImpl_of_lt hlt hp']
        refine Refines.of_read (x := true) (by rw [hlt]; rfl) ?_
        refine Refines.of_read (rbLeft_run h.stored) ?_
        refine Refines.bind_ite _ (Refines.bind (Reaches.towardsLeftIf h) (fun s₁ h₁ => ?_))
        rw [hp] at h₁ ⊢
        rw [← htl] at hd
        obtain ⟨l', hm, hl'⟩ := ih (owned_node_iff.mp h₁).2.1 hsz (keysIn_node hd).1
        refine Refines.of_read (rbLeft_run h₁.stored) ?_
        refine ⟨(node c l' k' e r).fixUp, ?_, by rw [← hl']; exact (fixUp_mapData _ _).symm⟩
        exact Reaches.assoc (Reaches.bind (Reaches.setLeft h₁ hm) (fun s₂ h₂ => Reaches.fixUp h₂))
      · -- at the node or to the right
        obtain ⟨c₁, l₁, k₁, e₁, r₁, hp⟩ :=
          exists_node_of_toList_eq (toList_leanRight (node c₀ l₀ k₀ e₀ r₀)) rfl
        have htl₁ : (node c₁ l₁ k₁ e₁ r₁).toList = (node c₀ l₀ k₀ e₀ r₀).toList := by
          rw [← hp, toList_leanRight]
        have hp' : (node c₀ (erase l₀) k₀ e₀.2 (erase r₀)).leanRight =
            node c₁ (erase l₁) k₁ e₁.2 (erase r₁) := by
          rw [← erase_node, ← erase_node, ← hp]
          exact leanRight_mapData _ _
        rw [← htl₁] at hd
        have hk₁ : Dom k₁ := (keysIn_node hd).2.1
        rw [erase_node]
        refine Refines.of_read (x := false) (by rw [decide_eq_false hlt]; rfl) ?_
        refine Refines.of_read (rbLeft_run h.stored) ?_
        refine Refines.of_read (rbIsRed_run h.stored.left) ?_
        refine Refines.bind_ite _ (Refines.bind (Reaches.leanRight h) (fun s₁ h₁ => ?_))
        rw [hp] at h₁ ⊢
        have hlast : (do return rbNull (← rbRight (link (node c₁ l₁ k₁ e₁ r₁))) : RbM K D Bool)
            s₁ = (.ok r₁.isNil, s₁) := by
          rw [Cmd.bind_run_ok (rbRight_run h₁.stored), right_node, rbNull_link]
          rfl
        refine Refines.of_read
          (andM_run (rootTest_run h₁.stored (ha.equal hk hk₁)) hlast) ?_
        by_cases hlast' : ord k k₁ = .eq ∧ r₁.isNil = true
        · rw [deleteImpl_of_last hlt hp' (by simpa [erase] using hlast'), hlast'.1, hlast'.2]
          exact ⟨nil, Reaches.none s₁ _, rfl⟩
        · obtain ⟨c₂, l₂, k₂, e₂, r₂, hq⟩ :=
            exists_node_of_toList_eq (toList_prepareRight (node c₁ l₁ k₁ e₁ r₁)) rfl
          have htl₂ : (node c₂ l₂ k₂ e₂ r₂).toList = (node c₁ l₁ k₁ e₁ r₁).toList := by
            rw [← hq, toList_prepareRight]
          have hsz : r₂.size < fuel :=
            (size_right_lt_of_toList_eq (htl₂.trans htl₁)).trans_le (Nat.lt_succ_iff.mp hf)
          have hq' : (node c₁ (erase l₁) k₁ e₁.2 (erase r₁)).prepareRight =
              node c₂ (erase l₂) k₂ e₂.2 (erase r₂) := by
            rw [← erase_node, ← erase_node, ← hq]
            exact prepareRight_mapData _ _
          rw [← htl₂] at hd
          obtain ⟨-, hk₂, hdr⟩ := keysIn_node hd
          rw [deleteImpl_of_prepareRight hlt hp' (by simpa [erase] using hlast') hq',
            if_neg (by simpa using hlast')]
          refine Refines.of_read (rbRight_run h₁.stored) ?_
          refine Refines.bind_ite _ (Refines.bind (Reaches.towardsRightIf h₁) (fun s₂ h₂ => ?_))
          rw [hq] at h₂ ⊢
          refine Refines.of_read (rbKey_run h₂.stored) ?_
          rw [ha.equal hk hk₂]
          refine Refines.of_read (x := decide (ord k k₂ = .eq)) rfl ?_
          by_cases heq : ord k k₂ = .eq
          · -- found: its successor exists, for the node had a right subtree
            rw [if_pos (by simpa using heq), if_pos heq]
            have hnn : r₂.isNil = false := by
              cases hn : r₁.isNil with
              | true =>
                rw [Tree.prepareRight, right_node, hn] at hq
                injection hq with _ _ ek _ er
                exact absurd ⟨ek ▸ heq, hn⟩ hlast'
              | false =>
                have := isNil_right_prepareRight (t := node c₁ l₁ k₁ e₁ r₁) hn
                rwa [hq] at this
            cases hmin : r₂.minEntry with
            | none =>
              rw [minEntry_eq_head?, List.head?_eq_none_iff] at hmin
              exact absurd hmin (toList_ne_nil hnn)
            | some p =>
              obtain ⟨k₃, e₃⟩ := p
              rw [erase, erase, minEntry_mapData, hmin]
              refine ⟨_, Reaches.replaceByMin h₂ hmin, ?_⟩
              rw [deleteMinImpl_mapData]
              exact (fixUp_mapData _ _).symm
          · rw [if_neg (by simpa using heq), if_neg heq]
            obtain ⟨r', hm, hr'⟩ := ih (owned_node_iff.mp h₂).2.2.1 hsz hdr
            refine Refines.of_read (rbRight_run h₂.stored) ?_
            refine ⟨(node c₂ l₂ k₂ e₂ r').fixUp, ?_, by rw [← hr']; exact (fixUp_mapData _ _).symm⟩
            exact Reaches.assoc
              (Reaches.bind (Reaches.setRight h₂ hm) (fun s₃ h₃ => Reaches.fixUp h₃))

end Deletion

/-! ## The operations from outside -/

/-- A descent from the root, after which the root is painted black. -/
theorem Refines.blacken {m : ℕ → RbM K D Link} {t : Tree K (ℕ × D)} {u : Tree K D}
    (h : Owned s t) (hm : ∀ fuel, t.size < fuel → Refines (m fuel) s t u) :
    Refines (do
        let result ← m (← depthBound)
        if !rbNull result then rbSetColor result .black
        return result) s t (u.setColor .black) := by
  refine Refines.of_read (depthBound_run s) ?_
  obtain ⟨t', hr, hu⟩ := hm (s.nodes.length + 1) (Nat.lt_succ_iff.mpr h.size_le)
  refine ⟨t'.setColor .black, Reaches.bind hr (fun s₁ h₁ => Reaches.blacken h₁), ?_⟩
  rw [← hu]
  exact (setColor_mapData _ _ _).symm

section Operations

variable {tests : KeyTests K} {ord : K → K → Ordering} {Dom : K → Prop} {t : Tree K (ℕ × D)}

theorem Refines.insert [Zero K] (ha : tests.Agrees ord Dom) {k : K} (hk : Dom k) (d : D)
    (h : Owned s t) (hd : KeysIn Dom t.toList) :
    Refines (insertWith tests (link t) k d) s t (Tree.insert ord k d (erase t)) :=
  Refines.blacken h (fun _ hf => Refines.insertImpl ha hk d h hf hd)

theorem link_paintRoot (t : Tree K (ℕ × D)) : link t.paintRoot = link t := by
  unfold Tree.paintRoot
  split
  · exact link_setColor _ _
  · rfl

theorem erase_paintRoot (t : Tree K (ℕ × D)) : erase t.paintRoot = (erase t).paintRoot :=
  (paintRoot_mapData _ _).symm

theorem Refines.delete [Zero K] [HasFalse D] (ha : tests.Agrees ord Dom) {k : K} (hk : Dom k)
    (h : Owned s t) (hd : KeysIn Dom t.toList) :
    Refines (deleteWith tests (link t) k) s t (Tree.delete ord k (erase t)) := by
  cases t with
  | nil =>
    refine ⟨nil, Reaches.pure h, ?_⟩
    rw [Tree.delete, erase_nil, show (nil : Tree K D).paintRoot = nil from rfl, deleteImpl_nil]
    rfl
  | node c l k' e r =>
    refine Refines.bind (Reaches.paintRoot h) (fun s₁ h₁ => ?_)
    rw [Tree.delete, ← erase_paintRoot]
    rw [← link_paintRoot]
    exact Refines.blacken h₁ (fun _ hf => Refines.deleteImpl ha hk h₁ hf (by simpa using hd))

theorem Refines.deleteMin (h : Owned s t) :
    Refines (rbDeleteMin (link t)) s t (erase t).deleteMin := by
  cases t with
  | nil =>
    refine ⟨nil, Reaches.pure h, ?_⟩
    rw [Tree.deleteMin, erase_nil, show (nil : Tree K D).paintRoot = nil from rfl,
      deleteMinImpl_of_isNil rfl]
    rfl
  | node c l k' e r =>
    refine Refines.bind (Reaches.paintRoot h) (fun s₁ h₁ => ?_)
    rw [Tree.deleteMin, ← erase_paintRoot]
    rw [← link_paintRoot]
    exact Refines.blacken h₁ (fun _ hf =>
      ⟨_, Reaches.deleteMinImpl h₁ hf, (deleteMinImpl_mapData _ _).symm⟩)

end Operations

end RbTree
