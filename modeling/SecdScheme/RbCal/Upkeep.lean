import SecdScheme.RbCal.Bulk
import SecdScheme.RbCal.Descents

/-!
# rbtree4.cal: every update keeps the tree sound

`SoundIn f w db t A`: the handle `db` leads to the tree `t` in the region `A`,
with right sizes, balanced below a black root and with ascending keys. Every
public update of a handle, destructive or persistent, accepted or refused,
leaves such a tree; it changes no other handle and no node outside of the
region, `Tends`.
-/

namespace RbCal

open Llrb Llrb.Tree SortedAssoc

variable {K V : Type} {s s' : Heap K V} {w w' : World K V} {db : ℕ} {d : Handle K} {t u : Tree K V}
  {A : Set ℕ} {c : Color} {k : K} {v : V} {h : Link} {f : K → K → ℤ} {st : Style K V}

/-- The comparison function that is never an error. -/
abbrev comparing (f : K → K → ℤ) : Comparator K := some fun a b => .ok (f a b)

/-- **The tree of a handle** in a region, sound in every respect. -/
structure SoundIn (f : K → K → ℤ) (w : World K V) (db : ℕ) (t : Tree K V) (A : Set ℕ) : Prop where
  stored : ∃ d, w.handles[db]? = some d ∧ d.cmp = comparing f ∧ w.heap.Own d.root t A
  balanced : ∃ n, Balanced t .black n
  sorted : StrictlySorted (signOf f) t.toList

/-- **What an update of a handle leaves**: a sound tree, and everything outside
of the region as it was. -/
structure Tends (f : K → K → ℤ) (w : World K V) (db : ℕ) (A : Set ℕ) (w' : World K V) : Prop where
  grows : Grows A w.heap w'.heap
  others : ∃ d, w'.handles = w.handles.set db d
  sound : ∃ t, SoundIn f w' db t (w.heap.upTo A w'.heap)

namespace Tends

/-- A world in which the handle has at most another mode. -/
theorem of_eq (hs : SoundIn f w db t A) (hd : w.handles[db]? = some d) {e : Handle K}
    (hroot : e.root = d.root) (hcmp : e.cmp = d.cmp) (hheap : w'.heap = w.heap)
    (hset : w'.handles = w.handles.set db e) : Tends f w db A w' := by
  obtain ⟨⟨d', hd', hcmp', hown⟩, hb, hsorted⟩ := hs
  obtain rfl : d = d' := Option.some.inj (hd.symm.trans hd')
  refine ⟨hheap ▸ .refl A w.heap, ⟨e, hset⟩, t, ⟨e, ?_, hcmp.trans hcmp', ?_⟩, hb, hsorted⟩
  · rw [hset, getElem?_set_handle e hd]
  · rw [hheap, hroot]
    exact hown.mono fun _ => Or.inl

/-- Nothing has happened to the nodes and the handles. -/
theorem of_same (hs : SoundIn f w db t A) (hheap : w'.heap = w.heap)
    (hhandles : w'.handles = w.handles) : Tends f w db A w' := by
  obtain ⟨d, hd, -, -⟩ := hs.stored
  refine of_eq hs hd rfl rfl hheap ?_
  obtain ⟨hlt, rfl⟩ := List.getElem?_eq_some_iff.mp hd
  rw [hhandles, List.set_getElem_self]

end Tends

/-! ## The guards -/

/-- **A guard of a handle**: it lets an update through or refuses it, and changes
at most the mode. Where there is no handle it refuses. -/
structure Guards (g : ApiM K V Bool) (db : ℕ) : Prop where
  handle : ∀ {w d}, w.handles[db]? = some d → ∃ b w' d', g w = (.ok b, w') ∧ w'.heap = w.heap ∧
    w'.handles = w.handles.set db d' ∧ d'.root = d.root ∧ d'.cmp = d.cmp
  missing : ∀ {w}, w.handles[db]? = none → ∃ w', g w = (.ok false, w') ∧ w'.heap = w.heap ∧
    w'.handles = w.handles

theorem isHandle_run (w : World K V) : isHandle db w = (.ok w.handles[db]?.isSome, w) := rfl

/-- A handle that is there. -/
theorem handleAt_run (hd : w.handles[db]? = some d) : handleAt db w = (.ok d, w) := by
  rw [handleAt, hd]

/-- What is no handle is reported. -/
theorem handleAt_missing (hd : w.handles[db]? = none) :
    handleAt db w = (.error .notVector, w) := by
  rw [handleAt, hd]

/-- A refusal leaves the handle as it is. -/
theorem refused (hd : w.handles[db]? = some d) (message : String) :
    ∃ b w' d', (do rbiMisuse message; return false : ApiM K V Bool) w = (.ok b, w') ∧
      w'.heap = w.heap ∧ w'.handles = w.handles.set db d' ∧ d'.root = d.root ∧ d'.cmp = d.cmp := by
  refine ⟨false, _, d, rfl, rfl, ?_, rfl, rfl⟩
  obtain ⟨hlt, rfl⟩ := List.getElem?_eq_some_iff.mp hd
  exact (List.set_getElem_self hlt).symm

/-- An accepted update sets the mode. -/
theorem accepted (hd : w.handles[db]? = some d) (mode : Mode) :
    ∃ b w' d', (do setMode db mode; return true : ApiM K V Bool) w = (.ok b, w') ∧
      w'.heap = w.heap ∧ w'.handles = w.handles.set db d' ∧ d'.root = d.root ∧ d'.cmp = d.cmp := by
  refine ⟨true, { w with handles := w.handles.set db { d with mode := some mode } },
    { d with mode := some mode }, ?_, rfl, rfl, rfl, rfl⟩
  exact Cmd.bind_run_ok (updateHandle_run _ hd) _

theorem guards_rbiWantDestructive (db : ℕ) :
    Guards (rbiWantDestructive db : ApiM K V Bool) db where
  handle {w d} hd := by
    have hv : isHandle db w = (.ok true, w) := by rw [isHandle_run, hd]; rfl
    rw [rbiWantDestructive, Cmd.bind_run_ok hv, if_neg (by decide),
      Cmd.bind_run_ok (handleAt_run hd)]
    obtain ⟨root, cmp, mode⟩ := d
    rcases mode with _ | _ | _ | _ | _
    · obtain ⟨hlt, heq⟩ := List.getElem?_eq_some_iff.mp hd
      refine ⟨true, w, _, rfl, rfl, ?_, rfl, rfl⟩
      rw [← heq, List.set_getElem_self]
    · exact accepted hd .destr
    · exact accepted hd .destr
    · exact refused hd _
    · exact refused hd _
  missing {w} hd := by
    have hv : isHandle db w = (.ok false, w) := by rw [isHandle_run, hd]; rfl
    rw [rbiWantDestructive, Cmd.bind_run_ok hv, if_pos (by decide)]
    exact ⟨_, rfl, rfl, rfl⟩

theorem guards_rbiWantPersistent (db : ℕ) :
    Guards (rbiWantPersistent db : ApiM K V Bool) db where
  handle {w d} hd := by
    have hv : isHandle db w = (.ok true, w) := by rw [isHandle_run, hd]; rfl
    rw [rbiWantPersistent, Cmd.bind_run_ok hv, if_neg (by decide),
      Cmd.bind_run_ok (handleAt_run hd)]
    obtain ⟨root, cmp, mode⟩ := d
    rcases mode with _ | _ | _ | _ | _
    · obtain ⟨hlt, heq⟩ := List.getElem?_eq_some_iff.mp hd
      refine ⟨true, w, _, rfl, rfl, ?_, rfl, rfl⟩
      rw [← heq, List.set_getElem_self]
    · exact accepted hd .pers
    · exact accepted hd .pers
    · exact accepted hd .pers
    · exact refused hd _
  missing {w} hd := by
    have hv : isHandle db w = (.ok false, w) := by rw [isHandle_run, hd]; rfl
    rw [rbiWantPersistent, Cmd.bind_run_ok hv, if_pos (by decide)]
    exact ⟨_, rfl, rfl, rfl⟩

/-- **What follows a guard.** Where it lets the update through, the handle has at
most another mode. -/
theorem Guards.tends {α : Type} {g : ApiM K V Bool} {m : ApiM K V α} {x : α} (hg : Guards g db)
    (hs : SoundIn f w db t A)
    (hm : ∀ w' d', w'.heap = w.heap → w'.handles[db]? = some d' → SoundIn f w' db t A →
      ∃ y w'', m w' = (.ok y, w'') ∧ Tends f w' db A w'') :
    ∃ y w', (do if !(← g) then return x
                m) w = (.ok y, w') ∧ Tends f w db A w' := by
  obtain ⟨d, hd, hcmp, hown⟩ := hs.stored
  obtain ⟨b, w₁, d₁, hrun, hheap, hset, hroot, hcmp₁⟩ := hg.handle hd
  have hd₁ : w₁.handles[db]? = some d₁ := by rw [hset, getElem?_set_handle d₁ hd]
  cases b with
  | false =>
    refine ⟨x, w₁, ?_, .of_eq hs hd hroot hcmp₁ hheap hset⟩
    rw [Cmd.bind_run_ok hrun]
    rfl
  | true =>
    have hs₁ : SoundIn f w₁ db t A :=
      ⟨⟨d₁, hd₁, hcmp₁.trans hcmp, by rw [hheap, hroot]; exact hown⟩, hs.balanced, hs.sorted⟩
    obtain ⟨y, w₂, hrun₂, hgrows, ⟨d₂, hset₂⟩, hsound⟩ := hm w₁ d₁ hheap hd₁ hs₁
    refine ⟨y, w₂, by rw [Cmd.bind_run_ok hrun]; exact hrun₂, hheap ▸ hgrows, ⟨d₂, ?_⟩,
      hheap ▸ hsound⟩
    rw [hset₂, hset, List.set_set]

/-- Where there is no handle nothing happens. -/
theorem Guards.same {α : Type} {g : ApiM K V Bool} {m : ApiM K V α} {x : α} (hg : Guards g db)
    (hd : w.handles[db]? = none) :
    ((do if !(← g) then return x
         m : ApiM K V α) w).2.heap = w.heap ∧
    ((do if !(← g) then return x
         m : ApiM K V α) w).2.handles = w.handles := by
  obtain ⟨w', hrun, hheap, hhandles⟩ := hg.missing hd
  rw [Cmd.bind_run_ok hrun]
  exact ⟨hheap, hhandles⟩

/-! ## The end of an update -/

/-- The root of a handle is painted. -/
theorem colorRoot_run (c : Color) (hd : w.handles[db]? = some d) (hu : w.heap.Own d.root u A)
    (hn : u.isNil = false) :
    ∃ s', colorRoot db c w = (.ok (), { w with heap := s' }) ∧ Grows A w.heap s' ∧
      s'.Own d.root (u.setColor c) (w.heap.upTo A s') := by
  cases u with
  | nil => exact absurd hn (by simp [isNil])
  | node c₀ l k v r =>
    obtain ⟨_, s', hrun, hg, ht⟩ := leads_setColor c hu
    refine ⟨s', ?_, hg, ht⟩
    rw [colorRoot, Cmd.bind_run_ok (handleAt_run hd)]
    exact onHeap_run hrun

/-- The root is black at the end. -/
theorem blackenRoot_run (hd : w.handles[db]? = some d) (hu : w.heap.Own d.root u A) :
    ∃ s', blackenRoot db w = (.ok (), { w with heap := s' }) ∧ Grows A w.heap s' ∧
      s'.Own d.root (u.setColor .black) (w.heap.upTo A s') := by
  rw [blackenRoot, Cmd.bind_run_ok (handleAt_run hd), hu.vector_eq]
  cases hn : u.isNil with
  | true =>
    cases u with
    | nil => exact ⟨w.heap, rfl, .refl A w.heap, hu.mono fun _ => Or.inl⟩
    | node => exact absurd hn (by simp [isNil])
  | false => exact colorRoot_run .black hd hu hn

/-- **The end of an update**: the new tree is stored, and its root is painted
black. -/
theorem tends_setRoot {m : CalM K V Link} {paint : ApiM K V Unit}
    (hd : w.handles[db]? = some d) (hcmp : d.cmp = comparing f)
    (hm : Leads m id w.heap A u.size u)
    (hpaint : paint = blackenRoot db ∨ paint = colorRoot db .black ∧ u.isNil = false)
    (hb : ∃ n, Balanced (u.setColor .black) .black n)
    (hu : StrictlySorted (signOf f) u.toList) :
    ∃ w', Tends f w db A w' ∧ ∀ {β : Type} (g : ApiM K V β),
      (do setRoot db (← onHeap m)
          paint
          g) w = g w' := by
  obtain ⟨x, s₁, hrun, hg₁, hown⟩ := hm
  let w₁ : World K V := { w with heap := s₁ }
  let w₂ : World K V := { w₁ with handles := w₁.handles.set db { d with root := x } }
  have hset : setRoot db x w₁ = (.ok (), w₂) := updateHandle_run _ hd
  have hd₂ : w₂.handles[db]? = some { d with root := x } := getElem?_set_handle _ hd
  obtain ⟨s₂, hend, hg₂, hown₂⟩ : ∃ s', paint w₂ = (.ok (), { w₂ with heap := s' }) ∧
      Grows (w.heap.upTo A s₁) s₁ s' ∧
      s'.Own x (u.setColor .black) (s₁.upTo (w.heap.upTo A s₁) s') := by
    rcases hpaint with rfl | ⟨rfl, hn⟩
    · exact blackenRoot_run hd₂ hown
    · exact colorRoot_run .black hd₂ hown hn
  rw [upTo_upTo hg₁ hg₂.length] at hown₂
  refine ⟨{ w₂ with heap := s₂ }, ⟨hg₁.trans hg₂, ⟨_, rfl⟩, u.setColor .black,
    ⟨{ d with root := x }, hd₂, hcmp, hown₂⟩, hb, by rwa [toList_setColor]⟩, fun g => ?_⟩
  rw [Cmd.bind_run_ok (onHeap_run hrun)]
  exact (Cmd.bind_run_ok hset _).trans (Cmd.bind_run_ok hend _)

theorem isNil_fixUp (t : Tree K V) : t.fixUp.isNil = t.isNil := by
  have hnil : ∀ t : Tree K V, t.isNil = t.toList.isEmpty := fun t => by
    cases t <;> simp [isNil, toList]
  rw [hnil, hnil, toList_fixUp]

/-- A tree is not empty after an insertion. -/
theorem isNil_insertImpl {ord : K → K → Ordering} (t : Tree K V) :
    (insertImpl ord k v t).isNil = false := by
  cases t with
  | nil => rfl
  | node c l k' v' r =>
    rw [insertImpl]
    split <;> rw [isNil_fixUp] <;> rfl

/-- **An insertion into the tree of a handle.** -/
theorem tends_put (hst : st.Sound) (ho : KeyOrder (signOf f) fun _ => True)
    (hs : SoundIn f w db t A) (hd : w.handles[db]? = some d) :
    ∃ w', Tends f w db A w' ∧ ∀ {β : Type} (g : ApiM K V β),
      (do setRoot db (← onHeap (st.put (← depthBound) d.root k v d.cmp))
          colorRoot db .black
          g) w = g w' := by
  obtain ⟨e, he, hcmp, hown⟩ := hs.stored
  obtain rfl : d = e := Option.some.inj (hd.symm.trans he)
  obtain ⟨n, hb⟩ := hs.balanced
  have hput := hcmp
  rw [hcmp]
  exact tends_setRoot hd hput (leads_put hst f hb hown (Nat.lt_succ_of_le hown.size_le))
    (Or.inr ⟨rfl, isNil_insertImpl t⟩) (hb.insert k v)
    (by
      rw [toList_insertImpl ho v trivial hs.sorted fun _ _ => trivial]
      exact hs.sorted.insert ho (fun _ _ => trivial) trivial)

/-! ## Searching for a key -/

/-- A key that is found is there. -/
theorem rbiSearch_run {fuel : ℕ} (ht : s.Own h t A) (hf : t.size < fuel) :
    ∃ x, rbiSearch fuel h k (comparing f) s = (.ok x, s) ∧
      (vector x = true → ∃ e ∈ t.toList, signOf f k e.1 = .eq) := by
  induction t generalizing h A fuel with
  | nil =>
    obtain ⟨fuel, rfl⟩ := Nat.exists_eq_succ_of_ne_zero (Nat.ne_zero_of_lt hf)
    rw [ht.eq_none]
    exact ⟨none, rfl, fun hx => absurd hx (by decide)⟩
  | node c l k' d r ihl ihr =>
    obtain ⟨fuel, rfl⟩ := Nat.exists_eq_succ_of_ne_zero (Nat.ne_zero_of_lt hf)
    rw [Llrb.Tree.size] at hf
    cases ht with
    | @node _ a _ _ _ _ _ _ _ _ _ _ hget _ hl₀ hr₀ =>
      rw [rbiSearch, if_neg (by simp [vector]), Cmd.bind_run_ok (key_run hget),
        Cmd.bind_run_ok (compareKeys_run f k k' s)]
      by_cases heq : f k k' = 0
      · rw [if_pos heq]
        exact ⟨_, rfl, fun _ => ⟨(k', d), by simp [toList], signOf_eq.mpr heq⟩⟩
      · rw [if_neg heq]
        by_cases hlt : f k k' < 0
        · obtain ⟨x, hrun, hx⟩ := ihl hl₀ (by omega : l.size < fuel)
          refine ⟨x, ?_, fun hv => ?_⟩
          · rw [if_pos hlt, Cmd.bind_run_ok (left_run hget)]
            exact hrun
          · obtain ⟨e, he, heq⟩ := hx hv
            exact ⟨e, List.mem_append_left _ he, heq⟩
        · obtain ⟨x, hrun, hx⟩ := ihr hr₀ (by omega : r.size < fuel)
          refine ⟨x, ?_, fun hv => ?_⟩
          · rw [if_neg hlt, Cmd.bind_run_ok (right_run hget)]
            exact hrun
          · obtain ⟨e, he, heq⟩ := hx hv
            exact ⟨e, List.mem_append_right _ (List.mem_cons_of_mem _ he), heq⟩

theorem depthBound_run (w : World K V) : depthBound w = (.ok (w.heap.nodes.length + 1), w) := rfl

/-- A search says what the entries say. -/
theorem rbContains_run (hs : SoundIn f w db t A) :
    ∃ b, rbContains db k w = (.ok b, w) ∧ (b = true → ∃ e ∈ t.toList, signOf f k e.1 = .eq) := by
  obtain ⟨d, hd, hcmp, hown⟩ := hs.stored
  obtain ⟨x, hrun, hx⟩ := rbiSearch_run (f := f) (k := k) hown (Nat.lt_succ_of_le hown.size_le)
  refine ⟨vector x, ?_, hx⟩
  have hnode : rbSearchNode db k w = (.ok x, w) := by
    rw [rbSearchNode, Cmd.bind_run_ok (handleAt_run hd), Cmd.bind_run_ok (depthBound_run w),
      onHeap, hcmp, hrun]
  rw [rbContains, Cmd.bind_run_ok hnode]
  rfl

/-! ## Deletions -/

/-- Both children of a node are looked at. -/
theorem blackChildren_run (ht : s.Own h t A) (hn : t.isNil = false) :
    blackChildren h s = (.ok (!t.left.isRed && !t.right.isRed), s) :=
  andM_run (blackLeft_run ht hn) (blackRight_run ht hn)

/-- A step on the nodes before an update. -/
theorem Tends.after (w₁ : World K V) (hg : Grows A w.heap w₁.heap)
    (hh : w₁.handles = w.handles) (ht : Tends f w₁ db (w.heap.upTo A w₁.heap) w') :
    Tends f w db A w' := by
  obtain ⟨hgrows, ⟨d, hset⟩, t, hsound⟩ := ht
  rw [upTo_upTo hg hgrows.length] at hsound
  exact ⟨hg.trans hgrows, ⟨d, by rw [hset, hh]⟩, t, hsound⟩

/-- **What a deletion does to a tree that carries a red link along**, at any
place in any heap: it leaves a sorted tree that a deletion may leave. -/
def Removes (f : K → K → ℤ) (del : ℕ → Link → Comparator K → CalM K V Link) (t : Tree K V) :
    Prop :=
  ∀ (s : Heap K V) (h : Link) (A : Set ℕ) (c : Color) (n : ℕ), Ready t c n →
    (c = .black → t.left.isRed = true) → s.Own h t A →
    ∃ u, Leads (del (s.nodes.length + 1) h (comparing f)) id s A u.size u ∧ Shrunk u c n ∧
      StrictlySorted (signOf f) u.toList

variable {del : ℕ → Link → Comparator K → CalM K V Link}

/-- The deletion from a tree whose root has been painted. -/
theorem tends_remove (hd : w.handles[db]? = some d) (hcmp : d.cmp = comparing f)
    (hdel : Removes f del t) {n : ℕ} (hready : Ready t c n)
    (hleft : c = .black → t.left.isRed = true) (hown : w.heap.Own h t A) :
    ∃ w', (do setRoot db (← onHeap (del (← depthBound) h d.cmp))
              blackenRoot db
              return true : ApiM K V Bool) w = (.ok true, w') ∧ Tends f w db A w' := by
  obtain ⟨u, hleads, hsh, hsorted⟩ := hdel w.heap h A c n hready hleft hown
  have hcmp' := hcmp
  rw [hcmp]
  obtain ⟨w', hend, hrun⟩ := tends_setRoot hd hcmp' hleads (Or.inl rfl) hsh.setColor_black hsorted
  exact ⟨w', (Cmd.bind_run_ok (depthBound_run w) _).trans (hrun _), hend⟩

/-- **A deletion**: the root is painted so that the descent carries a red link,
the deletion runs, and the root is black again. -/
theorem tends_paint (paint : ApiM K V Unit) (hpaint : paint w = onHeap (setColor h .red) w)
    (hd : w.handles[db]? = some d) (hcmp : d.cmp = comparing f) {n : ℕ}
    (hb : Balanced t .black n) (hn : t.isNil = false) (hdel : Removes f del t.paintRoot)
    (hown : w.heap.Own h t A) :
    ∃ w', (do if (← onHeap (blackChildren h)) then paint
              setRoot db (← onHeap (del (← depthBound) h d.cmp))
              blackenRoot db
              return true : ApiM K V Bool) w = (.ok true, w') ∧ Tends f w db A w' := by
  cases t with
  | nil => exact absurd hn (by simp [isNil])
  | node c₀ l k v r =>
    obtain ⟨c, m, hready, hleft⟩ := hb.paintRoot
    have hread : onHeap (blackChildren h) w = (.ok (!l.isRed && !r.isRed), w) :=
      onHeap_run (blackChildren_run hown rfl)
    rw [Cmd.bind_run_ok hread]
    unfold paintRoot at hdel hready hleft
    rw [left_node, right_node] at hdel hready hleft
    split at hdel
    · rename_i hp
      rw [if_pos hp] at hready hleft ⊢
      obtain ⟨_, s₁, hrun, hg, hown₁⟩ := leads_setColor .red hown
      let w₁ : World K V := { w with heap := s₁ }
      obtain ⟨w', hrun', hend⟩ := tends_remove (w := w₁) hd hcmp hdel hready hleft
        (hown₁ : s₁.Own h (node .red l k v r) (w.heap.upTo A s₁))
      refine ⟨w', ?_, .after w₁ hg rfl hend⟩
      exact (Cmd.bind_run_ok (hpaint.trans (onHeap_run hrun)) _).trans hrun'
    · rename_i hp
      rw [if_neg hp] at hready hleft ⊢
      exact tends_remove hd hcmp hdel hready hleft hown

/-- **A destructive deletion.** -/
theorem tends_deleteDestructive (hs : SoundIn f w db t A) (hn : t.isNil = false)
    (hdel : Removes f del t.paintRoot) :
    ∃ b w', deleteDestructive db del w = (.ok b, w') ∧ Tends f w db A w' := by
  unfold deleteDestructive
  refine (guards_rbiWantDestructive db).tends hs fun w₁ d hheap hd hs₁ => ?_
  obtain ⟨e, he, hcmp, hown⟩ := hs₁.stored
  obtain rfl : d = e := Option.some.inj (hd.symm.trans he)
  obtain ⟨n, hb⟩ := hs₁.balanced
  obtain ⟨w', hrun, hend⟩ := tends_paint (colorRoot db .red)
    (by rw [colorRoot, Cmd.bind_run_ok (handleAt_run hd)]) hd hcmp hb hn hdel hown
  exact ⟨true, w', (Cmd.bind_run_ok (handleAt_run hd) _).trans hrun, hend⟩

/-- **A persistent deletion**, on a copy of the root. -/
theorem tends_deletePersistent (hs : SoundIn f w db t A) (hn : t.isNil = false)
    (hdel : Removes f del t.paintRoot) :
    ∃ b w', deletePersistent db del w = (.ok b, w') ∧ Tends f w db A w' := by
  unfold deletePersistent
  refine (guards_rbiWantPersistent db).tends hs fun w₁ d hheap hd hs₁ => ?_
  obtain ⟨e, he, hcmp, hown⟩ := hs₁.stored
  obtain rfl : d = e := Option.some.inj (hd.symm.trans he)
  obtain ⟨n, hb⟩ := hs₁.balanced
  obtain ⟨x, s₁, hcopy, hg, hown₁⟩ : Leads (rbiCopy d.root) id w₁.heap A t.size t := by
    cases t with
    | nil => exact absurd hn (by simp [isNil])
    | node => exact leads_rbiCopy hown
  let w₂ : World K V := { w₁ with heap := s₁ }
  obtain ⟨w', hrun, hend⟩ := tends_paint (w := w₂) (onHeap (setColor x .red)) rfl hd hcmp hb
    hn hdel hown₁
  refine ⟨true, w', (Cmd.bind_run_ok (handleAt_run hd) _).trans ?_, .after w₂ hg rfl hend⟩
  exact (Cmd.bind_run_ok (onHeap_run hcopy) _).trans hrun

/-! ### The three deletions -/

/-- A part of a sorted list is sorted. -/
theorem StrictlySorted.sublist {ord : K → K → Ordering} {l l' : List (K × V)}
    (h : StrictlySorted ord l) (hl : List.Sublist l' l) : StrictlySorted ord l' :=
  List.Pairwise.sublist hl h

/-- The descent to the least entry removes it. -/
theorem removes_delmin (hst : st.Sound) (hs : StrictlySorted (signOf f) t.toList) :
    Removes f (fun fuel h _ => st.delmin fuel h) t := by
  intro s h A c n hready hleft hown
  refine ⟨_, leads_delmin hst hready hleft hown (Nat.le_succ_of_le hown.size_le),
    hready.deleteMinImpl hleft, ?_⟩
  rw [toList_deleteMinImpl hready hleft]
  exact StrictlySorted.sublist hs (List.tail_sublist _)

/-- That to the greatest removes that. -/
theorem removes_delmax (hst : st.Sound) (hs : StrictlySorted (signOf f) t.toList) :
    Removes f (fun fuel h _ => st.delmax fuel h) t := by
  intro s h A c n hready _ hown
  obtain ⟨u, hsh, hlist, hleads⟩ := leads_delmax hst hready (Nat.le_succ_of_le hown.size_le)
  refine ⟨u, hleads s h A hown, hsh, ?_⟩
  rw [hlist]
  exact StrictlySorted.sublist hs (List.dropLast_sublist _)

/-- **That to a key removes its entry.** -/
theorem removes_del (hst : st.Sound) (ho : KeyOrder (signOf f) fun _ => True)
    (hs : StrictlySorted (signOf f) t.toList) (hk : ∃ e ∈ t.toList, signOf f k e.1 = .eq) :
    Removes f (fun fuel h cmp => st.del fuel h k cmp) t := by
  intro s h A c n hready hleft hown
  have hdesc : Descends (signOf f) k t c := fun hc hn => absurd (hleft hc) (by simp [hn])
  obtain ⟨hsh, hlist⟩ := hready.deleteImpl ho trivial hs (fun _ _ => trivial) hdesc
  refine ⟨_, deletes hst ho _ t c n s h A hready hs hdesc hk (Nat.le_succ_of_le hown.size_le) hown,
    hsh, ?_⟩
  rw [hlist]
  exact hs.erase

/-! ## The public updates -/

section Updates

variable (ho : KeyOrder (signOf f) fun _ => True)

include ho

/-- Keys that ascend are sorted. -/
theorem chain_iff_sorted {l : List (K × V)} :
    (l.map Prod.fst).IsChain (f · · < 0) ↔ StrictlySorted (signOf f) l := by
  have htrans : IsTrans K (f · · < 0) := ⟨fun a b c hab hbc =>
    signOf_lt.mp (ho.trans trivial trivial trivial (signOf_lt.mpr hab) (signOf_lt.mpr hbc))⟩
  rw [List.isChain_iff_pairwise, List.pairwise_map]
  exact List.Pairwise.iff fun a b => signOf_lt.symm

/-- **An insertion in place tends the trees.** -/
theorem tends_rbPut (hs : SoundIn f w db t A) :
    ∃ x w', rbPut db k v w = (.ok x, w') ∧ Tends f w db A w' := by
  unfold rbPut
  refine (guards_rbiWantDestructive db).tends hs fun w₁ d _ hd hs₁ => ?_
  obtain ⟨w', hend, hrun⟩ := tends_put (k := k) (v := v) destructive_sound ho hs₁ hd
  exact ⟨some v, w', (Cmd.bind_run_ok (handleAt_run hd) _).trans (hrun _), hend⟩

theorem tends_putPersistent (hs : SoundIn f w db t A) :
    ∃ w', putPersistent db k v w = (.ok (), w') ∧ Tends f w db A w' := by
  obtain ⟨d, hd, -, -⟩ := hs.stored
  obtain ⟨w', hend, hrun⟩ := tends_put (k := k) (v := v) copying_sound ho hs hd
  have hunit := hrun (pure ())
  simp only [Cmd.bind_pure_unit] at hunit
  exact ⟨w', (Cmd.bind_run_ok (handleAt_run hd) _).trans hunit, hend⟩

/-- So does a persistent one. -/
theorem tends_rbpPut (hs : SoundIn f w db t A) :
    ∃ x w', rbpPut db k v w = (.ok x, w') ∧ Tends f w db A w' := by
  unfold rbpPut
  refine (guards_rbiWantPersistent db).tends hs fun w₁ d _ hd hs₁ => ?_
  obtain ⟨w', hrun, hend⟩ := tends_putPersistent ho (k := k) (v := v) hs₁
  exact ⟨some v, w', Cmd.bind_run_ok hrun _, hend⟩

/-- So does a new value. -/
theorem tends_rbpSetValue (hs : SoundIn f w db t A) :
    ∃ x w', rbpSetValue db k v w = (.ok x, w') ∧ Tends f w db A w' := by
  obtain ⟨b, hrun, -⟩ := rbContains_run (k := k) hs
  unfold rbpSetValue
  rw [Cmd.bind_run_ok hrun]
  cases b with
  | false => exact ⟨false, w, rfl, .of_same hs rfl rfl⟩
  | true =>
    refine (guards_rbiWantPersistent db).tends hs fun w₁ d _ hd hs₁ => ?_
    obtain ⟨w', hrun, hend⟩ := tends_putPersistent ho (k := k) (v := v) hs₁
    exact ⟨true, w', Cmd.bind_run_ok hrun _, hend⟩

omit ho in
/-- A comparison that is negative. -/
theorem lt_of_before {a b : K} (h : Before (comparing f) a b) : f a b < 0 := by
  obtain ⟨g, z, hg, hz, hneg⟩ := h
  obtain rfl := Option.some.inj hg
  obtain rfl := Except.ok.inj hz
  exact hneg

/-- **The bulk construction**, of anything. -/
theorem tends_rbFromSorted (vs : Option (List (Element K V))) (hs : SoundIn f w db t A) :
    ∃ n w', rbFromSorted db vs w = (.ok n, w') ∧ Tends f w db A w' := by
  unfold rbFromSorted
  refine (guards_rbiWantDestructive db).tends hs fun w₁ d _ hd hs₁ => ?_
  obtain ⟨e, he, hcmp, hown⟩ := hs₁.stored
  obtain rfl : d = e := Option.some.inj (hd.symm.trans he)
  cases vs with
  | none => exact ⟨-1, _, rfl, .of_same hs₁ rfl rfl⟩
  | some vs =>
    obtain ⟨r, hcheck, hsorted, hfails⟩ := rbiCheckSorted_run d.cmp vs none w₁.heap
    dsimp only
    rw [Cmd.bind_run_ok (handleAt_run hd)]
    rcases r with e | _ | _
    · obtain ⟨ps, q, rest, k, -, -, -, hfail⟩ := hfails.mp ⟨e, rfl⟩
      rw [hcmp] at hfail
      obtain hnone | ⟨g, e', hg, he'⟩ := hfail
      · cases hnone
      · obtain rfl := Option.some.inj hg
        cases he'
    · rw [Cmd.bind_run_ok (onHeap_run hcheck)]
      exact ⟨-1, _, rfl, .of_same hs₁ rfl rfl⟩
    · obtain ⟨ps, hentries, hchain⟩ := hsorted.mp rfl
      rw [hcmp] at hchain
      obtain ⟨x, s', u, hrun, hg, hown', hbal, hlist⟩ := storeSorted_run hentries hd
      rw [Cmd.bind_run_ok (onHeap_run hcheck), if_neg (by decide)]
      refine ⟨ps.length, _, hrun, hg.mono (Set.empty_subset A), ⟨_, rfl⟩, u,
        ⟨_, getElem?_set_handle _ hd, hcmp, hown'.mono ?_⟩, hbal, ?_⟩
      · exact fun y hy => hy.imp (fun hy => hy.elim) id
      · rw [hlist]
        exact (chain_iff_sorted ho).mp (hchain.imp fun a b => lt_of_before)

omit ho in
/-- A deletion of a key, in one style or the other. -/
theorem tends_deleteKey {m : ApiM K V Bool}
    (hm : ∀ {w t A}, SoundIn f w db t A → (∃ e ∈ t.toList, signOf f k e.1 = .eq) →
      ∃ b w', m w = (.ok b, w') ∧ Tends f w db A w') (hs : SoundIn f w db t A) :
    ∃ b w', (do if !(← rbContains db k) then return false
                m) w = (.ok b, w') ∧ Tends f w db A w' := by
  obtain ⟨b, hrun, hb⟩ := rbContains_run (k := k) hs
  rw [Cmd.bind_run_ok hrun]
  cases b with
  | false => exact ⟨false, w, rfl, .of_same hs rfl rfl⟩
  | true => exact hm hs (hb rfl)

/-- **So does a deletion in place.** -/
theorem tends_rbDelete (hs : SoundIn f w db t A) :
    ∃ b w', rbDelete db k w = (.ok b, w') ∧ Tends f w db A w' :=
  tends_deleteKey (fun hs hk => tends_deleteDestructive hs (isNil_of_mem hk.choose_spec.1)
    (removes_del destructive_sound ho (by rw [toList_paintRoot]; exact hs.sorted)
      (by rw [toList_paintRoot]; exact hk))) hs

/-- So does a persistent one of a key. -/
theorem tends_rbpDelete (hs : SoundIn f w db t A) :
    ∃ b w', rbpDelete db k w = (.ok b, w') ∧ Tends f w db A w' :=
  tends_deleteKey (fun hs hk => tends_deletePersistent hs (isNil_of_mem hk.choose_spec.1)
    (removes_del copying_sound ho (by rw [toList_paintRoot]; exact hs.sorted)
      (by rw [toList_paintRoot]; exact hk))) hs

omit ho in
/-- A deletion at one end, in one style or the other. -/
theorem tends_deleteEnd {m : ApiM K V Bool}
    (hm : ∀ {w t A}, SoundIn f w db t A → t.isNil = false →
      ∃ b w', m w = (.ok b, w') ∧ Tends f w db A w') (hs : SoundIn f w db t A) :
    ∃ b w', (do if !vector (← handleAt db).root then return false
                m) w = (.ok b, w') ∧ Tends f w db A w' := by
  obtain ⟨d, hd, -, hown⟩ := hs.stored
  rw [Cmd.bind_run_ok (handleAt_run hd), hown.vector_eq]
  cases hn : t.isNil with
  | true => exact ⟨false, w, rfl, .of_same hs rfl rfl⟩
  | false => exact hm hs hn

end Updates

theorem tends_rbDeleteMin (hs : SoundIn f w db t A) :
    ∃ b w', rbDeleteMin db w = (.ok b, w') ∧ Tends f w db A w' :=
  tends_deleteEnd (fun hs hn => tends_deleteDestructive hs hn
    (removes_delmin destructive_sound (by rw [toList_paintRoot]; exact hs.sorted))) hs

theorem tends_rbDeleteMax (hs : SoundIn f w db t A) :
    ∃ b w', rbDeleteMax db w = (.ok b, w') ∧ Tends f w db A w' :=
  tends_deleteEnd (fun hs hn => tends_deleteDestructive hs hn
    (removes_delmax destructive_sound (by rw [toList_paintRoot]; exact hs.sorted))) hs

theorem tends_rbpDeleteMin (hs : SoundIn f w db t A) :
    ∃ b w', rbpDeleteMin db w = (.ok b, w') ∧ Tends f w db A w' :=
  tends_deleteEnd (fun hs hn => tends_deletePersistent hs hn
    (removes_delmin copying_sound (by rw [toList_paintRoot]; exact hs.sorted))) hs

theorem tends_rbpDeleteMax (hs : SoundIn f w db t A) :
    ∃ b w', rbpDeleteMax db w = (.ok b, w') ∧ Tends f w db A w' :=
  tends_deleteEnd (fun hs hn => tends_deletePersistent hs hn
    (removes_delmax copying_sound (by rw [toList_paintRoot]; exact hs.sorted))) hs

end RbCal
