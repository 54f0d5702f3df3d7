import SecdScheme.RbCal.Upkeep
import SecdScheme.RbCal.Snapshots

/-!
# rbtree4.cal: order statistics

`places` lists the nodes of a tree in order, each with its key. On a sorted
tree with right sizes a selection, a rank, a floor, a ceiling and a range are
read off this list. The sizes are right in every state that a run of the
public operations reaches, `Orchard`: the handles have trees of their own, and
an operation on one of them tends its tree and leaves the others.
-/

namespace RbCal

open Llrb Llrb.Tree SortedAssoc

variable {K V : Type} {s s' : Heap K V} {w w' : World K V} {db fuel : ℕ} {d : Handle K}
  {t l r : Tree K V} {A B C : Set ℕ} {c : Color} {k k' : K} {v : V} {h hl hr : Link} {a : ℕ} {m : ℤ}
  {f : K → K → ℤ}

/-! ## The nodes in order -/

/-- **The nodes of a tree in order**, each with its key. -/
def Heap.places (s : Heap K V) : Tree K V → Link → List (ℕ × K)
  | .nil, _ => []
  | .node .., none => []
  | .node _ l k _ r, some a =>
    match s.get a with
    | some n => s.places l n.left ++ (a, k) :: s.places r n.right
    | none => []

theorem places_node (hget : s.get a = some ⟨hl, hr, c, k', v, m⟩) :
    s.places (.node c l k v r) (some a) = s.places l hl ++ (a, k) :: s.places r hr := by
  rw [Heap.places, hget]

/-- The keys of the places are those of the tree. -/
theorem map_places (ht : s.Top m h t A) : (s.places t h).map Prod.snd = keysOf t := by
  induction ht with
  | nil => rfl
  | node hget _ _ _ _ _ ihl ihr =>
    rw [places_node hget, List.map_append, List.map_cons, ihl, ihr]
    simp [keysOf, toList]

theorem length_places (ht : s.Top m h t A) : (s.places t h).length = t.size := by
  rw [← length_toList, ← List.length_map (f := Prod.snd), map_places ht, keysOf, List.length_map]

/-- **Every place is a node** of the region; its key is the one listed, and its
size the number of places below it. -/
theorem node_of_mem_places (ht : s.Own h t A) {p : ℕ × K} (hp : p ∈ s.places t h) :
    p.1 ∈ A ∧ ∃ n u, s.get p.1 = some n ∧ n.key = p.2 ∧ s.Own (some p.1) u A ∧
      n.size = (s.places u (some p.1)).length := by
  induction t generalizing h A with
  | nil => exact absurd hp (by simp [Heap.places])
  | node c l k d r ihl ihr =>
    have hown := ht
    cases ht with
    | node hget ha hl₀ hr₀ hB hC =>
      rw [places_node hget, List.mem_append, List.mem_cons] at hp
      rcases hp with hp | rfl | hp
      · obtain ⟨hin, n, u, hn, hkey, hu, hsize⟩ := ihl hl₀ hp
        exact ⟨(hB _ hin).1, n, u, hn, hkey, hu.mono fun x hx => (hB x hx).1, hsize⟩
      · exact ⟨ha, _, _, hget, rfl, hown, by rw [length_places hown]⟩
      · obtain ⟨hin, n, u, hn, hkey, hu, hsize⟩ := ihr hr₀ hp
        exact ⟨(hC _ hin).1, n, u, hn, hkey, hu.mono fun x hx => (hC x hx).1, hsize⟩

/-- No node is listed twice. -/
theorem nodup_places (ht : s.Top m h t A) : ((s.places t h).map Prod.fst).Nodup := by
  induction ht with
  | nil => exact List.nodup_nil
  | @node m a hl hr c l r k d A B C hget ha hl₀ hr₀ hB hC ihl ihr =>
    have hleft : ∀ x ∈ (s.places l hl).map Prod.fst, x ∈ B := fun x hx => by
      obtain ⟨p, hp, rfl⟩ := List.mem_map.mp hx
      exact (node_of_mem_places hl₀ hp).1
    have hright : ∀ x ∈ (s.places r hr).map Prod.fst, x ∈ C := fun x hx => by
      obtain ⟨p, hp, rfl⟩ := List.mem_map.mp hx
      exact (node_of_mem_places hr₀ hp).1
    rw [places_node hget, List.map_append, List.map_cons, List.nodup_append, List.nodup_cons]
    refine ⟨ihl, ⟨fun ha => (hC _ (hright _ ha)).2.1 rfl, ihr⟩, fun x hx y hy => ?_⟩
    rintro rfl
    rcases List.mem_cons.mp hy with rfl | hy
    · exact (hB _ (hleft _ hx)).2 rfl
    · exact (hC _ (hright _ hy)).2.2 (hleft _ hx)

/-- What a sorted tree says about the entries on either side of its root. -/
theorem entries_of_sorted (ho : KeyOrder (signOf f) fun _ => True) {l₁ l₂ : List (K × V)}
    {e : K × V} (hs : StrictlySorted (signOf f) (l₁ ++ e :: l₂)) :
    (0 ≤ f k e.1 → ∀ x ∈ l₁, 0 < f k x.1) ∧ (f k e.1 ≤ 0 → ∀ x ∈ l₂, f k x.1 < 0) :=
  ⟨fun hle x hx => signOf_gt.mp (hs.gt_left ho (fun _ _ => trivial) trivial
      (fun hlt => absurd (signOf_lt.mp hlt) (not_lt.mpr hle)) x hx),
    fun hle x hx => signOf_lt.mp (hs.lt_right_of ho (fun _ _ => trivial) trivial
      (fun hgt => absurd (signOf_gt.mp hgt) (not_lt.mpr hle)) x hx)⟩

/-- The same about its places. -/
theorem places_of_sorted (ho : KeyOrder (signOf f) fun _ => True) (hl₀ : s.Own hl l B)
    (hr₀ : s.Own hr r C) (hs : StrictlySorted (signOf f) (l.toList ++ (k', v) :: r.toList)) :
    (0 ≤ f k k' → ∀ p ∈ s.places l hl, 0 < f k p.2) ∧
      (f k k' ≤ 0 → ∀ p ∈ s.places r hr, f k p.2 < 0) := by
  obtain ⟨hleft, hright⟩ := entries_of_sorted (k := k) ho hs
  have hentry : ∀ {t : Tree K V} {h A}, s.Own h t A → ∀ p ∈ s.places t h, ∃ e ∈ t.toList,
      e.1 = p.2 := fun ht p hp =>
    List.mem_map.mp (map_places ht ▸ List.mem_map_of_mem hp : p.2 ∈ keysOf _)
  constructor
  · intro hle p hp
    obtain ⟨e, he, heq⟩ := hentry hl₀ p hp
    exact heq ▸ hleft hle e he
  · intro hle p hp
    obtain ⟨e, he, heq⟩ := hentry hr₀ p hp
    exact heq ▸ hright hle e he

/-! ## Selection -/

/-- **The `i`-th node.** -/
theorem rbiSelect_run (ht : s.Own h t A) (hf : t.size < fuel) (i : ℕ) :
    rbiSelect fuel h i s = (.ok (((s.places t h)[i]?).map Prod.fst), s) := by
  induction t generalizing h A fuel i with
  | nil =>
    obtain ⟨fuel, rfl⟩ := Nat.exists_eq_succ_of_ne_zero (Nat.ne_zero_of_lt hf)
    rw [ht.eq_none]
    rfl
  | node c l k d r ihl ihr =>
    obtain ⟨fuel, rfl⟩ := Nat.exists_eq_succ_of_ne_zero (Nat.ne_zero_of_lt hf)
    rw [Llrb.Tree.size] at hf
    cases ht with
    | @node _ a hl hr _ _ _ _ _ _ _ _ hget _ hl₀ hr₀ =>
      have hlen := length_places hl₀
      rw [rbiSelect, if_neg (by simp [vector]), Cmd.bind_run_ok (left_run hget),
        Cmd.bind_run_ok (rbiSize_run hl₀), places_node hget]
      rcases Nat.lt_trichotomy i l.size with hlt | heq | hgt
      · rw [if_pos (by exact_mod_cast hlt), Cmd.bind_run_ok (left_run hget),
          ihl hl₀ (by omega) i, List.getElem?_append_left (by omega)]
      · rw [if_neg (by omega), if_neg (by omega), heq,
          List.getElem?_append_right (by omega), hlen, Nat.sub_self]
        rfl
      · have hi : (i : ℤ) - l.size - 1 = ((i - l.size - 1 : ℕ) : ℤ) := by omega
        rw [if_neg (by omega), if_pos (by exact_mod_cast hgt), Cmd.bind_run_ok (right_run hget),
          hi, ihr hr₀ (by omega), List.getElem?_append_right (by omega), hlen,
          List.getElem?_cons, if_neg (by omega)]

/-! ## Rank, floor, ceiling and range -/

section Sorted

variable (ho : KeyOrder (signOf f) fun _ => True)

include ho

/-- **The rank of a key** is the number of keys below it. -/
theorem rbiRank_run (ht : s.Own h t A) (hs : StrictlySorted (signOf f) t.toList)
    (hf : t.size < fuel) :
    rbiRank fuel h k (comparing f) s
      = (.ok ((s.places t h).countP fun p => 0 < f k p.2 : ℕ), s) := by
  induction t generalizing h A fuel with
  | nil =>
    obtain ⟨fuel, rfl⟩ := Nat.exists_eq_succ_of_ne_zero (Nat.ne_zero_of_lt hf)
    rw [ht.eq_none]
    rfl
  | node c l k' d r ihl ihr =>
    obtain ⟨fuel, rfl⟩ := Nat.exists_eq_succ_of_ne_zero (Nat.ne_zero_of_lt hf)
    rw [Llrb.Tree.size] at hf
    rw [toList] at hs
    cases ht with
    | @node _ a hl hr _ _ _ _ _ _ _ _ hget _ hl₀ hr₀ =>
      obtain ⟨hleft, hright⟩ := places_of_sorted (k := k) ho hl₀ hr₀ hs
      have hlen := length_places hl₀
      rw [rbiRank, if_neg (by simp [vector]), Cmd.bind_run_ok (key_run hget),
        Cmd.bind_run_ok (compareKeys_run f k k' s), places_node hget, List.countP_append,
        List.countP_cons]
      have hall : 0 ≤ f k k' → (s.places l hl).countP (fun p => 0 < f k p.2) = l.size :=
        fun hle => by rw [← hlen, List.countP_eq_length]; simpa using hleft hle
      have hnone : f k k' ≤ 0 → (s.places r hr).countP (fun p => 0 < f k p.2) = 0 :=
        fun hle => by
          rw [List.countP_eq_zero]
          simpa using fun a b hp => (hright hle (a, b) hp).le
      rcases lt_trichotomy (f k k') 0 with hlt | heq | hgt
      · rw [if_pos hlt, Cmd.bind_run_ok (left_run hget), ihl hl₀ hs.left (by omega),
          hnone hlt.le]
        simp [hlt.not_gt]
      · rw [if_neg (by omega), if_neg (by omega), Cmd.bind_run_ok (left_run hget),
          rbiSize_run hl₀, hnone heq.le, hall heq.ge]
        simp [heq]
      · rw [if_neg (by omega), if_pos hgt, Cmd.bind_run_ok (left_run hget),
          Cmd.bind_run_ok (rbiSize_run hl₀), Cmd.bind_run_ok (right_run hget),
          Cmd.bind_run_ok (ihr hr₀ hs.right (by omega)), hall hgt.le]
        simp [hgt]
        omega

/-- **The floor of a key** is the last node whose key is not above it. -/
theorem rbiFloor_run (ht : s.Own h t A) (hs : StrictlySorted (signOf f) t.toList)
    (hf : t.size < fuel) :
    rbiFloor fuel h k (comparing f) s
      = (.ok ((((s.places t h).filter fun p => 0 ≤ f k p.2).getLast?).map Prod.fst), s) := by
  induction t generalizing h A fuel with
  | nil =>
    obtain ⟨fuel, rfl⟩ := Nat.exists_eq_succ_of_ne_zero (Nat.ne_zero_of_lt hf)
    rw [ht.eq_none]
    rfl
  | node c l k' d r ihl ihr =>
    obtain ⟨fuel, rfl⟩ := Nat.exists_eq_succ_of_ne_zero (Nat.ne_zero_of_lt hf)
    rw [Llrb.Tree.size] at hf
    rw [toList] at hs
    cases ht with
    | @node _ a hl hr _ _ _ _ _ _ _ _ hget _ hl₀ hr₀ =>
      have hright := (places_of_sorted (k := k) ho hl₀ hr₀ hs).2
      rw [rbiFloor, if_neg (by simp [vector]), Cmd.bind_run_ok (key_run hget),
        Cmd.bind_run_ok (compareKeys_run f k k' s), places_node hget, List.filter_append]
      have hnone : f k k' ≤ 0 → (s.places r hr).filter (fun p => 0 ≤ f k p.2) = [] := fun hle => by
        rw [List.filter_eq_nil_iff]
        simpa using fun a b hp => hright hle (a, b) hp
      rcases lt_trichotomy (f k k') 0 with hlt | heq | hgt
      · rw [if_neg (by omega), if_pos hlt, Cmd.bind_run_ok (left_run hget),
          ihl hl₀ hs.left (by omega), List.filter_cons_of_neg (by simpa using hlt), hnone hlt.le,
          List.append_nil]
      · rw [if_pos heq, List.filter_cons_of_pos (by simp [heq]), hnone heq.le]
        simp
      · rw [if_neg (by omega), if_neg (by omega), Cmd.bind_run_ok (right_run hget),
          Cmd.bind_run_ok (ihr hr₀ hs.right (by omega)),
          List.filter_cons_of_pos (by simpa using hgt.le)]
        cases hq : ((s.places r hr).filter fun p => 0 ≤ f k p.2) with
        | nil => simp [vector]
        | cons q qs => simp [vector, List.getLast?_append, List.getLast?_cons]

/-- **The ceiling of a key** is the first node whose key is not below it. -/
theorem rbiCeiling_run (ht : s.Own h t A) (hs : StrictlySorted (signOf f) t.toList)
    (hf : t.size < fuel) :
    rbiCeiling fuel h k (comparing f) s
      = (.ok ((((s.places t h).filter fun p => f k p.2 ≤ 0).head?).map Prod.fst), s) := by
  induction t generalizing h A fuel with
  | nil =>
    obtain ⟨fuel, rfl⟩ := Nat.exists_eq_succ_of_ne_zero (Nat.ne_zero_of_lt hf)
    rw [ht.eq_none]
    rfl
  | node c l k' d r ihl ihr =>
    obtain ⟨fuel, rfl⟩ := Nat.exists_eq_succ_of_ne_zero (Nat.ne_zero_of_lt hf)
    rw [Llrb.Tree.size] at hf
    rw [toList] at hs
    cases ht with
    | @node _ a hl hr _ _ _ _ _ _ _ _ hget _ hl₀ hr₀ =>
      have hleft := (places_of_sorted (k := k) ho hl₀ hr₀ hs).1
      rw [rbiCeiling, if_neg (by simp [vector]), Cmd.bind_run_ok (key_run hget),
        Cmd.bind_run_ok (compareKeys_run f k k' s), places_node hget, List.filter_append]
      have hnone : 0 ≤ f k k' → (s.places l hl).filter (fun p => f k p.2 ≤ 0) = [] := fun hle => by
        rw [List.filter_eq_nil_iff]
        simpa using fun a b hp => hleft hle (a, b) hp
      rcases lt_trichotomy (f k k') 0 with hlt | heq | hgt
      · rw [if_neg (by omega), if_neg (by omega), Cmd.bind_run_ok (left_run hget),
          Cmd.bind_run_ok (ihl hl₀ hs.left (by omega)),
          List.filter_cons_of_pos (by simpa using hlt.le)]
        cases hq : ((s.places l hl).filter fun p => f k p.2 ≤ 0) with
        | nil => simp [vector]
        | cons q qs => simp [vector]
      · rw [if_pos heq, List.filter_cons_of_pos (by simp [heq]), hnone heq.ge]
        simp
      · rw [if_neg (by omega), if_pos hgt, Cmd.bind_run_ok (right_run hget),
          ihr hr₀ hs.right (by omega), List.filter_cons_of_neg (by simpa using hgt), hnone hgt.le,
          List.nil_append]

omit ho in
/-- A choice before the rest of a run, in the form the do-block takes. -/
theorem bind_ite_run {α β : Type} {m m' : CalM K V β} {g : β → CalM K V α} {p : Prop}
    [Decidable p] {x : β} (hm : (if p then m else m') s = (.ok x, s')) :
    (if p then m >>= g else m' >>= g) s = g x s' := by
  by_cases hp : p
  · rw [if_pos hp] at hm ⊢
    exact Cmd.bind_run_ok hm g
  · rw [if_neg hp] at hm ⊢
    exact Cmd.bind_run_ok hm g

/-- **A range** visits the keys between its bounds, in order. -/
theorem rbiRange_run {lo hi : K} (ht : s.Own h t A) (hs : StrictlySorted (signOf f) t.toList)
    (hf : t.size < fuel) :
    rbiRange fuel h lo hi (comparing f) s
      = (.ok (t.toList.filter fun e => f lo e.1 ≤ 0 ∧ 0 ≤ f hi e.1), s) := by
  induction t generalizing h A fuel with
  | nil =>
    obtain ⟨fuel, rfl⟩ := Nat.exists_eq_succ_of_ne_zero (Nat.ne_zero_of_lt hf)
    rw [ht.eq_none]
    rfl
  | node c l k' d r ihl ihr =>
    obtain ⟨fuel, rfl⟩ := Nat.exists_eq_succ_of_ne_zero (Nat.ne_zero_of_lt hf)
    rw [Llrb.Tree.size] at hf
    rw [toList] at hs
    cases ht with
    | @node _ a hl hr _ _ _ _ _ _ _ _ hget _ hl₀ hr₀ =>
      rw [rbiRange, if_pos (show vector (some a) = true from rfl), Cmd.bind_run_ok (key_run hget),
        Cmd.bind_run_ok (compareKeys_run f lo k' s), Cmd.bind_run_ok (key_run hget),
        Cmd.bind_run_ok (compareKeys_run f hi k' s)]
      have hbefore : (if f lo k' < 0 then (do rbiRange fuel (← left (some a)) lo hi (comparing f))
          else pure [] : CalM K V (List (K × V))) s
            = (.ok (l.toList.filter fun e => f lo e.1 ≤ 0 ∧ 0 ≤ f hi e.1), s) := by
        by_cases hlo : f lo k' < 0
        · rw [if_pos hlo, Cmd.bind_run_ok (left_run hget)]
          exact ihl hl₀ hs.left (by omega)
        · have hempty : (l.toList.filter fun e => f lo e.1 ≤ 0 ∧ 0 ≤ f hi e.1) = [] := by
            rw [List.filter_eq_nil_iff]
            intro e he
            have := (entries_of_sorted (k := lo) ho hs).1 (not_lt.mp hlo) e he
            simp [this]
          rw [if_neg hlo, hempty]
          rfl
      have hpair : (if f lo k' ≤ 0 ∧ f hi k' ≥ 0
          then (do return [(← key (some a), ← data (some a))])
          else pure [] : CalM K V (List (K × V))) s
            = (.ok ([(k', d)].filter fun e => f lo e.1 ≤ 0 ∧ 0 ≤ f hi e.1), s) := by
        by_cases hin : f lo k' ≤ 0 ∧ f hi k' ≥ 0
        · rw [if_pos hin, Cmd.bind_run_ok (key_run hget), Cmd.bind_run_ok (data_run hget),
            List.filter_cons_of_pos (by simpa using hin)]
          rfl
        · rw [if_neg hin, List.filter_cons_of_neg (by simpa using hin)]
          rfl
      have hafter : (if f hi k' > 0 then (do rbiRange fuel (← right (some a)) lo hi (comparing f))
          else pure [] : CalM K V (List (K × V))) s
            = (.ok (r.toList.filter fun e => f lo e.1 ≤ 0 ∧ 0 ≤ f hi e.1), s) := by
        by_cases hhi : f hi k' > 0
        · rw [if_pos hhi, Cmd.bind_run_ok (right_run hget)]
          exact ihr hr₀ hs.right (by omega)
        · have hempty : (r.toList.filter fun e => f lo e.1 ≤ 0 ∧ 0 ≤ f hi e.1) = [] := by
            rw [List.filter_eq_nil_iff]
            intro e he
            have := (entries_of_sorted (k := hi) ho hs).2 (not_lt.mp hhi) e he
            simp [this]
          rw [if_neg hhi, hempty]
          rfl
      refine (bind_ite_run hbefore).trans ((bind_ite_run hpair).trans
        ((bind_ite_run hafter).trans ?_))
      rw [toList, List.filter_append, ← List.singleton_append (l := r.toList), List.filter_append,
        ← List.append_assoc]
      rfl

end Sorted

/-! ## Runs -/

/-- **The operations of a run**: every handle is made with a strict total order,
and none is made from the root of another tree. -/
def Op.Ordered : Op K V → Prop
  | .new cmp => ∃ f, KeyOrder (signOf f) (fun _ => True) ∧ cmp = comparing f
  | .fromRoot .. => False
  | .pFromRoot .. => False
  | _ => True

/-- **Every handle has a sound tree of its own.** -/
structure Orchard (w : World K V) (A : ℕ → Set ℕ) : Prop where
  below : ∀ i, ∀ x ∈ A i, x < w.heap.nodes.length
  apart : ∀ i j, i ≠ j → ∀ x ∈ A i, x ∉ A j
  sound : ∀ db d, w.handles[db]? = some d →
    ∃ f t, KeyOrder (signOf f) (fun _ => True) ∧ SoundIn f w db t (A db)

namespace Orchard

variable {A : ℕ → Set ℕ}

theorem SoundIn.frame {f : K → K → ℤ} {A : Set ℕ} (hs : SoundIn f w db t A)
    (hd : w'.handles[db]? = w.handles[db]?)
    (hA : ∀ x ∈ A, x < w.heap.nodes.length → w'.heap.get x = w.heap.get x) :
    SoundIn f w' db t A := by
  obtain ⟨⟨d, hd', hcmp, hown⟩, hb, hsorted⟩ := hs
  exact ⟨⟨d, hd.trans hd', hcmp, Heap.Top.frame hown hA⟩, hb, hsorted⟩

theorem of_same (hw : Orchard w A) (hheap : w'.heap = w.heap) (hh : w'.handles = w.handles) :
    Orchard w' A where
  below i x hx := hheap ▸ hw.below i x hx
  apart := hw.apart
  sound db d hd := by
    obtain ⟨f, t, ho, hs⟩ := hw.sound db d (hh ▸ hd)
    exact ⟨f, t, ho, SoundIn.frame hs (by rw [hh]) fun x _ _ => by rw [hheap]⟩

/-- **An operation on one handle tends its tree**, and the others stay. -/
theorem tends (hw : Orchard w A) (ho : KeyOrder (signOf f) fun _ => True)
    (ht : Tends f w db (A db) w') : ∃ A', Orchard w' A' := by
  obtain ⟨hg, ⟨e, hset⟩, t, hs⟩ := ht
  have hup : ∀ i, i ≠ db → ∀ x ∈ A i, x ∉ w.heap.upTo (A db) w'.heap := by
    rintro i hi x hx (hx' | hx')
    · exact hw.apart i db hi x hx hx'
    · exact absurd (hw.below i x hx) (not_lt.mpr hx'.1)
  refine ⟨Function.update A db (w.heap.upTo (A db) w'.heap), fun i x hx => ?_,
    fun i j hij x hx hx' => ?_, fun i d hd => ?_⟩
  · by_cases hi : i = db
    · subst hi
      rw [Function.update_self] at hx
      exact hx.elim (fun hx => (hw.below i x hx).trans_le hg.length) fun hx => hx.2
    · rw [Function.update_of_ne hi] at hx
      exact (hw.below i x hx).trans_le hg.length
  · by_cases hi : i = db
    · subst hi
      rw [Function.update_self] at hx
      rw [Function.update_of_ne hij.symm] at hx'
      exact hup j hij.symm x hx' hx
    · rw [Function.update_of_ne hi] at hx
      by_cases hj : j = db
      · subst hj
        rw [Function.update_self] at hx'
        exact hup i hij x hx hx'
      · rw [Function.update_of_ne hj] at hx'
        exact hw.apart i j hij x hx hx'
  · by_cases hi : i = db
    · subst hi
      rw [Function.update_self]
      exact ⟨f, t, ho, hs⟩
    · have hsame : w'.handles[i]? = w.handles[i]? := by
        rw [hset, List.getElem?_set_ne (Ne.symm hi)]
      obtain ⟨g, u, ho', hs'⟩ := hw.sound i d (hsame ▸ hd)
      rw [Function.update_of_ne hi]
      exact ⟨g, u, ho', SoundIn.frame hs' hsame fun x hx hlt =>
        hg.get x hlt (hw.apart i db hi x hx)⟩

/-- **A public function on one handle**, wherever the handle may be missing. -/
theorem step_handle {α : Type} {m : ApiM K V α} (hw : Orchard w A)
    (hm : ∀ f t, KeyOrder (signOf f) (fun _ => True) → SoundIn f w db t (A db) →
      ∃ x w', m w = (.ok x, w') ∧ Tends f w db (A db) w')
    (hno : w.handles[db]? = none → (m w).2.heap = w.heap ∧ (m w).2.handles = w.handles) :
    ∃ A', Orchard (m w).2 A' := by
  cases hd : w.handles[db]? with
  | none => exact ⟨A, hw.of_same (hno hd).1 (hno hd).2⟩
  | some d =>
    obtain ⟨f, t, ho, hs⟩ := hw.sound db d hd
    obtain ⟨x, w', hrun, ht⟩ := hm f t ho hs
    rw [hrun]
    exact hw.tends ho ht

/-- A public function that only reads. -/
theorem step_reads {α : Type} {m : ApiM K V α} (hw : Orchard w A) (hm : Cmd.Reads m) :
    ∃ A', Orchard (m w).2 A' :=
  ⟨A, by rw [hm w]; exact hw⟩

/-- A new handle has an empty tree. -/
theorem step_new (hw : Orchard w A) (ho : KeyOrder (signOf f) fun _ => True) :
    ∃ A', Orchard (rbNew (comparing f) w).2 A' := by
  have hrun : (rbNew (comparing f) w).2
      = { w with handles := w.handles ++ [⟨none, comparing f, some .free⟩] } := rfl
  rw [hrun]
  refine ⟨Function.update A w.handles.length ∅, fun i x hx => ?_, fun i j hij x hx hx' => ?_,
    fun i d hd => ?_⟩
  · by_cases hi : i = w.handles.length
    · subst hi
      rw [Function.update_self] at hx
      exact hx.elim
    · rw [Function.update_of_ne hi] at hx
      exact hw.below i x hx
  · by_cases hi : i = w.handles.length
    · subst hi
      rw [Function.update_self] at hx
      exact hx.elim
    · by_cases hj : j = w.handles.length
      · subst hj
        rw [Function.update_self] at hx'
        exact hx'.elim
      · rw [Function.update_of_ne hi] at hx
        rw [Function.update_of_ne hj] at hx'
        exact hw.apart i j hij x hx hx'
  · by_cases hi : i = w.handles.length
    · subst hi
      exact ⟨f, .nil, ho, ⟨⟨none, comparing f, some .free⟩, List.getElem?_concat_length, rfl,
        .nil _ _⟩, ⟨0, .nil⟩, List.Pairwise.nil⟩
    · have hsame : (w.handles ++ [⟨none, comparing f, some .free⟩])[i]? = w.handles[i]? := by
        rcases Nat.lt_or_gt_of_ne hi with hlt | hgt
        · rw [List.getElem?_append_left hlt]
        · rw [List.getElem?_eq_none (by simp; omega), List.getElem?_eq_none (by omega)]
      obtain ⟨g, u, ho', hs⟩ := hw.sound i d (hsame ▸ hd)
      rw [Function.update_of_ne hi]
      exact ⟨g, u, ho', SoundIn.frame hs hsame fun _ _ _ => rfl⟩

/-! ### The other operations -/

theorem tends_rbClear (hs : SoundIn f w db t B) :
    ∃ x w', rbClear db w = (.ok x, w') ∧ Tends f w db B w' := by
  obtain ⟨d, hd, hcmp, -⟩ := hs.stored
  rw [rbClear, Cmd.bind_run_ok (handleAt_run hd)]
  by_cases hread : d.mode = some .read
  · rw [if_pos hread]
    exact ⟨(), _, rfl, .of_same hs rfl rfl⟩
  · rw [if_neg hread]
    let w₁ : World K V := { w with handles := w.handles.set db { d with root := none } }
    have hset : setRoot db none w = (.ok (), w₁) := updateHandle_run _ hd
    have hd₁ : w₁.handles[db]? = some { d with root := none } := getElem?_set_handle _ hd
    have hempty : ∀ e : Handle K, e.root = none → e.cmp = d.cmp →
        Tends f w db B { w with handles := w.handles.set db e } := fun e hroot he =>
      ⟨.refl B w.heap, ⟨e, rfl⟩, .nil, ⟨e, getElem?_set_handle _ hd, he.trans hcmp,
        by rw [hroot]; exact .nil _ _⟩, ⟨0, .nil⟩, List.Pairwise.nil⟩
    rw [Cmd.bind_run_ok hset, Cmd.bind_run_ok (handleAt_run hd₁)]
    by_cases hmode : d.mode.isSome = true
    · refine ⟨(), { w with handles := w.handles.set db ⟨none, d.cmp, some .free⟩ }, ?_,
        hempty _ rfl rfl⟩
      rw [if_pos (show ({ d with root := none } : Handle K).mode.isSome = true from hmode)]
      refine (updateHandle_run _ hd₁).trans ?_
      simp only [w₁, List.set_set]
    · rw [if_neg (show ¬ ({ d with root := none } : Handle K).mode.isSome = true from hmode)]
      exact ⟨(), w₁, rfl, hempty _ rfl rfl⟩

theorem tends_rbpSnapshot (hs : SoundIn f w db t B) :
    ∃ x w', rbpSnapshot db w = (.ok x, w') ∧ Tends f w db B w' := by
  obtain ⟨d, hd, -, -⟩ := hs.stored
  rw [rbpSnapshot, Cmd.bind_run_ok (handleAt_run hd)]
  by_cases hmode : d.mode.isSome ∧ d.mode ≠ some .read
  · have hset : setMode db .pers w
        = (.ok (), { w with handles := w.handles.set db { d with mode := some .pers } }) :=
      updateHandle_run _ hd
    rw [if_pos hmode]
    refine ⟨_, _, (Cmd.bind_run_ok hset _).trans
      (Cmd.bind_run_ok (handleAt_run (getElem?_set_handle _ hd)) _), ?_⟩
    exact .of_eq hs hd (e := { d with mode := some .pers }) rfl rfl rfl rfl
  · rw [if_neg hmode]
    exact ⟨_, w, Cmd.bind_run_ok (handleAt_run hd) _, .of_same hs rfl rfl⟩

/-- A command whose first part fails where it starts. -/
theorem same_of_error {α β : Type} {m : ApiM K V β} {g : β → ApiM K V α} {e : CalError}
    (hm : m w = (.error e, w)) :
    ((m >>= g) w).2.heap = w.heap ∧ ((m >>= g) w).2.handles = w.handles := by
  rw [Cmd.bind_run_error hm]
  exact ⟨rfl, rfl⟩

theorem rbContains_missing (hd : w.handles[db]? = none) :
    rbContains db k w = (.error .notVector, w) := by
  have hnode : rbSearchNode db k w = (.error .notVector, w) :=
    Cmd.bind_run_error (handleAt_missing hd) _
  exact Cmd.bind_run_error hnode _

/-- **One operation of a run.** -/
theorem step {st : State K V} (hw : Orchard st.world A) {op : Op K V} (hop : op.Ordered) :
    ∃ A', Orchard (st.step op).world A' := by
  cases op with
  | new cmp =>
    obtain ⟨f, ho, rfl⟩ := hop
    exact hw.step_new ho
  | fromRoot | pFromRoot => exact hop.elim
  | misuseReset => exact ⟨A, hw.of_same rfl rfl⟩
  | size db => exact hw.step_reads Session.reads_rbSize
  | isEmpty db => exact hw.step_reads Session.reads_rbIsEmpty
  | searchNode db k => exact hw.step_reads Session.reads_rbSearchNode
  | contains db k => exact hw.step_reads Session.reads_rbContains
  | key n => exact hw.step_reads Session.reads_rbKey
  | value n => exact hw.step_reads Session.reads_rbValue
  | get db k default => exact hw.step_reads Session.reads_rbGet
  | minNode db => exact hw.step_reads Session.reads_rbMinNode
  | maxNode db => exact hw.step_reads Session.reads_rbMaxNode
  | floorNode db k => exact hw.step_reads Session.reads_rbFloorNode
  | ceilingNode db k => exact hw.step_reads Session.reads_rbCeilingNode
  | rank db k => exact hw.step_reads Session.reads_rbRank
  | selectNode db i => exact hw.step_reads Session.reads_rbSelectNode
  | foreach db => exact hw.step_reads Session.reads_rbForeach
  | range db lo hi => exact hw.step_reads Session.reads_rbRange
  | clear db =>
    exact hw.step_handle (fun f t _ hs => tends_rbClear hs)
      fun hd => same_of_error (handleAt_missing hd)
  | snapshot db =>
    have hworld : (st.step (.snapshot db)).world = (rbpSnapshot db st.world).2 := by
      simp only [State.step]
      rcases rbpSnapshot db st.world with ⟨_ | _, _⟩ <;> rfl
    rw [hworld]
    exact hw.step_handle (fun f t _ hs => tends_rbpSnapshot hs)
      fun hd => same_of_error (handleAt_missing hd)
  | put db k v =>
    exact hw.step_handle (fun f t ho hs => tends_rbPut ho hs)
      (guards_rbiWantDestructive db).same
  | fromSorted db vs =>
    exact hw.step_handle (fun f t ho hs => tends_rbFromSorted ho vs hs)
      (guards_rbiWantDestructive db).same
  | pPut db k v =>
    exact hw.step_handle (fun f t ho hs => tends_rbpPut ho hs)
      (guards_rbiWantPersistent db).same
  | delete db k =>
    exact hw.step_handle (fun f t ho hs => tends_rbDelete ho hs)
      fun hd => same_of_error (rbContains_missing hd)
  | pSetValue db k v =>
    exact hw.step_handle (fun f t ho hs => tends_rbpSetValue ho hs)
      fun hd => same_of_error (rbContains_missing hd)
  | pDelete db k =>
    exact hw.step_handle (fun f t ho hs => tends_rbpDelete ho hs)
      fun hd => same_of_error (rbContains_missing hd)
  | deleteMin db =>
    exact hw.step_handle (fun f t _ hs => tends_rbDeleteMin hs)
      fun hd => same_of_error (handleAt_missing hd)
  | deleteMax db =>
    exact hw.step_handle (fun f t _ hs => tends_rbDeleteMax hs)
      fun hd => same_of_error (handleAt_missing hd)
  | pDeleteMin db =>
    exact hw.step_handle (fun f t _ hs => tends_rbpDeleteMin hs)
      fun hd => same_of_error (handleAt_missing hd)
  | pDeleteMax db =>
    exact hw.step_handle (fun f t _ hs => tends_rbpDeleteMax hs)
      fun hd => same_of_error (handleAt_missing hd)

/-- **A run** keeps every handle's tree sound. -/
theorem run {ops : List (Op K V)} {st : State K V} (hw : Orchard st.world A)
    (hops : ∀ op ∈ ops, op.Ordered) : ∃ A', Orchard (st.run ops).world A' := by
  induction ops generalizing st A with
  | nil => exact ⟨A, hw⟩
  | cons op ops ih =>
    obtain ⟨A', hw'⟩ := hw.step (hops op List.mem_cons_self)
    exact ih hw' fun op hop => hops op (List.mem_cons_of_mem _ hop)

/-- Nothing is planted at the start. -/
theorem start : Orchard (State.start : State K V).world fun _ => ∅ where
  below _ _ hx := hx.elim
  apart _ _ _ _ hx := hx.elim
  sound db d hd := absurd hd (by simp [State.start])

end Orchard

/-! ## The order statistics of a tree -/

/-- **What is read off the tree of a handle.** The keys ascend, each node is
listed once, with the size it has, and every query answers from the list. -/
structure OrderStatistics (f : K → K → ℤ) (w : World K V) (db : ℕ) (d : Handle K) (t : Tree K V)
    (A : Set ℕ) : Prop where
  stored : w.handles[db]? = some d ∧ d.cmp = comparing f ∧ w.heap.Own d.root t A
  keys : (w.heap.places t d.root).map Prod.snd = keysOf t
  ascending : (keysOf t).Pairwise (f · · < 0)
  distinct : ((w.heap.places t d.root).map Prod.fst).Nodup
  sizes : ∀ p ∈ w.heap.places t d.root, ∃ n u, w.heap.get p.1 = some n ∧ n.key = p.2 ∧
    w.heap.Own (some p.1) u A ∧ n.size = (w.heap.places u (some p.1)).length
  select : ∀ i : ℤ, rbSelectNode db i w
    = (.ok (if 0 ≤ i then ((w.heap.places t d.root)[i.toNat]?).map Prod.fst else none), w)
  rank : ∀ k, rbRank db k w = (.ok ((keysOf t).countP fun x => f x k < 0 : ℕ), w)
  floor : ∀ k, rbFloorNode db k w
    = (.ok ((((w.heap.places t d.root).filter fun p => f p.2 k ≤ 0).getLast?).map Prod.fst), w)
  ceiling : ∀ k, rbCeilingNode db k w
    = (.ok ((((w.heap.places t d.root).filter fun p => 0 ≤ f p.2 k).head?).map Prod.fst), w)
  range : ∀ lo hi, rbRange db lo hi w
    = (.ok (t.toList.filter fun e => f lo e.1 ≤ 0 ∧ f e.1 hi ≤ 0), w)

/-- The signs of a comparison are opposite both ways. -/
theorem neg_iff_pos (ho : KeyOrder (signOf f) fun _ => True) {a b : K} : f a b < 0 ↔ 0 < f b a := by
  rw [← signOf_lt, ← gt_iff_lt, ← signOf_gt]
  exact (ho.gt_iff trivial trivial).symm

theorem nonneg_iff_nonpos (ho : KeyOrder (signOf f) fun _ => True) {a b : K} :
    0 ≤ f a b ↔ f b a ≤ 0 := by
  rw [← not_lt, ← not_lt, neg_iff_pos ho]

theorem SoundIn.orderStatistics (ho : KeyOrder (signOf f) fun _ => True)
    (hs : SoundIn f w db t A) : ∃ d, OrderStatistics f w db d t A := by
  obtain ⟨⟨d, hd, hcmp, hown⟩, -, hsorted⟩ := hs
  have hfuel : t.size < w.heap.nodes.length + 1 := Nat.lt_succ_of_le hown.size_le
  have hquery : ∀ {α : Type} (m : ℕ → Link → Comparator K → CalM K V α) (x : α),
      m (w.heap.nodes.length + 1) d.root (comparing f) w.heap = (.ok x, w.heap) →
        (do let d ← handleAt db
            onHeap (m (← depthBound) d.root d.cmp) : ApiM K V α) w = (.ok x, w) := by
    intro α m x hrun
    rw [Cmd.bind_run_ok (handleAt_run hd), Cmd.bind_run_ok (depthBound_run w), hcmp, onHeap, hrun]
  refine ⟨d, ⟨hd, hcmp, hown⟩, map_places hown, List.pairwise_map.mpr ?_, nodup_places hown,
    fun p hp => (node_of_mem_places hown hp).2, fun i => ?_, fun k => ?_, fun k => ?_, fun k => ?_,
    fun lo hi => ?_⟩
  · exact hsorted.imp fun h => signOf_lt.mp h
  · by_cases hi : 0 ≤ i
    · obtain ⟨n, rfl⟩ := Int.eq_ofNat_of_zero_le hi
      rw [if_pos hi, rbSelectNode, if_neg (by omega)]
      exact hquery (fun fuel h _ => rbiSelect fuel h n) _ (rbiSelect_run hown hfuel n)
    · rw [if_neg hi, rbSelectNode, if_pos (by omega)]
      rfl
  · refine hquery (fun fuel h cmp => rbiRank fuel h k cmp) _
      ((rbiRank_run ho hown hsorted hfuel).trans ?_)
    rw [← map_places hown, List.countP_map]
    simp only [Function.comp_def, neg_iff_pos ho]
  · refine hquery (fun fuel h cmp => rbiFloor fuel h k cmp) _
      ((rbiFloor_run ho hown hsorted hfuel).trans ?_)
    simp only [nonneg_iff_nonpos ho]
  · refine hquery (fun fuel h cmp => rbiCeiling fuel h k cmp) _
      ((rbiCeiling_run ho hown hsorted hfuel).trans ?_)
    simp only [nonneg_iff_nonpos ho]
  · refine hquery (fun fuel h cmp => rbiRange fuel h lo hi cmp) _
      ((rbiRange_run ho hown hsorted hfuel).trans ?_)
    simp only [nonneg_iff_nonpos ho]

/-- **Order statistics**: after every run of the public operations, in which the
handles are made with strict total orders and none from the root of another
tree, the tree of every handle has right sizes, and selection, rank, floor,
ceiling and range answer from its keys in order. -/
theorem run_orderStatistics (ops : List (Op K V)) (hops : ∀ op ∈ ops, op.Ordered) (db : ℕ)
    (d : Handle K) (hd : (State.start.run ops).world.handles[db]? = some d) :
    ∃ f t A, KeyOrder (signOf f) (fun _ => True) ∧
      OrderStatistics f (State.start.run ops).world db d t A := by
  obtain ⟨A, hw⟩ := Orchard.start.run hops
  obtain ⟨f, t, ho, hs⟩ := hw.sound db d hd
  obtain ⟨e, hstat⟩ := SoundIn.orderStatistics ho hs
  obtain rfl : d = e := Option.some.inj (hd.symm.trans hstat.stored.1)
  exact ⟨f, t, A db, ho, hstat⟩

theorem keyOrder_sub : KeyOrder (signOf fun a b : ℤ => a - b) fun _ => True where
  eq_iff _ _ := signOf_eq.trans (by omega)
  gt_iff _ _ := signOf_gt.trans (Iff.trans (by omega) signOf_lt.symm)
  trans _ _ _ hab hbc := by
    rw [signOf_lt] at hab hbc ⊢
    omega

/-- Insertions in both styles and a persistent deletion. -/
theorem run_orderStatistics_numbers :
    let ops : List (Op ℤ String) := [.new (comparing fun a b => a - b), .put 0 2 "b",
      .put 0 1 "a", .pPut 0 3 "c", .pDeleteMin 0]
    ∃ d f t A, KeyOrder (signOf f) (fun _ => True) ∧
      OrderStatistics f (State.start.run ops).world 0 d t A := by
  intro ops
  have hsome : ((State.start.run ops).world.handles[0]?).isSome = true := by decide +kernel
  obtain ⟨d, hd⟩ := Option.isSome_iff_exists.mp hsome
  refine ⟨d, run_orderStatistics ops ?_ 0 d hd⟩
  simp only [ops, List.forall_mem_cons, List.not_mem_nil, false_implies, implies_true, and_true]
  exact ⟨⟨_, keyOrder_sub, rfl⟩, trivial, trivial, trivial, trivial⟩

end RbCal
