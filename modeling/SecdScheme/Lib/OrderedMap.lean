import SecdScheme.Lib.SortedAssoc
import Mathlib.Algebra.BigOperators.Group.List.Basic
import Mathlib.Algebra.GroupWithZero.Nat
import Mathlib.Logic.Function.Basic

/-!
# Finite maps over an order

What an ordered map is for: a partial function from keys to data, updated
and erased at a key, from which the least key can be removed. A sorted
association list represents such a map when its pairs are those of the map,
and then the three operations on lists represent the three on maps.
-/

namespace OrderedMap

open SortedAssoc

variable {K D : Type}

section Operations

variable [DecidableEq K]

/-- The map with `k` bound to `d`. -/
def insert (m : K → Option D) (k : K) (d : D) : K → Option D :=
  Function.update m k (some d)

/-- The map without `k`. -/
def erase (m : K → Option D) (k : K) : K → Option D :=
  Function.update m k none

end Operations

open Classical in
/-- The map without its least key: what is kept are the keys that have a
smaller one. -/
noncomputable def removeLeast (ord : K → K → Ordering) (m : K → Option D) : K → Option D :=
  fun k => if ∃ k', (m k').isSome ∧ ord k' k = .lt then m k else none

/-- **A sorted list represents a map**: its pairs are those of the map. -/
structure Represents (ord : K → K → Ordering) (Dom : K → Prop) (l : List (K × D))
    (m : K → Option D) : Prop where
  sorted : StrictlySorted ord l
  keys : KeysIn Dom l
  mem_iff : ∀ k d, (k, d) ∈ l ↔ m k = some d

namespace Represents

variable {ord : K → K → Ordering} {Dom : K → Prop} {l : List (K × D)} {m : K → Option D}

theorem empty : Represents ord Dom ([] : List (K × D)) (fun _ => none) :=
  ⟨List.Pairwise.nil, by simp [KeysIn], by simp⟩

/-- **A lookup answers what the map holds.** -/
theorem lookup_eq (ho : KeyOrder ord Dom) (h : Represents ord Dom l m) {k : K} (hk : Dom k) :
    lookup ord k l = m k := by
  refine Option.ext (fun d => ?_)
  rw [lookup_eq_some_iff ho h.sorted h.keys hk, h.mem_iff]

theorem dom_of_eq_some (h : Represents ord Dom l m) {k : K} {d : D} (hk : m k = some d) :
    Dom k :=
  h.keys _ ((h.mem_iff k d).mpr hk)

/-- A sorted list whose lookups are those of a map on the domain represents
the map, when the map holds nothing else. -/
theorem of_lookup (ho : KeyOrder ord Dom) (hs : StrictlySorted ord l) (hd : KeysIn Dom l)
    (hm : ∀ k, Dom k → lookup ord k l = m k) (hout : ∀ k, ¬ Dom k → m k = none) :
    Represents ord Dom l m := by
  refine ⟨hs, hd, fun k d => ?_⟩
  by_cases hk : Dom k
  · rw [← lookup_eq_some_iff ho hs hd hk, hm k hk]
  · rw [hout k hk]
    exact ⟨fun h => absurd (hd _ h) hk, fun h => absurd h (by simp)⟩

theorem eq_none (h : Represents ord Dom l m) {k : K} (hk : ¬ Dom k) : m k = none := by
  cases hm : m k with
  | none => rfl
  | some d => exact absurd (h.dom_of_eq_some hm) hk

section Update

variable [DecidableEq K]

theorem insertSorted (ho : KeyOrder ord Dom) (h : Represents ord Dom l m) {k : K} (d : D)
    (hk : Dom k) : Represents ord Dom (insertSorted ord k d l) (insert m k d) := by
  refine of_lookup ho (h.sorted.insert ho h.keys hk) (h.keys.insert hk) (fun a ha => ?_)
    (fun a ha => ?_)
  · rw [lookup_insertSorted ho h.keys hk ha, h.lookup_eq ho ha, OrderedMap.insert,
      Function.update_apply]
    simp only [ho.eq_iff ha hk]
  · rw [OrderedMap.insert, Function.update_of_ne (fun hak : a = k => ha (hak ▸ hk)), h.eq_none ha]

theorem eraseKey (ho : KeyOrder ord Dom) (h : Represents ord Dom l m) {k : K} (hk : Dom k) :
    Represents ord Dom (eraseKey ord k l) (erase m k) := by
  refine of_lookup ho h.sorted.erase h.keys.erase (fun a ha => ?_) (fun a ha => ?_)
  · rw [lookup_eraseKey ho h.keys hk ha, h.lookup_eq ho ha, OrderedMap.erase,
      Function.update_apply]
    simp only [ho.eq_iff ha hk]
  · rw [OrderedMap.erase, Function.update_of_ne (fun hak : a = k => ha (hak ▸ hk)), h.eq_none ha]

end Update

/-- **The tail of the list is the map without its least key.** -/
theorem tail (ho : KeyOrder ord Dom) (h : Represents ord Dom l m) :
    Represents ord Dom l.tail (removeLeast ord m) := by
  cases l with
  | nil =>
    refine ⟨List.Pairwise.nil, by simp [KeysIn], fun k d => ?_⟩
    have hm : m k = none := by
      cases hm : m k with
      | none => rfl
      | some d' => exact absurd ((h.mem_iff k d').mpr hm) (by simp)
    simp [removeLeast, hm]
  | cons e l =>
    obtain ⟨he, hl⟩ := List.pairwise_cons.mp h.sorted
    refine ⟨hl, fun x hx => h.keys x (List.mem_cons_of_mem _ hx), fun k d => ?_⟩
    have hek : m e.1 = some e.2 := (h.mem_iff e.1 e.2).mp List.mem_cons_self
    have hde : Dom e.1 := h.keys e List.mem_cons_self
    rw [List.tail_cons, removeLeast]
    constructor
    · intro hkd
      rw [if_pos ⟨e.1, by rw [hek]; rfl, he _ hkd⟩]
      exact (h.mem_iff k d).mp (List.mem_cons_of_mem _ hkd)
    · intro hkd
      split at hkd
      · rename_i hsmaller
        obtain ⟨k', hk', hlt⟩ := hsmaller
        obtain ⟨d', hd'⟩ := Option.isSome_iff_exists.mp hk'
        rcases List.mem_cons.mp ((h.mem_iff k d).mpr hkd) with hke | hkl
        · -- the least key has no smaller one
          have hlt' : ord k' e.1 = .lt := by rw [← hke]; exact hlt
          rcases List.mem_cons.mp ((h.mem_iff k' d').mpr hd') with hk'e | hk'l
          · rw [← hk'e, ho.refl (h.dom_of_eq_some hd')] at hlt'
            exact absurd hlt' (by simp)
          · have hgt := (ho.gt_iff (h.dom_of_eq_some hd') hde).mpr (he _ hk'l)
            rw [hlt'] at hgt
            exact absurd hgt (by simp)
        · exact hkl
      · exact absurd hkd (by simp)

/-! ### Two lists that represent the same map -/

theorem nodup (ho : KeyOrder ord Dom) (h : Represents ord Dom l m) : l.Nodup := by
  refine h.sorted.imp_of_mem (fun {a b} ha _ hab => ?_)
  rintro rfl
  rw [ho.refl (h.keys a ha)] at hab
  exact absurd hab (by simp)

/-- **One list represents a map.** -/
theorem unique (ho : KeyOrder ord Dom) {l' : List (K × D)} (h : Represents ord Dom l m)
    (h' : Represents ord Dom l' m) : l = l' := by
  have hperm : l.Perm l' := (List.perm_ext_iff_of_nodup (h.nodup ho) (h'.nodup ho)).mpr
    fun e => (h.mem_iff e.1 e.2).trans (h'.mem_iff e.1 e.2).symm
  refine hperm.eq_of_pairwise (fun a b ha hb hab hba => ?_) h.sorted h'.sorted
  have hgt := (ho.gt_iff (h.keys a ha) (h'.keys b hb)).mpr hba
  rw [hab] at hgt
  cases hgt

/-- Where a sum is taken over the entries, the list does not matter. -/
theorem sum_eq (ho : KeyOrder ord Dom) {l' : List (K × D)} (h : Represents ord Dom l m)
    (h' : Represents ord Dom l' m) (f : K × D → ℕ) : (l.map f).sum = (l'.map f).sum := by
  refine ((List.perm_ext_iff_of_nodup (h.nodup ho) (h'.nodup ho)).mpr (fun e => ?_)).map f
    |>.sum_eq
  rw [show e = (e.1, e.2) from rfl, h.mem_iff, h'.mem_iff]

section Sums

variable [DecidableEq K]

/-- **What an erased key takes out of a sum.** -/
theorem sum_erase (ho : KeyOrder ord Dom) {l' : List (K × D)} {k : K} (hk : Dom k)
    (h : Represents ord Dom l m) (h' : Represents ord Dom l' (erase m k)) (f : K × D → ℕ) :
    (l'.map f).sum + ((m k).elim 0 fun d => f (k, d)) = (l.map f).sum := by
  rw [sum_eq ho h' (h.eraseKey ho hk)]
  cases hm : m k with
  | none =>
    rw [eraseKey_eq_self, Option.elim_none, Nat.add_zero]
    intro e he heq
    rw [(ho.eq_iff hk (h.keys e he)).mp heq, (h.mem_iff e.1 e.2).mp he] at hm
    exact absurd hm (by simp)
  | some d =>
    have hmem := (h.mem_iff k d).mpr hm
    have hperm : l.Perm ((k, d) :: SortedAssoc.eraseKey ord k l) := by
      refine (List.perm_ext_iff_of_nodup (h.nodup ho) ?_).mpr (fun e => ?_)
      · refine List.nodup_cons.mpr ⟨fun hkd => ?_, (h.nodup ho).filter _⟩
        have := List.of_mem_filter hkd
        simp [ho.refl hk] at this
      · rw [List.mem_cons, SortedAssoc.eraseKey, List.mem_filter]
        constructor
        · intro he
          by_cases hke : ord k e.1 = .eq
          · refine Or.inl ?_
            have hek := (ho.eq_iff hk (h.keys e he)).mp hke
            have hd := (h.mem_iff e.1 e.2).mp he
            rw [← hek, hm] at hd
            exact Prod.ext hek.symm (Option.some.inj hd).symm
          · exact Or.inr ⟨he, by simpa using hke⟩
        · rintro (rfl | he)
          · exact hmem
          · exact he.1
    rw [(hperm.map f).sum_eq, List.map_cons, List.sum_cons, Option.elim_some, Nat.add_comm]

/-- **What a new entry brings into a sum**, in the place of the old one. -/
theorem sum_insert (ho : KeyOrder ord Dom) {l' : List (K × D)} {k : K} {d : D} (hk : Dom k)
    (h : Represents ord Dom l m) (h' : Represents ord Dom l' (insert m k d))
    (f : K × D → ℕ) :
    (l'.map f).sum + ((m k).elim 0 fun d => f (k, d)) = (l.map f).sum + f (k, d) := by
  have herase : erase (insert m k d) k = erase m k := by
    rw [OrderedMap.erase, OrderedMap.insert, Function.update_idem, OrderedMap.erase]
  have h₁ := sum_erase ho hk h (h.eraseKey ho hk) f
  have h₂ := sum_erase ho hk h' (herase ▸ h.eraseKey ho hk) f
  rw [OrderedMap.insert, Function.update_self, Option.elim_some] at h₂
  omega

end Sums

end Represents

end OrderedMap
