import SecdScheme.HashTable.Code
import SecdScheme.Lib.ChainedMap
import Mathlib.Order.Nat

/-!
# Buckets of entries

A bucket is described by the pairs its entries hold, `Holds`. The bucket
procedures act on these pairs as `lookup`, `setPair` and `removePair` do, and
touch no entry outside the bucket.
-/

namespace HashTable

open ChainedMap RbTree

variable {V : Type}

@[simp] theorem htKeysEqual_iff {a b : Key} : htKeysEqual a b = true ↔ a = b := by
  cases a <;> cases b <;> simp [htKeysEqual]

/-- **The entries of a bucket hold these pairs.** -/
def Holds (entries : List (Entry V)) (rs : Bucket) (ps : List (Key × V)) : Prop :=
  List.Forall₂ (fun r p => entries[r]? = some ⟨p.1, p.2⟩) rs ps

/-- **No entry outside the footprint has changed**, and none has
disappeared. -/
structure EntriesFrame (fp : List ℕ) (es es' : List (Entry V)) : Prop where
  length : es.length ≤ es'.length
  get : ∀ r < es.length, r ∉ fp → es'[r]? = es[r]?

theorem EntriesFrame.refl (fp : List ℕ) (es : List (Entry V)) : EntriesFrame fp es es :=
  ⟨le_rfl, fun _ _ _ => rfl⟩

theorem EntriesFrame.mono {fp fp' : List ℕ} {es es' : List (Entry V)}
    (h : EntriesFrame fp es es') (hs : ∀ r ∈ fp, r ∈ fp') : EntriesFrame fp' es es' :=
  ⟨h.length, fun r hr hn => h.get r hr (fun hm => hn (hs r hm))⟩

namespace Holds

variable {es es' : List (Entry V)} {rs : Bucket} {ps : List (Key × V)} {r : ℕ} {p : Key × V}

theorem exists_of_mem (h : Holds es rs ps) (hr : r ∈ rs) :
    ∃ q ∈ ps, es[r]? = some ⟨q.1, q.2⟩ := by
  induction h with
  | nil => exact absurd hr (by simp)
  | cons hq _ ih =>
    rcases List.mem_cons.mp hr with rfl | hr
    · exact ⟨_, List.mem_cons_self, hq⟩
    · obtain ⟨q, hq', hes⟩ := ih hr
      exact ⟨q, List.mem_cons_of_mem _ hq', hes⟩

theorem exists_of_mem_pairs (h : Holds es rs ps) (hp : p ∈ ps) :
    ∃ r ∈ rs, es[r]? = some ⟨p.1, p.2⟩ := by
  induction h with
  | nil => exact absurd hp (by simp)
  | cons hq _ ih =>
    rcases List.mem_cons.mp hp with rfl | hp
    · exact ⟨_, List.mem_cons_self, hq⟩
    · obtain ⟨r, hr, hes⟩ := ih hp
      exact ⟨r, List.mem_cons_of_mem _ hr, hes⟩

theorem lt_length (h : Holds es rs ps) (hr : r ∈ rs) : r < es.length := by
  obtain ⟨q, -, hes⟩ := h.exists_of_mem hr
  exact (List.getElem?_eq_some_iff.mp hes).1

/-- A bucket depends on its own entries only. -/
theorem frame (h : Holds es rs ps) (hs : ∀ r ∈ rs, es'[r]? = es[r]?) : Holds es' rs ps := by
  induction h with
  | nil => exact .nil
  | cons hq _ ih =>
    exact .cons (by rw [hs _ List.mem_cons_self, hq])
      (ih (fun r hr => hs r (List.mem_cons_of_mem _ hr)))

/-- The first entry of a bucket with distinct keys does not occur again. -/
theorem not_mem_of_nodupKeys (h : Holds es rs ps) (hr : es[r]? = some ⟨p.1, p.2⟩)
    (hn : NodupKeys (p :: ps)) : r ∉ rs := by
  intro hm
  obtain ⟨q, hq, hes⟩ := h.exists_of_mem hm
  rw [hr, Option.some.injEq, Entry.mk.injEq] at hes
  exact (List.nodup_cons.mp hn).1 (by rw [hes.1]; exact List.mem_map_of_mem hq)

theorem append {rs' : Bucket} {ps' : List (Key × V)} (h : Holds es rs ps)
    (h' : Holds es rs' ps') : Holds es (rs ++ rs') (ps ++ ps') := by
  induction h with
  | nil => exact h'
  | cons hq _ ih => exact .cons hq ih

theorem flatMap {α : Type} {l : List α} {f : α → Bucket} {g : α → List (Key × V)}
    (h : ∀ a ∈ l, Holds es (f a) (g a)) : Holds es (l.flatMap f) (l.flatMap g) := by
  induction l with
  | nil => exact .nil
  | cons a l ih =>
    rw [List.flatMap_cons, List.flatMap_cons]
    exact (h a List.mem_cons_self).append (ih (fun b hb => h b (List.mem_cons_of_mem _ hb)))

end Holds

theorem htEntryKey_run {heap : Heap V} {r : ℕ} {e : Entry V} (h : heap.entries[r]? = some e) :
    (htEntryKey r : HtM V Key) heap = (.ok e.key, heap) := by
  simp [htEntryKey, entryAt, Cmd.bind_run, h]

theorem htEntryValue_run {heap : Heap V} {r : ℕ} {e : Entry V} (h : heap.entries[r]? = some e) :
    (htEntryValue r : HtM V V) heap = (.ok e.value, heap) := by
  simp [htEntryValue, entryAt, Cmd.bind_run, h]

/-- **The entry that is found holds the value that is looked up.** -/
theorem bucketFind_run {heap : Heap V} {rs : Bucket} {ps : List (Key × V)} (k : Key)
    (h : Holds heap.entries rs ps) :
    ∃ found, bucketFind rs k heap = (.ok found, heap) ∧
      found.isSome = (lookup k ps).isSome ∧
      ∀ r ∈ found, heap.entries[r]?.map Entry.value = lookup k ps := by
  induction h with
  | nil => exact ⟨none, rfl, rfl, by simp⟩
  | @cons r p rs ps hr _ ih =>
    rw [bucketFind, Cmd.bind_run_ok (htEntryKey_run hr), lookup]
    by_cases hk : p.1 = k
    · rw [if_pos (htKeysEqual_iff.mpr hk), if_pos hk]
      refine ⟨some r, rfl, rfl, fun r' hr' => ?_⟩
      rw [← Option.mem_some_iff.mp hr', hr]
      rfl
    · rw [if_neg (fun h => hk (htKeysEqual_iff.mp h)), if_neg hk]
      exact ih

theorem htSetEntryValue_run {heap : Heap V} {r : ℕ} {e : Entry V} (v : V)
    (h : heap.entries[r]? = some e) :
    (htSetEntryValue r v : HtM V Unit) heap =
      (.ok (), { heap with entries := heap.entries.set r { e with value := v } }) := by
  simp [htSetEntryValue, entryAt, Cmd.bind_run, h]

/-- **A value is set in a bucket**: in the entry of the key, or in a new
one. -/
theorem bucketSet_run {heap : Heap V} {rs : Bucket} {ps : List (Key × V)} (k : Key) (v : V)
    (h : Holds heap.entries rs ps) (hn : NodupKeys ps) :
    ∃ es' rs', bucketSet rs k v heap =
        (.ok (rs', (lookup k ps).isNone), { heap with entries := es' }) ∧
      Holds es' rs' (setPair k v ps) ∧ EntriesFrame rs heap.entries es' ∧
      ∀ r ∈ rs', r ∈ rs ∨ heap.entries.length ≤ r := by
  induction h with
  | nil =>
    refine ⟨heap.entries ++ [⟨k, v⟩], [heap.entries.length], rfl, .cons (by simp) .nil,
      ⟨by simp, fun r hr _ => List.getElem?_append_left hr⟩, fun r hr => ?_⟩
    exact Or.inr (List.mem_singleton.mp hr).ge
  | @cons r p rs ps hr hrest ih =>
    have hlt : r < heap.entries.length := (List.getElem?_eq_some_iff.mp hr).1
    have hnr := Holds.not_mem_of_nodupKeys hrest hr hn
    rw [bucketSet, Cmd.bind_run_ok (htEntryKey_run hr), lookup, setPair]
    by_cases hk : p.1 = k
    · rw [if_pos (htKeysEqual_iff.mpr hk), if_pos hk, if_pos hk,
        Cmd.bind_run_ok (htSetEntryValue_run v hr)]
      refine ⟨_, r :: rs, rfl, .cons ?_ (Holds.frame hrest fun r' hr' => ?_), ⟨by simp, ?_⟩,
        fun r' hr' => Or.inl hr'⟩
      · rw [List.getElem?_set_self hlt]
      · rw [List.getElem?_set_ne (ne_of_mem_of_not_mem hr' hnr).symm]
      · intro r' _ hr'
        rw [List.getElem?_set_ne (fun heq : r = r' => hr' (heq ▸ List.mem_cons_self))]
    · obtain ⟨es', rs', hrun, hh, hfr, hsub⟩ := ih (List.nodup_cons.mp hn).2
      rw [if_neg (fun h => hk (htKeysEqual_iff.mp h)), if_neg hk, if_neg hk,
        Cmd.bind_run_ok hrun]
      refine ⟨es', r :: rs', rfl, .cons ?_ hh, hfr.mono fun r' hr' => List.mem_cons_of_mem _ hr',
        fun r' hr' => ?_⟩
      · rw [hfr.get r hlt hnr, hr]
      · rcases List.mem_cons.mp hr' with rfl | hr'
        · exact Or.inl List.mem_cons_self
        · exact (hsub r' hr').imp_left (List.mem_cons_of_mem _)

/-- **An entry is removed from a bucket**, which itself stays as it is. -/
theorem bucketRemove_run {heap : Heap V} {rs : Bucket} {ps : List (Key × V)} (k : Key)
    (h : Holds heap.entries rs ps) :
    ∃ rs', bucketRemove rs k heap = (.ok (rs', (lookup k ps).isSome), heap) ∧
      Holds heap.entries rs' (removePair k ps) ∧ ∀ r ∈ rs', r ∈ rs := by
  induction h with
  | nil => exact ⟨[], rfl, .nil, fun _ hr => hr⟩
  | @cons r p rs ps hr hrest ih =>
    rw [bucketRemove, Cmd.bind_run_ok (htEntryKey_run hr), lookup, removePair]
    by_cases hk : p.1 = k
    · rw [if_pos (htKeysEqual_iff.mpr hk), if_pos hk, if_pos hk]
      exact ⟨rs, rfl, hrest, fun _ hr => List.mem_cons_of_mem _ hr⟩
    · obtain ⟨rs', hrun, hh, hsub⟩ := ih
      rw [if_neg (fun h => hk (htKeysEqual_iff.mp h)), if_neg hk, if_neg hk,
        Cmd.bind_run_ok hrun]
      refine ⟨r :: rs', rfl, .cons hr hh, fun r' hr' => ?_⟩
      rcases List.mem_cons.mp hr' with rfl | hr'
      · exact List.mem_cons_self
      · exact List.mem_cons_of_mem _ (hsub r' hr')

end HashTable
