import Mathlib.Data.List.Nodup
import Mathlib.Logic.Function.Basic

/-!
# Maps by chaining

A map is kept as a family of buckets, one for each value of a hash function.
A bucket is an association list with distinct keys, all of the same hash;
empty buckets are not kept. The map is read by looking a key up in the bucket
of its hash.

The first section is about one bucket, the second about the family.
-/

namespace ChainedMap

variable {K H V : Type} [DecidableEq K]

/-! ## Buckets -/

/-- The value of the first pair with a key. -/
def lookup (k : K) : List (K × V) → Option V
  | [] => none
  | p :: l => if p.1 = k then some p.2 else lookup k l

/-- The bucket with the value of `k` replaced, or with a new pair at its
end. -/
def setPair (k : K) (v : V) : List (K × V) → List (K × V)
  | [] => [(k, v)]
  | p :: l => if p.1 = k then (p.1, v) :: l else p :: setPair k v l

/-- The bucket without its first pair for `k`. -/
def removePair (k : K) : List (K × V) → List (K × V)
  | [] => []
  | p :: l => if p.1 = k then l else p :: removePair k l

/-- Every key occurs at most once. -/
def NodupKeys (l : List (K × V)) : Prop := (l.map Prod.fst).Nodup

theorem lookup_eq_none_iff {k : K} {l : List (K × V)} :
    lookup k l = none ↔ k ∉ l.map Prod.fst := by
  induction l with
  | nil => simp [lookup]
  | cons p l ih =>
    rw [lookup, List.map_cons, List.mem_cons, not_or]
    by_cases h : p.1 = k
    · simp [h]
    · rw [if_neg h, ih]
      exact ⟨fun hl => ⟨fun hk => h hk.symm, hl⟩, fun hl => hl.2⟩

theorem lookup_eq_some_iff {k : K} {v : V} {l : List (K × V)} (hn : NodupKeys l) :
    lookup k l = some v ↔ (k, v) ∈ l := by
  induction l with
  | nil => simp [lookup]
  | cons p l ih =>
    obtain ⟨hp, hl⟩ := List.nodup_cons.mp hn
    rw [lookup, List.mem_cons]
    by_cases h : p.1 = k
    · rw [if_pos h, Option.some.injEq]
      constructor
      · intro hv
        exact Or.inl (by rw [← h, ← hv])
      · rintro (hkv | hkv)
        · rw [← hkv]
        · exact absurd (List.mem_map_of_mem hkv) (by rwa [← h])
    · rw [if_neg h, ih hl]
      refine ⟨Or.inr, ?_⟩
      rintro (hkv | hkv)
      · exact absurd (by rw [← hkv]) h
      · exact hkv

theorem setPair_ne_nil (k : K) (v : V) (l : List (K × V)) : setPair k v l ≠ [] := by
  cases l with
  | nil => simp [setPair]
  | cons p l =>
    rw [setPair]
    split <;> simp

theorem mem_keys_setPair {k a : K} {v : V} {l : List (K × V)} :
    a ∈ (setPair k v l).map Prod.fst ↔ a = k ∨ a ∈ l.map Prod.fst := by
  induction l with
  | nil => simp [setPair]
  | cons p l ih =>
    rw [setPair]
    by_cases h : p.1 = k
    · rw [if_pos h, List.map_cons, List.map_cons, List.mem_cons, h]
      tauto
    · rw [if_neg h, List.map_cons, List.map_cons, List.mem_cons, List.mem_cons, ih]
      tauto

theorem NodupKeys.setPair {k : K} {v : V} {l : List (K × V)} (h : NodupKeys l) :
    NodupKeys (setPair k v l) := by
  induction l with
  | nil => exact List.nodup_singleton k
  | cons p l ih =>
    obtain ⟨hp, hl⟩ := List.nodup_cons.mp h
    rw [ChainedMap.setPair]
    by_cases hk : p.1 = k
    · rw [if_pos hk]
      exact h
    · rw [if_neg hk]
      refine List.nodup_cons.mpr ⟨fun hm => ?_, ih hl⟩
      exact (mem_keys_setPair.mp hm).elim hk hp

theorem lookup_setPair {k a : K} {v : V} {l : List (K × V)} :
    lookup a (setPair k v l) = if a = k then some v else lookup a l := by
  induction l with
  | nil =>
    rw [setPair, lookup]
    simp only [lookup, eq_comm]
  | cons p l ih =>
    rw [setPair]
    by_cases hk : p.1 = k
    · rw [if_pos hk, lookup, lookup]
      by_cases ha : a = k
      · rw [if_pos (hk.trans ha.symm), if_pos ha]
      · rw [if_neg (fun h => ha (h.symm.trans hk)), if_neg ha,
          if_neg (fun h => ha (h.symm.trans hk))]
    · rw [if_neg hk, lookup, lookup, ih]
      by_cases hp : p.1 = a
      · rw [if_pos hp, if_neg (fun h => hk (hp.trans h)), if_pos hp]
      · rw [if_neg hp, if_neg hp]

/-- A bucket grows when the key is new. -/
theorem length_setPair {k : K} {v : V} {l : List (K × V)} :
    (setPair k v l).length = l.length + if (lookup k l).isNone then 1 else 0 := by
  induction l with
  | nil => rfl
  | cons p l ih =>
    rw [setPair, lookup]
    by_cases hk : p.1 = k
    · rw [if_pos hk, if_pos hk]
      rfl
    · rw [if_neg hk, if_neg hk, List.length_cons, ih, List.length_cons]
      omega

theorem sublist_removePair (k : K) (l : List (K × V)) : (removePair k l).Sublist l := by
  induction l with
  | nil => exact .slnil
  | cons p l ih =>
    rw [removePair]
    split
    · exact List.sublist_cons_self p l
    · exact ih.cons_cons p

theorem NodupKeys.removePair {k : K} {l : List (K × V)} (h : NodupKeys l) :
    NodupKeys (removePair k l) :=
  List.Nodup.sublist ((sublist_removePair k l).map Prod.fst) h

theorem lookup_removePair {k a : K} {l : List (K × V)} (h : NodupKeys l) :
    lookup a (removePair k l) = if a = k then none else lookup a l := by
  induction l with
  | nil => simp [removePair, lookup]
  | cons p l ih =>
    obtain ⟨hp, hl⟩ := List.nodup_cons.mp h
    rw [removePair]
    by_cases hk : p.1 = k
    · rw [if_pos hk, lookup]
      by_cases ha : a = k
      · rw [if_pos ha, lookup_eq_none_iff, ha, ← hk]
        exact hp
      · rw [if_neg ha, if_neg (fun h => ha (h.symm.trans hk))]
    · rw [if_neg hk, lookup, lookup, ih hl]
      by_cases hpa : p.1 = a
      · rw [if_pos hpa, if_neg (fun h => hk (hpa.trans h)), if_pos hpa]
      · rw [if_neg hpa, if_neg hpa]

/-- A bucket shrinks when the key was there. -/
theorem length_removePair {k : K} {l : List (K × V)} :
    (removePair k l).length + (if (lookup k l).isSome then 1 else 0) = l.length := by
  induction l with
  | nil => rfl
  | cons p l ih =>
    rw [removePair, lookup]
    by_cases hk : p.1 = k
    · rw [if_pos hk, if_pos hk]
      rfl
    · rw [if_neg hk, if_neg hk, List.length_cons, List.length_cons, ← ih]
      omega

/-- **A map updated with the pairs of a bucket**, one after another. -/
theorem foldl_update {l : List (K × V)} (h : NodupKeys l) (m : K → Option V) (k : K) :
    l.foldl (fun (m : K → Option V) p => Function.update m p.1 (some p.2)) m k = (lookup k l).or (m k) := by
  induction l generalizing m with
  | nil => rfl
  | cons p l ih =>
    obtain ⟨hp, hl⟩ := List.nodup_cons.mp h
    rw [List.foldl_cons, ih hl, lookup]
    by_cases hk : p.1 = k
    · rw [if_pos hk, lookup_eq_none_iff.mpr (by rwa [← hk]), ← hk, Function.update_self]
      rfl
    · rw [if_neg hk, Function.update_of_ne (Ne.symm hk)]

/-! ## The family of buckets -/

/-- **A family of buckets keeps a map**: no bucket is empty, every key is in
the bucket of its own hash and occurs once there, and the map is what lookups
answer. -/
structure Keeps (hash : K → H) (B : H → Option (List (K × V))) (m : K → Option V) : Prop where
  ne_nil : ∀ {h l}, B h = some l → l ≠ []
  own : ∀ {h l}, B h = some l → ∀ k ∈ l.map Prod.fst, hash k = h
  nodup : ∀ {h l}, B h = some l → NodupKeys l
  lookup : ∀ k, m k = (B (hash k)).bind (lookup k)

namespace Keeps

variable {hash : K → H} {B : H → Option (List (K × V))} {m : K → Option V}

theorem empty : Keeps hash (fun _ => none) (fun _ => (none : Option V)) :=
  ⟨fun h => absurd h (by simp), fun h => absurd h (by simp), fun h => absurd h (by simp),
    fun _ => rfl⟩

theorem eq_some_iff (hB : Keeps hash B m) {k : K} {v : V} :
    m k = some v ↔ ∃ l, B (hash k) = some l ∧ (k, v) ∈ l := by
  rw [hB.lookup, Option.bind_eq_some_iff]
  constructor
  · rintro ⟨l, hl, hv⟩
    exact ⟨l, hl, (lookup_eq_some_iff (hB.nodup hl)).mp hv⟩
  · rintro ⟨l, hl, hv⟩
    exact ⟨l, hl, (lookup_eq_some_iff (hB.nodup hl)).mpr hv⟩

variable [DecidableEq H]

/-- **A new value for a key** goes into the bucket of its hash. -/
theorem set (hB : Keeps hash B m) (k : K) (v : V) :
    Keeps hash (Function.update B (hash k) (some (setPair k v ((B (hash k)).getD []))))
      (Function.update m k (some v)) := by
  have hnodup : NodupKeys ((B (hash k)).getD []) := by
    cases hb : B (hash k) with
    | none => exact List.nodup_nil
    | some l => exact hB.nodup hb
  have hown : ∀ a ∈ ((B (hash k)).getD []).map Prod.fst, hash a = hash k := by
    cases hb : B (hash k) with
    | none => simp
    | some l => exact hB.own hb
  refine ⟨fun {h l} hl => ?_, fun {h l} hl a ha => ?_, fun {h l} hl => ?_, fun a => ?_⟩
  · rw [Function.update_apply] at hl
    split at hl
    · rw [← Option.some.inj hl]
      exact setPair_ne_nil _ _ _
    · exact hB.ne_nil hl
  · rw [Function.update_apply] at hl
    split at hl
    · rename_i hh
      rw [← Option.some.inj hl] at ha
      rw [hh]
      rcases mem_keys_setPair.mp ha with rfl | ha
      · rfl
      · exact hown a ha
    · exact hB.own hl a ha
  · rw [Function.update_apply] at hl
    split at hl
    · rw [← Option.some.inj hl]
      exact hnodup.setPair
    · exact hB.nodup hl
  · rw [Function.update_apply, Function.update_apply]
    by_cases ha : hash a = hash k
    · rw [if_pos ha, Option.bind_some, lookup_setPair, hB.lookup a, ha]
      cases B (hash k) <;> rfl
    · rw [if_neg ha, if_neg (fun h => ha (by rw [h])), hB.lookup a]

/-- **A key is removed from the bucket of its hash**, which is dropped when
nothing is left in it. -/
theorem remove (hB : Keeps hash B m) {k : K} {l : List (K × V)} (hl : B (hash k) = some l) :
    Keeps hash (Function.update B (hash k)
        (if removePair k l = [] then none else some (removePair k l)))
      (Function.update m k none) := by
  refine ⟨fun {h l'} hl' => ?_, fun {h l'} hl' a ha => ?_, fun {h l'} hl' => ?_, fun a => ?_⟩
  · rw [Function.update_apply] at hl'
    split at hl'
    · split at hl'
      · exact absurd hl' (by simp)
      · rename_i hne
        rwa [← Option.some.inj hl']
    · exact hB.ne_nil hl'
  · rw [Function.update_apply] at hl'
    split at hl'
    · rename_i hh
      split at hl'
      · exact absurd hl' (by simp)
      · rw [← Option.some.inj hl'] at ha
        rw [hh]
        exact hB.own hl a (((sublist_removePair k l).map Prod.fst).subset ha)
    · exact hB.own hl' a ha
  · rw [Function.update_apply] at hl'
    split at hl'
    · split at hl'
      · exact absurd hl' (by simp)
      · rw [← Option.some.inj hl']
        exact (hB.nodup hl).removePair
    · exact hB.nodup hl'
  · rw [Function.update_apply, Function.update_apply, hB.lookup a]
    by_cases ha : hash a = hash k
    · rw [if_pos ha, ha, hl, Option.bind_some, ← lookup_removePair (hB.nodup hl)]
      split
      · rename_i hnil
        rw [hnil]
        rfl
      · rfl
    · rw [if_neg ha, if_neg (fun h => ha (by rw [h]))]

end Keeps

end ChainedMap
