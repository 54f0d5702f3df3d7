import SecdScheme.HashTable.Tables

/-!
# Runs over several tables

The tables of a heap hold their maps side by side: `TablesAt` asks that each
of them holds its map and that no two share a node or an entry. An operation
keeps this because it evolves one table, `HeapEvolves`, and nothing else.
What the operations should do is given on a list of finite maps, one for each
table.
-/

namespace HashTable

open Llrb Llrb.Tree RbTree ChainedMap SortedAssoc

variable {V : Type}

/-! ## Operations on finite maps -/

/-- An operation, with the tables it is given. -/
inductive HtOp (V : Type) where
  | make
  | set (ht : ℕ) (key : Key) (value : V)
  | get (ht : ℕ) (key : Key) (default : Option V)
  | hasKey (ht : ℕ) (key : Key)
  | delete (ht : ℕ) (key : Key)
  | clear (ht : ℕ)
  | merge (ht₁ ht₂ : ℕ)
  | copy (ht : ℕ)

/-- What an operation returns. -/
inductive Answer (V : Type) where
  | table (ht : ℕ)
  | value (v : V)
  | bool (b : Bool)

/-- The finite maps of the tables. -/
abbrev Maps (V : Type) := List (Key → Option V)

/-- The empty map. -/
def noPairs : Key → Option V := fun _ => none

/-- The map of a table. -/
def Maps.at (ms : Maps V) (ht : ℕ) : Key → Option V := ms.getD ht noPairs

/-- The pairs of two maps; where both have a key, the second one's. -/
def mergeMaps (m₁ m₂ : Key → Option V) : Key → Option V := fun k => (m₂ k).or (m₁ k)

@[simp] theorem mergeMaps_noPairs (m : Key → Option V) : mergeMaps noPairs m = m := by
  funext k
  exact Option.or_none

namespace HtOp

/-- The tables an operation is given. -/
def tables : HtOp V → List ℕ
  | make => []
  | set ht _ _ => [ht]
  | get ht _ _ => [ht]
  | hasKey ht _ => [ht]
  | delete ht _ => [ht]
  | clear ht => [ht]
  | merge ht₁ ht₂ => [ht₁, ht₂]
  | copy ht => [ht]

/-- The table an operation changes. -/
def target : HtOp V → Option ℕ
  | set ht _ _ => some ht
  | delete ht _ => some ht
  | clear ht => some ht
  | _ => none

/-- The operation under its name. -/
def exec [HasFalse V] : HtOp V → HtM V (Answer V)
  | make => do return .table (← makeHashTable)
  | set ht key value => do return .value (← hashTableSet ht key value)
  | get ht key default => do return .value (← hashTableGet ht key default)
  | hasKey ht key => do return .bool (← hashTableHasKey ht key)
  | delete ht key => do return .bool (← hashTableDelete ht key)
  | clear ht => do hashTableClear ht; return .table ht
  | merge ht₁ ht₂ => do return .table (← hashTableMerge ht₁ ht₂)
  | copy ht => do return .table (← hashTableCopy ht)

/-- What an operation does to the finite maps. -/
def onMaps : HtOp V → Maps V → Maps V
  | make, ms => ms ++ [noPairs]
  | set ht key value, ms => List.set ms ht (Function.update (ms.at ht) key (some value))
  | delete ht key, ms => List.set ms ht (Function.update (ms.at ht) key none)
  | clear ht, ms => List.set ms ht noPairs
  | merge ht₁ ht₂, ms => ms ++ [mergeMaps (ms.at ht₁) (ms.at ht₂)]
  | copy ht, ms => ms ++ [ms.at ht]
  | _, ms => ms

/-- What an operation answers. -/
def answer [HasFalse V] : HtOp V → Maps V → Answer V
  | make, ms => .table ms.length
  | set _ _ value, _ => .value value
  | get ht key default, ms => .value ((ms.at ht key).getD (default.getD HasFalse.ff))
  | hasKey ht key, ms => .bool (ms.at ht key).isSome
  | delete ht key, ms => .bool (ms.at ht key).isSome
  | clear ht, _ => .table ht
  | merge _ _, ms => .table ms.length
  | copy _, ms => .table ms.length

end HtOp

/-- One operation after another, with what they return. -/
def runHt [HasFalse V] : List (HtOp V) → HtM V (List (Answer V))
  | [] => return []
  | op :: ops => do
    let a ← op.exec
    return a :: (← runHt ops)

/-- The maps after some operations. -/
def mapsAfter (ops : List (HtOp V)) (ms : Maps V) : Maps V :=
  ops.foldl (fun ms op => op.onMaps ms) ms

/-- The answers of some operations. -/
def answersOf [HasFalse V] : List (HtOp V) → Maps V → List (Answer V)
  | [], _ => []
  | op :: ops, ms => op.answer ms :: answersOf ops (op.onMaps ms)

/-- **The tables that are mentioned exist** when they are. -/
def Mentions : List (HtOp V) → Maps V → Prop
  | [], _ => True
  | op :: ops, ms => (∀ ht ∈ op.tables, ht < ms.length) ∧ Mentions ops (op.onMaps ms)

/-! ## Tables side by side -/

/-- **The tables hold their maps and share nothing.** -/
structure TablesAt (heap : Heap V) (T : ℕ → Tree ℤ (ℕ × BucketOrFalse)) (ms : Maps V) : Prop where
  length : heap.tables.length = ms.length
  holds : ∀ {i table}, heap.tables[i]? = some table →
    ∃ bm B, TableAt heap table (T i) bm B (ms.at i)
  nodes : ∀ {i j}, i < ms.length → j < ms.length → i ≠ j → ∀ a ∈ addrs (T i), a ∉ addrs (T j)
  refs : ∀ {i j}, i < ms.length → j < ms.length → i ≠ j → ∀ r ∈ refs (T i), r ∉ refs (T j)

namespace TablesAt

variable {heap heap' : Heap V} {T : ℕ → Tree ℤ (ℕ × BucketOrFalse)} {ms : Maps V}

theorem empty : TablesAt (⟨⟨[], []⟩, [], []⟩ : Heap V) (fun _ => nil) [] :=
  ⟨rfl, fun h => absurd h (by simp), fun h => absurd h (by simp), fun h => absurd h (by simp)⟩

theorem exists_table (h : TablesAt heap T ms) {i : ℕ} (hi : i < ms.length) :
    ∃ table bm B, heap.tables[i]? = some table ∧ TableAt heap table (T i) bm B (ms.at i) := by
  have hlt : i < heap.tables.length := by rw [h.length]; exact hi
  obtain ⟨bm, B, ht⟩ := h.holds (List.getElem?_eq_getElem hlt)
  exact ⟨_, bm, B, List.getElem?_eq_getElem hlt, ht⟩

/-- **The other tables stay as they are** when one of them evolves. -/
theorem frame (h : TablesAt heap T ms) {ht i : ℕ} (hht : ht < ms.length) (hi : i < ms.length)
    (hne : i ≠ ht) {t' : Tree ℤ (ℕ × BucketOrFalse)} (hev : HeapEvolves heap (T ht) heap' t')
    {table : Table} {bm : ℤ → Option BucketOrFalse} {B : ℤ → Option (List (Key × V))}
    {m : Key → Option V} (hi' : TableAt heap table (T i) bm B m) :
    TableAt heap' table (T i) bm B m := by
  refine hi'.frame (fun a ha => ?_) (fun r hr => ?_)
  · exact hev.nodes.frame.get a (hi'.tree.owned.stored.lt_length a ha) (h.nodes hi hht hne a ha)
  · exact hev.entries.get r (hi'.lt_length_of_mem_refs hr) (h.refs hi hht hne r hr)

/-- **One table evolves.** -/
theorem update (h : TablesAt heap T ms) {ht : ℕ} (hht : ht < ms.length) {table' : Table}
    {t' : Tree ℤ (ℕ × BucketOrFalse)} {bm' : ℤ → Option BucketOrFalse}
    {B' : ℤ → Option (List (Key × V))} {m' : Key → Option V}
    (htab : heap'.tables = heap.tables.set ht table') (ht' : TableAt heap' table' t' bm' B' m')
    (hev : HeapEvolves heap (T ht) heap' t') :
    TablesAt heap' (Function.update T ht t') (ms.set ht m') := by
  have hat : ∀ {i}, Maps.at (ms.set ht m') i = if i = ht then m' else ms.at i := fun {i} => by
    rw [Maps.at, Maps.at, List.getD_eq_getElem?_getD, List.getD_eq_getElem?_getD]
    by_cases hi : i = ht
    · rw [if_pos hi, hi, List.getElem?_set_self hht]
      rfl
    · rw [if_neg hi, List.getElem?_set_ne (Ne.symm hi)]
  have hfresh : ∀ {i}, i < ms.length → i ≠ ht → (∀ a ∈ addrs (T i), a ∉ addrs t') ∧
      ∀ r ∈ HashTable.refs (T i), r ∉ HashTable.refs t' := fun {i} hi hne => by
    obtain ⟨table, bm, B, -, hti⟩ := h.exists_table hi
    refine ⟨fun a ha ha' => ?_, fun r hr hr' => ?_⟩
    · exact (hev.nodes.within a ha').elim (h.nodes hi hht hne a ha)
        (fun hle => absurd (hti.tree.owned.stored.lt_length a ha) (not_lt.mpr hle))
    · exact (hev.refs r hr').elim (h.refs hi hht hne r hr)
        (fun hle => absurd (hti.lt_length_of_mem_refs hr) (not_lt.mpr hle))
  refine ⟨by rw [htab, List.length_set, List.length_set, h.length], fun {i table} hi => ?_,
    fun {i j} hi hj hne => ?_, fun {i j} hi hj hne => ?_⟩
  · rw [hat]
    by_cases hih : i = ht
    · subst hih
      rw [htab, List.getElem?_set_self (by rw [h.length]; exact hht), Option.some.injEq] at hi
      rw [if_pos rfl, Function.update_self, ← hi]
      exact ⟨bm', B', ht'⟩
    · rw [htab, List.getElem?_set_ne (Ne.symm hih)] at hi
      rw [if_neg hih, Function.update_of_ne hih]
      obtain ⟨bm, B, hti⟩ := h.holds hi
      have hlt : i < ms.length := by
        rw [← h.length]
        exact (List.getElem?_eq_some_iff.mp hi).1
      exact ⟨bm, B, h.frame hht hlt hih hev hti⟩
  · rw [List.length_set] at hi hj
    by_cases hih : i = ht
    · subst hih
      rw [Function.update_self, Function.update_of_ne (Ne.symm hne)]
      exact fun a ha ha' => (hfresh hj (Ne.symm hne)).1 a ha' ha
    · rw [Function.update_of_ne hih]
      by_cases hjh : j = ht
      · subst hjh
        rw [Function.update_self]
        exact (hfresh hi hih).1
      · rw [Function.update_of_ne hjh]
        exact h.nodes hi hj hne
  · rw [List.length_set] at hi hj
    by_cases hih : i = ht
    · subst hih
      rw [Function.update_self, Function.update_of_ne (Ne.symm hne)]
      exact fun r hr hr' => (hfresh hj (Ne.symm hne)).2 r hr' hr
    · rw [Function.update_of_ne hih]
      by_cases hjh : j = ht
      · subst hjh
        rw [Function.update_self]
        exact (hfresh hi hih).2
      · rw [Function.update_of_ne hjh]
        exact h.refs hi hj hne

/-- **A table is made.** -/
theorem make (h : TablesAt heap T ms) :
    TablesAt { heap with tables := heap.tables ++ [⟨none, 0⟩] }
      (Function.update T ms.length nil) (ms ++ [noPairs]) := by
  have hat : ∀ {i}, i < ms.length → Maps.at (ms ++ [noPairs]) i = ms.at i := fun {i} hi => by
    rw [Maps.at, Maps.at, List.getD_eq_getElem?_getD, List.getD_eq_getElem?_getD,
      List.getElem?_append_left hi]
  refine ⟨by simp [h.length], fun {i table} hi => ?_, fun {i j} hi hj hne a ha => ?_,
    fun {i j} hi hj hne r hr => ?_⟩
  · by_cases hlt : i < ms.length
    · rw [List.getElem?_append_left (by rw [h.length]; exact hlt)] at hi
      obtain ⟨bm, B, hti⟩ := h.holds hi
      rw [hat hlt, Function.update_of_ne hlt.ne]
      exact ⟨bm, B, hti.frame (fun _ _ => rfl) (fun _ _ => rfl)⟩
    · have hlen := (List.getElem?_eq_some_iff.mp hi).1
      rw [List.length_append, List.length_singleton, h.length] at hlen
      have hieq : i = ms.length := by omega
      subst hieq
      rw [← h.length, List.getElem?_concat_length, Option.some.injEq] at hi
      rw [Function.update_self, ← hi]
      refine ⟨fun _ => none, fun _ => none, ?_⟩
      rw [Maps.at, List.getD_eq_getElem?_getD, List.getElem?_concat_length]
      exact .empty _
  · by_cases hin : i = ms.length
    · rw [hin, Function.update_self] at ha
      exact absurd ha (by simp)
    · rw [Function.update_of_ne hin] at ha
      by_cases hjn : j = ms.length
      · rw [hjn, Function.update_self]
        simp
      · rw [List.length_append, List.length_singleton] at hi hj
        rw [Function.update_of_ne hjn]
        exact h.nodes (by omega) (by omega) hne a ha
  · by_cases hin : i = ms.length
    · rw [hin, Function.update_self] at hr
      exact absurd hr (by simp [HashTable.refs, toList])
    · rw [Function.update_of_ne hin] at hr
      by_cases hjn : j = ms.length
      · rw [hjn, Function.update_self]
        simp [HashTable.refs, toList]
      · rw [List.length_append, List.length_singleton] at hi hj
        rw [Function.update_of_ne hjn]
        exact h.refs (by omega) (by omega) hne r hr

end TablesAt

/-! ## What an operation leaves alone -/

/-- **A table that is left alone**: its vector, its tree and its entries. -/
structure Untouched (heap : Heap V) (T : ℕ → Tree ℤ (ℕ × BucketOrFalse)) (heap' : Heap V)
    (T' : ℕ → Tree ℤ (ℕ × BucketOrFalse)) (i : ℕ) : Prop where
  table : heap'.tables[i]? = heap.tables[i]?
  tree : T' i = T i
  entries : ∀ r ∈ refs (T i), heap'.entries[r]? = heap.entries[r]?

section Untouched

variable {h₁ h₂ h₃ : Heap V} {T₁ T₂ T₃ : ℕ → Tree ℤ (ℕ × BucketOrFalse)} {i : ℕ}

theorem Untouched.refl (heap : Heap V) (T : ℕ → Tree ℤ (ℕ × BucketOrFalse)) (i : ℕ) :
    Untouched heap T heap T i :=
  ⟨rfl, rfl, fun _ _ => rfl⟩

theorem Untouched.trans (h : Untouched h₁ T₁ h₂ T₂ i) (h' : Untouched h₂ T₂ h₃ T₃ i) :
    Untouched h₁ T₁ h₃ T₃ i :=
  ⟨h'.table.trans h.table, h'.tree.trans h.tree, fun r hr => by
    rw [h'.entries r (by rwa [h.tree]), h.entries r hr]⟩

end Untouched

namespace TablesAt

variable {heap heap' : Heap V} {T : ℕ → Tree ℤ (ℕ × BucketOrFalse)} {ms : Maps V}

/-- When one table evolves, the others are left alone. -/
theorem untouched (h : TablesAt heap T ms) {ht i : ℕ} (hht : ht < ms.length)
    (hi : i < ms.length) (hne : i ≠ ht) {table' : Table} {t' : Tree ℤ (ℕ × BucketOrFalse)}
    (htab : heap'.tables = heap.tables.set ht table') (hev : HeapEvolves heap (T ht) heap' t') :
    Untouched heap T heap' (Function.update T ht t') i := by
  obtain ⟨table, bm, B, -, hti⟩ := h.exists_table hi
  exact ⟨by rw [htab, List.getElem?_set_ne (Ne.symm hne)], Function.update_of_ne hne _ _,
    fun r hr => hev.entries.get r (hti.lt_length_of_mem_refs hr) (h.refs hi hht hne r hr)⟩

/-- **The pairs of one table are put into another one.** -/
theorem setFrom (h : TablesAt heap T ms) {result source : ℕ} (hr : result < ms.length)
    (hs : source < ms.length) (hne : source ≠ result) :
    ∃ heap' T', (do setEach result (← hashTableToAlist source) : HtM V Unit) heap =
        (.ok (), heap') ∧
      TablesAt heap' T' (List.set ms result (mergeMaps (ms.at result) (ms.at source))) ∧
      ∀ i < ms.length, i ≠ result → Untouched heap T heap' T' i := by
  obtain ⟨table, bm, B, hget, hresult⟩ := h.exists_table hr
  obtain ⟨table₀, bm₀, B₀, hget₀, hsource⟩ := h.exists_table hs
  obtain ⟨ps, hh, hn, hps⟩ := hsource.exists_pairs
  obtain ⟨heap', table', t', bm', B', hrun, htab, ht', hev⟩ :=
    setEach_run hresult hget hh (h.refs hs hr hne)
  have hmerge : ps.foldl (fun (m : Key → Option V) p => Function.update m p.1 (some p.2))
      (ms.at result) = mergeMaps (ms.at result) (ms.at source) := by
    funext k
    rw [foldl_update hn, mergeMaps]
    congr 1
    refine Option.ext (fun v => ?_)
    rw [lookup_eq_some_iff hn, hps]
  rw [hmerge] at ht'
  exact ⟨heap', Function.update T result t',
    (Cmd.bind_run_ok (hsource.toAlist_run hget₀) _).trans hrun, h.update hr htab ht' hev,
    fun i hi hne => h.untouched hr hi hne htab hev⟩

/-- `make-hash-table` beside the tables there are. -/
theorem makeHashTable_run (h : TablesAt heap T ms) :
    makeHashTable heap = (.ok ms.length, { heap with tables := heap.tables ++ [⟨none, 0⟩] }) ∧
      ∀ i < ms.length, Untouched heap T { heap with tables := heap.tables ++ [⟨none, 0⟩] }
        (Function.update T ms.length nil) i := by
  refine ⟨by rw [makeHashTable, h.length], fun i hi => ⟨?_, ?_, fun _ _ => rfl⟩⟩
  · exact List.getElem?_append_left (by rw [h.length]; exact hi)
  · exact Function.update_of_ne hi.ne _ _

theorem at_append_of_lt {m : Key → Option V} {i : ℕ} (hi : i < ms.length) :
    Maps.at (ms ++ [m]) i = ms.at i := by
  rw [Maps.at, Maps.at, List.getD_eq_getElem?_getD, List.getD_eq_getElem?_getD,
    List.getElem?_append_left hi]

theorem at_append_length {m : Key → Option V} : Maps.at (ms ++ [m]) ms.length = m := by
  rw [Maps.at, List.getD_eq_getElem?_getD, List.getElem?_concat_length]
  rfl

/-- **A new table with the pairs of an old one.** -/
theorem makeFrom (h : TablesAt heap T ms) {source : ℕ} (hs : source < ms.length) :
    ∃ heap' T', (hashTableCopy source : HtM V ℕ) heap = (.ok ms.length, heap') ∧
      TablesAt heap' T' (ms ++ [ms.at source]) ∧
      ∀ i < ms.length, Untouched heap T heap' T' i := by
  obtain ⟨hmake, hun⟩ := h.makeHashTable_run
  have hlen : (ms ++ [noPairs]).length = ms.length + 1 := by simp
  have hsource : source < (ms ++ [noPairs (V := V)]).length := by omega
  obtain ⟨heap', T', hrun, htabs, hun'⟩ := h.make.setFrom (by omega) hsource hs.ne
  rw [at_append_of_lt hs, at_append_length, List.set_append_right _ _ le_rfl, Nat.sub_self,
    List.set_cons_zero, mergeMaps_noPairs] at htabs
  refine ⟨heap', T', ?_, htabs, fun i hi => (hun i hi).trans (hun' i (by omega) hi.ne)⟩
  refine (Cmd.bind_run_ok hmake _).trans ?_
  rw [← Cmd.bind_assoc_run, Cmd.bind_run_ok hrun]
  rfl

/-- A merge is a copy of the first table with the pairs of the second put
into it. -/
theorem hashTableMerge_eq (ht₁ ht₂ : ℕ) : (hashTableMerge ht₁ ht₂ : HtM V ℕ) = (do
    let result ← hashTableCopy ht₁
    setEach result (← hashTableToAlist ht₂)
    return result) := by
  simp only [hashTableMerge, hashTableCopy, Cmd.bind_assoc_run]
  rfl

/-! ## Steps and runs -/

/-- **Each operation** answers as the finite maps do, updates them, and
leaves alone every table but its target. -/
theorem exec [HasFalse V] (h : TablesAt heap T ms) (op : HtOp V)
    (hop : ∀ ht ∈ op.tables, ht < ms.length) :
    ∃ heap' T', op.exec heap = (.ok (op.answer ms), heap') ∧ TablesAt heap' T' (op.onMaps ms) ∧
      ∀ i < ms.length, op.target ≠ some i → Untouched heap T heap' T' i := by
  cases op with
  | make =>
    obtain ⟨hmake, hun⟩ := h.makeHashTable_run
    exact ⟨_, _, Cmd.bind_run_ok hmake _, h.make, fun i hi _ => hun i hi⟩
  | set ht k v =>
    have hht := hop ht (by simp [HtOp.tables])
    obtain ⟨table, bm, B, hget, hti⟩ := h.exists_table hht
    obtain ⟨heap', table', t', bm', B', hrun, htab, ht', hev⟩ := hti.set_run hget k v
    exact ⟨heap', _, Cmd.bind_run_ok hrun _, h.update hht htab ht' hev,
      fun i hi hne => h.untouched hht hi (fun he => hne (by rw [he]; rfl)) htab hev⟩
  | get ht k default =>
    have hht := hop ht (by simp [HtOp.tables])
    obtain ⟨table, bm, B, hget, hti⟩ := h.exists_table hht
    exact ⟨heap, T, Cmd.bind_run_ok (hti.get_run hget k default) _, h, fun i _ _ => .refl _ _ i⟩
  | hasKey ht k =>
    have hht := hop ht (by simp [HtOp.tables])
    obtain ⟨table, bm, B, hget, hti⟩ := h.exists_table hht
    exact ⟨heap, T, Cmd.bind_run_ok (hti.hasKey_run hget k) _, h, fun i _ _ => .refl _ _ i⟩
  | delete ht k =>
    have hht := hop ht (by simp [HtOp.tables])
    obtain ⟨table, bm, B, hget, hti⟩ := h.exists_table hht
    obtain ⟨heap', table', t', bm', B', hrun, htab, ht', hev⟩ := hti.delete_run hget k
    exact ⟨heap', _, Cmd.bind_run_ok hrun _, h.update hht htab ht' hev,
      fun i hi hne => h.untouched hht hi (fun he => hne (by rw [he]; rfl)) htab hev⟩
  | clear ht =>
    have hht := hop ht (by simp [HtOp.tables])
    obtain ⟨table, bm, B, hget, hti⟩ := h.exists_table hht
    obtain ⟨heap', hrun, htab, ht', hev⟩ := TableAt.clear_run (T ht) hget
    exact ⟨heap', _, Cmd.bind_run_ok hrun _, h.update hht htab ht' hev,
      fun i hi hne => h.untouched hht hi (fun he => hne (by rw [he]; rfl)) htab hev⟩
  | merge ht₁ ht₂ =>
    have h₁ := hop ht₁ (by simp [HtOp.tables])
    have h₂ := hop ht₂ (by simp [HtOp.tables])
    obtain ⟨heap₁, T₁, hrun₁, htabs₁, hun₁⟩ := h.makeFrom h₁
    have hlen : (ms ++ [ms.at ht₁]).length = ms.length + 1 := by simp
    have hsource : ht₂ < (ms ++ [ms.at ht₁]).length := by omega
    obtain ⟨heap₂, T₂, hrun₂, htabs₂, hun₂⟩ := htabs₁.setFrom (by omega) hsource h₂.ne
    rw [at_append_of_lt h₂, at_append_length, List.set_append_right _ _ le_rfl, Nat.sub_self,
      List.set_cons_zero] at htabs₂
    refine ⟨heap₂, T₂, Cmd.bind_run_ok ?_ _, htabs₂,
      fun i hi _ => (hun₁ i hi).trans (hun₂ i (by omega) hi.ne)⟩
    rw [hashTableMerge_eq]
    refine (Cmd.bind_run_ok hrun₁ _).trans ?_
    rw [← Cmd.bind_assoc_run, Cmd.bind_run_ok hrun₂]
    rfl
  | copy ht =>
    obtain ⟨heap', T', hrun, htabs, hun⟩ := h.makeFrom (hop ht (by simp [HtOp.tables]))
    exact ⟨heap', T', Cmd.bind_run_ok hrun _, htabs, fun i hi _ => hun i hi⟩

/-- **And so does a run.** -/
theorem runHt [HasFalse V] (h : TablesAt heap T ms) (ops : List (HtOp V))
    (hops : Mentions ops ms) :
    ∃ heap' T', runHt ops heap = (.ok (answersOf ops ms), heap') ∧
      TablesAt heap' T' (mapsAfter ops ms) := by
  induction ops generalizing heap T ms with
  | nil => exact ⟨heap, T, rfl, h⟩
  | cons op ops ih =>
    obtain ⟨h₁, T₁, hrun₁, htabs₁, -⟩ := h.exec op hops.1
    obtain ⟨h₂, T₂, hrun₂, htabs₂⟩ := ih htabs₁ hops.2
    exact ⟨h₂, T₂, (Cmd.bind_run_ok hrun₁ _).trans (Cmd.bind_run_ok hrun₂ _), htabs₂⟩

end TablesAt

/-! ## The tables after a run -/

/-- **A table in good order for a map**: its tree is a left-leaning
red-black tree with strictly increasing hashes; every bucket of the tree is
nonempty and its entries have the hash of the bucket; and the entries listed
by `hash-table->alist` hold the pairs of the map, each key once, as many as
the size says. -/
structure InGoodOrder (heap : Heap V) (ht : ℕ) (table : Table) (m : Key → Option V) : Prop where
  tree : ∃ t, table.tree = link t ∧ Owned heap.nodes t ∧ RedBlack (erase t) ∧
    StrictlySorted compare (erase t).toList ∧
    ∀ h b, (h, b) ∈ (erase t).toList → ∃ bucket, b = some bucket ∧ bucket ≠ [] ∧
      ∀ r ∈ bucket, ∃ e, heap.entries[r]? = some e ∧ hashValue e.key = h
  alist : ∃ entries pairs, (hashTableToAlist ht : HtM V (List ℕ)) heap = (.ok entries, heap) ∧
    Holds heap.entries entries pairs ∧ NodupKeys pairs ∧
    (∀ k v, (k, v) ∈ pairs ↔ m k = some v) ∧ table.size = pairs.length

theorem TableAt.inGoodOrder {heap : Heap V} {table : Table} {t : Tree ℤ (ℕ × BucketOrFalse)}
    {bm : ℤ → Option BucketOrFalse} {B : ℤ → Option (List (Key × V))} {m : Key → Option V}
    (h : TableAt heap table t bm B m) {ht : ℕ} (hht : heap.tables[ht]? = some table) :
    InGoodOrder heap ht table m := by
  obtain ⟨n, hb⟩ := h.tree.balanced
  obtain ⟨ps, hh, hn, hps⟩ := h.exists_pairs
  refine ⟨⟨t, h.tree.link_eq, h.tree.owned, hb.redBlack, h.tree.represents.sorted,
    fun k b hkb => ?_⟩, ⟨refs t, ps, h.toAlist_run hht, hh, hn, hps, ?_⟩⟩
  · have hbm := (h.tree.represents.mem_iff k b).mp hkb
    obtain ⟨rs, ps, rfl, hB, hh⟩ := h.bucket_of_some hbm
    refine ⟨rs, rfl, ?_, fun r hr => h.hash_of_mem hbm hr⟩
    rintro rfl
    exact h.keeps.ne_nil hB (List.forall₂_nil_left_iff.mp hh)
  · rw [h.size, hh.length_eq]

/-- **Hash tables refine finite maps.** Any sequence of operations on tables
that exist answers as the finite maps do, and afterwards every table is in
good order for its map; the next operation leaves alone the vector, the
listed entries and the values of every table but the one it is given to
change, so that a merged or copied table and the tables it was made from do
not affect each other. -/
theorem runHt_refines_maps [HasFalse V] (ops : List (HtOp V)) (hops : Mentions ops []) :
    ∃ heap, runHt ops ⟨⟨[], []⟩, [], []⟩ = (.ok (answersOf ops []), heap) ∧
      heap.tables.length = (mapsAfter ops []).length ∧
      (∀ ht table, heap.tables[ht]? = some table →
        InGoodOrder heap ht table ((mapsAfter ops []).at ht)) ∧
      ∀ op : HtOp V, (∀ ht ∈ op.tables, ht < heap.tables.length) →
        ∃ heap', op.exec heap = (.ok (op.answer (mapsAfter ops [])), heap') ∧
          ∀ ht < heap.tables.length, op.target ≠ some ht →
            heap'.tables[ht]? = heap.tables[ht]? ∧
            ∃ entries, (hashTableToAlist ht : HtM V (List ℕ)) heap = (.ok entries, heap) ∧
              (hashTableToAlist ht : HtM V (List ℕ)) heap' = (.ok entries, heap') ∧
              ∀ r ∈ entries, heap'.entries[r]? = heap.entries[r]? := by
  obtain ⟨heap, T, hrun, h⟩ := TablesAt.empty.runHt ops hops
  refine ⟨heap, hrun, h.length, fun ht table hht => ?_, fun op hop => ?_⟩
  · obtain ⟨bm, B, hti⟩ := h.holds hht
    exact hti.inGoodOrder hht
  · rw [h.length] at hop
    obtain ⟨heap', T', hrun', h', hun⟩ := h.exec op hop
    refine ⟨heap', hrun', fun ht hht htarget => ?_⟩
    rw [h.length] at hht
    have hu := hun ht hht htarget
    obtain ⟨table, bm, B, hget, hti⟩ := h.exists_table hht
    have hget' : heap'.tables[ht]? = some table := hu.table.trans hget
    obtain ⟨bm', B', hti'⟩ := h'.holds hget'
    refine ⟨hu.table, refs (T ht), hti.toAlist_run hget, ?_, hu.entries⟩
    rw [← hu.tree]
    exact hti'.toAlist_run hget'

/-- A table with two keys of the same hash is copied, and the copy loses one
of them. -/
def collisionOps : List (HtOp (Option ℕ)) :=
  [.make, .set 0 (.int 1) (some 10), .set 0 (.bool true) (some 20), .copy 0,
    .delete 1 (.int 1), .hasKey 0 (.int 1), .hasKey 1 (.int 1)]

example : hashValue (.int 1) = hashValue (.bool true) := by decide

/-- The two tables of that run end in good order for different maps. -/
theorem runHt_refines_maps_collision :
    ∃ heap, runHt collisionOps ⟨⟨[], []⟩, [], []⟩ = (.ok (answersOf collisionOps []), heap) ∧
      heap.tables.length = (mapsAfter collisionOps []).length := by
  obtain ⟨heap, hrun, hlen, -⟩ := runHt_refines_maps collisionOps
    (by simp [collisionOps, Mentions, HtOp.tables, HtOp.onMaps])
  exact ⟨heap, hrun, hlen⟩

end HashTable
