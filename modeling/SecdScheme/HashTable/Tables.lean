import SecdScheme.HashTable.Buckets
import SecdScheme.RbTree.Runs

/-!
# One hash table

A table holds a finite map when three structures are in step: its tree is a
red-black tree for a map from hashes to buckets, the entries of the buckets
hold the pairs of a chained map, and the size is the number of entries.
`TableAt` says so, and each procedure is shown to keep it and to touch
nothing but the nodes and the entries of its own table.
-/

namespace HashTable

open Llrb Llrb.Tree RbTree ChainedMap SortedAssoc OrderedMap

variable {V : Type}

/-- A bucket or nothing, against the pairs it should hold. -/
def Linked (es : List (Entry V)) : Option BucketOrFalse → Option (List (Key × V)) → Prop
  | none, none => True
  | some (some rs), some ps => Holds es rs ps
  | _, _ => False

theorem Linked.frame {es es' : List (Entry V)} {b : Option BucketOrFalse}
    {l : Option (List (Key × V))} (h : Linked es b l)
    (hs : ∀ rs, b = some (some rs) → ∀ r ∈ rs, es'[r]? = es[r]?) : Linked es' b l := by
  rcases b with _ | _ | rs <;> cases l with
  | none => exact h
  | some ps => first | exact h | exact Holds.frame h (hs rs rfl)

/-- The entries a tree leads to, in the order of the tree. -/
def refs (t : Tree ℤ (ℕ × BucketOrFalse)) : List ℕ :=
  (erase t).toList.flatMap (fun e => e.2.getD [])

/-- **A table holds a map.** -/
structure TableAt (heap : Heap V) (table : Table) (t : Tree ℤ (ℕ × BucketOrFalse))
    (bm : ℤ → Option BucketOrFalse) (B : ℤ → Option (List (Key × V))) (m : Key → Option V) :
    Prop where
  tree : TreeAt heap.nodes table.tree compare (fun _ => True) t bm
  linked : ∀ h, Linked heap.entries (bm h) (B h)
  keeps : Keeps hashValue B m
  size : table.size = (refs t).length

/-- **What an operation on a table touches**: the nodes and entries of the
table, and new ones. -/
structure HeapEvolves (heap : Heap V) (t : Tree ℤ (ℕ × BucketOrFalse)) (heap' : Heap V)
    (t' : Tree ℤ (ℕ × BucketOrFalse)) : Prop where
  nodes : Evolves heap.nodes t heap'.nodes t'
  entries : EntriesFrame (refs t) heap.entries heap'.entries
  refs : ∀ r ∈ refs t', r ∈ refs t ∨ heap.entries.length ≤ r

/-! ## The vector of a table -/

section Vector

variable {heap : Heap V} {ht : ℕ} {table : Table}

theorem htTree_run (h : heap.tables[ht]? = some table) :
    (htTree ht : HtM V Link) heap = (.ok table.tree, heap) := by
  simp [htTree, tableAt, Cmd.bind_run, h]

theorem htSetTree_run (h : heap.tables[ht]? = some table) (tree : Link) :
    (htSetTree ht tree : HtM V Unit) heap =
      (.ok (), { heap with tables := heap.tables.set ht { table with tree := tree } }) := by
  simp [htSetTree, tableAt, Cmd.bind_run, h]

theorem htIncSize_run (h : heap.tables[ht]? = some table) :
    (htIncSize ht : HtM V Unit) heap =
      (.ok (), { heap with tables := heap.tables.set ht { table with size := table.size + 1 } }) := by
  simp [htIncSize, htSetSize, htSize, tableAt, Cmd.bind_run, h]

theorem htDecSize_run (h : heap.tables[ht]? = some table) :
    (htDecSize ht : HtM V Unit) heap =
      (.ok (), { heap with tables := heap.tables.set ht { table with size := table.size - 1 } }) := by
  simp [htDecSize, htSetSize, htSize, tableAt, Cmd.bind_run, h]

theorem makeHtEntry_run (heap : Heap V) (k : Key) (v : V) :
    makeHtEntry k v heap =
      (.ok heap.entries.length, { heap with entries := heap.entries ++ [⟨k, v⟩] }) := rfl

theorem onNodes_run {α : Type} (heap : Heap V) {p : RbM ℤ BucketOrFalse α} {v : α}
    {s : Store ℤ BucketOrFalse} (h : p heap.nodes = (.ok v, s)) :
    (onNodes p : HtM V α) heap = (.ok v, { heap with nodes := s }) := by
  rw [onNodes, h]

/-- A table that has been set is there. -/
theorem getElem?_set_table (h : heap.tables[ht]? = some table) (table' : Table) :
    (heap.tables.set ht table')[ht]? = some table' :=
  List.getElem?_set_self (List.getElem?_eq_some_iff.mp h).1

end Vector

/-! ## What a tree leads to -/

section Refs

variable {t t' : Tree ℤ (ℕ × BucketOrFalse)} {s s' : Store ℤ BucketOrFalse} {root root' : Link}
  {bm : ℤ → Option BucketOrFalse}

theorem mem_refs (h : TreeAt s root compare (fun _ => True) t bm) {r : ℕ} :
    r ∈ refs t ↔ ∃ k rs, bm k = some (some rs) ∧ r ∈ rs := by
  rw [refs, List.mem_flatMap]
  constructor
  · rintro ⟨⟨k, b⟩, hmem, hr⟩
    cases b with
    | none => exact absurd hr (by simp)
    | some rs => exact ⟨k, rs, (h.represents.mem_iff k _).mp hmem, hr⟩
  · rintro ⟨k, rs, hk, hr⟩
    exact ⟨(k, some rs), (h.represents.mem_iff k _).mpr hk, hr⟩

theorem refs_node (c : Color) (l : Tree ℤ (ℕ × BucketOrFalse)) (k : ℤ) (e : ℕ × BucketOrFalse)
    (r : Tree ℤ (ℕ × BucketOrFalse)) :
    refs (node c l k e r) = refs l ++ e.2.getD [] ++ refs r := by
  rw [refs, erase_node, toList, List.flatMap_append, List.flatMap_cons, ← List.append_assoc]
  rfl

theorem length_refs (t : Tree ℤ (ℕ × BucketOrFalse)) :
    (refs t).length = ((erase t).toList.map (fun e => (e.2.getD []).length)).sum := by
  rw [refs, List.length_flatMap]

/-- **How the number of entries changes** when a bucket is replaced. -/
theorem length_refs_insert (h : TreeAt s root compare (fun _ => True) t bm) {k : ℤ}
    {b : BucketOrFalse}
    (h' : TreeAt s' root' compare (fun _ => True) t' (OrderedMap.insert bm k b)) :
    (refs t').length + ((bm k).elim 0 fun b => (b.getD []).length) =
      (refs t).length + (b.getD []).length := by
  rw [length_refs, length_refs]
  exact Represents.sum_insert keyOrder_int trivial h.represents h'.represents _

theorem length_refs_erase (h : TreeAt s root compare (fun _ => True) t bm) {k : ℤ}
    (h' : TreeAt s' root' compare (fun _ => True) t' (OrderedMap.erase bm k)) :
    (refs t').length + ((bm k).elim 0 fun b => (b.getD []).length) = (refs t).length := by
  rw [length_refs, length_refs]
  exact Represents.sum_erase keyOrder_int trivial h.represents h'.represents _

end Refs

namespace TableAt

variable {heap : Heap V} {table : Table} {t : Tree ℤ (ℕ × BucketOrFalse)}
  {bm : ℤ → Option BucketOrFalse} {B : ℤ → Option (List (Key × V))} {m : Key → Option V}

/-- A new table holds the empty map. -/
theorem empty (heap : Heap V) : TableAt heap ⟨none, 0⟩ nil (fun _ => none) (fun _ => none)
    (fun _ => none) :=
  ⟨treeAt_nil _, fun _ => trivial, .empty, rfl⟩

theorem bucket_of_some (h : TableAt heap table t bm B m) {k : ℤ} {b : BucketOrFalse}
    (hb : bm k = some b) : ∃ rs ps, b = some rs ∧ B k = some ps ∧ Holds heap.entries rs ps := by
  have hl := h.linked k
  rw [hb] at hl
  cases hB : B k with
  | none =>
    rw [hB] at hl
    cases b <;> exact absurd hl id
  | some ps =>
    rw [hB] at hl
    cases b with
    | none => exact absurd hl id
    | some rs => exact ⟨rs, ps, rfl, rfl, hl⟩

/-- An entry of a bucket has a key of its hash. -/
theorem hash_of_mem (h : TableAt heap table t bm B m) {k : ℤ} {rs : Bucket} {r : ℕ}
    (hb : bm k = some (some rs)) (hr : r ∈ rs) :
    ∃ e, heap.entries[r]? = some e ∧ hashValue e.key = k := by
  obtain ⟨rs', ps, hrs, hB, hh⟩ := h.bucket_of_some hb
  cases hrs
  obtain ⟨q, hq, hes⟩ := hh.exists_of_mem hr
  exact ⟨_, hes, h.keeps.own hB _ (List.mem_map_of_mem hq)⟩

/-- Two buckets share no entry. -/
theorem not_mem_of_ne (h : TableAt heap table t bm B m) {k k' : ℤ} {rs rs' : Bucket} {r : ℕ}
    (hb : bm k = some (some rs)) (hb' : bm k' = some (some rs')) (hne : k ≠ k')
    (hr : r ∈ rs) : r ∉ rs' := by
  intro hr'
  obtain ⟨e, he, hk⟩ := h.hash_of_mem hb hr
  obtain ⟨e', he', hk'⟩ := h.hash_of_mem hb' hr'
  rw [he, Option.some.injEq] at he'
  exact hne (by rw [← hk, ← hk', he'])

theorem lt_length_of_mem_refs (h : TableAt heap table t bm B m) {r : ℕ} (hr : r ∈ refs t) :
    r < heap.entries.length := by
  obtain ⟨k, rs, hb, hr⟩ := (mem_refs h.tree).mp hr
  obtain ⟨e, he, -⟩ := h.hash_of_mem hb hr
  exact (List.getElem?_eq_some_iff.mp he).1

/-- **What is changed outside a table does not concern it.** -/
theorem frame (h : TableAt heap table t bm B m) {heap' : Heap V}
    (hn : ∀ a ∈ addrs t, heap'.nodes.get a = heap.nodes.get a)
    (he : ∀ r ∈ refs t, heap'.entries[r]? = heap.entries[r]?) : TableAt heap' table t bm B m := by
  refine ⟨h.tree.frame hn, fun k => ?_, h.keeps, h.size⟩
  exact (h.linked k).frame (fun rs hb r hr => he r ((mem_refs h.tree).mpr ⟨k, rs, hb, hr⟩))

/-! ## The bucket of a hash -/

theorem search_run (h : TableAt heap table t bm B m) (k : ℤ) :
    (onNodes (rbSearch table.tree k) : HtM V BucketOrFalse) heap =
      (.ok ((bm k).getD none), heap) := by
  rw [rbSearch_eq]
  exact onNodes_run heap (h.tree.search keyOrder_int numericTests_agrees_int trivial)

/-- **A bucket takes the place of another one**, when the pairs it holds are
those of an update of the chained map. -/
theorem insertBucket (h : TableAt heap table t bm B m) {k : ℤ} {rs' : Bucket}
    {ps' : List (Key × V)} {es' : List (Entry V)} {m' : Key → Option V}
    (hes : EntriesFrame (((bm k).getD none).getD []) heap.entries es') (hh : Holds es' rs' ps')
    (hsub : ∀ r ∈ rs', r ∈ ((bm k).getD none).getD [] ∨ heap.entries.length ≤ r)
    (hk : Keeps hashValue (Function.update B k (some ps')) m') :
    ∃ s' t', rbInsert table.tree k (some rs') heap.nodes = (.ok (link t'), s') ∧
      (∀ size : ℤ, size + ((((bm k).getD none).getD []).length : ℤ) = table.size + rs'.length →
        ∀ tables, TableAt ⟨s', es', tables⟩ ⟨link t', size⟩ t' (OrderedMap.insert bm k (some rs'))
          (Function.update B k (some ps')) m') ∧
      ∀ tables, HeapEvolves heap t ⟨s', es', tables⟩ t' := by
  obtain ⟨s', t', hrun, ht', hev⟩ :=
    h.tree.insert keyOrder_int numericTests_agrees_int trivial (some rs')
  rw [← rbInsert_eq] at hrun
  have hold : ∀ r ∈ ((bm k).getD none).getD [], r ∈ refs t := fun r hr => by
    refine (mem_refs h.tree).mpr ?_
    cases hb : bm k with
    | none =>
      rw [hb] at hr
      exact absurd hr (by simp)
    | some b =>
      obtain ⟨rs, ps, rfl, -⟩ := h.bucket_of_some hb
      rw [hb] at hr
      exact ⟨k, rs, hb, hr⟩
  refine ⟨s', t', hrun, fun size hsize tables => ⟨ht', fun k' => ?_, hk, ?_⟩,
    fun tables => ⟨hev, hes.mono hold, fun r hr => ?_⟩⟩
  · -- the other buckets keep their entries
    rw [OrderedMap.insert, Function.update_apply, Function.update_apply]
    by_cases hkk : k' = k
    · rw [if_pos hkk, if_pos hkk]
      exact hh
    · rw [if_neg hkk, if_neg hkk]
      refine (h.linked k').frame (fun rs hb' r hr => ?_)
      obtain ⟨e, he, -⟩ := h.hash_of_mem hb' hr
      refine hes.get r (List.getElem?_eq_some_iff.mp he).1 (fun hro => ?_)
      cases hb : bm k with
      | none =>
        rw [hb] at hro
        exact absurd hro (by simp)
      | some b =>
        obtain ⟨rs₀, ps₀, rfl, -⟩ := h.bucket_of_some hb
        rw [hb] at hro
        exact h.not_mem_of_ne hb' hb hkk hr hro
  · have hlen := length_refs_insert h.tree ht'
    have hs := h.size
    have helim : ((bm k).elim 0 fun b => (b.getD []).length) =
        (((bm k).getD none).getD []).length := by
      cases bm k <;> rfl
    rw [helim, Option.getD_some] at hlen
    show size = _
    omega
  · obtain ⟨k', rs, hb, hr⟩ := (mem_refs ht').mp hr
    rw [OrderedMap.insert, Function.update_apply] at hb
    split at hb
    · cases hb
      exact (hsub r hr).imp_left (hold r)
    · exact Or.inl ((mem_refs h.tree).mpr ⟨k', rs, hb, hr⟩)

/-- **A bucket leaves the tree.** -/
theorem eraseBucket (h : TableAt heap table t bm B m) {k : ℤ} {rs : Bucket}
    {m' : Key → Option V} (hb : bm k = some (some rs))
    (hk : Keeps hashValue (Function.update B k none) m') :
    ∃ s' t', rbDelete table.tree k heap.nodes = (.ok (link t'), s') ∧
      (∀ size : ℤ, size + rs.length = table.size → ∀ tables,
        TableAt ⟨s', heap.entries, tables⟩ ⟨link t', size⟩ t' (OrderedMap.erase bm k)
          (Function.update B k none) m') ∧
      ∀ tables, HeapEvolves heap t ⟨s', heap.entries, tables⟩ t' := by
  obtain ⟨s', t', hrun, ht', hev⟩ := h.tree.delete keyOrder_int numericTests_agrees_int trivial
  rw [← rbDelete_eq] at hrun
  refine ⟨s', t', hrun, fun size hsize tables => ⟨ht', fun k' => ?_, hk, ?_⟩,
    fun tables => ⟨hev, .refl _ _, fun r hr => ?_⟩⟩
  · rw [OrderedMap.erase, Function.update_apply, Function.update_apply]
    by_cases hkk : k' = k
    · rw [if_pos hkk, if_pos hkk]
      trivial
    · rw [if_neg hkk, if_neg hkk]
      exact h.linked k'
  · have hlen := length_refs_erase h.tree ht'
    have hs := h.size
    rw [hb, Option.elim_some, Option.getD_some] at hlen
    show size = _
    omega
  · obtain ⟨k', rs', hb', hr⟩ := (mem_refs ht').mp hr
    rw [OrderedMap.erase, Function.update_apply] at hb'
    split at hb'
    · exact absurd hb' (by simp)
    · exact Or.inl ((mem_refs h.tree).mpr ⟨k', rs', hb', hr⟩)

/-! ## The operations -/

/-- **`hash-table-set!` updates the map.** -/
theorem set_run (h : TableAt heap table t bm B m) {ht : ℕ} (hht : heap.tables[ht]? = some table)
    (k : Key) (v : V) :
    ∃ heap' table' t' bm' B', hashTableSet ht k v heap = (.ok v, heap') ∧
      heap'.tables = heap.tables.set ht table' ∧
      TableAt heap' table' t' bm' B' (Function.update m k (some v)) ∧
      HeapEvolves heap t heap' t' := by
  have hkeeps := h.keeps.set k v
  have hlookup := h.keeps.lookup k
  have hstart : hashTableSet ht k v heap = _ :=
    (Cmd.bind_run_ok (htTree_run hht) _).trans (Cmd.bind_run_ok (h.search_run (hashValue k)) _)
  cases hb : bm (hashValue k) with
  | none =>
    have hB : B (hashValue k) = none := by
      have hl := h.linked (hashValue k)
      rw [hb] at hl
      cases hB : B (hashValue k) with
      | none => rfl
      | some ps =>
        rw [hB] at hl
        exact absurd hl id
    rw [hB] at hkeeps
    have hes : Holds (heap.entries ++ [⟨k, v⟩]) [heap.entries.length] [(k, v)] :=
      .cons (by simp) .nil
    obtain ⟨s', t', hrun, ht', hev⟩ := h.insertBucket
      ⟨by simp, fun r hr _ => List.getElem?_append_left hr⟩ hes
      (fun r hr => Or.inr (List.mem_singleton.mp hr).ge) hkeeps
    have hsize := ht' (table.size + 1) (by rw [hb]; simp)
    refine ⟨⟨s', heap.entries ++ [⟨k, v⟩], heap.tables.set ht ⟨link t', table.size + 1⟩⟩,
      ⟨link t', table.size + 1⟩, t', _, _, ?_, rfl, hsize _, hev _⟩
    rw [hstart, hb]
    have hht' : ({ nodes := s', entries := heap.entries ++ [⟨k, v⟩], tables := heap.tables } :
        Heap V).tables[ht]? = some table := hht
    refine (Cmd.bind_run_ok (makeHtEntry_run heap k v) _).trans ?_
    refine (Cmd.bind_run_ok (onNodes_run ⟨heap.nodes, heap.entries ++ [⟨k, v⟩], heap.tables⟩ hrun)
      _).trans ?_
    refine (Cmd.bind_run_ok (htSetTree_run hht' (link t')) _).trans ?_
    refine (Cmd.bind_run_ok (htIncSize_run (getElem?_set_table hht' _)) _).trans ?_
    simp [List.set_set]
  | some b =>
    obtain ⟨rs, ps, rfl, hB, hh⟩ := h.bucket_of_some hb
    rw [hB] at hkeeps
    obtain ⟨es', rs', hset, hh', hes, hsub⟩ := bucketSet_run k v hh (h.keeps.nodup hB)
    obtain ⟨s', t', hrun, ht', hev⟩ := h.insertBucket (k := hashValue k)
      (by rw [hb]; exact hes) hh' (by rw [hb]; exact hsub) hkeeps
    have hlen : rs'.length = rs.length + if (lookup k ps).isNone then 1 else 0 := by
      rw [hh'.length_eq, length_setPair, hh.length_eq]
    have hht' : ({ nodes := s', entries := es', tables := heap.tables } :
        Heap V).tables[ht]? = some table := hht
    -- the part that does not depend on whether an entry was added
    have hstep : ∀ (added : Bool) (f : Bool → HtM V V),
        bucketSet rs k v heap = (.ok (rs', added), { heap with entries := es' }) →
        (do
          let r ← bucketSet rs k v
          htSetTree ht (← onNodes (rbInsert table.tree (hashValue k) (some r.1)))
          f r.2 : HtM V V) heap =
        f added ⟨s', es', heap.tables.set ht { table with tree := link t' }⟩ :=
      fun added f hset => (Cmd.bind_run_ok hset _).trans
        ((Cmd.bind_run_ok (onNodes_run ⟨heap.nodes, es', heap.tables⟩ hrun) _).trans
          (Cmd.bind_run_ok (htSetTree_run hht' (link t')) _))
    have hset' := getElem?_set_table hht' { table with tree := link t' }
    let finish : Bool → HtM V V := fun added => do
      if added then htIncSize ht
      return v
    cases hl : lookup k ps with
    | none =>
      rw [hl] at hset hlen
      refine ⟨⟨s', es', heap.tables.set ht ⟨link t', table.size + 1⟩⟩, ⟨link t', table.size + 1⟩, t',
        _, _, ?_, rfl, ht' (table.size + 1) ?_ _, hev _⟩
      · rw [hstart, hb]
        refine (hstep _ finish hset).trans ?_
        refine (Cmd.bind_run_ok (htIncSize_run hset') _).trans ?_
        simp [List.set_set]
      · rw [hb, hlen]
        simp
        omega
    | some v₀ =>
      rw [hl] at hset hlen
      refine ⟨⟨s', es', heap.tables.set ht ⟨link t', table.size⟩⟩, ⟨link t', table.size⟩, t',
        _, _, ?_, rfl, ht' table.size ?_ _, hev _⟩
      · rw [hstart, hb]
        exact hstep _ finish hset
      · rw [hb, hlen]
        simp

/-- The bucket of a key against the map. -/
theorem bucket_cases (h : TableAt heap table t bm B m) (k : Key) :
    (bm (hashValue k) = none ∧ m k = none) ∨
      ∃ rs ps, bm (hashValue k) = some (some rs) ∧ B (hashValue k) = some ps ∧
        Holds heap.entries rs ps ∧ m k = lookup k ps := by
  have hlookup := h.keeps.lookup k
  cases hb : bm (hashValue k) with
  | none =>
    have hl := h.linked (hashValue k)
    rw [hb] at hl
    cases hB : B (hashValue k) with
    | none => exact Or.inl ⟨rfl, by rw [hlookup, hB]; rfl⟩
    | some ps =>
      rw [hB] at hl
      exact absurd hl id
  | some b =>
    obtain ⟨rs, ps, rfl, hB, hh⟩ := h.bucket_of_some hb
    exact Or.inr ⟨rs, ps, rfl, hB, hh, by rw [hlookup, hB]; rfl⟩

/-- **`hash-table-get` answers what the map holds.** -/
theorem get_run [HasFalse V] (h : TableAt heap table t bm B m) {ht : ℕ}
    (hht : heap.tables[ht]? = some table) (k : Key) (default : Option V) :
    hashTableGet ht k default heap = (.ok ((m k).getD (default.getD HasFalse.ff)), heap) := by
  have hstart : hashTableGet ht k default heap = _ :=
    (Cmd.bind_run_ok (htTree_run hht) _).trans (Cmd.bind_run_ok (h.search_run (hashValue k)) _)
  rw [hstart]
  rcases h.bucket_cases k with ⟨hb, hm⟩ | ⟨rs, ps, hb, -, hh, hm⟩
  · rw [hb, hm]
    rfl
  · obtain ⟨found, hrun, hsome, hval⟩ := bucketFind_run k hh
    rw [hb, hm]
    refine (Cmd.bind_run_ok hrun _).trans ?_
    cases found with
    | none =>
      rw [Option.isSome_none] at hsome
      rw [Option.isNone_iff_eq_none.mp (Option.isSome_eq_false_iff.mp hsome.symm)]
      rfl
    | some r =>
      have hr := hval r rfl
      rw [← hr]
      cases he : heap.entries[r]? with
      | none =>
        rw [he] at hr
        rw [← hr] at hsome
        exact absurd hsome (by simp)
      | some e => exact htEntryValue_run he

/-- `hash-table-has-key?` answers whether the map holds the key. -/
theorem hasKey_run (h : TableAt heap table t bm B m) {ht : ℕ}
    (hht : heap.tables[ht]? = some table) (k : Key) :
    (hashTableHasKey ht k : HtM V Bool) heap = (.ok (m k).isSome, heap) := by
  have hstart : (hashTableHasKey ht k : HtM V Bool) heap = _ :=
    (Cmd.bind_run_ok (htTree_run hht) _).trans (Cmd.bind_run_ok (h.search_run (hashValue k)) _)
  rw [hstart]
  rcases h.bucket_cases k with ⟨hb, hm⟩ | ⟨rs, ps, hb, -, hh, hm⟩
  · rw [hb, hm]
    rfl
  · obtain ⟨found, hrun, hsome, -⟩ := bucketFind_run k hh
    rw [hb, hm, ← hsome]
    exact Cmd.bind_run_ok hrun _

/-- **`hash-table-delete!` erases the key**, and says whether it was
there. -/
theorem delete_run (h : TableAt heap table t bm B m) {ht : ℕ}
    (hht : heap.tables[ht]? = some table) (k : Key) :
    ∃ heap' table' t' bm' B', (hashTableDelete ht k : HtM V Bool) heap = (.ok (m k).isSome, heap') ∧
      heap'.tables = heap.tables.set ht table' ∧
      TableAt heap' table' t' bm' B' (Function.update m k none) ∧
      HeapEvolves heap t heap' t' := by
  have hrefl : HeapEvolves heap t heap t :=
    ⟨⟨.refl _ _, fun _ ha => Or.inl ha⟩, .refl _ _, fun _ hr => Or.inl hr⟩
  have hset : heap.tables.set ht table = heap.tables := by
    obtain ⟨hlt, heq⟩ := List.getElem?_eq_some_iff.mp hht
    rw [← heq, List.set_getElem_self hlt]
  have hstart : (hashTableDelete ht k : HtM V Bool) heap = _ :=
    (Cmd.bind_run_ok (htTree_run hht) _).trans (Cmd.bind_run_ok (h.search_run (hashValue k)) _)
  -- a key that is not there leaves the table as it is
  have habsent : m k = none → (hashTableDelete ht k : HtM V Bool) heap = (.ok false, heap) →
      ∃ heap' table' t' bm' B', (hashTableDelete ht k : HtM V Bool) heap =
        (.ok (m k).isSome, heap') ∧ heap'.tables = heap.tables.set ht table' ∧
        TableAt heap' table' t' bm' B' (Function.update m k none) ∧
        HeapEvolves heap t heap' t' := fun hm hrun => by
    refine ⟨heap, table, t, bm, B, by rw [hrun, hm]; rfl, hset.symm, ?_, hrefl⟩
    rw [Function.update_eq_self_iff.mpr hm.symm]
    exact h
  rcases h.bucket_cases k with ⟨hb, hm⟩ | ⟨rs, ps, hb, hB, hh, hm⟩
  · exact habsent hm (by rw [hstart, hb]; rfl)
  obtain ⟨rs', hrun, hh', hsub⟩ := bucketRemove_run k hh
  cases hl : lookup k ps with
  | none =>
    rw [hl] at hrun hm
    refine habsent hm ?_
    rw [hstart, hb]
    exact Cmd.bind_run_ok hrun _
  | some v =>
    rw [hl] at hrun hm
    have hkeeps := h.keeps.remove hB
    have hlen : rs'.length + 1 = rs.length := by
      have := length_removePair (k := k) (l := ps)
      rw [hl] at this
      rw [hh'.length_eq, hh.length_eq]
      exact this
    rw [hstart, hb, hm]
    cases rs' with
    | nil =>
      rw [if_pos (List.forall₂_nil_left_iff.mp hh')] at hkeeps
      obtain ⟨s', t', hdel, ht', hev⟩ := h.eraseBucket hb hkeeps
      refine ⟨⟨s', heap.entries, heap.tables.set ht ⟨link t', table.size - 1⟩⟩,
        ⟨link t', table.size - 1⟩, t', _, _, ?_, rfl, ht' _ ?_ _, hev _⟩
      · have hht' : ({ nodes := s', entries := heap.entries, tables := heap.tables } :
            Heap V).tables[ht]? = some table := hht
        refine (Cmd.bind_run_ok hrun _).trans ?_
        refine (Cmd.bind_run_ok (onNodes_run heap hdel) _).trans ?_
        refine (Cmd.bind_run_ok (htSetTree_run hht' (link t')) _).trans ?_
        refine (Cmd.bind_run_ok (htDecSize_run (getElem?_set_table hht' _)) _).trans ?_
        simp [List.set_set]
      · rw [List.length_nil] at hlen
        omega
    | cons r₀ rs₀ =>
      have hne : removePair k ps ≠ [] := by
        intro hnil
        rw [hnil] at hh'
        exact absurd (List.forall₂_nil_right_iff.mp hh') (by simp)
      rw [if_neg hne] at hkeeps
      obtain ⟨s', t', hins, ht', hev⟩ := h.insertBucket (k := hashValue k) (.refl _ _) hh'
        (fun r hr => Or.inl (by rw [hb]; exact hsub r hr)) hkeeps
      refine ⟨⟨s', heap.entries, heap.tables.set ht ⟨link t', table.size - 1⟩⟩,
        ⟨link t', table.size - 1⟩, t', _, _, ?_, rfl, ht' _ ?_ _, hev _⟩
      · have hht' : ({ nodes := s', entries := heap.entries, tables := heap.tables } :
            Heap V).tables[ht]? = some table := hht
        refine (Cmd.bind_run_ok hrun _).trans ?_
        refine (Cmd.bind_run_ok (onNodes_run heap hins) _).trans ?_
        refine (Cmd.bind_run_ok (htSetTree_run hht' (link t')) _).trans ?_
        refine (Cmd.bind_run_ok (htDecSize_run (getElem?_set_table hht' _)) _).trans ?_
        simp [List.set_set]
      · rw [hb, Option.getD_some, Option.getD_some]
        omega

/-- `hash-table-clear!` leaves the empty map. -/
theorem clear_run (t : Tree ℤ (ℕ × BucketOrFalse)) {ht : ℕ}
    (hht : heap.tables[ht]? = some table) :
    ∃ heap', (hashTableClear ht : HtM V Unit) heap = (.ok (), heap') ∧
      heap'.tables = heap.tables.set ht ⟨none, 0⟩ ∧
      TableAt heap' ⟨none, 0⟩ nil (fun _ => none) (fun _ => none) (fun _ => none) ∧
      HeapEvolves heap t heap' nil := by
  refine ⟨{ heap with tables := heap.tables.set ht ⟨none, 0⟩ }, ?_, rfl, .empty _,
    ⟨⟨⟨le_rfl, rfl, fun _ _ _ => rfl⟩, fun _ ha => absurd ha (by simp)⟩, .refl _ _,
      fun _ hr => absurd hr (by simp [refs, toList])⟩⟩
  refine (Cmd.bind_run_ok (htSetTree_run hht none) _).trans ?_
  simp [htSetSize, tableAt, Cmd.bind_run, getElem?_set_table hht, List.set_set]

/-- **The entries of a tree are those of its buckets.** -/
theorem htTreeToEntries_run {s : Store ℤ BucketOrFalse} {t : Tree ℤ (ℕ × BucketOrFalse)}
    {fuel : ℕ} (h : Stored s t) (hf : t.size < fuel)
    (hd : ∀ e ∈ (erase t).toList, e.2.isSome = true) :
    htTreeToEntries fuel (link t) s = (.ok (refs t), s) := by
  induction t generalizing fuel with
  | nil =>
    obtain ⟨fuel, rfl⟩ := Nat.exists_eq_succ_of_ne_zero (Nat.ne_zero_of_lt hf)
    rfl
  | node c l k e r ihl ihr =>
    obtain ⟨fuel, rfl⟩ := Nat.exists_eq_succ_of_ne_zero (Nat.ne_zero_of_lt hf)
    rw [Tree.size] at hf
    rw [erase_node, toList] at hd
    have hl : htTreeToEntries fuel (link l) s = (.ok (refs l), s) :=
      ihl h.2.1 (by omega) (fun x hx => hd x (List.mem_append_left _ hx))
    have hr : htTreeToEntries fuel (link r) s = (.ok (refs r), s) :=
      ihr h.2.2 (by omega)
        (fun x hx => hd x (List.mem_append_right _ (List.mem_cons_of_mem _ hx)))
    have he := hd (k, e.2) (List.mem_append_right _ List.mem_cons_self)
    rw [htTreeToEntries, rbNull_link, if_neg (by simp [isNil]), Cmd.bind_run_ok (rbLeft_run h)]
    refine (Cmd.bind_run_ok hl _).trans ((Cmd.bind_run_ok (rbData_run h) _).trans ?_)
    rw [Cmd.bind_run_ok (rbRight_run h)]
    refine (Cmd.bind_run_ok hr _).trans ?_
    obtain ⟨bucket, hb⟩ := Option.isSome_iff_exists.mp he
    have hb' : e.2 = some bucket := hb
    rw [refs_node, hb']
    rfl

/-- **`hash-table->alist` lists the entries of the table.** -/
theorem toAlist_run (h : TableAt heap table t bm B m) {ht : ℕ}
    (hht : heap.tables[ht]? = some table) :
    (hashTableToAlist ht : HtM V (List ℕ)) heap = (.ok (refs t), heap) := by
  refine (Cmd.bind_run_ok (htTree_run hht) _).trans (onNodes_run heap ?_)
  rw [Cmd.bind_run_ok (depthBound_run _), h.tree.link_eq]
  refine htTreeToEntries_run h.tree.owned.stored (Nat.lt_succ_iff.mpr h.tree.owned.size_le)
    (fun e he => ?_)
  obtain ⟨rs, ps, hb, -⟩ := h.bucket_of_some ((h.tree.represents.mem_iff e.1 e.2).mp he)
  rw [hb]
  rfl

/-- **An entry of the table holds a pair of the map.** -/
theorem exists_of_mem_refs (h : TableAt heap table t bm B m) {r : ℕ} (hr : r ∈ refs t) :
    ∃ e, heap.entries[r]? = some e ∧ m e.key = some e.value := by
  obtain ⟨k, rs, hb, hr⟩ := (mem_refs h.tree).mp hr
  obtain ⟨rs', ps, hrs, hB, hh⟩ := h.bucket_of_some hb
  cases hrs
  obtain ⟨q, hq, hes⟩ := hh.exists_of_mem hr
  refine ⟨_, hes, h.keeps.eq_some_iff.mpr ⟨ps, ?_, hq⟩⟩
  rw [h.keeps.own hB _ (List.mem_map_of_mem hq), hB]

/-- **And every pair of the map is held by an entry.** -/
theorem exists_mem_refs (h : TableAt heap table t bm B m) {k : Key} {v : V}
    (hm : m k = some v) : ∃ r ∈ refs t, heap.entries[r]? = some ⟨k, v⟩ := by
  obtain ⟨ps, hB, hkv⟩ := h.keeps.eq_some_iff.mp hm
  have hl := h.linked (hashValue k)
  rw [hB] at hl
  cases hb : bm (hashValue k) with
  | none =>
    rw [hb] at hl
    exact absurd hl id
  | some b =>
    obtain ⟨rs, ps', rfl, hB', hh⟩ := h.bucket_of_some hb
    rw [hB, Option.some.injEq] at hB'
    subst hB'
    obtain ⟨r, hr, hes⟩ := hh.exists_of_mem_pairs hkv
    exact ⟨r, (mem_refs h.tree).mpr ⟨_, rs, hb, hr⟩, hes⟩

/-- **The entries of a table, read in order**: the pairs of the map, each
key once. -/
theorem exists_pairs (h : TableAt heap table t bm B m) :
    ∃ ps, Holds heap.entries (refs t) ps ∧ NodupKeys ps ∧ ∀ k v, (k, v) ∈ ps ↔ m k = some v := by
  have hbucket : ∀ e ∈ (erase t).toList,
      ∃ ps, B e.1 = some ps ∧ Holds heap.entries (e.2.getD []) ps := fun e he => by
    obtain ⟨rs, ps, hrs, hB, hh⟩ := h.bucket_of_some ((h.tree.represents.mem_iff e.1 e.2).mp he)
    exact ⟨ps, hB, by rw [hrs]; exact hh⟩
  have hholds : Holds heap.entries (refs t)
      ((erase t).toList.flatMap (fun e => (B e.1).getD [])) := by
    refine Holds.flatMap (fun e he => ?_)
    obtain ⟨ps, hB, hh⟩ := hbucket e he
    rw [hB]
    exact hh
  refine ⟨_, hholds, ?_, fun k v => ?_⟩
  · rw [NodupKeys, List.map_flatMap, List.nodup_flatMap]
    refine ⟨fun e he => ?_, h.tree.represents.sorted.imp_of_mem (fun {e e'} he he' hlt => ?_)⟩
    · obtain ⟨ps, hB, -⟩ := hbucket e he
      rw [hB]
      exact h.keeps.nodup hB
    · obtain ⟨ps, hB, -⟩ := hbucket e he
      obtain ⟨ps', hB', -⟩ := hbucket e' he'
      show List.Disjoint (((B e.1).getD []).map Prod.fst) (((B e'.1).getD []).map Prod.fst)
      rw [hB, hB']
      intro k hk hk'
      rw [compare_lt_iff_lt, ← h.keeps.own hB k hk, ← h.keeps.own hB' k hk'] at hlt
      exact absurd hlt (lt_irrefl _)
  · constructor
    · intro hkv
      obtain ⟨r, hr, hes⟩ := hholds.exists_of_mem_pairs hkv
      obtain ⟨e, he, hm⟩ := h.exists_of_mem_refs hr
      rw [hes, Option.some.injEq] at he
      subst he
      exact hm
    · intro hm
      obtain ⟨r, hr, hes⟩ := h.exists_mem_refs hm
      obtain ⟨q, hq, hes'⟩ := hholds.exists_of_mem hr
      rw [hes, Option.some.injEq, Entry.mk.injEq] at hes'
      rwa [show (k, v) = q from Prod.ext hes'.1 hes'.2]

end TableAt

/-! ## Many updates of one table -/

theorem HeapEvolves.refl (heap : Heap V) (t : Tree ℤ (ℕ × BucketOrFalse)) :
    HeapEvolves heap t heap t :=
  ⟨⟨.refl _ _, fun _ ha => Or.inl ha⟩, .refl _ _, fun _ hr => Or.inl hr⟩

theorem HeapEvolves.trans {h₁ h₂ h₃ : Heap V} {t₁ t₂ t₃ : Tree ℤ (ℕ × BucketOrFalse)}
    (h : HeapEvolves h₁ t₁ h₂ t₂) (h' : HeapEvolves h₂ t₂ h₃ t₃) : HeapEvolves h₁ t₁ h₃ t₃ := by
  refine ⟨⟨⟨h.nodes.frame.length.trans h'.nodes.frame.length,
    h'.nodes.frame.out.trans h.nodes.frame.out, fun a ha hat => ?_⟩, fun a ha => ?_⟩,
    ⟨h.entries.length.trans h'.entries.length, fun r hr hrt => ?_⟩, fun r hr => ?_⟩
  · have hat' : a ∉ addrs t₂ := fun ha' =>
      (h.nodes.within a ha').elim hat (fun hle => absurd ha (not_lt.mpr hle))
    rw [h'.nodes.frame.get a (ha.trans_le h.nodes.frame.length) hat', h.nodes.frame.get a ha hat]
  · rcases h'.nodes.within a ha with ha | ha
    · exact h.nodes.within a ha
    · exact Or.inr (h.nodes.frame.length.trans ha)
  · have hrt' : r ∉ HashTable.refs t₂ := fun hr' =>
      (h.refs r hr').elim hrt (fun hle => absurd hr (not_lt.mpr hle))
    rw [h'.entries.get r (hr.trans_le h.entries.length) hrt', h.entries.get r hr hrt]
  · rcases h'.refs r hr with hr | hr
    · exact h.refs r hr
    · exact Or.inr (h.entries.length.trans hr)

/-- **The pairs of some entries are put into a table**, to which these
entries do not belong. -/
theorem setEach_run {heap : Heap V} {table : Table} {t : Tree ℤ (ℕ × BucketOrFalse)}
    {bm : ℤ → Option BucketOrFalse} {B : ℤ → Option (List (Key × V))} {m : Key → Option V}
    {result : ℕ} {rs : List ℕ} {ps : List (Key × V)} (h : TableAt heap table t bm B m)
    (hresult : heap.tables[result]? = some table) (hh : Holds heap.entries rs ps)
    (hout : ∀ r ∈ rs, r ∉ refs t) :
    ∃ heap' table' t' bm' B', setEach result rs heap = (.ok (), heap') ∧
      heap'.tables = heap.tables.set result table' ∧
      TableAt heap' table' t' bm' B' (ps.foldl (fun m p => Function.update m p.1 (some p.2)) m) ∧
      HeapEvolves heap t heap' t' := by
  induction rs generalizing heap table t bm B m ps with
  | nil =>
    cases hh
    obtain ⟨hlt, heq⟩ := List.getElem?_eq_some_iff.mp hresult
    exact ⟨heap, table, t, bm, B, rfl, by rw [← heq, List.set_getElem_self hlt], h, .refl _ _⟩
  | cons r rs ih =>
    cases hh with
    | @cons _ p _ ps hr hh =>
      obtain ⟨h₁, table₁, t₁, bm₁, B₁, hrun₁, htab₁, ht₁, hev₁⟩ := h.set_run hresult p.1 p.2
      have hresult₁ : h₁.tables[result]? = some table₁ := by
        rw [htab₁]
        exact getElem?_set_table hresult table₁
      have hsame : ∀ r' ∈ rs, r' < heap.entries.length ∧ r' ∉ refs t := fun r' hr' =>
        ⟨Holds.lt_length hh hr', hout r' (List.mem_cons_of_mem _ hr')⟩
      have hh₁ : Holds h₁.entries rs ps :=
        Holds.frame hh (fun r' hr' => hev₁.entries.get r' (hsame r' hr').1 (hsame r' hr').2)
      obtain ⟨h₂, table₂, t₂, bm₂, B₂, hrun₂, htab₂, ht₂, hev₂⟩ := ih ht₁ hresult₁ hh₁
        (fun r' hr' hm => (hev₁.refs r' hm).elim (hsame r' hr').2
          (fun hle => absurd (hsame r' hr').1 (not_lt.mpr hle)))
      refine ⟨h₂, table₂, t₂, bm₂, B₂, ?_, by rw [htab₂, htab₁, List.set_set], ht₂,
        hev₁.trans hev₂⟩
      rw [setEach, Cmd.bind_run_ok (htEntryKey_run hr), Cmd.bind_run_ok (htEntryValue_run hr)]
      exact (Cmd.bind_run_ok hrun₁ _).trans hrun₂

end HashTable
