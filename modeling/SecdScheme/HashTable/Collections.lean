import SecdScheme.HashTable.Runs
import SecdScheme.RbTree.Validate

/-!
# What is read out of a table, and tables that are made from lists

The procedures that walk over the entries take the list of the entries first.
All of them see the pairs of the map in one and the same order, each key once.
A filtered table, a table made from a list and an updated one are again tables
of finite maps, so that they may stand anywhere in a run.
-/

namespace HashTable

open Llrb Llrb.Tree RbTree ChainedMap SortedAssoc

variable {V : Type}

/-! ## The procedures -/

/-- `hash-table-size`. -/
def hashTableSize (ht : ℕ) : HtM V ℤ := htSize ht

/-- `hash-table-empty?`. -/
def hashTableEmpty (ht : ℕ) : HtM V Bool := do return (← htSize ht) == 0

/-- `hash-table-keys`. -/
def hashTableKeys (ht : ℕ) : HtM V (List Key) := do
  Cmd.mapList htEntryKey (← hashTableToAlist ht)

/-- `hash-table-values`. -/
def hashTableValues (ht : ℕ) : HtM V (List V) := do
  Cmd.mapList htEntryValue (← hashTableToAlist ht)

/-- A procedure of a key and a value, applied to an entry. -/
def onEntry {α : Type} (proc : Key → V → HtM V α) (entry : ℕ) : HtM V α := do
  proc (← htEntryKey entry) (← htEntryValue entry)

/-- `for-each` over the entries. -/
def forEachEntry (proc : Key → V → HtM V Unit) : List ℕ → HtM V Unit
  | [] => return ()
  | entry :: entries => do
    onEntry proc entry
    forEachEntry proc entries

/-- `hash-table-for-each`. -/
def hashTableForEach (ht : ℕ) (proc : Key → V → HtM V Unit) : HtM V Unit := do
  forEachEntry proc (← hashTableToAlist ht)

/-- `hash-table-map`. -/
def hashTableMap {W : Type} (ht : ℕ) (proc : Key → V → HtM V W) : HtM V (List W) := do
  Cmd.mapList (onEntry proc) (← hashTableToAlist ht)

/-- The loop of `hash-table-fold`. -/
def foldEntries {A : Type} (proc : Key → V → A → HtM V A) : List ℕ → A → HtM V A
  | [], acc => return acc
  | entry :: entries, acc => do
    foldEntries proc entries (← onEntry (fun key value => proc key value acc) entry)

/-- `hash-table-fold`. -/
def hashTableFold {A : Type} (ht : ℕ) (proc : Key → V → A → HtM V A) (init : A) : HtM V A := do
  foldEntries proc (← hashTableToAlist ht) init

/-- `hash-table-filter`: the entries the predicate holds of, in a new table. -/
def hashTableFilter (ht : ℕ) (pred : Key → V → HtM V Bool) : HtM V ℕ := do
  let newHt ← makeHashTable
  hashTableForEach ht fun key value => do
    if (← pred key value) then
      let _ ← hashTableSet newHt key value
  return newHt

/-- `for-each` over the pairs of a list. -/
def setPairs (ht : ℕ) : List (Key × V) → HtM V Unit
  | [] => return ()
  | pair :: alist => do
    let _ ← hashTableSet ht pair.1 pair.2
    setPairs ht alist

/-- `alist->hash-table`: of two pairs with one key the later one stays. -/
def alistToHashTable (alist : List (Key × V)) : HtM V ℕ := do
  let ht ← makeHashTable
  setPairs ht alist
  return ht

/-- `hash-table-update!`. -/
def hashTableUpdate [HasFalse V] (ht : ℕ) (key : Key) (proc : V → HtM V V) (default : Option V) :
    HtM V V := do
  let current ← hashTableGet ht key default
  hashTableSet ht key (← proc current)

/-- A procedure of the validator, with the variables it is given. -/
def onChecker {α : Type} (m : CheckM ℤ BucketOrFalse α) (vars : OrderVars ℤ) :
    HtM V (α × OrderVars ℤ) := fun h =>
  match m ⟨h.nodes, vars⟩ with
  | (.ok a, w) => (.ok (a, w.vars), { h with nodes := w.store })
  | (.error e, w) => (.error e, { h with nodes := w.store })

/-- A line about the table. -/
def displayVerdict (text : String) (verdict : Bool) : HtM V Unit :=
  onNodes (do display text; display (if verdict then "PASS" else "FAIL"); display "\n")

/-- `hash-table-validate`, with the variables of the tree's validator. -/
def hashTableValidate (ht : ℕ) (vars : OrderVars ℤ) : HtM V (Bool × OrderVars ℤ) := do
  onNodes (do display "Validating hash table..."; display "\n")
  let (treeValid, vars) ← onChecker (rbValidate (← htTree ht)) vars
  let countedSize := ((← hashTableToAlist ht).length : ℤ)
  let storedSize ← htSize ht
  displayVerdict "  Tree: " treeValid
  displayVerdict
    ("  Size: stored=" ++ toString storedSize ++ ", actual=" ++ toString countedSize ++ " ")
    (storedSize == countedSize)
  return (treeValid && storedSize == countedSize, vars)

/-! ## Walks over the entries -/

section Walks

variable {heap : Heap V} {rs : List ℕ} {ps : List (Key × V)}

theorem onEntry_run {α : Type} {proc : Key → V → HtM V α} {r : ℕ} {p : Key × V}
    (hr : heap.entries[r]? = some ⟨p.1, p.2⟩) : onEntry proc r heap = proc p.1 p.2 heap := by
  unfold onEntry
  rw [Cmd.bind_run_ok (htEntryKey_run hr), Cmd.bind_run_ok (htEntryValue_run hr)]

/-- **A walk that only reads** sees the pairs. -/
theorem mapList_run {W : Type} (hh : Holds heap.entries rs ps) {g : ℕ → HtM V W}
    {f : Key × V → W}
    (hg : ∀ r p, heap.entries[r]? = some ⟨p.1, p.2⟩ → g r heap = (.ok (f p), heap)) :
    Cmd.mapList g rs heap = (.ok (ps.map f), heap) := by
  induction hh with
  | nil => rfl
  | @cons r p rs ps hr _ ih =>
    unfold Cmd.mapList
    rw [Cmd.bind_run_ok (hg r p hr), Cmd.bind_run_ok ih]
    rfl

theorem foldEntries_run {A : Type} (hh : Holds heap.entries rs ps) (f : Key → V → A → A)
    (init : A) : foldEntries (fun key value acc => pure (f key value acc)) rs init heap =
      (.ok (ps.foldl (fun acc p => f p.1 p.2 acc) init), heap) := by
  induction hh generalizing init with
  | nil => rfl
  | @cons r p rs ps hr _ ih =>
    unfold foldEntries
    rw [Cmd.bind_run, onEntry_run hr]
    exact ih _

/-- **The rule for a walk**: an invariant of the pairs that are done, as long
as the entries hold their pairs. -/
theorem forEachEntry_run {proc : Key → V → HtM V Unit} {I : List (Key × V) → Heap V → Prop}
    (hkeep : ∀ done h, I done h → Holds h.entries rs ps)
    (hstep : ∀ done p h, I done h →
      ∃ h', proc p.1 p.2 h = (.ok (), h') ∧ I (done ++ [p]) h')
    (hstart : I [] heap) : ∃ h', forEachEntry proc rs heap = (.ok (), h') ∧ I ps h' := by
  -- what is still to be done is a part of the entries at the end
  have hrest : ∀ {rs' : List ℕ} {ps' done : List (Key × V)} {h : Heap V},
      (∀ done h, I done h → Holds h.entries rs' ps') → I done h →
      ∃ h', forEachEntry proc rs' h = (.ok (), h') ∧ I (done ++ ps') h' := by
    intro rs' ps' done h hrest hI
    induction rs' generalizing ps' done h with
    | nil =>
      cases hrest done h hI
      exact ⟨h, rfl, by rwa [List.append_nil]⟩
    | cons r rs' ih =>
      cases hrest done h hI with
      | @cons _ p _ ps' hr _ =>
        obtain ⟨h₁, hrun, hI₁⟩ := hstep done p h hI
        obtain ⟨h', hrun', hI'⟩ := ih (fun done h hI => by cases hrest done h hI; assumption) hI₁
        refine ⟨h', ?_, by rwa [List.append_assoc] at hI'⟩
        unfold forEachEntry
        rw [Cmd.bind_run_ok ((onEntry_run hr).trans hrun), hrun']
  obtain ⟨h', hrun, hI⟩ := hrest hkeep hstart
  exact ⟨h', hrun, hI⟩

end Walks

/-! ## What is read out -/

/-- The same heap when something else has been displayed. -/
def Heap.withOut (heap : Heap V) (out : List String) : Heap V :=
  { heap with nodes := { heap.nodes with out := out } }

/-- **What a table tells**: its pairs in one order, with each key once, for all
the procedures that read it out; and the validator finds it in order. -/
structure Tells (heap : Heap V) (ht : ℕ) (m : Key → Option V) (ps : List (Key × V)) : Prop where
  nodup : NodupKeys ps
  pairs : ∀ k v, (k, v) ∈ ps ↔ m k = some v
  size : (hashTableSize ht : HtM V ℤ) heap = (.ok ps.length, heap)
  empty : (hashTableEmpty ht : HtM V Bool) heap = (.ok ps.isEmpty, heap)
  keys : (hashTableKeys ht : HtM V (List Key)) heap = (.ok (ps.map (·.1)), heap)
  values : (hashTableValues ht : HtM V (List V)) heap = (.ok (ps.map (·.2)), heap)
  map : ∀ {W : Type} (f : Key → V → W),
    hashTableMap ht (fun k v => pure (f k v)) heap = (.ok (ps.map fun p => f p.1 p.2), heap)
  fold : ∀ {A : Type} (f : Key → V → A → A) init,
    hashTableFold ht (fun k v acc => pure (f k v acc)) init heap =
      (.ok (ps.foldl (fun acc p => f p.1 p.2 acc) init), heap)
  validate : ∀ vars, ∃ vars' out, (hashTableValidate ht vars : HtM V _) heap =
    (.ok (true, vars'), heap.withOut out)

section Tells

variable {heap : Heap V} {table : Table} {t : Tree ℤ (ℕ × BucketOrFalse)}
  {bm : ℤ → Option BucketOrFalse} {B : ℤ → Option (List (Key × V))} {m : Key → Option V} {ht : ℕ}

theorem htSize_run (h : heap.tables[ht]? = some table) :
    (htSize ht : HtM V ℤ) heap = (.ok table.size, heap) := by
  simp [htSize, tableAt, Cmd.bind_run, h]

/-- A table does not care what has been displayed. -/
theorem TableAt.withOut (h : TableAt heap table t bm B m) (out : List String) :
    TableAt (heap.withOut out) table t bm B m :=
  h.frame (fun _ _ => rfl) (fun _ _ => rfl)

theorem displayVerdict_run (text : String) (verdict : Bool) (heap : Heap V) :
    ∃ out, (displayVerdict text verdict : HtM V Unit) heap = (.ok (), heap.withOut out) :=
  ⟨_, rfl⟩

theorem balanced_of_erase {D : Type} : ∀ {t : Tree ℤ (ℕ × D)} {c : Color} {n : ℕ},
    Balanced (erase t) c n → Balanced t c n
  | nil, _, _, h => by
    cases h
    exact .nil
  | node c l k e r, _, _, h => by
    rw [erase_node] at h
    cases h with
    | black hl hr => exact .black (balanced_of_erase hl) (balanced_of_erase hr)
    | red hl hr => exact .red (balanced_of_erase hl) (balanced_of_erase hr)

/-- **The tree of a table is valid.** -/
theorem TableAt.valid (h : TableAt heap table t bm B m) : Valid (· < ·) t := by
  obtain ⟨n, hb⟩ := h.tree.balanced
  refine ⟨(balanced_of_erase hb).redBlack, ?_⟩
  have hsorted := h.tree.represents.sorted
  rw [StrictlySorted, erase, toList_mapData, List.pairwise_map] at hsorted
  exact List.pairwise_map.mpr (hsorted.imp fun hlt => compare_lt_iff_lt.mp hlt)

/-- **The validator** finds a table in order. -/
theorem TableAt.validate_run (h : TableAt heap table t bm B m)
    (hht : heap.tables[ht]? = some table) (vars : OrderVars ℤ) :
    ∃ vars' out, (hashTableValidate ht vars : HtM V _) heap =
      (.ok (true, vars'), heap.withOut out) := by
  -- each line is displayed on the heap that the one before has left
  have hthere : ∀ out, (heap.withOut out).tables[ht]? = some table := fun _ => hht
  obtain ⟨out₁, hline₁⟩ : ∃ out, (onNodes (do
      display "Validating hash table..."; display "\n") : HtM V Unit) heap =
        (.ok (), heap.withOut out) := ⟨_, rfl⟩
  obtain ⟨b, vars', ⟨out₂, hcheck⟩, hb⟩ := checks_rbValidate
    (w := ⟨(heap.withOut out₁).nodes, vars⟩) (h.withOut out₁).tree.owned
  obtain rfl : b = true := hb.mpr h.valid
  have hchecker : (onChecker (rbValidate table.tree) vars : HtM V _) (heap.withOut out₁) =
      (.ok (true, vars'), heap.withOut out₂) := by
    unfold onChecker
    rw [h.tree.link_eq, hcheck]
    rfl
  obtain ⟨out₃, hline₃⟩ := displayVerdict_run "  Tree: " true (heap.withOut out₂)
  obtain ⟨out₄, hline₄⟩ := displayVerdict_run
    ("  Size: stored=" ++ toString table.size ++ ", actual=" ++
      toString ((refs t).length : ℤ) ++ " ") (table.size == ((refs t).length : ℤ))
    ((heap.withOut out₂).withOut out₃)
  refine ⟨vars', out₄, ?_⟩
  unfold hashTableValidate
  rw [Cmd.bind_run_ok hline₁, Cmd.bind_run_ok (htTree_run (hthere out₁)),
    Cmd.bind_run_ok hchecker]
  dsimp only
  rw [Cmd.bind_run_ok ((h.withOut out₂).toAlist_run (hthere out₂)),
    Cmd.bind_run_ok (htSize_run (hthere out₂)), Cmd.bind_run_ok hline₃, Cmd.bind_run_ok hline₄,
    h.size, beq_self_eq_true]
  rfl

/-- **A table that holds a map tells it.** -/
theorem TableAt.tells (h : TableAt heap table t bm B m) (hht : heap.tables[ht]? = some table) :
    ∃ ps, Tells heap ht m ps := by
  obtain ⟨ps, hh, hn, hps⟩ := h.exists_pairs
  have hlist := h.toAlist_run hht
  have hsize : table.size = ps.length := by rw [h.size, hh.length_eq]
  refine ⟨ps, hn, hps, (htSize_run hht).trans (by rw [hsize]), ?_, ?_, ?_, fun f => ?_,
    fun f init => ?_, h.validate_run hht⟩
  · unfold hashTableEmpty
    rw [Cmd.bind_run_ok (htSize_run hht), hsize]
    cases ps <;> rfl
  · exact (Cmd.bind_run_ok hlist _).trans (mapList_run hh fun r p hr => htEntryKey_run hr)
  · exact (Cmd.bind_run_ok hlist _).trans (mapList_run hh fun r p hr => htEntryValue_run hr)
  · exact (Cmd.bind_run_ok hlist _).trans (mapList_run hh fun r p hr => onEntry_run hr)
  · exact (Cmd.bind_run_ok hlist _).trans (foldEntries_run hh f init)

end Tells

/-! ## Tables that are made -/

/-- The pairs of a list put into a map, one after the other. -/
def withPairs (m : Key → Option V) (ps : List (Key × V)) : Key → Option V :=
  ps.foldl (fun m p => Function.update m p.1 (some p.2)) m

/-- **A table is filled**: from one map to another, with nothing else touched. -/
def Fills (ht : ℕ) (heap : Heap V) (t : Tree ℤ (ℕ × BucketOrFalse)) (m' : Key → Option V)
    (heap' : Heap V) : Prop :=
  ∃ table' t' bm' B', heap'.tables = heap.tables.set ht table' ∧
    TableAt heap' table' t' bm' B' m' ∧ HeapEvolves heap t heap' t'

section Fills

variable {heap heap' : Heap V} {table : Table} {t : Tree ℤ (ℕ × BucketOrFalse)}
  {bm : ℤ → Option BucketOrFalse} {B : ℤ → Option (List (Key × V))} {m m' : Key → Option V}
  {ht : ℕ}

theorem Fills.refl (h : TableAt heap table t bm B m) (hht : heap.tables[ht]? = some table) :
    Fills ht heap t m heap := by
  obtain ⟨hlt, heq⟩ := List.getElem?_eq_some_iff.mp hht
  exact ⟨table, t, bm, B, by rw [← heq, List.set_getElem_self hlt], h, .refl _ _⟩

/-- One more pair is put into the table. -/
theorem Fills.set (h : Fills ht heap t m' heap') (hht : ht < heap.tables.length) (k : Key) (v : V) :
    ∃ heap'', hashTableSet ht k v heap' = (.ok v, heap'') ∧
      Fills ht heap t (Function.update m' k (some v)) heap'' := by
  obtain ⟨table', t', bm', B', htab, hti, hev⟩ := h
  have hget : heap'.tables[ht]? = some table' := by rw [htab, List.getElem?_set_self hht]
  obtain ⟨heap'', table'', t'', bm'', B'', hrun, htab', hti', hev'⟩ := hti.set_run hget k v
  exact ⟨heap'', hrun, table'', t'', bm'', B'', by rw [htab', htab, List.set_set], hti',
    hev.trans hev'⟩

theorem Fills.setPairs (h : Fills ht heap t m' heap') (hht : ht < heap.tables.length)
    (ps : List (Key × V)) :
    ∃ heap'', setPairs ht ps heap' = (.ok (), heap'') ∧
      Fills ht heap t (withPairs m' ps) heap'' := by
  induction ps generalizing m' heap' with
  | nil => exact ⟨heap', rfl, h⟩
  | cons p ps ih =>
    obtain ⟨h₁, hrun₁, hfills₁⟩ := h.set hht p.1 p.2
    obtain ⟨h₂, hrun₂, hfills₂⟩ := ih hfills₁
    exact ⟨h₂, (Cmd.bind_run_ok hrun₁ _).trans hrun₂, hfills₂⟩

/-- **The pairs that a filter lets through** are put into the table, while the
entries of another table are walked over. -/
theorem Fills.filterEntries {rs : List ℕ} {ps : List (Key × V)} (h : Fills ht heap t m heap)
    (hht : ht < heap.tables.length) (hh : Holds heap.entries rs ps) (hout : ∀ r ∈ rs, r ∉ refs t)
    (pred : Key → V → Bool) :
    ∃ heap', forEachEntry (fun key value => do
        if (← (pure (pred key value) : HtM V Bool)) then
          let _ ← hashTableSet ht key value) rs heap = (.ok (), heap') ∧
      Fills ht heap t (withPairs m (ps.filter fun p => pred p.1 p.2)) heap' := by
  have hkeep : ∀ (done : List (Key × V)) h',
      Fills ht heap t (withPairs m (done.filter fun p => pred p.1 p.2)) h' →
        Holds h'.entries rs ps := by
    rintro done h' ⟨table', t', bm', B', -, -, hev⟩
    exact Holds.frame hh fun r hr => hev.entries.get r (Holds.lt_length hh hr) (hout r hr)
  refine forEachEntry_run hkeep (fun done p h' hfills => ?_) h
  cases hpred : pred p.1 p.2 with
  | false =>
    refine ⟨h', rfl, ?_⟩
    rw [List.filter_append, List.filter_cons, hpred, List.filter_nil]
    rwa [if_neg Bool.false_ne_true, List.append_nil]
  | true =>
    obtain ⟨h'', hrun, hfills'⟩ := hfills.set hht p.1 p.2
    refine ⟨h'', Cmd.bind_run_ok hrun _, ?_⟩
    rw [List.filter_append, List.filter_cons, hpred, List.filter_nil, if_pos rfl, withPairs,
      List.foldl_append]
    exact hfills'

end Fills

/-- The pairs of a map that a filter lets through. -/
theorem withPairs_filter {m : Key → Option V} {ps : List (Key × V)} (hn : NodupKeys ps)
    (hps : ∀ k v, (k, v) ∈ ps ↔ m k = some v) (pred : Key → V → Bool) :
    withPairs noPairs (ps.filter fun p => pred p.1 p.2) = fun k => (m k).filter (pred k) := by
  have hn' : NodupKeys (ps.filter fun p => pred p.1 p.2) :=
    hn.sublist (List.filter_sublist.map Prod.fst)
  funext k
  unfold withPairs
  rw [foldl_update hn', show noPairs k = (none : Option V) from rfl, Option.or_none]
  refine Option.ext fun v => ?_
  rw [lookup_eq_some_iff hn', List.mem_filter, hps, Option.filter_eq_some_iff]

namespace TablesAt

variable {heap heap' : Heap V} {T : ℕ → Tree ℤ (ℕ × BucketOrFalse)} {ms : Maps V}

/-- **A new table is filled** beside the tables there are. -/
theorem makeFilled (h : TablesAt heap T ms) {m' : Key → Option V} (fill : ℕ → HtM V Unit)
    (hfill : ∃ heap', fill ms.length { heap with tables := heap.tables ++ [⟨none, 0⟩] } =
        (.ok (), heap') ∧
      Fills ms.length { heap with tables := heap.tables ++ [⟨none, 0⟩] } nil m' heap') :
    ∃ heap' T', (do let ht ← makeHashTable; fill ht; return ht : HtM V ℕ) heap =
        (.ok ms.length, heap') ∧ TablesAt heap' T' (ms ++ [m']) := by
  obtain ⟨heap', hrun, table', t', bm', B', htab, hti, hev⟩ := hfill
  obtain ⟨hmake, -⟩ := h.makeHashTable_run
  have hlt : ms.length < (ms ++ [noPairs (V := V)]).length := by
    rw [List.length_append, List.length_singleton]
    exact Nat.lt_succ_self _
  have hnil : (Function.update T ms.length nil) ms.length = nil := Function.update_self ..
  have hup := h.make.update hlt htab hti (hnil.symm ▸ hev)
  rw [List.set_append_right _ _ le_rfl, Nat.sub_self, List.set_cons_zero] at hup
  exact ⟨heap', _, (Cmd.bind_run_ok hmake _).trans (Cmd.bind_run_ok hrun _), hup⟩

/-- The table that has been made is empty. -/
theorem fills_make (h : TablesAt heap T ms) :
    Fills ms.length { heap with tables := heap.tables ++ [⟨none, 0⟩] } nil noPairs
      { heap with tables := heap.tables ++ [⟨none, 0⟩] } :=
  .refl (.empty _) (by
    rw [← h.length]
    exact List.getElem?_concat_length)

theorem length_make (h : TablesAt heap T ms) :
    ms.length < (heap.tables ++ [(⟨none, 0⟩ : Table)]).length := by
  rw [List.length_append, h.length]
  exact Nat.lt_succ_self _

/-- **`alist->hash-table`**: of several values of a key, the last. -/
theorem fromAlist_run (h : TablesAt heap T ms) (ps : List (Key × V)) :
    ∃ heap' T', (alistToHashTable ps : HtM V ℕ) heap = (.ok ms.length, heap') ∧
      TablesAt heap' T' (ms ++ [withPairs noPairs ps]) :=
  h.makeFilled (fun ht => setPairs ht ps) (h.fills_make.setPairs h.length_make ps)

/-- **`hash-table-filter`** leaves the old table as it is. -/
theorem filter_run (h : TablesAt heap T ms) {ht : ℕ} (hht : ht < ms.length)
    (pred : Key → V → Bool) :
    ∃ heap' T', (hashTableFilter ht (fun k v => pure (pred k v)) : HtM V ℕ) heap =
        (.ok ms.length, heap') ∧
      TablesAt heap' T' (ms ++ [fun k => (ms.at ht k).filter (pred k)]) := by
  have hmade := h.make
  have hlen : (ms ++ [noPairs (V := V)]).length = ms.length + 1 := by
    rw [List.length_append, List.length_singleton]
  obtain ⟨table, bm, B, hget, hti⟩ := hmade.exists_table (i := ht) (by omega)
  obtain ⟨ps, hh, hn, hps⟩ := hti.exists_pairs
  rw [at_append_of_lt hht] at hps
  refine h.makeFilled (fun new => hashTableForEach ht fun key value => do
    if (← (pure (pred key value) : HtM V Bool)) then
      let _ ← hashTableSet new key value) ?_
  obtain ⟨heap', hrun, hfills⟩ := h.fills_make.filterEntries h.length_make hh
    (fun r _ hr => by simp [HashTable.refs, toList] at hr) pred
  rw [withPairs_filter hn hps] at hfills
  exact ⟨heap', (Cmd.bind_run_ok (hti.toAlist_run hget) _).trans hrun, hfills⟩

/-- **`hash-table-update!`**, with the value there is or the default. -/
theorem update_run [HasFalse V] (h : TablesAt heap T ms) {ht : ℕ} (hht : ht < ms.length) (k : Key)
    (proc : V → V) (default : Option V) :
    ∃ heap' T', hashTableUpdate ht k (fun v => pure (proc v)) default heap =
        (.ok (proc ((ms.at ht k).getD (default.getD HasFalse.ff))), heap') ∧
      TablesAt heap' T' (List.set ms ht (Function.update (ms.at ht) k
        (some (proc ((ms.at ht k).getD (default.getD HasFalse.ff)))))) := by
  obtain ⟨table, bm, B, hget, hti⟩ := h.exists_table hht
  obtain ⟨heap', table', t', bm', B', hrun, htab, hti', hev⟩ :=
    hti.set_run hget k (proc ((ms.at ht k).getD (default.getD HasFalse.ff)))
  exact ⟨heap', _, (Cmd.bind_run_ok (hti.get_run hget k default) _).trans hrun,
    h.update hht htab hti' hev⟩

end TablesAt

/-! ## Runs -/

/-- An operation of a run: one of the operations on tables, or one that takes a
procedure, a predicate or a list. Procedures and predicates return, and have no
side effects: they are functions of what they are given. -/
inductive CollOp (V : Type) where
  | basic (op : HtOp V)
  | update (ht : ℕ) (key : Key) (proc : V → V) (default : Option V)
  | filter (ht : ℕ) (pred : Key → V → Bool)
  | fromAlist (alist : List (Key × V))

namespace CollOp

/-- The tables an operation is given. -/
def tables : CollOp V → List ℕ
  | basic op => op.tables
  | update ht _ _ _ => [ht]
  | filter ht _ => [ht]
  | fromAlist _ => []

/-- The operation under its name. -/
def exec [HasFalse V] : CollOp V → HtM V (Answer V)
  | basic op => op.exec
  | update ht key proc default => do
    return .value (← hashTableUpdate ht key (fun v => pure (proc v)) default)
  | filter ht pred => do return .table (← hashTableFilter ht fun k v => pure (pred k v))
  | fromAlist alist => do return .table (← alistToHashTable alist)

/-- What an update puts into a map. -/
def updated [HasFalse V] (m : Key → Option V) (key : Key) (proc : V → V) (default : Option V) : V :=
  proc ((m key).getD (default.getD HasFalse.ff))

/-- What an operation does to the finite maps. -/
def onMaps [HasFalse V] : CollOp V → Maps V → Maps V
  | basic op, ms => op.onMaps ms
  | update ht key proc default, ms =>
    List.set ms ht (Function.update (ms.at ht) key (some (updated (ms.at ht) key proc default)))
  | filter ht pred, ms => ms ++ [fun k => (ms.at ht k).filter (pred k)]
  | fromAlist alist, ms => ms ++ [withPairs noPairs alist]

/-- What an operation answers. -/
def answer [HasFalse V] : CollOp V → Maps V → Answer V
  | basic op, ms => op.answer ms
  | update ht key proc default, ms => .value (updated (ms.at ht) key proc default)
  | filter _ _, ms => .table ms.length
  | fromAlist _, ms => .table ms.length

end CollOp

/-- One operation after another, with what they return. -/
def runColl [HasFalse V] : List (CollOp V) → HtM V (List (Answer V))
  | [] => return []
  | op :: ops => do
    let a ← op.exec
    return a :: (← runColl ops)

/-- The maps after some operations. -/
def collMapsAfter [HasFalse V] (ops : List (CollOp V)) (ms : Maps V) : Maps V :=
  ops.foldl (fun ms op => op.onMaps ms) ms

/-- The answers of some operations. -/
def collAnswersOf [HasFalse V] : List (CollOp V) → Maps V → List (Answer V)
  | [], _ => []
  | op :: ops, ms => op.answer ms :: collAnswersOf ops (op.onMaps ms)

/-- The tables that are mentioned exist when they are. -/
def CollMentions [HasFalse V] : List (CollOp V) → Maps V → Prop
  | [], _ => True
  | op :: ops, ms => (∀ ht ∈ op.tables, ht < ms.length) ∧ CollMentions ops (op.onMaps ms)

namespace TablesAt

variable {heap : Heap V} {T : ℕ → Tree ℤ (ℕ × BucketOrFalse)} {ms : Maps V}

/-- **Each operation** answers as the finite maps do, and updates them. -/
theorem execColl [HasFalse V] (h : TablesAt heap T ms) (op : CollOp V)
    (hop : ∀ ht ∈ op.tables, ht < ms.length) :
    ∃ heap' T', op.exec heap = (.ok (op.answer ms), heap') ∧
      TablesAt heap' T' (op.onMaps ms) := by
  cases op with
  | basic op =>
    obtain ⟨heap', T', hrun, htabs, -⟩ := h.exec op hop
    exact ⟨heap', T', hrun, htabs⟩
  | update ht key proc default =>
    obtain ⟨heap', T', hrun, htabs⟩ :=
      h.update_run (hop ht (List.mem_singleton_self ht)) key proc default
    exact ⟨heap', T', Cmd.bind_run_ok hrun _, htabs⟩
  | filter ht pred =>
    obtain ⟨heap', T', hrun, htabs⟩ := h.filter_run (hop ht (List.mem_singleton_self ht)) pred
    exact ⟨heap', T', Cmd.bind_run_ok hrun _, htabs⟩
  | fromAlist alist =>
    obtain ⟨heap', T', hrun, htabs⟩ := h.fromAlist_run alist
    exact ⟨heap', T', Cmd.bind_run_ok hrun _, htabs⟩

theorem runColl [HasFalse V] (h : TablesAt heap T ms) (ops : List (CollOp V))
    (hops : CollMentions ops ms) :
    ∃ heap' T', runColl ops heap = (.ok (collAnswersOf ops ms), heap') ∧
      TablesAt heap' T' (collMapsAfter ops ms) := by
  induction ops generalizing heap T ms with
  | nil => exact ⟨heap, T, rfl, h⟩
  | cons op ops ih =>
    obtain ⟨h₁, T₁, hrun₁, htabs₁⟩ := h.execColl op hops.1
    obtain ⟨h₂, T₂, hrun₂, htabs₂⟩ := ih htabs₁ hops.2
    exact ⟨h₂, T₂, (Cmd.bind_run_ok hrun₁ _).trans (Cmd.bind_run_ok hrun₂ _), htabs₂⟩

end TablesAt

/-- **Tables are read out as finite maps.** Any sequence of operations, also
with updates by procedures, filters and tables made from lists, answers as the
finite maps do; and afterwards every table tells the pairs of its map, in one
order for all that read it out. -/
theorem collections_refine_maps [HasFalse V] (ops : List (CollOp V)) (hops : CollMentions ops []) :
    ∃ heap, runColl ops ⟨⟨[], []⟩, [], []⟩ = (.ok (collAnswersOf ops []), heap) ∧
      heap.tables.length = (collMapsAfter ops []).length ∧
      ∀ ht < heap.tables.length, ∃ ps, Tells heap ht ((collMapsAfter ops []).at ht) ps := by
  obtain ⟨heap, T, hrun, h⟩ := TablesAt.empty.runColl ops hops
  refine ⟨heap, hrun, h.length, fun ht hht => ?_⟩
  obtain ⟨table, bm, B, hget, hti⟩ := h.exists_table (h.length ▸ hht)
  exact hti.tells hget

/-- A table from a list that has a key twice; it is updated and filtered. -/
def filteredOps : List (CollOp (Option ℕ)) :=
  [.fromAlist [(.int 1, some 10), (.bool true, some 20), (.int 1, some 30)],
    .update 0 (.int 1) (fun v => v.map (· + 1)) none, .filter 0 (fun k _ => k == .int 1),
    .basic (.hasKey 1 (.bool true))]

theorem collections_refine_maps_filtered :
    ∃ heap, runColl filteredOps ⟨⟨[], []⟩, [], []⟩ = (.ok (collAnswersOf filteredOps []), heap) ∧
      heap.tables.length = (collMapsAfter filteredOps []).length ∧
      ∀ ht < heap.tables.length, ∃ ps, Tells heap ht ((collMapsAfter filteredOps []).at ht) ps :=
  collections_refine_maps filteredOps
    (by simp [filteredOps, CollMentions, CollOp.tables, CollOp.onMaps, HtOp.tables])

end HashTable
