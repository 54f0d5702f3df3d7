import SecdScheme.RbTree.Code

/-!
# The hash table library

The procedures of `hashtable_lib.scm`. A table keeps its buckets in a
red-black tree indexed by the hash of their keys, on the heap of
`rbtree_lib_improved.scm`. A bucket is a list of entries; the entries are
pairs that are updated in place, so a bucket is modelled by the list of their
addresses. What a tree holds under a hash is a bucket or `false`.

Several tables live side by side, since `hash-table-merge` and
`hash-table-copy` make new ones.
-/

namespace HashTable

open RbTree

/-- The keys that are covered: exact integers, symbols, booleans and
strings, the latter by their bytes. -/
inductive Key where
  | int (n : ℤ)
  | symbol (name : List UInt8)
  | bool (b : Bool)
  | string (bytes : List UInt8)
  deriving DecidableEq, Repr

/-- A pair `(key . value)`. -/
structure Entry (V : Type) where
  key : Key
  value : V
  deriving DecidableEq, Repr

/-- A bucket: the addresses of its entries. -/
abbrev Bucket := List ℕ

/-- What a tree holds: a bucket, or `false`. -/
abbrev BucketOrFalse := Option Bucket

/-- A table: the vector `#(tree size metadata)`, without the metadata that
nothing reads. -/
structure Table where
  tree : Link
  size : ℤ
  deriving DecidableEq, Repr

/-- The nodes of the trees, the entries and the tables. -/
structure Heap (V : Type) where
  nodes : Store ℤ BucketOrFalse
  entries : List (Entry V)
  tables : List Table

/-- A procedure of the library. -/
abbrev HtM (V α : Type) := Cmd (Heap V) (SchemeError ℤ) α

variable {V : Type}

/-! ## Hash values -/

/-- `hash-string`: `hash * 33 + c` from `5381` on, and the remainder at the end. -/
def hashString (str : List UInt8) : ℤ :=
  str.foldl (fun hash c => hash * 33 + (c.toNat : ℤ)) 5381 % 2147483647

/-- `hash-value`, by the type of the key. -/
def hashValue : Key → ℤ
  | .int n => n % 2147483647
  | .string bytes => hashString bytes
  | .symbol name => hashString name
  | .bool b => if b then 1 else 0

/-- `ht-keys-equal?`: keys of one type by the test of that type, others by `equal?`. -/
def htKeysEqual : Key → Key → Bool
  | .int a, .int b => a == b
  | .string a, .string b => a == b
  | .symbol a, .symbol b => a == b
  | .bool a, .bool b => a == b
  | k₁, k₂ => k₁ == k₂

/-! ## Tables -/

/-- A procedure of the red-black tree library. -/
def onNodes {α : Type} (m : RbM ℤ BucketOrFalse α) : HtM V α := fun h =>
  ((m h.nodes).1, { h with nodes := (m h.nodes).2 })

/-- A table, read through its address. -/
def tableAt (ht : ℕ) : HtM V Table := fun h =>
  match h.tables[ht]? with
  | some table => (.ok table, h)
  | none => (.error (.noNode ht), h)

/-- `make-hash-table`: no tree and no entries. -/
def makeHashTable : HtM V ℕ := fun h =>
  (.ok h.tables.length, { h with tables := h.tables ++ [⟨none, 0⟩] })

/-- `ht-tree`. -/
def htTree (ht : ℕ) : HtM V Link := do return (← tableAt ht).tree

/-- `ht-set-tree!`. -/
def htSetTree (ht : ℕ) (tree : Link) : HtM V Unit := do
  let table ← tableAt ht
  Cmd.modifyState (fun h => { h with tables := h.tables.set ht { table with tree := tree } })

/-- `ht-size`. -/
def htSize (ht : ℕ) : HtM V ℤ := do return (← tableAt ht).size

/-- `ht-set-size!`. -/
def htSetSize (ht : ℕ) (size : ℤ) : HtM V Unit := do
  let table ← tableAt ht
  Cmd.modifyState (fun h => { h with tables := h.tables.set ht { table with size := size } })

/-- `ht-inc-size!`. -/
def htIncSize (ht : ℕ) : HtM V Unit := do htSetSize ht ((← htSize ht) + 1)

/-- `ht-dec-size!`. -/
def htDecSize (ht : ℕ) : HtM V Unit := do htSetSize ht ((← htSize ht) - 1)

/-! ## Entries and buckets -/

/-- `make-ht-entry`. -/
def makeHtEntry (key : Key) (value : V) : HtM V ℕ := fun h =>
  (.ok h.entries.length, { h with entries := h.entries ++ [⟨key, value⟩] })

/-- An entry, read through its address. -/
def entryAt (entry : ℕ) : HtM V (Entry V) := fun h =>
  match h.entries[entry]? with
  | some e => (.ok e, h)
  | none => (.error (.noNode entry), h)

/-- `ht-entry-key`. -/
def htEntryKey (entry : ℕ) : HtM V Key := do return (← entryAt entry).key

/-- `ht-entry-value`. -/
def htEntryValue (entry : ℕ) : HtM V V := do return (← entryAt entry).value

/-- `ht-set-entry-value!`. -/
def htSetEntryValue (entry : ℕ) (value : V) : HtM V Unit := do
  let e ← entryAt entry
  Cmd.modifyState (fun h => { h with entries := h.entries.set entry { e with value := value } })

/-- The entry of a key, or `false`. -/
def bucketFind : Bucket → Key → HtM V (Option ℕ)
  | [], _ => return none
  | entry :: rest, key => do
    if htKeysEqual (← htEntryKey entry) key then return some entry
    else bucketFind rest key

/-- The new bucket, and whether an entry was added. -/
def bucketSet : Bucket → Key → V → HtM V (Bucket × Bool)
  | [], key, value => do return ([← makeHtEntry key value], true)
  | entry :: rest, key, value => do
    if htKeysEqual (← htEntryKey entry) key then
      htSetEntryValue entry value
      return (entry :: rest, false)
    else
      let result ← bucketSet rest key value
      return (entry :: result.1, result.2)

/-- The new bucket, and whether an entry was removed. -/
def bucketRemove : Bucket → Key → HtM V (Bucket × Bool)
  | [], _ => return ([], false)
  | entry :: rest, key => do
    if htKeysEqual (← htEntryKey entry) key then return (rest, true)
    else
      let result ← bucketRemove rest key
      return (entry :: result.1, result.2)

/-! ## The operations -/

/-- `hash-table-set!`: the bucket of the hash value is put back into the tree, and the
size grows only by an entry that was added. -/
def hashTableSet (ht : ℕ) (key : Key) (value : V) : HtM V V := do
  let hashKey := hashValue key
  let tree ← htTree ht
  match (← onNodes (rbSearch tree hashKey)) with
  | some bucket =>
    let (newBucket, added) ← bucketSet bucket key value
    htSetTree ht (← onNodes (rbInsert tree hashKey (some newBucket)))
    if added then htIncSize ht
  | none =>
    let entry ← makeHtEntry key value
    htSetTree ht (← onNodes (rbInsert tree hashKey (some [entry])))
    htIncSize ht
  return value

/-- The value of a key, or the default, or `false`. -/
def hashTableGet [HasFalse V] (ht : ℕ) (key : Key) (default : Option V) : HtM V V := do
  let tree ← htTree ht
  match (← onNodes (rbSearch tree (hashValue key))) with
  | some bucket =>
    match (← bucketFind bucket key) with
    | some entry => htEntryValue entry
    | none => return default.getD HasFalse.ff
  | none => return default.getD HasFalse.ff

/-- `hash-table-has-key?`. -/
def hashTableHasKey (ht : ℕ) (key : Key) : HtM V Bool := do
  let tree ← htTree ht
  match (← onNodes (rbSearch tree (hashValue key))) with
  | some bucket => return (← bucketFind bucket key).isSome
  | none => return false

/-- `hash-table-delete!`: a bucket that has become empty leaves the tree. -/
def hashTableDelete (ht : ℕ) (key : Key) : HtM V Bool := do
  let hashKey := hashValue key
  let tree ← htTree ht
  match (← onNodes (rbSearch tree hashKey)) with
  | some bucket =>
    let (newBucket, removed) ← bucketRemove bucket key
    if removed then
      if newBucket.isEmpty then htSetTree ht (← onNodes (rbDelete tree hashKey))
      else htSetTree ht (← onNodes (rbInsert tree hashKey (some newBucket)))
      htDecSize ht
      return true
    else return false
  | none => return false

/-- `hash-table-clear!`. -/
def hashTableClear (ht : ℕ) : HtM V Unit := do
  htSetTree ht none
  htSetSize ht 0

/-! ## Iteration -/

/-- The entries of the buckets in order. -/
def htTreeToEntries : ℕ → Link → RbM ℤ BucketOrFalse (List ℕ)
  | 0, _ => Cmd.fail .tooDeep
  | fuel + 1, node => do
    if rbNull node then return []
    let left ← htTreeToEntries fuel (← rbLeft node)
    let data ← rbData node
    let right ← htTreeToEntries fuel (← rbRight node)
    match data with
    | some bucket => return left ++ bucket ++ right
    | none => Cmd.fail (.error "append: argument must be a list" [])

/-- `hash-table->alist`: the entries themselves. -/
def hashTableToAlist (ht : ℕ) : HtM V (List ℕ) := do
  let tree ← htTree ht
  onNodes (do htTreeToEntries (← depthBound) tree)

/-- `(hash-table-for-each ht (lambda (k v) (hash-table-set! result k v)))`. -/
def setEach (result : ℕ) : List ℕ → HtM V Unit
  | [] => return ()
  | entry :: entries => do
    let _ ← hashTableSet result (← htEntryKey entry) (← htEntryValue entry)
    setEach result entries

/-- `hash-table-merge`: where both tables have a key, the second one's value stays. -/
def hashTableMerge (ht₁ ht₂ : ℕ) : HtM V ℕ := do
  let result ← makeHashTable
  setEach result (← hashTableToAlist ht₁)
  setEach result (← hashTableToAlist ht₂)
  return result

/-- `hash-table-copy`: the entries are new ones. -/
def hashTableCopy (ht : ℕ) : HtM V ℕ := do
  let result ← makeHashTable
  setEach result (← hashTableToAlist ht)
  return result

end HashTable
