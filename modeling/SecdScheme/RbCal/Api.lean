import SecdScheme.RbCal.Code

/-!
# rbtree4.cal: handles and the public functions

A handle is the vector `[root, cmp, mode]`; the mode is what the guards of
the public functions look at. Handles are addresses as well. A handle of two
elements has no mode, and is let through by the guards.

`rb_root` and `rb_set_value`, which are documented as ways around the guards,
are not among the operations. The printing of a tree is left out.
-/

namespace RbCal

/-- The mode of a handle. -/
inductive Mode where
  | free
  | destr
  | pers
  | read
  deriving DecidableEq, Repr

/-- A handle: `[root, cmp, mode]`, the mode missing in an old one. -/
structure Handle (K : Type) where
  root : Link
  cmp : Comparator K
  mode : Option Mode

/-- The nodes, the handles, the number of misuses and what was displayed. -/
structure World (K V : Type) where
  heap : Heap K V
  handles : List (Handle K)
  misuseCount : ℕ
  out : List String

/-- A public function. -/
abbrev ApiM (K V α : Type) := Cmd (World K V) CalError α

variable {K V : Type}

/-- A function on nodes, which leaves the handles alone. -/
def onHeap {α : Type} (m : CalM K V α) : ApiM K V α := fun w =>
  ((m w.heap).1, { w with heap := (m w.heap).2 })

/-- The handle at an address. -/
def handleAt (db : ℕ) : ApiM K V (Handle K) := fun w =>
  match w.handles[db]? with
  | some d => (.ok d, w)
  | none => (.error .notVector, w)

/-- `vector(db)`. -/
def isHandle (db : ℕ) : ApiM K V Bool := fun w => (.ok w.handles[db]?.isSome, w)

/-- An assignment to a field of a handle. -/
def updateHandle (db : ℕ) (f : Handle K → Handle K) : ApiM K V Unit := do
  let d ← handleAt db
  Cmd.modifyState (fun w => { w with handles := w.handles.set db (f d) })

/-- `db[0] = root`. -/
def setRoot (db : ℕ) (root : Link) : ApiM K V Unit :=
  updateHandle db (fun d => { d with root := root })

/-- `db[2] = mode`. -/
def setMode (db : ℕ) (mode : Mode) : ApiM K V Unit :=
  updateHandle db (fun d => { d with mode := some mode })

/-! ## Guards -/

/-- `rbi_misuse`: a misuse is counted and displayed, and the function goes on. -/
def rbiMisuse (message : String) : ApiM K V Unit :=
  Cmd.modifyState (fun w => { w with
    misuseCount := w.misuseCount + 1
    out := w.out ++ ["  RB-MISUSE: " ++ message] })

/-- `rb_misuse_reset`. -/
def rbMisuseReset : ApiM K V Unit := Cmd.modifyState (fun w => { w with misuseCount := 0 })

/-- `rbi_want_destructive`: whether a tree may be updated in place. From then on it may
not be shared. -/
def rbiWantDestructive (db : ℕ) : ApiM K V Bool := do
  if !(← isHandle db) then
    rbiMisuse "handle is not a vector"
    return false
  match (← handleAt db).mode with
  | none => return true
  | some .pers =>
    rbiMisuse "destructive rb_* on a tree already updated by rbp_* (snapshots would break)"
    return false
  | some .read =>
    rbiMisuse "destructive rb_* on a read-only snapshot handle"
    return false
  | some _ =>
    setMode db .destr
    return true

/-- `rbi_want_persistent`: whether a tree may be updated by copying paths. From then on
it may not be updated in place. -/
def rbiWantPersistent (db : ℕ) : ApiM K V Bool := do
  if !(← isHandle db) then
    rbiMisuse "handle is not a vector"
    return false
  match (← handleAt db).mode with
  | none => return true
  | some .read =>
    rbiMisuse "rbp_* on a read-only snapshot handle (use rbp_from_root to branch)"
    return false
  | some _ =>
    setMode db .pers
    return true

/-! ## Handles -/

/-- A new handle. -/
def makeHandle (d : Handle K) : ApiM K V ℕ := fun w =>
  (.ok w.handles.length, { w with handles := w.handles ++ [d] })

/-- `rb_new`, and `rb_new_number` and `rb_new_string` at their comparison
functions. -/
def rbNew (cmp : Comparator K) : ApiM K V ℕ := do
  if cmp.isNone then rbiMisuse "rb_new: cmp must be a function taking (a, b)"
  makeHandle ⟨none, cmp, some .free⟩

/-- `rb_from_root`: a handle that may only be read, on the nodes of a snapshot. -/
def rbFromRoot (root : Link) (cmp : Comparator K) : ApiM K V ℕ :=
  makeHandle ⟨root, cmp, some .read⟩

/-- `rbp_from_root`: a branch off a snapshot, which only persistent updates may change. -/
def rbpFromRoot (root : Link) (cmp : Comparator K) : ApiM K V ℕ :=
  makeHandle ⟨root, cmp, some .pers⟩

/-- `rb_clear`: the tree is emptied, and may be updated either way again. -/
def rbClear (db : ℕ) : ApiM K V Unit := do
  if (← handleAt db).mode = some .read then
    rbiMisuse "rb_clear on a read-only snapshot handle"
  else
    setRoot db none
    if (← handleAt db).mode.isSome then setMode db .free

/-! ## Reading -/

/-- The bound on the depth of a recursion: the number of nodes. -/
def depthBound : ApiM K V ℕ := do return (← Cmd.getState).heap.nodes.length + 1

/-- `rb_size`. -/
def rbSize (db : ℕ) : ApiM K V ℤ := do onHeap (rbiSize (← handleAt db).root)

/-- `rb_is_empty`. -/
def rbIsEmpty (db : ℕ) : ApiM K V Bool := do return !vector (← handleAt db).root

/-- `rb_search_node`. -/
def rbSearchNode (db : ℕ) (k : K) : ApiM K V Link := do
  let d ← handleAt db
  onHeap (rbiSearch (← depthBound) d.root k d.cmp)

/-- `rb_contains`. -/
def rbContains (db : ℕ) (k : K) : ApiM K V Bool := do return vector (← rbSearchNode db k)

/-- `rb_key`: the key of a node that was found. -/
def rbKey (n : Link) : ApiM K V K := onHeap (key n)

/-- `rb_value`: its value. -/
def rbValue (n : Link) : ApiM K V V := onHeap (data n)

/-- `rb_found`: whether a search found a node. -/
def rbFound (n : Link) : Bool := vector n

/-- `rb_get`: the value of a key, or the one given for a key that is not there. -/
def rbGet (db : ℕ) (k : K) (default : V) : ApiM K V V := do
  let n ← rbSearchNode db k
  if vector n then rbValue n else return default

/-- `rb_min_node`. -/
def rbMinNode (db : ℕ) : ApiM K V Link := do
  let d ← handleAt db
  if !vector d.root then return none
  onHeap (rbiMinNode (← depthBound) d.root)

/-- `rb_max_node`. -/
def rbMaxNode (db : ℕ) : ApiM K V Link := do
  let d ← handleAt db
  if !vector d.root then return none
  onHeap (rbiMaxNode (← depthBound) d.root)

/-- `rb_floor_node`. -/
def rbFloorNode (db : ℕ) (k : K) : ApiM K V Link := do
  let d ← handleAt db
  onHeap (rbiFloor (← depthBound) d.root k d.cmp)

/-- `rb_ceiling_node`. -/
def rbCeilingNode (db : ℕ) (k : K) : ApiM K V Link := do
  let d ← handleAt db
  onHeap (rbiCeiling (← depthBound) d.root k d.cmp)

/-- `rb_rank`. -/
def rbRank (db : ℕ) (k : K) : ApiM K V ℤ := do
  let d ← handleAt db
  onHeap (rbiRank (← depthBound) d.root k d.cmp)

/-- `rb_select_node`: no index is below `0`. -/
def rbSelectNode (db : ℕ) (i : ℤ) : ApiM K V Link := do
  if i < 0 then return none
  let d ← handleAt db
  onHeap (rbiSelect (← depthBound) d.root i)

/-- `rb_foreach`: the pairs the procedure is applied to. -/
def rbForeach (db : ℕ) : ApiM K V (List (K × V)) := do
  let d ← handleAt db
  onHeap (rbiForeach (← depthBound) d.root)

/-- `rb_range`: the pairs between two keys, both included. -/
def rbRange (db : ℕ) (lo hi : K) : ApiM K V (List (K × V)) := do
  let d ← handleAt db
  onHeap (rbiRange (← depthBound) d.root lo hi d.cmp)

/-! ## Destructive updates -/

/-- `db[0][2] = c`. -/
def colorRoot (db : ℕ) (c : Llrb.Color) : ApiM K V Unit := do
  onHeap (setColor (← handleAt db).root c)

/-- Whether both children of a node are black. -/
def blackChildren (h : Link) : CalM K V Bool :=
  andM (do isColor .black (← left h)) (do isColor .black (← right h))

/-- The root is black at the end of a deletion. -/
def blackenRoot (db : ℕ) : ApiM K V Unit := do
  if vector (← handleAt db).root then colorRoot db .black

/-- The value, or `0` where the update is refused. -/
def rbPut (db : ℕ) (k : K) (v : V) : ApiM K V (Option V) := do
  if !(← rbiWantDestructive db) then return none
  let d ← handleAt db
  setRoot db (← onHeap (rbiPut (← depthBound) d.root k v d.cmp))
  colorRoot db .black
  return some v

/-- A destructive deletion once it is allowed: the root is painted red where
both its children are black, and black again at the end. -/
def deleteDestructive (db : ℕ) (del : ℕ → Link → Comparator K → CalM K V Link) :
    ApiM K V Bool := do
  if !(← rbiWantDestructive db) then return false
  let d ← handleAt db
  if (← onHeap (blackChildren d.root)) then colorRoot db .red
  setRoot db (← onHeap (del (← depthBound) d.root d.cmp))
  blackenRoot db
  return true

/-- `rb_delete`: whether the key was there. -/
def rbDelete (db : ℕ) (k : K) : ApiM K V Bool := do
  if !(← rbContains db k) then return false
  deleteDestructive db (fun fuel h cmp => rbiDel fuel h k cmp)

/-- `rb_delete_min`: whether there was a least key. -/
def rbDeleteMin (db : ℕ) : ApiM K V Bool := do
  if !vector (← handleAt db).root then return false
  deleteDestructive db (fun fuel h _ => rbiDelmin fuel h)

/-- `rb_delete_max`: whether there was a greatest key. -/
def rbDeleteMax (db : ℕ) : ApiM K V Bool := do
  if !vector (← handleAt db).root then return false
  deleteDestructive db (fun fuel h _ => rbiDelmax fuel h)

/-- The least black height that has room for `n` nodes. -/
def blackHeightFor (n : ℤ) : ℕ → ℕ → ℕ
  | 0, d => d
  | fuel + 1, d => if rbiBmaxB d < n then blackHeightFor n fuel (d + 1) else d

/-- The number of entries, or `-1`. The argument is a vector of elements, or no
vector at all. -/
def rbFromSorted (db : ℕ) (v : Option (List (Element K V))) : ApiM K V ℤ := do
  if !(← rbiWantDestructive db) then return -1
  match v with
  | none =>
    rbiMisuse "rb_from_sorted: a vector of [key, value] pairs is required"
    return -1
  | some v =>
    if !(← onHeap (rbiCheckSorted (← handleAt db).cmp none v)) then
      rbiMisuse "rb_from_sorted: need [key, value] pairs with strictly ascending keys"
      return -1
    let d := blackHeightFor v.length v.length 0
    setRoot db (← onHeap (rbiBuildB v (2 * v.length + 2) 0 v.length d))
    rbSize db

/-! ## Persistent updates -/

/-- `rbp_snapshot`: the root, after which the tree may not be updated in place. -/
def rbpSnapshot (db : ℕ) : ApiM K V Link := do
  let d ← handleAt db
  if d.mode.isSome ∧ d.mode ≠ some .read then setMode db .pers
  return (← handleAt db).root

/-- The insertion of `rbp_put` and `rbp_set_value`, once it is allowed. -/
def putPersistent (db : ℕ) (k : K) (v : V) : ApiM K V Unit := do
  let d ← handleAt db
  setRoot db (← onHeap (rbiPput (← depthBound) d.root k v d.cmp))
  colorRoot db .black

/-- `rbp_put`: the value, or `0` where the update is refused. -/
def rbpPut (db : ℕ) (k : K) (v : V) : ApiM K V (Option V) := do
  if !(← rbiWantPersistent db) then return none
  putPersistent db k v
  return some v

/-- `rbp_set_value`: the key has to be there. -/
def rbpSetValue (db : ℕ) (k : K) (v : V) : ApiM K V Bool := do
  if !(← rbContains db k) then return false
  if !(← rbiWantPersistent db) then return false
  putPersistent db k v
  return true

/-- A persistent deletion once it is allowed, on a copy of the root. -/
def deletePersistent (db : ℕ) (del : ℕ → Link → Comparator K → CalM K V Link) :
    ApiM K V Bool := do
  if !(← rbiWantPersistent db) then return false
  let d ← handleAt db
  let r ← onHeap (rbiCopy d.root)
  if (← onHeap (blackChildren r)) then onHeap (setColor r .red)
  setRoot db (← onHeap (del (← depthBound) r d.cmp))
  blackenRoot db
  return true

/-- `rbp_delete`: whether the key was there. -/
def rbpDelete (db : ℕ) (k : K) : ApiM K V Bool := do
  if !(← rbContains db k) then return false
  deletePersistent db (fun fuel h cmp => rbiPdel fuel h k cmp)

/-- `rbp_delete_min`: whether there was a least key. -/
def rbpDeleteMin (db : ℕ) : ApiM K V Bool := do
  if !vector (← handleAt db).root then return false
  deletePersistent db (fun fuel h _ => rbiPdelmin fuel h)

/-- `rbp_delete_max`: whether there was a greatest key. -/
def rbpDeleteMax (db : ℕ) : ApiM K V Bool := do
  if !vector (← handleAt db).root then return false
  deletePersistent db (fun fuel h _ => rbiPdelmax fuel h)

end RbCal
