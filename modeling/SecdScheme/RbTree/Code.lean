import SecdScheme.Lib.Cmd
import SecdScheme.Lib.Llrb
import Mathlib.Algebra.Ring.Int.Defs

/-!
# The red-black tree library

The node procedures of `rbtree_lib_improved.scm`, on a heap of five-slot
nodes that are updated in place. A link is the address of a node, or nothing
for `RB-NIL`. A procedure that fails keeps the updates it has made, so the
state in which an error leaves the tree can be spoken about.

Search, insertion and deletion are there twice, as in the source: the numeric
path compares with `<`, `=` and `>`, the other one with a comparator kept in the
handle.

Recursion is on a bound of the depth. The procedures called from outside
take the number of nodes in the heap for it, which no path exceeds.
-/

namespace RbTree

open Llrb

/-- A link: the address of a node, or `RB-NIL`. -/
abbrev Link := Option ℕ

/-- A node: the vector `#(left right color key data)`. -/
structure Node (K D : Type) where
  left : Link
  right : Link
  color : Color
  key : K
  data : D
  deriving DecidableEq, Repr

/-- The nodes, and what has been displayed. -/
structure Store (K D : Type) where
  nodes : List (Node K D)
  out : List String
  deriving DecidableEq, Repr

/-- What a procedure may signal. -/
inductive SchemeError (K : Type) where
  /-- A primitive got an argument of the wrong type. -/
  | wrongType (who : String) (given : K)
  /-- `(error message irritant ...)`. -/
  | error (message : String) (irritants : List K)
  /-- An address that holds no node. -/
  | noNode (a : ℕ)
  /-- The descent went deeper than its bound. -/
  | tooDeep
  deriving DecidableEq, Repr

/-- A procedure of the library. -/
abbrev RbM (K D α : Type) := Cmd (Store K D) (SchemeError K) α

/-- The value of `false` among the data a tree may hold. -/
class HasFalse (D : Type) where
  ff : D

instance {α : Type} : HasFalse (Option α) := ⟨none⟩

/-- The keys that are numbers, among whatever keys there are, and how they
compare. -/
class NumericKey (K : Type) where
  isNumber : K → Bool
  lt : K → K → Bool
  eq : K → K → Bool
  eq_iff : ∀ a b, isNumber a = true → isNumber b = true →
    (eq a b = true ↔ lt a b = false ∧ lt b a = false)

instance : NumericKey ℤ where
  isNumber _ := true
  lt a b := decide (a < b)
  eq a b := decide (a = b)
  eq_iff a b _ _ := by
    simp only [decide_eq_true_eq, decide_eq_false_iff_not]
    omega

variable {K D : Type}

namespace Store

/-- The node at an address. -/
def get (s : Store K D) (a : ℕ) : Option (Node K D) := s.nodes[a]?

/-- Overwrite the node at an address. -/
def set (s : Store K D) (a : ℕ) (n : Node K D) : Store K D :=
  { s with nodes := s.nodes.set a n }

end Store

/-! ## Nodes -/

/-- `vector-ref` on a node. -/
def nodeAt (a : ℕ) : RbM K D (Node K D) := fun s =>
  match s.get a with
  | some n => (.ok n, s)
  | none => (.error (.noNode a), s)

/-- `vector-set!` on a node. -/
def updateNode (a : ℕ) (f : Node K D → Node K D) : RbM K D Unit := fun s =>
  match s.get a with
  | some n => (.ok (), s.set a (f n))
  | none => (.error (.noNode a), s)

/-- `display`. -/
def display (text : String) : RbM K D Unit :=
  Cmd.modifyState (fun s => { s with out := s.out ++ [text] })

/-- `(and a b)`: the second test is made only when the first one holds. -/
def andM (a b : RbM K D Bool) : RbM K D Bool := do
  if (← a) then b else return false

/-- `rb-null?`. -/
def rbNull (node : Link) : Bool := node.isNone

/-- `make-rb-node`: a red leaf. -/
def makeRbNode (key : K) (data : D) : RbM K D Link := fun s =>
  (.ok (some s.nodes.length),
    { s with nodes := s.nodes ++ [⟨none, none, .red, key, data⟩] })

/-- `rb-left`: nothing is below `RB-NIL`. -/
def rbLeft : Link → RbM K D Link
  | none => pure none
  | some a => do return (← nodeAt a).left

/-- `rb-right`. -/
def rbRight : Link → RbM K D Link
  | none => pure none
  | some a => do return (← nodeAt a).right

/-- `rb-color`: `RB-NIL` is black. -/
def rbColor : Link → RbM K D Color
  | none => pure .black
  | some a => do return (← nodeAt a).color

/-- `rb-key`, which reports that it is given `RB-NIL` and returns `0`. -/
def rbKey [Zero K] : Link → RbM K D K
  | none => do
    display "Error: rb-key on nil node"
    display "\n"
    return 0
  | some a => do return (← nodeAt a).key

/-- `rb-data`, which reports that it is given `RB-NIL` and returns `#f`. -/
def rbData [HasFalse D] : Link → RbM K D D
  | none => do
    display "Error: rb-data on nil node"
    display "\n"
    return HasFalse.ff
  | some a => do return (← nodeAt a).data

/-- `rb-set-left!`: nothing is done to `RB-NIL`, here and below. -/
def rbSetLeft (node left : Link) : RbM K D Unit :=
  match node with
  | none => pure ()
  | some a => updateNode a (fun n => { n with left := left })

/-- `rb-set-right!`. -/
def rbSetRight (node right : Link) : RbM K D Unit :=
  match node with
  | none => pure ()
  | some a => updateNode a (fun n => { n with right := right })

/-- `rb-set-color!`. -/
def rbSetColor (node : Link) (color : Color) : RbM K D Unit :=
  match node with
  | none => pure ()
  | some a => updateNode a (fun n => { n with color := color })

/-- `rb-set-key!`. -/
def rbSetKey (node : Link) (key : K) : RbM K D Unit :=
  match node with
  | none => pure ()
  | some a => updateNode a (fun n => { n with key := key })

/-- `rb-set-data!`. -/
def rbSetData (node : Link) (data : D) : RbM K D Unit :=
  match node with
  | none => pure ()
  | some a => updateNode a (fun n => { n with data := data })

/-- `rb-is-red?`. -/
def rbIsRed (node : Link) : RbM K D Bool := do
  if rbNull node then return false else return (← rbColor node) == .red

/-- `rb-is-black?`. -/
def rbIsBlack (node : Link) : RbM K D Bool := do
  if rbNull node then return true else return (← rbColor node) == .black

/-! ## Rotations and flips -/

/-- `rb-rotate-right`: the left child rises, and takes the color. -/
def rbRotateRight (node : Link) : RbM K D Link := do
  if rbNull node then return none
  let leftChild ← rbLeft node
  if rbNull leftChild then return node
  let oldColor ← rbColor node
  rbSetLeft node (← rbRight leftChild)
  rbSetRight leftChild node
  rbSetColor leftChild oldColor
  rbSetColor node .red
  return leftChild

/-- `rb-rotate-left`: the right child rises, and takes the color. -/
def rbRotateLeft (node : Link) : RbM K D Link := do
  if rbNull node then return none
  let rightChild ← rbRight node
  if rbNull rightChild then return node
  let oldColor ← rbColor node
  rbSetRight node (← rbLeft rightChild)
  rbSetLeft rightChild node
  rbSetColor rightChild oldColor
  rbSetColor node .red
  return rightChild

/-- `rb-flip-colors`: the red of both children goes to the node. -/
def rbFlipColors (node : Link) : RbM K D Unit := do
  if !rbNull node then
    rbSetColor node .red
    rbSetColor (← rbLeft node) .black
    rbSetColor (← rbRight node) .black

/-- `(rb-set-color! node (if (rb-is-red? node) BLACK RED))`. -/
def toggleColor (node : Link) : RbM K D Unit := do
  rbSetColor node (if (← rbIsRed node) then .black else .red)

/-- `rb-flip-colors-delete`: each of the three changes its color. -/
def rbFlipColorsDelete (node : Link) : RbM K D Unit := do
  if !rbNull node then
    toggleColor node
    let left ← rbLeft node
    if !rbNull left then toggleColor left
    let right ← rbRight node
    if !rbNull right then toggleColor right

/-- `rb-fix-up`: what a descent repairs on its way back. -/
def rbFixUp (node : Link) : RbM K D Link := do
  if rbNull node then return none
  let lean ← andM (do rbIsRed (← rbRight node)) (do rbIsBlack (← rbLeft node))
  let node₁ ← if lean then rbRotateLeft node else pure node
  let left ← rbLeft node₁
  let twoReds ← andM (rbIsRed left)
    (andM (pure !rbNull left) (do rbIsRed (← rbLeft left)))
  let node₂ ← if twoReds then rbRotateRight node₁ else pure node₁
  let lift ← andM (do rbIsRed (← rbLeft node₂)) (do rbIsRed (← rbRight node₂))
  if lift then rbFlipColors node₂
  return node₂

/-- `rb-move-red-left`: the left child becomes red, or its left child does. -/
def rbMoveRedLeft (node : Link) : RbM K D Link := do
  if rbNull node then return none
  rbFlipColorsDelete node
  let right ← rbRight node
  if (← andM (pure !rbNull right) (do rbIsRed (← rbLeft right))) then
    rbSetRight node (← rbRotateRight right)
    let node' ← rbRotateLeft node
    rbFlipColorsDelete node'
    return node'
  else return node

/-- `rb-move-red-right`. -/
def rbMoveRedRight (node : Link) : RbM K D Link := do
  if rbNull node then return none
  rbFlipColorsDelete node
  let left ← rbLeft node
  if (← andM (pure !rbNull left) (do rbIsRed (← rbLeft left))) then
    let node' ← rbRotateRight node
    rbFlipColorsDelete node'
    return node'
  else return node

/-! ## The primitives on keys -/

/-- A numeric primitive on two keys. -/
def numPrim [NumericKey K] (who : String) (op : K → K → Bool) (a b : K) :
    Except (SchemeError K) Bool :=
  if !NumericKey.isNumber a then .error (.wrongType who a)
  else if !NumericKey.isNumber b then .error (.wrongType who b)
  else .ok (op a b)

/-- `<`. -/
def numLt [NumericKey K] : K → K → Except (SchemeError K) Bool := numPrim "<" NumericKey.lt

/-- `>`. -/
def numGt [NumericKey K] : K → K → Except (SchemeError K) Bool :=
  numPrim ">" (fun a b => NumericKey.lt b a)

/-- `=`. -/
def numEq [NumericKey K] : K → K → Except (SchemeError K) Bool := numPrim "=" NumericKey.eq

/-- A procedure that compares two keys: negative, zero or positive. -/
abbrev KeyCmp (K : Type) := K → K → Except (SchemeError K) ℤ

/-- The bound on the depth: the number of nodes there are. -/
def depthBound : RbM K D ℕ := do return (← Cmd.getState).nodes.length + 1

/-! ## The least entry -/

/-- `rb-search-min-node`: the leftmost node. -/
def rbSearchMinNode : ℕ → Link → RbM K D Link
  | 0, _ => Cmd.fail .tooDeep
  | fuel + 1, node => do
    if rbNull node then return none
    let left ← rbLeft node
    if rbNull left then return node else rbSearchMinNode fuel left

/-- The red link is brought along to the left, unless one is already
there. -/
def towardsLeft (node : Link) : RbM K D Link := do
  let left ← rbLeft node
  if (← andM (rbIsBlack left)
      (andM (pure !rbNull left) (do rbIsBlack (← rbLeft left)))) then
    rbMoveRedLeft node
  else return node

/-- The same to the right. -/
def towardsRight (node : Link) : RbM K D Link := do
  let right ← rbRight node
  if (← andM (rbIsBlack right)
      (andM (pure !rbNull right) (do rbIsBlack (← rbLeft right)))) then
    rbMoveRedRight node
  else return node

/-- `rb-delete-min-impl`. -/
def rbDeleteMinImpl : ℕ → Link → RbM K D Link
  | 0, _ => Cmd.fail .tooDeep
  | fuel + 1, node => do
    if rbNull node then return none
    if rbNull (← rbLeft node) then return none
    let node ← towardsLeft node
    rbSetLeft node (← rbDeleteMinImpl fuel (← rbLeft node))
    rbFixUp node

/-- The root is painted red when both its children are black. -/
def paintRoot (node : Link) : RbM K D Unit := do
  if (← andM (do rbIsBlack (← rbLeft node)) (do rbIsBlack (← rbRight node))) then
    rbSetColor node .red

/-- `rb-delete-min`: the new root is black. -/
def rbDeleteMin (node : Link) : RbM K D Link := do
  if rbNull node then return none
  paintRoot node
  let result ← rbDeleteMinImpl (← depthBound) node
  if !rbNull result then rbSetColor result .black
  return result

/-! ## The numeric path -/

section NumericPath

variable [Zero K] [HasFalse D] [NumericKey K]

/-- The recursion of `rb-search`. -/
def rbSearchFrom : ℕ → Link → K → RbM K D D
  | 0, _, _ => Cmd.fail .tooDeep
  | fuel + 1, node, key => do
    if rbNull node then return HasFalse.ff
    let nodeKey ← rbKey node
    if (← Cmd.ofExcept (numEq key nodeKey)) then rbData node
    else if (← Cmd.ofExcept (numLt key nodeKey)) then rbSearchFrom fuel (← rbLeft node) key
    else rbSearchFrom fuel (← rbRight node) key

/-- `rb-search`: the data of a key, or `#f`. -/
def rbSearch (node : Link) (key : K) : RbM K D D := do
  rbSearchFrom (← depthBound) node key

/-- The recursion of `rb-contains?`. -/
def rbContainsFrom : ℕ → Link → K → RbM K D Bool
  | 0, _, _ => Cmd.fail .tooDeep
  | fuel + 1, node, key => do
    if rbNull node then return false
    let nodeKey ← rbKey node
    if (← Cmd.ofExcept (numEq key nodeKey)) then return true
    else if (← Cmd.ofExcept (numLt key nodeKey)) then rbContainsFrom fuel (← rbLeft node) key
    else rbContainsFrom fuel (← rbRight node) key

/-- `rb-contains?`. -/
def rbContains (node : Link) (key : K) : RbM K D Bool := do
  rbContainsFrom (← depthBound) node key

/-- `rb-insert-impl`: the data of a key that is there is replaced. -/
def rbInsertImpl : ℕ → Link → K → D → RbM K D Link
  | 0, _, _, _ => Cmd.fail .tooDeep
  | fuel + 1, node, key, data => do
    if rbNull node then makeRbNode key data
    else
      let nodeKey ← rbKey node
      if (← Cmd.ofExcept (numLt key nodeKey)) then
        rbSetLeft node (← rbInsertImpl fuel (← rbLeft node) key data)
      else if (← Cmd.ofExcept (numGt key nodeKey)) then
        rbSetRight node (← rbInsertImpl fuel (← rbRight node) key data)
      else rbSetData node data
      rbFixUp node

/-- `rb-insert`: the new root is black. -/
def rbInsert (node : Link) (key : K) (data : D) : RbM K D Link := do
  let result ← rbInsertImpl (← depthBound) node key data
  if !rbNull result then rbSetColor result .black
  return result

/-- `rb-delete-impl`: a node with two children takes the entry of its successor, which
is deleted in its place. -/
def rbDeleteImpl : ℕ → Link → K → RbM K D Link
  | 0, _, _ => Cmd.fail .tooDeep
  | fuel + 1, node, key => do
    if rbNull node then return none
    let nodeKey ← rbKey node
    if (← Cmd.ofExcept (numLt key nodeKey)) then
      let node ← if !rbNull (← rbLeft node) then towardsLeft node else pure node
      rbSetLeft node (← rbDeleteImpl fuel (← rbLeft node) key)
      rbFixUp node
    else
      let node ← if (← rbIsRed (← rbLeft node)) then rbRotateRight node else pure node
      if (← andM (do Cmd.ofExcept (numEq key (← rbKey node)))
          (do return rbNull (← rbRight node))) then
        return none
      else
        let node ← if !rbNull (← rbRight node) then towardsRight node else pure node
        if (← Cmd.ofExcept (numEq key (← rbKey node))) then
          let minNode ← rbSearchMinNode (← depthBound) (← rbRight node)
          rbSetKey node (← rbKey minNode)
          rbSetData node (← rbData minNode)
          rbSetRight node (← rbDeleteMinImpl (← depthBound) (← rbRight node))
        else
          rbSetRight node (← rbDeleteImpl fuel (← rbRight node) key)
        rbFixUp node

/-- `rb-delete`: the new root is black. -/
def rbDelete (node : Link) (key : K) : RbM K D Link := do
  if rbNull node then return none
  paintRoot node
  let result ← rbDeleteImpl (← depthBound) node key
  if !rbNull result then rbSetColor result .black
  return result

end NumericPath

/-! ## The comparator path -/

section CmpPath

variable [Zero K] [HasFalse D]

/-- The recursion of `rb-search-cmp`. -/
def rbSearchCmpFrom : ℕ → Link → K → KeyCmp K → RbM K D D
  | 0, _, _, _ => Cmd.fail .tooDeep
  | fuel + 1, node, key, cmp => do
    if rbNull node then return HasFalse.ff
    let c ← Cmd.ofExcept (cmp key (← rbKey node))
    if c = 0 then rbData node
    else if c < 0 then rbSearchCmpFrom fuel (← rbLeft node) key cmp
    else rbSearchCmpFrom fuel (← rbRight node) key cmp

/-- `rb-search-cmp`. -/
def rbSearchCmp (node : Link) (key : K) (cmp : KeyCmp K) : RbM K D D := do
  rbSearchCmpFrom (← depthBound) node key cmp

/-- The recursion of `rb-contains-cmp?`. -/
def rbContainsCmpFrom : ℕ → Link → K → KeyCmp K → RbM K D Bool
  | 0, _, _, _ => Cmd.fail .tooDeep
  | fuel + 1, node, key, cmp => do
    if rbNull node then return false
    let c ← Cmd.ofExcept (cmp key (← rbKey node))
    if c = 0 then return true
    else if c < 0 then rbContainsCmpFrom fuel (← rbLeft node) key cmp
    else rbContainsCmpFrom fuel (← rbRight node) key cmp

/-- `rb-contains-cmp?`. -/
def rbContainsCmp (node : Link) (key : K) (cmp : KeyCmp K) : RbM K D Bool := do
  rbContainsCmpFrom (← depthBound) node key cmp

/-- `rb-insert-impl-cmp`: one comparison at each node. -/
def rbInsertImplCmp : ℕ → Link → K → D → KeyCmp K → RbM K D Link
  | 0, _, _, _, _ => Cmd.fail .tooDeep
  | fuel + 1, node, key, data, cmp => do
    if rbNull node then makeRbNode key data
    else
      let c ← Cmd.ofExcept (cmp key (← rbKey node))
      if c < 0 then rbSetLeft node (← rbInsertImplCmp fuel (← rbLeft node) key data cmp)
      else if c > 0 then rbSetRight node (← rbInsertImplCmp fuel (← rbRight node) key data cmp)
      else rbSetData node data
      rbFixUp node

/-- `rb-insert-cmp`. -/
def rbInsertCmp (node : Link) (key : K) (data : D) (cmp : KeyCmp K) : RbM K D Link := do
  let result ← rbInsertImplCmp (← depthBound) node key data cmp
  if !rbNull result then rbSetColor result .black
  return result

/-- The first comparison is taken before `rb-move-red-left`, and the key is read
again after a rotation. -/
def rbDeleteImplCmp : ℕ → Link → K → KeyCmp K → RbM K D Link
  | 0, _, _, _ => Cmd.fail .tooDeep
  | fuel + 1, node, key, cmp => do
    if rbNull node then return none
    if (← Cmd.ofExcept (cmp key (← rbKey node))) < 0 then
      let node ← if !rbNull (← rbLeft node) then towardsLeft node else pure node
      rbSetLeft node (← rbDeleteImplCmp fuel (← rbLeft node) key cmp)
      rbFixUp node
    else
      let node ← if (← rbIsRed (← rbLeft node)) then rbRotateRight node else pure node
      if (← andM (do return decide ((← Cmd.ofExcept (cmp key (← rbKey node))) = 0))
          (do return rbNull (← rbRight node))) then
        return none
      else
        let node ← if !rbNull (← rbRight node) then towardsRight node else pure node
        if (← Cmd.ofExcept (cmp key (← rbKey node))) = 0 then
          let minNode ← rbSearchMinNode (← depthBound) (← rbRight node)
          rbSetKey node (← rbKey minNode)
          rbSetData node (← rbData minNode)
          rbSetRight node (← rbDeleteMinImpl (← depthBound) (← rbRight node))
        else
          rbSetRight node (← rbDeleteImplCmp fuel (← rbRight node) key cmp)
        rbFixUp node

/-- `rb-delete-cmp`. -/
def rbDeleteCmp (node : Link) (key : K) (cmp : KeyCmp K) : RbM K D Link := do
  if rbNull node then return none
  paintRoot node
  let result ← rbDeleteImplCmp (← depthBound) node key cmp
  if !rbNull result then rbSetColor result .black
  return result

end CmpPath

end RbTree
