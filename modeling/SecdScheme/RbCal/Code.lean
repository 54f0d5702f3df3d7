import Mathlib.Data.Int.Notation
import SecdScheme.Lib.Cmd
import SecdScheme.Lib.Llrb

/-!
# rbtree4.cal: nodes and the internal functions

The internal functions `rbi_*` of `rbtree4.cal`. Vectors are reference
values, so a node is an address in a heap of vectors
`[left, right, color, key, data, size]`, and an empty link is the number `0`,
here `none`. An index into what is no vector is an error; an error leaves the
updates made so far.

The destructive functions and their path-copying versions differ in the
rotations, in the flip and in whether a node is copied before it is entered.
Both are instances of the same definitions over these four parts, `Style`.

The heap keeps, besides the nodes, the addresses that have been written, so
that a node that is never written can be told from one that is written back.
-/

namespace RbCal

open Llrb (Color)

/-- A link: the address of a node, or `0`. -/
abbrev Link := Option ℕ

/-- A node: `[left, right, color, key, data, size]`. -/
structure Node (K V : Type) where
  left : Link
  right : Link
  color : Color
  key : K
  data : V
  size : ℤ
  deriving DecidableEq, Repr

/-- The nodes, and the addresses written since they were made. -/
structure Heap (K V : Type) where
  nodes : List (Node K V)
  writes : List ℕ
  deriving DecidableEq, Repr

/-- What a function may signal. -/
inductive CalError where
  /-- An index into something that is no vector. -/
  | notVector
  /-- A call of something that is no function. -/
  | notFunction
  /-- An error of a comparison function or a primitive. -/
  | raised (message : String)
  /-- The recursion went deeper than its bound. -/
  | tooDeep
  deriving DecidableEq, Repr

/-- A function on nodes. -/
abbrev CalM (K V α : Type) := Cmd (Heap K V) CalError α

/-- A comparison function: negative, zero or positive. What is no function
cannot be called. -/
abbrev Comparator (K : Type) := Option (K → K → Except CalError ℤ)

variable {K V : Type}

namespace Heap

/-- The node at an address. -/
def get (s : Heap K V) (a : ℕ) : Option (Node K V) := s.nodes[a]?

end Heap

/-! ## Elements of a node -/

/-- The node of a link; `h[i]` of an empty link is an error. -/
def nodeAt (h : Link) : CalM K V (Node K V) := fun s =>
  match h.bind s.get with
  | some n => (.ok n, s)
  | none => (.error .notVector, s)

/-- `h[i] = x`. -/
def update (h : Link) (f : Node K V → Node K V) : CalM K V Unit := fun s =>
  match h with
  | none => (.error .notVector, s)
  | some a =>
    match s.get a with
    | none => (.error .notVector, s)
    | some n => (.ok (), ⟨s.nodes.set a (f n), s.writes ++ [a]⟩)

/-- A new vector. -/
def alloc (n : Node K V) : CalM K V Link := fun s =>
  (.ok (some s.nodes.length), { s with nodes := s.nodes ++ [n] })

/-- `vector(h)`. -/
def vector (h : Link) : Bool := h.isSome

/-- The left child of a node, `h[0]`. -/
def left (h : Link) : CalM K V Link := do return (← nodeAt h).left

/-- The right child, `h[1]`. -/
def right (h : Link) : CalM K V Link := do return (← nodeAt h).right

/-- The color, `h[2]`. -/
def color (h : Link) : CalM K V Color := do return (← nodeAt h).color

/-- The key, `h[3]`. -/
def key (h : Link) : CalM K V K := do return (← nodeAt h).key

/-- The value, `h[4]`. -/
def data (h : Link) : CalM K V V := do return (← nodeAt h).data

/-- The number of nodes of the subtree, `h[5]`. -/
def size (h : Link) : CalM K V ℤ := do return (← nodeAt h).size

/-- `h[0] = l`. -/
def setLeft (h l : Link) : CalM K V Unit := update h (fun n => { n with left := l })

/-- `h[1] = r`. -/
def setRight (h r : Link) : CalM K V Unit := update h (fun n => { n with right := r })

/-- `h[2] = c`. -/
def setColor (h : Link) (c : Color) : CalM K V Unit := update h (fun n => { n with color := c })

/-- `h[3] = k`. -/
def setKey (h : Link) (k : K) : CalM K V Unit := update h (fun n => { n with key := k })

/-- `h[4] = v`. -/
def setData (h : Link) (v : V) : CalM K V Unit := update h (fun n => { n with data := v })

/-- `h[5] = m`. -/
def setSize (h : Link) (m : ℤ) : CalM K V Unit := update h (fun n => { n with size := m })

/-- The call of a comparison function. -/
def compareKeys (cmp : Comparator K) (a b : K) : CalM K V ℤ :=
  match cmp with
  | none => Cmd.fail .notFunction
  | some f => Cmd.ofExcept (f a b)

/-- `a and b`: the second test is made only when the first one holds. -/
def andM (a b : CalM K V Bool) : CalM K V Bool := do
  if (← a) then b else return false

/-! ## Basic operations on nodes -/

/-- `rbi_color`: what is no node is black. -/
def rbiColor (h : Link) : CalM K V Color := do
  if vector h then color h else return .black

/-- `rbi_size`: what is no node has no nodes. -/
def rbiSize (h : Link) : CalM K V ℤ := do
  if vector h then size h else return 0

/-- `rbi_color(h) == c`. -/
def isColor (c : Color) (h : Link) : CalM K V Bool := do return (← rbiColor h) == c

/-- `rbi_node`: a red leaf. -/
def rbiNode (k : K) (v : V) : CalM K V Link := alloc ⟨none, none, .red, k, v, 1⟩

/-- `rbi_copy`: a new node with the same fields, the children shared. -/
def rbiCopy (h : Link) : CalM K V Link := do alloc (← nodeAt h)

/-- `rbi_fixsize`: the size of a node from those of its children. -/
def rbiFixsize (h : Link) : CalM K V Link := do
  setSize h ((← rbiSize (← left h)) + (← rbiSize (← right h)) + 1)
  return h

/-- The body of a left rotation, in which `x` rises over `h`. -/
def raiseRight (h x : Link) : CalM K V Link := do
  setRight h (← left x)
  setLeft x h
  setColor x (← color h)
  setColor h .red
  setSize x (← size h)
  let _ ← rbiFixsize h
  return x

/-- The body of a right rotation. -/
def raiseLeft (h x : Link) : CalM K V Link := do
  setLeft h (← right x)
  setRight x h
  setColor x (← color h)
  setColor h .red
  setSize x (← size h)
  let _ ← rbiFixsize h
  return x

/-- `rbi_rot_left`, in place. -/
def rbiRotLeft (h : Link) : CalM K V Link := do raiseRight h (← right h)

/-- `rbi_rot_right`, in place. -/
def rbiRotRight (h : Link) : CalM K V Link := do raiseLeft h (← left h)

/-- `rbi_prot_left`: the child that rises is copied first. -/
def rbiProtLeft (h : Link) : CalM K V Link := do raiseRight h (← rbiCopy (← right h))

/-- `rbi_prot_right`: the child that rises is copied first. -/
def rbiProtRight (h : Link) : CalM K V Link := do raiseLeft h (← rbiCopy (← left h))

/-- `rbi_flip`: a node and both its children change color. -/
def rbiFlip (h : Link) : CalM K V Unit := do
  setColor h (← color h).flip
  setColor (← left h) (← color (← left h)).flip
  setColor (← right h) (← color (← right h)).flip

/-- `rbi_pflip`: both children are copied first. -/
def rbiPflip (h : Link) : CalM K V Unit := do
  setLeft h (← rbiCopy (← left h))
  setRight h (← rbiCopy (← right h))
  rbiFlip h

/-! ## The two styles -/

/-- **What destructive and path-copying functions differ in.** -/
structure Style (K V : Type) where
  rotLeft : Link → CalM K V Link
  rotRight : Link → CalM K V Link
  flip : Link → CalM K V Unit
  /-- What is done to a node before it is entered. -/
  enter : Link → CalM K V Link

/-- `rbi_rot_left`, `rbi_rot_right`, `rbi_flip`, and the node itself. -/
def destructive : Style K V := ⟨rbiRotLeft, rbiRotRight, rbiFlip, pure⟩

/-- `rbi_prot_left`, `rbi_prot_right`, `rbi_pflip`, and a copy of the
node. -/
def copying : Style K V := ⟨rbiProtLeft, rbiProtRight, rbiPflip, rbiCopy⟩

namespace Style

variable (st : Style K V)

/-- `rbi_balance` and `rbi_pbalance`: what a descent repairs on its way back. -/
def balance (h : Link) : CalM K V Link := do
  let h ← if (← andM (do isColor .red (← right h)) (do isColor .black (← left h)))
    then st.rotLeft h else pure h
  let h ← if (← andM (do isColor .red (← left h)) (do isColor .red (← left (← left h))))
    then st.rotRight h else pure h
  if (← andM (do isColor .red (← left h)) (do isColor .red (← right h))) then st.flip h
  rbiFixsize h

/-- `rbi_put` and `rbi_pput`. The value of a key that is there is replaced. -/
def put : ℕ → Link → K → V → Comparator K → CalM K V Link
  | 0, _, _, _, _ => Cmd.fail .tooDeep
  | fuel + 1, h, k, v, cmp => do
    if !vector h then return (← rbiNode k v)
    let h ← st.enter h
    let c ← compareKeys cmp k (← key h)
    if c < 0 then setLeft h (← put fuel (← left h) k v cmp)
    else if c > 0 then setRight h (← put fuel (← right h) k v cmp)
    else setData h v
    st.balance h

/-- `rbi_move_red_left` and `rbi_pmove_red_left`. -/
def moveRedLeft (h : Link) : CalM K V Link := do
  st.flip h
  if (← isColor .red (← left (← right h))) then
    setRight h (← st.rotRight (← right h))
    let h ← st.rotLeft h
    st.flip h
    return h
  else return h

/-- `rbi_move_red_right` and `rbi_pmove_red_right`. -/
def moveRedRight (h : Link) : CalM K V Link := do
  st.flip h
  if (← isColor .red (← left (← left h))) then
    let h ← st.rotRight h
    st.flip h
    return h
  else return h

/-- The red link is brought along before a descent to the left. -/
def towardsLeft (h : Link) : CalM K V Link := do
  if (← andM (do isColor .black (← left h)) (do isColor .black (← left (← left h))))
  then st.moveRedLeft h else return h

/-- The same to the right. -/
def towardsRight (h : Link) : CalM K V Link := do
  if (← andM (do isColor .black (← right h)) (do isColor .black (← left (← right h))))
  then st.moveRedRight h else return h

/-- `rbi_delmin` and `rbi_pdelmin`. -/
def delmin : ℕ → Link → CalM K V Link
  | 0, _ => Cmd.fail .tooDeep
  | fuel + 1, h => do
    if !vector (← left h) then return none
    let h ← st.towardsLeft h
    setLeft h (← delmin fuel (← st.enter (← left h)))
    st.balance h

/-- `rbi_delmax` and `rbi_pdelmax`. -/
def delmax : ℕ → Link → CalM K V Link
  | 0, _ => Cmd.fail .tooDeep
  | fuel + 1, h => do
    let h ← if (← isColor .red (← left h)) then st.rotRight h else pure h
    if !vector (← right h) then return none
    let h ← st.towardsRight h
    setRight h (← delmax fuel (← st.enter (← right h)))
    st.balance h

end Style

/-! ## Search -/

/-- `rbi_search`: the node of a key, if there is one. -/
def rbiSearch : ℕ → Link → K → Comparator K → CalM K V Link
  | 0, _, _, _ => Cmd.fail .tooDeep
  | fuel + 1, h, k, cmp => do
    if !vector h then return none
    let c ← compareKeys cmp k (← key h)
    if c = 0 then return h
    else if c < 0 then rbiSearch fuel (← left h) k cmp
    else rbiSearch fuel (← right h) k cmp

/-- `rbi_min_node`: the leftmost node. -/
def rbiMinNode : ℕ → Link → CalM K V Link
  | 0, _ => Cmd.fail .tooDeep
  | fuel + 1, h => do
    if vector (← left h) then rbiMinNode fuel (← left h) else return h

/-- `rbi_max_node`: the rightmost node. -/
def rbiMaxNode : ℕ → Link → CalM K V Link
  | 0, _ => Cmd.fail .tooDeep
  | fuel + 1, h => do
    if vector (← right h) then rbiMaxNode fuel (← right h) else return h

/-- `rbi_floor`: the node of the greatest key that is not above `k`. -/
def rbiFloor : ℕ → Link → K → Comparator K → CalM K V Link
  | 0, _, _, _ => Cmd.fail .tooDeep
  | fuel + 1, h, k, cmp => do
    if !vector h then return none
    let c ← compareKeys cmp k (← key h)
    if c = 0 then return h
    else if c < 0 then rbiFloor fuel (← left h) k cmp
    else
      let t ← rbiFloor fuel (← right h) k cmp
      return if vector t then t else h

/-- `rbi_ceiling`: the node of the least key that is not below `k`. -/
def rbiCeiling : ℕ → Link → K → Comparator K → CalM K V Link
  | 0, _, _, _ => Cmd.fail .tooDeep
  | fuel + 1, h, k, cmp => do
    if !vector h then return none
    let c ← compareKeys cmp k (← key h)
    if c = 0 then return h
    else if c > 0 then rbiCeiling fuel (← right h) k cmp
    else
      let t ← rbiCeiling fuel (← left h) k cmp
      return if vector t then t else h

/-- `rbi_rank`: how many keys are below `k`. -/
def rbiRank : ℕ → Link → K → Comparator K → CalM K V ℤ
  | 0, _, _, _ => Cmd.fail .tooDeep
  | fuel + 1, h, k, cmp => do
    if !vector h then return 0
    let c ← compareKeys cmp k (← key h)
    if c < 0 then rbiRank fuel (← left h) k cmp
    else if c > 0 then return (← rbiSize (← left h)) + 1 + (← rbiRank fuel (← right h) k cmp)
    else rbiSize (← left h)

/-- `rbi_select`: the node of the key above just `i` others. -/
def rbiSelect : ℕ → Link → ℤ → CalM K V Link
  | 0, _, _ => Cmd.fail .tooDeep
  | fuel + 1, h, i => do
    if !vector h then return none
    let t ← rbiSize (← left h)
    if i < t then rbiSelect fuel (← left h) i
    else if i > t then rbiSelect fuel (← right h) (i - t - 1)
    else return h

/-- The pairs `f` is applied to, in order. -/
def rbiForeach : ℕ → Link → CalM K V (List (K × V))
  | 0, _ => Cmd.fail .tooDeep
  | fuel + 1, h => do
    if vector h then
      let before ← rbiForeach fuel (← left h)
      let pair := (← key h, ← data h)
      let after ← rbiForeach fuel (← right h)
      return before ++ pair :: after
    else return []

/-- The pairs `f` is applied to, in order. -/
def rbiRange : ℕ → Link → K → K → Comparator K → CalM K V (List (K × V))
  | 0, _, _, _, _ => Cmd.fail .tooDeep
  | fuel + 1, h, lo, hi, cmp => do
    if vector h then
      let cl ← compareKeys cmp lo (← key h)
      let ch ← compareKeys cmp hi (← key h)
      let before ← if cl < 0 then (do rbiRange fuel (← left h) lo hi cmp) else pure []
      let pairs ← if cl ≤ 0 ∧ ch ≥ 0 then (do return [(← key h, ← data h)]) else pure []
      let after ← if ch > 0 then (do rbiRange fuel (← right h) lo hi cmp) else pure []
      return before ++ pairs ++ after
    else return []

/-! ## Deletion of a key -/

/-- `rbi_del` and `rbi_pdel`. A node with two children takes the entry of its successor,
which is deleted in its place. -/
def Style.del (st : Style K V) : ℕ → Link → K → Comparator K → CalM K V Link
  | 0, _, _, _ => Cmd.fail .tooDeep
  | fuel + 1, h, k, cmp => do
    if (← compareKeys cmp k (← key h)) < 0 then
      let h ← st.towardsLeft h
      setLeft h (← st.del fuel (← st.enter (← left h)) k cmp)
      st.balance h
    else
      let h ← if (← isColor .red (← left h)) then st.rotRight h else pure h
      if (← andM (do return (← compareKeys cmp k (← key h)) == 0)
          (do return !vector (← right h))) then
        return none
      let h ← st.towardsRight h
      if (← compareKeys cmp k (← key h)) = 0 then
        let m ← rbiMinNode fuel (← right h)
        setKey h (← key m)
        setData h (← data m)
        setRight h (← st.delmin fuel (← st.enter (← right h)))
      else
        setRight h (← st.del fuel (← st.enter (← right h)) k cmp)
      st.balance h

/-! ## The functions under their names -/

/-- `rbi_balance`. -/
def rbiBalance : Link → CalM K V Link := destructive.balance
/-- `rbi_put`. -/
def rbiPut : ℕ → Link → K → V → Comparator K → CalM K V Link := destructive.put
/-- `rbi_move_red_left`. -/
def rbiMoveRedLeft : Link → CalM K V Link := destructive.moveRedLeft
/-- `rbi_move_red_right`. -/
def rbiMoveRedRight : Link → CalM K V Link := destructive.moveRedRight
/-- `rbi_delmin`. -/
def rbiDelmin : ℕ → Link → CalM K V Link := destructive.delmin
/-- `rbi_delmax`. -/
def rbiDelmax : ℕ → Link → CalM K V Link := destructive.delmax
/-- `rbi_del`. -/
def rbiDel : ℕ → Link → K → Comparator K → CalM K V Link := destructive.del

/-- `rbi_pbalance`. -/
def rbiPbalance : Link → CalM K V Link := copying.balance
/-- `rbi_pput`. -/
def rbiPput : ℕ → Link → K → V → Comparator K → CalM K V Link := copying.put
/-- `rbi_pmove_red_left`. -/
def rbiPmoveRedLeft : Link → CalM K V Link := copying.moveRedLeft
/-- `rbi_pmove_red_right`. -/
def rbiPmoveRedRight : Link → CalM K V Link := copying.moveRedRight
/-- `rbi_pdelmin`. -/
def rbiPdelmin : ℕ → Link → CalM K V Link := copying.delmin
/-- `rbi_pdelmax`. -/
def rbiPdelmax : ℕ → Link → CalM K V Link := copying.delmax
/-- `rbi_pdel`. -/
def rbiPdel : ℕ → Link → K → Comparator K → CalM K V Link := copying.del

/-! ## Building from a sorted vector -/

/-- `rbi_pow2`: a power of two. -/
def rbiPow2 : ℕ → ℤ
  | 0 => 1
  | n + 1 => rbiPow2 n * 2

/-- `rbi_bmax_b`: how many nodes a black tree of black height `d` holds at most. -/
def rbiBmaxB : ℕ → ℤ
  | 0 => 0
  | d + 1 => 1 + (1 + 2 * rbiBmaxB d) + rbiBmaxB d

/-- `rbi_bmax_a`: the same of any tree, whose root may be red. -/
def rbiBmaxA (d : ℕ) : ℤ := 1 + 2 * rbiBmaxB d

/-- `rbi_bmin`: how many nodes a tree of black height `d` holds at least. -/
def rbiBmin (d : ℕ) : ℤ := rbiPow2 d - 1

/-- **An element of the vector**: no vector, a vector with fewer than two
entries, or a key, a value and so many entries more. -/
inductive Element (K V : Type) where
  | noVector
  | short
  | entries (key : K) (value : V) (more : ℕ)
  deriving DecidableEq, Repr

/-- A pair `[key, value]`. -/
def Element.pair (p : K × V) : Element K V := .entries p.1 p.2 0

/-- The first two entries, where there are so many. -/
def Element.toPair : Element K V → Option (K × V)
  | .entries k x _ => some (k, x)
  | _ => none

/-- `v[i][0]` and `v[i][1]`. -/
def pairAt (v : List (Element K V)) (i : ℤ) : CalM K V (K × V) :=
  match (if i < 0 then none else v[i.toNat]?) with
  | some (.entries k x _) => pure (k, x)
  | some .noVector => Cmd.fail .notVector
  | _ => Cmd.fail (.raised "index out of range")

mutual

/-- `rbi_build_b`: a black tree of `n` entries from the one at `lo` on. -/
def rbiBuildB (v : List (Element K V)) : ℕ → ℤ → ℤ → ℕ → CalM K V Link
  | 0, _, _, _ => Cmd.fail .tooDeep
  | _ + 1, _, _, 0 => return none
  | fuel + 1, lo, n, d + 1 => do
    let m := n - 1
    let lim := m - rbiBmin d
    let nl := if lim < rbiBmaxA d then lim else rbiBmaxA d
    let nr := m - nl
    let p ← pairAt v (lo + nl)
    let h ← alloc ⟨none, none, .black, p.1, p.2, n⟩
    setLeft h (← rbiBuildA v fuel lo nl d)
    setRight h (← rbiBuildB v fuel (lo + nl + 1) nr d)
    return h

/-- `rbi_build_a`: its root is red where a black tree has no room. -/
def rbiBuildA (v : List (Element K V)) : ℕ → ℤ → ℤ → ℕ → CalM K V Link
  | 0, _, _, _ => Cmd.fail .tooDeep
  | fuel + 1, lo, n, d =>
    if n ≤ rbiBmaxB d then rbiBuildB v fuel lo n d
    else do
      let m := n - 1
      let lim := m - rbiBmin d
      let nl := if lim < rbiBmaxB d then lim else rbiBmaxB d
      let nr := m - nl
      let p ← pairAt v (lo + nl)
      let h ← alloc ⟨none, none, .red, p.1, p.2, n⟩
      setLeft h (← rbiBuildB v fuel lo nl d)
      setRight h (← rbiBuildB v fuel (lo + nl + 1) nr d)
      return h

end

/-- Whether the elements are vectors of two entries at least, with strictly
ascending keys. -/
def rbiCheckSorted (cmp : Comparator K) : Option K → List (Element K V) → CalM K V Bool
  | _, [] => return true
  | _, .noVector :: _ => return false
  | _, .short :: _ => return false
  | none, .entries k _ _ :: v => rbiCheckSorted cmp (some k) v
  | some k', .entries k _ _ :: v => do
    if (← compareKeys cmp k' k) ≥ 0 then return false
    else rbiCheckSorted cmp (some k) v

end RbCal
