import SecdScheme.RbTree.Code

/-!
# What a descent compares

The library has every descent twice, once with `<`, `=` and `>` and once with a
comparator. Here a descent is written over the tests it makes at a node, and the
recursions of the source are shown to be instances of it – the numeric ones with
`numericTests`, the others with `cmpTests` – by induction on the bound of the
depth. What is proved about a descent over tests then holds of both.
-/

namespace RbTree

variable {K D : Type}

/-- **The tests a descent makes between its key and a node's.** -/
structure KeyTests (K : Type) where
  /-- The outcome of the comparisons of an insertion. -/
  place : K → K → Except (SchemeError K) Ordering
  /-- The outcome of the comparisons of a search. -/
  seek : K → K → Except (SchemeError K) Ordering
  less : K → K → Except (SchemeError K) Bool
  equal : K → K → Except (SchemeError K) Bool

/-- The tests of the numeric path. -/
def numericTests [NumericKey K] : KeyTests K where
  place key nodeKey := do
    if (← numLt key nodeKey) then return .lt
    else if (← numGt key nodeKey) then return .gt
    else return .eq
  seek key nodeKey := do
    if (← numEq key nodeKey) then return .eq
    else if (← numLt key nodeKey) then return .lt
    else return .gt
  less := numLt
  equal := numEq

/-- The tests made with a comparator. -/
def cmpTests (cmp : KeyCmp K) : KeyTests K where
  place key nodeKey := do
    let c ← cmp key nodeKey
    if c < 0 then return .lt else if c > 0 then return .gt else return .eq
  seek key nodeKey := do
    let c ← cmp key nodeKey
    if c = 0 then return .eq else if c < 0 then return .lt else return .gt
  less a b := do return decide ((← cmp a b) < 0)
  equal a b := do return decide ((← cmp a b) = 0)

/-! ## The descents -/

section Descents

variable [Zero K]

/-- The data of a key, or `false`. -/
def searchWith [HasFalse D] (tests : KeyTests K) : ℕ → Link → K → RbM K D D
  | 0, _, _ => Cmd.fail .tooDeep
  | fuel + 1, node, key => do
    if rbNull node then return HasFalse.ff
    match (← Cmd.ofExcept (tests.seek key (← rbKey node))) with
    | .eq => rbData node
    | .lt => searchWith tests fuel (← rbLeft node) key
    | .gt => searchWith tests fuel (← rbRight node) key

/-- Whether a key is there. -/
def containsWith (tests : KeyTests K) : ℕ → Link → K → RbM K D Bool
  | 0, _, _ => Cmd.fail .tooDeep
  | fuel + 1, node, key => do
    if rbNull node then return false
    match (← Cmd.ofExcept (tests.seek key (← rbKey node))) with
    | .eq => return true
    | .lt => containsWith tests fuel (← rbLeft node) key
    | .gt => containsWith tests fuel (← rbRight node) key

/-- The descent of an insertion. -/
def insertImplWith (tests : KeyTests K) : ℕ → Link → K → D → RbM K D Link
  | 0, _, _, _ => Cmd.fail .tooDeep
  | fuel + 1, node, key, data => do
    if rbNull node then makeRbNode key data
    else
      match (← Cmd.ofExcept (tests.place key (← rbKey node))) with
      | .lt => rbSetLeft node (← insertImplWith tests fuel (← rbLeft node) key data)
      | .gt => rbSetRight node (← insertImplWith tests fuel (← rbRight node) key data)
      | .eq => rbSetData node data
      rbFixUp node

/-- An insertion: the new root is black. -/
def insertWith (tests : KeyTests K) (node : Link) (key : K) (data : D) :
    RbM K D Link := do
  let result ← insertImplWith tests (← depthBound) node key data
  if !rbNull result then rbSetColor result .black
  return result

/-- The descent of a deletion. -/
def deleteImplWith [HasFalse D] (tests : KeyTests K) : ℕ → Link → K → RbM K D Link
  | 0, _, _ => Cmd.fail .tooDeep
  | fuel + 1, node, key => do
    if rbNull node then return none
    if (← Cmd.ofExcept (tests.less key (← rbKey node))) then
      let node ← if !rbNull (← rbLeft node) then towardsLeft node else pure node
      rbSetLeft node (← deleteImplWith tests fuel (← rbLeft node) key)
      rbFixUp node
    else
      let node ← if (← rbIsRed (← rbLeft node)) then rbRotateRight node else pure node
      if (← andM (do Cmd.ofExcept (tests.equal key (← rbKey node)))
          (do return rbNull (← rbRight node))) then
        return none
      else
        let node ← if !rbNull (← rbRight node) then towardsRight node else pure node
        if (← Cmd.ofExcept (tests.equal key (← rbKey node))) then
          let minNode ← rbSearchMinNode (← depthBound) (← rbRight node)
          rbSetKey node (← rbKey minNode)
          rbSetData node (← rbData minNode)
          rbSetRight node (← rbDeleteMinImpl (← depthBound) (← rbRight node))
        else
          rbSetRight node (← deleteImplWith tests fuel (← rbRight node) key)
        rbFixUp node

/-- A deletion: the new root is black. -/
def deleteWith [HasFalse D] (tests : KeyTests K) (node : Link) (key : K) :
    RbM K D Link := do
  if rbNull node then return none
  paintRoot node
  let result ← deleteImplWith tests (← depthBound) node key
  if !rbNull result then rbSetColor result .black
  return result

end Descents

/-! ## The outcome of the comparisons

What comes after the tests of a node is chosen by their outcome, whichever way
the comparisons are made. -/

section Outcomes

variable {α : Type} {key nodeKey : K}

theorem seek_numericTests [NumericKey K] (f : Ordering → RbM K D α) :
    (Cmd.ofExcept (numericTests.seek key nodeKey) >>= f : RbM K D α) =
      (do
        if (← Cmd.ofExcept (numEq key nodeKey)) then f .eq
        else if (← Cmd.ofExcept (numLt key nodeKey)) then f .lt
        else f .gt) := by
  show (Cmd.ofExcept (numEq key nodeKey >>= _) >>= f : RbM K D α) = _
  rcases numEq key nodeKey with e | _ | _
  · rfl
  · rcases numLt key nodeKey with e | _ | _ <;> rfl
  · rfl

theorem place_numericTests [NumericKey K] (f : Ordering → RbM K D α) :
    (Cmd.ofExcept (numericTests.place key nodeKey) >>= f : RbM K D α) =
      (do
        if (← Cmd.ofExcept (numLt key nodeKey)) then f .lt
        else if (← Cmd.ofExcept (numGt key nodeKey)) then f .gt
        else f .eq) := by
  show (Cmd.ofExcept (numLt key nodeKey >>= _) >>= f : RbM K D α) = _
  rcases numLt key nodeKey with e | _ | _
  · rfl
  · rcases numGt key nodeKey with e | _ | _ <;> rfl
  · rfl

variable {cmp : KeyCmp K}

theorem seek_cmpTests (f : Ordering → RbM K D α) :
    (Cmd.ofExcept ((cmpTests cmp).seek key nodeKey) >>= f : RbM K D α) =
      (do
        let c ← Cmd.ofExcept (cmp key nodeKey)
        if c = 0 then f .eq else if c < 0 then f .lt else f .gt) := by
  show (Cmd.ofExcept (cmp key nodeKey >>= _) >>= f : RbM K D α) = _
  cases cmp key nodeKey with
  | error e => rfl
  | ok c =>
    show (Cmd.ofExcept (if c = 0 then _ else if c < 0 then _ else _) >>= f : RbM K D α) =
      if c = 0 then f .eq else if c < 0 then f .lt else f .gt
    split
    · rfl
    · split <;> rfl

theorem place_cmpTests (f : Ordering → RbM K D α) :
    (Cmd.ofExcept ((cmpTests cmp).place key nodeKey) >>= f : RbM K D α) =
      (do
        let c ← Cmd.ofExcept (cmp key nodeKey)
        if c < 0 then f .lt else if c > 0 then f .gt else f .eq) := by
  show (Cmd.ofExcept (cmp key nodeKey >>= _) >>= f : RbM K D α) = _
  cases cmp key nodeKey with
  | error e => rfl
  | ok c =>
    show (Cmd.ofExcept (if c < 0 then _ else if c > 0 then _ else _) >>= f : RbM K D α) =
      if c < 0 then f .lt else if c > 0 then f .gt else f .eq
    split
    · rfl
    · split <;> rfl

/-- The test for less, before what it decides. -/
theorem less_cmpTests (m m' : RbM K D α) :
    (do if (← Cmd.ofExcept ((cmpTests cmp).less key nodeKey)) then m else m' : RbM K D α) =
      (do if (← Cmd.ofExcept (cmp key nodeKey)) < 0 then m else m') := by
  show (Cmd.ofExcept (cmp key nodeKey >>= _) >>= _ : RbM K D α) = _
  cases cmp key nodeKey with
  | error e => rfl
  | ok c => exact if_congr decide_eq_true_iff rfl rfl

theorem equal_cmpTests :
    (Cmd.ofExcept ((cmpTests cmp).equal key nodeKey) : RbM K D Bool) =
      (do return decide ((← Cmd.ofExcept (cmp key nodeKey)) = 0)) := by
  show Cmd.ofExcept (cmp key nodeKey >>= _) = _
  rcases cmp key nodeKey with e | c <;> rfl

end Outcomes

/-! ## The numeric path -/

section NumericPath

variable [Zero K] [NumericKey K]

theorem rbSearchFrom_eq [HasFalse D] (fuel : ℕ) (node : Link) (key : K) :
    (rbSearchFrom fuel node key : RbM K D D) = searchWith numericTests fuel node key := by
  induction fuel generalizing node with
  | zero => rfl
  | succ fuel ih => simp only [rbSearchFrom, searchWith, seek_numericTests, ih]

theorem rbContainsFrom_eq (fuel : ℕ) (node : Link) (key : K) :
    (rbContainsFrom fuel node key : RbM K D Bool) = containsWith numericTests fuel node key := by
  induction fuel generalizing node with
  | zero => rfl
  | succ fuel ih => simp only [rbContainsFrom, containsWith, seek_numericTests, ih]

theorem rbInsertImpl_eq (fuel : ℕ) (node : Link) (key : K) (data : D) :
    rbInsertImpl fuel node key data = insertImplWith numericTests fuel node key data := by
  induction fuel generalizing node with
  | zero => rfl
  | succ fuel ih => simp only [rbInsertImpl, insertImplWith, place_numericTests, ih]

theorem rbDeleteImpl_eq [HasFalse D] (fuel : ℕ) (node : Link) (key : K) :
    (rbDeleteImpl fuel node key : RbM K D Link) = deleteImplWith numericTests fuel node key := by
  induction fuel generalizing node with
  | zero => rfl
  | succ fuel ih => simp only [rbDeleteImpl, deleteImplWith, numericTests, ih]

theorem rbInsert_eq (node : Link) (key : K) (data : D) :
    rbInsert node key data = insertWith numericTests node key data := by
  simp only [rbInsert, insertWith, rbInsertImpl_eq]

theorem rbDelete_eq [HasFalse D] (node : Link) (key : K) :
    (rbDelete node key : RbM K D Link) = deleteWith numericTests node key := by
  simp only [rbDelete, deleteWith, rbDeleteImpl_eq]

theorem rbSearch_eq [HasFalse D] (node : Link) (key : K) :
    (rbSearch node key : RbM K D D) =
      (do searchWith numericTests (← depthBound) node key) := by
  simp only [rbSearch, rbSearchFrom_eq]

theorem rbContains_eq (node : Link) (key : K) :
    (rbContains node key : RbM K D Bool) =
      (do containsWith numericTests (← depthBound) node key) := by
  simp only [rbContains, rbContainsFrom_eq]

end NumericPath

/-! ## The comparator path -/

section CmpPath

variable [Zero K] {cmp : KeyCmp K}

theorem rbSearchCmpFrom_eq [HasFalse D] (fuel : ℕ) (node : Link) (key : K) :
    (rbSearchCmpFrom fuel node key cmp : RbM K D D) =
      searchWith (cmpTests cmp) fuel node key := by
  induction fuel generalizing node with
  | zero => rfl
  | succ fuel ih => simp only [rbSearchCmpFrom, searchWith, seek_cmpTests, ih]

theorem rbContainsCmpFrom_eq (fuel : ℕ) (node : Link) (key : K) :
    (rbContainsCmpFrom fuel node key cmp : RbM K D Bool) =
      containsWith (cmpTests cmp) fuel node key := by
  induction fuel generalizing node with
  | zero => rfl
  | succ fuel ih => simp only [rbContainsCmpFrom, containsWith, seek_cmpTests, ih]

theorem rbInsertImplCmp_eq (fuel : ℕ) (node : Link) (key : K) (data : D) :
    rbInsertImplCmp fuel node key data cmp =
      insertImplWith (cmpTests cmp) fuel node key data := by
  induction fuel generalizing node with
  | zero => rfl
  | succ fuel ih => simp only [rbInsertImplCmp, insertImplWith, place_cmpTests, ih]

theorem rbDeleteImplCmp_eq [HasFalse D] (fuel : ℕ) (node : Link) (key : K) :
    (rbDeleteImplCmp fuel node key cmp : RbM K D Link) =
      deleteImplWith (cmpTests cmp) fuel node key := by
  induction fuel generalizing node with
  | zero => rfl
  | succ fuel ih =>
    simp only [rbDeleteImplCmp, deleteImplWith, less_cmpTests, equal_cmpTests,
      Cmd.bind_assoc_run, Cmd.pure_bind_eq, decide_eq_true_eq, ih]

theorem rbInsertCmp_eq (node : Link) (key : K) (data : D) :
    rbInsertCmp node key data cmp = insertWith (cmpTests cmp) node key data := by
  simp only [rbInsertCmp, insertWith, rbInsertImplCmp_eq]

theorem rbDeleteCmp_eq [HasFalse D] (node : Link) (key : K) :
    (rbDeleteCmp node key cmp : RbM K D Link) = deleteWith (cmpTests cmp) node key := by
  simp only [rbDeleteCmp, deleteWith, rbDeleteImplCmp_eq]

theorem rbSearchCmp_eq [HasFalse D] (node : Link) (key : K) :
    (rbSearchCmp node key cmp : RbM K D D) =
      (do searchWith (cmpTests cmp) (← depthBound) node key) := by
  simp only [rbSearchCmp, rbSearchCmpFrom_eq]

theorem rbContainsCmp_eq (node : Link) (key : K) :
    (rbContainsCmp node key cmp : RbM K D Bool) =
      (do containsWith (cmpTests cmp) (← depthBound) node key) := by
  simp only [rbContainsCmp, rbContainsCmpFrom_eq]

end CmpPath

end RbTree
