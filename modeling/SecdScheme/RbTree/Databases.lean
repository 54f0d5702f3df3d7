import SecdScheme.RbTree.Validate
import SecdScheme.Lib.SideBySide

/-!
# Databases side by side

Any number of handles, each with a comparator of its own, whose nodes lie in one
heap. The read-outs give the keys in the order of the comparator, and their
number. A run of operations on all of them answers as sorted lists do, one for
each handle: no handle is concerned by what is done to another, not even through
the variables that the validator shares.
-/

namespace RbTree

open Llrb SideBySide

variable {K D : Type}

/-! ## Read-outs -/

/-- `rb-to-list`: the keys, in order. -/
def rbToList [Zero K] : ℕ → Link → RbM K D (List K)
  | 0, _ => Cmd.fail .tooDeep
  | fuel + 1, node => do
    if rbNull node then return []
    let before ← rbToList fuel (← rbLeft node)
    let key ← rbKey node
    let after ← rbToList fuel (← rbRight node)
    return before ++ [key] ++ after

/-- `rb-traverse`: the keys are displayed, in order. -/
def rbTraverse [Zero K] [ToString K] : ℕ → Link → RbM K D Unit
  | 0, _ => Cmd.fail .tooDeep
  | fuel + 1, node => do
    if !rbNull node then
      rbTraverse fuel (← rbLeft node)
      display (toString (← rbKey node))
      display "\n"
      rbTraverse fuel (← rbRight node)

/-- `rb-count-nodes`. -/
def rbCountNodes : ℕ → Link → RbM K D ℕ
  | 0, _ => Cmd.fail .tooDeep
  | fuel + 1, node => do
    if rbNull node then return 0
    let before ← rbCountNodes fuel (← rbLeft node)
    let after ← rbCountNodes fuel (← rbRight node)
    return 1 + before + after

/-- `rb-db-to-list`. -/
def rbDbToList [Zero K] (db : Db K) : RbM K D (List K) := do
  rbToList (← depthBound) db.root

/-- `rb-db-count`. -/
def rbDbCount (db : Db K) : RbM K D ℕ := do
  rbCountNodes (← depthBound) db.root

/-- `rb-db-validate`: the validator that says what it finds. -/
def rbDbValidate [Zero K] [ToString K] [NumericKey K] (db : Db K) : CheckM K D Bool := do
  if rbNull db.root then
    displayLine "Tree is valid (empty)"
    return true
  else if (← onStore (rbIsRed db.root)) then
    displayLine "ERROR: Root is not black!"
    displayLine "Tree is INVALID"
    return false
  else if (← rbDbValid db) then
    onStore (do
      display "Tree is valid (black height: "
      display (toString (← rbCheckProperty (← depthBound) db.root))
      display ")"
      display "\n")
    return true
  else
    displayLine "Tree is INVALID"
    return false

open Llrb.Tree SortedAssoc OrderedMap

section ReadOuts

variable {s : Store K D} {t : Tree K (ℕ × D)} {fuel : ℕ}

theorem rbToList_run [Zero K] (h : Stored s t) (hf : t.size < fuel) :
    rbToList fuel (link t) s = (.ok (keysOf t), s) := by
  induction fuel generalizing t with
  | zero => exact absurd hf (Nat.not_lt_zero _)
  | succ fuel ih =>
    cases t with
    | nil => rfl
    | node c l k e r =>
      have hsize : l.size + r.size + 1 < fuel + 1 := hf
      rw [rbToList, if_neg (show ¬ rbNull (link (node c l k e r)) = true from Bool.false_ne_true)]
      rw [Cmd.bind_run_ok (rbLeft_run h), Cmd.bind_run_ok (ih h.left (by simp only [left]; omega)),
        Cmd.bind_run_ok (rbKey_run h), Cmd.bind_run_ok (rbRight_run h),
        Cmd.bind_run_ok (ih h.right (by simp only [right]; omega)), keysOf_node,
        List.append_assoc]
      rfl

theorem rbCountNodes_run (h : Stored s t) (hf : t.size < fuel) :
    rbCountNodes fuel (link t) s = (.ok t.size, s) := by
  induction fuel generalizing t with
  | zero => exact absurd hf (Nat.not_lt_zero _)
  | succ fuel ih =>
    cases t with
    | nil => rfl
    | node c l k e r =>
      have hsize : l.size + r.size + 1 < fuel + 1 := hf
      rw [rbCountNodes,
        if_neg (show ¬ rbNull (link (node c l k e r)) = true from Bool.false_ne_true)]
      rw [Cmd.bind_run_ok (rbLeft_run h), Cmd.bind_run_ok (ih h.left (by simp only [left]; omega)),
        Cmd.bind_run_ok (rbRight_run h), Cmd.bind_run_ok (ih h.right (by simp only [right]; omega)),
        Nat.add_assoc, Nat.add_comm 1]
      rfl

/-- What a traversal displays for a key. -/
def keyLine [ToString K] (key : K) : List String := [toString key, "\n"]

theorem rbTraverse_run [Zero K] [ToString K] (h : Stored s t) (hf : t.size < fuel) :
    rbTraverse fuel (link t) s =
      (.ok (), { s with out := s.out ++ (keysOf t).flatMap keyLine }) := by
  induction fuel generalizing s t with
  | zero => exact absurd hf (Nat.not_lt_zero _)
  | succ fuel ih =>
    cases t with
    | nil =>
      show (Except.ok (), s) = (Except.ok (), { s with out := s.out ++ [] })
      rw [List.append_nil]
    | node c l k e r =>
      have hsize : l.size + r.size + 1 < fuel + 1 := hf
      have hkey := h.out (s.out ++ (keysOf l).flatMap keyLine)
      have hshown := h.out (s.out ++ (keysOf l).flatMap keyLine ++ [toString k] ++ ["\n"])
      rw [rbTraverse, if_pos (show (!rbNull (link (node c l k e r))) = true from rfl)]
      rw [Cmd.bind_run_ok (rbLeft_run h), Cmd.bind_run_ok (ih h.left (by simp only [left]; omega))]
      refine (Cmd.bind_run_ok (rbKey_run hkey) _).trans ?_
      refine (Cmd.bind_run_ok (rbRight_run hshown) _).trans ((ih hshown.right ?_).trans ?_)
      · simp only [right]
        omega
      · rw [keysOf_node, List.flatMap_append, List.flatMap_cons]
        simp [keyLine, right, List.append_assoc]

/-- **`rb-db-validate`** displays more than `rb-db-valid?`, and answers the
same. -/
theorem checks_rbDbValidate [Zero K] [ToString K] [NumericKey K] {w : Checker K D} {db : Db K}
    {Dom : K → Prop} (h : Owned w.store t) (hroot : db.root = link t)
    (hcmp : TotalOn db.cmp.call Dom) (hkeys : ∀ key ∈ keysOf t, Dom key) :
    ∃ b vars, Checks (rbDbValidate db) w b vars ∧ (b = true ↔ Valid (Below db.cmp.call) t) := by
  obtain ⟨b, vars, hchecks, hb⟩ := checks_rbDbValid h hroot hcmp hkeys
  have hred : Answers (rbIsRed db.root) w.store t.isRed := by
    rw [hroot]
    exact .of_run (rbIsRed_run h.stored)
  unfold rbDbValidate
  cases t with
  | nil =>
    refine ⟨true, w.vars, ?_, fun _ => valid_iff.mpr ⟨rfl, fine_nil, List.Pairwise.nil⟩,
      fun _ => rfl⟩
    rw [if_pos (show rbNull db.root = true from by rw [hroot]; rfl)]
    exact (checks_displayLine _).bind fun _ => .pure true
  | node c l k e r =>
    rw [if_neg (show ¬ rbNull db.root = true from by rw [hroot]; exact Bool.false_ne_true)]
    cases c with
    | red =>
      refine ⟨false, w.vars, (checks_onStore hred).bind fun _ => ?_,
        fun hf => absurd hf Bool.false_ne_true, fun hv => absurd hv.1.root_black (by simp [isRed])⟩
      exact (checks_displayLine _).bind fun _ => (checks_displayLine _).bind fun _ => .pure false
    | black =>
      have hrun : onStore (rbIsRed db.root) w = (.ok false, w) := by
        unfold onStore
        rw [hroot, rbIsRed_run h.stored]
        rfl
      refine ⟨b, vars, ?_, hb⟩
      refine (Checks.bind hchecks fun out => ?_).imp fun _ h => (Cmd.bind_run_ok hrun _).trans h
      cases b with
      | false => exact (checks_displayLine _).bind fun _ => .pure false
      | true =>
        refine (checks_onStore (v := ()) ?_).bind fun _ => .pure true
        rw [hroot]
        refine (answers_display _).bind fun o₁ => (Answers.of_run (depthBound_run _)).bind
          fun o₂ => ?_
        refine (answers_rbCheckProperty ((h.stored.out _).out o₂)
          (Nat.lt_succ_of_le h.size_le)).bind fun o₃ => ?_
        exact (answers_display _).bind fun _ => (answers_display _).bind fun _ =>
          answers_display _

end ReadOuts

/-! ## Runs over several handles -/

/-- An operation on the handles that a program has made, by their numbers. -/
inductive DbsOp (K D : Type) where
  | new (cmp : Comparator K)
  | on (i : ℕ) (op : DbOp K D)
  | toList (i : ℕ)
  | count (i : ℕ)
  | valid (i : ℕ)
  | validate (i : ℕ)

/-- What an operation returns; an error, and no handle of that number. -/
inductive DbsAnswer (K D : Type) where
  | answer (a : Answer D)
  | keys (ks : List K)
  | count (n : ℕ)
  | valid (b : Bool)
  | refused
  | noDb
  deriving DecidableEq

/-- What a program sees of a call. -/
def DbsAnswer.ofExcept {ε α : Type} (f : α → DbsAnswer K D) : Except ε α → DbsAnswer K D
  | .ok v => f v
  | .error _ => .refused

/-- The handles of a program, the nodes, and the variables of the validator. -/
structure Databases (K D : Type) where
  dbs : List (Db K)
  store : Store K D
  vars : OrderVars K

/-- One operation. An error ends it, and the program goes on. -/
def DbsOp.exec [Zero K] [HasFalse D] [NumericKey K] [ToString K] :
    DbsOp K D → Databases K D → DbsAnswer K D × Databases K D
  | new cmp, ds => (.answer .db, { ds with dbs := ds.dbs ++ [rbNewWith cmp] })
  | on i op, ds =>
    match ds.dbs[i]? with
    | none => (.noDb, ds)
    | some db =>
      let (r, w) := op.exec ⟨db, ds.store⟩
      (.ofExcept .answer r, { ds with dbs := ds.dbs.set i w.db, store := w.store })
  | toList i, ds =>
    match ds.dbs[i]? with
    | none => (.noDb, ds)
    | some db =>
      let (r, s) := rbDbToList db ds.store
      (.ofExcept .keys r, { ds with store := s })
  | count i, ds =>
    match ds.dbs[i]? with
    | none => (.noDb, ds)
    | some db =>
      let (r, s) := rbDbCount db ds.store
      (.ofExcept .count r, { ds with store := s })
  | valid i, ds =>
    match ds.dbs[i]? with
    | none => (.noDb, ds)
    | some db =>
      let (r, w) := rbDbValid db ⟨ds.store, ds.vars⟩
      (.ofExcept .valid r, { ds with store := w.store, vars := w.vars })
  | validate i, ds =>
    match ds.dbs[i]? with
    | none => (.noDb, ds)
    | some db =>
      let (r, w) := rbDbValidate db ⟨ds.store, ds.vars⟩
      (.ofExcept .valid r, { ds with store := w.store, vars := w.vars })

/-- One operation after another, and what each returned. -/
def runDatabases [Zero K] [HasFalse D] [NumericKey K] [ToString K] :
    List (DbsOp K D) → Databases K D → List (DbsAnswer K D) × Databases K D
  | [], ds => ([], ds)
  | op :: ops, ds =>
    let (a, ds) := op.exec ds
    let (as, ds) := runDatabases ops ds
    (a :: as, ds)

/-! ## Sorted lists -/

/-- What an operation does to the entries. -/
def DbOp.onList (ord : K → K → Ordering) : DbOp K D → List (K × D) → List (K × D)
  | insert key data, l => insertSorted ord key data l
  | delete key, l => eraseKey ord key l
  | deleteMin, l => l.tail
  | search _, l => l
  | contains _, l => l

/-- The comparator takes the key that an operation is given. -/
def DbOp.takenBy [NumericKey K] (cmp : Comparator K) (op : DbOp K D) : Bool :=
  op.key?.all fun key => (cmp.call key key).isOk

/-- **The handles as they are meant**: a comparator, and the entries in its
order. -/
abbrev SortedDbs (K D : Type) := List (Comparator K × List (K × D))

/-- What an operation answers, and what it makes of the entries. -/
def DbsOp.onLists [HasFalse D] [NumericKey K] :
    DbsOp K D → SortedDbs K D → DbsAnswer K D × SortedDbs K D
  | new cmp, ls => (.answer .db, ls ++ [(cmp, [])])
  | on i op, ls =>
    match ls[i]? with
    | none => (.noDb, ls)
    | some (cmp, l) =>
      if op.takenBy cmp then
        (.answer (op.answer fun key => lookup (ordOf cmp.call) key l),
          ls.set i (cmp, op.onList (ordOf cmp.call) l))
      else (.refused, ls)
  | toList i, ls =>
    match ls[i]? with
    | none => (.noDb, ls)
    | some (_, l) => (.keys (l.map Prod.fst), ls)
  | count i, ls =>
    match ls[i]? with
    | none => (.noDb, ls)
    | some (_, l) => (.count l.length, ls)
  | valid i, ls =>
    match ls[i]? with
    | none => (.noDb, ls)
    | some _ => (.valid true, ls)
  | validate i, ls =>
    match ls[i]? with
    | none => (.noDb, ls)
    | some _ => (.valid true, ls)

/-- The same on the abstract handles. -/
def runLists [HasFalse D] [NumericKey K] :
    List (DbsOp K D) → SortedDbs K D → List (DbsAnswer K D) × SortedDbs K D
  | [], ls => ([], ls)
  | op :: ops, ls =>
    let (a, ls) := op.onLists ls
    let (as, ls) := runLists ops ls
    (a :: as, ls)

section Lists

variable {Dom : K → Prop}

theorem DbOp.takenBy_iff [NumericKey K] {cmp : Comparator K} (hc : TotalOn cmp.call Dom)
    (op : DbOp K D) : op.takenBy cmp = true ↔ op.InDom Dom := by
  unfold takenBy InDom
  cases op.key? with
  | none => exact ⟨fun _ _ hk => (by cases hk), fun _ => rfl⟩
  | some key =>
    have hok := hc.ok_iff key key
    rw [and_self] at hok
    rw [Option.all_some]
    constructor
    · intro h k hk
      cases hk
      cases hcall : cmp.call key key with
      | ok c => exact hok.mp ⟨c, hcall⟩
      | error e =>
        rw [hcall] at h
        cases h
    · intro h
      obtain ⟨c, hcall⟩ := hok.mpr (h key rfl)
      rw [hcall]
      rfl

/-- **The entries follow the map.** -/
theorem DbOp.represents_onList [DecidableEq K] {ord : K → K → Ordering} (ho : KeyOrder ord Dom)
    {l : List (K × D)} {m : K → Option D} (h : Represents ord Dom l m) {op : DbOp K D}
    (hop : op.InDom Dom) : Represents ord Dom (op.onList ord l) (op.onMap ord Dom m) := by
  rw [DbOp.onMap.eq_def, if_pos hop]
  cases op with
  | insert key data => exact h.insertSorted ho data (hop key rfl)
  | delete key => exact h.eraseKey ho (hop key rfl)
  | deleteMin => exact h.tail ho
  | search key => exact h
  | contains key => exact h

/-- A lookup in the entries answers as the map does. -/
theorem DbOp.answer_lookup [HasFalse D] {ord : K → K → Ordering} (ho : KeyOrder ord Dom)
    {l : List (K × D)} {m : K → Option D} (h : Represents ord Dom l m) {op : DbOp K D}
    (hop : op.InDom Dom) : op.answer (fun key => lookup ord key l) = op.answer m := by
  cases op with
  | insert key data => rfl
  | delete key => rfl
  | deleteMin => rfl
  | search key =>
    show Answer.data ((lookup ord key l).getD _) = _
    rw [h.lookup_eq ho (hop key rfl)]
    rfl
  | contains key =>
    show Answer.bool (lookup ord key l).isSome = _
    rw [h.lookup_eq ho (hop key rfl)]
    rfl

end Lists

/-! ## Handles side by side -/

/-- The nodes as cells. -/
def nodeCells (K D : Type) : Memory (Store K D) (Option (Node K D)) where
  size s := s.nodes.length
  cell s a := s.get a

theorem Evolves.spares {s s' : Store K D} {t t' : Tree K (ℕ × D)} (h : Evolves s t s' t') :
    Spares (nodeCells K D) (addrs t) s s' := ⟨h.frame.length, h.frame.get⟩

/-- A handle of a program: its comparator and its tree. -/
structure DbRow (K D : Type) where
  cmp : Comparator K
  tree : Tree K (ℕ × D)

namespace DbRow

/-- The handle itself. -/
def db (r : DbRow K D) : Db K := ⟨link r.tree, r.cmp⟩

/-- The comparator and the entries, in order. -/
def entries (r : DbRow K D) : Comparator K × List (K × D) := (r.cmp, (erase r.tree).toList)

/-- **The tree is there**, in the order of a comparator that is one. -/
def At [NumericKey K] (r : DbRow K D) (s : Store K D) : Prop :=
  ∃ Dom m, TotalOn r.cmp.call Dom ∧ TreeAt s (link r.tree) (ordOf r.cmp.call) Dom r.tree m

end DbRow

/-- How a handle's tree lies in the nodes. -/
def dbLayout (K D : Type) [NumericKey K] : Layout (nodeCells K D) (DbRow K D) where
  footprint r := addrs r.tree
  At := DbRow.At
  lt_size := by
    rintro r s ⟨Dom, m, -, h⟩ a ha
    exact h.owned.stored.lt_length a ha
  mono := by
    rintro r s s' ⟨Dom, m, hc, h⟩ hs
    exact ⟨Dom, m, hc, h.frame hs⟩

/-- **The handles are there, each with nodes of its own.** -/
structure DatabasesAt [NumericKey K] (rows : List (DbRow K D)) (ds : Databases K D) : Prop where
  dbs : ds.dbs = rows.map DbRow.db
  rows : Apart (dbLayout K D) rows ds.store

theorem keysOf_erase (t : Tree K (ℕ × D)) : (erase t).toList.map Prod.fst = keysOf t := by
  rw [erase, toList_mapData, List.map_map]
  rfl

section Runs

variable [Zero K] [HasFalse D] [NumericKey K] [ToString K] {r : DbRow K D}
  {s : Store K D} {ds : Databases K D} {rows : List (DbRow K D)} {i : ℕ}

omit [HasFalse D] [ToString K] in
theorem DbRow.At.toList (h : r.At s) :
    rbDbToList r.db s = (.ok ((erase r.tree).toList.map Prod.fst), s) := by
  obtain ⟨_, _, _, ht⟩ := h
  rw [keysOf_erase]
  refine (Cmd.bind_run_ok (depthBound_run s) _).trans ?_
  exact rbToList_run ht.owned.stored (Nat.lt_succ_of_le ht.owned.size_le)

omit [Zero K] [HasFalse D] [ToString K] in
theorem DbRow.At.count (h : r.At s) :
    rbDbCount r.db s = (.ok (erase r.tree).toList.length, s) := by
  obtain ⟨_, _, _, ht⟩ := h
  rw [erase, toList_mapData, List.length_map, length_toList]
  refine (Cmd.bind_run_ok (depthBound_run s) _).trans ?_
  exact rbCountNodes_run ht.owned.stored (Nat.lt_succ_of_le ht.owned.size_le)

omit [Zero K] [HasFalse D] [ToString K] in
theorem DbRow.At.valid (h : r.At s) : Valid (Below r.cmp.call) r.tree := by
  obtain ⟨Dom, m, -, ht⟩ := h
  obtain ⟨n, hb⟩ := ht.balanced
  refine ⟨(redBlack_mapData _).mp hb.redBlack, ?_⟩
  rw [← keysOf_erase, List.pairwise_map]
  refine ht.represents.sorted.imp fun {a b} hab => ?_
  unfold ordOf at hab
  cases hcall : r.cmp.call a.1 b.1 with
  | ok c =>
    rw [hcall] at hab
    exact ⟨c, hcall, compare_lt_iff_lt.mp hab⟩
  | error e =>
    rw [hcall] at hab
    cases hab

omit [Zero K] [HasFalse D] [ToString K] in
/-- **A validator that is exact** is content, whatever the variables were left
at. -/
theorem DbRow.At.checked (h : r.At s) (vars : OrderVars K) {check : CheckM K D Bool}
    (hcheck : ∀ {Dom}, Owned s r.tree → TotalOn r.cmp.call Dom →
      (∀ key ∈ keysOf r.tree, Dom key) → ∃ b vars', Checks check ⟨s, vars⟩ b vars' ∧
        (b = true ↔ Valid (Below r.cmp.call) r.tree)) :
    ∃ out vars', check ⟨s, vars⟩ = (.ok true, ⟨{ s with out := out }, vars'⟩) := by
  have hvalid := h.valid
  obtain ⟨Dom, m, hc, ht⟩ := h
  have hkeys : ∀ key ∈ keysOf r.tree, Dom key := by
    intro key hkey
    rw [← keysOf_erase] at hkey
    obtain ⟨e, he, rfl⟩ := List.mem_map.mp hkey
    exact ht.represents.keys e he
  obtain ⟨b, vars', ⟨out, hrun⟩, hb⟩ := hcheck ht.owned hc hkeys
  rw [hb.mpr hvalid] at hrun
  exact ⟨out, vars', hrun⟩

omit [ToString K] in
/-- **An operation whose key the comparator takes.** -/
theorem DbRow.At.exec [DecidableEq K] (h : r.At s) {op : DbOp K D}
    (hop : op.takenBy r.cmp = true) :
    ∃ s' t', op.exec ⟨r.db, s⟩ =
        (.ok (op.answer fun key => lookup (ordOf r.cmp.call) key (erase r.tree).toList),
          ⟨⟨link t', r.cmp⟩, s'⟩) ∧
      DbRow.At ⟨r.cmp, t'⟩ s' ∧
      (erase t').toList = op.onList (ordOf r.cmp.call) (erase r.tree).toList ∧
      Evolves s r.tree s' t' := by
  obtain ⟨Dom, m, hc, ht⟩ := h
  rw [DbOp.takenBy_iff hc] at hop
  have hat : DbAt ⟨r.db, s⟩ r.cmp Dom r.tree m := ⟨rfl, ht⟩
  obtain ⟨⟨⟨root, cmp⟩, s'⟩, t', hrun, ⟨hcmp, ht'⟩, hev⟩ := DbOp.exec_ok hc hat hop
  obtain rfl : cmp = r.cmp := hcmp
  obtain rfl : root = link t' := ht'.link_eq
  have hentries := DbOp.represents_onList hc.keyOrder ht.represents hop
  rw [← DbOp.answer_lookup hc.keyOrder ht.represents hop] at hrun
  exact ⟨s', t', hrun, ⟨Dom, _, hc, ht'⟩, ht'.represents.unique hc.keyOrder hentries, hev⟩

omit [ToString K] in
/-- **An operation whose key the comparator refuses.** -/
theorem DbRow.At.exec_refused (h : r.At s) {op : DbOp K D} (hop : ¬ op.takenBy r.cmp = true) :
    ∃ e, op.exec ⟨r.db, s⟩ = (.error e, ⟨r.db, s⟩) := by
  obtain ⟨Dom, m, hc, ht⟩ := h
  rw [DbOp.takenBy_iff hc] at hop
  exact DbOp.exec_foreign hc rfl hop

namespace DatabasesAt

omit [Zero K] [HasFalse D] [ToString K] in
theorem getElem?_db (h : DatabasesAt rows ds) (hr : rows[i]? = some r) :
    ds.dbs[i]? = some r.db := by
  rw [h.dbs, List.getElem?_map, hr]
  rfl

omit [Zero K] [HasFalse D] [ToString K] in
theorem getElem?_none (h : DatabasesAt rows ds) (hr : rows[i]? = none) : ds.dbs[i]? = none := by
  rw [h.dbs, List.getElem?_map, hr]
  rfl

/-- **An operation** answers as the handles are meant, and keeps them so. -/
theorem exec [DecidableEq K] (h : DatabasesAt rows ds) (op : DbsOp K D)
    (hop : ∀ cmp, op = .new cmp → ∃ Dom, TotalOn cmp.call Dom) :
    ∃ rows' ds', op.exec ds = ((op.onLists (rows.map DbRow.entries)).1, ds') ∧
      DatabasesAt rows' ds' ∧
      rows'.map DbRow.entries = (op.onLists (rows.map DbRow.entries)).2 := by
  cases op with
  | new cmp =>
    obtain ⟨Dom, hc⟩ := hop cmp rfl
    refine ⟨rows ++ [⟨cmp, nil⟩], _, rfl, ⟨?_, ?_⟩, List.map_append⟩
    · rw [h.dbs, List.map_append]
      rfl
    · refine h.rows.snoc ⟨Dom, _, hc, treeAt_nil _⟩ (.refl [] ds.store) fun a ha => ?_
      exact absurd ha List.not_mem_nil
  | on i op =>
    simp only [DbsOp.exec, DbsOp.onLists, List.getElem?_map]
    cases hr : rows[i]? with
    | none =>
      rw [h.getElem?_none hr]
      exact ⟨rows, ds, rfl, h, rfl⟩
    | some r =>
      rw [h.getElem?_db hr]
      -- the handle looks at the key before it changes anything
      by_cases htaken : op.takenBy r.cmp = true
      · obtain ⟨s', t', hrun, hat, hentries, hev⟩ := (h.rows.holds hr).exec htaken
        refine ⟨rows.set i ⟨r.cmp, t'⟩,
          ⟨ds.dbs.set i ⟨link t', r.cmp⟩, s', ds.vars⟩, ?_, ⟨?_, ?_⟩, ?_⟩
        · dsimp only [Option.map_some, DbRow.entries]
          rw [hrun, if_pos htaken]
          rfl
        · rw [h.dbs, List.map_set]
          rfl
        · exact h.rows.set hr hat hev.spares hev.within
        · dsimp only [Option.map_some, DbRow.entries]
          rw [if_pos htaken, List.map_set, ← hentries]
          rfl
      · obtain ⟨e, hrun⟩ := (h.rows.holds hr).exec_refused htaken
        refine ⟨rows, ds, ?_, h, ?_⟩
        · dsimp only [Option.map_some, DbRow.entries]
          rw [hrun, if_neg htaken]
          have hget := h.getElem?_db hr
          rw [← (List.getElem?_eq_some_iff.mp hget).2, List.set_getElem_self]
          rfl
        · dsimp only [Option.map_some, DbRow.entries]
          rw [if_neg htaken]
  | toList i =>
    simp only [DbsOp.exec, DbsOp.onLists, List.getElem?_map]
    cases hr : rows[i]? with
    | none =>
      rw [h.getElem?_none hr]
      exact ⟨rows, ds, rfl, h, rfl⟩
    | some r =>
      rw [h.getElem?_db hr]
      refine ⟨rows, ds, ?_, h, rfl⟩
      dsimp only
      rw [(h.rows.holds hr).toList]
      rfl
  | count i =>
    simp only [DbsOp.exec, DbsOp.onLists, List.getElem?_map]
    cases hr : rows[i]? with
    | none =>
      rw [h.getElem?_none hr]
      exact ⟨rows, ds, rfl, h, rfl⟩
    | some r =>
      rw [h.getElem?_db hr]
      refine ⟨rows, ds, ?_, h, rfl⟩
      dsimp only
      rw [(h.rows.holds hr).count]
      rfl
  | valid i =>
    simp only [DbsOp.exec, DbsOp.onLists, List.getElem?_map]
    cases hr : rows[i]? with
    | none =>
      rw [h.getElem?_none hr]
      exact ⟨rows, ds, rfl, h, rfl⟩
    | some r =>
      rw [h.getElem?_db hr]
      obtain ⟨out, vars', hrun⟩ := (h.rows.holds hr).checked ds.vars
        fun ho hc hkeys => checks_rbDbValid ho (show r.db.root = _ from rfl) hc hkeys
      refine ⟨rows, ⟨ds.dbs, { ds.store with out := out }, vars'⟩, ?_,
        ⟨h.dbs, h.rows.mono fun _ => rfl⟩, rfl⟩
      dsimp only
      rw [hrun]
      rfl
  | validate i =>
    simp only [DbsOp.exec, DbsOp.onLists, List.getElem?_map]
    cases hr : rows[i]? with
    | none =>
      rw [h.getElem?_none hr]
      exact ⟨rows, ds, rfl, h, rfl⟩
    | some r =>
      rw [h.getElem?_db hr]
      obtain ⟨out, vars', hrun⟩ := (h.rows.holds hr).checked ds.vars
        fun ho hc hkeys => checks_rbDbValidate ho (show r.db.root = _ from rfl) hc hkeys
      refine ⟨rows, ⟨ds.dbs, { ds.store with out := out }, vars'⟩, ?_,
        ⟨h.dbs, h.rows.mono fun _ => rfl⟩, rfl⟩
      dsimp only
      rw [hrun]
      rfl

/-- **And so does a run.** -/
theorem run [DecidableEq K] (h : DatabasesAt rows ds) (ops : List (DbsOp K D))
    (hops : ∀ cmp, DbsOp.new cmp ∈ ops → ∃ Dom, TotalOn cmp.call Dom) :
    ∃ rows' ds', runDatabases ops ds = ((runLists ops (rows.map DbRow.entries)).1, ds') ∧
      DatabasesAt rows' ds' ∧
      rows'.map DbRow.entries = (runLists ops (rows.map DbRow.entries)).2 := by
  induction ops generalizing rows ds with
  | nil => exact ⟨rows, ds, rfl, h, rfl⟩
  | cons op ops ih =>
    obtain ⟨rows₁, ds₁, hexec, h₁, hentries₁⟩ := h.exec op fun cmp hcmp =>
      hops cmp (hcmp ▸ List.mem_cons_self)
    obtain ⟨rows₂, ds₂, hrun, h₂, hentries₂⟩ := ih h₁ fun cmp hcmp =>
      hops cmp (List.mem_cons_of_mem _ hcmp)
    rw [hentries₁] at hrun hentries₂
    refine ⟨rows₂, ds₂, ?_, h₂, ?_⟩
    · rw [runDatabases, runLists, hexec]
      dsimp only
      rw [hrun]
    · rw [hentries₂, runLists]

end DatabasesAt

/-- **Databases side by side.** A run of operations on any number of handles,
whose comparators are strict total orders, each on a domain of its own, from any
nodes and whatever the variables of the validator are, answers as sorted lists
do, one for each handle. Afterwards the nodes of each handle are a left-leaning
red-black tree of its own with these entries, and a traversal displays their
keys in order. -/
theorem databases_refine_lists [DecidableEq K] (ops : List (DbsOp K D))
    (hops : ∀ cmp, DbsOp.new cmp ∈ ops → ∃ Dom, TotalOn cmp.call Dom) (s : Store K D)
    (vars : OrderVars K) :
    ∃ ds, runDatabases ops ⟨[], s, vars⟩ = ((runLists ops []).1, ds) ∧
      ds.dbs.length = (runLists ops []).2.length ∧
      ∀ (i : ℕ) (cmp : Comparator K) (l : List (K × D)),
        (runLists ops []).2[i]? = some (cmp, l) →
        ∃ t, ds.dbs[i]? = some ⟨link t, cmp⟩ ∧ Owned ds.store t ∧ RedBlack t ∧
          (erase t).toList = l ∧ StrictlySorted (ordOf cmp.call) l ∧
          (do rbTraverse (← depthBound) (link t) : RbM K D Unit) ds.store =
            (.ok (), { ds.store with
              out := ds.store.out ++ (l.map Prod.fst).flatMap keyLine }) := by
  have hstart : DatabasesAt [] (⟨[], s, vars⟩ : Databases K D) := ⟨rfl, .nil s⟩
  obtain ⟨rows, ds, hrun, h, hentries⟩ := hstart.run ops hops
  rw [List.map_nil] at hrun hentries
  refine ⟨ds, hrun, ?_, fun i cmp l hi => ?_⟩
  · rw [← hentries, h.dbs, List.length_map, List.length_map]
  · rw [← hentries, List.getElem?_map] at hi
    obtain ⟨r, hr, hl⟩ := Option.map_eq_some_iff.mp hi
    cases hl
    have hvalid := (h.rows.holds hr).valid
    obtain ⟨Dom, m, -, ht⟩ := h.rows.holds hr
    refine ⟨r.tree, h.getElem?_db hr, ht.owned, hvalid.1, rfl, ht.represents.sorted, ?_⟩
    rw [keysOf_erase]
    refine (Cmd.bind_run_ok (depthBound_run ds.store) _).trans ?_
    exact rbTraverse_run ht.owned.stored (Nat.lt_succ_of_le ht.owned.size_le)

end Runs

theorem rbCmpNumber_int (a b : ℤ) :
    rbCmpNumber a b = .ok (if a < b then -1 else if b < a then 1 else 0) := by
  simp only [rbCmpNumber, NumericKey.isNumber, NumericKey.lt, Bool.and_self, if_true,
    decide_eq_true_eq]
  split
  · rfl
  · split <;> rfl

/-- `rb-cmp-number` is a strict total order on the integers. -/
theorem rbCmpNumber_totalOn : TotalOn (rbCmpNumber : ℤ → ℤ → _) (fun _ => True) where
  ok_iff a b := ⟨fun _ => ⟨trivial, trivial⟩, fun _ => ⟨_, rbCmpNumber_int a b⟩⟩
  zero_iff _ _ := by
    rw [rbCmpNumber_int, Except.ok.injEq]
    grind
  neg_iff_pos h h' := by
    rw [rbCmpNumber_int, Except.ok.injEq] at h h'
    grind
  trans h h' h'' := by
    rw [rbCmpNumber_int, Except.ok.injEq] at h h' h''
    grind

/-- Two handles, one for the natural numbers in descending order. -/
def twoDatabases : List (DbsOp ℤ (Option ℤ)) :=
  [.new .rbCmpNumber, .new (.user cmpDescending), .on 0 (.insert 3 none), .on 1 (.insert 3 none),
    .on 0 (.insert (-5) none), .on 1 (.insert (-5) none), .on 1 (.insert 9 (some 1)), .toList 0,
    .toList 1, .on 1 (.search 9), .valid 1, .validate 0, .on 0 .deleteMin, .count 0, .count 2]

theorem databases_refine_lists_two : ∃ ds, runDatabases twoDatabases
      ⟨[], ⟨[], []⟩, ⟨false, true, 9, .rbCmpNumber⟩⟩ =
    ([.answer .db, .answer .db, .answer .db, .answer .db, .answer .db, .refused, .answer .db,
      .keys [-5, 3], .keys [9, 3], .answer (.data (some 1)), .valid true, .valid true,
      .answer .db, .count 1, .noDb], ds) := by
  have hops : ∀ cmp, DbsOp.new cmp ∈ twoDatabases → ∃ Dom, TotalOn cmp.call Dom := by
    intro cmp hcmp
    simp only [twoDatabases, List.mem_cons, DbsOp.new.injEq, List.not_mem_nil, reduceCtorEq,
      or_false] at hcmp
    rcases hcmp with rfl | rfl
    · exact ⟨_, rbCmpNumber_totalOn⟩
    · exact ⟨_, cmpDescending_totalOn⟩
  obtain ⟨ds, hrun, -⟩ := databases_refine_lists twoDatabases hops ⟨[], []⟩
    ⟨false, true, 9, .rbCmpNumber⟩
  exact ⟨ds, hrun⟩

end RbTree
