import SecdScheme.RbTree.Runs

/-!
# Database handles

A handle keeps a comparator with the root. Every operation that is given a
key first compares the key with itself, before anything is changed, so that a
key outside the comparator's domain is refused also by an empty tree and
never half-way through a descent.

The comparator is a parameter: any function of two keys that may fail.
`TotalOn` is what is asked of it – a strict total order on its domain, which
fails exactly when an argument is outside.
-/

namespace RbTree

open Llrb Llrb.Tree SortedAssoc OrderedMap

variable {K D : Type}

/-- `rb-cmp-number`, which handles recognise by `eq?`, or a procedure of the
caller. -/
inductive Comparator (K : Type) where
  | rbCmpNumber
  | user (cmp : KeyCmp K)

/-- `rb-reject-key`: both keys are named. -/
def rbRejectKey (who : String) (a b : K) : Except (SchemeError K) ℤ :=
  .error (.error (who ++ ": key is outside this tree's domain") [a, b])

/-- `rb-cmp-number`: keys that are numbers, in their order. -/
def rbCmpNumber [NumericKey K] (a b : K) : Except (SchemeError K) ℤ :=
  if NumericKey.isNumber a && NumericKey.isNumber b then
    if NumericKey.lt a b then .ok (-1)
    else if NumericKey.lt b a then .ok 1
    else .ok 0
  else rbRejectKey "rb-cmp-number" a b

/-- The call of a comparator. -/
def Comparator.call [NumericKey K] : Comparator K → KeyCmp K
  | .rbCmpNumber => RbTree.rbCmpNumber
  | .user cmp => cmp

/-- A handle: the vector `#(root cmp)`. -/
structure Db (K : Type) where
  root : Link
  cmp : Comparator K

/-- `rb-new-with`. -/
def rbNewWith (cmp : Comparator K) : Db K := ⟨none, cmp⟩

/-- The heap and the handle. -/
structure World (K D : Type) where
  db : Db K
  store : Store K D

/-- An operation on the handle. -/
abbrev DbM (K D α : Type) := Cmd (World K D) (SchemeError K) α

/-- A procedure on the nodes, which leaves the handle alone. -/
def onNodes {α : Type} (m : RbM K D α) : DbM K D α := fun w =>
  ((m w.store).1, { w with store := (m w.store).2 })

/-- `(vector-set! db 0 root)`. -/
def setRoot (root : Link) : DbM K D Unit :=
  Cmd.modifyState (fun w => { w with db := { w.db with root := root } })

section Operations

variable [Zero K] [HasFalse D] [NumericKey K]

omit [Zero K] [HasFalse D] in
/-- `rb-db-check-key`: the key is compared with itself, which the comparator refuses
outside its domain. -/
def rbDbCheckKey (key : K) : DbM K D K := do
  let w ← Cmd.getState
  let _ ← Cmd.ofExcept (w.db.cmp.call key key)
  return key

omit [HasFalse D] in
/-- `rb-db-insert`: the numeric path for a handle with `rb-cmp-number`. -/
def rbDbInsert (key : K) (data : D) : DbM K D Unit := do
  let w ← Cmd.getState
  let _ ← rbDbCheckKey key
  setRoot (← onNodes (match w.db.cmp with
    | .rbCmpNumber => rbInsert w.db.root key data
    | .user cmp => rbInsertCmp w.db.root key data cmp))

/-- `rb-db-search`. -/
def rbDbSearch (key : K) : DbM K D D := do
  let w ← Cmd.getState
  let _ ← rbDbCheckKey key
  onNodes (match w.db.cmp with
    | .rbCmpNumber => rbSearch w.db.root key
    | .user cmp => rbSearchCmp w.db.root key cmp)

omit [HasFalse D] in
/-- `rb-db-contains?`. -/
def rbDbContains (key : K) : DbM K D Bool := do
  let w ← Cmd.getState
  let _ ← rbDbCheckKey key
  onNodes (match w.db.cmp with
    | .rbCmpNumber => rbContains w.db.root key
    | .user cmp => rbContainsCmp w.db.root key cmp)

/-- `rb-db-delete`. -/
def rbDbDelete (key : K) : DbM K D Unit := do
  let w ← Cmd.getState
  let _ ← rbDbCheckKey key
  setRoot (← onNodes (match w.db.cmp with
    | .rbCmpNumber => rbDelete w.db.root key
    | .user cmp => rbDeleteCmp w.db.root key cmp))

omit [Zero K] [HasFalse D] [NumericKey K] in
/-- `rb-db-delete-min`: no key is given, and none is checked. -/
def rbDbDeleteMin : DbM K D Unit := do
  let w ← Cmd.getState
  setRoot (← onNodes (rbDeleteMin w.db.root))

end Operations

/-- An operation on a handle. -/
inductive DbOp (K D : Type) where
  | insert (key : K) (data : D)
  | delete (key : K)
  | deleteMin
  | search (key : K)
  | contains (key : K)
  deriving DecidableEq, Repr

/-- What an operation returns: the handle, data or a boolean. -/
inductive Answer (D : Type) where
  | db
  | data (d : D)
  | bool (b : Bool)
  deriving DecidableEq, Repr

namespace DbOp

/-- The key an operation is given. -/
def key? : DbOp K D → Option K
  | insert key _ => some key
  | delete key => some key
  | deleteMin => none
  | search key => some key
  | contains key => some key

/-- The operation under its name. -/
def exec [Zero K] [HasFalse D] [NumericKey K] : DbOp K D → DbM K D (Answer D)
  | insert key data => do rbDbInsert key data; return .db
  | delete key => do rbDbDelete key; return .db
  | deleteMin => do rbDbDeleteMin; return .db
  | search key => do return .data (← rbDbSearch key)
  | contains key => do return .bool (← rbDbContains key)

end DbOp

/-- One operation after another, on what the last one left, whether it
returned or failed. -/
def runDb [Zero K] [HasFalse D] [NumericKey K] (ops : List (DbOp K D)) (w : World K D) :
    World K D :=
  ops.foldl (fun w op => (op.exec w).2) w

/-! ## Comparators -/

/-- **A comparator is a strict total order on a domain**: zero exactly for
identical keys, and an error exactly when a key is outside. -/
structure TotalOn (cmp : KeyCmp K) (Dom : K → Prop) : Prop where
  ok_iff : ∀ a b, (∃ c, cmp a b = .ok c) ↔ Dom a ∧ Dom b
  zero_iff : ∀ {a b}, Dom a → Dom b → (cmp a b = .ok 0 ↔ a = b)
  neg_iff_pos : ∀ {a b c c'}, cmp a b = .ok c → cmp b a = .ok c' → (c < 0 ↔ 0 < c')
  trans : ∀ {a b d c c' c''}, cmp a b = .ok c → cmp b d = .ok c' → cmp a d = .ok c'' →
    c < 0 → c' < 0 → c'' < 0

/-- The order a comparator decides. -/
def ordOf (cmp : KeyCmp K) (a b : K) : Ordering :=
  match cmp a b with
  | .ok c => compare c 0
  | .error _ => .eq

namespace TotalOn

variable {cmp : KeyCmp K} {Dom : K → Prop}

theorem exists_ok (h : TotalOn cmp Dom) {a b : K} (ha : Dom a) (hb : Dom b) :
    ∃ c, cmp a b = .ok c ∧ ordOf cmp a b = compare c 0 := by
  obtain ⟨c, hc⟩ := (h.ok_iff a b).mpr ⟨ha, hb⟩
  exact ⟨c, hc, by rw [ordOf, hc]⟩

theorem keyOrder (h : TotalOn cmp Dom) : KeyOrder (ordOf cmp) Dom where
  eq_iff {a b} ha hb := by
    obtain ⟨c, hc, ho⟩ := h.exists_ok ha hb
    rw [ho, compare_eq_iff_eq, ← h.zero_iff ha hb, hc, Except.ok.injEq]
  gt_iff {a b} ha hb := by
    obtain ⟨c, hc, ho⟩ := h.exists_ok ha hb
    obtain ⟨c', hc', ho'⟩ := h.exists_ok hb ha
    rw [ho, ho', compare_gt_iff_gt, compare_lt_iff_lt]
    exact (h.neg_iff_pos hc' hc).symm
  trans {a b d} ha hb hd hab hbd := by
    obtain ⟨c, hc, ho⟩ := h.exists_ok ha hb
    obtain ⟨c', hc', ho'⟩ := h.exists_ok hb hd
    obtain ⟨c'', hc'', ho''⟩ := h.exists_ok ha hd
    rw [ho, compare_lt_iff_lt] at hab
    rw [ho', compare_lt_iff_lt] at hbd
    rw [ho'', compare_lt_iff_lt]
    exact h.trans hc hc' hc'' hab hbd

theorem cmpTests_agrees (h : TotalOn cmp Dom) : (cmpTests cmp).Agrees (ordOf cmp) Dom := by
  have hcmp : ∀ {a b}, Dom a → Dom b → ∃ c, cmp a b = .ok c ∧
      (c < 0 ↔ ordOf cmp a b = .lt) ∧ (c > 0 ↔ ordOf cmp a b = .gt) ∧
      (c = 0 ↔ ordOf cmp a b = .eq) := fun ha hb => by
    obtain ⟨c, hc, ho⟩ := h.exists_ok ha hb
    exact ⟨c, hc, by rw [ho, compare_lt_iff_lt], by rw [ho, compare_gt_iff_gt],
      by rw [ho, compare_eq_iff_eq]⟩
  refine ⟨fun {a b} ha hb => ?_, fun {a b} ha hb => ?_, fun {a b} ha hb => ?_,
    fun {a b} ha hb => ?_⟩ <;>
    obtain ⟨c, hc, hlt, hgt, heq⟩ := hcmp ha hb <;>
    simp only [cmpTests, hc, bind, Except.bind, hlt, hgt, heq] <;>
    cases ordOf cmp a b <;> rfl

/-- Where the comparator is `rb-cmp-number`, the numeric tests decide the
same order. -/
theorem numericTests_agrees [NumericKey K] (h : TotalOn (rbCmpNumber : K → K → _) Dom) :
    (numericTests : KeyTests K).Agrees (ordOf rbCmpNumber) Dom := by
  refine RbTree.numericTests_agrees (fun {a b} ha hb => ?_)
  obtain ⟨c, hc, ho⟩ := h.exists_ok ha hb
  have hnum : (NumericKey.isNumber a && NumericKey.isNumber b) = true := by
    by_contra hn
    rw [rbCmpNumber, if_neg hn] at hc
    exact absurd hc (by simp [rbRejectKey])
  obtain ⟨hna, hnb⟩ := Bool.and_eq_true_iff.mp hnum
  obtain ⟨c', hc', ho'⟩ := h.exists_ok hb ha
  have hsym := h.keyOrder.gt_iff ha hb
  rw [rbCmpNumber, if_pos hnum] at hc
  rw [rbCmpNumber, if_pos (by rw [hna, hnb]; rfl)] at hc'
  have hlt : ∀ {x y : K} {c : ℤ}, (if NumericKey.lt x y then Except.ok (-1)
      else if NumericKey.lt y x then .ok 1 else .ok 0 : Except (SchemeError K) ℤ) = .ok c →
      (NumericKey.lt x y = true ↔ c < 0) := fun {x y c} hx => by
    split at hx
    · rename_i hl
      exact ⟨fun _ => by cases hx; decide, fun _ => hl⟩
    · rename_i hl
      refine ⟨fun h => absurd h hl, fun h => ?_⟩
      split at hx <;> cases hx <;> exact absurd h (by decide)
  refine ⟨hna, hnb, ?_, ?_⟩
  · rw [hlt hc, ho, compare_lt_iff_lt]
  · rw [hlt hc', hsym, ho', compare_lt_iff_lt]

end TotalOn

/-! ## The two paths on integers -/

/-- The tests of the numeric path are those made with `rb-cmp-number`. -/
theorem cmpTests_rbCmpNumber : cmpTests (rbCmpNumber : ℤ → ℤ → _) = numericTests := by
  have hcmp : ∀ a b : ℤ, rbCmpNumber a b =
      .ok (if a < b then -1 else if b < a then 1 else 0) := by
    intro a b
    simp only [rbCmpNumber, NumericKey.isNumber, NumericKey.lt, Bool.and_self, if_true,
      decide_eq_true_eq]
    split
    · rfl
    · split <;> rfl
  have hlt : ∀ a b : ℤ, numLt a b = .ok (decide (a < b)) := fun _ _ => rfl
  have hgt : ∀ a b : ℤ, numGt a b = .ok (decide (b < a)) := fun _ _ => rfl
  have heq : ∀ a b : ℤ, numEq a b = .ok (decide (a = b)) := fun _ _ => rfl
  unfold cmpTests numericTests
  congr 1 <;> funext a b <;> simp only [hcmp, hlt, hgt, heq, bind, Except.bind, pure, Except.pure] <;>
    rcases lt_trichotomy a b with h | rfl | h
  all_goals simp [*, not_lt_of_gt, ne_of_lt, ne_of_gt]

/-- **The two paths agree** on integer keys: from every heap the procedures of
the numeric path leave the same nodes, and answer the same, as those that are
given `rb-cmp-number`. -/
theorem numericPath_eq_cmpPath [HasFalse D] (node : Link) (key : ℤ) (data : D) :
    rbInsert node key data = rbInsertCmp node key data rbCmpNumber ∧
      (rbDelete node key : RbM ℤ D Link) = rbDeleteCmp node key rbCmpNumber ∧
      (rbSearch node key : RbM ℤ D D) = rbSearchCmp node key rbCmpNumber ∧
      (rbContains node key : RbM ℤ D Bool) = rbContainsCmp node key rbCmpNumber := by
  refine ⟨?_, ?_, ?_, ?_⟩
  · rw [rbInsert_eq, rbInsertCmp_eq, cmpTests_rbCmpNumber]
  · rw [rbDelete_eq, rbDeleteCmp_eq, cmpTests_rbCmpNumber]
  · rw [rbSearch_eq, rbSearchCmp_eq, cmpTests_rbCmpNumber]
  · rw [rbContains_eq, rbContainsCmp_eq, cmpTests_rbCmpNumber]

/-! ## What the operations do -/

section Specification

variable [DecidableEq K]

/-- The keys an operation is given are in the domain. -/
def DbOp.InDom (Dom : K → Prop) (op : DbOp K D) : Prop := ∀ k ∈ op.key?, Dom k

open Classical in
/-- What an operation does to the finite map: nothing, when its key is
outside the domain. -/
noncomputable def DbOp.onMap (ord : K → K → Ordering) (Dom : K → Prop) (op : DbOp K D)
    (m : K → Option D) : K → Option D :=
  if op.InDom Dom then
    match op with
    | .insert key data => OrderedMap.insert m key data
    | .delete key => OrderedMap.erase m key
    | .deleteMin => removeLeast ord m
    | .search _ => m
    | .contains _ => m
  else m

/-- The finite map a sequence of operations makes from the empty one. -/
noncomputable def dbMapAfter (ord : K → K → Ordering) (Dom : K → Prop) (ops : List (DbOp K D)) :
    K → Option D :=
  ops.foldl (fun m op => op.onMap ord Dom m) (fun _ => none)

omit [DecidableEq K] in
/-- What an operation answers when its key is in the domain. -/
def DbOp.answer [HasFalse D] (m : K → Option D) : DbOp K D → Answer D
  | .insert _ _ => .db
  | .delete _ => .db
  | .deleteMin => .db
  | .search key => .data ((m key).getD HasFalse.ff)
  | .contains key => .bool (m key).isSome

end Specification

/-- **A handle holds a map**: its comparator is the one it was made with and
its root holds the map. -/
structure DbAt [NumericKey K] (w : World K D) (cmp : Comparator K) (Dom : K → Prop)
    (t : Tree K (ℕ × D)) (m : K → Option D) : Prop where
  cmp_eq : w.db.cmp = cmp
  tree : TreeAt w.store w.db.root (ordOf cmp.call) Dom t m

section Runs

variable [Zero K] [HasFalse D] [NumericKey K] {w : World K D} {cmp : Comparator K}
  {Dom : K → Prop} {t : Tree K (ℕ × D)} {m : K → Option D}

omit [Zero K] [HasFalse D] [NumericKey K] in
theorem onNodes_run {α : Type} {p : RbM K D α} {v : α} {s : Store K D}
    (h : p w.store = (.ok v, s)) : onNodes p w = (.ok v, { w with store := s }) := by
  rw [onNodes, h]

omit [Zero K] [HasFalse D] in
theorem rbDbCheckKey_run_error (hw : w.db.cmp = cmp) {key : K} {e : SchemeError K}
    (h : cmp.call key key = .error e) : rbDbCheckKey key w = (.error e, w) := by
  subst hw
  rw [rbDbCheckKey, Cmd.bind_run_ok (Cmd.getState_run w), h]
  rfl

omit [Zero K] [HasFalse D] in
theorem rbDbCheckKey_run (hw : w.db.cmp = cmp) {key : K} {c : ℤ}
    (h : cmp.call key key = .ok c) : rbDbCheckKey key w = (.ok key, w) := by
  subst hw
  rw [rbDbCheckKey, Cmd.bind_run_ok (Cmd.getState_run w), h]
  rfl

/-- **A key the comparator refuses is an error that changes nothing.** -/
theorem DbOp.exec_refused (hw : w.db.cmp = cmp) {op : DbOp K D} {key : K} {e : SchemeError K}
    (hkey : op.key? = some key) (h : cmp.call key key = .error e) :
    op.exec w = (.error e, w) := by
  have hcheck := rbDbCheckKey_run_error hw h
  cases op with
  | insert k d =>
    cases hkey
    rw [exec, rbDbInsert]
    exact Cmd.bind_run_error (Cmd.bind_run_error hcheck _) _
  | delete k =>
    cases hkey
    rw [exec, rbDbDelete]
    exact Cmd.bind_run_error (Cmd.bind_run_error hcheck _) _
  | deleteMin => exact absurd hkey (by simp [key?])
  | search k =>
    cases hkey
    rw [exec, rbDbSearch]
    exact Cmd.bind_run_error (Cmd.bind_run_error hcheck _) _
  | contains k =>
    cases hkey
    rw [exec, rbDbContains]
    exact Cmd.bind_run_error (Cmd.bind_run_error hcheck _) _

/-- The tests that go with a comparator. -/
def Comparator.tests : Comparator K → KeyTests K
  | .rbCmpNumber => numericTests
  | .user cmp => cmpTests cmp

omit [Zero K] in
theorem Comparator.tests_agrees (h : TotalOn cmp.call Dom) :
    cmp.tests.Agrees (ordOf cmp.call) Dom := by
  cases cmp with
  | rbCmpNumber => exact TotalOn.numericTests_agrees h
  | user f => exact h.cmpTests_agrees

/-- **An operation with a key of the domain** answers as the map does and
updates the tree as it updates the map, within the nodes of the tree and new
ones. -/
theorem DbOp.exec_ok [DecidableEq K] (hc : TotalOn cmp.call Dom) (h : DbAt w cmp Dom t m)
    {op : DbOp K D} (hop : op.InDom Dom) :
    ∃ w' t', op.exec w = (.ok (op.answer m), w') ∧
      DbAt w' cmp Dom t' (op.onMap (ordOf cmp.call) Dom m) ∧
      Evolves w.store t w'.store t' := by
  have hcmp := h.cmp_eq
  have ho := hc.keyOrder
  have ha := Comparator.tests_agrees hc
  have hcheck : ∀ {k}, k ∈ op.key? → Dom k ∧
      (rbDbCheckKey k : DbM K D K) w = (.ok k, w) := fun {k} hk => by
    obtain ⟨c, hcall⟩ := (hc.ok_iff k k).mpr ⟨hop k hk, hop k hk⟩
    exact ⟨hop k hk, rbDbCheckKey_run hcmp hcall⟩
  rw [DbOp.onMap.eq_def, if_pos hop]
  cases op with
  | insert k d =>
    obtain ⟨hk, hrun⟩ := hcheck rfl
    obtain ⟨s', t', hins, ht', hev⟩ := h.tree.insert ho ha hk d
    have hm : (match w.db.cmp with
        | .rbCmpNumber => rbInsert w.db.root k d
        | .user f => rbInsertCmp w.db.root k d f) = insertWith cmp.tests w.db.root k d := by
      rw [hcmp]
      cases cmp with
      | rbCmpNumber => exact rbInsert_eq _ _ _
      | user f => exact rbInsertCmp_eq _ _ _
    have hop' : rbDbInsert k d w = (.ok (), ⟨⟨link t', w.db.cmp⟩, s'⟩) := by
      refine (Cmd.bind_run_ok hrun _).trans ?_
      rw [hm]
      exact Cmd.bind_run_ok (onNodes_run hins) _
    exact ⟨_, t', Cmd.bind_run_ok hop' _, ⟨hcmp, ht'⟩, hev⟩
  | delete k =>
    obtain ⟨hk, hrun⟩ := hcheck rfl
    obtain ⟨s', t', hdel, ht', hev⟩ := h.tree.delete ho ha hk
    have hm : (match w.db.cmp with
        | .rbCmpNumber => rbDelete w.db.root k
        | .user f => rbDeleteCmp w.db.root k f : RbM K D Link) = deleteWith cmp.tests w.db.root k := by
      rw [hcmp]
      cases cmp with
      | rbCmpNumber => exact rbDelete_eq _ _
      | user f => exact rbDeleteCmp_eq _ _
    have hop' : (rbDbDelete k : DbM K D Unit) w = (.ok (), ⟨⟨link t', w.db.cmp⟩, s'⟩) := by
      refine (Cmd.bind_run_ok hrun _).trans ?_
      rw [hm]
      exact Cmd.bind_run_ok (onNodes_run hdel) _
    exact ⟨_, t', Cmd.bind_run_ok hop' _, ⟨hcmp, ht'⟩, hev⟩
  | deleteMin =>
    obtain ⟨s', t', hdel, ht', hev⟩ := h.tree.deleteMin ho
    have hop' : (rbDbDeleteMin : DbM K D Unit) w = (.ok (), ⟨⟨link t', w.db.cmp⟩, s'⟩) :=
      Cmd.bind_run_ok (onNodes_run hdel) _
    exact ⟨_, t', Cmd.bind_run_ok hop' _, ⟨hcmp, ht'⟩, hev⟩
  | search k =>
    obtain ⟨hk, hrun⟩ := hcheck rfl
    have hm : (match w.db.cmp with
        | .rbCmpNumber => rbSearch w.db.root k
        | .user f => rbSearchCmp w.db.root k f : RbM K D D) =
        (do searchWith cmp.tests (← depthBound) w.db.root k) := by
      rw [hcmp]
      cases cmp with
      | rbCmpNumber => exact rbSearch_eq _ _
      | user f => exact rbSearchCmp_eq _ _
    have hop' : (rbDbSearch k : DbM K D D) w = (.ok ((m k).getD HasFalse.ff), w) := by
      refine (Cmd.bind_run_ok hrun _).trans ?_
      rw [hm]
      exact onNodes_run (h.tree.search ho ha hk)
    exact ⟨w, t, Cmd.bind_run_ok hop' _, h, .refl w.store t⟩
  | contains k =>
    obtain ⟨hk, hrun⟩ := hcheck rfl
    have hm : (match w.db.cmp with
        | .rbCmpNumber => rbContains w.db.root k
        | .user f => rbContainsCmp w.db.root k f : RbM K D Bool) =
        (do containsWith cmp.tests (← depthBound) w.db.root k) := by
      rw [hcmp]
      cases cmp with
      | rbCmpNumber => exact rbContains_eq _ _
      | user f => exact rbContainsCmp_eq _ _
    have hop' : (rbDbContains k : DbM K D Bool) w = (.ok (m k).isSome, w) := by
      refine (Cmd.bind_run_ok hrun _).trans ?_
      rw [hm]
      exact onNodes_run (h.tree.contains ho ha hk)
    exact ⟨w, t, Cmd.bind_run_ok hop' _, h, .refl w.store t⟩

/-- An operation with a key outside the domain fails and changes nothing. -/
theorem DbOp.exec_foreign (hc : TotalOn cmp.call Dom) (hw : w.db.cmp = cmp)
    {op : DbOp K D} (hop : ¬ op.InDom Dom) : ∃ e, op.exec w = (.error e, w) := by
  simp only [InDom, not_forall] at hop
  obtain ⟨k, hk, hdom⟩ := hop
  cases hcall : cmp.call k k with
  | ok c => exact absurd ((hc.ok_iff k k).mp ⟨c, hcall⟩).1 hdom
  | error e => exact ⟨e, exec_refused hw hk hcall⟩

/-- **Each operation keeps the invariant.** -/
theorem DbAt.exec [DecidableEq K] (hc : TotalOn cmp.call Dom) (h : DbAt w cmp Dom t m)
    (op : DbOp K D) :
    ∃ t', DbAt (op.exec w).2 cmp Dom t' (op.onMap (ordOf cmp.call) Dom m) := by
  by_cases hop : op.InDom Dom
  · obtain ⟨w', t', hrun, h', -⟩ := DbOp.exec_ok hc h hop
    exact ⟨t', by rw [hrun]; exact h'⟩
  · obtain ⟨e, hrun⟩ := DbOp.exec_foreign hc h.cmp_eq hop
    rw [hrun, DbOp.onMap.eq_def, if_neg hop]
    exact ⟨t, h⟩

/-- **And so does a run.** -/
theorem DbAt.runDb [DecidableEq K] (hc : TotalOn cmp.call Dom) (h : DbAt w cmp Dom t m)
    (ops : List (DbOp K D)) :
    ∃ t', DbAt (RbTree.runDb ops w) cmp Dom t'
      (ops.foldl (fun m op => op.onMap (ordOf cmp.call) Dom m) m) := by
  induction ops generalizing w t m with
  | nil => exact ⟨t, h⟩
  | cons op ops ih =>
    obtain ⟨t₁, h₁⟩ := h.exec hc op
    exact ih h₁

/-- **A handle is an ordered map, and a foreign key leaves it alone.** For a
comparator that is a strict total order on a domain, after any sequence of
operations on a new handle, each of which may have been given a key outside
the domain: the root is the link to a stored left-leaning red-black tree with
strictly increasing keys that holds the pairs of the finite map; the next
operation, when its key is in the domain, answers as the map does; and when
it is outside, it fails and leaves the handle and every node as they were. -/
theorem runDb_orderedMap [DecidableEq K] (cmp : Comparator K) (Dom : K → Prop)
    (hc : TotalOn cmp.call Dom) (s : Store K D) (ops : List (DbOp K D)) :
    (∃ t, (RbTree.runDb ops ⟨rbNewWith cmp, s⟩).db.root = link t ∧
      Owned (RbTree.runDb ops ⟨rbNewWith cmp, s⟩).store t ∧ RedBlack (erase t) ∧
      StrictlySorted (ordOf cmp.call) (erase t).toList ∧
      ∀ k d, (k, d) ∈ (erase t).toList ↔ dbMapAfter (ordOf cmp.call) Dom ops k = some d) ∧
    ∀ op : DbOp K D,
      (op.InDom Dom → ∃ w', op.exec (RbTree.runDb ops ⟨rbNewWith cmp, s⟩) =
        (.ok (op.answer (dbMapAfter (ordOf cmp.call) Dom ops)), w')) ∧
      (¬ op.InDom Dom → ∃ e, op.exec (RbTree.runDb ops ⟨rbNewWith cmp, s⟩) =
        (.error e, RbTree.runDb ops ⟨rbNewWith cmp, s⟩)) := by
  have hnew : DbAt (⟨rbNewWith cmp, s⟩ : World K D) cmp Dom nil (fun _ => none) :=
    ⟨rfl, treeAt_nil s⟩
  obtain ⟨t, h⟩ := hnew.runDb hc ops
  obtain ⟨n, hb⟩ := h.tree.balanced
  refine ⟨⟨t, h.tree.link_eq, h.tree.owned, hb.redBlack, h.tree.represents.sorted,
    h.tree.represents.mem_iff⟩, fun op => ⟨fun hop => ?_, DbOp.exec_foreign hc h.cmp_eq⟩⟩
  obtain ⟨w', -, hrun, -⟩ := DbOp.exec_ok hc h hop
  exact ⟨w', hrun⟩

end Runs

/-- A caller's comparator: the natural numbers among the integers, in
descending order. -/
def cmpDescending (a b : ℤ) : Except (SchemeError ℤ) ℤ :=
  if 0 ≤ a ∧ 0 ≤ b then .ok (b - a) else rbRejectKey "cmp-descending" a b

theorem cmpDescending_eq_ok {a b c : ℤ} :
    cmpDescending a b = .ok c ↔ (0 ≤ a ∧ 0 ≤ b) ∧ b - a = c := by
  unfold cmpDescending
  split
  · rename_i h
    simp [h]
  · rename_i h
    simp [h, rbRejectKey]

theorem cmpDescending_totalOn : TotalOn cmpDescending (fun a => 0 ≤ a) where
  ok_iff a b := by simp [cmpDescending_eq_ok]
  zero_iff ha hb := by
    rw [cmpDescending_eq_ok]
    omega
  neg_iff_pos h h' := by
    rw [cmpDescending_eq_ok] at h h'
    omega
  trans h h' h'' := by
    rw [cmpDescending_eq_ok] at h h' h''
    omega

/-- A negative key is refused by a handle that orders the natural numbers,
here one with a single entry. -/
theorem runDb_orderedMap_descending :
    ∃ e, (DbOp.delete (-1) : DbOp ℤ (Option ℤ)).exec
        (runDb [.insert 5 (some 7)] ⟨rbNewWith (.user cmpDescending), ⟨[], []⟩⟩) =
      (.error e, runDb [.insert 5 (some 7)] ⟨rbNewWith (.user cmpDescending), ⟨[], []⟩⟩) :=
  ((runDb_orderedMap (.user cmpDescending) (fun a => 0 ≤ a) cmpDescending_totalOn ⟨[], []⟩
    [.insert 5 (some 7)]).2 (.delete (-1))).2 (fun h => absurd (h (-1) rfl) (by decide))

end RbTree
