import SecdScheme.RbCal.Api
import SecdScheme.RbCal.Trees
import Mathlib.Data.List.Chain

/-!
# rbtree4.cal: the validator

`rb_validate` walks a tree twice, once for the colours, the sizes and the
black heights, once for the order of the keys, counts the violations in
`rbv_err` and displays each of them. On a tree with right sizes that is
balanced and whose keys ascend it finds none.
-/

namespace RbCal

open Llrb Llrb.Tree

variable {K V : Type}

/-- The nodes, what was displayed, and the globals of the validator:
`rbv_err`, and `rbv_prev` once `rbv_started` is set. -/
structure Check (K V : Type) where
  heap : Heap K V
  out : List String
  err : ℕ
  prev : Option K

/-- A part of the validator. -/
abbrev CheckM (K V α : Type) := Cmd (Check K V) CalError α

/-- A function on nodes. -/
def onNodes {α : Type} (m : CalM K V α) : CheckM K V α := fun c =>
  ((m c.heap).1, { c with heap := (m c.heap).2 })

section Code

variable (print : K → String)

/-- `rbi_vfail`: a violation is counted and displayed, and the check goes on. -/
def rbiVfail (msg : String) (k : K) : CheckM K V Unit :=
  Cmd.modifyState (fun c => { c with
    err := c.err + 1
    out := c.out ++ ["  RB-VIOLATION: " ++ msg ++ " at key " ++ print k] })

/-- A violation at a node, where a test on the nodes finds one. -/
def violation (test : CalM K V Bool) (msg : String) (h : Link) : CheckM K V Unit := do
  if (← onNodes test) then rbiVfail print msg (← onNodes (key h))

/-- The black height; that of an empty link is `0`. -/
def rbiCheckBh : ℕ → Link → CheckM K V ℕ
  | 0, _ => Cmd.fail .tooDeep
  | fuel + 1, h => do
    if !vector h then return 0
    violation print (do isColor .red (← right h)) "right-leaning red link" h
    violation print (andM (do return (← color h) == .red) (do isColor .red (← left h)))
      "red node with red left child" h
    violation print (andM (do return (← color h) == .red) (do isColor .red (← right h)))
      "red node with red right child" h
    violation print
      (do return (← size h) != (← rbiSize (← left h)) + (← rbiSize (← right h)) + 1)
      "size field inconsistent" h
    let lh ← rbiCheckBh fuel (← onNodes (left h))
    let rh ← rbiCheckBh fuel (← onNodes (right h))
    violation print (return lh != rh) "black height mismatch" h
    return if (← onNodes (color h)) = .black then lh + 1 else lh

/-- `rbi_check_order`: the walk in order, with the key before each node. -/
def rbiCheckOrder (cmp : Comparator K) : ℕ → Link → CheckM K V Unit
  | 0, _ => Cmd.fail .tooDeep
  | fuel + 1, h => do
    if vector h then
      rbiCheckOrder cmp fuel (← onNodes (left h))
      let k ← onNodes (key h)
      match (← Cmd.getState).prev with
      | none => pure ()
      | some p => violation print (do return (← compareKeys cmp p k) ≥ 0) "BST order violated" h
      Cmd.modifyState (fun c => { c with prev := some k })
      rbiCheckOrder cmp fuel (← onNodes (right h))

/-- `1` if there is no violation, else `0`. -/
def rbValidate (db : ℕ) : ApiM K V ℤ := do
  let d ← handleAt db
  let fuel ← depthBound
  let check : CheckM K V ℤ := do
    violation print (andM (return vector d.root) (do return (← color d.root) == .red))
      "root is red" d.root
    let _ ← rbiCheckBh print fuel d.root
    rbiCheckOrder print d.cmp fuel d.root
    return if (← Cmd.getState).err = 0 then 1 else 0
  fun w =>
    let (r, c) := check ⟨w.heap, w.out, 0, none⟩
    (r, { w with heap := c.heap, out := c.out })

end Code

/-! ## A sound tree is validated -/

section Sound

variable {print : K → String} {c : Check K V} {h : Link} {t : Tree K V} {A : Set ℕ}

theorem onNodes_run {α : Type} {m : CalM K V α} {x : α} (hm : m c.heap = (.ok x, c.heap)) :
    onNodes m c = (.ok x, c) := by
  rw [onNodes, hm]

theorem violation_run {test : CalM K V Bool} (msg : String) (h : Link)
    (hm : test c.heap = (.ok false, c.heap)) : violation print test msg h c = (.ok (), c) := by
  rw [violation, Cmd.bind_run_ok (onNodes_run hm)]
  rfl

/-- `a and b` of two tests that read. -/
theorem andM_run {s : Heap K V} {a b : CalM K V Bool} {x y : Bool} (ha : a s = (.ok x, s))
    (hb : b s = (.ok y, s)) : andM a b s = (.ok (x && y), s) := by
  rw [andM, Cmd.bind_run_ok ha]
  cases x with
  | true => exact hb
  | false => rfl

/-- The walk at a node whose children are in order. -/
theorem rbiCheckBh_node {a : ℕ} {hl hr : Link} {col : Color} {k : K} {d : V} {l r : Tree K V}
    {B C : Set ℕ} {n fuel : ℕ}
    (hget : c.heap.get a = some ⟨hl, hr, col, k, d, ((node col l k d r).size : ℤ)⟩)
    (hl₀ : c.heap.Own hl l B) (hr₀ : c.heap.Own hr r C) (hred : r.isRed = false)
    (hll : col = .red → l.isRed = false) (hbl : rbiCheckBh print fuel hl c = (.ok n, c))
    (hbr : rbiCheckBh print fuel hr c = (.ok n, c)) :
    rbiCheckBh print (fuel + 1) (some a) c = (.ok (if col = .black then n + 1 else n), c) := by
  have hcol : (do return (← color (some a)) == .red : CalM K V Bool) c.heap
      = (.ok (col == .red), c.heap) := by
    rw [Cmd.bind_run_ok (color_run hget)]
    rfl
  have hleft : (do isColor .red (← left (some a)) : CalM K V Bool) c.heap
      = (.ok l.isRed, c.heap) := by
    rw [Cmd.bind_run_ok (left_run hget), isColor_run .red hl₀]
    cases l.isRed <;> rfl
  have hright : (do isColor .red (← right (some a)) : CalM K V Bool) c.heap
      = (.ok false, c.heap) := by
    rw [Cmd.bind_run_ok (right_run hget), isColor_run .red hr₀, hred]
    rfl
  have hsize : (do return (← size (some a)) != (← rbiSize (← left (some a)))
      + (← rbiSize (← right (some a))) + 1 : CalM K V Bool) c.heap = (.ok false, c.heap) := by
    rw [Cmd.bind_run_ok (size_run hget), Cmd.bind_run_ok (left_run hget),
      Cmd.bind_run_ok (rbiSize_run hl₀), Cmd.bind_run_ok (right_run hget),
      Cmd.bind_run_ok (rbiSize_run hr₀)]
    simp [Llrb.Tree.size]
  rw [rbiCheckBh, if_neg (by simp [vector]),
    Cmd.bind_run_ok (violation_run _ _ hright),
    Cmd.bind_run_ok (violation_run _ _ ((andM_run hcol hleft).trans _)),
    Cmd.bind_run_ok (violation_run _ _ ((andM_run hcol hright).trans (by rw [Bool.and_false]))),
    Cmd.bind_run_ok (violation_run _ _ hsize),
    Cmd.bind_run_ok (onNodes_run (left_run hget)), Cmd.bind_run_ok hbl,
    Cmd.bind_run_ok (onNodes_run (right_run hget)), Cmd.bind_run_ok hbr,
    Cmd.bind_run_ok (violation_run _ _ (by rw [bne_self_eq_false]; rfl)),
    Cmd.bind_run_ok (onNodes_run (color_run hget))]
  · rfl
  · cases col with
    | red => rw [hll rfl]; rfl
    | black => rfl

/-- **The colours, sizes and black heights of a balanced tree** have no
violation. -/
theorem rbiCheckBh_run {col : Color} {n fuel : ℕ} (hb : Balanced t col n)
    (ht : c.heap.Own h t A) (hf : t.size < fuel) :
    rbiCheckBh print fuel h c = (.ok n, c) := by
  induction hb generalizing h A fuel with
  | nil =>
    obtain ⟨fuel, rfl⟩ := Nat.exists_eq_succ_of_ne_zero (Nat.ne_zero_of_lt hf)
    rw [ht.eq_none]
    rfl
  | @black l r k d cl n hl hr ihl ihr =>
    obtain ⟨fuel, rfl⟩ := Nat.exists_eq_succ_of_ne_zero (Nat.ne_zero_of_lt hf)
    rw [Llrb.Tree.size] at hf
    cases ht with
    | node hget _ hl₀ hr₀ =>
      exact rbiCheckBh_node hget hl₀ hr₀ hr.isRed_black (fun hred => by cases hred)
        (ihl hl₀ (by omega)) (ihr hr₀ (by omega))
  | @red l r k d n hl hr ihl ihr =>
    obtain ⟨fuel, rfl⟩ := Nat.exists_eq_succ_of_ne_zero (Nat.ne_zero_of_lt hf)
    rw [Llrb.Tree.size] at hf
    cases ht with
    | node hget _ hl₀ hr₀ =>
      exact rbiCheckBh_node hget hl₀ hr₀ hr.isRed_black (fun _ => hl.isRed_black)
        (ihl hl₀ (by omega)) (ihr hr₀ (by omega))

/-- The keys of a tree, in order. -/
def keysOf (t : Tree K V) : List K := t.toList.map Prod.fst

theorem keysOf_node (col : Color) (l : Tree K V) (k : K) (d : V) (r : Tree K V) :
    keysOf (node col l k d r) = keysOf l ++ k :: keysOf r := by
  simp [keysOf, toList]

/-- **One key comes before another**: the comparison of the two is negative. -/
def Before (cmp : Comparator K) (a b : K) : Prop :=
  ∃ f z, cmp = some f ∧ f a b = .ok z ∧ z < 0

/-- A comparison that says so. -/
theorem compareKeys_of_before {cmp : Comparator K} {a b : K} (h : Before cmp a b)
    (s : Heap K V) : ∃ z, compareKeys cmp a b s = (.ok z, s) ∧ z < 0 := by
  obtain ⟨f, z, rfl, hz, hneg⟩ := h
  refine ⟨z, ?_, hneg⟩
  show Cmd.ofExcept (f a b) s = _
  rw [hz]
  rfl

/-- **The walk along ascending keys** finds no violation and ends at the last
one. -/
theorem rbiCheckOrder_run {cmp : Comparator K} {fuel : ℕ} (ht : c.heap.Own h t A)
    (hf : t.size < fuel) (hs : (c.prev.toList ++ keysOf t).IsChain (Before cmp)) :
    rbiCheckOrder print cmp fuel h c
      = (.ok (), { c with prev := (c.prev.toList ++ keysOf t).getLast? }) := by
  induction t generalizing h A fuel c with
  | nil =>
    obtain ⟨fuel, rfl⟩ := Nat.exists_eq_succ_of_ne_zero (Nat.ne_zero_of_lt hf)
    obtain ⟨heap, out, err, prev⟩ := c
    rw [ht.eq_none]
    cases prev <;> rfl
  | node col l k d r ihl ihr =>
    obtain ⟨fuel, rfl⟩ := Nat.exists_eq_succ_of_ne_zero (Nat.ne_zero_of_lt hf)
    rw [Llrb.Tree.size] at hf
    rw [keysOf_node, ← List.append_assoc, List.isChain_append] at hs
    obtain ⟨hbefore, hafter, hmid⟩ := hs
    cases ht with
    | @node _ a hl hr _ _ _ _ _ _ B C hget _ hl₀ hr₀ =>
      have htest : ∀ p, (c.prev.toList ++ keysOf l).getLast? = some p →
          (do return (← compareKeys cmp p k) ≥ 0 : CalM K V Bool) c.heap
            = (.ok false, c.heap) := by
        intro p hp
        obtain ⟨z, hz, hneg⟩ := compareKeys_of_before (hmid p hp k rfl) c.heap
        rw [Cmd.bind_run_ok hz]
        show (Except.ok (decide (z ≥ 0)), c.heap) = _
        rw [decide_eq_false (not_le.mpr hneg)]
      rw [rbiCheckOrder, if_pos (show vector (some a) = true from rfl), Cmd.bind_run_ok (onNodes_run (left_run hget)),
        Cmd.bind_run_ok (ihl hl₀ (by omega) hbefore),
        Cmd.bind_run_ok (onNodes_run
          (c := { c with prev := (c.prev.toList ++ keysOf l).getLast? }) (key_run hget)),
        Cmd.bind_run_ok (Cmd.getState_run _)]
      have hrest : ∀ c' : Check K V, c' = { c with prev := some k } →
          (onNodes (right (some a)) >>= rbiCheckOrder print cmp fuel) c'
            = (.ok (), { c with prev := (c.prev.toList ++ keysOf (node col l k d r)).getLast? }) := by
        rintro _ rfl
        rw [Cmd.bind_run_ok (onNodes_run (c := { c with prev := some k }) (right_run hget)),
          ihr (c := { c with prev := some k }) hr₀ (by omega) hafter, keysOf_node,
          ← List.append_assoc, List.getLast?_append_cons]
        rfl
      cases hlast : (c.prev.toList ++ keysOf l).getLast? with
      | none => exact hrest _ rfl
      | some p =>
        refine (Cmd.bind_run_ok (violation_run (c := { c with prev := some p }) _ _ (htest p hlast))
          _).trans ?_
        exact hrest _ rfl

/-- **The validator accepts a balanced tree with ascending keys.** -/
theorem rbValidate_run {w : World K V} {db n : ℕ} {d : Handle K}
    (hd : w.handles[db]? = some d) (ht : w.heap.Own d.root t A) (hb : Balanced t .black n)
    (hs : (keysOf t).IsChain (Before d.cmp)) : rbValidate print db w = (.ok 1, w) := by
  obtain ⟨root, cmp, mode⟩ := d
  replace ht : w.heap.Own root t A := ht
  have hroot : (andM (return vector root) (do return (← color root) == .red) :
      CalM K V Bool) w.heap = (.ok false, w.heap) := by
    cases hb with
    | nil =>
      rw [ht.eq_none]
      rfl
    | black hl hr =>
      cases ht with
      | node hget =>
        refine andM_run (x := true) rfl ?_
        rw [Cmd.bind_run_ok (color_run hget)]
        rfl
  have hfuel : t.size < w.heap.nodes.length + 1 := Nat.lt_succ_of_le ht.size_le
  have hdb : handleAt db w = (.ok ⟨root, cmp, mode⟩, w) := by rw [handleAt, hd]
  let c : Check K V := ⟨w.heap, w.out, 0, none⟩
  have hbh : rbiCheckBh print (w.heap.nodes.length + 1) root c = (.ok n, c) :=
    rbiCheckBh_run hb ht hfuel
  have horder : rbiCheckOrder print cmp (w.heap.nodes.length + 1) root c
      = (.ok (), { c with prev := (c.prev.toList ++ keysOf t).getLast? }) :=
    rbiCheckOrder_run ht hfuel hs
  have hdepth : depthBound w = (.ok (w.heap.nodes.length + 1), w) := rfl
  rw [rbValidate, Cmd.bind_run_ok hdb]
  refine (Cmd.bind_run_ok hdepth _).trans ?_
  dsimp only
  rw [Cmd.bind_run_ok (violation_run (c := c) _ _ hroot), Cmd.bind_run_ok hbh,
    Cmd.bind_run_ok horder]
  rfl

end Sound

end RbCal
