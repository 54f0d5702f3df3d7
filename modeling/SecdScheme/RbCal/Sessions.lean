import SecdScheme.RbCal.Api
import SecdScheme.RbCal.Updates

/-!
# rbtree4.cal: public updates once they are allowed

When the guards have let an update through, the rest of it works on one
handle inside one region. `Session` is a world reached in such an update: the
nodes respect the region, and the handles are those of the start but for the
root of the one handle, which leads to readable nodes.
-/

namespace RbCal

open Cmd (Follows Reads)
open Region Region.Reached

variable {K V : Type}

/-- **A world reached in an update of one handle.** -/
structure Session (z : Region K V) (handles : List (Handle K)) (db : ℕ) (d : Handle K) where
  world : World K V
  respects : z.Respects world.heap
  root : Link
  root_in : world.heap.Within z.readable root
  handles_eq : world.handles = handles.set db { d with root := root }
  db_lt : db < handles.length

namespace Session

variable {z : Region K V} {handles : List (Handle K)} {db : ℕ} {d : Handle K}
  {g g' : Session z handles db d} {α : Type} {h : Link}

/-- The nodes of a session. -/
def reached (g : Session z handles db d) : z.Reached := ⟨g.world.heap, g.respects⟩

instance : Preorder (Session z handles db d) where
  le g g' := g.reached ≤ g'.reached
  le_refl g := le_refl g.reached
  le_trans _ _ _ h h' := Nat.le_trans h h'

/-- The public function stays in the session. -/
abbrev Keeps (g : Session z handles db d) (m : ApiM K V α)
    (B : α → Session z handles db d → Prop) : Prop :=
  Follows Session.world g m B

/-- The handle the session is about. -/
theorem handle (g : Session z handles db d) :
    g.world.handles[db]? = some { d with root := g.root } := by
  rw [g.handles_eq, List.getElem?_set_self g.db_lt]

theorem reads_handleAt : Reads (handleAt db : ApiM K V _) := by
  intro w
  rw [handleAt]
  split <;> rfl

theorem reads_depthBound : Reads (depthBound : ApiM K V _) := fun _ => rfl

theorem reads_onHeap {m : CalM K V α} (hm : Reads m) : Reads (onHeap m) := by
  intro w
  show { w with heap := (m w.heap).2 } = w
  rw [hm w.heap]

/-! ### Public functions that read -/

section Readers

variable {k lo hi : K} {default : V} {i : ℤ}

theorem reads_rbSize : Reads (rbSize db : ApiM K V ℤ) :=
  reads_handleAt.bind fun _ => reads_onHeap reads_rbiSize

theorem reads_rbIsEmpty : Reads (rbIsEmpty db : ApiM K V Bool) :=
  reads_handleAt.bind fun _ => .pure

theorem reads_rbSearchNode : Reads (rbSearchNode db k : ApiM K V Link) :=
  reads_handleAt.bind fun _ => reads_depthBound.bind fun _ => reads_onHeap (reads_rbiSearch _)

theorem reads_rbContains : Reads (rbContains db k : ApiM K V Bool) :=
  reads_rbSearchNode.bind fun _ => .pure

theorem reads_rbKey : Reads (rbKey h : ApiM K V K) := reads_onHeap reads_key

theorem reads_rbValue : Reads (rbValue h : ApiM K V V) := reads_onHeap reads_data

theorem reads_rbGet : Reads (rbGet db k default : ApiM K V V) :=
  reads_rbSearchNode.bind fun _ => .ite reads_rbValue .pure

theorem reads_rbMinNode : Reads (rbMinNode db : ApiM K V Link) :=
  reads_handleAt.bind fun _ => .ite .pure <|
    reads_depthBound.bind fun _ => reads_onHeap (reads_rbiMinNode _)

theorem reads_rbMaxNode : Reads (rbMaxNode db : ApiM K V Link) :=
  reads_handleAt.bind fun _ => .ite .pure <|
    reads_depthBound.bind fun _ => reads_onHeap (reads_rbiMaxNode _)

theorem reads_rbFloorNode : Reads (rbFloorNode db k : ApiM K V Link) :=
  reads_handleAt.bind fun _ => reads_depthBound.bind fun _ => reads_onHeap (reads_rbiFloor _)

theorem reads_rbCeilingNode : Reads (rbCeilingNode db k : ApiM K V Link) :=
  reads_handleAt.bind fun _ => reads_depthBound.bind fun _ => reads_onHeap (reads_rbiCeiling _)

theorem reads_rbRank : Reads (rbRank db k : ApiM K V ℤ) :=
  reads_handleAt.bind fun _ => reads_depthBound.bind fun _ => reads_onHeap (reads_rbiRank _)

theorem reads_rbSelectNode : Reads (rbSelectNode db i : ApiM K V Link) :=
  .ite .pure <| reads_handleAt.bind fun _ => reads_depthBound.bind fun _ =>
    reads_onHeap (reads_rbiSelect _)

theorem reads_rbForeach : Reads (rbForeach db : ApiM K V (List (K × V))) :=
  reads_handleAt.bind fun _ => reads_depthBound.bind fun _ => reads_onHeap (reads_rbiForeach _)

theorem reads_rbRange : Reads (rbRange db lo hi : ApiM K V (List (K × V))) :=
  reads_handleAt.bind fun _ => reads_depthBound.bind fun _ => reads_onHeap (reads_rbiRange _)

end Readers

/-! ### Steps of a session -/

/-- The session's handle, as it is read. -/
theorem bind_handle {f : Handle K → ApiM K V α} {C : α → Session z handles db d → Prop}
    (hf : g.Keeps (f { d with root := g.root }) C) : g.Keeps (handleAt db >>= f) C := by
  refine .bind_reads reads_handleAt fun d' hd' => ?_
  rw [handleAt, g.handle] at hd'
  cases hd'
  exact hf

/-- The session with other nodes. -/
def withHeap (g : Session z handles db d) (r : z.Reached) (hr : g.reached ≤ r) :
    Session z handles db d where
  world := { g.world with heap := r.heap }
  respects := r.respects
  root := g.root
  root_in := Heap.Within.mono g.root_in hr
  handles_eq := g.handles_eq
  db_lt := g.db_lt

/-- **A function on nodes that keeps to the region** stays in the session. -/
theorem keeps_onHeap {m : CalM K V α} {B : α → z.Reached → Prop} (hm : g.reached.Keeps m B) :
    g.Keeps (onHeap m) (fun a g' => g'.root = g.root ∧ B a g'.reached) := by
  have hrun : ∀ {r : Except CalError α} {s' : Heap K V}, m g.reached.heap = (r, s') →
      onHeap m g.world = (r, { g.world with heap := s' }) := by
    intro r s' h
    show ((m g.reached.heap).1, { g.world with heap := (m g.reached.heap).2 }) = _
    rw [h]
  rcases hm.outcomes with ⟨a, r, h, hr, hb⟩ | ⟨e, r, h, hr⟩
  · exact .of_ok (g.withHeap r hr) (hrun h) hr ⟨rfl, hb⟩
  · exact .of_error (g.withHeap r hr) (hrun h) hr

theorem keeps_setRoot (hh : g.reached.In h) :
    g.Keeps (setRoot db h) (fun _ g' => g'.root = h) := by
  refine bind_handle ?_
  refine ⟨⟨{ g.world with handles := g.world.handles.set db { d with root := h } }, g.respects,
    h, hh, ?_, g.db_lt⟩, rfl, le_refl g.reached, rfl⟩
  rw [g.handles_eq, List.set_set]

theorem keeps_misuse {message : String} : g.Keeps (rbiMisuse message) (fun _ _ => True) :=
  ⟨⟨{ g.world with
      misuseCount := g.world.misuseCount + 1
      out := g.world.out ++ ["  RB-MISUSE: " ++ message] },
    g.respects, g.root, g.root_in, g.handles_eq, g.db_lt⟩, rfl, le_refl g.reached, trivial⟩

/-- The root is painted where it is writable. -/
theorem keeps_colorRoot {c : Llrb.Color} (hh : g.reached.Out g.root) :
    g.Keeps (colorRoot db c) (fun _ g' => g'.root = g.root) :=
  bind_handle ((keeps_onHeap (keeps_setColor hh)).post fun _ _ _ h => h.1)

theorem keeps_blackenRoot (hh : g.reached.Out g.root) :
    g.Keeps (blackenRoot db) (fun _ _ => True) := by
  refine bind_handle (.ite (fun _ => ?_) (fun _ => .pure trivial))
  exact (keeps_colorRoot hh).post fun _ _ _ _ => trivial

theorem reads_blackChildren : Reads (blackChildren h : CalM K V Bool) :=
  reads_andM reads_leftColor reads_rightColor

/-! ### The bodies of the updates -/

/-- **A new writable root** is stored before the rest, which may paint it. -/
theorem keeps_storeRoot {rest : Unit → ApiM K V α} (hh : g.reached.Out h)
    (hrest : ∀ g' : Session z handles db d, g'.reached.Out g'.root →
      g'.Keeps (rest ()) (fun _ _ => True)) :
    g.Keeps (setRoot db h >>= rest) (fun _ _ => True) := by
  refine .bind (keeps_setRoot hh.toIn) fun _ g' hg hroot => hrest g' ?_
  rw [hroot]
  exact Out.mono hh hg

/-- **An insertion**, in either style. -/
theorem keeps_put {st : Style K V} (hst : st.Confined z) {k : K} {v : V}
    {m : ApiM K V α}
    (hrest : ∀ g' : Session z handles db d, g'.Keeps m (fun _ _ => True)) :
    g.Keeps (do
      let d ← handleAt db
      setRoot db (← onHeap (st.put (← depthBound) d.root k v d.cmp))
      colorRoot db .black
      m) (fun _ _ => True) := by
  refine bind_handle (.bind_reads reads_depthBound fun fuel _ => ?_)
  refine .bind (keeps_onHeap (hst.put fuel g.root_in)) fun h g' _ hh => ?_
  refine keeps_storeRoot hh.2 fun g'' hout => .bind (keeps_colorRoot hout) fun _ g₃ _ _ => ?_
  exact hrest g₃

/-- The end of a deletion from a writable node. -/
theorem keeps_delete {del : CalM K V Link} {a : α}
    (hdel : g.reached.Keeps del (fun h' g' => g'.Out h')) :
    g.Keeps (do
      setRoot db (← onHeap del)
      blackenRoot db
      return a) (fun _ _ => True) := by
  refine .bind (keeps_onHeap hdel) fun h g' _ hh => ?_
  refine keeps_storeRoot hh.2 fun g'' hout => ?_
  exact .bind (keeps_blackenRoot hout) fun _ g₃ _ _ => .pure trivial

/-- **The bulk load.** -/
theorem keeps_fromSorted {v : Option (List (Element K V))} :
    g.Keeps (do
      match v with
      | none =>
        rbiMisuse "rb_from_sorted: a vector of [key, value] pairs is required"
        return -1
      | some v =>
        if !(← onHeap (rbiCheckSorted (← handleAt db).cmp none v)) then
          rbiMisuse "rb_from_sorted: need [key, value] pairs with strictly ascending keys"
          return -1
        let d := blackHeightFor v.length v.length 0
        setRoot db (← onHeap (rbiBuildB v (2 * v.length + 2) 0 v.length d))
        rbSize db) (fun _ _ => True) := by
  cases v with
  | none => exact .bind keeps_misuse fun _ _ _ _ => .pure trivial
  | some v =>
    refine bind_handle (.bind_reads (reads_onHeap (reads_rbiCheckSorted v)) fun _ _ => ?_)
    refine .ite (fun _ => .bind keeps_misuse fun _ _ _ _ => .pure trivial) (fun _ => ?_)
    refine .bind (keeps_onHeap (keeps_rbiBuildB _ _ _ _ _)) fun h g' _ hh => ?_
    refine keeps_storeRoot hh.2 fun g'' _ => bind_handle ?_
    exact .of_reads (reads_onHeap reads_rbiSize)

end Session

end RbCal
