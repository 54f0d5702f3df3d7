import SecdScheme.RbCal.Ledger

/-!
# rbtree4.cal: snapshots persist

Runs of public operations on any number of handles. A run goes from ledger to
ledger, in which the roots of snapshots are shared – so a snapshot stays as
it is, whatever runs after it, and the mode checks refuse what could write
it.
-/

namespace RbCal

open Cmd (Follows Reads)

variable {K V : Type}

/-! ## Runs -/

/-- The public operations. The roots that `rb_from_root` and `rbp_from_root`
are applied to are given by their place among the snapshots. -/
inductive Op (K V : Type) where
  | new (cmp : Comparator K)
  | fromRoot (i : ℕ) (cmp : Comparator K)
  | pFromRoot (i : ℕ) (cmp : Comparator K)
  | clear (db : ℕ)
  | misuseReset
  | size (db : ℕ)
  | isEmpty (db : ℕ)
  | searchNode (db : ℕ) (k : K)
  | contains (db : ℕ) (k : K)
  | key (n : Link)
  | value (n : Link)
  | get (db : ℕ) (k : K) (default : V)
  | minNode (db : ℕ)
  | maxNode (db : ℕ)
  | floorNode (db : ℕ) (k : K)
  | ceilingNode (db : ℕ) (k : K)
  | rank (db : ℕ) (k : K)
  | selectNode (db : ℕ) (i : ℤ)
  | foreach (db : ℕ)
  | range (db : ℕ) (lo hi : K)
  | put (db : ℕ) (k : K) (v : V)
  | delete (db : ℕ) (k : K)
  | deleteMin (db : ℕ)
  | deleteMax (db : ℕ)
  | fromSorted (db : ℕ) (v : Option (List (Element K V)))
  | snapshot (db : ℕ)
  | pPut (db : ℕ) (k : K) (v : V)
  | pSetValue (db : ℕ) (k : K) (v : V)
  | pDelete (db : ℕ) (k : K)
  | pDeleteMin (db : ℕ)
  | pDeleteMax (db : ℕ)

/-- A world and the roots that `rbp_snapshot` has returned. -/
structure State (K V : Type) where
  world : World K V
  snapshots : List Link

namespace State

/-- The state after a function whose result is dropped. -/
def after {α : Type} (st : State K V) (m : ApiM K V α) : State K V :=
  { st with world := (m st.world).2 }

/-- An operation on the root of a snapshot. -/
def withRoot {α : Type} (st : State K V) (i : ℕ) (m : Link → ApiM K V α) : State K V :=
  match st.snapshots[i]? with
  | some r => st.after (m r)
  | none => st

/-- **One public operation**; after an error the state is what it had come
to. -/
def step (st : State K V) : Op K V → State K V
  | .new cmp => st.after (rbNew cmp)
  | .fromRoot i cmp => st.withRoot i fun r => rbFromRoot r cmp
  | .pFromRoot i cmp => st.withRoot i fun r => rbpFromRoot r cmp
  | .clear db => st.after (rbClear db)
  | .misuseReset => st.after rbMisuseReset
  | .size db => st.after (rbSize db)
  | .isEmpty db => st.after (rbIsEmpty db)
  | .searchNode db k => st.after (rbSearchNode db k)
  | .contains db k => st.after (rbContains db k)
  | .key n => st.after (rbKey n)
  | .value n => st.after (rbValue n)
  | .get db k default => st.after (rbGet db k default)
  | .minNode db => st.after (rbMinNode db)
  | .maxNode db => st.after (rbMaxNode db)
  | .floorNode db k => st.after (rbFloorNode db k)
  | .ceilingNode db k => st.after (rbCeilingNode db k)
  | .rank db k => st.after (rbRank db k)
  | .selectNode db i => st.after (rbSelectNode db i)
  | .foreach db => st.after (rbForeach db)
  | .range db lo hi => st.after (rbRange db lo hi)
  | .put db k v => st.after (rbPut db k v)
  | .delete db k => st.after (rbDelete db k)
  | .deleteMin db => st.after (rbDeleteMin db)
  | .deleteMax db => st.after (rbDeleteMax db)
  | .fromSorted db v => st.after (rbFromSorted db v)
  | .snapshot db =>
    match rbpSnapshot db st.world with
    | (.ok r, w) => ⟨w, st.snapshots ++ [r]⟩
    | (.error _, w) => { st with world := w }
  | .pPut db k v => st.after (rbpPut db k v)
  | .pSetValue db k v => st.after (rbpSetValue db k v)
  | .pDelete db k => st.after (rbpDelete db k)
  | .pDeleteMin db => st.after (rbpDeleteMin db)
  | .pDeleteMax db => st.after (rbpDeleteMax db)

/-- A run of operations. -/
def run (st : State K V) (ops : List (Op K V)) : State K V := ops.foldl step st

/-- Nothing is there at the start. -/
def start : State K V := ⟨⟨⟨[], []⟩, [], 0, []⟩, []⟩

end State

/-! ### The ledger of a run -/

/-- **A ledger for a state**: the snapshots are shared. -/
structure Ledger.For (g : Ledger K V) (st : State K V) : Prop where
  world_eq : g.world = st.world
  shared : ∀ r ∈ st.snapshots, OwnedBy g.owners none r

namespace Ledger.For

variable {g g' : Ledger K V} {st : State K V} {α : Type} {m : ApiM K V α}

theorem mono (h : g.For st) (hg : g ≤ g') : g'.For { st with world := g'.world } :=
  ⟨rfl, fun r hr a ha => hg.shared a (h.shared r hr a ha)⟩

theorem after {B : α → Ledger K V → Prop} (h : g.For st) (hm : g.Keeps m B) :
    ∃ g', g'.For (st.after m) ∧ g ≤ g' := by
  obtain ⟨g', hw, hg⟩ := hm.exists_state
  refine ⟨g', ?_, hg⟩
  rw [h.world_eq] at hw
  rw [State.after, ← hw]
  exact h.mono hg

theorem reads (h : g.For st) (hm : Reads m) : ∃ g', g'.For (st.after m) ∧ g ≤ g' :=
  h.after (.of_reads hm)

theorem withRoot {m : Link → ApiM K V α} {i : ℕ} (h : g.For st)
    (hm : ∀ r, OwnedBy g.owners none r → g.Keeps (m r) (fun _ _ => True)) :
    ∃ g', g'.For (st.withRoot i m) ∧ g ≤ g' := by
  rw [State.withRoot]
  split
  · rename_i r hr
    exact h.after (hm r (h.shared r (List.mem_of_getElem? hr)))
  · exact ⟨g, h, le_refl g⟩

/-- **One operation** goes from ledger to ledger. -/
theorem step (h : g.For st) (op : Op K V) : ∃ g', g'.For (st.step op) ∧ g ≤ g' := by
  cases op with
  | new cmp => exact h.after keeps_rbNew
  | fromRoot i cmp => exact h.withRoot fun _ hr => keeps_rbFromRoot hr
  | pFromRoot i cmp => exact h.withRoot fun _ hr => keeps_rbpFromRoot hr
  | clear db => exact h.after keeps_rbClear
  | misuseReset =>
    exact h.after (m := rbMisuseReset) (B := fun _ _ => True) <|
      .of_ok (g.withHandles { g.world with misuseCount := 0 } rfl g.handle_ok) rfl
        le_withHandles trivial
  | size db => exact h.reads Session.reads_rbSize
  | isEmpty db => exact h.reads Session.reads_rbIsEmpty
  | searchNode db k => exact h.reads Session.reads_rbSearchNode
  | contains db k => exact h.reads Session.reads_rbContains
  | key n => exact h.reads Session.reads_rbKey
  | value n => exact h.reads Session.reads_rbValue
  | get db k default => exact h.reads Session.reads_rbGet
  | minNode db => exact h.reads Session.reads_rbMinNode
  | maxNode db => exact h.reads Session.reads_rbMaxNode
  | floorNode db k => exact h.reads Session.reads_rbFloorNode
  | ceilingNode db k => exact h.reads Session.reads_rbCeilingNode
  | rank db k => exact h.reads Session.reads_rbRank
  | selectNode db i => exact h.reads Session.reads_rbSelectNode
  | foreach db => exact h.reads Session.reads_rbForeach
  | range db lo hi => exact h.reads Session.reads_rbRange
  | put db k v => exact h.after keeps_rbPut
  | delete db k => exact h.after keeps_rbDelete
  | deleteMin db => exact h.after keeps_rbDeleteMin
  | deleteMax db => exact h.after keeps_rbDeleteMax
  | fromSorted db v => exact h.after keeps_rbFromSorted
  | snapshot db =>
    have hm : g.Keeps (rbpSnapshot db) _ := keeps_rbpSnapshot
    rcases hm.outcomes with ⟨r, g', hrun, hg, hr⟩ | ⟨e, g', hrun, hg⟩ <;> rw [h.world_eq] at hrun
    · refine ⟨g', ?_, hg⟩
      rw [State.step, hrun]
      refine ⟨rfl, fun r' hr' => ?_⟩
      rcases List.mem_append.mp hr' with hr' | hr'
      · exact (h.mono hg).shared r' hr'
      · rwa [List.mem_singleton.mp hr']
    · refine ⟨g', ?_, hg⟩
      rw [State.step, hrun]
      exact h.mono hg
  | pPut db k v => exact h.after keeps_rbpPut
  | pSetValue db k v => exact h.after keeps_rbpSetValue
  | pDelete db k => exact h.after keeps_rbpDelete
  | pDeleteMin db => exact h.after keeps_rbpDeleteMin
  | pDeleteMax db => exact h.after keeps_rbpDeleteMax

/-- **A run** goes from ledger to ledger. -/
theorem run (h : g.For st) (ops : List (Op K V)) : ∃ g', g'.For (st.run ops) ∧ g ≤ g' := by
  induction ops generalizing g st with
  | nil => exact ⟨g, h, le_refl g⟩
  | cons op ops ih =>
    obtain ⟨g₁, h₁, hg₁⟩ := h.step op
    obtain ⟨g₂, h₂, hg₂⟩ := ih h₁
    exact ⟨g₂, h₂, le_trans hg₁ hg₂⟩

end Ledger.For

theorem Ledger.empty_for : (empty : Ledger K V).For State.start := ⟨rfl, nofun⟩

/-! ## What is seen through a root -/

/-- The map seen through a root, with its shape, colours and sizes; `cut` is
where the depth ends or a link leads nowhere. -/
inductive View (K V : Type) where
  | nil
  | cut
  | node (left right : View K V) (color : Llrb.Color) (key : K) (data : V) (size : ℤ)

/-- The view through a root, down to a depth. -/
def Heap.view (s : Heap K V) : ℕ → Link → View K V
  | _, none => .nil
  | 0, some _ => .cut
  | depth + 1, some a =>
    match s.get a with
    | none => .cut
    | some n => .node (s.view depth n.left) (s.view depth n.right) n.color n.key n.data n.size

/-- The nodes reachable from a link. -/
inductive Heap.Reach (s : Heap K V) : Link → ℕ → Prop where
  | here {a : ℕ} : s.Reach (some a) a
  | left {a b : ℕ} {n : Node K V} : s.get a = some n → s.Reach n.left b → s.Reach (some a) b
  | right {a b : ℕ} {n : Node K V} : s.get a = some n → s.Reach n.right b → s.Reach (some a) b

namespace Ledger

variable {g g' : Ledger K V} {o : Option ℕ} {h : Link} {a : ℕ}

/-- What is reachable from a node has its owner. -/
theorem owner_of_reach (hr : g.world.heap.Reach h a) (ho : OwnedBy g.owners o h) :
    g.owners[a]? = some o := by
  induction hr with
  | here => exact ho _ rfl
  | left hn _ ih => exact ih fun c hc => (g.closed _ _ hn c (.inl hc)).trans (ho _ rfl)
  | right hn _ ih => exact ih fun c hc => (g.closed _ _ hn c (.inr hc)).trans (ho _ rfl)

/-- **A shared root is seen as it was.** -/
theorem view_eq (hg : g ≤ g') (depth : ℕ) : ∀ {h : Link}, OwnedBy g.owners none h →
    g'.world.heap.view depth h = g.world.heap.view depth h := by
  induction depth with
  | zero =>
    intro h _
    cases h <;> rfl
  | succ depth ih =>
    intro h ho
    cases h with
    | none => rfl
    | some a =>
      have ha := ho a rfl
      rw [Heap.view, Heap.view, hg.frame a ha]
      cases hn : g.world.heap.get a with
      | none => rfl
      | some n =>
        have hl : OwnedBy g.owners none n.left :=
          fun c hc => (g.closed a n hn c (.inl hc)).trans ha
        have hr : OwnedBy g.owners none n.right :=
          fun c hc => (g.closed a n hn c (.inr hc)).trans ha
        dsimp only
        rw [ih hl, ih hr]

end Ledger

/-! ## The mode checks -/

/-- The handle that a destructive update is about. -/
def Op.destroys : Op K V → Option ℕ
  | .put db _ _ => some db
  | .delete db _ => some db
  | .deleteMin db => some db
  | .deleteMax db => some db
  | .fromSorted db _ => some db
  | _ => none

theorem heap_bind_reads {α β : Type} {m : ApiM K V α} {f : α → ApiM K V β} {w : World K V}
    (hm : Reads m) (hf : ∀ a, (f a w).2.heap = w.heap) : ((m >>= f) w).2.heap = w.heap := by
  have hs := hm w
  rcases hrun : m w with ⟨e | a, w'⟩ <;> rw [hrun] at hs <;> subst hs
  · rw [Cmd.bind_run_error hrun]
  · rw [Cmd.bind_run_ok hrun]
    exact hf a

/-- **A handle that shares nodes** with a snapshot is in persistent or
read-only mode, and the guard refuses it. -/
theorem Ledger.refuses {g : Ledger K V} {db : ℕ} {d : Handle K} {a : ℕ}
    (hd : g.world.handles[db]? = some d) (hr : g.world.heap.Reach d.root a)
    (ha : g.owners[a]? = some none) :
    ∃ w, rbiWantDestructive db g.world = (.ok false, w) ∧ w.heap = g.world.heap ∧
      w.misuseCount = g.world.misuseCount + 1 := by
  have hok := g.handle_ok db d hd
  have hh : (handleAt db : ApiM K V _) g.world = (.ok d, g.world) := by rw [handleAt, hd]
  have hv : (isHandle db : ApiM K V _) g.world = (.ok true, g.world) := by rw [isHandle, hd]; rfl
  rw [rbiWantDestructive, Cmd.bind_run_ok hv, if_neg (by decide), Cmd.bind_run_ok hh]
  rw [HandleOk] at hok
  split at hok
  · exact hok.elim
  · rw [hok] at hr
    cases hr
  · rw [owner_of_reach hr hok] at ha
    cases ha
  · rename_i hm
    rw [hm]
    exact ⟨_, rfl, rfl, rfl⟩
  · rename_i hm
    rw [hm]
    exact ⟨_, rfl, rfl, rfl⟩

section Refused

variable {w w' : World K V} {db : ℕ} (hw : rbiWantDestructive db w = (.ok false, w'))
  (hheap : w'.heap = w.heap)
include hw hheap

theorem deleteDestructive_refused {del : ℕ → Link → Comparator K → CalM K V Link} :
    (deleteDestructive db del w).2.heap = w.heap := by
  rw [deleteDestructive, Cmd.bind_run_ok hw]
  exact hheap

/-- **An update that is refused** leaves all nodes alone. -/
theorem heap_of_refused {snapshots : List Link} (op : Op K V) (hop : op.destroys = some db) :
    ((⟨w, snapshots⟩ : State K V).step op).world.heap = w.heap := by
  cases op with
  | put db' k v =>
    cases hop
    show (rbPut db k v w).2.heap = w.heap
    rw [rbPut, Cmd.bind_run_ok hw]
    exact hheap
  | delete db' k =>
    cases hop
    refine heap_bind_reads Session.reads_rbContains fun c => ?_
    split
    · rfl
    · exact deleteDestructive_refused hw hheap
  | deleteMin db' =>
    cases hop
    refine heap_bind_reads Session.reads_handleAt fun c => ?_
    split
    · rfl
    · exact deleteDestructive_refused hw hheap
  | deleteMax db' =>
    cases hop
    refine heap_bind_reads Session.reads_handleAt fun c => ?_
    split
    · rfl
    · exact deleteDestructive_refused hw hheap
  | fromSorted db' v =>
    cases hop
    show (rbFromSorted db v w).2.heap = w.heap
    rw [rbFromSorted.eq_def, Cmd.bind_run_ok hw]
    exact hheap
  | _ => cases hop

end Refused

/-- **A snapshot persists.** After any run of public operations, whatever is
run next: the view through a snapshot's root stays, none of the nodes
reachable from it is written or changed, and a handle from whose root one of
them can be reached is refused every destructive update. -/
theorem snapshot_persists (ops ops' : List (Op K V)) (r : Link)
    (hr : r ∈ ((State.start : State K V).run ops).snapshots) :
    (∀ depth, (((State.start : State K V).run ops).run ops').world.heap.view depth r =
      ((State.start : State K V).run ops).world.heap.view depth r) ∧
    (∃ l, (((State.start : State K V).run ops).run ops').world.heap.writes =
        ((State.start : State K V).run ops).world.heap.writes ++ l ∧
      ∀ a, ((State.start : State K V).run ops).world.heap.Reach r a → a ∉ l ∧
        (((State.start : State K V).run ops).run ops').world.heap.get a =
          ((State.start : State K V).run ops).world.heap.get a) ∧
    ∀ db d a, ((State.start : State K V).run ops).world.handles[db]? = some d →
      ((State.start : State K V).run ops).world.heap.Reach d.root a →
      ((State.start : State K V).run ops).world.heap.Reach r a →
      (∃ w, rbiWantDestructive db ((State.start : State K V).run ops).world = (.ok false, w) ∧
        w.misuseCount = ((State.start : State K V).run ops).world.misuseCount + 1) ∧
      ∀ op : Op K V, op.destroys = some db →
        (((State.start : State K V).run ops).step op).world.heap =
          ((State.start : State K V).run ops).world.heap := by
  obtain ⟨g, hg, -⟩ := Ledger.empty_for.run ops
  obtain ⟨g', hg', hle⟩ := hg.run ops'
  have hshared := hg.shared r hr
  generalize (State.start : State K V).run ops = st at hg hg' ⊢
  obtain ⟨w, snapshots⟩ := st
  obtain rfl : g.world = w := hg.world_eq
  rw [← hg'.world_eq]
  refine ⟨fun depth => Ledger.view_eq hle depth hshared, ?_, fun db d a hd hda hra => ?_⟩
  · obtain ⟨l, hl, hmem⟩ := hle.logged
    refine ⟨l, hl, fun a ha => ?_⟩
    have howner := Ledger.owner_of_reach ha hshared
    exact ⟨fun hal => hmem a hal howner, hle.frame a howner⟩
  · obtain ⟨w', hw, hheap, hcount⟩ := Ledger.refuses hd hda (Ledger.owner_of_reach hra hshared)
    exact ⟨⟨w', hw, hcount⟩, fun op hop => heap_of_refused hw hheap op hop⟩

/-- The comparison function of `rb_new_number`. -/
def cmpNumber : Comparator ℤ := some fun a b => .ok (a - b)

/-- Three keys, a snapshot, then updates of the handle and of a second one on
the same root. -/
theorem snapshot_persists_updates :
    (((State.start : State ℤ ℤ).run [.new cmpNumber, .pPut 0 2 20, .pPut 0 1 10, .pPut 0 3 30,
        .snapshot 0]).run [.pDelete 0 2, .pFromRoot 0 cmpNumber, .pPut 1 2 21,
        .put 1 2 22]).world.heap.view 4 (some 3) =
      ((State.start : State ℤ ℤ).run [.new cmpNumber, .pPut 0 2 20, .pPut 0 1 10, .pPut 0 3 30,
        .snapshot 0]).world.heap.view 4 (some 3) :=
  (snapshot_persists _ _ _ (by decide)).1 4

end RbCal
