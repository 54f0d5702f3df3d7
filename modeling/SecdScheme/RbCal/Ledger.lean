import SecdScheme.RbCal.Sessions

/-!
# rbtree4.cal: owners of nodes

Every node has an owner: the handle that updates it destructively, or nobody
once it is shared. Owned nodes lead to nodes of the same owner, shared nodes
to shared nodes; the root of a handle in destructive mode is its own, the
roots of persistent and read-only handles are shared. This is kept by every
public operation, which writes nodes of one owner or new ones only.
-/

namespace RbCal

open Cmd (Follows Reads)

variable {K V : Type}

/-- A link to a node of the given owner. -/
def OwnedBy (owners : List (Option ℕ)) (o : Option ℕ) (h : Link) : Prop :=
  ∀ a, h = some a → owners[a]? = some o

/-- What the mode of a handle says about its root. -/
def HandleOk (owners : List (Option ℕ)) (db : ℕ) (d : Handle K) : Prop :=
  match d.mode with
  | none => False
  | some .free => d.root = none
  | some .destr => OwnedBy owners (some db) d.root
  | some .pers => OwnedBy owners none d.root
  | some .read => OwnedBy owners none d.root

/-- **A world with owners of its nodes.** -/
structure Ledger (K V : Type) where
  world : World K V
  owners : List (Option ℕ)
  length_eq : owners.length = world.heap.nodes.length
  closed : ∀ a n, world.heap.get a = some n → ∀ c, n.left = some c ∨ n.right = some c →
    owners[c]? = owners[a]?
  handle_ok : ∀ db d, world.handles[db]? = some d → HandleOk owners db d

/-- **What stays**: shared nodes stay shared and as they are, and are not
written. -/
structure Ledger.Le (g g' : Ledger K V) : Prop where
  shared : ∀ a : ℕ, g.owners[a]? = some none → g'.owners[a]? = some none
  frame : ∀ a : ℕ, g.owners[a]? = some none → g'.world.heap.get a = g.world.heap.get a
  logged : ∃ l, g'.world.heap.writes = g.world.heap.writes ++ l ∧
    ∀ a ∈ l, g.owners[a]? ≠ some none

namespace Ledger

theorem Le.refl (g : Ledger K V) : Le g g :=
  ⟨fun _ h => h, fun _ _ => rfl, [], by simp, by simp⟩

theorem Le.trans {g g' g'' : Ledger K V} (h : Le g g') (h' : Le g' g'') : Le g g'' := by
  refine ⟨fun a ha => h'.shared a (h.shared a ha),
    fun a ha => (h'.frame a (h.shared a ha)).trans (h.frame a ha), ?_⟩
  obtain ⟨l, hl, hmem⟩ := h.logged
  obtain ⟨l', hl', hmem'⟩ := h'.logged
  refine ⟨l ++ l', by rw [hl', hl, List.append_assoc], fun a ha hs => ?_⟩
  rcases List.mem_append.mp ha with ha | ha
  · exact hmem a ha hs
  · exact hmem' a ha (h.shared a hs)

instance : Preorder (Ledger K V) where
  le := Le
  le_refl := Le.refl
  le_trans _ _ _ := Le.trans

variable {g g' : Ledger K V} {db : ℕ} {d : Handle K} {α : Type}

/-- The public function keeps the ledger. -/
abbrev Keeps (g : Ledger K V) (m : ApiM K V α) (B : α → Ledger K V → Prop) : Prop :=
  Follows Ledger.world g m B

/-! ### Changes of handles -/

/-- The world with other handles and messages. -/
def withHandles (g : Ledger K V) (w : World K V) (hw : w.heap = g.world.heap)
    (hok : ∀ db d, w.handles[db]? = some d → HandleOk g.owners db d) : Ledger K V where
  world := w
  owners := g.owners
  length_eq := by rw [hw, g.length_eq]
  closed := by rw [hw]; exact g.closed
  handle_ok := hok

/-- Other handles on the same nodes are a later ledger. -/
theorem le_withHandles {w : World K V} {hw : w.heap = g.world.heap} {hok} :
    g ≤ g.withHandles w hw hok :=
  ⟨fun _ h => h, fun _ _ => by rw [withHandles, hw],
    [], by rw [withHandles, hw, List.append_nil], by simp⟩

/-- A handle is replaced by one that is in order. -/
theorem handleOk_set (hok : ∀ i d, g.world.handles[i]? = some d → HandleOk g.owners i d)
    (hd : HandleOk g.owners db d) (i : ℕ) (d' : Handle K)
    (h : (g.world.handles.set db d)[i]? = some d') : HandleOk g.owners i d' := by
  rw [List.getElem?_set] at h
  split at h
  · rename_i hi
    subst hi
    split at h
    · cases h
      exact hd
    · cases h
  · exact hok i d' h

/-- The node at a link is read. -/
theorem keeps_updateHandle {f : Handle K → Handle K}
    (hf : ∀ d, g.world.handles[db]? = some d → HandleOk g.owners db (f d)) :
    g.Keeps (updateHandle db f) (fun _ g' => ∃ d, g.world.handles[db]? = some d ∧
      g'.world.handles[db]? = some (f d) ∧ g'.owners = g.owners) := by
  refine .bind_reads Session.reads_handleAt fun d hd => ?_
  rw [handleAt] at hd
  split at hd
  · rename_i d' hd'
    cases hd
    refine .of_ok (g.withHandles { g.world with handles := g.world.handles.set db (f d) }
      rfl (handleOk_set g.handle_ok (hf d hd'))) rfl le_withHandles ⟨d, hd', ?_, rfl⟩
    show (g.world.handles.set db (f d))[db]? = some (f d)
    rw [List.getElem?_set_self (List.getElem?_eq_some_iff.mp hd').1]
  · cases hd

/-- A misuse is counted, and nothing else happens. -/
theorem keeps_misuse {message : String} :
    g.Keeps (rbiMisuse message) (fun _ g' => g'.world.handles = g.world.handles) :=
  .of_ok (g.withHandles { g.world with
      misuseCount := g.world.misuseCount + 1
      out := g.world.out ++ ["  RB-MISUSE: " ++ message] } rfl g.handle_ok) rfl le_withHandles rfl

/-- A handle that is in order may be added. -/
theorem keeps_makeHandle (hd : HandleOk g.owners g.world.handles.length d) :
    g.Keeps (makeHandle d) (fun _ _ => True) := by
  refine .of_ok (g.withHandles { g.world with handles := g.world.handles ++ [d] } rfl
    fun i d' h => ?_) rfl le_withHandles trivial
  dsimp only at h
  rw [List.getElem?_append] at h
  split at h
  · exact g.handle_ok i d' h
  · rw [List.getElem?_singleton] at h
    split at h
    · cases h
      rwa [show i = g.world.handles.length by omega]
    · cases h

/-- **The nodes of a handle are shared from now on.** -/
def release (g : Ledger K V) (db : ℕ) (d : Handle K) (hd : g.world.handles[db]? = some d)
    (w : World K V) (hw : w.heap = g.world.heap)
    (hh : w.handles = g.world.handles.set db { d with mode := some .pers }) : Ledger K V where
  world := w
  owners := g.owners.map fun o => if o = some db then none else o
  length_eq := by rw [List.length_map, hw, g.length_eq]
  closed := by
    intro a n hn c hc
    rw [hw] at hn
    rw [List.getElem?_map, List.getElem?_map, g.closed a n hn c hc]
  handle_ok := by
    intro i d' hd'
    have hnone : ∀ {h : Link}, OwnedBy g.owners none h →
        OwnedBy (g.owners.map fun o => if o = some db then none else o) none h := by
      intro h ho a ha
      rw [List.getElem?_map, ho a ha]
      rfl
    rw [hh, List.getElem?_set] at hd'
    split at hd'
    · rename_i hi
      subst hi
      rw [if_pos (List.getElem?_eq_some_iff.mp hd).1] at hd'
      cases hd'
      have hok := g.handle_ok db d hd
      rw [HandleOk] at hok
      show OwnedBy _ none d.root
      split at hok
      · exact hok.elim
      · rw [hok]
        rintro a ⟨⟩
      · intro a ha
        rw [List.getElem?_map, hok a ha]
        simp
      · exact hnone hok
      · exact hnone hok
    · rename_i hi
      have hok := g.handle_ok i d' hd'
      rw [HandleOk] at hok ⊢
      split at hok
      · exact hok.elim
      · exact hok
      · intro a ha
        rw [List.getElem?_map, hok a ha]
        simp [Ne.symm hi]
      · exact hnone hok
      · exact hnone hok

/-- A tree that is given up has no owner any more. -/
theorem le_release {hd : g.world.handles[db]? = some d} {w : World K V}
    {hw : w.heap = g.world.heap} {hh} : g ≤ g.release db d hd w hw hh := by
  refine ⟨fun a ha => ?_, fun _ _ => by rw [release, hw],
    [], by rw [release, hw, List.append_nil], by simp⟩
  show (g.owners.map _)[a]? = _
  rw [List.getElem?_map, ha]
  rfl

/-- A handle becomes persistent: what it held is shared. -/
theorem keeps_setPers :
    g.Keeps (setMode db .pers) (fun _ g' => ∃ d, g.world.handles[db]? = some d ∧
      g'.world.handles[db]? = some { d with mode := some .pers }) := by
  refine .bind_reads Session.reads_handleAt fun d hd => ?_
  rw [handleAt] at hd
  split at hd
  · rename_i d' hd'
    cases hd
    refine .of_ok (g.release db d hd' { g.world with
      handles := g.world.handles.set db { d with mode := some .pers } } rfl rfl) rfl
      le_release ⟨d, hd', ?_⟩
    show (g.world.handles.set db _)[db]? = _
    rw [List.getElem?_set_self (List.getElem?_eq_some_iff.mp hd').1]
  · cases hd

/-! ### Guards -/

theorem reads_isHandle : Reads (isHandle db : ApiM K V Bool) := fun _ => rfl

/-- What was read is the handle. -/
theorem handle_of_handleAt {w w' : World K V} (h : handleAt db w = (.ok d, w')) :
    w.handles[db]? = some d := by
  rw [handleAt] at h
  split at h
  · rename_i d' hd
    cases h
    exact hd
  · cases h

/-- **The destructive guard** lets through a handle that is in destructive
mode from then on. -/
theorem keeps_rbiWantDestructive :
    g.Keeps (rbiWantDestructive db) (fun ok g' => ok = true →
      ∃ d, g'.world.handles[db]? = some d ∧ d.mode = some .destr) := by
  refine .bind_reads reads_isHandle fun _ _ => .ite
    (fun _ => .bind keeps_misuse fun _ _ _ _ => .pure nofun) (fun _ => ?_)
  refine .bind_reads Session.reads_handleAt fun d hd => ?_
  have hd := handle_of_handleAt hd
  have hok := g.handle_ok db d hd
  rw [HandleOk] at hok
  have hset (hown : OwnedBy g.owners (some db) d.root) :
      g.Keeps (do setMode db .destr; return true) (fun ok g' => ok = true →
        ∃ d, g'.world.handles[db]? = some d ∧ d.mode = some .destr) := by
    refine .bind (keeps_updateHandle fun d' hd' => ?_) fun _ g' _ h => .pure fun _ => ?_
    · rw [hd] at hd'
      cases hd'
      exact hown
    · obtain ⟨d', -, h', -⟩ := h
      exact ⟨_, h', rfl⟩
  split at hok
  · exact hok.elim
  · rename_i hmode
    rw [hmode]
    exact hset (by rw [hok]; rintro a ⟨⟩)
  · rename_i hmode
    rw [hmode]
    exact hset hok
  · rename_i hmode
    rw [hmode]
    exact .bind keeps_misuse fun _ _ _ _ => .pure nofun
  · rename_i hmode
    rw [hmode]
    exact .bind keeps_misuse fun _ _ _ _ => .pure nofun

/-- **The persistent guard** lets through a handle that is in persistent mode
from then on. -/
theorem keeps_rbiWantPersistent :
    g.Keeps (rbiWantPersistent db) (fun ok g' => ok = true →
      ∃ d, g'.world.handles[db]? = some d ∧ d.mode = some .pers) := by
  refine .bind_reads reads_isHandle fun _ _ => .ite
    (fun _ => .bind keeps_misuse fun _ _ _ _ => .pure nofun) (fun _ => ?_)
  refine .bind_reads Session.reads_handleAt fun d hd => ?_
  have hok := g.handle_ok db d (handle_of_handleAt hd)
  rw [HandleOk] at hok
  have hset : g.Keeps (do setMode db .pers; return true) (fun ok g' => ok = true →
      ∃ d, g'.world.handles[db]? = some d ∧ d.mode = some .pers) :=
    .bind keeps_setPers fun _ g' _ ⟨d', _, h'⟩ => .pure fun _ => ⟨_, h', rfl⟩
  rcases hmode : d.mode with _ | mode
  · rw [hmode] at hok
    exact hok.elim
  · cases mode with
    | read => exact .bind keeps_misuse fun _ _ _ _ => .pure nofun
    | free => exact hset
    | destr => exact hset
    | pers => exact hset

/-! ### Sessions -/

/-- The region of an update of nodes of one owner: shared nodes are read
only. -/
def region (g : Ledger K V) (o : Option ℕ) : Region K V where
  start := g.world.heap
  readable a := g.owners[a]? = some o ∨ g.world.heap.nodes.length ≤ a
  writable a := (o ≠ none ∧ g.owners[a]? = some o) ∨ g.world.heap.nodes.length ≤ a
  readable_of_writable := Or.imp_left And.right
  writable_of_new := .inr

/-- Only nodes that are there are owned. -/
theorem owners_lt {o : Option ℕ} {a : ℕ} (h : g.owners[a]? = some o) :
    a < g.world.heap.nodes.length := by
  rw [← g.length_eq]
  exact (List.getElem?_eq_some_iff.mp h).1

/-- A handle in destructive mode owns its root; in persistent mode the root is
shared. -/
def Owns (d : Handle K) (db : ℕ) : Option ℕ → Prop
  | some i => d.mode = some .destr ∧ i = db
  | none => d.mode = some .pers

/-- A handle is in order, where its root is its owner's. -/
theorem handleOk_of_owns {owners : List (Option ℕ)} {o : Option ℕ} {root : Link}
    (ho : Owns d db o) : HandleOk owners db { d with root := root } ↔ OwnedBy owners o root := by
  cases o with
  | none => rw [HandleOk, show d.mode = some .pers from ho]
  | some i =>
    obtain ⟨hm, rfl⟩ := ho
    rw [HandleOk, hm]

/-- **A session in a ledger** starts with the root of its handle. -/
def session (g : Ledger K V) {o : Option ℕ} (hd : g.world.handles[db]? = some d)
    (ho : Owns d db o) : Session (g.region o) g.world.handles db d where
  world := g.world
  respects := by
    refine ⟨Nat.le_refl _, fun a n ha hn => ?_, fun _ _ => rfl, [], by rw [List.append_nil]; rfl,
      by simp⟩
    have ha : g.owners[a]? = some o := ha.resolve_right (Nat.not_le.mpr (Heap.lt_of_get hn))
    have hc := g.closed a n hn
    exact ⟨fun c h => have h := (hc c (.inl h)).trans ha; ⟨.inl h, owners_lt h⟩,
      fun c h => have h := (hc c (.inr h)).trans ha; ⟨.inl h, owners_lt h⟩⟩
  root := d.root
  root_in := fun a ha =>
    have hroot : OwnedBy g.owners o d.root := (handleOk_of_owns ho).mp (g.handle_ok db d hd)
    ⟨.inl (hroot a ha), owners_lt (hroot a ha)⟩
  handles_eq := by
    obtain ⟨hlt, rfl⟩ := List.getElem?_eq_some_iff.mp hd
    exact (List.set_getElem_self hlt).symm
  db_lt := (List.getElem?_eq_some_iff.mp hd).1

/-- The owners at the end of a session: the new nodes have the owner it was
for. -/
def ownersAfter (g : Ledger K V) (o : Option ℕ) (w : World K V) : List (Option ℕ) :=
  g.owners ++ List.replicate (w.heap.nodes.length - g.world.heap.nodes.length) o

/-- The owner of an old node stays. -/
theorem ownersAfter_old {o : Option ℕ} {w : World K V} {a : ℕ}
    (ha : a < g.world.heap.nodes.length) : (g.ownersAfter o w)[a]? = g.owners[a]? := by
  rw [ownersAfter, List.getElem?_append_left (by rwa [g.length_eq])]

/-- So does any other. -/
theorem ownersAfter_mono {o o' : Option ℕ} {w : World K V} {a : ℕ}
    (ha : g.owners[a]? = some o') : (g.ownersAfter o w)[a]? = some o' := by
  rw [ownersAfter_old (owners_lt ha), ha]

/-- What a session may read is of its owner. -/
theorem ownersAfter_of_within {o : Option ℕ} {w : World K V} {h : Link}
    (hh : w.heap.Within (g.region o).readable h) : OwnedBy (g.ownersAfter o w) o h := by
  intro a ha
  obtain ⟨hr | hr, hlt⟩ := hh a ha
  · exact ownersAfter_mono hr
  · rw [ownersAfter, List.getElem?_append_right (by rwa [g.length_eq]),
      List.getElem?_replicate, if_pos (by rw [g.length_eq]; omega)]

/-- A tree stays its owner's. -/
theorem OwnedBy.ownersAfter {o o' : Option ℕ} {w : World K V} {h : Link}
    (hh : OwnedBy g.owners o' h) : OwnedBy (g.ownersAfter o w) o' h :=
  fun a ha => ownersAfter_mono (hh a ha)

/-- A handle stays in order. -/
theorem handleOk_ownersAfter {o : Option ℕ} {w : World K V}
    (h : HandleOk g.owners db d) : HandleOk (g.ownersAfter o w) db d := by
  rw [HandleOk] at h ⊢
  split at h
  · exact h.elim
  · exact h
  · exact OwnedBy.ownersAfter h
  · exact OwnedBy.ownersAfter h
  · exact OwnedBy.ownersAfter h

/-- **The ledger at the end of a session.** -/
def settle (g : Ledger K V) {o : Option ℕ} (ho : Owns d db o)
    (s : Session (g.region o) g.world.handles db d) : Ledger K V where
  world := s.world
  owners := g.ownersAfter o s.world
  length_eq := by
    have hgrow : g.world.heap.nodes.length ≤ s.world.heap.nodes.length := s.respects.grown
    rw [ownersAfter, List.length_append, List.length_replicate, g.length_eq]
    omega
  closed := by
    intro a n hn c hc
    by_cases ha : (g.region o).readable a
    · obtain ⟨hl, hr⟩ := s.respects.closed a n ha hn
      have hself : (g.ownersAfter o s.world)[a]? = some o :=
        ownersAfter_of_within (h := some a)
          (fun b hb => by cases hb; exact ⟨ha, Heap.lt_of_get hn⟩) a rfl
      rw [hself]
      rcases hc with hc | hc
      · exact ownersAfter_of_within hl c hc
      · exact ownersAfter_of_within hr c hc
    · rw [s.respects.frame a fun hw => ha ((g.region o).readable_of_writable hw)] at hn
      have hown := g.closed a n hn c hc
      have hlt := Heap.lt_of_get hn
      have hlt' : a < g.owners.length := by rwa [g.length_eq]
      rw [ownersAfter_old hlt, ← hown]
      rw [List.getElem?_eq_getElem hlt'] at hown
      exact ownersAfter_old (owners_lt hown)
  handle_ok := by
    intro i d' hd'
    rw [s.handles_eq, List.getElem?_set] at hd'
    split at hd'
    · rename_i hi
      subst hi
      rw [if_pos s.db_lt] at hd'
      cases hd'
      exact (handleOk_of_owns ho).mpr (ownersAfter_of_within s.root_in)
    · exact handleOk_ownersAfter (g.handle_ok i d' hd')

/-- **What was written in a region is settled** with the owner of the region. -/
theorem le_settle {o : Option ℕ} {ho : Owns d db o}
    {s : Session (g.region o) g.world.handles db d} : g ≤ g.settle ho s := by
  have hw : ∀ a : ℕ, g.owners[a]? = some none → ¬ (g.region o).writable a := by
    rintro a ha (⟨hne, ho⟩ | hlt)
    · rw [ha] at ho
      exact hne (Option.some.inj ho).symm
    · exact absurd (owners_lt ha) (Nat.not_lt.mpr hlt)
  refine ⟨fun _ ha => ownersAfter_mono ha, fun a ha => s.respects.frame a (hw a ha), ?_⟩
  obtain ⟨l, hl, hmem⟩ := s.respects.logged
  exact ⟨l, hl, fun a ha hs => hw a hs (hmem a ha)⟩

/-- **An update of one handle** that stays in its session keeps the ledger. -/
theorem keeps_session {o : Option ℕ} {m : ApiM K V α} (hd : g.world.handles[db]? = some d)
    (ho : Owns d db o) (hm : (g.session hd ho).Keeps m (fun _ _ => True)) :
    g.Keeps m (fun _ _ => True) := by
  rcases hm.outcomes with ⟨a, s, hrun, -, -⟩ | ⟨e, s, hrun, -⟩
  · exact .of_ok (g.settle ho s) hrun le_settle trivial
  · exact .of_error (g.settle ho s) hrun le_settle

/-- Updates in place stay in the region of their handle. -/
theorem destructive_confined : (destructive : Style K V).Confined (g.region (some db)) :=
  RbCal.destructive_confined fun _ h => h.imp_left fun h => ⟨nofun, h⟩

/-! ### Updates -/

/-- An update behind the destructive guard. -/
theorem keeps_destructive {a : α} {m : ApiM K V α}
    (hm : ∀ (g : Ledger K V) (d : Handle K) (hd : g.world.handles[db]? = some d)
      (ho : Owns d db (some db)), (g.session hd ho).Keeps m (fun _ _ => True)) :
    g.Keeps (do if !(← rbiWantDestructive db) then return a else m) (fun _ _ => True) := by
  refine .bind keeps_rbiWantDestructive fun ok g' _ hok => .ite (fun _ => .pure trivial) fun h => ?_
  obtain ⟨d, hd, hmode⟩ := hok (by simpa using h)
  exact keeps_session (o := some db) hd ⟨hmode, rfl⟩ (hm g' d hd ⟨hmode, rfl⟩)

/-- An update behind the persistent guard. -/
theorem keeps_persistent {a : α} {m : ApiM K V α}
    (hm : ∀ (g : Ledger K V) (d : Handle K) (hd : g.world.handles[db]? = some d)
      (ho : Owns d db none), (g.session hd ho).Keeps m (fun _ _ => True)) :
    g.Keeps (do if !(← rbiWantPersistent db) then return a else m) (fun _ _ => True) := by
  refine .bind keeps_rbiWantPersistent fun ok g' _ hok => .ite (fun _ => .pure trivial) fun h => ?_
  obtain ⟨d, hd, hmode⟩ := hok (by simpa using h)
  exact keeps_session (o := none) hd hmode (hm g' d hd hmode)

section Updates

variable {k : K} {v : V}

theorem keeps_rbPut : g.Keeps (rbPut db k v) (fun _ _ => True) :=
  keeps_destructive fun _ _ _ _ =>
    Session.keeps_put destructive_confined fun _ => .pure trivial

/-- A deletion in place keeps the ledger, where its descent keeps to the region. -/
theorem keeps_deleteDestructive {del : ℕ → Link → Comparator K → CalM K V Link}
    (hdel : ∀ {z : Region K V} {s : z.Reached} {fuel : ℕ} {h : Link} {cmp : Comparator K},
      (destructive : Style K V).Confined z → s.Out h →
        s.Keeps (del fuel h cmp) (fun h' s' => s'.Out h')) :
    g.Keeps (deleteDestructive db del) (fun _ _ => True) := by
  refine keeps_destructive fun g d hd ho => Session.bind_handle ?_
  have hout : (g.session hd ho).reached.Out d.root :=
    Heap.Within.imp (g.session hd ho).root_in fun _ h => h.imp_left fun h => ⟨nofun, h⟩
  refine .bind_reads (Session.reads_onHeap Session.reads_blackChildren) fun c _ => ?_
  refine .ite_skip (B := fun _ s => s.root = d.root) (fun _ => Session.keeps_colorRoot hout)
    (fun _ => rfl) fun s hs _ => ?_
  refine .bind_reads Session.reads_depthBound fun fuel _ => ?_
  exact Session.keeps_delete (hdel destructive_confined (Region.Reached.Out.mono hout hs))

theorem keeps_rbDelete : g.Keeps (rbDelete db k) (fun _ _ => True) :=
  .bind_reads Session.reads_rbContains fun _ _ => .ite (fun _ => .pure trivial) fun _ =>
    keeps_deleteDestructive fun hst => hst.del _

theorem keeps_rbDeleteMin : g.Keeps (rbDeleteMin db) (fun _ _ => True) :=
  .bind_reads Session.reads_handleAt fun _ _ => .ite (fun _ => .pure trivial) fun _ =>
    keeps_deleteDestructive fun hst => hst.delmin _

theorem keeps_rbDeleteMax : g.Keeps (rbDeleteMax db) (fun _ _ => True) :=
  .bind_reads Session.reads_handleAt fun _ _ => .ite (fun _ => .pure trivial) fun _ =>
    keeps_deleteDestructive fun hst => hst.delmax _

theorem keeps_rbFromSorted {v : Option (List (Element K V))} :
    g.Keeps (rbFromSorted db v) (fun _ _ => True) :=
  keeps_destructive fun _ _ _ _ => Session.keeps_fromSorted

/-- The insertion of `rbp_put` and `rbp_set_value`, and the rest. -/
theorem keeps_putPersistent {a b : α} :
    g.Keeps (do
      if !(← rbiWantPersistent db) then return a
      putPersistent db k v
      return b) (fun _ _ => True) := by
  refine keeps_persistent fun g d hd ho => ?_
  rw [putPersistent]
  simp only [Cmd.bind_assoc_run]
  exact Session.keeps_put (copying_confined _) fun _ => .pure trivial

theorem keeps_rbpPut : g.Keeps (rbpPut db k v) (fun _ _ => True) := keeps_putPersistent

theorem keeps_rbpSetValue : g.Keeps (rbpSetValue db k v) (fun _ _ => True) :=
  .bind_reads Session.reads_rbContains fun _ _ => .ite (fun _ => .pure trivial) fun _ =>
    keeps_putPersistent

/-- So does one that copies its path. -/
theorem keeps_deletePersistent {del : ℕ → Link → Comparator K → CalM K V Link}
    (hdel : ∀ {z : Region K V} {s : z.Reached} {fuel : ℕ} {h : Link} {cmp : Comparator K},
      (copying : Style K V).Confined z → s.Out h →
        s.Keeps (del fuel h cmp) (fun h' s' => s'.Out h')) :
    g.Keeps (deletePersistent db del) (fun _ _ => True) := by
  refine keeps_persistent fun g d hd ho => Session.bind_handle ?_
  refine .bind (Session.keeps_onHeap (Region.keeps_rbiCopy (g.session hd ho).root_in))
    fun r s _ hr => ?_
  refine .bind_reads (Session.reads_onHeap Session.reads_blackChildren) fun c _ => ?_
  refine .ite_skip (B := fun _ _ => True)
    (fun _ => (Session.keeps_onHeap (Region.keeps_setColor hr.2.1)).post fun _ _ _ _ => trivial)
    (fun _ => trivial) fun s' hs _ => ?_
  refine .bind_reads Session.reads_depthBound fun fuel _ => ?_
  exact Session.keeps_delete (hdel (copying_confined _) (Region.Reached.Out.mono hr.2.1 hs))

theorem keeps_rbpDelete : g.Keeps (rbpDelete db k) (fun _ _ => True) :=
  .bind_reads Session.reads_rbContains fun _ _ => .ite (fun _ => .pure trivial) fun _ =>
    keeps_deletePersistent fun hst => hst.del _

theorem keeps_rbpDeleteMin : g.Keeps (rbpDeleteMin db) (fun _ _ => True) :=
  .bind_reads Session.reads_handleAt fun _ _ => .ite (fun _ => .pure trivial) fun _ =>
    keeps_deletePersistent fun hst => hst.delmin _

theorem keeps_rbpDeleteMax : g.Keeps (rbpDeleteMax db) (fun _ _ => True) :=
  .bind_reads Session.reads_handleAt fun _ _ => .ite (fun _ => .pure trivial) fun _ =>
    keeps_deletePersistent fun hst => hst.delmax _

/-! ### Handles and snapshots -/

theorem keeps_rbNew {cmp : Comparator K} : g.Keeps (rbNew cmp) (fun _ _ => True) :=
  .ite (fun _ => .bind keeps_misuse fun _ _ _ _ => keeps_makeHandle rfl)
    (fun _ => keeps_makeHandle rfl)

/-- A handle for reading may be made of a tree that nobody owns. -/
theorem keeps_rbFromRoot {root : Link} {cmp : Comparator K} (hr : OwnedBy g.owners none root) :
    g.Keeps (rbFromRoot root cmp) (fun _ _ => True) :=
  keeps_makeHandle hr

theorem keeps_rbpFromRoot {root : Link} {cmp : Comparator K} (hr : OwnedBy g.owners none root) :
    g.Keeps (rbpFromRoot root cmp) (fun _ _ => True) :=
  keeps_makeHandle hr

/-- A handle without a root fits any owners. -/
theorem handleOk_noRoot {owners : List (Option ℕ)} (h : HandleOk owners db d) :
    HandleOk owners db { d with root := none } := by
  have hnone : ∀ o, OwnedBy owners o none := fun _ _ h => nomatch h
  rw [HandleOk] at h
  rw [HandleOk.eq_def]
  dsimp only
  split
  · rename_i hmode
    rw [hmode] at h
    exact h
  · rfl
  · exact hnone _
  · exact hnone _
  · exact hnone _

/-- A tree that is cleared is given up. -/
theorem keeps_rbClear : g.Keeps (rbClear db) (fun _ _ => True) := by
  refine .bind_reads Session.reads_handleAt fun d _ => .ite
    (fun _ => keeps_misuse.post fun _ _ _ _ => trivial) (fun _ => ?_)
  refine .bind (keeps_updateHandle fun d hd => handleOk_noRoot (g.handle_ok db d hd))
    fun _ g' _ ⟨d', _, hd', _⟩ => ?_
  refine .bind_reads Session.reads_handleAt fun _ _ => .ite (fun _ => ?_) (fun _ => .pure trivial)
  refine (keeps_updateHandle fun d'' hd'' => ?_).post fun _ _ _ _ => trivial
  rw [hd'] at hd''
  cases hd''
  rfl

/-- **A snapshot** is shared. -/
theorem keeps_rbpSnapshot :
    g.Keeps (rbpSnapshot db) (fun r g' => OwnedBy g'.owners none r) := by
  have hread {g' : Ledger K V} (h : ∀ d, g'.world.handles[db]? = some d →
      OwnedBy g'.owners none d.root) :
      g'.Keeps (do return (← handleAt db).root) (fun r g' => OwnedBy g'.owners none r) :=
    .bind_reads Session.reads_handleAt fun d hd => .pure (h d (handle_of_handleAt hd))
  refine .bind_reads Session.reads_handleAt fun d hd => ?_
  have hd := handle_of_handleAt hd
  refine .ite (fun _ => .bind keeps_setPers fun _ g' _ ⟨d', _, hd'⟩ => ?_) (fun hmode => ?_)
  · refine hread fun d hd => ?_
    have hok := g'.handle_ok db d hd
    rw [hd'] at hd
    cases hd
    exact hok
  · refine hread fun d' hd' => ?_
    rw [hd] at hd'
    cases hd'
    have hok := g.handle_ok db d hd
    rw [HandleOk] at hok
    split at hok
    · exact hok.elim
    · rw [hok]
      rintro a ⟨⟩
    · rename_i hm
      exact absurd ⟨by rw [hm]; rfl, by rw [hm]; simp⟩ hmode
    · exact hok
    · exact hok

end Updates

/-- Nothing is there at the start. -/
def empty : Ledger K V where
  world := ⟨⟨[], []⟩, [], 0, []⟩
  owners := []
  length_eq := rfl
  closed := fun _ _ h => nomatch h
  handle_ok := fun _ _ h => nomatch h

end Ledger

end RbCal
