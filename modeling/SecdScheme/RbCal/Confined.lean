import SecdScheme.RbCal.Code
import SecdScheme.Lib.CmdGhost

/-!
# rbtree4.cal: what an update writes

An update is confined to a region of the heap: the nodes it may read and,
among them, those it may write. A destructive update may write whatever it
may read, the nodes of its own tree and new ones. A path-copying update reads
the shared nodes and writes new ones only.

One lemma per function, for any style that is confined, says that the
function keeps to its region and returns a writable node; both styles are
confined, each to regions of its own kind.
-/

namespace RbCal

open Llrb (Color)
open Cmd (Follows Reads)

variable {K V : Type}

/-- **What an update may touch**, from the heap it starts in. New nodes may
be written. -/
structure Region (K V : Type) where
  start : Heap K V
  readable : ℕ → Prop
  writable : ℕ → Prop
  readable_of_writable : ∀ {a}, writable a → readable a
  writable_of_new : ∀ {a}, start.nodes.length ≤ a → writable a

/-- A link is empty or leads to a node that satisfies `p`. -/
def Heap.Within (p : ℕ → Prop) (s : Heap K V) (h : Link) : Prop :=
  ∀ a, h = some a → p a ∧ a < s.nodes.length

namespace Heap

variable {p q : ℕ → Prop} {s s' : Heap K V} {h : Link} {a : ℕ} {n : Node K V}

/-- The empty link is within anything. -/
theorem within_none : s.Within p none := fun _ h => nomatch h

theorem Within.imp (hh : s.Within p h) (hpq : ∀ a, p a → q a) : s.Within q h :=
  fun a ha => ⟨hpq a (hh a ha).1, (hh a ha).2⟩

/-- Links stay within, as nodes are added. -/
theorem Within.mono (hh : s.Within p h) (hs : s.nodes.length ≤ s'.nodes.length) :
    s'.Within p h :=
  fun a ha => ⟨(hh a ha).1, Nat.lt_of_lt_of_le (hh a ha).2 hs⟩

/-- A node that was added. -/
theorem get_append (s : Heap K V) (n : Node K V) (l : List ℕ) :
    (⟨s.nodes ++ [n], l⟩ : Heap K V).get a =
      if a = s.nodes.length then some n else s.get a := by
  rw [get, get, List.getElem?_append]
  split
  · rw [if_neg (by omega)]
  · by_cases ha : a = s.nodes.length
    · rw [if_pos ha, ha, Nat.sub_self, List.getElem?_cons_zero]
    · rw [if_neg ha, List.getElem?_eq_none (by simp; omega), List.getElem?_eq_none (by omega)]

/-- A node that was written. -/
theorem get_set (s : Heap K V) (b : ℕ) (n : Node K V) (l : List ℕ) :
    (⟨s.nodes.set b n, l⟩ : Heap K V).get a =
      if b = a ∧ a < s.nodes.length then some n else s.get a := by
  rw [get, get, List.getElem?_set]
  by_cases hb : b = a
  · subst hb
    by_cases hl : b < s.nodes.length
    · rw [if_pos rfl, if_pos hl, if_pos ⟨rfl, hl⟩]
    · rw [if_pos rfl, if_neg hl, if_neg (fun h => hl h.2), List.getElem?_eq_none (by omega)]
  · rw [if_neg hb, if_neg (fun h => hb h.1)]

/-- A node that can be read is there. -/
theorem lt_of_get (h : s.get a = some n) : a < s.nodes.length :=
  (List.getElem?_eq_some_iff.mp h).1

end Heap

namespace Region

variable (z : Region K V)

/-- **A heap reached inside a region**: readable nodes lead to readable
nodes, what is not writable is as it was, and only writable nodes have been
written. -/
structure Respects (s : Heap K V) : Prop where
  grown : z.start.nodes.length ≤ s.nodes.length
  closed : ∀ a n, z.readable a → s.get a = some n →
    s.Within z.readable n.left ∧ s.Within z.readable n.right
  frame : ∀ a, ¬ z.writable a → s.get a = z.start.get a
  logged : ∃ l, s.writes = z.start.writes ++ l ∧ ∀ a ∈ l, z.writable a

/-- A heap reached inside the region. -/
structure Reached where
  heap : Heap K V
  respects : z.Respects heap

instance : Preorder z.Reached where
  le g g' := g.heap.nodes.length ≤ g'.heap.nodes.length
  le_refl g := Nat.le_refl g.heap.nodes.length
  le_trans _ _ _ h h' := Nat.le_trans h h'

variable {z} {g g' : z.Reached} {h h' l l' : Link} {n : Node K V} {a : ℕ}

namespace Reached

/-- The function keeps to the region. -/
abbrev Keeps {α : Type} (g : z.Reached) (m : CalM K V α) (B : α → z.Reached → Prop) : Prop :=
  Follows Reached.heap g m B

/-- A link to a node that may be read. -/
def In (g : z.Reached) (h : Link) : Prop := g.heap.Within z.readable h

/-- A link to a node that may be written. -/
def Out (g : z.Reached) (h : Link) : Prop := g.heap.Within z.writable h

/-- A writable node stays writable. -/
theorem Out.mono (hh : g.Out h) (hg : g ≤ g') : g'.Out h := Heap.Within.mono hh hg

/-- What may be written may be read. -/
theorem Out.toIn (hh : g.Out h) : g.In h := hh.imp fun _ => z.readable_of_writable

theorem in_none : g.In none := Heap.within_none

theorem out_none : g.Out none := Heap.within_none

end Reached

open Reached

/-! ### Reading and writing a node -/

theorem reads_nodeAt : Reads (nodeAt h : CalM K V _) := by
  intro s
  rw [nodeAt]
  split <;> rfl

/-- What was read is the node. -/
theorem get_of_nodeAt {s s' : Heap K V} (hn : nodeAt h s = (.ok n, s')) :
    h.bind s.get = some n := by
  rw [nodeAt] at hn
  split at hn
  · rename_i m hm
    simp only [Prod.mk.injEq, Except.ok.injEq] at hn
    rw [hm, hn.1]
  · simp at hn

/-- The links of a readable node are readable. -/
theorem Reached.In.links (hh : g.In h) (hn : h.bind g.heap.get = some n) :
    g.In n.left ∧ g.In n.right := by
  obtain ⟨a, rfl, ha⟩ := Option.bind_eq_some_iff.mp hn
  exact g.respects.closed a n (hh a rfl).1 ha

/-- A step that reads a node. -/
theorem bind_node {α : Type} {f : Node K V → CalM K V α} {C : α → z.Reached → Prop}
    (hf : ∀ n, h.bind g.heap.get = some n → g.Keeps (f n) C) :
    g.Keeps (nodeAt h >>= f) C :=
  .bind_reads reads_nodeAt fun n hn => hf n (get_of_nodeAt hn)

theorem bind_left {α : Type} {f : Link → CalM K V α} {C : α → z.Reached → Prop}
    (hf : ∀ n, h.bind g.heap.get = some n → g.Keeps (f n.left) C) :
    g.Keeps (left h >>= f) C := by
  rw [left, Cmd.bind_assoc_run]
  exact bind_node hf

theorem bind_right {α : Type} {f : Link → CalM K V α} {C : α → z.Reached → Prop}
    (hf : ∀ n, h.bind g.heap.get = some n → g.Keeps (f n.right) C) :
    g.Keeps (right h >>= f) C := by
  rw [right, Cmd.bind_assoc_run]
  exact bind_node hf

/-- The heap after a new vector. -/
def Reached.push (g : z.Reached) (n : Node K V) (hl : g.In n.left) (hr : g.In n.right) :
    z.Reached where
  heap := { g.heap with nodes := g.heap.nodes ++ [n] }
  respects := by
    have hgrow : g.heap.nodes.length ≤ (g.heap.nodes ++ [n]).length := by simp
    refine ⟨Nat.le_trans g.respects.grown hgrow, fun a m ha hm => ?_, fun a ha => ?_,
      g.respects.logged⟩
    · rw [Heap.get_append] at hm
      split at hm
      · cases hm
        exact ⟨Heap.Within.mono hl hgrow, Heap.Within.mono hr hgrow⟩
      · have h := g.respects.closed a m ha hm
        exact ⟨h.1.mono hgrow, h.2.mono hgrow⟩
    · rw [Heap.get_append, if_neg, g.respects.frame a ha]
      rintro rfl
      exact ha (z.writable_of_new g.respects.grown)

/-- **A new vector** is writable, and the old ones stay. -/
theorem keeps_alloc (hl : g.In n.left) (hr : g.In n.right) :
    g.Keeps (alloc n) (fun h g' => g'.Out h ∧ g'.heap = (g.push n hl hr).heap) := by
  refine ⟨g.push n hl hr, rfl, ?_, ?_, rfl⟩
  · show g.heap.nodes.length ≤ (g.heap.nodes ++ [n]).length
    simp
  · rintro a ⟨⟩
    refine ⟨z.writable_of_new g.respects.grown, ?_⟩
    show g.heap.nodes.length < (g.heap.nodes ++ [n]).length
    simp

/-- The heap after a write to a writable node. -/
def Reached.write (g : z.Reached) (a : ℕ) (n : Node K V) (ha : z.writable a)
    (hl : g.In n.left) (hr : g.In n.right) : z.Reached where
  heap := ⟨g.heap.nodes.set a n, g.heap.writes ++ [a]⟩
  respects := by
    have hgrow : g.heap.nodes.length ≤ (g.heap.nodes.set a n).length := by simp
    refine ⟨Nat.le_trans g.respects.grown hgrow, fun b m hb hm => ?_, fun b hb => ?_, ?_⟩
    · rw [Heap.get_set] at hm
      split at hm
      · cases hm
        exact ⟨Heap.Within.mono hl hgrow, Heap.Within.mono hr hgrow⟩
      · have h := g.respects.closed b m hb hm
        exact ⟨h.1.mono hgrow, h.2.mono hgrow⟩
    · rw [Heap.get_set, if_neg, g.respects.frame b hb]
      rintro ⟨rfl, -⟩
      exact hb ha
    · obtain ⟨l, hw, hmem⟩ := g.respects.logged
      refine ⟨l ++ [a], by rw [hw, List.append_assoc], fun b hb => ?_⟩
      rcases List.mem_append.mp hb with hb | hb
      · exact hmem b hb
      · rw [List.mem_singleton.mp hb]
        exact ha

/-- **A write to a writable node**, of links that may be read. -/
theorem keeps_update {f : Node K V → Node K V} (hh : g.Out h)
    (hf : ∀ n, h.bind g.heap.get = some n → g.In (f n).left ∧ g.In (f n).right) :
    g.Keeps (update h f) (fun _ g' => ∃ a n, h = some a ∧ g.heap.get a = some n ∧
      g'.heap = ⟨g.heap.nodes.set a (f n), g.heap.writes ++ [a]⟩) := by
  rw [Keeps, Follows, update.eq_def]
  cases h with
  | none => exact ⟨g, rfl, le_refl g⟩
  | some a =>
    cases hn : g.heap.get a with
    | none =>
      simp only [hn]
      exact ⟨g, rfl, le_refl g⟩
    | some n =>
      have hlr := hf n hn
      simp only [hn]
      refine ⟨g.write a (f n) (hh a rfl).1 hlr.1 hlr.2, rfl, ?_, a, n, rfl, hn, rfl⟩
      show g.heap.nodes.length ≤ (g.heap.nodes.set a (f n)).length
      simp

/-! ### Links to writable nodes -/

/-- The left link of a node leads to a writable node. -/
def Reached.LeftOut (g : z.Reached) (h : Link) : Prop :=
  ∀ n, h.bind g.heap.get = some n → g.Out n.left

/-- The right link of a node does. -/
def Reached.RightOut (g : z.Reached) (h : Link) : Prop :=
  ∀ n, h.bind g.heap.get = some n → g.Out n.right

/-- The node of a link in a heap where one node was written. -/
theorem node_of_set {s : Heap K V} {b : ℕ} {m : Node K V} {w : List ℕ}
    (hm : h.bind (⟨s.nodes.set b m, w⟩ : Heap K V).get = some n) :
    (h = some b ∧ n = m) ∨ (h ≠ some b ∧ h.bind s.get = some n) := by
  obtain ⟨a, rfl, ha⟩ := Option.bind_eq_some_iff.mp hm
  rw [Heap.get_set] at ha
  split at ha
  · rename_i hb
    exact .inl ⟨by rw [hb.1], by simpa using ha.symm⟩
  · rename_i hb
    refine .inr ⟨?_, ha⟩
    rintro ⟨⟩
    exact hb ⟨rfl, Heap.lt_of_get ha⟩

/-- A write that leaves the links of a node alone. -/
theorem keeps_setData_like {f : Node K V → Node K V} (hh : g.Out h)
    (hl : ∀ n, (f n).left = n.left) (hr : ∀ n, (f n).right = n.right) :
    g.Keeps (update h f) (fun _ g' => ∀ l, (g.LeftOut l → g'.LeftOut l) ∧
      (g.RightOut l → g'.RightOut l)) := by
  refine (keeps_update hh fun n hn => ?_).post ?_
  · rw [hl, hr]
    exact hh.toIn.links hn
  · rintro - g' hg ⟨a, n, rfl, hn, hg'⟩ l
    constructor
    · intro hout m hm
      rw [hg'] at hm
      rcases node_of_set hm with ⟨rfl, rfl⟩ | ⟨-, hm⟩
      · rw [hl]
        exact (hout n hn).mono hg
      · exact (hout m hm).mono hg
    · intro hout m hm
      rw [hg'] at hm
      rcases node_of_set hm with ⟨rfl, rfl⟩ | ⟨-, hm⟩
      · rw [hr]
        exact (hout n hn).mono hg
      · exact (hout m hm).mono hg

/-- A color changes no link. -/
theorem keeps_setColor {c : Color} (hh : g.Out h) :
    g.Keeps (setColor h c) (fun _ g' => ∀ l, (g.LeftOut l → g'.LeftOut l) ∧
      (g.RightOut l → g'.RightOut l)) :=
  keeps_setData_like hh (fun _ => rfl) (fun _ => rfl)

/-- A left link may be set to what may be read. -/
theorem keeps_setLeft (hh : g.Out h) (hl : g.In l) :
    g.Keeps (setLeft h l) (fun _ g' => (g.Out l → g'.LeftOut h) ∧
      (g.RightOut h → g'.RightOut h)) := by
  refine (keeps_update (f := fun n => { n with left := l }) hh
    fun n hn => ⟨hl, (hh.toIn.links hn).2⟩).post ?_
  rintro - g' hg ⟨a, n, rfl, hn, hg'⟩
  constructor
  · intro hout m hm
    rw [hg'] at hm
    rcases node_of_set hm with ⟨-, rfl⟩ | ⟨hne, -⟩
    · exact hout.mono hg
    · exact absurd rfl hne
  · intro hout m hm
    rw [hg'] at hm
    rcases node_of_set hm with ⟨-, rfl⟩ | ⟨hne, -⟩
    · exact (hout n hn).mono hg
    · exact absurd rfl hne

/-- So may a right one. -/
theorem keeps_setRight (hh : g.Out h) (hl : g.In l) :
    g.Keeps (setRight h l) (fun _ g' => (g.Out l → g'.RightOut h) ∧
      (g.LeftOut h → g'.LeftOut h)) := by
  refine (keeps_update (f := fun n => { n with right := l }) hh
    fun n hn => ⟨(hh.toIn.links hn).1, hl⟩).post ?_
  rintro - g' hg ⟨a, n, rfl, hn, hg'⟩
  constructor
  · intro hout m hm
    rw [hg'] at hm
    rcases node_of_set hm with ⟨-, rfl⟩ | ⟨hne, -⟩
    · exact hout.mono hg
    · exact absurd rfl hne
  · intro hout m hm
    rw [hg'] at hm
    rcases node_of_set hm with ⟨-, rfl⟩ | ⟨hne, -⟩
    · exact (hout n hn).mono hg
    · exact absurd rfl hne

/-! ### Functions that read -/

theorem reads_left : Reads (left h : CalM K V _) := reads_nodeAt.bind fun _ => .pure

theorem reads_right : Reads (right h : CalM K V _) := reads_nodeAt.bind fun _ => .pure

theorem reads_color : Reads (color h : CalM K V _) := reads_nodeAt.bind fun _ => .pure

theorem reads_key : Reads (key h : CalM K V _) := reads_nodeAt.bind fun _ => .pure

theorem reads_data : Reads (data h : CalM K V _) := reads_nodeAt.bind fun _ => .pure

theorem reads_size : Reads (size h : CalM K V _) := reads_nodeAt.bind fun _ => .pure

theorem reads_rbiColor : Reads (rbiColor h : CalM K V _) := .ite reads_color .pure

theorem reads_rbiSize : Reads (rbiSize h : CalM K V _) := .ite reads_size .pure

theorem reads_isColor {c : Color} : Reads (isColor c h : CalM K V _) :=
  reads_rbiColor.bind fun _ => .pure

theorem reads_compareKeys {cmp : Comparator K} {j k : K} :
    Reads (compareKeys cmp j k : CalM K V _) := by
  rw [compareKeys.eq_def]
  split
  · exact .fail
  · exact .ofExcept

theorem reads_andM {b c : CalM K V Bool} (hb : Reads b) (hc : Reads c) : Reads (andM b c) :=
  hb.bind fun _ => .ite hc .pure

/-! ### Copies, sizes and rotations -/

/-- A copy is writable; the nodes there were keep their links. -/
theorem keeps_rbiCopy (hh : g.In h) :
    g.Keeps (rbiCopy h) (fun h' g' => g'.Out h' ∧ ∀ l, g.In l →
      (g.LeftOut l → g'.LeftOut l) ∧ (g.RightOut l → g'.RightOut l)) := by
  refine bind_node fun n hn => ?_
  have hlr := hh.links hn
  refine (keeps_alloc hlr.1 hlr.2).post fun h' g' hg h => ⟨h.1, fun l hl => ?_⟩
  have hget : ∀ m, l.bind g'.heap.get = some m → l.bind g.heap.get = some m := by
    intro m hm
    obtain ⟨a, rfl, ha⟩ := Option.bind_eq_some_iff.mp hm
    rw [h.2] at ha
    change (⟨g.heap.nodes ++ [n], g.heap.writes⟩ : Heap K V).get a = some m at ha
    rw [Heap.get_append, if_neg (Nat.ne_of_lt (hl a rfl).2)] at ha
    exact ha
  exact ⟨fun hout m hm => (hout m (hget m hm)).mono hg,
    fun hout m hm => (hout m (hget m hm)).mono hg⟩

/-- The size of a writable node may be set. -/
theorem keeps_rbiFixsize (hh : g.Out h) : g.Keeps (rbiFixsize h) (fun h' g' => g'.Out h') := by
  refine bind_left fun _ _ => .bind_reads reads_rbiSize fun _ _ => ?_
  refine bind_right fun _ _ => .bind_reads reads_rbiSize fun _ _ => ?_
  refine .bind (keeps_setData_like hh (fun _ => rfl) (fun _ => rfl)) fun _ _ hg _ => ?_
  exact .pure (hh.mono hg)

/-- **The body of a rotation** writes the two nodes it is about. -/
theorem keeps_raiseRight (hh : g.Out h) (hl : g.Out l) :
    g.Keeps (raiseRight h l) (fun h' g' => g'.Out h') := by
  refine bind_left fun n hn => ?_
  refine .bind (keeps_setRight hh (hl.toIn.links hn).1) fun _ g₁ h₁ _ => ?_
  replace hh := hh.mono h₁
  replace hl := hl.mono h₁
  refine .bind (keeps_setLeft hl hh.toIn) fun _ g₂ h₂ _ => .bind_reads reads_color fun _ _ => ?_
  refine .bind (keeps_setColor (hl.mono h₂)) fun _ g₃ h₃ _ => ?_
  replace hh := (hh.mono h₂).mono h₃
  replace hl := (hl.mono h₂).mono h₃
  refine .bind (keeps_setColor hh) fun _ g₄ h₄ _ => .bind_reads reads_size fun _ _ => ?_
  refine .bind (keeps_setData_like (hl.mono h₄) (fun _ => rfl) (fun _ => rfl))
    fun _ g₅ h₅ _ => ?_
  refine .bind (keeps_rbiFixsize ((hh.mono h₄).mono h₅)) fun _ g₆ h₆ _ => ?_
  exact .pure (((hl.mono h₄).mono h₅).mono h₆)

/-- A rotation of two writable nodes. -/
theorem keeps_raiseLeft (hh : g.Out h) (hl : g.Out l) :
    g.Keeps (raiseLeft h l) (fun h' g' => g'.Out h') := by
  refine bind_right fun n hn => ?_
  refine .bind (keeps_setLeft hh (hl.toIn.links hn).2) fun _ g₁ h₁ _ => ?_
  replace hh := hh.mono h₁
  replace hl := hl.mono h₁
  refine .bind (keeps_setRight hl hh.toIn) fun _ g₂ h₂ _ => .bind_reads reads_color fun _ _ => ?_
  refine .bind (keeps_setColor (hl.mono h₂)) fun _ g₃ h₃ _ => ?_
  replace hh := (hh.mono h₂).mono h₃
  replace hl := (hl.mono h₂).mono h₃
  refine .bind (keeps_setColor hh) fun _ g₄ h₄ _ => .bind_reads reads_size fun _ _ => ?_
  refine .bind (keeps_setData_like (hl.mono h₄) (fun _ => rfl) (fun _ => rfl))
    fun _ g₅ h₅ _ => ?_
  refine .bind (keeps_rbiFixsize ((hh.mono h₄).mono h₅)) fun _ g₆ h₆ _ => ?_
  exact .pure (((hl.mono h₄).mono h₅).mono h₆)

/-- A flip of a node with writable children. -/
theorem keeps_rbiFlip (hh : g.Out h) (hl : g.LeftOut h) (hr : g.RightOut h) :
    g.Keeps (rbiFlip h) (fun _ g' => g'.LeftOut h ∧ g'.RightOut h) := by
  refine .bind_reads reads_color fun _ _ => .bind (keeps_setColor hh) fun _ g₁ h₁ k₁ => ?_
  replace hl := (k₁ h).1 hl
  replace hr := (k₁ h).2 hr
  refine bind_left fun n hn => bind_left fun _ _ => .bind_reads reads_color fun _ _ => ?_
  refine .bind (keeps_setColor (hl n hn)) fun _ g₂ h₂ k₂ => ?_
  replace hl := (k₂ h).1 hl
  replace hr := (k₂ h).2 hr
  refine bind_right fun n hn => bind_right fun _ _ => .bind_reads reads_color fun _ _ => ?_
  exact (keeps_setColor (hr n hn)).post fun _ g₃ h₃ k₃ => ⟨(k₃ h).1 hl, (k₃ h).2 hr⟩

/-- The path-copying flip copies both children first. -/
theorem keeps_rbiPflip (hh : g.Out h) :
    g.Keeps (rbiPflip h) (fun _ g' => g'.LeftOut h ∧ g'.RightOut h) := by
  refine bind_left fun n hn => .bind (keeps_rbiCopy (hh.toIn.links hn).1) fun l g₁ h₁ k₁ => ?_
  refine .bind (keeps_setLeft (hh.mono h₁) k₁.1.toIn) fun _ g₂ h₂ k₂ => ?_
  replace hh := (hh.mono h₁).mono h₂
  have hl := k₂.1 k₁.1
  refine bind_right fun n hn => .bind (keeps_rbiCopy (hh.toIn.links hn).2) fun r g₃ h₃ k₃ => ?_
  replace hl := (k₃.2 h hh.toIn).1 hl
  refine .bind (keeps_setRight (hh.mono h₃) k₃.1.toIn) fun _ g₄ h₄ k₄ => ?_
  exact keeps_rbiFlip ((hh.mono h₃).mono h₄) (k₄.2 hl) (k₄.1 k₃.1)

end Region

/-! ## Confined styles -/

open Region Region.Reached

/-- **A style is confined to a region**: entering a readable node gives a
writable one, rotations and flips of writable nodes write writable nodes, and
a flip leaves writable children. -/
structure Style.Confined (st : Style K V) (z : Region K V) : Prop where
  enter : ∀ {g : z.Reached} {h : Link}, g.In h → g.Keeps (st.enter h) (fun h' g' => g'.Out h')
  rotLeft : ∀ {g : z.Reached} {h : Link}, g.Out h →
    g.Keeps (st.rotLeft h) (fun h' g' => g'.Out h')
  rotRight : ∀ {g : z.Reached} {h : Link}, g.Out h →
    g.Keeps (st.rotRight h) (fun h' g' => g'.Out h')
  flip : ∀ {g : z.Reached} {h : Link}, g.Out h →
    g.Keeps (st.flip h) (fun _ g' => g'.LeftOut h ∧ g'.RightOut h)

/-- **The destructive functions** are confined to a region in which all that
may be read may be written. -/
theorem destructive_confined {z : Region K V} (hz : ∀ a, z.readable a → z.writable a) :
    (destructive : Style K V).Confined z where
  enter hh := .pure (hh.imp hz)
  rotLeft hh := bind_right fun _ hn =>
    keeps_raiseRight hh (Heap.Within.imp (hh.toIn.links hn).2 hz)
  rotRight hh := bind_left fun _ hn =>
    keeps_raiseLeft hh (Heap.Within.imp (hh.toIn.links hn).1 hz)
  flip hh := keeps_rbiFlip hh (fun _ hn => Heap.Within.imp (hh.toIn.links hn).1 hz)
    (fun _ hn => Heap.Within.imp (hh.toIn.links hn).2 hz)

/-- **The path-copying functions** are confined to any region. -/
theorem copying_confined (z : Region K V) : (copying : Style K V).Confined z where
  enter hh := (keeps_rbiCopy hh).post fun _ _ _ h => h.1
  rotLeft hh := bind_right fun _ hn => .bind (keeps_rbiCopy (hh.toIn.links hn).2)
    fun _ _ hg hl => keeps_raiseRight (hh.mono hg) hl.1
  rotRight hh := bind_left fun _ hn => .bind (keeps_rbiCopy (hh.toIn.links hn).1)
    fun _ _ hg hl => keeps_raiseLeft (hh.mono hg) hl.1
  flip hh := keeps_rbiPflip hh

end RbCal
