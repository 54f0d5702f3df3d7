import Mathlib.Data.List.Forall2
import Mathlib.Logic.Relation

/-!
# Unfoldings of graphs

A graph is given by the label and the list of children of each node. What a
node unfolds to is a tree, infinite where a cycle is in reach; two nodes unfold
alike when their trees agree down to every depth, which is when a bisimulation
relates them. The last section is about the nodes that no cycle is in reach of.
-/

namespace Unfolding

variable {V L : Type} (label : V → L) (children : V → List V)

/-- The trees of two nodes agree down to a depth. -/
def AlikeTo : ℕ → V → V → Prop
  | 0, _, _ => True
  | n + 1, a, b => label a = label b ∧ List.Forall₂ (AlikeTo n) (children a) (children b)

/-- **A bisimulation** relates nodes with one label whose children it relates one
by one. -/
def IsBisimulation (R : V → V → Prop) : Prop :=
  ∀ a b, R a b → label a = label b ∧ List.Forall₂ R (children a) (children b)

/-- **Two nodes unfold alike.** -/
def Alike (a b : V) : Prop := ∃ R, IsBisimulation label children R ∧ R a b

/-- From a node to one of its children. -/
def Edge (a b : V) : Prop := b ∈ children a

/-- **No cycle is in reach of a node.** -/
def Acyclic (a : V) : Prop :=
  ∀ x, Relation.ReflTransGen (Edge children) a x → ¬ Relation.TransGen (Edge children) x x

variable {label children} {a b c : V} {n : ℕ}

/-! ## Depths -/

theorem alikeTo_refl (n : ℕ) (a : V) : AlikeTo label children n a a := by
  induction n generalizing a with
  | zero => trivial
  | succ n ih => exact ⟨rfl, List.forall₂_same.mpr fun x _ => ih x⟩

theorem AlikeTo.of_succ (h : AlikeTo label children (n + 1) a b) :
    AlikeTo label children n a b := by
  induction n generalizing a b with
  | zero => trivial
  | succ n ih => exact ⟨h.1, h.2.imp fun _ _ hxy => ih hxy⟩

/-- Lists that are related by each of a family of relations are related by all of
them together. -/
theorem forall₂_forall {α β : Type} {R : ℕ → α → β → Prop} {xs : List α} {ys : List β}
    (h : ∀ n, List.Forall₂ (R n) xs ys) : List.Forall₂ (fun x y => ∀ n, R n x y) xs ys := by
  induction xs generalizing ys with
  | nil =>
    cases h 0
    exact .nil
  | cons x xs ih =>
    cases ys with
    | nil => cases h 0
    | cons y ys =>
      have hcons : ∀ n, R n x y ∧ List.Forall₂ (R n) xs ys := fun n => List.forall₂_cons.mp (h n)
      exact .cons (fun n => (hcons n).1) (ih fun n => (hcons n).2)

/-- **To unfold alike** is to agree down to every depth. -/
theorem alike_iff : Alike label children a b ↔ ∀ n, AlikeTo label children n a b := by
  constructor
  · rintro ⟨R, hR, hab⟩ n
    induction n generalizing a b with
    | zero => trivial
    | succ n ih =>
      obtain ⟨hlabel, hchildren⟩ := hR a b hab
      exact ⟨hlabel, hchildren.imp fun _ _ hxy => ih hxy⟩
  · refine fun h => ⟨fun a b => ∀ n, AlikeTo label children n a b, fun a b hab => ?_, h⟩
    exact ⟨(hab 1).1, forall₂_forall fun n => (hab (n + 1)).2⟩

theorem Alike.label_eq (h : Alike label children a b) : label a = label b :=
  (alike_iff.mp h 1).1

theorem Alike.forall₂ (h : Alike label children a b) :
    List.Forall₂ (Alike label children) (children a) (children b) := by
  obtain ⟨R, hR, hab⟩ := h
  exact (hR a b hab).2.imp fun x y hxy => ⟨R, hR, hxy⟩

/-! ## Nodes without cycles -/

/-- Nothing of a path is in reach of a node, and no cycle. -/
def Clear (children : V → List V) (path : List V) (a : V) : Prop :=
  (∀ x, Relation.ReflTransGen (Edge children) a x → x ∉ path) ∧ Acyclic children a

theorem Acyclic.of_edge (h : Acyclic children a) (hb : Edge children a b) : Acyclic children b :=
  fun x hx => h x (.head hb hx)

/-- A node that is reached from itself has a cycle in reach. -/
theorem Acyclic.not_self (h : Acyclic children a) : ¬ Relation.TransGen (Edge children) a a :=
  h a .refl

theorem clear_nil : Clear children [] a ↔ Acyclic children a :=
  ⟨fun h => h.2, fun h => ⟨fun _ _ => List.not_mem_nil, h⟩⟩

/-- **A node is clear of a path** when it is not on it and its children are clear of
the path on from the node. -/
theorem clear_iff {path : List V} :
    Clear children path a ↔ a ∉ path ∧ ∀ b ∈ children a, Clear children (a :: path) b := by
  constructor
  · rintro ⟨hpath, hacyclic⟩
    refine ⟨hpath a .refl, fun b hb => ⟨fun x hx => ?_, hacyclic.of_edge hb⟩⟩
    rw [List.mem_cons, not_or]
    refine ⟨?_, hpath x (.head hb hx)⟩
    rintro rfl
    exact hacyclic.not_self (.head' hb hx)
  · rintro ⟨ha, hchildren⟩
    constructor
    · intro x hx
      rcases hx.cases_head with rfl | ⟨b, hb, hx⟩
      · exact ha
      · exact List.not_mem_of_not_mem_cons ((hchildren b hb).1 x hx)
    · intro x hx hcycle
      rcases hx.cases_head with rfl | ⟨b, hb, hx⟩
      · obtain ⟨b, hb, hback⟩ := Relation.TransGen.head'_iff.mp hcycle
        exact (hchildren b hb).1 a hback List.mem_cons_self
      · exact (hchildren b hb).2 x hx hcycle

/-- The same with the path as it is: a cycle through a node is in reach of one of
its children. -/
theorem clear_iff_of_same {path : List V} :
    Clear children path a ↔ a ∉ path ∧ ∀ b ∈ children a, Clear children path b := by
  constructor
  · rintro ⟨hpath, hacyclic⟩
    exact ⟨hpath a .refl, fun b hb => ⟨fun x hx => hpath x (.head hb hx), hacyclic.of_edge hb⟩⟩
  · rintro ⟨ha, hchildren⟩
    constructor
    · intro x hx
      rcases hx.cases_head with rfl | ⟨b, hb, hx⟩
      · exact ha
      · exact (hchildren b hb).1 x hx
    · intro x hx hcycle
      rcases hx.cases_head with rfl | ⟨b, hb, hx⟩
      · obtain ⟨b, hb, hback⟩ := Relation.TransGen.head'_iff.mp hcycle
        exact (hchildren b hb).2 b .refl (.tail' hback hb)
      · exact (hchildren b hb).2 x hx hcycle

end Unfolding
