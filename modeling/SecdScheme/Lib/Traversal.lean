import Mathlib.Data.Finset.Card
import Mathlib.Data.List.Basic

/-!
# Traversals with a record

A program that goes through a graph with cycles keeps a record of where it is:
it enters what it is about to go into and takes it back when it comes out. Here
is what such programs rest on: entries that are taken back in the end, a count of
what has not been entered, by which the program ends, and computations on a bound
for their recursion that return when the bound is large enough.
-/

namespace Traversal

/-! ## Entries that are taken back -/

section Record

variable {E K : Type} [BEq K] (key : E → K)

/-- The record without its first entry of a key. -/
def eraseKey (l : List E) (k : K) : List E := l.eraseP fun e => key e == k

/-- **The keys of a list have been entered**, and when they are taken back, one
after the other, the record is what it was. -/
structure Unwinds (ks : List K) (l l₀ : List E) : Prop where
  entered : ∀ k ∈ ks, ∃ e ∈ l, key e = k
  erased : ks.foldl (eraseKey key) l = l₀

variable {key} {ks : List K} {l l₀ : List E} {e : E} {k : K}

theorem Unwinds.nil (l : List E) : Unwinds key [] l l :=
  ⟨fun _ hk => absurd hk List.not_mem_nil, rfl⟩

variable [LawfulBEq K]

theorem eraseKey_cons_self (l : List E) (e : E) : eraseKey key (e :: l) (key e) = l :=
  List.eraseP_cons_of_pos (beq_self_eq_true (key e))

theorem eraseKey_cons_ne (h : key e ≠ k) :
    eraseKey key (e :: l) k = e :: eraseKey key l k :=
  List.eraseP_cons_of_neg (by simpa using h)

theorem foldl_eraseKey_cons (h : key e ∉ ks) :
    ks.foldl (eraseKey key) (e :: l) = e :: ks.foldl (eraseKey key) l := by
  induction ks generalizing l with
  | nil => rfl
  | cons k ks ih =>
    rw [List.foldl_cons, eraseKey_cons_ne (List.ne_of_not_mem_cons h),
      ih (List.not_mem_of_not_mem_cons h), List.foldl_cons]

/-- An entry with a new key. -/
theorem Unwinds.cons (h : Unwinds key ks l l₀) (hnew : ∀ x ∈ l, key x ≠ key e) :
    Unwinds key (ks ++ [key e]) (e :: l) l₀ := by
  have hks : key e ∉ ks := fun hmem => by
    obtain ⟨x, hx, hkey⟩ := h.entered (key e) hmem
    exact hnew x hx hkey
  constructor
  · intro k hk
    obtain hk | hk := List.mem_append.mp hk
    · obtain ⟨x, hx, hkey⟩ := h.entered k hk
      exact ⟨x, List.mem_cons_of_mem e hx, hkey⟩
    · exact ⟨e, List.mem_cons_self, (List.mem_singleton.mp hk).symm⟩
  · rw [List.foldl_append, foldl_eraseKey_cons hks, h.erased]
    exact eraseKey_cons_self l₀ e

end Record

/-! ## What has not been entered -/

/-- Fewer have a property that is stronger, and that one of them has lost. -/
theorem card_filter_lt {V : Type} {s : Finset V} {p q : V → Prop} [DecidablePred p]
    [DecidablePred q] (hqp : ∀ x, q x → p x) {a : V} (ha : a ∈ s) (hp : p a) (hq : ¬ q a) :
    (s.filter q).card < (s.filter p).card := by
  refine Finset.card_lt_card (Finset.ssubset_iff_of_subset ?_ |>.mpr ⟨a, ?_, ?_⟩)
  · intro x hx
    obtain ⟨hxs, hqx⟩ := Finset.mem_filter.mp hx
    exact Finset.mem_filter.mpr ⟨hxs, hqp x hqx⟩
  · exact Finset.mem_filter.mpr ⟨ha, hp⟩
  · exact fun h => hq (Finset.mem_filter.mp h).2

/-! ## Bounds of a recursion -/

/-- **A computation returns** when its bound is large enough. -/
def Returns {α : Type} (f : ℕ → Option α) : Prop := ∃ bound, ∀ fuel ≥ bound, ∃ a, f fuel = some a

variable {α β γ : Type} {f : ℕ → Option α} {g : ℕ → Option β}

theorem returns_some (a : α) : Returns fun _ => some a := ⟨0, fun _ _ => ⟨a, rfl⟩⟩

theorem Returns.of_succ (h : Returns fun fuel => f (fuel + 1)) : Returns f := by
  obtain ⟨bound, h⟩ := h
  refine ⟨bound + 1, fun fuel hfuel => ?_⟩
  obtain ⟨fuel, rfl⟩ := Nat.exists_eq_add_of_le' (Nat.le_of_add_left_le hfuel)
  exact h fuel (Nat.le_of_succ_le_succ hfuel)

/-- One computation and then, perhaps, another one. -/
theorem Returns.andThen (hf : Returns f) (hg : Returns g) (k : α → Option β → Option γ)
    (hk : ∀ a b, ∃ c, k a (some b) = some c) :
    Returns fun fuel => (f fuel).bind fun a => k a (g fuel) := by
  obtain ⟨m, hf⟩ := hf
  obtain ⟨n, hg⟩ := hg
  refine ⟨max m n, fun fuel hfuel => ?_⟩
  obtain ⟨a, ha⟩ := hf fuel (le_of_max_le_left hfuel)
  obtain ⟨b, hb⟩ := hg fuel (le_of_max_le_right hfuel)
  dsimp only
  rw [ha, hb]
  exact hk a b

theorem Returns.map (hf : Returns f) (h : α → β) :
    Returns fun fuel => (f fuel).bind fun a => some (h a) :=
  hf.andThen (returns_some ()) (fun a _ => some (h a)) fun a _ => ⟨h a, rfl⟩

end Traversal
