import Mathlib.Data.List.Basic
import Mathlib.Tactic.Common

/-!
# Side by side in a heap

Things of one kind that lie in a heap, each in cells of its own. A change to one
of them, or a new one, concerns no other, as long as it takes only its own cells
and new ones.
-/

namespace SideBySide

/-- A heap: its cells are numbered, and new ones come at the end. -/
structure Memory (H C : Type) where
  size : H → ℕ
  cell : H → ℕ → C

variable {H C R : Type} {M : Memory H C}

/-- **What a change leaves alone**: the cells there were, but for some. -/
structure Spares (M : Memory H C) (fp : List ℕ) (h h' : H) : Prop where
  size : M.size h ≤ M.size h'
  cell : ∀ a < M.size h, a ∉ fp → M.cell h' a = M.cell h a

theorem Spares.refl (fp : List ℕ) (h : H) : Spares M fp h h := ⟨Nat.le_refl _, fun _ _ _ => rfl⟩

/-- **Things that lie in a heap**: where they lie depends on their own cells
only. -/
structure Layout (M : Memory H C) (R : Type) where
  footprint : R → List ℕ
  At : R → H → Prop
  lt_size : ∀ {r h}, At r h → ∀ a ∈ footprint r, a < M.size h
  mono : ∀ {r h h'}, At r h → (∀ a ∈ footprint r, M.cell h' a = M.cell h a) → At r h'

/-- **Side by side**: all of them lie in the heap, and no two share a cell. -/
structure Apart (L : Layout M R) (rs : List R) (h : H) : Prop where
  holds : ∀ {i : ℕ} {r : R}, rs[i]? = some r → L.At r h
  apart : ∀ {i j : ℕ} {r r' : R}, rs[i]? = some r → rs[j]? = some r' → i ≠ j →
    ∀ a ∈ L.footprint r, a ∉ L.footprint r'

namespace Apart

variable {L : Layout M R} {rs : List R} {h h' : H} {i : ℕ} {r r' : R}

theorem nil (h : H) : Apart L [] h := ⟨fun hr => (by cases hr), fun hr _ _ _ _ => (by cases hr)⟩

/-- No cell changes. -/
theorem mono (hs : Apart L rs h) (hcell : ∀ a, M.cell h' a = M.cell h a) : Apart L rs h' :=
  ⟨fun hr => L.mono (hs.holds hr) fun a _ => hcell a, hs.apart⟩

/-- **One of them changes**, and takes no cells but its own and new ones. -/
theorem set (hs : Apart L rs h) (hr : rs[i]? = some r) (hr' : L.At r' h')
    (hspares : Spares M (L.footprint r) h h')
    (hfoot : ∀ a ∈ L.footprint r', a ∈ L.footprint r ∨ M.size h ≤ a) :
    Apart L (rs.set i r') h' := by
  have hlt : i < rs.length := (List.getElem?_eq_some_iff.mp hr).1
  have hother : ∀ {j t}, rs[j]? = some t → i ≠ j → ∀ a ∈ L.footprint t, a ∉ L.footprint r' := by
    intro j t ht hij a ha ha'
    rcases hfoot a ha' with hin | hnew
    · exact hs.apart ht hr (Ne.symm hij) a ha hin
    · exact absurd (L.lt_size (hs.holds ht) a ha) (Nat.not_lt.mpr hnew)
  constructor
  · intro j t ht
    by_cases hij : i = j
    · subst hij
      rw [List.getElem?_set_self hlt] at ht
      cases ht
      exact hr'
    · rw [List.getElem?_set_ne hij] at ht
      exact L.mono (hs.holds ht) fun a ha =>
        hspares.cell a (L.lt_size (hs.holds ht) a ha) (hs.apart ht hr (Ne.symm hij) a ha)
  · intro j k t u ht hu hjk a ha ha'
    by_cases hij : i = j
    · subst hij
      rw [List.getElem?_set_self hlt] at ht
      rw [List.getElem?_set_ne hjk] at hu
      cases ht
      exact hother hu hjk a ha' ha
    · rw [List.getElem?_set_ne hij] at ht
      by_cases hik : i = k
      · subst hik
        rw [List.getElem?_set_self hlt] at hu
        cases hu
        exact hother ht hij a ha ha'
      · rw [List.getElem?_set_ne hik] at hu
        exact hs.apart ht hu hjk a ha ha'

/-- **A new one** beside those there are. -/
theorem snoc (hs : Apart L rs h) (hr : L.At r h') (hspares : Spares M [] h h')
    (hfoot : ∀ a ∈ L.footprint r, M.size h ≤ a) : Apart L (rs ++ [r]) h' := by
  have hnew : ∀ {j t}, (rs ++ [r])[j]? = some t → rs[j]? = some t ∨ (j = rs.length ∧ t = r) := by
    intro j t ht
    by_cases hj : j < rs.length
    · rw [List.getElem?_append_left hj] at ht
      exact .inl ht
    · have hlt := (List.getElem?_eq_some_iff.mp ht).1
      rw [List.length_append, List.length_singleton] at hlt
      obtain rfl : j = rs.length := by omega
      rw [List.getElem?_concat_length] at ht
      cases ht
      exact .inr ⟨rfl, rfl⟩
  have hold : ∀ {j : ℕ} {t : R}, rs[j]? = some t → ∀ a ∈ L.footprint t, a ∉ L.footprint r :=
    fun ht a ha ha' => absurd (L.lt_size (hs.holds ht) a ha) (Nat.not_lt.mpr (hfoot a ha'))
  constructor
  · intro j t ht
    rcases hnew ht with ht | ⟨-, rfl⟩
    · exact L.mono (hs.holds ht) fun a ha =>
        hspares.cell a (L.lt_size (hs.holds ht) a ha) (fun h => by cases h)
    · exact hr
  · intro j k t u ht hu hjk a ha ha'
    rcases hnew ht with ht' | ⟨hj, rfl⟩
    · rcases hnew hu with hu' | ⟨-, rfl⟩
      · exact hs.apart ht' hu' hjk a ha ha'
      · exact hold ht' a ha ha'
    · rcases hnew hu with hu' | ⟨hk, -⟩
      · exact hold hu' a ha' ha
      · exact hjk (hj.trans hk.symm)

end Apart

end SideBySide
