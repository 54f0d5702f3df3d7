import Mathlib.Data.List.Basic
import Mathlib.Data.List.Pairwise
import Mathlib.Order.Basic

/-!
# Sorted association lists

An ordered map is seen through the list of its entries in increasing order
of the keys. The order is a three-way comparison `ord : K → K → Ordering`
that is only required to behave on a domain `Dom` of keys, since a
comparator supplied by a caller may say nothing outside the keys it was
written for.

`KeyOrder ord Dom` is that requirement. `insertSorted`, `eraseKey` and
`lookup` are the three operations, and each comes with the two facts a
binary search tree needs of it: how it goes through
`l₁ ++ (k', d') :: l₂` when the key lies on one side of `k'`, and what a
`lookup` answers afterwards.
-/

namespace SortedAssoc

variable {K D : Type}

/-- **A three-way comparison is a strict total order on a domain of keys.**
It answers `eq` exactly on identical keys. -/
structure KeyOrder (ord : K → K → Ordering) (Dom : K → Prop) : Prop where
  eq_iff : ∀ {a b}, Dom a → Dom b → (ord a b = .eq ↔ a = b)
  gt_iff : ∀ {a b}, Dom a → Dom b → (ord a b = .gt ↔ ord b a = .lt)
  trans : ∀ {a b c}, Dom a → Dom b → Dom c →
    ord a b = .lt → ord b c = .lt → ord a c = .lt

namespace KeyOrder

variable {ord : K → K → Ordering} {Dom : K → Prop}

theorem refl (ho : KeyOrder ord Dom) {a : K} (ha : Dom a) : ord a a = .eq :=
  (ho.eq_iff ha ha).mpr rfl

/-- Whatever lies above `b` lies above everything below `b`. -/
theorem gt_of_lt_of_not_lt (ho : KeyOrder ord Dom) {k a b : K} (hk : Dom k)
    (ha : Dom a) (hb : Dom b) (hab : ord a b = .lt) (hkb : ord k b ≠ .lt) :
    ord k a = .gt := by
  rw [ho.gt_iff hk ha]
  cases hc : ord k b with
  | lt => exact absurd hc hkb
  | eq => rwa [(ho.eq_iff hk hb).mp hc]
  | gt => exact ho.trans ha hb hk hab ((ho.gt_iff hk hb).mp hc)

/-- Whatever lies at or below `b` lies below everything above `b`. -/
theorem lt_of_not_gt_of_lt (ho : KeyOrder ord Dom) {k a b : K} (hk : Dom k)
    (ha : Dom a) (hb : Dom b) (hkb : ord k b ≠ .gt) (hba : ord b a = .lt) :
    ord k a = .lt := by
  cases hc : ord k b with
  | lt => exact ho.trans hk hb ha hc hba
  | eq => rwa [(ho.eq_iff hk hb).mp hc]
  | gt => exact absurd hc hkb

end KeyOrder

/-! ## The three operations -/

/-- The entry list with `(k, d)` put in its place: a key already present
keeps its position and has its data replaced. -/
def insertSorted (ord : K → K → Ordering) (k : K) (d : D) : List (K × D) → List (K × D)
  | [] => [(k, d)]
  | (k', d') :: l =>
    match ord k k' with
    | .lt => (k, d) :: (k', d') :: l
    | .eq => (k', d) :: l
    | .gt => (k', d') :: insertSorted ord k d l

/-- The entry list without the key `k`. -/
def eraseKey (ord : K → K → Ordering) (k : K) (l : List (K × D)) : List (K × D) :=
  l.filter (fun e => ord k e.1 != .eq)

/-- What the entry list holds for `k`. -/
def lookup (ord : K → K → Ordering) (k : K) : List (K × D) → Option D
  | [] => none
  | (k', d') :: l => if ord k k' = .eq then some d' else lookup ord k l

/-- **The entries are in strictly increasing order of their keys.** -/
def StrictlySorted (ord : K → K → Ordering) (l : List (K × D)) : Prop :=
  l.Pairwise (fun a b => ord a.1 b.1 = .lt)

/-- Every key of the list is in the domain. -/
def KeysIn (Dom : K → Prop) (l : List (K × D)) : Prop :=
  ∀ e ∈ l, Dom e.1

namespace KeysIn

variable {Dom : K → Prop}

theorem left {l₁ l₂ : List (K × D)} {e : K × D} (h : KeysIn Dom (l₁ ++ e :: l₂)) :
    KeysIn Dom l₁ :=
  fun x hx => h x (List.mem_append_left _ hx)

theorem right {l₁ l₂ : List (K × D)} {e : K × D} (h : KeysIn Dom (l₁ ++ e :: l₂)) :
    KeysIn Dom l₂ :=
  fun x hx => h x (List.mem_append_right _ (List.mem_cons_of_mem _ hx))

theorem mid {l₁ l₂ : List (K × D)} {e : K × D} (h : KeysIn Dom (l₁ ++ e :: l₂)) :
    Dom e.1 :=
  h e (List.mem_append_right _ List.mem_cons_self)

end KeysIn

namespace StrictlySorted

variable {ord : K → K → Ordering}

theorem left {l₁ l₂ : List (K × D)} {e : K × D}
    (h : StrictlySorted ord (l₁ ++ e :: l₂)) : StrictlySorted ord l₁ :=
  (List.pairwise_append.mp h).1

theorem right {l₁ l₂ : List (K × D)} {e : K × D}
    (h : StrictlySorted ord (l₁ ++ e :: l₂)) : StrictlySorted ord l₂ :=
  (List.pairwise_cons.mp (List.pairwise_append.mp h).2.1).2

theorem left_lt {l₁ l₂ : List (K × D)} {e : K × D}
    (h : StrictlySorted ord (l₁ ++ e :: l₂)) {x : K × D} (hx : x ∈ l₁) :
    ord x.1 e.1 = .lt :=
  (List.pairwise_append.mp h).2.2 x hx e List.mem_cons_self

theorem lt_right {l₁ l₂ : List (K × D)} {e : K × D}
    (h : StrictlySorted ord (l₁ ++ e :: l₂)) {x : K × D} (hx : x ∈ l₂) :
    ord e.1 x.1 = .lt :=
  (List.pairwise_cons.mp (List.pairwise_append.mp h).2.1).1 x hx

end StrictlySorted

section Split

variable {ord : K → K → Ordering} {Dom : K → Prop}

/-! ## Going through a split list

A search tree with root `(k', d')` lists `l₁ ++ (k', d') :: l₂`, and each
operation descends into one side of it. -/

theorem insertSorted_append_of_lt {k k' : K} (d d' : D) (l₁ l₂ : List (K × D))
    (h : ord k k' = .lt) :
    insertSorted ord k d (l₁ ++ (k', d') :: l₂)
      = insertSorted ord k d l₁ ++ (k', d') :: l₂ := by
  induction l₁ with
  | nil => simp [insertSorted, h]
  | cons e l₁ ih =>
    rw [List.cons_append, insertSorted, insertSorted]
    cases ord k e.1 with
    | lt => rfl
    | eq => rfl
    | gt => rw [ih]; rfl

/-- A key above every entry of a list is inserted behind it. -/
theorem insertSorted_append_of_gt {k : K} (d : D) (l₁ l₂ : List (K × D))
    (h : ∀ e ∈ l₁, ord k e.1 = .gt) :
    insertSorted ord k d (l₁ ++ l₂) = l₁ ++ insertSorted ord k d l₂ := by
  induction l₁ with
  | nil => rfl
  | cons e l₁ ih =>
    rw [List.cons_append, insertSorted, h e List.mem_cons_self]
    rw [ih (fun x hx => h x (List.mem_cons_of_mem _ hx))]
    rfl

theorem lookup_append_of_lt {k k' : K} (d' : D) (l₁ l₂ : List (K × D))
    (h : ord k k' = .lt) (hl : ∀ e ∈ l₂, ord k e.1 = .lt) :
    lookup ord k (l₁ ++ (k', d') :: l₂) = lookup ord k l₁ := by
  have hnone : ∀ l : List (K × D), (∀ e ∈ l, ord k e.1 = .lt) → lookup ord k l = none := by
    intro l
    induction l with
    | nil => exact fun _ => rfl
    | cons e l ih =>
      intro hl
      rw [lookup, if_neg (by rw [hl e List.mem_cons_self]; simp)]
      exact ih (fun x hx => hl x (List.mem_cons_of_mem _ hx))
  induction l₁ with
  | nil => exact hnone _ (by simpa using ⟨h, fun a b hab => hl (a, b) hab⟩)
  | cons e l₁ ih =>
    rw [List.cons_append, lookup, lookup, ih]

theorem lookup_append_of_gt {k : K} (l₁ l₂ : List (K × D))
    (h : ∀ e ∈ l₁, ord k e.1 = .gt) :
    lookup ord k (l₁ ++ l₂) = lookup ord k l₂ := by
  induction l₁ with
  | nil => rfl
  | cons e l₁ ih =>
    rw [List.cons_append, lookup, if_neg (by rw [h e List.mem_cons_self]; simp)]
    exact ih (fun x hx => h x (List.mem_cons_of_mem _ hx))

/-- Erasing a key no entry carries changes nothing. -/
theorem eraseKey_eq_self {k : K} {l : List (K × D)} (h : ∀ e ∈ l, ord k e.1 ≠ .eq) :
    eraseKey ord k l = l :=
  List.filter_eq_self.mpr (fun e he => by simpa using h e he)

theorem eraseKey_append_cons (k : K) (e : K × D) (l₁ l₂ : List (K × D)) :
    eraseKey ord k (l₁ ++ e :: l₂)
      = eraseKey ord k l₁ ++ eraseKey ord k [e] ++ eraseKey ord k l₂ := by
  rw [eraseKey, List.filter_append, ← List.singleton_append, List.filter_append,
    List.append_assoc]
  rfl

/-- **What a sorted list says about a key at or above its middle entry**:
it lies above the whole left part. -/
theorem StrictlySorted.gt_left (ho : KeyOrder ord Dom) {k : K} {e : K × D}
    {l₁ l₂ : List (K × D)} (hs : StrictlySorted ord (l₁ ++ e :: l₂))
    (hd : KeysIn Dom (l₁ ++ e :: l₂)) (hk : Dom k) (h : ord k e.1 ≠ .lt) :
    ∀ x ∈ l₁, ord k x.1 = .gt :=
  fun x hx => ho.gt_of_lt_of_not_lt hk (hd.left x hx) hd.mid (hs.left_lt hx) h

/-- A key at or below the middle entry lies below the whole right part. -/
theorem StrictlySorted.lt_right_of (ho : KeyOrder ord Dom) {k : K} {e : K × D}
    {l₁ l₂ : List (K × D)} (hs : StrictlySorted ord (l₁ ++ e :: l₂))
    (hd : KeysIn Dom (l₁ ++ e :: l₂)) (hk : Dom k) (h : ord k e.1 ≠ .gt) :
    ∀ x ∈ l₂, ord k x.1 = .lt :=
  fun x hx => ho.lt_of_not_gt_of_lt hk (hd.right x hx) hd.mid h (hs.lt_right hx)

end Split

/-! ## The operations keep the list sorted -/

section Sorted

variable {ord : K → K → Ordering} {Dom : K → Prop}

theorem mem_insertSorted {k : K} {d : D} {l : List (K × D)} {e : K × D}
    (h : e ∈ insertSorted ord k d l) : e.1 = k ∨ ∃ d', (e.1, d') ∈ l := by
  induction l with
  | nil =>
    rw [insertSorted, List.mem_singleton] at h
    exact Or.inl (by rw [h])
  | cons x l ih =>
    rw [insertSorted] at h
    cases hc : ord k x.1 with
    | lt =>
      rw [hc] at h
      rcases List.mem_cons.mp h with rfl | h
      · exact Or.inl rfl
      · exact Or.inr ⟨e.2, h⟩
    | eq =>
      rw [hc] at h
      rcases List.mem_cons.mp h with rfl | h
      · exact Or.inr ⟨x.2, List.mem_cons_self⟩
      · exact Or.inr ⟨e.2, List.mem_cons_of_mem _ h⟩
    | gt =>
      rw [hc] at h
      rcases List.mem_cons.mp h with rfl | h
      · exact Or.inr ⟨x.2, List.mem_cons_self⟩
      · exact (ih h).imp_right (fun ⟨d', hd'⟩ => ⟨d', List.mem_cons_of_mem _ hd'⟩)

theorem KeysIn.insert {k : K} {d : D} {l : List (K × D)} (hl : KeysIn Dom l)
    (hk : Dom k) : KeysIn Dom (insertSorted ord k d l) := by
  intro e he
  rcases mem_insertSorted he with rfl | ⟨d', hd'⟩
  · exact hk
  · exact hl (e.1, d') hd'

theorem KeysIn.erase {k : K} {l : List (K × D)} (hl : KeysIn Dom l) :
    KeysIn Dom (eraseKey ord k l) :=
  fun e he => hl e (List.mem_of_mem_filter he)

theorem StrictlySorted.insert (ho : KeyOrder ord Dom) {k : K} {d : D}
    {l : List (K × D)} (hs : StrictlySorted ord l) (hl : KeysIn Dom l) (hk : Dom k) :
    StrictlySorted ord (insertSorted ord k d l) := by
  induction l with
  | nil => exact List.pairwise_singleton _ _
  | cons x l ih =>
    obtain ⟨hx, hs⟩ := List.pairwise_cons.mp hs
    have hdx : Dom x.1 := hl x List.mem_cons_self
    have hdl : KeysIn Dom l := fun e he => hl e (List.mem_cons_of_mem _ he)
    rw [insertSorted]
    cases hc : ord k x.1 with
    | lt =>
      refine List.pairwise_cons.mpr ⟨fun e he => ?_, List.pairwise_cons.mpr ⟨hx, hs⟩⟩
      rcases List.mem_cons.mp he with rfl | he
      · exact hc
      · exact ho.trans hk hdx (hdl e he) hc (hx e he)
    | eq => exact List.pairwise_cons.mpr ⟨hx, hs⟩
    | gt =>
      refine List.pairwise_cons.mpr ⟨fun e he => ?_, ih hs hdl⟩
      rcases mem_insertSorted he with hek | ⟨d', hd'⟩
      · rw [hek]
        exact (ho.gt_iff hk hdx).mp hc
      · exact hx (e.1, d') hd'

theorem StrictlySorted.erase {k : K} {l : List (K × D)} (hs : StrictlySorted ord l) :
    StrictlySorted ord (eraseKey ord k l) :=
  List.Pairwise.filter _ hs

end Sorted

/-! ## What a lookup answers afterwards -/

section Lookup

variable {ord : K → K → Ordering} {Dom : K → Prop}

theorem lookup_eq_some_iff (ho : KeyOrder ord Dom) {k : K} {d : D} {l : List (K × D)}
    (hs : StrictlySorted ord l) (hl : KeysIn Dom l) (hk : Dom k) :
    lookup ord k l = some d ↔ (k, d) ∈ l := by
  induction l with
  | nil => simp [lookup]
  | cons x l ih =>
    obtain ⟨hx, hs⟩ := List.pairwise_cons.mp hs
    have hdx : Dom x.1 := hl x List.mem_cons_self
    have hdl : KeysIn Dom l := fun e he => hl e (List.mem_cons_of_mem _ he)
    rw [lookup]
    by_cases hc : ord k x.1 = .eq
    · have hkx : k = x.1 := (ho.eq_iff hk hdx).mp hc
      rw [if_pos hc, List.mem_cons]
      constructor
      · intro h
        exact Or.inl (by rw [hkx, ← Option.some.inj h])
      · rintro (h | h)
        · rw [← h]
        · have := hx _ h
          rw [← hkx, ho.refl hk] at this
          exact absurd this (by simp)
    · rw [if_neg hc, ih hs hdl, List.mem_cons]
      refine ⟨Or.inr, ?_⟩
      rintro (h | h)
      · exact absurd (by rw [← h]; exact ho.refl hk) hc
      · exact h

theorem lookup_insertSorted (ho : KeyOrder ord Dom) {k a : K} {d : D} {l : List (K × D)}
    (hl : KeysIn Dom l) (hk : Dom k) (ha : Dom a) :
    lookup ord a (insertSorted ord k d l)
      = if ord a k = .eq then some d else lookup ord a l := by
  induction l with
  | nil => rfl
  | cons x l ih =>
    have hdx : Dom x.1 := hl x List.mem_cons_self
    have hdl : KeysIn Dom l := fun e he => hl e (List.mem_cons_of_mem _ he)
    rw [insertSorted]
    cases hc : ord k x.1 with
    | lt => rfl
    | eq =>
      rw [← (ho.eq_iff hk hdx).mp hc]
      show lookup ord a ((k, d) :: l) = _
      rw [lookup, lookup]
      by_cases hak : ord a k = .eq
      · rw [if_pos hak, if_pos hak]
      · rw [if_neg hak, if_neg hak, ← (ho.eq_iff hk hdx).mp hc, if_neg hak]
    | gt =>
      show lookup ord a (x :: insertSorted ord k d l) = _
      rw [lookup, lookup, ih hdl]
      by_cases hax : ord a x.1 = .eq
      · have hak : ord a k ≠ .eq := by
          rw [(ho.eq_iff ha hdx).mp hax]
          intro h
          rw [(ho.eq_iff hdx hk).mp h, ho.refl hk] at hc
          exact absurd hc (by simp)
        rw [if_pos hax, if_neg hak, if_pos hax]
      · rw [if_neg hax, if_neg hax]

theorem lookup_eraseKey (ho : KeyOrder ord Dom) {k a : K} {l : List (K × D)}
    (hl : KeysIn Dom l) (hk : Dom k) (ha : Dom a) :
    lookup ord a (eraseKey ord k l)
      = if ord a k = .eq then none else lookup ord a l := by
  induction l with
  | nil => simp [eraseKey, lookup]
  | cons x l ih =>
    have hdx : Dom x.1 := hl x List.mem_cons_self
    have hdl : KeysIn Dom l := fun e he => hl e (List.mem_cons_of_mem _ he)
    rw [eraseKey, List.filter_cons]
    by_cases hc : ord k x.1 = .eq
    · have hkx := (ho.eq_iff hk hdx).mp hc
      rw [if_neg (by simp [hc])]
      show lookup ord a (eraseKey ord k l) = _
      rw [ih hdl, lookup, ← hkx]
      by_cases hak : ord a k = .eq
      · rw [if_pos hak, if_pos hak]
      · rw [if_neg hak, if_neg hak, if_neg hak]
    · rw [if_pos (by simpa using hc)]
      show lookup ord a (x :: eraseKey ord k l) = _
      rw [lookup, lookup, ih hdl]
      by_cases hax : ord a x.1 = .eq
      · have hak : ord a k ≠ .eq := by
          rw [(ho.eq_iff ha hdx).mp hax]
          exact fun h => hc (by rw [(ho.eq_iff hdx hk).mp h]; exact ho.refl hk)
        rw [if_pos hax, if_neg hak, if_pos hax]
      · rw [if_neg hax, if_neg hax]

end Lookup

end SortedAssoc
