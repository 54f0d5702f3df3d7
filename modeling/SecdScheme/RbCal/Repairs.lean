import SecdScheme.RbCal.Validation

/-!
# rbtree4.cal: rotations, flips and the repair of a node

What a style has to do so that the functions written over it are right,
`Style.Sound`: its rotations, its flip and its entry into a node leave the
tree that the functional operation leaves, with every size field right except
that of the root, which is carried along unchanged. Both styles are sound.
The repair of a node, `balance`, then repairs the size of the root as well,
and so does everything that ends with it.
-/

namespace RbCal

open Llrb Llrb.Tree

variable {K V : Type} {s s' : Heap K V} {z : ℤ} {h hl hr : Link} {t l m r : Tree K V}
  {A B C D : Set ℕ} {c : Color} {k kx : K} {d dx : V} {a b : ℕ}

/-- **A command leads to a tree**: it returns, what it returns leads to the
tree, and outside of the region nothing has changed. -/
def Leads {α : Type} (m : CalM K V α) (link : α → Link) (s : Heap K V) (A : Set ℕ) (z : ℤ)
    (t : Tree K V) : Prop :=
  ∃ x s', m s = (.ok x, s') ∧ Grows A s s' ∧ s'.Top z (link x) t (s.upTo A s')

namespace Leads

variable {α β : Type} {link : α → Link} {e : β → Link} {y : ℤ} {u : Tree K V}

theorem pure {x : α} (ht : s.Top z (link x) t A) : Leads (Pure.pure x) link s A z t :=
  ⟨x, s, rfl, .refl A s, ht.mono fun _ => Or.inl⟩

/-- A part that only reads. -/
theorem of_read {m : CalM K V β} {f : β → CalM K V α} {x : β} (hm : m s = (.ok x, s))
    (hf : Leads (f x) link s A z t) : Leads (m >>= f) link s A z t := by
  obtain ⟨y, s', hrun, hrest⟩ := hf
  exact ⟨y, s', by rw [Cmd.bind_run_ok hm, hrun], hrest⟩

/-- What happens after a state that was reached inside of the region. -/
theorem after {m : CalM K V β} {f : β → CalM K V α} {x : β} (hm : m s = (.ok x, s'))
    (hg : Grows A s s') (hf : Leads (f x) link s' (s.upTo A s') z t) :
    Leads (m >>= f) link s A z t := by
  obtain ⟨y, s'', hrun, hg', ht⟩ := hf
  refine ⟨y, s'', by rw [Cmd.bind_run_ok hm, hrun], hg.trans hg', ?_⟩
  rw [upTo_upTo hg hg'.length] at ht
  exact ht

/-- **One command after another**, the second on the tree the first one leads
to. -/
theorem bind {m : CalM K V β} {f : β → CalM K V α} (hm : Leads m e s A y u)
    (hf : ∀ x s', s'.Top y (e x) u (s.upTo A s') →
      Leads (f x) link s' (s.upTo A s') z t) : Leads (m >>= f) link s A z t := by
  obtain ⟨x, s', hrun, hg, ht⟩ := hm
  exact after hrun hg (hf x s' ht)

/-- A choice before the rest, in the form the do-block takes. -/
theorem bind_ite {m m' : CalM K V β} {f : β → CalM K V α} {p : Prop} [Decidable p]
    (h : Leads ((if p then m else m') >>= f) link s A z t) :
    Leads (if p then m >>= f else m' >>= f) link s A z t := by
  split at h <;> split
  all_goals first
    | exact h
    | contradiction

end Leads

/-! ## Rotations -/

/-- **The body of a left rotation**: `b` rises over `a`. The size of the root is
handed on, and that of the node which sinks is computed. -/
theorem raiseRight_run {xl xr : Link} {cx : Color} {zx : ℤ} (hab : a ≠ b)
    (ha : s.get a = some ⟨hl, hr, c, k, d, z⟩) (hb : s.get b = some ⟨xl, xr, cx, kx, dx, zx⟩)
    (hL : s.Own hl l B) (hM : s.Own xl m C) (hR : s.Own xr r D)
    (hB : ∀ x ∈ B, x ≠ a ∧ x ≠ b) (hC : ∀ x ∈ C, x ≠ a ∧ x ≠ b ∧ x ∉ B)
    (hD : ∀ x ∈ D, x ≠ a ∧ x ≠ b ∧ x ∉ B ∧ x ∉ C) :
    ∃ s', raiseRight (some a) (some b) s = (.ok (some b), s') ∧
      s'.nodes.length = s.nodes.length ∧ (∀ x, x ≠ a → x ≠ b → s'.get x = s.get x) ∧
      s'.Top z (some b) (node c (node .red l k d m) kx dx r) ({a, b} ∪ (B ∪ (C ∪ D))) := by
  have hla := Heap.lt_of_get ha
  have hlb := Heap.lt_of_get hb
  let s₁ := s.put a ⟨hl, xl, c, k, d, z⟩
  let s₂ := s₁.put b ⟨some a, xr, cx, kx, dx, zx⟩
  let s₃ := s₂.put b ⟨some a, xr, c, kx, dx, zx⟩
  let s₄ := s₃.put a ⟨hl, xl, .red, k, d, z⟩
  let s₅ := s₄.put b ⟨some a, xr, c, kx, dx, z⟩
  let s₆ := s₅.put a ⟨hl, xl, .red, k, d, (l.size : ℤ) + m.size + 1⟩
  have hget : ∀ x, x ≠ a → x ≠ b → s₅.get x = s.get x := fun x hxa hxb => by
    simp only [s₅, s₄, s₃, s₂, s₁, Heap.get_put_ne hxa, Heap.get_put_ne hxb]
  have h₁b : s₁.get b = some ⟨xl, xr, cx, kx, dx, zx⟩ := by rw [Heap.get_put_ne hab.symm, hb]
  have h₂b : s₂.get b = some ⟨some a, xr, cx, kx, dx, zx⟩ := Heap.get_put_self (by simpa [s₁])
  have h₂a : s₂.get a = some ⟨hl, xl, c, k, d, z⟩ := by
    rw [Heap.get_put_ne hab, Heap.get_put_self hla]
  have h₃b : s₃.get b = some ⟨some a, xr, c, kx, dx, zx⟩ := Heap.get_put_self (by simpa [s₂, s₁])
  have h₃a : s₃.get a = some ⟨hl, xl, c, k, d, z⟩ := by rw [Heap.get_put_ne hab, h₂a]
  have h₄a : s₄.get a = some ⟨hl, xl, .red, k, d, z⟩ :=
    Heap.get_put_self (by simpa [s₃, s₂, s₁])
  have h₄b : s₄.get b = some ⟨some a, xr, c, kx, dx, zx⟩ := by
    rw [Heap.get_put_ne hab.symm, h₃b]
  have h₅a : s₅.get a = some ⟨hl, xl, .red, k, d, z⟩ := by rw [Heap.get_put_ne hab, h₄a]
  have hL₅ : s₅.Own hl l B := hL.frame fun x hx _ => hget x (hB x hx).1 (hB x hx).2
  have hM₅ : s₅.Own xl m C := hM.frame fun x hx _ => hget x (hC x hx).1 (hC x hx).2.1
  have hget₆ : ∀ x, x ≠ a → x ≠ b → s₆.get x = s.get x := fun x hxa hxb => by
    rw [Heap.get_put_ne hxa, hget x hxa hxb]
  refine ⟨s₆, ?_, by simp [s₆, s₅, s₄, s₃, s₂, s₁], hget₆, ?_⟩
  · have hfix : rbiFixsize (some a) s₅ = (.ok (some a), s₆) := by
      rw [rbiFixsize, Cmd.bind_run_ok (left_run h₅a), Cmd.bind_run_ok (rbiSize_run hL₅),
        Cmd.bind_run_ok (right_run h₅a), Cmd.bind_run_ok (rbiSize_run hM₅),
        Cmd.bind_run_ok (show setSize (some a) _ s₅ = (.ok (), s₆) from setSize_run _ h₅a)]
      rfl
    rw [raiseRight, Cmd.bind_run_ok (left_run hb),
      Cmd.bind_run_ok (show setRight (some a) xl s = (.ok (), s₁) from setRight_run xl ha),
      Cmd.bind_run_ok (show setLeft (some b) (some a) s₁ = (.ok (), s₂) from setLeft_run _ h₁b),
      Cmd.bind_run_ok (color_run h₂a),
      Cmd.bind_run_ok (show setColor (some b) c s₂ = (.ok (), s₃) from setColor_run c h₂b),
      Cmd.bind_run_ok (show setColor (some a) .red s₃ = (.ok (), s₄) from setColor_run _ h₃a),
      Cmd.bind_run_ok (size_run h₄a),
      Cmd.bind_run_ok (show setSize (some b) z s₄ = (.ok (), s₅) from setSize_run z h₄b),
      Cmd.bind_run_ok hfix]
    rfl
  · have hb₆ : s₆.get b = some ⟨some a, xr, c, kx, dx, z⟩ := by
      rw [Heap.get_put_ne hab.symm]
      exact Heap.get_put_self (by simpa [s₄, s₃, s₂, s₁])
    have ha₆ : s₆.get a = some ⟨hl, xl, .red, k, d, (l.size : ℤ) + m.size + 1⟩ :=
      Heap.get_put_self (by simpa [s₅, s₄, s₃, s₂, s₁])
    have hinner : s₆.Own (some a) (node .red l k d m) ({a} ∪ (B ∪ C)) := by
      refine .node ha₆ (Or.inl rfl)
        (hL.frame fun x hx _ => hget₆ x (hB x hx).1 (hB x hx).2)
        (hM.frame fun x hx _ => hget₆ x (hC x hx).1 (hC x hx).2.1)
        (fun x hx => ⟨Or.inr (Or.inl hx), (hB x hx).1⟩)
        fun x hx => ⟨Or.inr (Or.inr hx), (hC x hx).1, (hC x hx).2.2⟩
    refine .node hb₆ (Or.inl (Or.inr rfl)) hinner
      (hR.frame fun x hx _ => hget₆ x (hD x hx).1 (hD x hx).2.1) ?_ fun x hx => ?_
    · rintro x (rfl | hx | hx)
      · exact ⟨Or.inl (Or.inl rfl), hab⟩
      · exact ⟨Or.inr (Or.inl hx), (hB x hx).2⟩
      · exact ⟨Or.inr (Or.inr (Or.inl hx)), (hC x hx).2.1⟩
    · refine ⟨Or.inr (Or.inr (Or.inr hx)), (hD x hx).2.1, ?_⟩
      rintro (rfl | hx' | hx')
      · exact (hD x hx).1 rfl
      · exact (hD x hx).2.2.1 hx'
      · exact (hD x hx).2.2.2 hx'

/-- **The body of a right rotation.** -/
theorem raiseLeft_run {xl xr : Link} {cx : Color} {zx : ℤ} (hab : a ≠ b)
    (ha : s.get a = some ⟨hl, hr, c, k, d, z⟩) (hb : s.get b = some ⟨xl, xr, cx, kx, dx, zx⟩)
    (hL : s.Own xl l B) (hM : s.Own xr m C) (hR : s.Own hr r D)
    (hB : ∀ x ∈ B, x ≠ a ∧ x ≠ b) (hC : ∀ x ∈ C, x ≠ a ∧ x ≠ b ∧ x ∉ B)
    (hD : ∀ x ∈ D, x ≠ a ∧ x ≠ b ∧ x ∉ B ∧ x ∉ C) :
    ∃ s', raiseLeft (some a) (some b) s = (.ok (some b), s') ∧
      s'.nodes.length = s.nodes.length ∧ (∀ x, x ≠ a → x ≠ b → s'.get x = s.get x) ∧
      s'.Top z (some b) (node c l kx dx (node .red m k d r)) ({a, b} ∪ (B ∪ (C ∪ D))) := by
  have hla := Heap.lt_of_get ha
  have hlb := Heap.lt_of_get hb
  let s₁ := s.put a ⟨xr, hr, c, k, d, z⟩
  let s₂ := s₁.put b ⟨xl, some a, cx, kx, dx, zx⟩
  let s₃ := s₂.put b ⟨xl, some a, c, kx, dx, zx⟩
  let s₄ := s₃.put a ⟨xr, hr, .red, k, d, z⟩
  let s₅ := s₄.put b ⟨xl, some a, c, kx, dx, z⟩
  let s₆ := s₅.put a ⟨xr, hr, .red, k, d, (m.size : ℤ) + r.size + 1⟩
  have hget : ∀ x, x ≠ a → x ≠ b → s₅.get x = s.get x := fun x hxa hxb => by
    simp only [s₅, s₄, s₃, s₂, s₁, Heap.get_put_ne hxa, Heap.get_put_ne hxb]
  have h₁b : s₁.get b = some ⟨xl, xr, cx, kx, dx, zx⟩ := by rw [Heap.get_put_ne hab.symm, hb]
  have h₂b : s₂.get b = some ⟨xl, some a, cx, kx, dx, zx⟩ := Heap.get_put_self (by simpa [s₁])
  have h₂a : s₂.get a = some ⟨xr, hr, c, k, d, z⟩ := by
    rw [Heap.get_put_ne hab, Heap.get_put_self hla]
  have h₃b : s₃.get b = some ⟨xl, some a, c, kx, dx, zx⟩ := Heap.get_put_self (by simpa [s₂, s₁])
  have h₃a : s₃.get a = some ⟨xr, hr, c, k, d, z⟩ := by rw [Heap.get_put_ne hab, h₂a]
  have h₄a : s₄.get a = some ⟨xr, hr, .red, k, d, z⟩ :=
    Heap.get_put_self (by simpa [s₃, s₂, s₁])
  have h₄b : s₄.get b = some ⟨xl, some a, c, kx, dx, zx⟩ := by
    rw [Heap.get_put_ne hab.symm, h₃b]
  have h₅a : s₅.get a = some ⟨xr, hr, .red, k, d, z⟩ := by rw [Heap.get_put_ne hab, h₄a]
  have hM₅ : s₅.Own xr m C := hM.frame fun x hx _ => hget x (hC x hx).1 (hC x hx).2.1
  have hR₅ : s₅.Own hr r D := hR.frame fun x hx _ => hget x (hD x hx).1 (hD x hx).2.1
  have hget₆ : ∀ x, x ≠ a → x ≠ b → s₆.get x = s.get x := fun x hxa hxb => by
    rw [Heap.get_put_ne hxa, hget x hxa hxb]
  refine ⟨s₆, ?_, by simp [s₆, s₅, s₄, s₃, s₂, s₁], hget₆, ?_⟩
  · have hfix : rbiFixsize (some a) s₅ = (.ok (some a), s₆) := by
      rw [rbiFixsize, Cmd.bind_run_ok (left_run h₅a), Cmd.bind_run_ok (rbiSize_run hM₅),
        Cmd.bind_run_ok (right_run h₅a), Cmd.bind_run_ok (rbiSize_run hR₅),
        Cmd.bind_run_ok (show setSize (some a) _ s₅ = (.ok (), s₆) from setSize_run _ h₅a)]
      rfl
    rw [raiseLeft, Cmd.bind_run_ok (right_run hb),
      Cmd.bind_run_ok (show setLeft (some a) xr s = (.ok (), s₁) from setLeft_run xr ha),
      Cmd.bind_run_ok (show setRight (some b) (some a) s₁ = (.ok (), s₂) from setRight_run _ h₁b),
      Cmd.bind_run_ok (color_run h₂a),
      Cmd.bind_run_ok (show setColor (some b) c s₂ = (.ok (), s₃) from setColor_run c h₂b),
      Cmd.bind_run_ok (show setColor (some a) .red s₃ = (.ok (), s₄) from setColor_run _ h₃a),
      Cmd.bind_run_ok (size_run h₄a),
      Cmd.bind_run_ok (show setSize (some b) z s₄ = (.ok (), s₅) from setSize_run z h₄b),
      Cmd.bind_run_ok hfix]
    rfl
  · have hb₆ : s₆.get b = some ⟨xl, some a, c, kx, dx, z⟩ := by
      rw [Heap.get_put_ne hab.symm]
      exact Heap.get_put_self (by simpa [s₄, s₃, s₂, s₁])
    have ha₆ : s₆.get a = some ⟨xr, hr, .red, k, d, (m.size : ℤ) + r.size + 1⟩ :=
      Heap.get_put_self (by simpa [s₅, s₄, s₃, s₂, s₁])
    have hinner : s₆.Own (some a) (node .red m k d r) ({a} ∪ (C ∪ D)) := by
      refine .node ha₆ (Or.inl rfl)
        (hM.frame fun x hx _ => hget₆ x (hC x hx).1 (hC x hx).2.1)
        (hR.frame fun x hx _ => hget₆ x (hD x hx).1 (hD x hx).2.1)
        (fun x hx => ⟨Or.inr (Or.inl hx), (hC x hx).1⟩)
        fun x hx => ⟨Or.inr (Or.inr hx), (hD x hx).1, (hD x hx).2.2.2⟩
    refine .node hb₆ (Or.inl (Or.inr rfl))
      (hL.frame fun x hx _ => hget₆ x (hB x hx).1 (hB x hx).2) hinner
      (fun x hx => ⟨Or.inr (Or.inl hx), (hB x hx).2⟩) ?_
    rintro x (rfl | hx | hx)
    · exact ⟨Or.inl (Or.inl rfl), hab, fun hx => (hB _ hx).1 rfl⟩
    · exact ⟨Or.inr (Or.inr (Or.inl hx)), (hC x hx).2.1, (hC x hx).2.2⟩
    · exact ⟨Or.inr (Or.inr (Or.inr hx)), (hD x hx).2.1, (hD x hx).2.2.1⟩

/-! ## A node and one of its children -/

/-- **A node whose right child is not empty**, taken apart. -/
theorem Heap.Top.open_right {cx : Color}
    (ht : s.Top z h (.node c l k d (.node cx m kx dx r)) A) :
    ∃ a b hl xl xr zx B C D, h = some a ∧ s.get a = some ⟨hl, some b, c, k, d, z⟩ ∧
      s.get b = some ⟨xl, xr, cx, kx, dx, zx⟩ ∧ s.Own hl l B ∧ s.Own xl m C ∧ s.Own xr r D ∧
      a ≠ b ∧ (∀ x ∈ B, x ≠ a ∧ x ≠ b) ∧ (∀ x ∈ C, x ≠ a ∧ x ≠ b ∧ x ∉ B) ∧
      (∀ x ∈ D, x ≠ a ∧ x ≠ b ∧ x ∉ B ∧ x ∉ C) ∧
      ∀ x ∈ ({a, b} ∪ (B ∪ (C ∪ D)) : Set ℕ), x ∈ A ∧ x < s.nodes.length := by
  cases ht.restrict with
  | @node z a hl hr c l r k d A B C hget ha hl₀ hr₀ hB hC =>
    cases hr₀ with
    | @node _ b xl xr _ _ _ _ _ _ C' D hgetx hb hm₀ hr₀ hC' hD =>
      refine ⟨a, b, hl, xl, xr, _, B, C', D, rfl, hget, hgetx, hl₀, hm₀, hr₀,
        (hC b hb).2.1.symm, fun x hx => ⟨(hB x hx).2, ?_⟩, fun x hx => ?_, fun x hx => ?_, ?_⟩
      · rintro rfl
        exact (hC _ hb).2.2 hx
      · exact ⟨(hC x (hC' x hx).1).2.1, (hC' x hx).2, (hC x (hC' x hx).1).2.2⟩
      · exact ⟨(hC x (hD x hx).1).2.1, (hD x hx).2.1, (hC x (hD x hx).1).2.2, (hD x hx).2.2⟩
      · rintro x ((rfl | rfl) | hx | hx | hx)
        · exact ha
        · exact (hC _ hb).1
        · exact (hB x hx).1
        · exact (hC x (hC' x hx).1).1
        · exact (hC x (hD x hx).1).1

/-- A node whose left child is not empty. -/
theorem Heap.Top.open_left {cx : Color}
    (ht : s.Top z h (.node c (.node cx l kx dx m) k d r) A) :
    ∃ a b hr xl xr zx B C D, h = some a ∧ s.get a = some ⟨some b, hr, c, k, d, z⟩ ∧
      s.get b = some ⟨xl, xr, cx, kx, dx, zx⟩ ∧ s.Own xl l B ∧ s.Own xr m C ∧ s.Own hr r D ∧
      a ≠ b ∧ (∀ x ∈ B, x ≠ a ∧ x ≠ b) ∧ (∀ x ∈ C, x ≠ a ∧ x ≠ b ∧ x ∉ B) ∧
      (∀ x ∈ D, x ≠ a ∧ x ≠ b ∧ x ∉ B ∧ x ∉ C) ∧
      ∀ x ∈ ({a, b} ∪ (B ∪ (C ∪ D)) : Set ℕ), x ∈ A ∧ x < s.nodes.length := by
  cases ht.restrict with
  | @node z a hl hr c l r k d A B D hget ha hl₀ hr₀ hB hD =>
    cases hl₀ with
    | @node _ b xl xr _ _ _ _ _ _ B' C hgetx hb hl₀ hm₀ hB' hC =>
      refine ⟨a, b, hr, xl, xr, _, B', C, D, rfl, hget, hgetx, hl₀, hm₀, hr₀,
        (hB b hb).2.symm, fun x hx => ⟨(hB x (hB' x hx).1).2, (hB' x hx).2⟩,
        fun x hx => ⟨(hB x (hC x hx).1).2, (hC x hx).2⟩, fun x hx => ?_, ?_⟩
      · refine ⟨(hD x hx).2.1, ?_, fun hx' => (hD x hx).2.2 (hB' x hx').1,
          fun hx' => (hD x hx).2.2 (hC x hx').1⟩
        rintro rfl
        exact (hD _ hx).2.2 hb
      · rintro x ((rfl | rfl) | hx | hx | hx)
        · exact ha
        · exact (hB _ hb).1
        · exact (hB x (hB' x hx).1).1
        · exact (hB x (hC x hx).1).1
        · exact (hD x hx).1

/-- **What a style has to do.** -/
structure Style.Sound (st : Style K V) : Prop where
  rotLeft : ∀ {s : Heap K V} {z h A c cx l k d m kx dx r},
    s.Top z h (node c l k d (node cx m kx dx r)) A →
      Leads (st.rotLeft h) id s A z (node c (node .red l k d m) kx dx r)
  rotRight : ∀ {s : Heap K V} {z h A c cx l k d m kx dx r},
    s.Top z h (node c (node cx l kx dx m) k d r) A →
      Leads (st.rotRight h) id s A z (node c l kx dx (node .red m k d r))
  flip : ∀ {s : Heap K V} {z h A c cl ll kl dl rl k d cr lr kr dr rr},
    s.Top z h (node c (node cl ll kl dl rl) k d (node cr lr kr dr rr)) A →
      Leads (st.flip h) (fun _ => h) s A z
        (node c.flip (node cl.flip ll kl dl rl) k d (node cr.flip lr kr dr rr))
  enter : ∀ {s : Heap K V} {z h A c l k d r},
    s.Top z h (node c l k d r) A → Leads (st.enter h) id s A z (node c l k d r)

theorem leads_rbiRotLeft {cx : Color} (ht : s.Top z h (node c l k d (node cx m kx dx r)) A) :
    Leads (rbiRotLeft h) id s A z (node c (node .red l k d m) kx dx r) := by
  obtain ⟨a, b, hl, xl, xr, zx, B, C, D, rfl, hga, hgb, hL, hM, hR, hab, hB, hC, hD, hsub⟩ :=
    ht.open_right
  obtain ⟨s', hrun, hlen, hframe, htop⟩ := raiseRight_run hab hga hgb hL hM hR hB hC hD
  refine ⟨some b, s', ?_, ⟨hlen.ge, fun x _ hx => hframe x ?_ ?_⟩,
    htop.mono fun x hx => Or.inl (hsub x hx).1⟩
  · rw [rbiRotLeft, Cmd.bind_run_ok (right_run hga), hrun]
  · rintro rfl
    exact hx (hsub _ (Or.inl (Or.inl rfl))).1
  · rintro rfl
    exact hx (hsub _ (Or.inl (Or.inr rfl))).1

theorem leads_rbiRotRight {cx : Color} (ht : s.Top z h (node c (node cx l kx dx m) k d r) A) :
    Leads (rbiRotRight h) id s A z (node c l kx dx (node .red m k d r)) := by
  obtain ⟨a, b, hr, xl, xr, zx, B, C, D, rfl, hga, hgb, hL, hM, hR, hab, hB, hC, hD, hsub⟩ :=
    ht.open_left
  obtain ⟨s', hrun, hlen, hframe, htop⟩ := raiseLeft_run hab hga hgb hL hM hR hB hC hD
  refine ⟨some b, s', ?_, ⟨hlen.ge, fun x _ hx => hframe x ?_ ?_⟩,
    htop.mono fun x hx => Or.inl (hsub x hx).1⟩
  · rw [rbiRotRight, Cmd.bind_run_ok (left_run hga), hrun]
  · rintro rfl
    exact hx (hsub _ (Or.inl (Or.inl rfl))).1
  · rintro rfl
    exact hx (hsub _ (Or.inl (Or.inr rfl))).1

/-! ## Changing a child, changing a colour -/

section Children

variable {α : Type} {u : Tree K V}

/-- A command on the left child of a node. -/
theorem Leads.inLeft {m : CalM K V α} (hget : s.get a = some ⟨hl, hr, c, k, d, z⟩) (ha : a ∈ A)
    (hr₀ : s.Own hr r C) (hB : ∀ x ∈ B, x ∈ A ∧ x ≠ a) (hC : ∀ x ∈ C, x ∈ A ∧ x ≠ a ∧ x ∉ B)
    (hm : Leads m (fun _ => hl) s B u.size u) :
    Leads m (fun _ => some a) s A z (node c u k d r) := by
  obtain ⟨x, s', hrun, hg, ht⟩ := hm
  have hlt := Heap.lt_of_get hget
  refine ⟨x, s', hrun, hg.mono fun x hx => (hB x hx).1,
    .joinLeft ?_ hlt ha hr₀ hB hC hg (fun _ _ => rfl) ht⟩
  rw [hg.get a hlt fun hx => (hB a hx).2 rfl, hget]

/-- A command on the right child of a node. -/
theorem Leads.inRight {m : CalM K V α} (hget : s.get a = some ⟨hl, hr, c, k, d, z⟩) (ha : a ∈ A)
    (hl₀ : s.Own hl l B) (hB : ∀ x ∈ B, x ∈ A ∧ x ≠ a) (hC : ∀ x ∈ C, x ∈ A ∧ x ≠ a ∧ x ∉ B)
    (hm : Leads m (fun _ => hr) s C u.size u) :
    Leads m (fun _ => some a) s A z (node c l k d u) := by
  obtain ⟨x, s', hrun, hg, ht⟩ := hm
  have hlt := Heap.lt_of_get hget
  refine ⟨x, s', hrun, hg.mono fun x hx => (hC x hx).1,
    .joinRight ?_ hlt ha hl₀ hB hC hg (fun _ _ => rfl) ht⟩
  rw [hg.get a hlt fun hx => (hC a hx).2.1 rfl, hget]

/-- **The left subtree of a node is replaced** by what a function makes of
it. -/
theorem Leads.replaceLeft {f : Link → CalM K V Link} {g : CalM K V α} {link : α → Link} {y : ℤ}
    (ht : s.Top z h (node c l k d r) A)
    (hf : ∀ hl B, s.Own hl l B → Leads (f hl) id s B u.size u)
    (hg : ∀ s', s'.Top z h (node c u k d r) (s.upTo A s') → Leads g link s' (s.upTo A s') y t) :
    Leads (do setLeft h (← f (← left h)); g) link s A y t := by
  cases ht with
  | node hget ha hl₀ hr₀ hB hC =>
    obtain ⟨x, s', hrun, hg', ht⟩ := hf _ _ hl₀
    obtain ⟨s'', hset, hg'', hlen, htop⟩ := Heap.Top.hangLeft hget ha hr₀ hB hC hg' ht
    obtain ⟨v, s₃, hrun₃, hg₃, ht₃⟩ := hg s'' (htop.mono fun x hx => by rwa [mem_upTo, hlen])
    refine ⟨v, s₃, ?_, hg''.trans hg₃, ?_⟩
    · rw [Cmd.bind_run_ok (left_run hget), Cmd.bind_run_ok hrun]
      exact (Cmd.bind_run_ok hset _).trans hrun₃
    · rw [upTo_upTo hg'' hg₃.length] at ht₃
      exact ht₃

/-- **The right subtree of a node is replaced.** -/
theorem Leads.replaceRight {f : Link → CalM K V Link} {g : CalM K V α} {link : α → Link} {y : ℤ}
    (ht : s.Top z h (node c l k d r) A)
    (hf : ∀ hr C, s.Own hr r C → Leads (f hr) id s C u.size u)
    (hg : ∀ s', s'.Top z h (node c l k d u) (s.upTo A s') → Leads g link s' (s.upTo A s') y t) :
    Leads (do setRight h (← f (← right h)); g) link s A y t := by
  cases ht with
  | node hget ha hl₀ hr₀ hB hC =>
    obtain ⟨x, s', hrun, hg', ht⟩ := hf _ _ hr₀
    obtain ⟨s'', hset, hg'', hlen, htop⟩ := Heap.Top.hangRight hget ha hl₀ hB hC hg' ht
    obtain ⟨v, s₃, hrun₃, hg₃, ht₃⟩ := hg s'' (htop.mono fun x hx => by rwa [mem_upTo, hlen])
    refine ⟨v, s₃, ?_, hg''.trans hg₃, ?_⟩
    · rw [Cmd.bind_run_ok (right_run hget), Cmd.bind_run_ok hrun]
      exact (Cmd.bind_run_ok hset _).trans hrun₃
    · rw [upTo_upTo hg'' hg₃.length] at ht₃
      exact ht₃

end Children

/-- A write to the root that leaves its links and its size alone. -/
theorem leads_update {f : Node K V → Node K V} {c' : Color} {k' : K} {d' : V}
    (hf : ∀ n : Node K V, n.color = c → n.key = k → n.data = d →
      f n = ⟨n.left, n.right, c', k', d', n.size⟩)
    (ht : s.Top z h (node c l k d r) A) :
    Leads (update h f) (fun _ => h) s A z (node c' l k' d' r) := by
  cases ht with
  | @node _ a hl hr _ _ _ _ _ _ B C hget ha hl₀ hr₀ hB hC =>
    have hne : ∀ x, x ≠ a → (s.put a (f ⟨hl, hr, c, k, d, z⟩)).get x = s.get x :=
      fun x hx => Heap.get_put_ne hx
    refine ⟨(), _, update_run hget, .put _ ha, .node ?_ (Or.inl ha)
      (hl₀.frame fun x hx _ => hne x (hB x hx).2) (hr₀.frame fun x hx _ => hne x (hC x hx).2.1)
      (fun x hx => ⟨Or.inl (hB x hx).1, (hB x hx).2⟩)
      fun x hx => ⟨Or.inl (hC x hx).1, (hC x hx).2⟩⟩
    rw [Heap.get_put_self (Heap.lt_of_get hget), hf _ rfl rfl rfl]

theorem leads_setColor (c' : Color) (ht : s.Top z h (node c l k d r) A) :
    Leads (setColor h c') (fun _ => h) s A z (node c' l k d r) :=
  leads_update (fun n _ hk hd => by rw [← hk, ← hd]) ht

theorem leads_setKey (k' : K) (ht : s.Top z h (node c l k d r) A) :
    Leads (setKey h k') (fun _ => h) s A z (node c l k' d r) :=
  leads_update (fun n hc _ hd => by rw [← hc, ← hd]) ht

theorem leads_setData (d' : V) (ht : s.Top z h (node c l k d r) A) :
    Leads (setData h d') (fun _ => h) s A z (node c l k d' r) :=
  leads_update (fun n hc hk _ => by rw [← hc, ← hk]) ht

/-- **A copy of a node** stands for the node. -/
theorem leads_rbiCopy (ht : s.Top z h (node c l k d r) A) :
    Leads (rbiCopy h) id s A z (node c l k d r) := by
  cases ht with
  | @node _ a hl hr _ _ _ _ _ _ B C hget ha hl₀ hr₀ hB hC =>
    obtain ⟨s', hrun, hg, hlen, hnew⟩ := alloc_run ⟨hl, hr, c, k, d, z⟩ s
    have hold : ∀ x < s.nodes.length, s'.get x = s.get x := fun x hx => hg.get x hx nofun
    refine ⟨_, s', ?_, hg.mono (Set.empty_subset A), .node hnew (Or.inr ⟨le_rfl, by omega⟩)
      (Heap.Top.frame hl₀.restrict fun x hx _ => hold x hx.2)
      (Heap.Top.frame hr₀.restrict fun x hx _ => hold x hx.2)
      (fun x hx => ⟨Or.inl (hB x hx.1).1, hx.2.ne⟩)
      fun x hx => ⟨Or.inl (hC x hx.1).1, hx.2.ne, fun hx' => (hC x hx.1).2.2 hx'.1⟩⟩
    rw [rbiCopy, Cmd.bind_run_ok (nodeAt_run hget), hrun]

/-! ## Flips -/

theorem color_of_top (ht : s.Top z h (node c l k d r) A) : color h s = (.ok c, s) := by
  cases ht with
  | node hget => exact color_run hget

theorem key_of_top (ht : s.Top z h (node c l k d r) A) : key h s = (.ok k, s) := by
  cases ht with
  | node hget => exact key_run hget

section Flips

variable {cl cr : Color} {ll rl lr rr : Tree K V} {kl kr : K} {dl dr : V}

theorem leads_rbiFlip (ht : s.Top z h (node c (node cl ll kl dl rl) k d (node cr lr kr dr rr)) A) :
    Leads (rbiFlip h) (fun _ => h) s A z
      (node c.flip (node cl.flip ll kl dl rl) k d (node cr.flip lr kr dr rr)) := by
  refine .of_read (color_of_top ht) (.bind (leads_setColor c.flip ht) fun _ s₁ ht₁ => ?_)
  cases ht₁ with
  | node hget ha hl₀ hr₀ hB hC =>
    refine .of_read (left_run hget) (.of_read (left_run hget) (.of_read (color_of_top hl₀)
      (.bind (.inLeft hget ha hr₀ hB hC (leads_setColor cl.flip hl₀)) fun _ s₂ ht₂ => ?_)))
    cases ht₂ with
    | node hget ha hl₀ hr₀ hB hC =>
      exact .of_read (right_run hget) (.of_read (right_run hget) (.of_read (color_of_top hr₀)
        (.inRight hget ha hl₀ hB hC (leads_setColor cr.flip hr₀))))

/-- The persistent flip copies both children first. -/
theorem leads_rbiPflip
    (ht : s.Top z h (node c (node cl ll kl dl rl) k d (node cr lr kr dr rr)) A) :
    Leads (rbiPflip h) (fun _ => h) s A z
      (node c.flip (node cl.flip ll kl dl rl) k d (node cr.flip lr kr dr rr)) := by
  refine .replaceLeft (f := rbiCopy) ht (fun hl B hl₀ => leads_rbiCopy hl₀) fun s₁ ht₁ => ?_
  exact .replaceRight (f := rbiCopy) ht₁ (fun hr C hr₀ => leads_rbiCopy hr₀) fun s₂ ht₂ =>
    leads_rbiFlip ht₂

end Flips

/-! ## Rotations of a path-copying update -/

theorem leads_rbiProtLeft {cx : Color} (ht : s.Top z h (node c l k d (node cx m kx dx r)) A) :
    Leads (rbiProtLeft h) id s A z (node c (node .red l k d m) kx dx r) := by
  obtain ⟨a, b, hl, xl, xr, zx, B, C, D, rfl, hga, hgb, hL, hM, hR, hab, hB, hC, hD, hsub⟩ :=
    ht.open_right
  obtain ⟨s₁, hcopy, hg₁, hlen₁, hnew⟩ := alloc_run ⟨xl, xr, cx, kx, dx, zx⟩ s
  have hold : ∀ x < s.nodes.length, s₁.get x = s.get x := fun x hx => hg₁.get x hx nofun
  have hlt : ∀ x, x ∈ B ∨ x ∈ C ∨ x ∈ D → x < s.nodes.length := fun x hx => (hsub x (Or.inr hx)).2
  have hla := Heap.lt_of_get hga
  obtain ⟨s', hrun, hlen, hframe, htop⟩ := raiseRight_run (b := s.nodes.length) hla.ne
    ((hold a hla).trans hga) hnew (hL.frame fun x hx hx' => hold x (hlt x (Or.inl hx)))
    (hM.frame fun x hx hx' => hold x (hlt x (Or.inr (Or.inl hx))))
    (hR.frame fun x hx hx' => hold x (hlt x (Or.inr (Or.inr hx))))
    (fun x hx => ⟨(hB x hx).1, (hlt x (Or.inl hx)).ne⟩)
    (fun x hx => ⟨(hC x hx).1, (hlt x (Or.inr (Or.inl hx))).ne, (hC x hx).2.2⟩)
    (fun x hx => ⟨(hD x hx).1, (hlt x (Or.inr (Or.inr hx))).ne, (hD x hx).2.2⟩)
  refine ⟨_, s', ?_, ⟨by omega, fun x hx hxA => ?_⟩, htop.mono ?_⟩
  · rw [rbiProtLeft, Cmd.bind_run_ok (right_run hga)]
    have hcopy' : rbiCopy (some b) s = (.ok (some s.nodes.length), s₁) := by
      rw [rbiCopy, Cmd.bind_run_ok (nodeAt_run hgb), hcopy]
    exact (Cmd.bind_run_ok hcopy' _).trans hrun
  · rw [hframe x ?_ hx.ne, hold x hx]
    rintro rfl
    exact hxA (hsub _ (Or.inl (Or.inl rfl))).1
  · rintro x ((rfl | rfl) | hx)
    · exact Or.inl (hsub _ (Or.inl (Or.inl rfl))).1
    · exact Or.inr ⟨le_rfl, by omega⟩
    · exact Or.inl (hsub _ (Or.inr hx)).1

theorem leads_rbiProtRight {cx : Color} (ht : s.Top z h (node c (node cx l kx dx m) k d r) A) :
    Leads (rbiProtRight h) id s A z (node c l kx dx (node .red m k d r)) := by
  obtain ⟨a, b, hr, xl, xr, zx, B, C, D, rfl, hga, hgb, hL, hM, hR, hab, hB, hC, hD, hsub⟩ :=
    ht.open_left
  obtain ⟨s₁, hcopy, hg₁, hlen₁, hnew⟩ := alloc_run ⟨xl, xr, cx, kx, dx, zx⟩ s
  have hold : ∀ x < s.nodes.length, s₁.get x = s.get x := fun x hx => hg₁.get x hx nofun
  have hlt : ∀ x, x ∈ B ∨ x ∈ C ∨ x ∈ D → x < s.nodes.length := fun x hx => (hsub x (Or.inr hx)).2
  have hla := Heap.lt_of_get hga
  obtain ⟨s', hrun, hlen, hframe, htop⟩ := raiseLeft_run (b := s.nodes.length) hla.ne
    ((hold a hla).trans hga) hnew (hL.frame fun x hx hx' => hold x (hlt x (Or.inl hx)))
    (hM.frame fun x hx hx' => hold x (hlt x (Or.inr (Or.inl hx))))
    (hR.frame fun x hx hx' => hold x (hlt x (Or.inr (Or.inr hx))))
    (fun x hx => ⟨(hB x hx).1, (hlt x (Or.inl hx)).ne⟩)
    (fun x hx => ⟨(hC x hx).1, (hlt x (Or.inr (Or.inl hx))).ne, (hC x hx).2.2⟩)
    (fun x hx => ⟨(hD x hx).1, (hlt x (Or.inr (Or.inr hx))).ne, (hD x hx).2.2⟩)
  refine ⟨_, s', ?_, ⟨by omega, fun x hx hxA => ?_⟩, htop.mono ?_⟩
  · rw [rbiProtRight, Cmd.bind_run_ok (left_run hga)]
    have hcopy' : rbiCopy (some b) s = (.ok (some s.nodes.length), s₁) := by
      rw [rbiCopy, Cmd.bind_run_ok (nodeAt_run hgb), hcopy]
    exact (Cmd.bind_run_ok hcopy' _).trans hrun
  · rw [hframe x ?_ hx.ne, hold x hx]
    rintro rfl
    exact hxA (hsub _ (Or.inl (Or.inl rfl))).1
  · rintro x ((rfl | rfl) | hx)
    · exact Or.inl (hsub _ (Or.inl (Or.inl rfl))).1
    · exact Or.inr ⟨le_rfl, by omega⟩
    · exact Or.inl (hsub _ (Or.inr hx)).1

/-- **The destructive style is sound.** -/
theorem destructive_sound : (destructive : Style K V).Sound where
  rotLeft := leads_rbiRotLeft
  rotRight := leads_rbiRotRight
  flip := leads_rbiFlip
  enter ht := .pure ht

/-- **The path-copying style is sound.** -/
theorem copying_sound : (copying : Style K V).Sound where
  rotLeft := leads_rbiProtLeft
  rotRight := leads_rbiProtRight
  flip := leads_rbiPflip
  enter := leads_rbiCopy

end RbCal
