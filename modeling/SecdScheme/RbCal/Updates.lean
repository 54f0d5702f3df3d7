import SecdScheme.RbCal.Confined

/-!
# rbtree4.cal: updates keep to their region

Insertion, the deletions and the bulk load, in a confined style: each keeps
to the region and returns a writable link. The descents read one child at a
time; what they write is the node they have entered.
-/

namespace RbCal

open Llrb (Color)
open Cmd (Follows Reads)
open Region Region.Reached

variable {K V : Type} {z : Region K V} {st : Style K V} {g : z.Reached} {h : Link}

theorem reads_leftColor {c : Color} : Reads (do isColor c (← left h) : CalM K V Bool) :=
  reads_left.bind fun _ => reads_isColor

theorem reads_rightColor {c : Color} : Reads (do isColor c (← right h) : CalM K V Bool) :=
  reads_right.bind fun _ => reads_isColor

/-- A new leaf may be written. -/
theorem keeps_rbiNode {k : K} {v : V} : g.Keeps (rbiNode k v) (fun h' g' => g'.Out h') :=
  (keeps_alloc (n := ⟨none, none, .red, k, v, 1⟩) in_none in_none).post fun _ _ _ h => h.1

namespace Style.Confined

/-- A repair stays in the region. -/
theorem balance (hst : st.Confined z) (hh : g.Out h) :
    g.Keeps (st.balance h) (fun h' g' => g'.Out h') := by
  refine .bind_reads (reads_andM reads_rightColor reads_leftColor) fun _ _ => ?_
  refine .ite_bind (fun _ => hst.rotLeft hh) (fun _ => .pure hh) fun h g _ hh => ?_
  refine .bind_reads (reads_andM reads_leftColor (reads_left.bind fun _ => reads_leftColor))
    fun _ _ => ?_
  refine .ite_bind (fun _ => hst.rotRight hh) (fun _ => .pure hh) fun h g _ hh => ?_
  refine .bind_reads (reads_andM reads_leftColor reads_rightColor) fun _ _ => ?_
  refine .ite (fun _ => .bind (hst.flip hh) fun _ _ hg _ => ?_) (fun _ => keeps_rbiFixsize hh)
  exact keeps_rbiFixsize (hh.mono hg)

/-- So does an insertion, which reads outside of it. -/
theorem put (hst : st.Confined z) {k : K} {v : V} {cmp : Comparator K} :
    ∀ (fuel : ℕ) {g : z.Reached} {h : Link}, g.In h →
      g.Keeps (st.put fuel h k v cmp) (fun h' g' => g'.Out h')
  | 0, _, _, _ => .fail
  | fuel + 1, g, h, hh => by
    refine .ite (fun _ => keeps_rbiNode) (fun _ => ?_)
    refine .bind (hst.enter hh) fun h g _ hh => ?_
    refine .bind_reads reads_key fun _ _ => .bind_reads reads_compareKeys fun c _ => ?_
    have hrest : ∀ {g' : z.Reached}, g ≤ g' → g'.Keeps (st.balance h) (fun h' g' => g'.Out h') :=
      fun hg => hst.balance (hh.mono hg)
    refine .ite (fun _ => ?_) (fun _ => .ite (fun _ => ?_) (fun _ => ?_))
    · refine bind_left fun n hn => .bind (hst.put fuel (hh.toIn.links hn).1) fun l g' hg hl => ?_
      exact .bind (keeps_setLeft (hh.mono hg) hl.toIn) fun _ _ hg' _ => hrest (le_trans hg hg')
    · refine bind_right fun n hn => .bind (hst.put fuel (hh.toIn.links hn).2) fun l g' hg hl => ?_
      exact .bind (keeps_setRight (hh.mono hg) hl.toIn) fun _ _ hg' _ => hrest (le_trans hg hg')
    · exact .bind (keeps_setData_like hh (fun _ => rfl) (fun _ => rfl)) fun _ _ hg _ => hrest hg

/-- Moving red stays in the region. -/
theorem moveRedLeft (hst : st.Confined z) (hh : g.Out h) :
    g.Keeps (st.moveRedLeft h) (fun h' g' => g'.Out h') := by
  refine .bind (hst.flip hh) fun _ g h₁ hc => ?_
  replace hh := hh.mono h₁
  refine .bind_reads reads_right fun _ _ => .bind_reads reads_left fun _ _ => ?_
  refine .bind_reads reads_isColor fun _ _ => .ite (fun _ => ?_) (fun _ => .pure hh)
  refine bind_right fun n hn => .bind (hst.rotRight (hc.2 n hn)) fun l g h₂ hl => ?_
  replace hh := hh.mono h₂
  refine .bind (keeps_setRight hh hl.toIn) fun _ g h₃ _ => ?_
  refine .bind (hst.rotLeft (hh.mono h₃)) fun h g _ hh => ?_
  exact .bind (hst.flip hh) fun _ g h₄ _ => .pure (hh.mono h₄)

theorem moveRedRight (hst : st.Confined z) (hh : g.Out h) :
    g.Keeps (st.moveRedRight h) (fun h' g' => g'.Out h') := by
  refine .bind (hst.flip hh) fun _ g h₁ _ => ?_
  replace hh := hh.mono h₁
  refine .bind_reads reads_left fun _ _ => .bind_reads reads_left fun _ _ => ?_
  refine .bind_reads reads_isColor fun _ _ => .ite (fun _ => ?_) (fun _ => .pure hh)
  refine .bind (hst.rotRight hh) fun h g _ hh => ?_
  exact .bind (hst.flip hh) fun _ g h₂ _ => .pure (hh.mono h₂)

/-- So does the preparation of a descent. -/
theorem towardsLeft (hst : st.Confined z) (hh : g.Out h) :
    g.Keeps (st.towardsLeft h) (fun h' g' => g'.Out h') :=
  .bind_reads (reads_andM reads_leftColor (reads_left.bind fun _ => reads_leftColor)) fun _ _ =>
    .ite (fun _ => hst.moveRedLeft hh) (fun _ => .pure hh)

theorem towardsRight (hst : st.Confined z) (hh : g.Out h) :
    g.Keeps (st.towardsRight h) (fun h' g' => g'.Out h') :=
  .bind_reads (reads_andM reads_rightColor (reads_right.bind fun _ => reads_leftColor))
    fun _ _ =>
    .ite (fun _ => hst.moveRedRight hh) (fun _ => .pure hh)

/-- The descent to the left, and the repair. -/
theorem descendLeft (hst : st.Confined z) {rest : Link → CalM K V Link} (hh : g.Out h)
    (hrest : ∀ {g : z.Reached} {h : Link}, g.Out h → g.Keeps (rest h) (fun h' g' => g'.Out h')) :
    g.Keeps (do
      setLeft h (← rest (← st.enter (← left h)))
      st.balance h) (fun h' g' => g'.Out h') := by
  refine bind_left fun n hn => .bind (hst.enter (hh.toIn.links hn).1) fun l g h₁ hl => ?_
  refine .bind (hrest hl) fun l g h₂ hl => ?_
  replace hh := (hh.mono h₁).mono h₂
  exact .bind (keeps_setLeft hh hl.toIn) fun _ g h₃ _ => hst.balance (hh.mono h₃)

/-- A descent to the right, whatever it does there. -/
theorem descendRight (hst : st.Confined z) {rest : Link → CalM K V Link} (hh : g.Out h)
    (hrest : ∀ {g : z.Reached} {h : Link}, g.Out h → g.Keeps (rest h) (fun h' g' => g'.Out h')) :
    g.Keeps (do
      setRight h (← rest (← st.enter (← right h)))
      st.balance h) (fun h' g' => g'.Out h') := by
  refine bind_right fun n hn => .bind (hst.enter (hh.toIn.links hn).2) fun l g h₁ hl => ?_
  refine .bind (hrest hl) fun l g h₂ hl => ?_
  replace hh := (hh.mono h₁).mono h₂
  exact .bind (keeps_setRight hh hl.toIn) fun _ g h₃ _ => hst.balance (hh.mono h₃)

/-- The deletion of the least entry stays in the region. -/
theorem delmin (hst : st.Confined z) : ∀ (fuel : ℕ) {g : z.Reached} {h : Link}, g.Out h →
    g.Keeps (st.delmin fuel h) (fun h' g' => g'.Out h')
  | 0, _, _, _ => .fail
  | fuel + 1, g, h, hh => by
    refine .bind_reads reads_left fun _ _ => .ite (fun _ => .pure out_none) (fun _ => ?_)
    refine .bind (hst.towardsLeft hh) fun h g _ hh => ?_
    exact hst.descendLeft hh (hst.delmin fuel)

/-- So does that of the greatest. -/
theorem delmax (hst : st.Confined z) : ∀ (fuel : ℕ) {g : z.Reached} {h : Link}, g.Out h →
    g.Keeps (st.delmax fuel h) (fun h' g' => g'.Out h')
  | 0, _, _, _ => .fail
  | fuel + 1, g, h, hh => by
    refine .bind_reads reads_left fun _ _ => .bind_reads reads_isColor fun _ _ => ?_
    refine .ite_bind (fun _ => hst.rotRight hh) (fun _ => .pure hh) fun h g _ hh => ?_
    refine .bind_reads reads_right fun _ _ => .ite (fun _ => .pure out_none) (fun _ => ?_)
    refine .bind (hst.towardsRight hh) fun h g _ hh => ?_
    exact hst.descendRight hh (hst.delmax fuel)

end Style.Confined

theorem reads_rbiMinNode : ∀ (fuel : ℕ) {h : Link}, Reads (rbiMinNode fuel h : CalM K V _)
  | 0, _ => .fail
  | fuel + 1, _ => reads_left.bind fun _ =>
    .ite (reads_left.bind fun _ => reads_rbiMinNode fuel) .pure

/-- **So does that of a key.** -/
theorem Style.Confined.del (hst : st.Confined z) {k : K} {cmp : Comparator K} :
    ∀ (fuel : ℕ) {g : z.Reached} {h : Link}, g.Out h →
      g.Keeps (st.del fuel h k cmp) (fun h' g' => g'.Out h')
  | 0, _, _, _ => .fail
  | fuel + 1, g, h, hh => by
    refine .bind_reads reads_key fun _ _ => .bind_reads reads_compareKeys fun _ _ => ?_
    refine .ite (fun _ => ?_) (fun _ => ?_)
    · refine .bind (hst.towardsLeft hh) fun h g _ hh => ?_
      exact hst.descendLeft hh (hst.del fuel)
    · refine .bind_reads reads_left fun _ _ => .bind_reads reads_isColor fun _ _ => ?_
      refine .ite_bind (fun _ => hst.rotRight hh) (fun _ => .pure hh) fun h g _ hh => ?_
      refine .bind_reads (reads_andM ?_ (reads_right.bind fun _ => .pure)) fun _ _ => ?_
      · exact reads_key.bind fun _ => reads_compareKeys.bind fun _ => .pure
      refine .ite (fun _ => .pure out_none) (fun _ => ?_)
      refine .bind (hst.towardsRight hh) fun h g _ hh => ?_
      refine .bind_reads reads_key fun _ _ => .bind_reads reads_compareKeys fun _ _ => ?_
      refine .ite (fun _ => ?_) (fun _ => hst.descendRight hh (hst.del fuel))
      refine .bind_reads reads_right fun _ _ => .bind_reads (reads_rbiMinNode fuel) fun _ _ => ?_
      refine .bind_reads reads_key fun _ _ => ?_
      refine .bind (keeps_setData_like hh (fun _ => rfl) (fun _ => rfl)) fun _ g h₁ _ => ?_
      refine .bind_reads reads_data fun _ _ => ?_
      replace hh := hh.mono h₁
      refine .bind (keeps_setData_like hh (fun _ => rfl) (fun _ => rfl)) fun _ g h₂ _ => ?_
      exact hst.descendRight (hh.mono h₂) (hst.delmin fuel)

/-- A search writes nothing. -/
theorem reads_rbiSearch {k : K} {cmp : Comparator K} :
    ∀ (fuel : ℕ) {h : Link}, Reads (rbiSearch fuel h k cmp : CalM K V _)
  | 0, _ => .fail
  | fuel + 1, _ => .ite .pure <| reads_key.bind fun _ => reads_compareKeys.bind fun _ =>
    .ite .pure <| .ite (reads_left.bind fun _ => reads_rbiSearch fuel)
      (reads_right.bind fun _ => reads_rbiSearch fuel)

theorem reads_rbiMaxNode : ∀ (fuel : ℕ) {h : Link}, Reads (rbiMaxNode fuel h : CalM K V _)
  | 0, _ => .fail
  | fuel + 1, _ => reads_right.bind fun _ =>
    .ite (reads_right.bind fun _ => reads_rbiMaxNode fuel) .pure

theorem reads_rbiFloor {k : K} {cmp : Comparator K} :
    ∀ (fuel : ℕ) {h : Link}, Reads (rbiFloor fuel h k cmp : CalM K V _)
  | 0, _ => .fail
  | fuel + 1, _ => .ite .pure <| reads_key.bind fun _ => reads_compareKeys.bind fun _ =>
    .ite .pure <| .ite (reads_left.bind fun _ => reads_rbiFloor fuel)
      (reads_right.bind fun _ => (reads_rbiFloor fuel).bind fun _ => .pure)

theorem reads_rbiCeiling {k : K} {cmp : Comparator K} :
    ∀ (fuel : ℕ) {h : Link}, Reads (rbiCeiling fuel h k cmp : CalM K V _)
  | 0, _ => .fail
  | fuel + 1, _ => .ite .pure <| reads_key.bind fun _ => reads_compareKeys.bind fun _ =>
    .ite .pure <| .ite (reads_right.bind fun _ => reads_rbiCeiling fuel)
      (reads_left.bind fun _ => (reads_rbiCeiling fuel).bind fun _ => .pure)

theorem reads_rbiRank {k : K} {cmp : Comparator K} :
    ∀ (fuel : ℕ) {h : Link}, Reads (rbiRank fuel h k cmp : CalM K V _)
  | 0, _ => .fail
  | fuel + 1, _ => .ite .pure <| reads_key.bind fun _ => reads_compareKeys.bind fun _ =>
    .ite (reads_left.bind fun _ => reads_rbiRank fuel) <|
      .ite (reads_left.bind fun _ => reads_rbiSize.bind fun _ => reads_right.bind fun _ =>
        (reads_rbiRank fuel).bind fun _ => .pure) (reads_left.bind fun _ => reads_rbiSize)

theorem reads_rbiSelect : ∀ (fuel : ℕ) {h : Link} {i : ℤ},
    Reads (rbiSelect fuel h i : CalM K V _)
  | 0, _, _ => .fail
  | fuel + 1, _, _ => .ite .pure <| reads_left.bind fun _ => reads_rbiSize.bind fun _ =>
    .ite (reads_left.bind fun _ => reads_rbiSelect fuel) <|
      .ite (reads_right.bind fun _ => reads_rbiSelect fuel) .pure

theorem reads_rbiForeach : ∀ (fuel : ℕ) {h : Link}, Reads (rbiForeach fuel h : CalM K V _)
  | 0, _ => .fail
  | fuel + 1, _ => .ite
    (reads_left.bind fun _ => (reads_rbiForeach fuel).bind fun _ => reads_key.bind fun _ =>
      reads_data.bind fun _ => reads_right.bind fun _ => (reads_rbiForeach fuel).bind fun _ =>
        .pure) .pure

theorem reads_rbiRange {lo hi : K} {cmp : Comparator K} :
    ∀ (fuel : ℕ) {h : Link}, Reads (rbiRange fuel h lo hi cmp : CalM K V _)
  | 0, _ => .fail
  | fuel + 1, _ => .ite
    (reads_key.bind fun _ => reads_compareKeys.bind fun _ => reads_key.bind fun _ =>
      reads_compareKeys.bind fun _ =>
        .ite_bind (reads_left.bind fun _ => reads_rbiRange fuel) .pure fun _ =>
        .ite_bind (reads_key.bind fun _ => reads_data.bind fun _ => .pure) .pure fun _ =>
        .ite_bind (reads_right.bind fun _ => reads_rbiRange fuel) .pure fun _ => .pure) .pure

/-! ## The bulk load -/

theorem reads_pairAt {v : List (Element K V)} {i : ℤ} : Reads (pairAt v i : CalM K V _) := by
  rw [pairAt]
  split
  · exact .pure
  · exact .fail
  · exact .fail

mutual

/-- A tree that is built consists of new nodes. -/
theorem keeps_rbiBuildB (v : List (Element K V)) :
    ∀ (fuel : ℕ) {g : z.Reached} (lo n : ℤ) (d : ℕ),
      g.Keeps (rbiBuildB v fuel lo n d) (fun h' g' => g'.Out h')
  | 0, _, _, _, _ => .fail
  | _ + 1, _, _, _, 0 => .pure out_none
  | fuel + 1, g, lo, n, d + 1 => by
    rw [rbiBuildB]
    refine .bind_reads reads_pairAt fun p _ => ?_
    refine .bind (keeps_alloc in_none in_none) fun h g _ hh => ?_
    refine .bind (keeps_rbiBuildA v fuel _ _ d) fun l g h₁ hl => ?_
    replace hh := hh.1.mono h₁
    refine .bind (keeps_setLeft hh hl.toIn) fun _ g h₂ _ => ?_
    refine .bind (keeps_rbiBuildB v fuel _ _ d) fun r g h₃ hr => ?_
    replace hh := (hh.mono h₂).mono h₃
    exact .bind (keeps_setRight hh hr.toIn) fun _ g h₄ _ => .pure (hh.mono h₄)

/-- So does one whose root may be red. -/
theorem keeps_rbiBuildA (v : List (Element K V)) :
    ∀ (fuel : ℕ) {g : z.Reached} (lo n : ℤ) (d : ℕ),
      g.Keeps (rbiBuildA v fuel lo n d) (fun h' g' => g'.Out h')
  | 0, _, _, _, _ => .fail
  | fuel + 1, g, lo, n, d => by
    rw [rbiBuildA]
    refine .ite (fun _ => keeps_rbiBuildB v fuel _ _ d) (fun _ => ?_)
    refine .bind_reads reads_pairAt fun p _ => ?_
    refine .bind (keeps_alloc in_none in_none) fun h g _ hh => ?_
    refine .bind (keeps_rbiBuildB v fuel _ _ d) fun l g h₁ hl => ?_
    replace hh := hh.1.mono h₁
    refine .bind (keeps_setLeft hh hl.toIn) fun _ g h₂ _ => ?_
    refine .bind (keeps_rbiBuildB v fuel _ _ d) fun r g h₃ hr => ?_
    replace hh := (hh.mono h₂).mono h₃
    exact .bind (keeps_setRight hh hr.toIn) fun _ g h₄ _ => .pure (hh.mono h₄)

end

theorem reads_rbiCheckSorted {cmp : Comparator K} :
    ∀ (v : List (Element K V)) {prev : Option K},
      Reads (rbiCheckSorted cmp prev v : CalM K V _)
  | [], _ => .pure
  | .noVector :: _, none => .pure
  | .noVector :: _, some _ => .pure
  | .short :: _, none => .pure
  | .short :: _, some _ => .pure
  | .entries _ _ _ :: v, none => reads_rbiCheckSorted v
  | .entries _ _ _ :: v, some _ =>
    reads_compareKeys.bind fun _ => .ite .pure (reads_rbiCheckSorted v)

end RbCal
