import SecdScheme.RbCal.Validation
import Mathlib.Data.List.ReduceOption
import Mathlib.Tactic.Ring

/-!
# rbtree4.cal: building from a sorted vector

The builders split a slice of the vector so that both parts have a size that
a tree of the black height asked for can have: from `2 ^ d - 1` to
`3 ^ d - 1` entries below a black root, up to `2 * 3 ^ d - 1` where the root
may be red. The split keeps to these bounds, so the builders never read
outside of the vector and what they build is balanced.
-/

namespace RbCal

open Llrb Llrb.Tree

variable {K V : Type}

/-! ## The sizes of a tree of a given black height -/

theorem rbiPow2_eq (d : ℕ) : rbiPow2 d = (2 ^ d : ℕ) := by
  induction d with
  | zero => rfl
  | succ d ih =>
    rw [rbiPow2, ih, Nat.pow_succ]
    push_cast
    rfl

/-- The greatest size below a black root. -/
theorem rbiBmaxB_eq (d : ℕ) : rbiBmaxB d = (3 ^ d : ℕ) - 1 := by
  induction d with
  | zero => rfl
  | succ d ih =>
    rw [rbiBmaxB, ih, Nat.pow_succ]
    push_cast
    ring

/-- What makes room for the split of a tree with a red root. -/
theorem two_pow_le_three_pow (d : ℕ) : 2 * 2 ^ d ≤ 3 ^ d + 1 := by
  induction d with
  | zero => rfl
  | succ d ih =>
    have hpos : 0 < 2 ^ d := Nat.two_pow_pos d
    rw [Nat.pow_succ, Nat.pow_succ]
    omega

/-- **The split below a black root**: both parts have sizes in range. -/
theorem exists_split_black {d n : ℕ} (hmin : 2 ^ (d + 1) ≤ n + 1) (hmax : n + 1 ≤ 3 ^ (d + 1)) :
    ∃ nl nr : ℕ, (if (n : ℤ) - 1 - rbiBmin d < rbiBmaxA d then (n : ℤ) - 1 - rbiBmin d
        else rbiBmaxA d) = nl ∧ (n : ℤ) - 1 - nl = nr ∧ n = nl + nr + 1 ∧
      2 ^ d ≤ nl + 1 ∧ nl + 1 ≤ 2 * 3 ^ d ∧ 2 ^ d ≤ nr + 1 ∧ nr + 1 ≤ 3 ^ d := by
  have hroom := two_pow_le_three_pow d
  have hpos : 0 < 2 ^ d := Nat.two_pow_pos d
  rw [Nat.pow_succ] at hmin hmax
  rw [rbiBmin, rbiBmaxA, rbiPow2_eq, rbiBmaxB_eq]
  generalize 2 ^ d = p at *
  generalize 3 ^ d = x at *
  split
  · exact ⟨n - p, p - 1, by omega, by omega, by omega, by omega, by omega, by omega, by omega⟩
  · exact ⟨2 * x - 1, n - 2 * x, by omega, by omega, by omega, by omega, by omega, by omega,
      by omega⟩

/-- **The split below a red root.** -/
theorem exists_split_red {d n : ℕ} (hmin : 3 ^ d ≤ n) (hmax : n + 1 ≤ 2 * 3 ^ d) :
    ∃ nl nr : ℕ, (if (n : ℤ) - 1 - rbiBmin d < rbiBmaxB d then (n : ℤ) - 1 - rbiBmin d
        else rbiBmaxB d) = nl ∧ (n : ℤ) - 1 - nl = nr ∧ n = nl + nr + 1 ∧
      2 ^ d ≤ nl + 1 ∧ nl + 1 ≤ 3 ^ d ∧ 2 ^ d ≤ nr + 1 ∧ nr + 1 ≤ 3 ^ d := by
  have hroom := two_pow_le_three_pow d
  have hpos : 0 < 2 ^ d := Nat.two_pow_pos d
  rw [rbiBmin, rbiPow2_eq, rbiBmaxB_eq]
  generalize 2 ^ d = p at *
  generalize 3 ^ d = x at *
  split
  · exact ⟨n - p, p - 1, by omega, by omega, by omega, by omega, by omega, by omega, by omega⟩
  · exact ⟨x - 1, n - x, by omega, by omega, by omega, by omega, by omega, by omega, by omega⟩

/-- The black height chosen is the least one with room. -/
theorem blackHeightFor_spec (n fuel d : ℕ) (hd : d = 0 ∨ 3 ^ (d - 1) ≤ n)
    (hf : n ≤ d + fuel) :
    n + 1 ≤ 3 ^ blackHeightFor n fuel d ∧ 2 ^ blackHeightFor n fuel d ≤ n + 1 ∧
      blackHeightFor n fuel d ≤ d + fuel := by
  have hmin : 2 ^ d ≤ n + 1 := by
    rcases hd with rfl | hd
    · simp
    · cases d with
      | zero => simp
      | succ d =>
        have hroom := two_pow_le_three_pow d
        rw [Nat.add_sub_cancel] at hd
        rw [Nat.pow_succ]
        omega
  induction fuel generalizing d with
  | zero =>
    have hlt : d < 3 ^ d := Nat.lt_pow_self (by decide)
    rw [blackHeightFor]
    omega
  | succ fuel ih =>
    rw [blackHeightFor, rbiBmaxB_eq]
    split
    · have hn : 3 ^ d ≤ n := by omega
      have hroom := two_pow_le_three_pow d
      have h := ih (d + 1) (Or.inr (by rwa [Nat.add_sub_cancel])) (by omega)
        (by rw [Nat.pow_succ]; omega)
      exact ⟨h.1, h.2.1, by omega⟩
    · exact ⟨by omega, hmin, by omega⟩

/-! ## The builders -/

/-- `n` entries from the one at `lo` on. -/
def slice (v : List (K × V)) (lo n : ℕ) : List (K × V) := (v.drop lo).take n

theorem length_slice {v : List (K × V)} {lo n : ℕ} (h : lo + n ≤ v.length) :
    (slice v lo n).length = n := by
  rw [slice, List.length_take, List.length_drop]
  omega

/-- A slice, split at an entry. -/
theorem slice_split {v : List (K × V)} {lo nl nr : ℕ} (h : lo + (nl + nr + 1) ≤ v.length) :
    ∃ e, v[lo + nl]? = some e ∧
      slice v lo (nl + nr + 1) = slice v lo nl ++ e :: slice v (lo + nl + 1) nr := by
  have hlt : lo + nl < v.length := by omega
  refine ⟨v[lo + nl], List.getElem?_eq_getElem hlt, ?_⟩
  rw [slice, slice, slice, Nat.add_assoc, List.take_add, List.drop_drop,
    List.drop_eq_getElem_cons hlt, Nat.add_comm nr 1, List.take_add, List.take_one]
  rfl

/-- The entries of a vector are read off its elements. -/
theorem pairAt_run {v : List (Element K V)} {ps : List (K × V)}
    (hv : v.map Element.toPair = ps.map some) {i : ℕ} {e : K × V} (h : ps[i]? = some e)
    (s : Heap K V) : pairAt v i s = (.ok e, s) := by
  have hentry : (v[i]?).map Element.toPair = some (some e) := by
    rw [← List.getElem?_map, hv, List.getElem?_map, h]
    rfl
  obtain ⟨x, hx, hxe⟩ := Option.map_eq_some_iff.mp hentry
  rw [pairAt, if_neg (by omega), Int.toNat_natCast, hx]
  cases x with
  | entries k d more =>
    obtain rfl := Option.some.inj hxe
    rfl
  | noVector | short => cases hxe

/-- **A builder builds a tree of these entries** from new nodes. -/
def Builds (m : CalM K V Link) (s : Heap K V) (es : List (K × V)) (P : Tree K V → Prop) : Prop :=
  ∃ h s' t, m s = (.ok h, s') ∧ Grows ∅ s s' ∧ s'.Own h t (s.upTo ∅ s') ∧ P t ∧ t.toList = es

/-- The body of the builders: a node, and below it what two builders build. -/
def buildNode (v : List (Element K V)) (lo nl n : ℤ) (c : Color) (bl br : CalM K V Link) :
    CalM K V Link := do
  let p ← pairAt v (lo + nl)
  let h ← alloc ⟨none, none, c, p.1, p.2, n⟩
  setLeft h (← bl)
  setRight h (← br)
  return h

/-- **A node above two trees that were built.** -/
theorem builds_buildNode {v : List (Element K V)} {lo nl n : ℕ} {c : Color} {bl br : CalM K V Link}
    {s : Heap K V} {e : K × V} {es es' : List (K × V)} {P Q : Tree K V → Prop}
    (hv : ∀ s, pairAt v (lo + nl : ℕ) s = (.ok e, s)) (hn : n = es.length + es'.length + 1)
    (hbl : ∀ s, Builds bl s es P) (hbr : ∀ s, Builds br s es' Q) :
    Builds (buildNode v lo nl n c bl br) s (es ++ e :: es')
      (fun t => ∃ l r, P l ∧ Q r ∧ t = node c l e.1 e.2 r) := by
  have hempty : ∀ {P : ℕ → Prop}, ∀ x ∈ (∅ : Set ℕ), P x :=
    fun x hx => absurd hx (Set.notMem_empty x)
  obtain ⟨s₁, halloc, hg₁, hlen₁, hget₁⟩ := alloc_run ⟨none, none, c, e.1, e.2, (n : ℤ)⟩ s
  obtain ⟨hl, s₂, l, hrunl, hg₂, hownl, hP, hel⟩ := hbl s₁
  -- the left tree is hung below the new node
  obtain ⟨s₃, hset₃, hg₃, hlen₃, htop₃⟩ := Heap.Top.hangLeft (A := {s.nodes.length}) (B := ∅)
    (C := ∅) (r := .nil) hget₁ rfl (.nil _ _) hempty hempty hg₂ hownl
  obtain ⟨hr, s₄, r, hrunr, hg₄, hownr, hQ, her⟩ := hbr s₃
  -- and the right one
  cases htop₃ with
  | node hget₃ ha₃ hl₃ hr₃ hB₃ hC₃ =>
    obtain ⟨s₅, hset₅, hg₅, hlen₅, htop₅⟩ := Heap.Top.hangRight (C := ∅) hget₃ ha₃ hl₃ hB₃ hempty
      hg₄ hownr
    have hle₂ := hg₂.length
    have hle₄ := hg₄.length
    have hsize : (n : ℤ) = (node c l e.1 e.2 r).size := by
      rw [hn, Llrb.Tree.size, ← length_toList l, ← length_toList r, hel, her]
    refine ⟨some s.nodes.length, s₅, node c l e.1 e.2 r, ?_, ⟨by omega, fun x hx _ => ?_⟩, ?_,
      ⟨l, r, hP, hQ, rfl⟩, ?_⟩
    · rw [buildNode, Cmd.bind_run_ok (by exact_mod_cast hv s),
        Cmd.bind_run_ok halloc, Cmd.bind_run_ok hrunl, Cmd.bind_run_ok hset₃,
        Cmd.bind_run_ok hrunr, Cmd.bind_run_ok hset₅]
      rfl
    · have hnot : x ∉ s₁.upTo {s.nodes.length} s₂ := by
        rintro (hx' | hx')
        · exact absurd hx' hx.ne
        · exact absurd hx'.1 (by omega)
      rw [hg₅.get x (by omega) hnot, hg₃.get x (by omega) hx.ne, hg₁.get x hx (Set.notMem_empty x)]
    · refine (htop₅.mono ?_).size_eq hsize
      rintro x ((hx | hx) | hx)
      · rw [Set.mem_singleton_iff] at hx
        exact Or.inr ⟨hx.ge, by omega⟩
      · exact Or.inr ⟨by have := hx.1; omega, by have := hx.2; omega⟩
      · exact Or.inr ⟨by have := hx.1; omega, by have := hx.2; omega⟩
    · rw [toList, hel, her]

theorem Builds.imp {m : CalM K V Link} {s : Heap K V} {es : List (K × V)} {P Q : Tree K V → Prop}
    (h : Builds m s es P) (hPQ : ∀ t, P t → Q t) : Builds m s es Q := by
  obtain ⟨hd, s', t, hrun, hg, hown, hP, hes⟩ := h
  exact ⟨hd, s', t, hrun, hg, hown, hPQ t hP, hes⟩

/-- **What the builders build**, on every slice whose size is in range: below
a black root, and where the root may be red. -/
theorem builds_slice {v : List (Element K V)} {ps : List (K × V)}
    (hv : v.map Element.toPair = ps.map some) (fuel : ℕ) :
    (∀ (lo n d : ℕ) (s : Heap K V), 2 * d < fuel → lo + n ≤ ps.length → 2 ^ d ≤ n + 1 →
      n + 1 ≤ 3 ^ d →
      Builds (rbiBuildB v fuel lo n d) s (slice ps lo n) (Balanced · .black d)) ∧
    (∀ (lo n d : ℕ) (s : Heap K V), 2 * d + 1 < fuel → lo + n ≤ ps.length → 2 ^ d ≤ n + 1 →
      n + 1 ≤ 2 * 3 ^ d →
      Builds (rbiBuildA v fuel lo n d) s (slice ps lo n) (fun t => ∃ c, Balanced t c d)) := by
  induction fuel with
  | zero => exact ⟨fun _ _ _ _ h => absurd h (by omega), fun _ _ _ _ h => absurd h (by omega)⟩
  | succ fuel ih =>
    obtain ⟨ihB, ihA⟩ := ih
    constructor
    · intro lo n d s hf hlen hmin hmax
      cases d with
      | zero =>
        have hn : n = 0 := by simpa using hmax
        subst hn
        refine ⟨none, s, .nil, ?_, .refl _ _, Heap.own_nil _, .nil, ?_⟩
        · rw [rbiBuildB]
          rfl
        · rw [slice, List.take_zero]
          rfl
      | succ d =>
        obtain ⟨nl, nr, hnl, hnr, rfl, hl₁, hl₂, hr₁, hr₂⟩ := exists_split_black hmin hmax
        obtain ⟨e, he, hsplit⟩ := slice_split hlen
        have hbody : rbiBuildB v (fuel + 1) lo ((nl + nr + 1 : ℕ) : ℤ) (d + 1)
            = buildNode v lo nl (nl + nr + 1 : ℕ) .black (rbiBuildA v fuel lo nl d)
              (rbiBuildB v fuel ((lo + nl + 1 : ℕ) : ℤ) nr d) := by
          rw [rbiBuildB, hnl, hnr]
          push_cast
          rfl
        rw [hbody, hsplit]
        refine (builds_buildNode (pairAt_run hv he) ?_ (fun s => ihA lo nl d s (by omega) (by omega) hl₁ hl₂)
          fun s => ihB (lo + nl + 1) nr d s (by omega) (by omega) hr₁ hr₂).imp ?_
        · rw [length_slice (by omega), length_slice (by omega)]
        · rintro t ⟨l, r, ⟨c, hl⟩, hr, rfl⟩
          exact .black hl hr
    · intro lo n d s hf hlen hmin hmax
      rw [rbiBuildA, rbiBmaxB_eq]
      split
      · exact (ihB lo n d s (by omega) hlen hmin (by omega)).imp fun t ht => ⟨_, ht⟩
      · obtain ⟨nl, nr, hnl, hnr, rfl, hl₁, hl₂, hr₁, hr₂⟩ :=
          exists_split_red (d := d) (n := n) (by omega) hmax
        obtain ⟨e, he, hsplit⟩ := slice_split hlen
        rw [rbiBmaxB_eq] at hnl
        dsimp only
        rw [hnl, hnr, hsplit]
        have hright : ∀ s, Builds (rbiBuildB v fuel (lo + nl + 1) nr d) s
            (slice ps (lo + nl + 1) nr) (Balanced · .black d) := by
          intro s
          have h := ihB (lo + nl + 1) nr d s (by omega) (by omega) hr₁ hr₂
          push_cast at h
          exact h
        refine (builds_buildNode (pairAt_run hv he) ?_ (fun s => ihB lo nl d s (by omega) (by omega) hl₁ hl₂)
          hright).imp ?_
        · rw [length_slice (by omega), length_slice (by omega)]
        · rintro t ⟨l, r, hl, hr, rfl⟩
          exact ⟨_, .red hl hr⟩

/-! ## The check of the vector -/

/-- The comparison of two keys fails. -/
def Incomparable (cmp : Comparator K) (a b : K) : Prop :=
  cmp = none ∨ ∃ f e, cmp = some f ∧ f a b = .error e

/-- **A comparison** is negative, fails, or is one that the check refuses. -/
theorem compareKeys_cases (cmp : Comparator K) (a b : K) :
    (Before cmp a b ∧ ¬ Incomparable cmp a b) ∨
      (¬ Before cmp a b ∧ ∃ e, Incomparable cmp a b ∧
        ∀ s : Heap K V, compareKeys cmp a b s = (.error e, s)) ∨
      (¬ Before cmp a b ∧ ¬ Incomparable cmp a b ∧
        ∃ z ≥ 0, ∀ s : Heap K V, compareKeys cmp a b s = (.ok z, s)) := by
  cases cmp with
  | none =>
    refine .inr (.inl ⟨?_, .notFunction, .inl rfl, fun s => rfl⟩)
    rintro ⟨f, z, hf, -⟩
    cases hf
  | some f =>
    cases hcall : f a b with
    | error e =>
      refine .inr (.inl ⟨?_, e, .inr ⟨f, e, rfl, hcall⟩, fun s => ?_⟩)
      · rintro ⟨g, z, hg, hz, -⟩
        obtain rfl := Option.some.inj hg
        cases hcall.symm.trans hz
      · show Cmd.ofExcept (f a b) s = _
        rw [hcall]
        rfl
    | ok z =>
      have hcomparable : ¬ Incomparable (some f) a b := by
        rintro (hnone | ⟨g, e, hg, he⟩)
        · cases hnone
        · obtain rfl := Option.some.inj hg
          cases hcall.symm.trans he
      by_cases hz : z < 0
      · exact .inl ⟨⟨f, z, rfl, hcall, hz⟩, hcomparable⟩
      · refine .inr (.inr ⟨?_, hcomparable, z, not_lt.mp hz, fun s => ?_⟩)
        · rintro ⟨g, z', hg, hz', hneg⟩
          obtain rfl := Option.some.inj hg
          obtain rfl := Except.ok.inj (hcall.symm.trans hz')
          exact hz hneg
        · show Cmd.ofExcept (f a b) s = _
          rw [hcall]
          rfl

/-- **A vector whose entries ascend**, after a key if there is one: its
elements have two entries at least, and these are the first two. -/
def SortedFrom (cmp : Comparator K) (prev : Option K) (v : List (Element K V))
    (ps : List (K × V)) : Prop :=
  v.map Element.toPair = ps.map some ∧ (prev.toList ++ ps.map Prod.fst).IsChain (Before cmp)

/-- **A vector with two neighbours whose comparison fails**, where all up to
them is in order. -/
def FailsFrom (cmp : Comparator K) (prev : Option K) (v : List (Element K V)) : Prop :=
  ∃ (ps : List (K × V)) (q : K × V) (rest : List (Option (K × V))) (k : K),
    v.map Element.toPair = ps.map some ++ some q :: rest ∧
    (prev.toList ++ ps.map Prod.fst).IsChain (Before cmp) ∧
    (prev.toList ++ ps.map Prod.fst).getLast? = some k ∧ Incomparable cmp k q.1

section Check

variable {cmp : Comparator K} {prev : Option K} {x : Element K V} {v : List (Element K V)}

/-- A key after another one, or the first one. -/
theorem isChain_toList_cons {k : K} {ks : List K} :
    (prev.toList ++ k :: ks).IsChain (Before cmp) ↔
      (∀ k' ∈ prev, Before cmp k' k) ∧ (k :: ks).IsChain (Before cmp) := by
  cases prev with
  | none => simp
  | some k' => simp [List.isChain_cons_cons]

theorem sortedFrom_cons : (∃ ps, SortedFrom cmp prev (x :: v) ps) ↔
    ∃ p, x.toPair = some p ∧ (∀ k ∈ prev, Before cmp k p.1) ∧
      ∃ ps, SortedFrom cmp (some p.1) v ps := by
  constructor
  · rintro ⟨_ | ⟨p, ps⟩, hentries, hchain⟩
    · cases hentries
    · obtain ⟨hx, hv⟩ := List.cons.inj hentries
      obtain ⟨hprev, hchain⟩ := isChain_toList_cons.mp hchain
      exact ⟨p, hx, hprev, ps, hv, hchain⟩
  · rintro ⟨p, hx, hprev, ps, hv, hchain⟩
    exact ⟨p :: ps, congrArg₂ List.cons hx hv, isChain_toList_cons.mpr ⟨hprev, hchain⟩⟩

theorem failsFrom_cons : FailsFrom cmp prev (x :: v) ↔
    ∃ p, x.toPair = some p ∧ ((∃ k ∈ prev, Incomparable cmp k p.1) ∨
      (∀ k ∈ prev, Before cmp k p.1) ∧ FailsFrom cmp (some p.1) v) := by
  constructor
  · rintro ⟨_ | ⟨p, ps⟩, q, rest, k, hentries, hchain, hlast, hfails⟩
    · obtain ⟨hx, -⟩ := List.cons.inj hentries
      cases prev with
      | none => cases hlast
      | some k' =>
        obtain rfl := Option.some.inj hlast
        exact ⟨q, hx, .inl ⟨_, rfl, hfails⟩⟩
    · obtain ⟨hx, hv⟩ := List.cons.inj hentries
      obtain ⟨hprev, hchain⟩ := isChain_toList_cons.mp hchain
      rw [List.map_cons, List.getLast?_append_cons] at hlast
      exact ⟨p, hx, .inr ⟨hprev, ps, q, rest, k, hv, hchain, hlast, hfails⟩⟩
  · rintro ⟨p, hx, ⟨k, hk, hfails⟩ | ⟨hprev, ps, q, rest, k, hv, hchain, hlast, hfails⟩⟩
    · obtain rfl := Option.mem_def.mp hk
      exact ⟨[], p, v.map Element.toPair, k, congrArg (· :: _) hx, .singleton _, rfl, hfails⟩
    · refine ⟨p :: ps, q, rest, k, congrArg₂ List.cons hx hv,
        isChain_toList_cons.mpr ⟨hprev, hchain⟩, ?_, hfails⟩
      rw [List.map_cons, List.getLast?_append_cons]
      exact hlast

/-- **The check of the vector** accepts what has ascending entries, and fails
where a comparison fails. -/
theorem rbiCheckSorted_run (cmp : Comparator K) (v : List (Element K V)) (prev : Option K)
    (s : Heap K V) : ∃ r, rbiCheckSorted cmp prev v s = (r, s) ∧
      (r = .ok true ↔ ∃ ps, SortedFrom cmp prev v ps) ∧
      ((∃ e, r = .error e) ↔ FailsFrom cmp prev v) := by
  induction v generalizing prev with
  | nil =>
    refine ⟨.ok true, by rw [rbiCheckSorted]; rfl, ⟨fun _ => ⟨[], rfl, ?_⟩, fun _ => rfl⟩, ?_⟩
    · cases prev <;> simp
    · refine ⟨nofun, ?_⟩
      rintro ⟨ps, q, rest, k, hentries, -⟩
      cases ps <;> cases hentries
  | cons x v ih =>
    rw [sortedFrom_cons, failsFrom_cons]
    -- an element that has no two entries
    have hrefused : x.toPair = none → rbiCheckSorted cmp prev (x :: v) s = (.ok false, s) →
        ∃ r, rbiCheckSorted cmp prev (x :: v) s = (r, s) ∧
          (r = .ok true ↔ ∃ p, x.toPair = some p ∧ (∀ k ∈ prev, Before cmp k p.1) ∧
            ∃ ps, SortedFrom cmp (some p.1) v ps) ∧
          ((∃ e, r = .error e) ↔ ∃ p, x.toPair = some p ∧
            ((∃ k ∈ prev, Incomparable cmp k p.1) ∨
              (∀ k ∈ prev, Before cmp k p.1) ∧ FailsFrom cmp (some p.1) v)) := by
      intro hx hrun
      refine ⟨_, hrun, ⟨nofun, ?_⟩, nofun, ?_⟩
      · rintro ⟨p, hp, -⟩
        cases hx.symm.trans hp
      · rintro ⟨p, hp, -⟩
        cases hx.symm.trans hp
    cases x with
    | noVector => exact hrefused rfl (by rw [rbiCheckSorted]; rfl)
    | short => exact hrefused rfl (by rw [rbiCheckSorted]; rfl)
    | entries k d more =>
      obtain ⟨r, hrun, hsorted, hfails⟩ := ih (some k)
      have hentry : ∀ P : K × V → Prop,
          (∃ p, (Element.entries k d more).toPair = some p ∧ P p) ↔ P (k, d) := fun P =>
        ⟨fun ⟨p, hp, h⟩ => Option.some.inj hp ▸ h, fun h => ⟨_, rfl, h⟩⟩
      rw [hentry, hentry]
      cases prev with
      | none =>
        refine ⟨r, by rw [rbiCheckSorted]; exact hrun, ?_, ?_⟩
        · rw [hsorted]
          simp
        · rw [hfails]
          simp
      | some k' =>
        rw [rbiCheckSorted]
        rcases compareKeys_cases (V := V) cmp k' k with
          ⟨hbefore, hcomparable⟩ | ⟨hnot, e, hfail, herr⟩ | ⟨hnot, hcomparable, z, hz, hok⟩
        · obtain ⟨z, hz, hneg⟩ := compareKeys_of_before hbefore s
          refine ⟨r, ?_, ?_, ?_⟩
          · rw [Cmd.bind_run_ok hz, if_neg (not_le.mpr hneg), hrun]
          · rw [hsorted]
            simp [hbefore]
          · rw [hfails]
            simp [hbefore, hcomparable]
        · refine ⟨.error e, Cmd.bind_run_error (herr s) _, ?_, ?_⟩
          · simp [hnot]
          · simp [hfail]
        · refine ⟨.ok false, ?_, ?_, ?_⟩
          · rw [Cmd.bind_run_ok (hok s), if_pos hz]
            rfl
          · simp [hnot]
          · simp [hnot, hcomparable]

end Check

/-! ## The public function -/

/-- The links of all handles. -/
def World.roots (w : World K V) : List Link := w.handles.map Handle.root

theorem updateHandle_run {w : World K V} {db : ℕ} {d : Handle K} (g : Handle K → Handle K)
    (hd : w.handles[db]? = some d) :
    updateHandle db g w = (.ok (), { w with handles := w.handles.set db (g d) }) := by
  have hdb : handleAt db w = (.ok d, w) := by rw [handleAt, hd]
  rw [updateHandle, Cmd.bind_run_ok hdb]
  rfl

theorem getElem?_set_handle {w : World K V} {db : ℕ} {d : Handle K} (e : Handle K)
    (hd : w.handles[db]? = some d) : (w.handles.set db e)[db]? = some e := by
  have hlt := (List.getElem?_eq_some_iff.mp hd).1
  rw [List.getElem?_set, if_pos rfl, if_pos hlt]

/-- A change of a handle that keeps its link keeps all of them. -/
theorem roots_set {w : World K V} {db : ℕ} {d : Handle K} (e : Handle K)
    (hd : w.handles[db]? = some d) (he : e.root = d.root) :
    ({ w with handles := w.handles.set db e } : World K V).roots = w.roots := by
  refine List.ext_getElem? fun i => ?_
  show ((w.handles.set db e).map Handle.root)[i]? = (w.handles.map Handle.root)[i]?
  rw [List.getElem?_map, List.getElem?_map, List.getElem?_set]
  by_cases hi : db = i
  · subst hi
    rw [if_pos rfl, if_pos (List.getElem?_eq_some_iff.mp hd).1, hd, Option.map_some,
      Option.map_some, he]
  · rw [if_neg hi]

theorem onHeap_run {α : Type} {m : CalM K V α} {w : World K V} {x : α} {s : Heap K V}
    (h : m w.heap = (.ok x, s)) : onHeap m w = (.ok x, { w with heap := s }) := by
  rw [onHeap, h]

/-- **A handle that may be updated destructively.** -/
def MayDestroy (w : World K V) (db : ℕ) (d : Handle K) : Prop :=
  w.handles[db]? = some d ∧ d.mode ≠ some .pers ∧ d.mode ≠ some .read

theorem rbiWantDestructive_accepts {w : World K V} {db : ℕ} {d : Handle K}
    (hd : MayDestroy w db d) :
    ∃ w' d', rbiWantDestructive db w = (.ok true, w') ∧ w'.heap = w.heap ∧
      w'.handles[db]? = some d' ∧ d'.root = d.root ∧ d'.cmp = d.cmp ∧ w'.roots = w.roots := by
  obtain ⟨hget, hpers, hread⟩ := hd
  have hv : isHandle db w = (.ok true, w) := by
    rw [isHandle, hget]
    rfl
  have hdb : handleAt db w = (.ok d, w) := by rw [handleAt, hget]
  obtain ⟨root, cmp, mode⟩ := d
  let w₁ : World K V := { w with handles := w.handles.set db ⟨root, cmp, some .destr⟩ }
  have hset : setMode db .destr w = (.ok (), w₁) := updateHandle_run _ hget
  have hroots : w₁.roots = w.roots := roots_set _ hget rfl
  have hget₁ := getElem?_set_handle ⟨root, cmp, some .destr⟩ hget
  cases mode with
  | none =>
    refine ⟨w, _, ?_, rfl, hget, rfl, rfl, rfl⟩
    rw [rbiWantDestructive, Cmd.bind_run_ok hv, if_neg (by decide), Cmd.bind_run_ok hdb]
    rfl
  | some m =>
    refine ⟨w₁, ⟨root, cmp, some .destr⟩, ?_, rfl, hget₁, rfl, rfl, hroots⟩
    rw [rbiWantDestructive, Cmd.bind_run_ok hv, if_neg (by decide), Cmd.bind_run_ok hdb]
    cases m with
    | free | destr => exact Cmd.bind_run_ok hset _
    | pers => exact absurd rfl hpers
    | read => exact absurd rfl hread

/-- A misuse is reported, and nothing else happens. -/
theorem rbiMisuse_run (message : String) (w : World K V) :
    ∃ w', rbiMisuse message w = (.ok (), w') ∧ w'.heap = w.heap ∧ w'.handles = w.handles :=
  ⟨_, rfl, rfl, rfl⟩

theorem rbiWantDestructive_refuses {w : World K V} {db : ℕ} (hd : ¬ ∃ d, MayDestroy w db d) :
    ∃ w', rbiWantDestructive db w = (.ok false, w') ∧ w'.heap = w.heap ∧
      w'.handles = w.handles := by
  cases hget : w.handles[db]? with
  | none =>
    have hv : isHandle db w = (.ok false, w) := by
      rw [isHandle, hget]
      rfl
    obtain ⟨w', hrun, hheap, hhandles⟩ := rbiMisuse_run "handle is not a vector" w
    refine ⟨w', ?_, hheap, hhandles⟩
    rw [rbiWantDestructive, Cmd.bind_run_ok hv, if_pos (by decide), Cmd.bind_run_ok hrun]
    rfl
  | some d =>
    have hv : isHandle db w = (.ok true, w) := by
      rw [isHandle, hget]
      rfl
    have hdb : handleAt db w = (.ok d, w) := by rw [handleAt, hget]
    obtain ⟨root, cmp, mode⟩ := d
    have hmisuse : ∀ message, ∃ w',
        (do rbiMisuse message; return false : ApiM K V Bool) w = (.ok false, w') ∧
          w'.heap = w.heap ∧ w'.handles = w.handles := fun message => ⟨_, rfl, rfl, rfl⟩
    rw [rbiWantDestructive, Cmd.bind_run_ok hv, if_neg (by decide), Cmd.bind_run_ok hdb]
    cases mode with
    | none => exact absurd ⟨_, hget, by simp⟩ hd
    | some m =>
      cases m with
      | free | destr => exact absurd ⟨_, hget, by simp⟩ hd
      | pers | read => exact hmisuse _

/-- The in-order walk of a tree calls its function on the entries. -/
theorem rbiForeach_run {s : Heap K V} {h : Link} {t : Tree K V} {A : Set ℕ} {fuel : ℕ}
    (ht : s.Own h t A) (hf : t.size < fuel) : rbiForeach fuel h s = (.ok t.toList, s) := by
  induction t generalizing h A fuel with
  | nil =>
    obtain ⟨fuel, rfl⟩ := Nat.exists_eq_succ_of_ne_zero (Nat.ne_zero_of_lt hf)
    rw [ht.eq_none]
    rfl
  | node c l k d r ihl ihr =>
    obtain ⟨fuel, rfl⟩ := Nat.exists_eq_succ_of_ne_zero (Nat.ne_zero_of_lt hf)
    rw [Llrb.Tree.size] at hf
    cases ht with
    | @node _ a _ _ _ _ _ _ _ _ _ _ hget _ hl₀ hr₀ =>
      rw [rbiForeach, if_pos (show vector (some a) = true from rfl),
        Cmd.bind_run_ok (left_run hget), Cmd.bind_run_ok (ihl hl₀ (by omega)),
        Cmd.bind_run_ok (key_run hget), Cmd.bind_run_ok (data_run hget),
        Cmd.bind_run_ok (right_run hget), Cmd.bind_run_ok (ihr hr₀ (by omega))]
      rfl

/-- **What `rb_from_sorted` is for**: a handle that may be updated
destructively, and a vector of pairs with strictly ascending keys. -/
def TakesSorted (w : World K V) (db : ℕ) (v : Option (List (Element K V)))
    (ps : List (K × V)) : Prop :=
  ∃ d, MayDestroy w db d ∧ v = some (ps.map Element.pair) ∧
    (ps.map Prod.fst).IsChain (Before d.cmp)

/-- **A tree of a handle** that satisfies every invariant: the sizes are
right, it is balanced below a black root, and its keys ascend. -/
structure SoundTree (w : World K V) (db : ℕ) (t : Tree K V) : Prop where
  stored : ∃ d A, w.handles[db]? = some d ∧ w.heap.Own d.root t A ∧
    (keysOf t).IsChain (Before d.cmp)
  balanced : ∃ n, Balanced t .black n

section SoundTree

variable {w : World K V} {db : ℕ} {t : Tree K V}

theorem SoundTree.rbValidate_run (print : K → String) (h : SoundTree w db t) :
    rbValidate print db w = (.ok 1, w) := by
  obtain ⟨⟨d, A, hd, ht, hs⟩, n, hb⟩ := h
  exact RbCal.rbValidate_run hd ht hb hs

theorem SoundTree.rbForeach_run (h : SoundTree w db t) :
    rbForeach db w = (.ok t.toList, w) := by
  obtain ⟨⟨d, A, hd, ht, -⟩, -⟩ := h
  have hdb : handleAt db w = (.ok d, w) := by rw [handleAt, hd]
  have hdepth : depthBound w = (.ok (w.heap.nodes.length + 1), w) := rfl
  rw [rbForeach, Cmd.bind_run_ok hdb, Cmd.bind_run_ok hdepth, onHeap,
    rbiForeach_run ht (Nat.lt_succ_of_le ht.size_le)]

end SoundTree

/-- **The tree of a vector is built and stored.** -/
theorem storeSorted_run {w : World K V} {db : ℕ} {d : Handle K} {v : List (Element K V)}
    {ps : List (K × V)} (hv : v.map Element.toPair = ps.map some)
    (hd : w.handles[db]? = some d) :
    ∃ h s' t, (do
          setRoot db (← onHeap (rbiBuildB v (2 * v.length + 2) 0 v.length
            (blackHeightFor v.length v.length 0)))
          rbSize db : ApiM K V ℤ) w
        = (.ok (ps.length : ℤ), ⟨s', w.handles.set db { d with root := h }, w.misuseCount, w.out⟩) ∧
      Grows ∅ w.heap s' ∧ s'.Own h t (w.heap.upTo ∅ s') ∧ (∃ n, Balanced t .black n) ∧
      t.toList = ps := by
  have hlength : v.length = ps.length := by
    rw [← List.length_map (f := Element.toPair), hv, List.length_map]
  rw [hlength]
  obtain ⟨hmax, hmin, hle⟩ := blackHeightFor_spec ps.length ps.length 0 (Or.inl rfl) (by omega)
  obtain ⟨h, s', t, hrun, hg, hown, hbal, hlist⟩ := (builds_slice hv (2 * ps.length + 2)).1 0
    ps.length (blackHeightFor ps.length ps.length 0) w.heap (by omega) (by omega) hmin hmax
  have hall : slice ps 0 ps.length = ps := by rw [slice, List.drop_zero, List.take_length]
  rw [hall] at hlist
  have hset := getElem?_set_handle { d with root := h } hd
  have hsize : ((ps.length : ℕ) : ℤ) = (t.size : ℤ) := by rw [← length_toList, hlist]
  let w₂ : World K V := { w with heap := s' }
  refine ⟨h, s', t, ?_, hg, hown, ⟨_, hbal⟩, hlist⟩
  refine (Cmd.bind_run_ok (onHeap_run hrun) _).trans ?_
  refine (Cmd.bind_run_ok (updateHandle_run (w := w₂) _ hd) _).trans ?_
  refine (Cmd.bind_run_ok (show handleAt db _ = (.ok { d with root := h }, _) by
    rw [handleAt, hset]) _).trans ?_
  rw [onHeap_run (rbiSize_run hown), hsize]

section FromSorted

variable {w : World K V} {db : ℕ} {d : Handle K} {v : List (Element K V)} {ps : List (K × V)}

theorem map_toPair_pair (ps : List (K × V)) :
    (ps.map Element.pair).map Element.toPair = ps.map some := by
  rw [List.map_map]
  rfl

/-- **The bulk construction** of what the check accepts. -/
theorem rbFromSorted_builds (hd : MayDestroy w db d) (hs : SortedFrom d.cmp none v ps) :
    ∃ w' t, rbFromSorted db (some v) w = (.ok (ps.length : ℤ), w') ∧ SoundTree w' db t ∧
      t.toList = ps := by
  obtain ⟨w₁, d₁, hwant, -, hd₁, -, hcmp₁, -⟩ := rbiWantDestructive_accepts hd
  have hdb : handleAt db w₁ = (.ok d₁, w₁) := by rw [handleAt, hd₁]
  obtain ⟨r, hcheck, hsorted, -⟩ := rbiCheckSorted_run d₁.cmp v none w₁.heap
  rw [← hcmp₁] at hs
  obtain rfl := hsorted.mpr ⟨ps, hs⟩
  obtain ⟨h, s', t, hrun, -, hown, hbal, hlist⟩ := storeSorted_run hs.1 hd₁
  have hset := getElem?_set_handle { d₁ with root := h } hd₁
  have hsound : SoundTree ⟨s', w₁.handles.set db { d₁ with root := h }, w₁.misuseCount, w₁.out⟩
      db t := by
    refine ⟨⟨_, _, hset, hown, ?_⟩, hbal⟩
    rw [keysOf, hlist]
    exact hs.2
  refine ⟨_, t, ?_, hsound, hlist⟩
  rw [rbFromSorted, Cmd.bind_run_ok hwant, if_neg (by decide)]
  dsimp only
  rw [Cmd.bind_run_ok hdb, Cmd.bind_run_ok (onHeap_run hcheck), if_neg (by decide)]
  exact hrun

/-- A comparison that fails is the end of the bulk construction. -/
theorem rbFromSorted_fails (hd : MayDestroy w db d) (hv : FailsFrom d.cmp none v) :
    ∃ e w', rbFromSorted db (some v) w = (.error e, w') := by
  obtain ⟨w₁, d₁, hwant, -, hd₁, -, hcmp₁, -⟩ := rbiWantDestructive_accepts hd
  have hdb : handleAt db w₁ = (.ok d₁, w₁) := by rw [handleAt, hd₁]
  obtain ⟨r, hcheck, -, hfails⟩ := rbiCheckSorted_run d₁.cmp v none w₁.heap
  rw [← hcmp₁] at hv
  obtain ⟨e, rfl⟩ := hfails.mpr hv
  have hcheck' : onHeap (rbiCheckSorted d₁.cmp none v) w₁ = (.error e, w₁) := by
    rw [onHeap, hcheck]
  refine ⟨e, w₁, ?_⟩
  rw [rbFromSorted, Cmd.bind_run_ok hwant, if_neg (by decide)]
  dsimp only
  rw [Cmd.bind_run_ok hdb, Cmd.bind_run_error hcheck']

/-- **What the check refuses** changes no tree. -/
theorem rbFromSorted_refuses (v : Option (List (Element K V)))
    (hno : ∀ d vs, MayDestroy w db d → v = some vs →
      (¬ ∃ ps, SortedFrom d.cmp none vs ps) ∧ ¬ FailsFrom d.cmp none vs) :
    ∃ w', rbFromSorted db v w = (.ok (-1), w') ∧ w'.heap = w.heap ∧ w'.roots = w.roots := by
  by_cases hmay : ∃ d, MayDestroy w db d
  · obtain ⟨d, hd⟩ := hmay
    obtain ⟨w₁, d₁, hwant, hheap, hd₁, -, hcmp₁, hroots⟩ := rbiWantDestructive_accepts hd
    have hdb : handleAt db w₁ = (.ok d₁, w₁) := by rw [handleAt, hd₁]
    have hmisuse : ∀ message w₁, w₁.heap = w.heap → w₁.roots = w.roots → ∃ w',
        (do rbiMisuse message; return -1 : ApiM K V ℤ) w₁ = (.ok (-1), w') ∧
          w'.heap = w.heap ∧ w'.roots = w.roots :=
      fun message w₁ hheap hroots => ⟨_, rfl, hheap, hroots⟩
    unfold rbFromSorted
    rw [Cmd.bind_run_ok hwant, if_neg (by decide)]
    cases v with
    | none => exact hmisuse _ w₁ hheap hroots
    | some v =>
      obtain ⟨r, hcheck, hsorted, hfails⟩ := rbiCheckSorted_run d₁.cmp v none w₁.heap
      obtain ⟨hunsorted, hnofail⟩ := hno d v hd rfl
      rw [hcmp₁] at hsorted hfails
      have hfalse : r = .ok false := by
        rcases r with e | _ | _
        · exact absurd (hfails.mp ⟨e, rfl⟩) hnofail
        · rfl
        · exact absurd (hsorted.mp rfl) hunsorted
      rw [hfalse] at hcheck
      dsimp only
      rw [Cmd.bind_run_ok hdb, Cmd.bind_run_ok (onHeap_run hcheck),
        if_pos (show (!false) = true from rfl)]
      exact hmisuse _ w₁ hheap hroots
  · obtain ⟨w', hrun, hheap, hhandles⟩ := rbiWantDestructive_refuses hmay
    refine ⟨w', ?_, hheap, by rw [World.roots, hhandles]; rfl⟩
    unfold rbFromSorted
    rw [Cmd.bind_run_ok hrun]
    rfl

end FromSorted

/-- **The bulk construction does what it is for**: from a vector of pairs with
strictly ascending keys a tree that satisfies every invariant and whose walk is
the vector; and anything else is answered with `-1`, and the trees are left
alone. -/
def BulkConstructs (print : K → String) (w : World K V) (db : ℕ)
    (v : Option (List (Element K V))) : Prop :=
  (∀ ps, TakesSorted w db v ps →
    ∃ w' t, rbFromSorted db v w = (.ok (ps.length : ℤ), w') ∧ SoundTree w' db t ∧
      t.toList = ps ∧ rbValidate print db w' = (.ok 1, w') ∧ rbForeach db w' = (.ok ps, w')) ∧
  ((¬ ∃ ps, TakesSorted w db v ps) →
    ∃ w', rbFromSorted db v w = (.ok (-1), w') ∧ w'.heap = w.heap ∧ w'.roots = w.roots)

/-- **What the check misjudges**: a vector whose elements have ascending keys
and two entries at least, some of them more; and a vector with two neighbours
whose comparison fails, where all up to them is in order. -/
def Misjudged (w : World K V) (db : ℕ) (v : Option (List (Element K V))) : Prop :=
  ∃ d vs, MayDestroy w db d ∧ v = some vs ∧
    ((∃ ps, SortedFrom d.cmp none vs ps ∧ vs ≠ ps.map Element.pair) ∨ FailsFrom d.cmp none vs)

/-- A handle is what it is. -/
theorem MayDestroy.unique {w : World K V} {db : ℕ} {d d' : Handle K} (h : MayDestroy w db d)
    (h' : MayDestroy w db d') : d = d' :=
  Option.some.inj (h.1.symm.trans h'.1)

/-- The entries of a vector are its own. -/
theorem SortedFrom.unique {cmp : Comparator K} {prev : Option K} {v : List (Element K V)}
    {ps ps' : List (K × V)} (h : SortedFrom cmp prev v ps) (h' : SortedFrom cmp prev v ps') :
    ps = ps' :=
  List.map_injective_iff.mpr (Option.some_injective _) (h.1.symm.trans h'.1)

/-- **Bulk construction**, of every vector but those that are misjudged. -/
theorem rbFromSorted_bulk_iff (print : K → String) (w : World K V) (db : ℕ)
    (v : Option (List (Element K V))) :
    BulkConstructs print w db v ↔ ¬ Misjudged w db v := by
  constructor
  · rintro ⟨-, hrefuse⟩ ⟨d, vs, hd, rfl, hmisjudged⟩
    obtain ⟨ps, hs, hne⟩ | hfails := hmisjudged
    · obtain ⟨w', t, hrun, -⟩ := rbFromSorted_builds hd hs
      obtain ⟨w'', hrun', -⟩ := hrefuse (by
        rintro ⟨ps', d', hd', hvs, hchain⟩
        obtain rfl := hd.unique hd'
        obtain rfl := Option.some.inj hvs
        exact hne (congrArg _ (hs.unique ⟨map_toPair_pair ps', hchain⟩).symm))
      have heq := Except.ok.inj (Prod.mk.inj (hrun.symm.trans hrun')).1
      omega
    · obtain ⟨e, w', hrun⟩ := rbFromSorted_fails hd hfails
      obtain ⟨w'', hrun', -⟩ := hrefuse (by
        rintro ⟨ps', d', hd', hvs, hchain⟩
        obtain rfl := hd.unique hd'
        obtain rfl := Option.some.inj hvs
        obtain ⟨w'', t, hbuilt, -⟩ :=
          rbFromSorted_builds hd (show SortedFrom d.cmp none _ ps' from ⟨map_toPair_pair ps', hchain⟩)
        cases (Prod.mk.inj (hrun.symm.trans hbuilt)).1)
      cases (Prod.mk.inj (hrun.symm.trans hrun')).1
  · intro hjudged
    constructor
    · rintro ps ⟨d, hd, rfl, hchain⟩
      obtain ⟨w', t, hrun, hsound, hlist⟩ :=
        rbFromSorted_builds hd (show SortedFrom d.cmp none _ ps from ⟨map_toPair_pair ps, hchain⟩)
      exact ⟨w', t, hrun, hsound, hlist, hsound.rbValidate_run print, hlist ▸ hsound.rbForeach_run⟩
    · intro hno
      refine rbFromSorted_refuses v fun d vs hd hvs => ⟨?_, fun hfails => ?_⟩
      · rintro ⟨ps, hs⟩
        by_cases hpairs : vs = ps.map Element.pair
        · exact hno ⟨ps, d, hd, hpairs ▸ hvs, hs.2⟩
        · exact hjudged ⟨d, vs, hd, hvs, .inl ⟨ps, hs, hpairs⟩⟩
      · exact hjudged ⟨d, vs, hd, hvs, .inr hfails⟩

/-- A handle without a tree, for numbers as keys. -/
def numbersWorld : World ℤ String :=
  ⟨⟨[], []⟩, [⟨none, some fun a b => .ok (a - b), some .free⟩], 0, []⟩

/-- `[[1, "a", 99]]` is taken for a vector of one pair. -/
theorem rbFromSorted_threeEntries :
    ¬ BulkConstructs toString numbersWorld 0 (some [.entries 1 "a" 1]) := by
  intro h
  refine (rbFromSorted_bulk_iff _ _ _ _).mp h ⟨_, _, ⟨rfl, nofun, nofun⟩, rfl, .inl ?_⟩
  exact ⟨[(1, "a")], ⟨rfl, .singleton _⟩, by decide⟩

/-- The answer is `1`. -/
example : (rbFromSorted 0 (some [.entries 1 "a" 1]) numbersWorld).1.toOption = some 1 := by
  decide +kernel

end RbCal
