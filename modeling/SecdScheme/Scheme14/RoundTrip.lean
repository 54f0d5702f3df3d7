import SecdScheme.Scheme14.WriteRead
import SecdScheme.Scheme14.Lists

/-!
# scheme14: what is read back is `equal?`

The objects made of a datum unfold to the datum, in tables that have grown;
two values that unfold to one datum are `equal?`. So reading back what was
written gives a value that is `equal?` to the value written. The one symbol
that may not stand before every delimiter is `#`, which begins a vector when
a parenthesis follows it.
-/

namespace Scheme14

variable {X : Type} {s s' s'' : Data X}

/-! ## Making the objects of a datum -/

mutual

/-- **What unfolded still does.** -/
theorem Data.Grows.unfolds (h : s.Grows s') : ∀ {d : Datum} {v : Value},
    s.Unfolds v d → s'.Unfolds v d
  | .atom _, _, hv => hv
  | .string _, _, ⟨a, hv, ht⟩ => ⟨a, hv, h.strings ht⟩
  | .vector _, _, ⟨a, vs, hv, hvs, hds⟩ => ⟨a, vs, hv, h.vectors hvs, h.unfoldsEach hds⟩
  | .pair _ _, _, ⟨a, x, y, hv, hp, hd, he⟩ =>
    ⟨a, x, y, hv, h.pairs hp, h.unfolds hd, h.unfolds he⟩

theorem Data.Grows.unfoldsEach (h : s.Grows s') : ∀ {ds : List Datum} {vs : List Value},
    s.UnfoldsEach vs ds → s'.UnfoldsEach vs ds
  | [], _, hvs => hvs
  | _ :: _, _, ⟨v, us, hvs, hd, hds⟩ => ⟨v, us, hvs, h.unfolds hd, h.unfoldsEach hds⟩

end

mutual

/-- **The objects made of a datum unfold to it.** -/
theorem Datum.make_unfolds : ∀ (d : Datum), d = .nil ∨ d.Readable → ∀ s : Data X,
    ∃ v s', d.make s = (.ok v, s') ∧ s.Grows s' ∧ s'.Unfolds v d
  | .atom w, h, s => by
    have hw : w.isAtom = true := by
      rcases h with h | h
      · rw [Datum.atom.inj h]
        rfl
      · cases w <;> first | rfl | exact h.elim
    exact ⟨w, s, rfl, .refl s, rfl, hw⟩
  | .string t, _, s => by
    refine ⟨_, _, rfl, ⟨⟨id⟩, getElem?_append_of_some, id⟩, s.strings.length, rfl, ?_⟩
    exact List.getElem?_concat_length
  | .vector ds, h, s => by
    obtain ⟨vs, s₁, hmake, hgrows, hds⟩ := Datum.makeEach_unfolds ds (h.resolve_left nofun) s
    have hgrows' : s₁.Grows { s₁ with vectors := s₁.vectors ++ [vs] } :=
      ⟨⟨id⟩, id, getElem?_append_of_some⟩
    refine ⟨.vector s₁.vectors.length, { s₁ with vectors := s₁.vectors ++ [vs] }, ?_,
      hgrows.trans hgrows', s₁.vectors.length, vs, rfl, List.getElem?_concat_length,
      hgrows'.unfoldsEach hds⟩
    exact (Cmd.bind_run_ok hmake _).trans rfl
  | .pair a d, h, s => by
    have h := h.resolve_left nofun
    obtain ⟨y, s₁, hy, hgrows₁, hd⟩ := Datum.make_unfolds d h.2 s
    obtain ⟨x, s₂, hx, hgrows₂, ha⟩ := Datum.make_unfolds a (.inr h.1) s₁
    have hgrows₃ : s₂.Grows { s₂ with pairs := s₂.pairs ++ [(x, y)] } :=
      ⟨⟨getElem?_append_of_some⟩, id, id⟩
    refine ⟨.pair s₂.pairs.length, { s₂ with pairs := s₂.pairs ++ [(x, y)] }, ?_,
      (hgrows₁.trans hgrows₂).trans hgrows₃, s₂.pairs.length, x, y, rfl,
      List.getElem?_concat_length, hgrows₃.unfolds ha,
      (hgrows₂.trans hgrows₃).unfolds hd⟩
    unfold Datum.make
    rw [Cmd.bind_run_ok hy, Cmd.bind_run_ok hx]
    rfl

theorem Datum.makeEach_unfolds : ∀ (ds : List Datum), Datum.EachReadable ds → ∀ s : Data X,
    ∃ vs s', Datum.makeEach ds s = (.ok vs, s') ∧ s.Grows s' ∧ s'.UnfoldsEach vs ds
  | [], _, s => ⟨[], s, rfl, .refl s, rfl⟩
  | d :: ds, h, s => by
    obtain ⟨v, s₁, hv, hgrows₁, hd⟩ := Datum.make_unfolds d (.inr h.1) s
    obtain ⟨vs, s₂, hvs, hgrows₂, hds⟩ := Datum.makeEach_unfolds ds h.2 s₁
    refine ⟨v :: vs, s₂, ?_, hgrows₁.trans hgrows₂, v, vs, rfl, hgrows₂.unfolds hd, hds⟩
    unfold Datum.makeEach
    rw [Cmd.bind_run_ok hv, Cmd.bind_run_ok hvs]
    rfl

end

/-! ## `equal?` -/

/-- The objects taken for equal are above what is compared, so that it is not
one of them. -/
theorem Above.lookup_eq_none {seen : List (Value × Value)} {v : Value} {d : Datum}
    (h : Above s (sizeOf d) (seen.map Prod.fst)) (hv : s.Unfolds v d) : seen.lookup v = none := by
  rw [List.lookup_eq_none_iff]
  intro p hp
  rw [bne_iff_ne]
  rintro rfl
  exact h.notMem hv (List.mem_map_of_mem hp)

theorem Data.UnfoldsEach.length_eq : ∀ {ds : List Datum} {vs : List Value}, s.UnfoldsEach vs ds →
    vs.length = ds.length
  | [], vs, h => by
    obtain rfl : vs = [] := h
    rfl
  | d :: ds, vs, h => by
    obtain ⟨v, us, rfl, -, hus⟩ := h
    rw [List.length_cons, List.length_cons, Data.UnfoldsEach.length_eq hus]

theorem isPair_iff_of_unfolds {v : Value} {d : Datum} (h : s.Unfolds v d) :
    isPair v = true ↔ ∃ a e, d = .pair a e := by
  cases d with
  | atom w =>
    obtain ⟨rfl, hw⟩ := h
    refine ⟨fun hp => ?_, fun ⟨a, e, he⟩ => by cases he⟩
    cases v with
    | pair => cases hw
    | _ => cases hp
  | string => obtain ⟨a, rfl, -⟩ := h; exact ⟨nofun, fun ⟨a, e, he⟩ => by cases he⟩
  | vector => obtain ⟨a, vs, rfl, -⟩ := h; exact ⟨nofun, fun ⟨a, e, he⟩ => by cases he⟩
  | pair a e => obtain ⟨a', x, y, rfl, -⟩ := h; exact ⟨fun _ => ⟨a, e, rfl⟩, fun _ => rfl⟩

mutual

/-- **Two values of one datum are `equal?`**, with room enough. -/
theorem equalValues_of_unfolds : ∀ (d : Datum) {v w : Value} {seen : List (Value × Value)} {n : ℕ},
    s.Unfolds v d → s.Unfolds w d → Above s (sizeOf d) (seen.map Prod.fst) → 2 * sizeOf d ≤ n →
      equalValues s n seen v w = some true
  | .atom x, v, w, seen, n, hv, hw, _, hn => by
    obtain ⟨n, rfl⟩ : ∃ m, n = m + 1 := ⟨n - 1, by simp at hn; omega⟩
    unfold equalValues
    rw [if_pos (hv.1.trans hw.1.symm)]
  | .string t, v, w, seen, n, hv, hw, _, hn => by
    obtain ⟨n, rfl⟩ : ∃ m, n = m + 1 := ⟨n - 1, by simp at hn; omega⟩
    obtain ⟨a, rfl, ha⟩ := hv
    obtain ⟨b, rfl, hb⟩ := hw
    unfold equalValues
    split
    · rfl
    · dsimp only
      rw [ha, hb, beq_self_eq_true]
  | .vector ds, v, w, seen, n, hv, hw, habove, hn => by
    obtain ⟨n, rfl⟩ : ∃ m, n = m + 1 := ⟨n - 1, by simp at hn; omega⟩
    have hlookup := habove.lookup_eq_none hv
    have habove' := (habove.mono (m := sizeOf ds) (by simp)).cons hv (by simp)
    obtain ⟨a, vs, rfl, hvs, hds⟩ := hv
    obtain ⟨b, ws, rfl, hws, hds'⟩ := hw
    have helems : equalElems s n ((.vector a, .vector b) :: seen) vs ws = some true :=
      equalElems_of_unfolds ds hds hds' habove' (by simp at hn; omega)
    unfold equalValues
    split
    · rfl
    · dsimp only
      rw [hlookup, hvs, hws]
      dsimp only [Option.getD_some]
      rw [if_neg (by rw [hds.length_eq, hds'.length_eq]; exact not_not_intro rfl), helems]
  | .pair d e, v, w, seen, n, hv, hw, habove, hn => by
    obtain ⟨n, rfl⟩ : ∃ m, n = m + 1 := ⟨n - 1, by simp at hn; omega⟩
    have hpairs := equalPairs_of_unfolds d e (n := n) hv hw habove (by omega)
    obtain ⟨a, x, y, rfl, -⟩ := hv
    obtain ⟨b, x', y', rfl, -⟩ := hw
    unfold equalValues
    split
    · rfl
    · exact hpairs
termination_by d => (sizeOf d, 1)

/-- The loop along the `cdr`s. -/
theorem equalPairs_of_unfolds : ∀ (d e : Datum) {v w : Value} {seen : List (Value × Value)} {n : ℕ},
    s.Unfolds v (.pair d e) → s.Unfolds w (.pair d e) →
      Above s (sizeOf (Datum.pair d e)) (seen.map Prod.fst) →
      2 * sizeOf (Datum.pair d e) ≤ n + 1 → equalPairs s n seen v w = some true
  | d, e, v, w, seen, n, hv, hw, habove, hn => by
    simp only [Datum.pair.sizeOf_spec] at hn
    obtain ⟨n, rfl⟩ : ∃ m, n = m + 1 := ⟨n - 1, by omega⟩
    have hlookup := habove.lookup_eq_none hv
    have hseen : ∀ {k}, k < sizeOf (Datum.pair d e) →
        Above s k (((v, w) :: seen).map Prod.fst) := fun hk =>
      (habove.mono (Nat.le_of_lt hk)).cons hv hk
    obtain ⟨a, x, y, -, hp, hx, hy⟩ := unfolds_pair_inv hv
    obtain ⟨b, x', y', -, hp', hx', hy'⟩ := unfolds_pair_inv hw
    have hcar := equalValues_of_unfolds d (n := n) hx hx'
      (hseen (by simp only [Datum.pair.sizeOf_spec]; omega)) (by omega)
    have habove' := hseen (k := sizeOf e) (by simp only [Datum.pair.sizeOf_spec]; omega)
    unfold equalPairs
    rw [hlookup, hp, hp']
    dsimp only
    rw [hcar]
    show (if y = y' then some true
      else if isPair y ≠ isPair y' then some false
      else if isPair y then equalPairs s n ((v, w) :: seen) y y'
      else equalValues s n ((v, w) :: seen) y y') = some true
    have hiff : isPair y = isPair y' := by
      rw [Bool.eq_iff_iff, isPair_iff_of_unfolds hy, isPair_iff_of_unfolds hy']
    split
    · rfl
    rw [if_neg (not_not_intro hiff)]
    split
    · rename_i hy_pair
      obtain ⟨d', e', rfl⟩ := (isPair_iff_of_unfolds hy).mp hy_pair
      exact equalPairs_of_unfolds d' e' hy hy' habove' (by omega)
    · exact equalValues_of_unfolds e hy hy' habove' (by omega)
termination_by d e => (1 + sizeOf d + sizeOf e, 0)

/-- The elements of two vectors. -/
theorem equalElems_of_unfolds : ∀ (ds : List Datum) {vs ws : List Value}
    {seen : List (Value × Value)} {n : ℕ}, s.UnfoldsEach vs ds → s.UnfoldsEach ws ds →
      Above s (sizeOf ds) (seen.map Prod.fst) → 2 * sizeOf ds ≤ n →
      equalElems s n seen vs ws = some true
  | [], vs, ws, seen, n, hvs, hws, _, hn => by
    obtain ⟨n, rfl⟩ : ∃ m, n = m + 1 := ⟨n - 1, by simp at hn; omega⟩
    obtain rfl : vs = [] := hvs
    obtain rfl : ws = [] := hws
    rfl
  | d :: ds, vs, ws, seen, n, hvs, hws, habove, hn => by
    obtain ⟨n, rfl⟩ : ∃ m, n = m + 1 := ⟨n - 1, by simp at hn; omega⟩
    simp only [List.cons.sizeOf_spec] at hn habove
    obtain ⟨v, vs, rfl, hv, hvs⟩ := hvs
    obtain ⟨w, ws, rfl, hw, hws⟩ := hws
    have hfirst := equalValues_of_unfolds d (n := n) hv hw (habove.mono (by omega)) (by omega)
    have hrest := equalElems_of_unfolds ds (n := n) hvs hws (habove.mono (by omega)) (by omega)
    unfold equalElems
    rw [hfirst]
    exact hrest
termination_by ds => (sizeOf ds, 0)

end

/-! ## Write, then read -/

/-- **Writing and reading back.** The value is written, with room enough, and
wherever its text stands – after what is skipped, and before what may follow –
one datum is read, up to the end of the text; what is made of it is `equal?`
to the value, both ways round, in any tables that still hold the value. -/
def ReadsBack (objectText : Value → Text) (boxed : ℕ → List Value) (s : Data X) (v : Value) (d : Datum)
    (mayFollow : Text → Prop) : Prop :=
  ∃ t, (∃ n, ∀ m, n ≤ m → writeValue objectText boxed s m v [] = some t) ∧
    ∀ before post, skipAtmosphere (before ++ (t ++ post)) = t ++ post → mayFollow post →
      ∃ e, readOne (before ++ (t ++ post)) = .ok (some (e, post)) ∧
        ∀ s₁ : Data X, s₁.Unfolds v d → ∃ v' s₂, e.make s₁ = (.ok v', s₂) ∧
          ∃ n, ∀ m, n ≤ m →
            equalValues s₂ m [] v v' = some true ∧ equalValues s₂ m [] v' v = some true

/-- **What is written is read back** before any delimiter, but for the symbol
`#` before a parenthesis. -/
theorem readsBack_of_readable (objectText : Value → Text) (boxed : ℕ → List Value) {v : Value} {d : Datum}
    (hv : s.Unfolds v d) (hd : d.Readable) :
    ReadsBack objectText boxed s v d fun post =>
      delimiterNext post = true ∧ (v = .sym "#" → post.head? ≠ some '(') := by
  refine ⟨d.text objectText, ⟨2 * sizeOf d, fun m hm => writeValue_of_unfolds d hv nofun hm⟩,
    fun before post hbefore ⟨hpost, hsharp⟩ => ⟨d, ?_, fun s₁ hv₁ => ?_⟩⟩
  · rw [readOne_eq_some_iff, hbefore]
    refine reads_text d hd hpost fun heq => hsharp ?_
    subst heq
    exact hv.1
  · obtain ⟨v', s₂, hmake, hgrows, hv'⟩ := Datum.make_unfolds d (.inr hd) s₁
    have hv₂ := hgrows.unfolds hv₁
    exact ⟨v', s₂, hmake, 2 * sizeOf d, fun m hm =>
      ⟨equalValues_of_unfolds d hv₂ hv' nofun hm, equalValues_of_unfolds d hv' hv₂ nofun hm⟩⟩

/-- Tables with the list `(1 b . "x")`. -/
def dottedData : Data Unit where
  pairs := [(.sym "b", .string 0), (.int 1, .pair 0)]
  strings := ["x"]
  vectors := []
  errors := []
  winds := []
  windNextId := 0
  handler := none
  gensymCounter := 0
  ext := ()

theorem readsBack_dotted :
    ReadsBack (fun _ => []) (fun _ => []) dottedData (.pair 1)
      (.pair (.atom (.int 1)) (.pair (.sym "b") (.string "x")))
      fun post => delimiterNext post = true ∧
        (Value.pair 1 = .sym "#" → post.head? ≠ some '(') := by
  refine readsBack_of_readable _ _
    ⟨1, _, _, rfl, rfl, ⟨rfl, rfl⟩, 0, _, _, rfl, rfl, ⟨rfl, rfl⟩, 0, rfl, rfl⟩
    ⟨trivial, .inr ⟨⟨rfl, by decide⟩, .inr (fun c hc => ?_)⟩⟩
  obtain rfl : c = 'x' := List.mem_singleton.mp hc
  decide

/-- **The symbol `#` before a parenthesis** is not read back: the two are the
beginning of a vector. -/
theorem not_readsBack_sharp :
    dottedData.Unfolds (.sym "#") (.sym "#") ∧ (Datum.sym "#").Readable ∧
      ¬ ReadsBack (fun _ => []) (fun _ => []) dottedData (.sym "#") (.sym "#")
        fun post => delimiterNext post = true := by
  refine ⟨⟨rfl, rfl⟩, ⟨rfl, by decide⟩, fun ⟨t, ⟨n, hwrite⟩, hread⟩ => ?_⟩
  have ht : t = ['#'] := by
    have hn := hwrite (n + 1) (Nat.le_succ n)
    rw [writeValue_atom rfl] at hn
    exact (Option.some.inj hn).symm
  subst ht
  obtain ⟨e, he, -⟩ := hread [] ['(', '1', ')'] rfl rfl
  have hvector : readOne ['#', '(', '1', ')'] = .ok (some (.vector [.atom (.int 1)], [])) := rfl
  have hpost := (Prod.mk.inj (Option.some.inj (Except.ok.inj (hvector.symm.trans he)))).2
  exact List.cons_ne_nil _ _ hpost.symm

end Scheme14
