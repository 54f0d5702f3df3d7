import SecdScheme.Lib.CmdPaired
import SecdScheme.Scheme14.Accessors
import SecdScheme.Scheme14.Compiler

/-!
# scheme14: symbols that the expanders only copy

An expander reads pairs and makes pairs. Of the symbols it comes across it
compares only a few with words of its own, `else` and `=>`; the others it copies.
So it does the same with two programs that differ in such symbols: what it makes
of one differs from what it makes of the other in these symbols only.
-/

namespace Scheme14

open Cmd (Paired)

variable {X α β γ δ : Type}

/-- **A name that a variable may have**: no word of the compiler, and none of the
two words that clauses are read for. -/
def LegalName (x : String) : Prop := keywordOf (.sym x) = none ∧ x ≠ "else" ∧ x ≠ "=>"

instance : DecidablePred LegalName := fun x =>
  inferInstanceAs (Decidable (keywordOf (.sym x) = none ∧ x ≠ "else" ∧ x ≠ "=>"))

/-- **Values that the expanders do not tell apart**: other symbols in place of
symbols, but for the words. -/
structure Indifferent (R : Value → Value → Prop) : Prop where
  atom : ∀ {v}, isSymbol v = false → R v v
  word : ∀ {z}, ¬ LegalName z → R (.sym z) (.sym z)
  same : ∀ {v v'}, R v v' →
    v' = v ∨ ∃ z z', v = .sym z ∧ v' = .sym z' ∧ LegalName z ∧ LegalName z'

namespace Indifferent

variable {R : Value → Value → Prop} (hR : Indifferent R) {v v' : Value}
include hR

theorem isPair_eq (h : R v v') : isPair v' = isPair v := by
  obtain rfl | ⟨z, z', rfl, rfl, -, -⟩ := hR.same h <;> rfl

theorem isSymbol_eq (h : R v v') : isSymbol v' = isSymbol v := by
  obtain rfl | ⟨z, z', rfl, rfl, -, -⟩ := hR.same h <;> rfl

/-- What is no legal name is recognized. -/
theorem eq_iff {u : Value} (hu : ∀ z, LegalName z → u ≠ .sym z) (h : R v v') : v = u ↔ v' = u := by
  obtain rfl | ⟨z, z', rfl, rfl, hz, hz'⟩ := hR.same h
  · rfl
  · exact ⟨fun heq => absurd heq.symm (hu z hz), fun heq => absurd heq.symm (hu z' hz')⟩

/-- The end of a list is at the same place. -/
theorem nil_iff (h : R v v') : v = .nil ↔ v' = .nil := hR.eq_iff (fun _ _ => nofun) h

theorem eq_of_isPair (h : R v v') (hv : isPair v = true) : v' = v := by
  obtain rfl | ⟨z, z', rfl, rfl, -, -⟩ := hR.same h
  · rfl
  · cases hv

end Indifferent

/-! ## Two states -/

/-- Two pairs, part by part. -/
def RelatedPairs (R : Value → Value → Prop) (p q : Value × Value) : Prop := R p.1 q.1 ∧ R p.2 q.2

/-- **Two states** whose pairs are related one by one. -/
structure Data.Related (R : Value → Value → Prop) (s t : Data X) : Prop where
  pairs : List.Forall₂ (RelatedPairs R) s.pairs t.pairs
  rest : t = { s with pairs := t.pairs }

/-- Two runs that fail leave related data; what the messages show may differ. -/
def Data.FailRelated (R : Value → Value → Prop) (_ : Err) (s : Data X) (_ : Err) (t : Data X) :
    Prop :=
  Data.Related R s t

/-- **Two commands that end alike** on two such states. -/
def Parallel (R : Value → Value → Prop) (Q : α → β → Prop) (m : DataM X α) (m' : DataM X β) :
    Prop :=
  ∀ s t, Data.Related R s t →
    Paired (Data.FailRelated R) (fun a s' b t' => Q a b ∧ Data.Related R s' t') (m s) (m' t)

namespace Parallel

variable {R : Value → Value → Prop} {P : α → β → Prop} {Q : γ → δ → Prop}

theorem pure {a : α} {b : β} (h : P a b) :
    Parallel R P (pure a : DataM X α) (pure b : DataM X β) :=
  fun _ _ hst => .ok ⟨h, hst⟩

theorem fail (e e' : Err) : Parallel R P (Cmd.fail e : DataM X α) (Cmd.fail e' : DataM X β) :=
  fun _ _ hst => .error hst

theorem bind {m : DataM X α} {m' : DataM X β} {f : α → DataM X γ} {f' : β → DataM X δ}
    (h : Parallel R P m m') (hf : ∀ a b, P a b → Parallel R Q (f a) (f' b)) :
    Parallel R Q (m >>= f) (m' >>= f') :=
  fun s t hst => Paired.bind (h s t hst) fun a s' b t' hab => hf a b hab.1 s' t' hab.2

theorem ite {c c' : Prop} [Decidable c] [Decidable c'] {m n : DataM X α} {m' n' : DataM X β}
    (hc : c ↔ c') (h : Parallel R P m m') (h' : Parallel R P n n') :
    Parallel R P (if c then m else n) (if c' then m' else n') := by
  by_cases hcond : c
  · rw [if_pos hcond, if_pos (hc.mp hcond)]
    exact h
  · rw [if_neg hcond, if_neg (fun h => hcond (hc.mpr h))]
    exact h'

theorem mapList {A : Type} {B : Type} {E : A → B → Prop} {f : A → DataM X α} {f' : B → DataM X β}
    (h : ∀ a b, E a b → Parallel R P (f a) (f' b)) {xs : List A} {ys : List B}
    (hxs : List.Forall₂ E xs ys) :
    Parallel R (List.Forall₂ P) (Cmd.mapList f xs) (Cmd.mapList f' ys) := by
  induction hxs with
  | nil => exact .pure .nil
  | cons hab _ ih =>
    exact (h _ _ hab).bind fun _ _ hfirst => ih.bind fun _ _ hrest => .pure (.cons hfirst hrest)

end Parallel

/-! ## Reading and making pairs -/

section

variable {R : Value → Value → Prop} (hR : Indifferent R) {s t : Data X} {v v' : Value}
include hR

/-- The pair at one address, or none at all. -/
theorem Indifferent.pairOf (h : Data.Related R s t) (a : ℕ) :
    RelatedPairs R (s.pairOf a) (t.pairOf a) := by
  have hnil : R .nil .nil := hR.atom rfl
  unfold Data.pairOf
  by_cases ha : a < s.pairs.length
  · have ha' : a < t.pairs.length := h.pairs.length_eq ▸ ha
    rw [List.getElem?_eq_getElem ha, List.getElem?_eq_getElem ha']
    exact List.Forall₂.get h.pairs ha ha'
  · rw [List.getElem?_eq_none (Nat.le_of_not_lt ha),
      List.getElem?_eq_none (Nat.le_of_not_lt (h.pairs.length_eq ▸ ha))]
    exact ⟨hnil, hnil⟩

theorem Indifferent.asPair (h : R v v') :
    Parallel R (RelatedPairs R) (asPair v : DataM X (Value × Value)) (asPair v') := by
  intro s t hst
  obtain rfl | ⟨z, z', rfl, rfl, -, -⟩ := hR.same h
  · cases v' with
    | pair a => exact .ok ⟨hR.pairOf hst a, hst⟩
    | _ => exact .error hst
  · exact .error hst

theorem Indifferent.car (h : R v v') : Parallel R R (car v : DataM X Value) (car v') :=
  (hR.asPair h).bind fun _ _ hpair => .pure hpair.1

theorem Indifferent.cdr (h : R v v') : Parallel R R (cdr v : DataM X Value) (cdr v') :=
  (hR.asPair h).bind fun _ _ hpair => .pure hpair.2

theorem Indifferent.makePair {d d' : Value} (hv : R v v') (hd : R d d') :
    Parallel R R (makePair v d : DataM X Value) (makePair v' d') := by
  intro s t hst
  refine .ok ⟨?_, ?_, ?_⟩
  · rw [hst.pairs.length_eq]
    exact hR.atom rfl
  · exact List.rel_append hst.pairs (.cons ⟨hv, hd⟩ .nil)
  · rw [hst.rest]

theorem Indifferent.listFrom {vs vs' : List Value} (h : List.Forall₂ R vs vs') :
    Parallel R R (listFrom vs : DataM X Value) (listFrom vs') := by
  induction h with
  | nil => exact .pure (hR.atom rfl)
  | cons hv _ ih => exact ih.bind fun _ _ hrest => hR.makePair hv hrest

/-- A word of the compiler. -/
theorem Indifferent.keyword (z : String) (hz : (keywordOf (.sym z)).isSome = true) :
    R (.sym z) (.sym z) :=
  hR.word fun hlegal => by
    rw [hlegal.1] at hz
    cases hz

theorem Indifferent.makeBeginForm {vs vs' : List Value} (h : List.Forall₂ R vs vs') :
    Parallel R R (makeBeginForm vs : DataM X Value) (makeBeginForm vs') := by
  cases h with
  | nil => exact .pure (hR.atom rfl)
  | cons hv hrest =>
    cases hrest with
    | nil => exact .pure hv
    | cons hv' hrest => exact hR.listFrom (.cons (hR.keyword "begin" rfl) (.cons hv (.cons hv' hrest)))

omit hR in
/-- A name is made, and its number is the same. -/
theorem parallel_makeGensym (word : String)
    (h : ∀ n : ℕ, R (.sym (word ++ toString n)) (.sym (word ++ toString n))) :
    Parallel R R (makeGensym word : DataM X Value) (makeGensym word) := by
  intro s t hst
  unfold makeGensym
  rw [hst.rest]
  exact .ok ⟨h _, hst.pairs, rfl⟩

/-! ## Walks -/

/-- **The pointers of a walk**: the first one is behind the second. -/
def Data.Behind (s : Data X) : Value → Value → Prop :=
  Relation.ReflTransGen fun v u => ∃ a, v = .pair a ∧ u = (s.pairOf a).2

omit hR in
theorem Data.Behind.isPair {slow fast : Value} (h : s.Behind slow fast) (hf : isPair fast = true) :
    isPair slow = true := by
  obtain rfl | ⟨u, ⟨a, rfl, -⟩, -⟩ := Relation.ReflTransGen.cases_head h
  · exact hf
  · rfl

omit hR in
/-- One pointer moves on by one pair, and the other one by two. -/
theorem Data.Behind.step {a b c : ℕ} (h : s.Behind (.pair c) (.pair a))
    (hb : (s.pairOf a).2 = .pair b) :
    Scheme14.isPair (s.pairOf c).2 = true ∧ s.Behind (s.pairOf c).2 (s.pairOf b).2 := by
  have hsecond : s.Behind (.pair b) (s.pairOf b).2 := .single ⟨b, rfl, rfl⟩
  obtain hsame | ⟨u, ⟨a', ha', rfl⟩, hrest⟩ := Relation.ReflTransGen.cases_head h
  · obtain rfl := Value.pair.inj hsame
    rw [hb]
    exact ⟨rfl, hsecond⟩
  · obtain rfl := Value.pair.inj ha'
    have hfirst : s.Behind (.pair a) (.pair b) := .single ⟨a, rfl, hb.symm⟩
    exact ⟨Data.Behind.isPair hrest rfl, (hrest.trans hfirst).trans hsecond⟩

/-- What a walk finds: the elements and the tail, or that there is no end. -/
def RelatedWalks (R : Value → Value → Prop) : Option (List Value × Value) →
    Option (List Value × Value) → Prop :=
  Option.Rel fun p q => List.Forall₂ R p.1 q.1 ∧ R p.2 q.2

theorem Indifferent.walkPairs : ∀ (fuel : ℕ) {slow slow' fast fast' : Value} {s t : Data X},
    Data.Related R s t → R slow slow' → R fast fast' → s.Behind slow fast →
      Paired (Data.FailRelated R) (fun a s' b t' => RelatedWalks R a b ∧ Data.Related R s' t')
        (walkPairs fuel slow fast s) (walkPairs fuel slow' fast' t)
  | 0, _, _, _, _, _, _, hst, _, _, _ => .error hst
  | fuel + 1, slow, slow', fast, fast', s, t, hst, hslow, hfast, hbehind => by
    unfold Scheme14.walkPairs
    by_cases hatom : (!Scheme14.isPair fast) = true
    · rw [if_pos hatom, if_pos (by rw [hR.isPair_eq hfast, hatom])]
      exact .ok ⟨.some ⟨.nil, hfast⟩, hst⟩
    rw [if_neg hatom, if_neg (by rw [hR.isPair_eq hfast]; exact hatom)]
    obtain ⟨a, rfl⟩ := exists_pair_of_not hatom
    obtain ⟨c, rfl⟩ := exists_pair (hbehind.isPair rfl)
    obtain rfl := hR.eq_of_isPair hslow rfl
    obtain rfl := hR.eq_of_isPair hfast rfl
    obtain ⟨hp₁, hp₂⟩ := hR.pairOf hst a
    rw [Cmd.bind_run_ok (asPair_run a s), Cmd.bind_run_ok (asPair_run a t)]
    by_cases hlast : (!Scheme14.isPair (s.pairOf a).2) = true
    · rw [if_pos hlast, if_pos (by rw [hR.isPair_eq hp₂, hlast])]
      exact .ok ⟨.some ⟨.cons hp₁ .nil, hp₂⟩, hst⟩
    rw [if_neg hlast, if_neg (by rw [hR.isPair_eq hp₂]; exact hlast)]
    obtain ⟨b, hb⟩ := exists_pair_of_not hlast
    obtain ⟨hq₁, hq₂⟩ := hR.pairOf hst b
    obtain ⟨hc, hstep⟩ := hbehind.step hb
    have hmoved := (hR.pairOf hst c).2
    rw [hR.eq_of_isPair hp₂ (by rw [hb]; rfl), hb, Cmd.bind_run_ok (asPair_run b s),
      Cmd.bind_run_ok (asPair_run b t), Cmd.bind_run_ok (cdr_run c s),
      Cmd.bind_run_ok (cdr_run c t), hR.eq_of_isPair hmoved hc]
    -- the first pointer is at a pair, so that only a pair can be the same
    have hmeet : (s.pairOf b).2 = (s.pairOf c).2 ↔ (t.pairOf b).2 = (s.pairOf c).2 := by
      refine hR.eq_iff (fun z _ heq => ?_) hq₂
      rw [heq] at hc
      cases hc
    by_cases hcircular : (s.pairOf b).2 = (s.pairOf c).2
    · rw [if_pos hcircular, if_pos (hmeet.mp hcircular)]
      exact .ok ⟨.none, hst⟩
    · rw [if_neg hcircular, if_neg fun h => hcircular (hmeet.mpr h)]
      refine Paired.bind (Indifferent.walkPairs fuel hst (hR.eq_of_isPair hmoved hc ▸ hmoved)
        hq₂ hstep) fun r s' r' t' hr => ?_
      obtain ⟨hr, hst'⟩ := hr
      cases hr with
      | none => exact .ok ⟨.none, hst'⟩
      | some hr => exact .ok ⟨.some ⟨.cons hp₁ (.cons hq₁ hr.1), hr.2⟩, hst'⟩

theorem Indifferent.walkList (h : R v v') :
    Parallel R (RelatedWalks R) (walkList v : DataM X _) (walkList v') := by
  intro s t hst
  show Paired _ _ (Scheme14.walkPairs (s.pairs.length + 1) v v s)
    (Scheme14.walkPairs (t.pairs.length + 1) v' v' t)
  rw [← hst.pairs.length_eq]
  exact hR.walkPairs _ hst h h .refl

theorem Indifferent.listToVector (h : R v v') (who : String) :
    Parallel R (List.Forall₂ R) (listToVector v who : DataM X _) (listToVector v' who) := by
  refine (hR.walkList h).bind fun r r' hr => ?_
  cases hr with
  | none => exact .fail _ _
  | @some p q hr =>
    obtain ⟨xs, d⟩ := p
    obtain ⟨ys, e⟩ := q
    have hnil : d = .nil ↔ e = .nil := hR.nil_iff hr.2
    by_cases hd : d = .nil
    · obtain rfl := hnil.mp hd
      subst hd
      exact .pure hr.1
    · have he : ¬ e = .nil := fun he => hd (hnil.mpr he)
      cases d <;> first | exact absurd rfl hd | skip
      all_goals cases e <;> first | exact absurd rfl he | exact .fail _ _

theorem Indifferent.formArity (h : R v v') :
    Parallel R Eq (formArity v : DataM X _) (formArity v') := by
  refine (hR.walkList h).bind fun r r' hr => ?_
  cases hr with
  | none => exact .pure rfl
  | @some p q hr =>
    obtain ⟨xs, d⟩ := p
    obtain ⟨ys, e⟩ := q
    have hnil : d = .nil ↔ e = .nil := hR.nil_iff hr.2
    by_cases hd : d = .nil
    · obtain rfl := hnil.mp hd
      subst hd
      exact .pure (congrArg some hr.1.length_eq)
    · have he : ¬ e = .nil := fun he => hd (hnil.mpr he)
      cases d <;> first | exact absurd rfl hd | skip
      all_goals cases e <;> first | exact absurd rfl he | exact .pure rfl

theorem Indifferent.checkArity (form : String) (h : R v v') (minArgs maxArgs : ℕ) :
    Parallel R Eq (checkArity form v minArgs maxArgs : DataM X Unit)
      (checkArity form v' minArgs maxArgs) := by
  refine (hR.formArity h).bind fun r r' hr => ?_
  subst hr
  cases r with
  | none => exact .fail _ _
  | some n => exact .ite Iff.rfl (.fail _ _) (.pure rfl)

end

end Scheme14
