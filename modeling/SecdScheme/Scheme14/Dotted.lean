import SecdScheme.Scheme14.Reported

/-!
# scheme14: dotted ends that no check sees

Two expanders take a value apart that they have not looked at: `do`, behind
the start value of a variable, and the scan of the internal definitions, behind
the word `define` and behind the name. A dotted end there is an internal
error, and there is no other way to one.
-/

namespace Scheme14

open Cmd (Errs)

variable {X α : Type} {s s' : Data X} {who : String} {E : Err → Prop}

/-- **A dotted end**: neither the end of a list nor a pair. -/
def Dotted (v : Value) : Prop := v ≠ .nil ∧ isPair v = false

instance (v : Value) : Decidable (Dotted v) := inferInstanceAs (Decidable (_ ∧ _))

/-- **An error of an accessor.** -/
def Err.OfAccessor (e : Err) : Prop :=
  e = .internal "as_pair on a non-pair" ∨ e = .internal "as_symbol_name on a non-symbol"

/-- An internal error is not an ordinary one. -/
theorem Err.OfAccessor.not_ordinary {e : Err} (h : e.OfAccessor) : ¬ e.Ordinary := by
  rcases h with rfl | rfl <;> exact id

section

variable {σ β : Type} {m : Cmd σ Err α} {t t' : σ}

/-- **A run that ends in an accessor.** -/
def Slips (m : Cmd σ Err α) (t : σ) : Prop := ∃ e t', m t = (.error e, t') ∧ e.OfAccessor

/-- A sequence slips where its first part does. -/
theorem Slips.bind (h : Slips m t) (f : α → Cmd σ Err β) : Slips (m >>= f) t := by
  obtain ⟨e, t', hrun, he⟩ := h
  exact ⟨e, t', Cmd.bind_run_error hrun f, he⟩

/-- Or where its second part does. -/
theorem Slips.bind_ok {a : α} {f : α → Cmd σ Err β} (hrun : m t = (.ok a, t'))
    (h : Slips (f a) t') : Slips (m >>= f) t := by
  obtain ⟨e, t'', hrun', he⟩ := h
  exact ⟨e, t'', (Cmd.bind_run_ok hrun f).trans hrun', he⟩

/-- **What slips makes an error that is no ordinary one.** -/
theorem Slips.not_errs (h : Slips m t) (hE : ∀ e, E e → e.Ordinary) : ¬ Errs E m t := by
  obtain ⟨e, t', hrun, he⟩ := h
  exact fun herrs => he.not_ordinary (hE e (herrs e t' hrun))

end

/-- A field of what is no pair. -/
theorem slips_asPair {v : Value} (h : isPair v = false) : Slips (asPair v : DataM X _) s := by
  cases v with
  | pair a => cases h
  | _ => exact ⟨_, s, rfl, .inl rfl⟩

theorem slips_car {v : Value} (h : isPair v = false) : Slips (car v : DataM X _) s :=
  (slips_asPair h).bind _

/-! ## do -/

/-- A variable of `do` that no check is missing for. -/
def Data.IsSpec (s : Data X) (v : Value) : Prop :=
  ∃ a x b, v = .pair a ∧ s.pairOf a = (.sym x, .pair b) ∧ ¬ Dotted (s.pairOf b).2

/-- **A variable with a dotted end behind its start value.** -/
def Data.DottedSpec (s : Data X) (v : Value) : Prop :=
  ∃ a x b, v = .pair a ∧ s.pairOf a = (.sym x, .pair b) ∧ Dotted (s.pairOf b).2

/-- A specification is taken apart. -/
theorem exists_doSpec {v : Value} (h : s.IsSpec v) : ∃ spec, doSpec v s = (.ok spec, s) := by
  obtain ⟨a, x, b, rfl, hp, hd⟩ := h
  unfold doSpec
  dsimp only
  rw [if_neg (show ¬ (!isPair (.pair a)) = true from nofun), Cmd.bind_run_ok (asPair_run a s), hp]
  rw [if_neg (by simp [isSymbol, isPair]), Cmd.bind_run_ok (cdr_run b s)]
  by_cases hnil : (s.pairOf b).2 = .nil
  · rw [if_pos hnil]
    exact ⟨_, rfl⟩
  · rw [if_neg hnil]
    have hpair : isPair (s.pairOf b).2 = true := by
      by_contra h
      exact hd ⟨hnil, by simpa using h⟩
    obtain ⟨c, hc⟩ := exists_pair hpair
    rw [hc]
    exact ⟨_, rfl⟩

/-- **A dotted one slips.** -/
theorem slips_doSpec {v : Value} (h : s.DottedSpec v) : Slips (doSpec v) s := by
  obtain ⟨a, x, b, rfl, hp, hnil, hd⟩ := h
  unfold doSpec
  dsimp only
  rw [if_neg (show ¬ (!isPair (.pair a)) = true from nofun)]
  refine .bind_ok (asPair_run a s) ?_
  rw [hp]
  rw [if_neg (by simp [isSymbol, isPair])]
  refine .bind_ok (cdr_run b s) ?_
  rw [if_neg hnil]
  exact (slips_car hd).bind _

/-- What is no variable with such an end is one, or it is reported. -/
theorem errs_doSpec {v : Value} (h : ¬ s.DottedSpec v) :
    Errs (Err.ReportedBy "do") (doSpec v) s := by
  unfold doSpec
  dsimp only
  refine .ite (fun _ => errs_syntaxError_bind _ _) fun hv => ?_
  obtain ⟨a, rfl⟩ := exists_pair_of_not hv
  refine .bind_ok (asPair_run a s) (.ite (fun _ => errs_syntaxError_bind _ _) fun hp => ?_)
  obtain ⟨hsym, hpair⟩ := not_or.mp hp
  obtain ⟨x, hx⟩ := exists_symbol (v := (s.pairOf a).1) (by simpa using hsym)
  obtain ⟨b, hb⟩ := exists_pair_of_not hpair
  rw [hb]
  refine .bind_ok (cdr_run b s) (.ite (fun _ => ?_) fun hnil => ?_)
  · exact .bind_ok rfl (.bind_ok (car_run b s) .pure)
  · have hrest : isPair (s.pairOf b).2 = true := by
      by_contra hd
      exact h ⟨a, x, b, rfl, Prod.ext hx hb, hnil, by simpa using hd⟩
    obtain ⟨c, hc⟩ := exists_pair hrest
    rw [hc]
    exact .bind_ok (car_run c s) (.bind_ok (car_run b s) .pure)

theorem reads_doSpec (v : Value) : Cmd.Reads (doSpec v : DataM X _) := by
  unfold doSpec
  dsimp only
  refine .ite (Cmd.Reads.fail.bind fun _ => ?_) ?_ <;>
    refine (reads_asPair _).bind fun p => .ite (Cmd.Reads.fail.bind fun _ => ?_) ?_ <;>
    refine (reads_cdr _).bind fun d => .ite (Cmd.Reads.pure.bind fun step => ?_)
      ((reads_car _).bind fun step => ?_) <;>
    exact (reads_car _).bind fun _ => .pure

/-- What was taken apart is one. -/
theorem isSpec_of_doSpec {v : Value} {spec : Value × Value × Value}
    (h : doSpec v s = (.ok spec, s')) : s.IsSpec v := by
  unfold doSpec at h
  dsimp only at h
  split at h
  · cases h
  rename_i hv
  obtain ⟨a, rfl⟩ := exists_pair_of_not hv
  rw [Cmd.bind_run_ok (asPair_run a s)] at h
  split at h
  · cases h
  rename_i hp
  obtain ⟨hsym, hpair⟩ := not_or.mp hp
  obtain ⟨x, hx⟩ := exists_symbol (v := (s.pairOf a).1) (by simpa using hsym)
  obtain ⟨b, hb⟩ := exists_pair_of_not hpair
  refine ⟨a, x, b, rfl, Prod.ext hx hb, fun hd => ?_⟩
  rw [hb, Cmd.bind_run_ok (cdr_run b s), if_neg hd.1] at h
  obtain ⟨e, s'', hrun, -⟩ := slips_car (s := s) hd.2
  rw [Cmd.bind_run_error hrun] at h
  cases h

/-- **The variables of a `do`, up to the first dotted end.** -/
def Data.DottedSpecs (s : Data X) (specs : List Value) : Prop :=
  ∃ before v behind, specs = before ++ v :: behind ∧ (∀ spec ∈ before, s.IsSpec spec) ∧
    s.DottedSpec v

/-- Specifications without a dotted one make no internal error. -/
theorem errs_doSpecs {specs : List Value} (h : ¬ s.DottedSpecs specs) :
    Errs (Err.ReportedBy "do") (Cmd.mapList doSpec specs) s := by
  induction specs with
  | nil => exact .pure
  | cons v specs ih =>
    unfold Cmd.mapList
    have hv : ¬ s.DottedSpec v := fun hv =>
      h ⟨[], v, specs, rfl, List.forall_mem_nil _, hv⟩
    refine .bind_reads (reads_doSpec v) (errs_doSpec hv) fun spec hspec => ?_
    refine (ih ?_).bind fun _ _ _ => .pure
    rintro ⟨before, v', behind, rfl, hbefore, hv'⟩
    refine h ⟨v :: before, v', behind, rfl, fun one hone => ?_, hv'⟩
    rcases List.mem_cons.mp hone with rfl | hone
    · exact isSpec_of_doSpec hspec
    · exact hbefore one hone

/-- With one they slip. -/
theorem slips_doSpecs {specs : List Value} (h : s.DottedSpecs specs) :
    Slips (Cmd.mapList doSpec specs) s := by
  obtain ⟨before, v, behind, rfl, hbefore, hv⟩ := h
  induction before with
  | nil => exact (slips_doSpec hv).bind _
  | cons spec before ih =>
    obtain ⟨r, hr⟩ := exists_doSpec (hbefore spec List.mem_cons_self)
    exact .bind_ok hr ((ih fun one hone => hbefore one (List.mem_cons_of_mem spec hone)).bind _)

/-- **A `do` with a dotted end**: it has variables and a test, and the first
variable that is not as it should be has one behind its start value. -/
def Data.DottedDo (s : Data X) (form : Value) : Prop :=
  ∃ a vars test body specs, form = .pair a ∧ s.Listed (s.pairOf a).2 (vars :: test :: body) ∧
    isPair test = true ∧ s.Listed vars specs ∧ s.DottedSpecs specs

/-- `do` reports what is wrong with it, where none is dotted. -/
theorem errs_expandDo {form : Value} (hform : isPair form = true) (h : ¬ s.DottedDo form) :
    Errs (Err.ReportedBy "do") (expandDo form) s := by
  obtain ⟨a, rfl⟩ := exists_pair hform
  unfold expandDo
  refine .bind_ok (cdr_run a s) ?_
  refine .bind_reads (reads_checkArity _ _ _ _) (errs_checkArity _ _ _ _) fun _ hcheck => ?_
  obtain ⟨xs, hlisted, hmin, -⟩ := listed_of_checkArity hcheck
  obtain ⟨vars, test, body, rfl⟩ : ∃ vars test body, xs = vars :: test :: body := by
    match xs, hmin with
    | vars :: test :: body, _ => exact ⟨vars, test, body, rfl⟩
  obtain ⟨d, -, hcar, hcdr, hd⟩ := hlisted.chain.head
  obtain ⟨d', -, hcar', hcdr', -⟩ := hd.head
  refine .bind_ok hcar (.bind_ok hcdr (.bind_ok hcar' (.bind_ok hcdr (.bind_ok hcdr' ?_))))
  dsimp only
  refine .ite (fun _ => errs_syntaxError_bind _ _) fun htest => ?_
  obtain ⟨t, ht⟩ := exists_pair_of_not htest
  refine errs_listToVector_bind fun specs hspecs => ?_
  refine (errs_doSpecs fun hd => h ⟨a, vars, test, body, specs, rfl, hlisted, ?_, hspecs, hd⟩).bind
    fun specs' s₁ _ => ?_
  · rw [ht]
    rfl
  refine (errs_makeGensym _).bind fun _ s₂ _ => errs_listToVector_bind fun _ _ => ?_
  refine errs_listFrom_bind fun _ s₃ _ => ?_
  rw [ht]
  refine .bind_ok (cdr_run t s₃) (errs_makeBeginForm_bind fun _ s₄ => .bind_ok (car_run t s₄) ?_)
  refine (errs_makeBeginForm _).bind fun _ _ _ => errs_listFrom_bind fun _ _ _ => ?_
  refine errs_listFrom_bind fun _ _ _ => errs_listFrom_bind fun _ _ _ => ?_
  refine errs_listFrom_bind fun _ _ _ => errs_listFrom_bind fun _ _ _ => ?_
  exact errs_listFrom_bind fun _ _ _ => errs_listFrom _

/-- An arity that is met. -/
theorem checkArity_of_listed {form : String} {rest : Value} {xs : List Value} {minArgs : ℕ}
    (h : s.Listed rest xs) (hmin : minArgs ≤ xs.length) :
    checkArity form rest minArgs 0 s = (.ok (), s) := by
  unfold checkArity
  rw [Cmd.bind_run_ok (formArity_of_walk (congrArg Prod.fst h))]
  dsimp only
  rw [if_neg (by omega)]
  rfl

/-- **`do` slips on a dotted specification.** -/
theorem slips_expandDo {form : Value} (h : s.DottedDo form) : Slips (expandDo form) s := by
  obtain ⟨a, vars, test, body, specs, rfl, hlisted, htest, hspecs, hd⟩ := h
  obtain ⟨d, -, hcar, hcdr, hrest⟩ := hlisted.chain.head
  obtain ⟨d', -, hcar', hcdr', -⟩ := hrest.head
  unfold expandDo
  refine .bind_ok (cdr_run a s) (.bind_ok (checkArity_of_listed hlisted (by simp)) ?_)
  refine .bind_ok hcar (.bind_ok hcdr (.bind_ok hcar' (.bind_ok hcdr (.bind_ok hcdr' ?_))))
  dsimp only
  rw [htest, if_neg (show ¬ (!true) = true from nofun)]
  exact .bind_ok (listToVector_of_listed hspecs) ((slips_doSpecs hd).bind _)

/-! ## Internal definitions -/

/-- A value whose pair, if it is one, is in the table. -/
def Data.Holds (s : Data X) : Value → Prop
  | .pair a => a < s.pairs.length
  | _ => True

/-- **Tables without loose ends**: what the pairs lead to is there. -/
def Data.Closed (s : Data X) : Prop := ∀ p ∈ s.pairs, s.Holds p.1 ∧ s.Holds p.2

/-- A pair that is there keeps its fields. -/
theorem Data.Grows.pairOf (h : s.Grows s') {a : ℕ} (ha : a < s.pairs.length) :
    s'.pairOf a = s.pairOf a := by
  have hp : s.pairs[a]? = some s.pairs[a] := List.getElem?_eq_getElem ha
  unfold Data.pairOf
  rw [hp, h.pairs hp]

/-- The fields of a pair are there. -/
theorem Data.Closed.pairOf (hs : s.Closed) (a : ℕ) :
    s.Holds (s.pairOf a).1 ∧ s.Holds (s.pairOf a).2 := by
  unfold Data.pairOf
  cases hp : s.pairs[a]? with
  | none => exact ⟨trivial, trivial⟩
  | some p => exact hs p (List.mem_of_getElem? hp)

/-- So are the elements of a chain. -/
theorem Data.Closed.chain (hs : s.Closed) {tail v : Value} {xs : List Value}
    (h : s.Chain tail v xs) : ∀ x ∈ xs, s.Holds x := by
  induction xs generalizing v with
  | nil => exact nofun
  | cons x xs ih =>
    obtain ⟨a, rfl, rfl, hxs⟩ := h
    intro y hy
    rcases List.mem_cons.mp hy with rfl | hy
    · exact (hs.pairOf a).1
    · exact ih hxs y hy

/-- A definition that no check is missing for. -/
def Data.Defines (s : Data X) (form : Value) : Prop :=
  ∃ a b, form = .pair a ∧ s.pairOf a = (.sym "define", .pair b) ∧
    ((∃ x, (s.pairOf b).1 = .sym x ∧ isPair (s.pairOf b).2 = true) ∨
      ∃ c x, (s.pairOf b).1 = .pair c ∧ (s.pairOf c).1 = .sym x)

/-- **A definition with a dotted end**, behind the word or behind the name. -/
def Data.DottedDefine (s : Data X) (form : Value) : Prop :=
  ∃ a, form = .pair a ∧ (s.pairOf a).1 = .sym "define" ∧ (Dotted (s.pairOf a).2 ∨
    ∃ b x, (s.pairOf a).2 = .pair b ∧ (s.pairOf b).1 = .sym x ∧ Dotted (s.pairOf b).2)

/-- What is in tables without loose ends is the same when they have grown. -/
theorem Data.Closed.defines_iff (hs : s.Closed) (h : s.Grows s') {form : Value}
    (hform : s.Holds form) : s'.Defines form ↔ s.Defines form := by
  unfold Data.Defines
  by_cases hpair : ∃ a, form = .pair a
  · obtain ⟨a, rfl⟩ := hpair
    refine exists_congr fun a' => exists_congr fun b => and_congr_right fun ha => ?_
    obtain rfl := Value.pair.inj ha
    rw [h.pairOf hform]
    refine and_congr_right fun hp => ?_
    have hb : b < s.pairs.length := by
      have := (hs.pairOf a).2
      rwa [hp] at this
    rw [h.pairOf hb]
    refine or_congr_right (exists_congr fun c => exists_congr fun x => and_congr_right fun hc => ?_)
    have hc' : c < s.pairs.length := by
      have := (hs.pairOf b).1
      rwa [hc] at this
    rw [h.pairOf hc']
  · exact ⟨fun ⟨a, _, ha, _⟩ => absurd ⟨a, ha⟩ hpair, fun ⟨a, _, ha, _⟩ => absurd ⟨a, ha⟩ hpair⟩

/-- A definition is dotted in a later world where it was before. -/
theorem Data.Closed.dottedDefine_iff (hs : s.Closed) (h : s.Grows s') {form : Value}
    (hform : s.Holds form) : s'.DottedDefine form ↔ s.DottedDefine form := by
  unfold Data.DottedDefine
  by_cases hpair : ∃ a, form = .pair a
  · obtain ⟨a, rfl⟩ := hpair
    refine exists_congr fun a' => and_congr_right fun ha => ?_
    obtain rfl := Value.pair.inj ha
    rw [h.pairOf hform]
    refine and_congr_right fun _ => or_congr_right (exists_congr fun b => exists_congr fun x =>
      and_congr_right fun hp => ?_)
    have hb : b < s.pairs.length := by
      have := (hs.pairOf a).2
      rwa [hp] at this
    rw [h.pairOf hb]
  · exact ⟨fun ⟨a, ha, _⟩ => absurd ⟨a, ha⟩ hpair, fun ⟨a, ha, _⟩ => absurd ⟨a, ha⟩ hpair⟩

/-- **A dotted definition slips.** -/
theorem slips_internalBinding {form : Value} (h : s.DottedDefine form) :
    Slips (internalBinding form) s := by
  obtain ⟨a, rfl, -, h⟩ := h
  unfold internalBinding
  refine .bind_ok (cdr_run a s) ?_
  rcases h with hd | ⟨b, x, hb, hx, hd⟩
  · rw [if_neg hd.1]
    exact (slips_asPair hd.2).bind _
  · rw [hb]
    dsimp only
    rw [if_neg nofun]
    refine .bind_ok (asPair_run b s) ?_
    rw [hx]
    dsimp only
    rw [if_neg hd.1]
    exact (slips_car hd.2).bind _

/-- A definition becomes a binding, and the tables grow. -/
theorem exists_internalBinding {form : Value} (h : s.Defines form) :
    ∃ b s', internalBinding form s = (.ok b, s') ∧ s.Grows s' := by
  obtain ⟨a, b, rfl, hp, h⟩ := h
  unfold internalBinding
  rw [Cmd.bind_run_ok (cdr_run a s), hp]
  dsimp only
  rw [if_neg nofun, Cmd.bind_run_ok (asPair_run b s)]
  rcases h with ⟨x, hx, hpair⟩ | ⟨c, x, hc, hx⟩
  · obtain ⟨d, hd⟩ := exists_pair hpair
    rw [hx, hd]
    obtain ⟨v, s', hv, hs', -⟩ := listFrom_spec [.sym x, (s.pairOf d).1] s
    exact ⟨v, s', hv, hs'.grows⟩
  · rw [hc]
    dsimp only
    rw [Cmd.bind_run_ok (asPair_run c s)]
    rw [hx, if_neg (show ¬ (!isSymbol (.sym x)) = true from nofun)]
    obtain ⟨v₁, s₁, hv₁, hs₁, -⟩ := makePair_spec (s.pairOf c).2 (s.pairOf b).2 s
    obtain ⟨v₂, s₂, hv₂, hs₂, -⟩ := makePair_spec (.sym "lambda") (.pair v₁) s₁
    obtain ⟨v, s', hv, hs', -⟩ := listFrom_spec [.sym x, .pair v₂] s₂
    refine ⟨v, s', ?_, (hs₁.trans (hs₂.trans hs')).grows⟩
    rw [Cmd.bind_run_ok hv₁, Cmd.bind_run_ok hv₂, hv]

/-- The test of a definition looks at the word only. -/
theorem isDefine_run (form : Value) (s : Data X) : ∃ b : Bool, isDefine form s = (.ok b, s) ∧
    (b = true ↔ ∃ a, form = .pair a ∧ (s.pairOf a).1 = .sym "define") := by
  unfold isDefine
  cases form with
  | pair a =>
    refine ⟨(s.pairOf a).1 == .sym "define", ?_, ?_⟩
    · rw [if_neg (show ¬ (!isPair (.pair a)) = true from nofun), Cmd.bind_run_ok (car_run a s)]
      rfl
    · rw [beq_iff_eq]
      exact ⟨fun h => ⟨a, rfl, h⟩, fun ⟨a', ha, h⟩ => by rwa [Value.pair.inj ha]⟩
  | _ => exact ⟨false, rfl, nofun, fun ⟨_, h, _⟩ => nomatch h⟩

/-- **What is wrong with a definition is reported**, unless it has a dotted
end. -/
theorem errs_internalBinding {form : Value} {a : ℕ} (hform : form = .pair a)
    (hword : (s.pairOf a).1 = .sym "define") (h : ¬ s.DottedDefine form) :
    Errs (Err.ReportedBy "define") (internalBinding form) s ∧
      ∀ b s', internalBinding form s = (.ok b, s') → s.Defines form := by
  subst hform
  by_cases hrest : isPair (s.pairOf a).2 = true
  · obtain ⟨b, hb⟩ := exists_pair hrest
    by_cases hgood : s.Defines (.pair a)
    · obtain ⟨v, s', hv, -⟩ := exists_internalBinding hgood
      exact ⟨.of_ok hv, fun _ _ _ => hgood⟩
    -- the name is missing, or what is defined
    suffices hfail : ∃ what, internalBinding (.pair a) s = syntaxError "define" what s by
      obtain ⟨what, hfail⟩ := hfail
      refine ⟨fun e s' hrun => ?_, fun v s' hrun => ?_⟩
      · rw [hfail] at hrun
        exact errs_syntaxError what e s' hrun
      · rw [hfail] at hrun
        cases hrun
    unfold internalBinding
    rw [Cmd.bind_run_ok (cdr_run a s), hb]
    dsimp only
    rw [if_neg nofun, Cmd.bind_run_ok (asPair_run b s)]
    have hp : s.pairOf a = (.sym "define", .pair b) := Prod.ext hword hb
    cases hlhs : (s.pairOf b).1 with
    | sym x =>
      dsimp only
      by_cases hnil : (s.pairOf b).2 = .nil
      · rw [if_pos hnil]
        exact ⟨_, rfl⟩
      · have hpair : ¬ isPair (s.pairOf b).2 = true := fun hpair =>
          hgood ⟨a, b, rfl, hp, .inl ⟨x, hlhs, hpair⟩⟩
        exact absurd ⟨a, rfl, hword, .inr ⟨b, x, hb, hlhs, hnil, by simpa using hpair⟩⟩ h
    | pair c =>
      dsimp only
      rw [Cmd.bind_run_ok (asPair_run c s)]
      have hsym : ¬ isSymbol (s.pairOf c).1 = true := fun hsym => by
        obtain ⟨x, hx⟩ := exists_symbol hsym
        exact hgood ⟨a, b, rfl, hp, .inr ⟨c, x, hlhs, hx⟩⟩
      rw [if_pos (by simpa using hsym)]
      exact ⟨_, rfl⟩
    | _ => exact ⟨_, rfl⟩
  · have hnil : (s.pairOf a).2 = .nil := by
      by_contra hnil
      exact h ⟨a, rfl, hword, .inl ⟨hnil, by simpa using hrest⟩⟩
    have hfail : internalBinding (.pair a) s =
        syntaxError "define" "internal define needs a name" s := by
      unfold internalBinding
      rw [Cmd.bind_run_ok (cdr_run a s), hnil]
      rfl
    refine ⟨fun e s' hrun => ?_, fun v s' hrun => ?_⟩
    · rw [hfail] at hrun
      exact errs_syntaxError _ e s' hrun
    · rw [hfail] at hrun
      cases hrun

/-- **Leading definitions, up to the first dotted end.** -/
def Data.DottedDefines (s : Data X) (forms : List Value) : Prop :=
  ∃ before form behind, forms = before ++ form :: behind ∧ (∀ f ∈ before, s.Defines f) ∧
    s.DottedDefine form

/-- Definitions none of which is dotted make no internal error. -/
theorem errs_leadingDefines (hs : s.Closed) {forms : List Value} (hforms : ∀ f ∈ forms, s.Holds f)
    (h : ¬ s.DottedDefines forms) (hgrows : s.Grows s') :
    Errs (Err.ReportedBy "define") (leadingDefines forms) s' := by
  induction forms generalizing s' with
  | nil => exact .pure
  | cons form forms ih =>
    have hform := hforms form List.mem_cons_self
    unfold leadingDefines
    dsimp only
    obtain ⟨b, hb, hiff⟩ := isDefine_run form s'
    refine .bind_ok hb (.ite (fun _ => .pure) fun hb' => ?_)
    obtain ⟨a, ha, hword⟩ := hiff.mp (by simpa using hb')
    have hdotted : ¬ s'.DottedDefine form := fun hd =>
      h ⟨[], form, forms, rfl, List.forall_mem_nil _, (hs.dottedDefine_iff hgrows hform).mp hd⟩
    obtain ⟨herrs, hdefines⟩ := errs_internalBinding ha hword hdotted
    refine herrs.bind fun v s₁ hv => ?_
    have hgood := hdefines v s₁ hv
    obtain ⟨v', s₁', hv', hgrows'⟩ := exists_internalBinding hgood
    obtain ⟨-, rfl⟩ := Prod.mk.inj (hv.symm.trans hv')
    refine (ih (fun f hf => hforms f (List.mem_cons_of_mem form hf)) ?_
      (hgrows.trans hgrows')).bind fun _ _ _ => .pure
    rintro ⟨before, form', behind, rfl, hbefore, hd⟩
    refine h ⟨form :: before, form', behind, rfl, fun f hf => ?_, hd⟩
    rcases List.mem_cons.mp hf with rfl | hf
    · exact (hs.defines_iff hgrows hform).mp hgood
    · exact hbefore f hf

/-- With a dotted one they slip. -/
theorem slips_leadingDefines (hs : s.Closed) {forms : List Value} (hforms : ∀ f ∈ forms, s.Holds f)
    (h : s.DottedDefines forms) (hgrows : s.Grows s') : Slips (leadingDefines forms) s' := by
  obtain ⟨before, form, behind, rfl, hbefore, hd⟩ := h
  induction before generalizing s' with
  | nil =>
    have hd' := (hs.dottedDefine_iff hgrows (hforms form List.mem_cons_self)).mpr hd
    obtain ⟨a, ha, hword, -⟩ := hd'
    obtain ⟨b, hb, hiff⟩ := isDefine_run form s'
    obtain rfl := hiff.mpr ⟨a, ha, hword⟩
    rw [List.nil_append]
    unfold leadingDefines
    refine .bind_ok hb ?_
    exact (slips_internalBinding ((hs.dottedDefine_iff hgrows (hforms form List.mem_cons_self)).mpr
      hd)).bind _
  | cons f before ih =>
    have hf := (hs.defines_iff hgrows (hforms f List.mem_cons_self)).mpr
      (hbefore f List.mem_cons_self)
    obtain ⟨v, s₁, hv, hgrows'⟩ := exists_internalBinding hf
    obtain ⟨a, b', ha, hp, -⟩ := hf
    obtain ⟨b, hb, hiff⟩ := isDefine_run f s'
    obtain rfl := hiff.mpr ⟨a, ha, congrArg Prod.fst hp⟩
    rw [List.cons_append]
    unfold leadingDefines
    refine .bind_ok hb (.bind_ok hv (Slips.bind ?_ _))
    exact ih (hgrows.trans hgrows') (fun f' hf' => hforms f' (List.mem_cons_of_mem f hf'))
      fun f' hf' => hbefore f' (List.mem_cons_of_mem f hf')

/-- **A body with a dotted end** in a definition that it starts with. -/
def Data.DottedBody (s : Data X) (body : Value) : Prop :=
  ∃ forms, s.Listed body forms ∧ s.DottedDefines forms

/-- A body that is not dotted makes no internal error. -/
theorem errs_scanOutDefines (hs : s.Closed) {body : Value} (h : ¬ s.DottedBody body) :
    Errs Err.Ordinary (scanOutDefines body) s := by
  unfold scanOutDefines
  refine .bind_reads (reads_listToVector body _)
    ((errs_listToVector body _).mono fun _ => Err.ReportedBy.ordinary) fun forms hforms => ?_
  have hlisted := listed_of_listToVector hforms
  refine ((errs_leadingDefines hs (hs.chain hlisted.chain) (fun hd => h ⟨forms, hlisted, hd⟩)
    (.refl s)).mono fun _ => Err.ReportedBy.ordinary).bind fun p _ _ => ?_
  refine .ite (fun _ => .pure) fun _ => errs_listFrom_bind fun _ _ _ => ?_
  exact errs_listFrom_bind fun _ _ _ => errs_listFrom _

/-- **A dotted body slips.** -/
theorem slips_scanOutDefines (hs : s.Closed) {body : Value} (h : s.DottedBody body) :
    Slips (scanOutDefines body) s := by
  obtain ⟨forms, hlisted, hd⟩ := h
  unfold scanOutDefines
  refine .bind_ok (listToVector_of_listed hlisted) (Slips.bind ?_ _)
  exact slips_leadingDefines hs (hs.chain hlisted.chain) hd (.refl s)

end Scheme14
