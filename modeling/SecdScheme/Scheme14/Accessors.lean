import SecdScheme.Scheme14.Forms
import SecdScheme.Lib.CmdErrors

/-!
# scheme14: the expanders and the accessors

An accessor that is given a value of another kind is an internal error. Here
the expanders, whose checks are meant to come first: which of them can fail
with anything but an error of the form, and on what.
-/

namespace Scheme14

open Cmd (Errs)

variable {X α : Type} {s s' : Data X} {who : String}

/-! ## Errors -/

/-- **An ordinary error**, which can go to a handler. A loop along a circular
list has no end; it fails for want of fuel here. -/
def Err.Ordinary : Err → Prop
  | .scheme _ true => True
  | .outOfFuel => True
  | _ => False

/-- **An error that is reported** with the name of a form. -/
def Err.ReportedBy (who : String) : Err → Prop
  | .scheme message true =>
    (∃ what, message.text = "bad syntax in " ++ who ++ what) ∨ ∃ what, message.text = who ++ what
  | .outOfFuel => True
  | _ => False

/-- What a form reports is an ordinary error. -/
theorem Err.ReportedBy.ordinary {e : Err} (h : e.ReportedBy who) : e.Ordinary := by
  unfold Err.ReportedBy at h
  split at h
  · exact trivial
  · exact trivial
  · exact h.elim

/-- A message that begins with the name. -/
theorem Err.reportedBy_behind (what : String) (m : Message) :
    Err.ReportedBy who (.scheme (.behind (who ++ what) m) true) :=
  .inr ⟨what ++ m.text, String.append_assoc⟩

/-- A message that begins with the syntax that is bad. -/
theorem Err.reportedBy_badSyntax (what : String) (m : Message) :
    Err.ReportedBy who (.scheme (.behind ("bad syntax in " ++ who ++ what) m) true) :=
  .inl ⟨what ++ m.text, String.append_assoc⟩

theorem errs_syntaxError (what : Message) :
    Errs (Err.ReportedBy who) (syntaxError who what : DataM X α) s :=
  .fail (Err.reportedBy_badSyntax "\n  " what)

theorem errs_outOfFuel : Errs (Err.ReportedBy who) (Cmd.fail .outOfFuel : DataM X α) s :=
  .fail trivial

/-! ## Pairs as they are read -/

/-- The pair that is read at an address. -/
def Data.pairOf (s : Data X) (a : ℕ) : Value × Value := (s.pairs[a]?).getD (.nil, .nil)

/-- The fields of a pair. -/
theorem asPair_run (a : ℕ) (s : Data X) : asPair (.pair a) s = (.ok (s.pairOf a), s) := rfl

theorem car_run (a : ℕ) (s : Data X) : car (.pair a) s = (.ok (s.pairOf a).1, s) := rfl

theorem cdr_run (a : ℕ) (s : Data X) : cdr (.pair a) s = (.ok (s.pairOf a).2, s) := rfl

/-- What is a pair has an address. -/
theorem exists_pair {v : Value} (h : isPair v = true) : ∃ a, v = .pair a := by
  cases v with
  | pair a => exact ⟨a, rfl⟩
  | _ => cases h

theorem exists_pair_of_not {v : Value} (h : ¬ (!isPair v) = true) : ∃ a, v = .pair a := by
  cases v with
  | pair a => exact ⟨a, rfl⟩
  | _ => exact absurd rfl h

/-- What is a symbol has a name. -/
theorem exists_symbol {v : Value} (h : isSymbol v = true) : ∃ x, v = .sym x := by
  cases v with
  | sym x => exact ⟨x, rfl⟩
  | _ => cases h

variable {E : Err → Prop}

/-- Where a pair was tested for, taking its fields makes no error. -/
theorem errs_asPair {v : Value} (h : isPair v = true) : Errs E (asPair v : DataM X _) s := by
  obtain ⟨a, rfl⟩ := exists_pair h
  exact .of_ok (asPair_run a s)

theorem errs_car {v : Value} (h : isPair v = true) : Errs E (car v : DataM X _) s := by
  obtain ⟨a, rfl⟩ := exists_pair h
  exact .of_ok (car_run a s)

/-- **The elements of a list as they are read**, and what is behind them. -/
def Data.Chain (s : Data X) (tail v : Value) : List Value → Prop
  | [] => v = tail
  | x :: xs => ∃ a, v = .pair a ∧ (s.pairOf a).1 = x ∧ s.Chain tail (s.pairOf a).2 xs

/-- **What the walk finds** is there, and behind it is no pair. -/
theorem chain_of_walkPairs : ∀ {fuel : ℕ} {slow fast tail : Value} {xs : List Value} {s'},
    walkPairs fuel slow fast s = (.ok (some (xs, tail)), s') →
    s.Chain tail fast xs ∧ isPair tail = false
  | 0, _, _, _, _, _, h => by cases (Prod.mk.inj h).1
  | fuel + 1, slow, fast, tail, xs, _, h => by
    unfold walkPairs at h
    cases hfast : isPair fast with
    | false =>
      rw [hfast] at h
      obtain ⟨hr, -⟩ := Cmd.eq_of_pure_ok h
      obtain ⟨rfl, rfl⟩ := Prod.mk.inj (Option.some.inj hr)
      exact ⟨rfl, hfast⟩
    | true =>
      obtain ⟨a, rfl⟩ := exists_pair hfast
      rw [if_neg (show ¬ (!isPair (.pair a)) = true from Bool.false_ne_true),
        Cmd.bind_run_ok (asPair_run a s)] at h
      cases hnext : isPair (s.pairOf a).2 with
      | false =>
        rw [hnext, if_pos (show (!false) = true from rfl)] at h
        obtain ⟨hr, -⟩ := Cmd.eq_of_pure_ok h
        obtain ⟨rfl, rfl⟩ := Prod.mk.inj (Option.some.inj hr)
        exact ⟨⟨a, rfl, rfl, rfl⟩, hnext⟩
      | true =>
        obtain ⟨b, hb⟩ := exists_pair hnext
        rw [hnext, if_neg (show ¬ (!true) = true from Bool.false_ne_true), hb,
          Cmd.bind_run_ok (asPair_run b s)] at h
        obtain ⟨slow', s₁, hslow, h⟩ := Cmd.exists_of_bind_ok h
        have hs : s₁ = s := by rw [← reads_cdr slow s, hslow]
        rw [hs] at h
        split at h
        · cases (Cmd.eq_of_pure_ok h).1
        · obtain ⟨r, s₂, hr, h⟩ := Cmd.exists_of_bind_ok h
          obtain ⟨hmap, -⟩ := Cmd.eq_of_pure_ok h
          cases r with
          | none => cases hmap
          | some r =>
            obtain ⟨rfl, rfl⟩ := Prod.mk.inj (Option.some.inj hmap)
            obtain ⟨hchain, htail⟩ := chain_of_walkPairs hr
            refine ⟨⟨a, rfl, rfl, ?_⟩, htail⟩
            rw [hb]
            exact ⟨b, rfl, rfl, hchain⟩

/-- What a chain starts with. -/
theorem Data.Chain.head {tail v x : Value} {xs : List Value} (h : s.Chain tail v (x :: xs)) :
    ∃ d, isPair v = true ∧ car v s = (.ok x, s) ∧ cdr v s = (.ok d, s) ∧ s.Chain tail d xs := by
  obtain ⟨a, rfl, rfl, hd⟩ := h
  exact ⟨_, rfl, car_run a s, cdr_run a s, hd⟩

/-- A chain has one list of elements. -/
theorem Data.Chain.unique {v : Value} {xs ys : List Value} (hx : s.Chain .nil v xs)
    (hy : s.Chain .nil v ys) : xs = ys := by
  induction xs generalizing v ys with
  | nil =>
    obtain rfl : v = .nil := hx
    cases ys with
    | nil => rfl
    | cons y ys =>
      obtain ⟨a, ha, -⟩ := hy
      cases ha
  | cons x xs ih =>
    obtain ⟨a, rfl, rfl, hxs⟩ := hx
    cases ys with
    | nil => cases (show Value.pair a = .nil from hy)
    | cons y ys =>
      obtain ⟨b, hb, rfl, hys⟩ := hy
      obtain rfl := Value.pair.inj hb
      rw [ih hxs hys]

/-- **A proper list as the walk finds it.** -/
def Data.Listed (s : Data X) (v : Value) (xs : List Value) : Prop :=
  walkList v s = (.ok (some (xs, .nil)), s)

/-- A listed value is a chain that ends in `()`. -/
theorem Data.Listed.chain {v : Value} {xs : List Value} (h : s.Listed v xs) :
    s.Chain .nil v xs :=
  (chain_of_walkPairs h).1

/-- A chain to where another begins. -/
theorem Data.Chain.append {tail tail' v : Value} {xs ys : List Value} (hx : s.Chain tail v xs)
    (hy : s.Chain tail' tail ys) : s.Chain tail' v (xs ++ ys) := by
  induction xs generalizing v with
  | nil =>
    obtain rfl : v = tail := hx
    exact hy
  | cons x xs ih =>
    obtain ⟨a, rfl, rfl, hxs⟩ := hx
    exact ⟨a, rfl, rfl, ih hxs⟩

/-! ## Walks -/

/-- The slow pointer is somewhere behind the fast one, on pairs. -/
theorem errs_walkPairs : ∀ (fuel : ℕ) {slow fast : Value} {behind : List Value},
    s.Chain fast slow behind → Errs (Err.ReportedBy who) (walkPairs fuel slow fast : DataM X _) s
  | 0, _, _, _, _ => errs_outOfFuel
  | fuel + 1, slow, fast, behind, hchain => by
    unfold walkPairs
    refine .ite (fun _ => .pure) fun hfast => ?_
    obtain ⟨a, rfl⟩ := exists_pair_of_not hfast
    refine .bind_ok (asPair_run a s) (.ite (fun _ => .pure) fun hnext => ?_)
    obtain ⟨b, hb⟩ := exists_pair_of_not hnext
    rw [hb]
    refine .bind_ok (asPair_run b s) ?_
    have hlong : s.Chain (s.pairOf b).2 slow (behind ++ [(s.pairOf a).1, (s.pairOf b).1]) :=
      hchain.append ⟨a, rfl, rfl, b, hb, rfl, rfl⟩
    obtain ⟨x, xs, hbehind⟩ : ∃ x xs, behind ++ [(s.pairOf a).1, (s.pairOf b).1] = x :: xs := by
      cases behind <;> exact ⟨_, _, rfl⟩
    rw [hbehind] at hlong
    obtain ⟨d, -, -, hcdr, hd⟩ := hlong.head
    refine .bind_ok hcdr (.ite (fun _ => .pure) fun _ => ?_)
    exact (errs_walkPairs fuel hd).bind fun _ _ _ => .pure

/-- A walk along a list has only the bound to fail at. -/
theorem errs_walkList (ls : Value) : Errs (Err.ReportedBy who) (walkList ls : DataM X _) s :=
  .bind_ok rfl (errs_walkPairs _ (show s.Chain ls ls [] from rfl))

/-- What is no proper list is reported. -/
theorem errs_listToVector (ls : Value) (who : String) :
    Errs (Err.ReportedBy who) (listToVector ls who : DataM X _) s := by
  refine .bind_reads (reads_walkList ls) (errs_walkList ls) fun r _ => ?_
  split
  · exact .fail (.inr ⟨_, rfl⟩)
  · exact .pure
  · exact .fail (Err.reportedBy_behind _ _)

/-- **What was turned into a vector was listed.** -/
theorem listed_of_listToVector {ls : Value} {xs : List Value}
    (h : listToVector ls who s = (.ok xs, s')) : s.Listed ls xs :=
  Prod.ext (listToVector_eq_ok h) (reads_walkList ls s)

/-- **What is listed can be turned into one.** -/
theorem listToVector_of_listed {ls : Value} {xs : List Value} (h : s.Listed ls xs) :
    listToVector ls who s = (.ok xs, s) := by
  unfold listToVector
  rw [Cmd.bind_run_ok h]
  rfl

/-- An arity is reported by its form. -/
theorem errs_checkArity (form : String) (rest : Value) (minArgs maxArgs : ℕ) :
    Errs (Err.ReportedBy form) (checkArity form rest minArgs maxArgs : DataM X _) s := by
  unfold checkArity formArity
  refine .bind_reads (reads_formArity rest) ?_ fun r _ => ?_
  · refine .bind_reads (reads_walkList rest) (errs_walkList rest) fun r _ => ?_
    split <;> exact .pure
  · split
    · exact errs_syntaxError _
    · exact .ite (fun _ => errs_syntaxError _) fun _ => .pure

/-- **What a checked form is**: a proper list, long enough. -/
theorem listed_of_checkArity {form : String} {rest : Value} {minArgs maxArgs : ℕ}
    (h : checkArity form rest minArgs maxArgs s = (.ok (), s')) :
    ∃ xs, s.Listed rest xs ∧ minArgs ≤ xs.length ∧ (maxArgs ≠ 0 → xs.length ≤ maxArgs) := by
  obtain ⟨n, s₁, harity, h⟩ := Cmd.exists_of_bind_ok h
  obtain ⟨r, s₂, hwalk, harity⟩ := Cmd.exists_of_bind_ok harity
  have hs : s₂ = s := by rw [← reads_walkList rest s, hwalk]
  rw [hs] at hwalk
  split at harity
  · rename_i xs
    obtain ⟨rfl, -⟩ := Cmd.eq_of_pure_ok harity
    refine ⟨xs, hwalk, ?_⟩
    dsimp only at h
    split at h
    · cases (Prod.mk.inj h).1
    · omega
  · obtain ⟨rfl, -⟩ := Cmd.eq_of_pure_ok harity
    cases (Prod.mk.inj h).1

/-- **What comes after the check of a form** knows that there is an argument. -/
theorem errs_checkArity_bind {rest : Value} {minArgs maxArgs : ℕ} {m : DataM X α}
    (h : ∀ x d xs, car rest s = (.ok x, s) → cdr rest s = (.ok d, s) → s.Chain .nil d xs →
      minArgs ≤ xs.length → Errs (Err.ReportedBy who) m s) :
    Errs (Err.ReportedBy who) (checkArity who rest (minArgs + 1) maxArgs >>= fun _ => m) s := by
  refine .bind_reads (reads_checkArity _ _ _ _) (errs_checkArity _ _ _ _) fun _ hcheck => ?_
  obtain ⟨xs, hlisted, hmin, -⟩ := listed_of_checkArity hcheck
  cases xs with
  | nil => exact absurd hmin (by simp)
  | cons x xs =>
    obtain ⟨d, -, hcar, hcdr, hd⟩ := hlisted.chain.head
    exact h x d xs hcar hcdr hd (Nat.le_of_succ_le_succ hmin)

theorem errs_listFrom (xs : List Value) : Errs E (listFrom xs : DataM X _) s := by
  obtain ⟨v, s', h, -⟩ := listFrom_spec xs s
  exact .of_ok h

/-- Making a list changes no pair there is. -/
theorem grows_of_listFrom {xs : List Value} {v : Value} (h : listFrom xs s = (.ok v, s')) :
    s.Grows s' := by
  obtain ⟨v', s'', h', hmore, -⟩ := listFrom_spec xs s
  obtain ⟨-, rfl⟩ := Prod.mk.inj (h.symm.trans h')
  exact hmore.grows

theorem errs_makePair (a d : Value) : Errs E (makePair a d : DataM X _) s := .of_ok rfl

/-! ## Bindings -/

/-- **A variable and something behind it**, which is what a binding is read as. -/
def Data.Bound (s : Data X) (b : Value) : Prop :=
  ∃ a x c, b = .pair a ∧ s.pairs[a]? = some (.sym x, .pair c)

/-- A binding stays one. -/
theorem Data.Grows.bound (h : s.Grows s') {b : Value} (hb : s.Bound b) : s'.Bound b := by
  obtain ⟨a, x, c, rfl, hp⟩ := hb
  exact ⟨a, x, c, rfl, h.pairs hp⟩

/-- The default of a read is no symbol. -/
theorem getElem?_of_pairOf {a : ℕ} {x : String} {d : Value} (h : s.pairOf a = (.sym x, d)) :
    s.pairs[a]? = some (.sym x, d) := by
  unfold Data.pairOf at h
  cases hp : s.pairs[a]? with
  | none =>
    rw [hp] at h
    cases (Prod.mk.inj h).1
  | some p =>
    rw [hp] at h
    exact congrArg some h

theorem reads_isBinding (one : Value) : Cmd.Reads (isBinding one : DataM X _) := by
  unfold isBinding
  refine .ite .pure ((reads_asPair _).bind fun p => .ite .pure (.ite .pure ?_))
  exact (reads_cdr _).bind fun _ => .pure

/-- The test of a binding looks before it takes anything apart. -/
theorem errs_isBinding (one : Value) : Errs E (isBinding one : DataM X _) s := by
  unfold isBinding
  refine .ite (fun _ => .pure) fun hone => ?_
  obtain ⟨a, rfl⟩ := exists_pair_of_not hone
  refine .bind_ok (asPair_run a s) (.ite (fun _ => .pure) fun _ => .ite (fun _ => .pure) fun h => ?_)
  obtain ⟨c, hc⟩ := exists_pair_of_not h
  exact .bind_ok (by rw [hc]; exact cdr_run c s) .pure

/-- **What passes the test is a binding.** -/
theorem bound_of_isBinding {one : Value} (h : isBinding one s = (.ok true, s')) : s.Bound one := by
  unfold isBinding at h
  cases one with
  | pair a =>
    rw [if_neg (show ¬ (!isPair (.pair a)) = true from Bool.false_ne_true),
      Cmd.bind_run_ok (asPair_run a s)] at h
    split at h
    · cases (Cmd.eq_of_pure_ok h).1
    split at h
    · cases (Cmd.eq_of_pure_ok h).1
    rename_i hsym hpair
    obtain ⟨c, hc⟩ := exists_pair_of_not hpair
    obtain ⟨x, hx⟩ := exists_symbol (v := (s.pairOf a).1) (by simpa using hsym)
    exact ⟨a, x, c, rfl, getElem?_of_pairOf (Prod.ext hx hc)⟩
  | _ => cases (Cmd.eq_of_pure_ok h).1

theorem reads_checkEach (bindings : Value) : ∀ (fuel : ℕ) (b : Value),
    Cmd.Reads (checkEach who bindings fuel b : DataM X _)
  | 0, _ => .fail
  | fuel + 1, b => by
    unfold checkEach
    dsimp only
    refine .ite .pure (.ite ((reads_syntaxError _ _).bind fun _ => ?_) ?_) <;>
      refine (reads_asPair _).bind fun p => (reads_isBinding _).bind fun _ => ?_ <;>
      exact .ite ((reads_syntaxError _ _).bind fun _ => reads_checkEach bindings fuel p.2)
        (reads_checkEach bindings fuel p.2)

/-- The check of bindings reports what is none. -/
theorem errs_checkEach (bindings : Value) : ∀ (fuel : ℕ) (b : Value),
    Errs (Err.ReportedBy who) (checkEach who bindings fuel b : DataM X _) s
  | 0, _ => errs_outOfFuel
  | fuel + 1, b => by
    unfold checkEach
    dsimp only
    refine .ite (fun _ => .pure) fun _ => .ite ?_ fun hb => ?_
    · exact fun _ => (errs_syntaxError _).bind fun _ _ h => by cases (Prod.mk.inj h).1
    · obtain ⟨a, rfl⟩ := exists_pair_of_not hb
      refine .bind_ok (asPair_run a s) ?_
      refine .bind_reads (reads_isBinding _) (errs_isBinding _) fun _ _ => .ite ?_ fun _ => ?_
      · exact fun _ => (errs_syntaxError _).bind fun _ _ h => by cases (Prod.mk.inj h).1
      · exact errs_checkEach bindings fuel _

/-- **What checked bindings are.** -/
theorem bound_of_checkEach {bindings : Value} : ∀ (fuel : ℕ) (b : Value),
    checkEach who bindings fuel b s = (.ok (), s) →
    ∃ bs, s.Chain .nil b bs ∧ ∀ one ∈ bs, s.Bound one
  | 0, _, h => by cases (Prod.mk.inj h).1
  | fuel + 1, b, h => by
    unfold checkEach at h
    dsimp only at h
    split at h
    · rename_i hb
      exact ⟨[], hb, List.forall_mem_nil _⟩
    split at h
    · cases h
    rename_i hb
    obtain ⟨a, rfl⟩ := exists_pair_of_not hb
    rw [Cmd.bind_run_ok (asPair_run a s)] at h
    obtain ⟨r, s₁, hone, h⟩ := Cmd.exists_of_bind_ok h
    have hs : s₁ = s := by rw [← reads_isBinding (s.pairOf a).1 s, hone]
    rw [hs] at h hone
    split at h
    · cases h
    rename_i hr
    obtain rfl : r = true := by simpa using hr
    obtain ⟨bs, hchain, hbs⟩ := bound_of_checkEach fuel _ h
    refine ⟨_ :: bs, ⟨a, rfl, rfl, hchain⟩, fun one hmem => ?_⟩
    rcases List.mem_cons.mp hmem with rfl | hmem
    · exact bound_of_isBinding hone
    · exact hbs one hmem

theorem reads_checkBindings (bindings : Value) :
    Cmd.Reads (checkBindings who bindings : DataM X _) := by
  unfold checkBindings
  dsimp only
  refine .ite ((reads_syntaxError _ _).bind fun _ => ?_) ?_ <;>
    exact Cmd.Reads.getState.bind fun _ => reads_checkEach _ _ _

theorem errs_checkBindings (bindings : Value) :
    Errs (Err.ReportedBy who) (checkBindings who bindings : DataM X _) s := by
  unfold checkBindings
  dsimp only
  refine .ite (fun _ => (errs_syntaxError _).bind fun _ _ h => nomatch h) fun _ => ?_
  exact .bind_ok rfl (errs_checkEach _ _ _)

/-- **What comes after the check of the bindings** knows what they are. -/
theorem errs_checkBindings_bind {bindings : Value} {m : DataM X α}
    (h : (∀ bs, s.Listed bindings bs → ∀ one ∈ bs, s.Bound one) →
      Errs (Err.ReportedBy who) m s) :
    Errs (Err.ReportedBy who) (checkBindings who bindings >>= fun _ => m) s := by
  refine .bind_reads (reads_checkBindings _) (errs_checkBindings _) fun _ hcheck => h ?_
  intro bs hbs
  unfold checkBindings at hcheck
  dsimp only at hcheck
  split at hcheck
  · cases hcheck
  · obtain ⟨bs', hchain, hbound⟩ := bound_of_checkEach _ _ hcheck
    rw [hbs.chain.unique hchain]
    exact hbound

/-- What comes after a list has been read knows its elements. -/
theorem errs_listToVector_bind {ls : Value} {f : List Value → DataM X α}
    (h : ∀ xs, s.Listed ls xs → Errs (Err.ReportedBy who) (f xs) s) :
    Errs (Err.ReportedBy who) (listToVector ls who >>= f) s :=
  .bind_reads (reads_listToVector ls who) (errs_listToVector ls who)
    fun xs hxs => h xs (listed_of_listToVector hxs)

/-- What is made of lists that are made. -/
theorem errs_listFrom_bind {xs : List Value} {f : Value → DataM X α}
    (h : ∀ v s', s.Grows s' → Errs E (f v) s') : Errs E (listFrom xs >>= f) s :=
  (errs_listFrom xs).bind fun v s' hrun => h v s' (grows_of_listFrom hrun)

/-- A binding has its parts. -/
theorem bindingParts_of_bound {b : Value} (h : s.Bound b) :
    ∃ p, bindingParts b s = (.ok p, s) := by
  obtain ⟨a, x, c, rfl, hp⟩ := h
  unfold bindingParts
  rw [Cmd.bind_run_ok (car_pair hp), Cmd.bind_run_ok (cdr_pair hp), Cmd.bind_run_ok (car_run c s)]
  exact ⟨_, rfl⟩

/-- The variables and the expressions of checked bindings. -/
theorem errs_bindingParts {bs : List Value} (h : ∀ one ∈ bs, s.Bound one) :
    Errs E (Cmd.mapList bindingParts bs : DataM X _) s := by
  refine .mapList (I := fun s' => s' = s) ?_ ?_ rfl
  · rintro one hone s' rfl
    obtain ⟨p, hp⟩ := bindingParts_of_bound (h one hone)
    exact .of_ok hp
  · rintro one hone s' b s'' rfl hb
    obtain ⟨p, hp⟩ := bindingParts_of_bound (h one hone)
    exact (Prod.mk.inj (hb.symm.trans hp)).2

/-! ## The expanders that bind -/

/-- What `let` makes of its bindings. -/
theorem errs_expandLet {form : Value} (hform : isPair form = true) :
    Errs (Err.ReportedBy "let") (expandLet form : DataM X _) s := by
  obtain ⟨a, rfl⟩ := exists_pair hform
  unfold expandLet
  refine .bind_ok (cdr_run a s) (errs_checkArity_bind fun x d xs hcar hcdr hd _ => ?_)
  refine .bind_ok hcar (.bind_ok hcdr ?_)
  dsimp only
  refine .ite (fun _ => .ite ?_ fun hbody => ?_) fun _ => ?_
  · exact fun _ => (errs_syntaxError _).bind fun _ _ h => nomatch h
  · obtain ⟨c, rfl⟩ := exists_pair_of_not hbody
    refine .bind_ok (car_run c s) (.bind_ok (cdr_run c s) ?_)
    refine errs_checkBindings_bind fun hbound => errs_listToVector_bind fun bs hbs => ?_
    refine (errs_bindingParts (hbound bs hbs)).bind fun parts s₁ _ => ?_
    refine errs_listFrom_bind fun _ _ _ => (errs_makePair _ _).bind fun _ _ _ => ?_
    refine (errs_makePair _ _).bind fun _ _ _ => errs_listFrom_bind fun _ _ _ => ?_
    exact errs_listFrom_bind fun _ _ _ => errs_listFrom_bind fun _ _ _ => errs_listFrom _
  · refine errs_checkBindings_bind fun hbound => errs_listToVector_bind fun bs hbs => ?_
    refine (errs_bindingParts (hbound bs hbs)).bind fun parts s₁ _ => ?_
    refine errs_listFrom_bind fun _ _ _ => (errs_makePair _ _).bind fun _ _ _ => ?_
    exact (errs_makePair _ _).bind fun _ _ _ => errs_listFrom _

theorem errs_makeBeginForm (forms : List Value) : Errs E (makeBeginForm forms : DataM X _) s := by
  unfold makeBeginForm
  split
  · exact .pure
  · exact .pure
  · exact errs_listFrom _

/-- `let*` reports what is wrong with it. -/
theorem errs_expandLetStar {form : Value} (hform : isPair form = true) :
    Errs (Err.ReportedBy "let*") (expandLetStar form : DataM X _) s := by
  obtain ⟨a, rfl⟩ := exists_pair hform
  unfold expandLetStar
  refine .bind_ok (cdr_run a s) (errs_checkArity_bind fun x d xs hcar hcdr hd _ => ?_)
  refine .bind_ok hcar (.bind_ok hcdr (errs_checkBindings_bind fun _ => ?_))
  refine errs_listToVector_bind fun bs _ => errs_listToVector_bind fun body _ => ?_
  refine (errs_makeBeginForm body).bind fun _ _ _ => ?_
  split
  · exact .pure
  · exact errs_listFrom_bind fun _ _ _ => errs_listFrom _
  · refine errs_listFrom_bind fun _ _ _ => errs_listFrom_bind fun _ _ _ => ?_
    exact errs_listFrom_bind fun _ _ _ => errs_listFrom _

end Scheme14
