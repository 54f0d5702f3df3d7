import SecdScheme.Scheme14.Lists

/-!
# scheme14: what the expanders make of well-formed forms

For the forms that bind variables: the list that is made, in tables to which
only pairs have been added. A list of bindings is given by its variables and
their expressions.
-/

namespace Scheme14

variable {X : Type} {s s' s'' : Data X}

theorem Data.KeepsPairs.isList (h : s.KeepsPairs s') {v : Value} {xs : List Value} (hv : s.IsList v xs) :
    s'.IsList v xs :=
  h.listTo hv

/-- The first element of a list and the rest. -/
theorem Data.IsList.split {v x : Value} {xs : List Value} (h : s.IsList v (x :: xs)) :
    ∃ d, asPair v s = (.ok (x, d), s) ∧ car v s = (.ok x, s) ∧ cdr v s = (.ok d, s) ∧
      s.IsList d xs ∧ isPair v = true := by
  obtain ⟨a, d, rfl, hp, hxs⟩ := h
  exact ⟨d, asPair_pair hp, car_pair hp, cdr_pair hp, hxs, rfl⟩

/-! ## Bindings -/

/-- **A list of bindings**, with its variables and expressions. -/
def Data.IsBindings (s : Data X) (v : Value) (xes : List (String × Value)) : Prop :=
  ∃ bs, s.IsList v bs ∧ List.Forall₂ (fun b xe => s.IsList b [.sym xe.1, xe.2]) bs xes

theorem Data.KeepsPairs.isBindings (h : s.KeepsPairs s') {v : Value} {xes : List (String × Value)}
    (hv : s.IsBindings v xes) : s'.IsBindings v xes := by
  obtain ⟨bs, hbs, hxes⟩ := hv
  exact ⟨bs, h.isList hbs, hxes.imp fun _ _ => h.isList⟩

theorem isBinding_of_isList {b e : Value} {x : String} (h : s.IsList b [.sym x, e]) :
    isBinding b s = (.ok true, s) := by
  obtain ⟨a, d, rfl, hp, a', d', rfl, hp', hnil⟩ := h
  obtain rfl : d' = .nil := hnil
  unfold isBinding
  rw [if_neg (show ¬ (!isPair (.pair a)) = true from nofun), Cmd.bind_run_ok (asPair_pair hp)]
  dsimp only
  rw [if_neg (show ¬ (!isSymbol (.sym x)) = true from nofun),
    if_neg (show ¬ (!isPair (.pair a')) = true from nofun), Cmd.bind_run_ok (cdr_pair hp')]
  rfl

theorem checkEach_of_forall₂ {form : String} {bindings : Value} {bs : List Value} {xes : List (String × Value)}
    (h : List.Forall₂ (fun b xe => s.IsList b [.sym xe.1, xe.2]) bs xes) :
    ∀ {v : Value} (fuel : ℕ), s.IsList v bs → bs.length < fuel →
      checkEach form bindings fuel v s = (.ok (), s) := by
  induction h with
  | nil =>
    rintro v fuel hv hfuel
    obtain ⟨fuel, rfl⟩ := Nat.exists_eq_succ_of_ne_zero (Nat.ne_of_gt hfuel)
    obtain rfl : v = .nil := hv
    rfl
  | @cons b xe bs xes hb _ ih =>
    rintro v fuel hv hfuel
    obtain ⟨fuel, rfl⟩ := Nat.exists_eq_succ_of_ne_zero (Nat.ne_of_gt (Nat.zero_lt_of_lt hfuel))
    obtain ⟨a, d, rfl, hp, hbs⟩ := hv
    unfold checkEach
    rw [if_neg (show ¬ Value.pair a = .nil from nofun)]
    dsimp only
    rw [if_neg (show ¬ (!isPair (.pair a)) = true from nofun), Cmd.bind_run_ok (asPair_pair hp)]
    rw [Cmd.bind_run_ok (isBinding_of_isList hb)]
    exact ih fuel hbs (Nat.lt_of_succ_lt_succ hfuel)

/-- `check_bindings` of bindings. -/
theorem checkBindings_of_isBindings {form : String} {v : Value} {xes : List (String × Value)}
    (h : s.IsBindings v xes) : checkBindings form v s = (.ok (), s) := by
  obtain ⟨bs, hbs, hxes⟩ := h
  have hlist : ¬ (v ≠ .nil ∧ (!isPair v) = true) := by
    rintro ⟨hne, hv⟩
    cases bs with
    | nil => exact hne hbs
    | cons b bs =>
      obtain ⟨a, d, rfl, -⟩ := hbs
      cases hv
  unfold checkBindings
  dsimp only
  rw [if_neg hlist]
  exact checkEach_of_forall₂ hxes _ hbs (Nat.lt_succ_of_le (Data.ListTo.length_le rfl hbs))

theorem bindingParts_of_isList {b e : Value} {x : String} (h : s.IsList b [.sym x, e]) :
    bindingParts b s = (.ok (.sym x, e), s) := by
  obtain ⟨d, -, hcar, hcdr, hd, -⟩ := h.split
  obtain ⟨d', -, hcar', -, -, -⟩ := hd.split
  unfold bindingParts
  rw [Cmd.bind_run_ok hcar, Cmd.bind_run_ok hcdr, Cmd.bind_run_ok hcar']
  rfl

/-- A command for each element, when each of them leaves the state. -/
theorem mapList_of_forall₂ {α β : Type} {f : α → DataM X β} {as : List α} {bs : List β}
    (h : List.Forall₂ (fun a b => f a s = (.ok b, s)) as bs) :
    Cmd.mapList f as s = (.ok bs, s) := by
  induction h with
  | nil => rfl
  | cons ha _ ih =>
    unfold Cmd.mapList
    rw [Cmd.bind_run_ok ha, Cmd.bind_run_ok ih]
    rfl

/-- **A command for each element**, when each of them adds pairs: what is known
of the elements is known of what is made of them. -/
theorem mapList_spec {α β γ : Type} {f : α → DataM X β} {R : Data X → α → γ → Prop}
    {P : Data X → β → γ → Prop} (hR : ∀ {s s' a c}, s.Grows s' → R s a c → R s' a c)
    (hP : ∀ {s s' b c}, s.Grows s' → P s b c → P s' b c)
    (hf : ∀ s a c, R s a c → ∃ b s', f a s = (.ok b, s') ∧ s.MorePairs s' ∧ P s' b c)
    {as : List α} {cs : List γ} {s : Data X} (h : List.Forall₂ (R s) as cs) :
    ∃ bs s', Cmd.mapList f as s = (.ok bs, s') ∧ s.MorePairs s' ∧ List.Forall₂ (P s') bs cs := by
  induction as generalizing cs s with
  | nil =>
    cases h
    exact ⟨[], s, rfl, .refl s, .nil⟩
  | cons a as ih =>
    cases h with
    | cons ha has =>
      obtain ⟨b, s₁, hb, h₁, hPb⟩ := hf s _ _ ha
      obtain ⟨bs, s₂, hbs, h₂, hPbs⟩ := ih (has.imp fun _ _ => hR h₁.grows)
      refine ⟨b :: bs, s₂, ?_, h₁.trans h₂, .cons (hP h₂.grows hPb) hPbs⟩
      unfold Cmd.mapList
      rw [Cmd.bind_run_ok hb, Cmd.bind_run_ok hbs]
      rfl

/-- The variables and expressions of bindings. -/
theorem bindings_of_isBindings {v : Value} {xes : List (String × Value)} (who : String)
    (h : s.IsBindings v xes) : ∃ bs, listToVector v who s = (.ok bs, s) ∧
      List.Forall₂ (fun b xe => s.IsList b [.sym xe.1, xe.2]) bs xes ∧
      Cmd.mapList bindingParts bs s = (.ok (xes.map fun xe => (.sym xe.1, xe.2)), s) := by
  obtain ⟨bs, hbs, hxes⟩ := h
  refine ⟨bs, listToVector_of_isList who hbs, hxes, mapList_of_forall₂ ?_⟩
  rw [List.forall₂_map_right_iff]
  exact hxes.imp fun _ _ => bindingParts_of_isList

/-! ## The forms that bind variables -/

/-- The symbols of names. -/
def symbols (xs : List String) : List Value := xs.map .sym

/-- A list whose tail is there already. -/
theorem isList_pair {a : ℕ} {x d : Value} {xs : List Value} (h : s.pairs[a]? = some (x, d))
    (hd : s.IsList d xs) : s.IsList (.pair a) (x :: xs) :=
  ⟨a, d, rfl, h, hd⟩

/-- **A lambda expression is made**, in two steps; the body is shared. -/
theorem makeLambda_spec (ps : Value) {body : Value} {forms : List Value}
    (hbody : s.IsList body forms) : ∃ b s₁ v s₂, makePair ps body s = (.ok b, s₁) ∧
      makePair (.sym "lambda") b s₁ = (.ok v, s₂) ∧ s.MorePairs s₂ ∧
      s₂.IsList v (.sym "lambda" :: ps :: forms) := by
  obtain ⟨b, s₁, hb, h₁, hpb⟩ := makePair_spec ps body s
  obtain ⟨a, s₂, ha, h₂, hpa⟩ := makePair_spec (.sym "lambda") (.pair b) s₁
  exact ⟨.pair b, s₁, .pair a, s₂, hb, ha, h₁.trans h₂, isList_pair hpa
    (isList_pair (h₂.grows.pairs hpb) ((h₁.trans h₂).grows.isList hbody))⟩

/-- **A form that binds variables**: the word, the bindings, and the body. -/
def Data.IsLet (s : Data X) (form : Value) (word : String) (xes : List (String × Value))
    (forms : List Value) : Prop :=
  ∃ bl, s.IsList form (.sym word :: bl :: forms) ∧ s.IsBindings bl xes

theorem Data.KeepsPairs.isLet (h : s.KeepsPairs s') {form : Value} {word : String}
    {xes : List (String × Value)} {forms : List Value} (hform : s.IsLet form word xes forms) :
    s'.IsLet form word xes forms := by
  obtain ⟨bl, hlist, hbl⟩ := hform
  exact ⟨bl, h.isList hlist, h.isBindings hbl⟩

/-- What is left of a form after its word and its bindings. -/
theorem Data.IsLet.split {form : Value} {word : String} {xes : List (String × Value)}
    {forms : List Value} (h : s.IsLet form word xes forms) : ∃ rest bl body,
      cdr form s = (.ok rest, s) ∧ checkArity word rest 1 0 s = (.ok (), s) ∧
      car rest s = (.ok bl, s) ∧ cdr rest s = (.ok body, s) ∧ s.IsBindings bl xes ∧
      s.IsList body forms := by
  obtain ⟨bl, hform, hbl⟩ := h
  obtain ⟨rest, -, -, hrest, hlist, -⟩ := hform.split
  obtain ⟨body, -, hcar, hcdr, hbody, -⟩ := hlist.split
  exact ⟨rest, bl, body, hrest, checkArity_of_isList hlist (Nat.succ_pos _) (.inl rfl), hcar, hcdr,
    hbl, hbody⟩

theorem Data.IsBindings.not_symbol {v : Value} {xes : List (String × Value)}
    (h : s.IsBindings v xes) : isSymbol v = false := by
  obtain ⟨bs, hbs, -⟩ := h
  cases bs with
  | nil =>
    obtain rfl : v = .nil := hbs
    rfl
  | cons b bs =>
    obtain ⟨a, d, rfl, -⟩ := hbs
    rfl

/-- **`let`** is the call of a lambda expression. -/
theorem expandLet_spec {form : Value} {xes : List (String × Value)} {forms : List Value}
    (h : s.IsLet form "let" xes forms) : ∃ v lam ps s', expandLet form s = (.ok v, s') ∧
      s.MorePairs s' ∧ s'.IsList v (lam :: xes.map (·.2)) ∧
      s'.IsList lam (.sym "lambda" :: ps :: forms) ∧ s'.IsList ps (symbols (xes.map (·.1))) := by
  obtain ⟨rest, bl, body, hrest, harity, hbl, hbody, hbindings, hforms⟩ := h.split
  obtain ⟨bs, hbs, -, hparts⟩ := bindings_of_isBindings "let" hbindings
  have hvars : (xes.map fun xe => (Value.sym xe.1, xe.2)).map (·.1) = symbols (xes.map (·.1)) := by
    unfold symbols
    rw [List.map_map, List.map_map]
    rfl
  have hexprs : (xes.map fun xe => (Value.sym xe.1, xe.2)).map (·.2) = xes.map (·.2) := by
    rw [List.map_map]
    rfl
  obtain ⟨ps, s₁, hps, h₁, hlist⟩ := listFrom_spec (symbols (xes.map (·.1))) s
  obtain ⟨b, s₂', lam, s₂, hb, hlam, h₂, hlam'⟩ := makeLambda_spec ps (h₁.grows.isList hforms)
  obtain ⟨v, s₃, hv, h₃, hv'⟩ := listFrom_spec (lam :: xes.map (·.2)) s₂
  refine ⟨v, lam, ps, s₃, ?_, (h₁.trans h₂).trans h₃, hv', h₃.grows.isList hlam',
    (h₂.trans h₃).grows.isList hlist⟩
  unfold expandLet
  rw [Cmd.bind_run_ok hrest, Cmd.bind_run_ok harity, Cmd.bind_run_ok hbl, Cmd.bind_run_ok hbody]
  rw [hbindings.not_symbol]
  dsimp only
  rw [if_neg Bool.false_ne_true, Cmd.bind_run_ok (checkBindings_of_isBindings hbindings),
    Cmd.bind_run_ok hbs, Cmd.bind_run_ok hparts, hvars, hexprs, Cmd.bind_run_ok hps,
    Cmd.bind_run_ok hb, Cmd.bind_run_ok hlam, hv]

/-- **What `make_begin_form` makes** of some forms: nothing, the only one, or
a `begin` form. -/
def Data.IsBegin (s : Data X) (v : Value) : List Value → Prop
  | [] => v = .nil
  | [form] => v = form
  | forms => s.IsList v (.sym "begin" :: forms)

theorem Data.KeepsPairs.isBegin (h : s.KeepsPairs s') {v : Value} {forms : List Value}
    (hv : s.IsBegin v forms) : s'.IsBegin v forms := by
  match forms, hv with
  | [], hv => exact hv
  | [_], hv => exact hv
  | _ :: _ :: _, hv => exact h.isList hv

theorem makeBeginForm_spec (forms : List Value) (s : Data X) : ∃ v s',
    makeBeginForm forms s = (.ok v, s') ∧ s.MorePairs s' ∧ s'.IsBegin v forms := by
  match forms with
  | [] => exact ⟨.nil, s, rfl, .refl s, rfl⟩
  | [form] => exact ⟨form, s, rfl, .refl s, rfl⟩
  | form :: form' :: forms => exact listFrom_spec (.sym "begin" :: form :: form' :: forms) s

/-- **`letrec`** is a `let` of undefined variables that sets them one by one. -/
theorem expandLetrec_spec {form : Value} {xes : List (String × Value)} {forms : List Value}
    (h : s.IsLet form "letrec" xes forms) : ∃ v body sets s', expandLetrec form s = (.ok v, s') ∧
      s.MorePairs s' ∧ s'.IsLet v "let" (xes.map fun xe => (xe.1, .sym ":undef")) [body] ∧
      List.Forall₂ (fun set (xe : String × Value) => s'.IsList set [.sym "set!", .sym xe.1, xe.2])
        sets xes ∧ s'.IsBegin body (sets ++ forms) := by
  obtain ⟨rest, bl, body, hrest, harity, hbl, hbody, hbindings, hforms⟩ := h.split
  obtain ⟨bs, hbs, hxes, -⟩ := bindings_of_isBindings "letrec" hbindings
  obtain ⟨undefs, s₁, hundefs, h₁, hundefs'⟩ := mapList_spec
    (f := fun b => do listFrom [← car b, .sym ":undef"])
    (R := fun s b (xe : String × Value) => s.IsList b [.sym xe.1, xe.2])
    (P := fun s b xe => s.IsList b [.sym xe.1, .sym ":undef"])
    (fun h => h.isList) (fun h => h.isList) (fun s b xe hb => by
      obtain ⟨d, -, hcar, -⟩ := hb.split
      obtain ⟨v, s', hv, hmore, hv'⟩ := listFrom_spec [.sym xe.1, .sym ":undef"] s
      exact ⟨v, s', (Cmd.bind_run_ok hcar _).trans hv, hmore, hv'⟩) hxes
  obtain ⟨sets, s₂, hsets, h₂, hsets'⟩ := mapList_spec
    (f := fun b => do listFrom [.sym "set!", ← car b, ← car (← cdr b)])
    (R := fun s b (xe : String × Value) => s.IsList b [.sym xe.1, xe.2])
    (P := fun s b xe => s.IsList b [.sym "set!", .sym xe.1, xe.2])
    (fun h => h.isList) (fun h => h.isList) (fun s b xe hb => by
      obtain ⟨d, -, hcar, hcdr, hd, -⟩ := hb.split
      obtain ⟨d', -, hcar', -⟩ := hd.split
      obtain ⟨v, s', hv, hmore, hv'⟩ := listFrom_spec [.sym "set!", .sym xe.1, xe.2] s
      refine ⟨v, s', ?_, hmore, hv'⟩
      rw [Cmd.bind_run_ok hcar, Cmd.bind_run_ok hcdr, Cmd.bind_run_ok hcar', hv])
    (hxes.imp fun _ _ => h₁.grows.isList)
  have hforms₂ := (h₁.trans h₂).grows.isList hforms
  obtain ⟨bl', s₃, hbl', h₃, hlist⟩ := listFrom_spec undefs s₂
  obtain ⟨body', s₄, hbody', h₄, hbegin⟩ := makeBeginForm_spec (sets ++ forms) s₃
  obtain ⟨v, s₅, hv, h₅, hv'⟩ := listFrom_spec [.sym "let", bl', body'] s₄
  have hlater := ((h₂.trans h₃).trans h₄).trans h₅
  refine ⟨v, body', sets, s₅, ?_, h₁.trans hlater, ⟨bl', hv', undefs,
    (h₄.trans h₅).grows.isList hlist, ?_⟩, hsets'.imp fun _ _ => ((h₃.trans h₄).trans h₅).grows.isList,
    h₅.grows.isBegin hbegin⟩
  · unfold expandLetrec
    rw [Cmd.bind_run_ok hrest, Cmd.bind_run_ok harity, Cmd.bind_run_ok hbl, Cmd.bind_run_ok hbody,
      Cmd.bind_run_ok (checkBindings_of_isBindings hbindings), Cmd.bind_run_ok hbs,
      Cmd.bind_run_ok hundefs, Cmd.bind_run_ok hsets,
      Cmd.bind_run_ok (listToVector_of_isList "letrec" hforms₂), Cmd.bind_run_ok hbl',
      Cmd.bind_run_ok hbody', hv]
  · rw [List.forall₂_map_right_iff]
    exact hundefs'.imp fun _ _ => hlater.grows.isList

/-- **What `let*` makes** of its bindings, around a body: a `let` for the first
of them. -/
def Data.IsNested (s : Data X) (v body : Value) : List (String × Value) → Prop
  | [] => v = body
  | [xe] => s.IsLet v "let" [xe] [body]
  | xe :: xes => ∃ nested, s.IsLet v "let" [xe] [nested] ∧ s.IsLet nested "let*" xes [body]

theorem expandLetStar_spec {form : Value} {xes : List (String × Value)} {forms : List Value}
    (h : s.IsLet form "let*" xes forms) : ∃ v body s', expandLetStar form s = (.ok v, s') ∧
      s.MorePairs s' ∧ s'.IsBegin body forms ∧ s'.IsNested v body xes := by
  obtain ⟨rest, bl, body, hrest, harity, hbl, hbody, hbindings, hforms⟩ := h.split
  obtain ⟨bs, hbs, hxes, -⟩ := bindings_of_isBindings "let*" hbindings
  obtain ⟨body', s₁, hbody', h₁, hbegin⟩ := makeBeginForm_spec forms s
  have hrun : ∀ f : Value → List Value → DataM X Value, (do
      let rest ← cdr form
      checkArity "let*" rest 1 0
      let bindings ← car rest
      let body ← cdr rest
      checkBindings "let*" bindings
      let bs ← listToVector bindings "let*"
      let bodyForm ← makeBeginForm (← listToVector body "let*")
      f bodyForm bs : DataM X Value) s = f body' bs s₁ := fun f => by
    rw [Cmd.bind_run_ok hrest, Cmd.bind_run_ok harity, Cmd.bind_run_ok hbl, Cmd.bind_run_ok hbody,
      Cmd.bind_run_ok (checkBindings_of_isBindings hbindings), Cmd.bind_run_ok hbs,
      Cmd.bind_run_ok (listToVector_of_isList "let*" hforms), Cmd.bind_run_ok hbody']
  cases hxes with
  | nil => exact ⟨body', body', s₁, hrun _, h₁, hbegin, rfl⟩
  | @cons b xe bs xes hb hxes =>
    cases hxes with
    | nil =>
      obtain ⟨bl', s₂, hbl', h₂, hlist⟩ := listFrom_spec [b] s₁
      obtain ⟨v, s₃, hv, h₃, hv'⟩ := listFrom_spec [.sym "let", bl', body'] s₂
      refine ⟨v, body', s₃, (hrun _).trans ?_, (h₁.trans h₂).trans h₃,
        (h₂.trans h₃).grows.isBegin hbegin, bl', hv', [b], h₃.grows.isList hlist,
        .cons (((h₁.trans h₂).trans h₃).grows.isList hb) .nil⟩
      dsimp only
      rw [Cmd.bind_run_ok hbl', hv]
    | @cons b₂ xe₂ bs xes hb₂ hxes =>
      obtain ⟨bl', s₂, hbl', h₂, hlist⟩ := listFrom_spec (b₂ :: bs) s₁
      obtain ⟨nested, s₃, hnested, h₃, hnested'⟩ := listFrom_spec [.sym "let*", bl', body'] s₂
      obtain ⟨bl'', s₄, hbl'', h₄, hlist'⟩ := listFrom_spec [b] s₃
      obtain ⟨v, s₅, hv, h₅, hv'⟩ := listFrom_spec [.sym "let", bl'', nested] s₄
      have h₃₅ := h₄.trans h₅
      have h₂₅ := h₃.trans h₃₅
      have h₁₅ := h₂.trans h₂₅
      have hall := h₁.trans h₁₅
      refine ⟨v, body', s₅, (hrun _).trans ?_, hall, h₁₅.grows.isBegin hbegin, nested,
        ⟨bl'', hv', [b], h₅.grows.isList hlist', .cons (hall.grows.isList hb) .nil⟩,
        bl', h₃₅.grows.isList hnested', b₂ :: bs, h₂₅.grows.isList hlist,
        .cons (hall.grows.isList hb₂) (hxes.imp fun _ _ => hall.grows.isList)⟩
      dsimp only
      rw [Cmd.bind_run_ok hbl', Cmd.bind_run_ok hnested, Cmd.bind_run_ok hbl'', hv]

/-- **A `let` with a name** is a `letrec` of one procedure, and its call. -/
theorem expandLet_named_spec {form bl : Value} {name : String} {xes : List (String × Value)}
    {forms : List Value} (hform : s.IsList form (.sym "let" :: .sym name :: bl :: forms))
    (hbl : s.IsBindings bl xes) : ∃ v lam ps call s', expandLet form s = (.ok v, s') ∧
      s.MorePairs s' ∧ s'.IsLet v "letrec" [(name, lam)] [call] ∧
      s'.IsList lam (.sym "lambda" :: ps :: forms) ∧ s'.IsList ps (symbols (xes.map (·.1))) ∧
      s'.IsList call (.sym name :: xes.map (·.2)) := by
  obtain ⟨rest, -, -, hrest, hlist, -⟩ := hform.split
  obtain ⟨body, -, hname, hbody, hlist', -⟩ := hlist.split
  obtain ⟨body', -, hcar, hcdr, hforms, hpair⟩ := hlist'.split
  have harity : checkArity "let" rest 1 0 s = (.ok (), s) :=
    checkArity_of_isList hlist (Nat.succ_pos _) (.inl rfl)
  obtain ⟨bs, hbs, -, hparts⟩ := bindings_of_isBindings "let" hbl
  have hvars : (xes.map fun xe => (Value.sym xe.1, xe.2)).map (·.1) = symbols (xes.map (·.1)) := by
    unfold symbols
    rw [List.map_map, List.map_map]
    rfl
  have hexprs : (xes.map fun xe => (Value.sym xe.1, xe.2)).map (·.2) = xes.map (·.2) := by
    rw [List.map_map]
    rfl
  obtain ⟨ps, s₁, hps, h₁, hps'⟩ := listFrom_spec (symbols (xes.map (·.1))) s
  obtain ⟨b, s₂', lam, s₂, hb, hlam, h₂, hlam'⟩ := makeLambda_spec ps (h₁.grows.isList hforms)
  obtain ⟨b₁, s₃, hb₁, h₃, hb₁'⟩ := listFrom_spec [.sym name, lam] s₂
  obtain ⟨bl', s₄, hbl', h₄, hlist₄⟩ := listFrom_spec [b₁] s₃
  obtain ⟨call, s₅, hcall, h₅, hcall'⟩ := listFrom_spec (.sym name :: xes.map (·.2)) s₄
  obtain ⟨v, s₆, hv, h₆, hv'⟩ := listFrom_spec [.sym "letrec", bl', call] s₅
  have h₄₆ := h₅.trans h₆
  have h₃₆ := h₄.trans h₄₆
  have h₂₆ := h₃.trans h₃₆
  refine ⟨v, lam, ps, call, s₆, ?_, (h₁.trans h₂).trans h₂₆, ⟨bl', hv', [b₁],
    h₄₆.grows.isList hlist₄, .cons (h₃₆.grows.isList hb₁') .nil⟩, h₂₆.grows.isList hlam',
    (h₂.trans h₂₆).grows.isList hps', h₆.grows.isList hcall'⟩
  unfold expandLet
  rw [Cmd.bind_run_ok hrest, Cmd.bind_run_ok harity, Cmd.bind_run_ok hname, Cmd.bind_run_ok hbody]
  dsimp only
  rw [if_pos (show isSymbol (.sym name) = true from rfl), hpair,
    if_neg (show ¬ (!true) = true from nofun), Cmd.bind_run_ok hcar, Cmd.bind_run_ok hcdr,
    Cmd.bind_run_ok (checkBindings_of_isBindings hbl), Cmd.bind_run_ok hbs,
    Cmd.bind_run_ok hparts, hvars, hexprs, Cmd.bind_run_ok hps, Cmd.bind_run_ok hb,
    Cmd.bind_run_ok hlam, Cmd.bind_run_ok hb₁, Cmd.bind_run_ok hbl', Cmd.bind_run_ok hcall, hv]

/-! ## Parameters -/

/-- The parameters of a lambda expression, fixed ones only. -/
theorem extractParams_of_symbols {v : Value} {xs : List String} (h : s.IsList v (symbols xs)) :
    extractParams v s = (.ok (some (xs, none)), s) := by
  have hfrom : ∀ (xs : List String) {v : Value} (fuel : ℕ), s.IsList v (symbols xs) →
      xs.length < fuel → extractParamsFrom fuel v s = (.ok (some (xs, none)), s) := by
    intro xs
    induction xs with
    | nil =>
      intro v fuel hv hfuel
      obtain ⟨fuel, rfl⟩ := Nat.exists_eq_succ_of_ne_zero (Nat.ne_of_gt hfuel)
      obtain rfl : v = .nil := hv
      rfl
    | cons x xs ih =>
      intro v fuel hv hfuel
      obtain ⟨fuel, rfl⟩ := Nat.exists_eq_succ_of_ne_zero (Nat.ne_of_gt (Nat.zero_lt_of_lt hfuel))
      obtain ⟨a, d, rfl, hp, hxs⟩ := hv
      unfold extractParamsFrom
      dsimp only
      rw [Cmd.bind_run_ok (asPair_pair hp)]
      dsimp only
      rw [Cmd.bind_run_ok (ih fuel hxs (Nat.lt_of_succ_lt_succ hfuel))]
      rfl
  have hlen := Data.ListTo.length_le rfl h
  unfold symbols at hlen
  rw [List.length_map] at hlen
  exact hfrom xs _ h (Nat.lt_succ_of_le hlen)

/-! ## Internal definitions -/

/-- What a definition defines its name to be: the value of an expression, or
a procedure. -/
inductive DefExpr where
  | value (e : Value)
  | procedure (ps : Value) (forms : List Value)

/-- **A well-formed definition** of a name. -/
def Data.IsDefinition (s : Data X) (form : Value) (x : String) : DefExpr → Prop
  | .value e => s.IsList form [.sym "define", .sym x, e]
  | .procedure ps forms => ∃ a, s.IsList form (.sym "define" :: .pair a :: forms) ∧
      s.pairs[a]? = some (.sym x, ps)

/-- The expression a definition evaluates. -/
def Data.IsExpr (s : Data X) (v : Value) : DefExpr → Prop
  | .value e => v = e
  | .procedure ps forms => s.IsList v (.sym "lambda" :: ps :: forms)

theorem Data.KeepsPairs.isDefinition (h : s.KeepsPairs s') {form : Value} {x : String} {d : DefExpr}
    (hd : s.IsDefinition form x d) : s'.IsDefinition form x d := by
  cases d with
  | value e => exact h.isList hd
  | procedure ps forms =>
    obtain ⟨a, hform, ha⟩ := hd
    exact ⟨a, h.isList hform, h.pairs ha⟩

theorem Data.KeepsPairs.isExpr (h : s.KeepsPairs s') {v : Value} {d : DefExpr} (hv : s.IsExpr v d) :
    s'.IsExpr v d := by
  cases d with
  | value e => exact hv
  | procedure ps forms => exact h.isList hv

/-- A form that is no definition. -/
def Data.NotDefine (s : Data X) (form : Value) : Prop :=
  isPair form = false ∨ ∃ a p, form = .pair a ∧ s.pairs[a]? = some p ∧ p.1 ≠ .sym "define"

theorem Data.KeepsPairs.notDefine (h : s.KeepsPairs s') {form : Value} (hf : s.NotDefine form) :
    s'.NotDefine form := by
  obtain hf | ⟨a, p, rfl, hp, hne⟩ := hf
  · exact .inl hf
  · exact .inr ⟨a, p, rfl, h.pairs hp, hne⟩

/-- A form that starts with another word. -/
theorem Data.IsList.notDefine {form : Value} {word : String} {xs : List Value}
    (h : s.IsList form (.sym word :: xs)) (hword : word ≠ "define") : s.NotDefine form := by
  obtain ⟨a, d, rfl, hp, -⟩ := h
  exact .inr ⟨a, _, rfl, hp, fun heq => hword (Value.sym.inj heq)⟩

theorem isDefine_of_notDefine {form : Value} (h : s.NotDefine form) :
    isDefine form s = (.ok false, s) := by
  unfold isDefine
  obtain hf | ⟨a, p, rfl, hp, hne⟩ := h
  · rw [hf]
    rfl
  · rw [if_neg (show ¬ (!isPair (.pair a)) = true from nofun), Cmd.bind_run_ok (car_pair hp)]
    show (Except.ok (p.1 == .sym "define"), s) = _
    rw [beq_eq_false_iff_ne.mpr hne]

/-- The word and the rest of a definition. -/
theorem Data.IsDefinition.split {form : Value} {x : String} {d : DefExpr}
    (h : s.IsDefinition form x d) : isDefine form s = (.ok true, s) := by
  have hlist : ∃ xs, s.IsList form (.sym "define" :: xs) := by
    cases d with
    | value e => exact ⟨_, h⟩
    | procedure ps forms =>
      obtain ⟨a, hform, -⟩ := h
      exact ⟨_, hform⟩
  obtain ⟨xs, hxs⟩ := hlist
  obtain ⟨d, -, hcar, -, -, hpair⟩ := hxs.split
  unfold isDefine
  rw [hpair, if_neg (show ¬ (!true) = true from nofun), Cmd.bind_run_ok hcar]
  rfl

/-- **The binding that a definition becomes.** -/
theorem internalBinding_spec {form : Value} {x : String} {d : DefExpr}
    (h : s.IsDefinition form x d) : ∃ b e s', internalBinding form s = (.ok b, s') ∧
      s.MorePairs s' ∧ s'.IsList b [.sym x, e] ∧ s'.IsExpr e d := by
  cases d with
  | value e =>
    obtain ⟨drest, -, -, hcdr, hlist, -⟩ := Data.IsList.split h
    obtain ⟨rhs, hpair, -, -, hrhs, hdrest⟩ := hlist.split
    obtain ⟨d', -, hcar, -, hnil, hrhs'⟩ := hrhs.split
    obtain ⟨b, s₁, hb, h₁, hb'⟩ := listFrom_spec [.sym x, e] s
    refine ⟨b, e, s₁, ?_, h₁, hb', rfl⟩
    have hne : drest ≠ .nil := by
      rintro rfl
      cases hdrest
    have hne' : rhs ≠ .nil := by
      rintro rfl
      cases hrhs'
    unfold internalBinding
    rw [Cmd.bind_run_ok hcdr]
    dsimp only
    rw [if_neg hne, Cmd.bind_run_ok hpair]
    dsimp only
    rw [if_neg hne', Cmd.bind_run_ok hcar, hb]
  | procedure ps forms =>
    obtain ⟨a, hform, ha⟩ := h
    obtain ⟨drest, -, -, hcdr, hlist, -⟩ := hform.split
    obtain ⟨rhs, hpair, -, -, hrhs, hdrest⟩ := hlist.split
    obtain ⟨b₀, s₁, lam, s₂, hb₀, hlam, h₂, hlam'⟩ := makeLambda_spec ps hrhs
    obtain ⟨b, s₃, hb, h₃, hb'⟩ := listFrom_spec [.sym x, lam] s₂
    refine ⟨b, lam, s₃, ?_, h₂.trans h₃, hb', h₃.grows.isList hlam'⟩
    have hne : drest ≠ .nil := by
      rintro rfl
      cases hdrest
    unfold internalBinding
    rw [Cmd.bind_run_ok hcdr]
    dsimp only
    rw [if_neg hne, Cmd.bind_run_ok hpair]
    dsimp only
    rw [Cmd.bind_run_ok (asPair_pair ha)]
    dsimp only
    rw [if_neg (show ¬ (!isSymbol (.sym x)) = true from nofun), Cmd.bind_run_ok hb₀,
      Cmd.bind_run_ok hlam, hb]

/-- **The leading definitions** become bindings, and the other forms stay. -/
theorem leadingDefines_spec {defs : List Value} {ds : List (String × DefExpr)} {rest : List Value}
    (h : List.Forall₂ (fun form (d : String × DefExpr) => s.IsDefinition form d.1 d.2) defs ds)
    (hrest : ∀ form ∈ rest.head?, s.NotDefine form) : ∃ bs s',
      leadingDefines (defs ++ rest) s = (.ok (bs, rest), s') ∧ s.MorePairs s' ∧
      List.Forall₂ (fun b (d : String × DefExpr) => ∃ e, s'.IsList b [.sym d.1, e] ∧
        s'.IsExpr e d.2) bs ds := by
  induction defs generalizing ds s with
  | nil =>
    cases h
    refine ⟨[], s, ?_, .refl s, .nil⟩
    cases rest with
    | nil => rfl
    | cons form rest =>
      unfold leadingDefines
      dsimp only [List.nil_append]
      rw [Cmd.bind_run_ok (isDefine_of_notDefine (hrest form rfl))]
      rfl
  | cons form defs ih =>
    cases h with
    | cons hform hdefs =>
      obtain ⟨b, e, s₁, hb, h₁, hb', he⟩ := internalBinding_spec hform
      obtain ⟨bs, s₂, hbs, h₂, hbs'⟩ := ih (hdefs.imp fun _ _ => h₁.grows.isDefinition)
        fun f hf => h₁.grows.notDefine (hrest f hf)
      refine ⟨b :: bs, s₂, ?_, h₁.trans h₂, .cons ⟨e, h₂.grows.isList hb', h₂.grows.isExpr he⟩ hbs'⟩
      rw [List.cons_append]
      unfold leadingDefines
      rw [Cmd.bind_run_ok hform.split]
      dsimp only
      rw [if_neg (show ¬ (!true) = true from nofun), Cmd.bind_run_ok hb, Cmd.bind_run_ok hbs]
      rfl

/-- A body that does not start with a definition stays as it is. -/
theorem scanOutDefines_of_notDefine {body : Value} {forms : List Value}
    (hbody : s.IsList body forms) (hforms : ∀ form ∈ forms.head?, s.NotDefine form) :
    scanOutDefines body s = (.ok body, s) := by
  have hlead : leadingDefines forms s = (.ok ([], forms), s) := by
    cases forms with
    | nil => rfl
    | cons form forms =>
      unfold leadingDefines
      dsimp only
      rw [Cmd.bind_run_ok (isDefine_of_notDefine (hforms form rfl))]
      rfl
  unfold scanOutDefines
  rw [Cmd.bind_run_ok (listToVector_of_isList "lambda body" hbody), Cmd.bind_run_ok hlead]
  rfl

/-- What the definitions become, as variables and expressions. -/
theorem exists_bindings {bs : List Value} {ds : List (String × DefExpr)}
    (h : List.Forall₂ (fun b (d : String × DefExpr) => ∃ e, s.IsList b [.sym d.1, e] ∧
      s.IsExpr e d.2) bs ds) : ∃ xes : List (String × Value),
      List.Forall₂ (fun b xe => s.IsList b [.sym xe.1, xe.2]) bs xes ∧
      List.Forall₂ (fun xe (d : String × DefExpr) => xe.1 = d.1 ∧ s.IsExpr xe.2 d.2) xes ds := by
  induction h with
  | nil => exact ⟨[], .nil, .nil⟩
  | @cons b d bs ds hd _ ih =>
    obtain ⟨e, hb, he⟩ := hd
    obtain ⟨xes, hbs, hds⟩ := ih
    exact ⟨(d.1, e) :: xes, .cons hb hbs, .cons ⟨rfl, he⟩ hds⟩

/-- **A body with leading definitions** becomes one `letrec` form. -/
theorem scanOutDefines_spec {body : Value} {defs : List Value} {ds : List (String × DefExpr)}
    {rest : List Value} (hbody : s.IsList body (defs ++ rest)) (hne : defs ≠ [])
    (h : List.Forall₂ (fun form (d : String × DefExpr) => s.IsDefinition form d.1 d.2) defs ds)
    (hrest : ∀ form ∈ rest.head?, s.NotDefine form) : ∃ body' form xes s',
      scanOutDefines body s = (.ok body', s') ∧ s.MorePairs s' ∧ s'.IsList body' [form] ∧
      s'.IsLet form "letrec" xes (if rest = [] then [.sym ":undef"] else rest) ∧
      List.Forall₂ (fun xe (d : String × DefExpr) => xe.1 = d.1 ∧ s'.IsExpr xe.2 d.2) xes ds := by
  obtain ⟨bs, s₁, hbs, h₁, hbs'⟩ := leadingDefines_spec h hrest
  obtain ⟨xes, hxes, hds⟩ := exists_bindings hbs'
  obtain ⟨bl, s₂, hbl, h₂, hbl'⟩ := listFrom_spec bs s₁
  obtain ⟨form, s₃, hform, h₃, hform'⟩ := listFrom_spec
    (.sym "letrec" :: bl :: if rest = [] then [.sym ":undef"] else rest) s₂
  obtain ⟨body', s₄, hbody', h₄, hlist⟩ := listFrom_spec [form] s₃
  have h₂₄ := (h₂.trans h₃).trans h₄
  have hne' : bs ≠ [] := by
    rintro rfl
    cases hbs'
    cases h
    exact hne rfl
  refine ⟨body', form, xes, s₄, ?_, h₁.trans h₂₄, hlist, ⟨bl, h₄.grows.isList hform',
    bs, (h₃.trans h₄).grows.isList hbl', hxes.imp fun _ _ => h₂₄.grows.isList⟩,
    hds.imp fun _ _ hd => ⟨hd.1, h₂₄.grows.isExpr hd.2⟩⟩
  unfold scanOutDefines
  rw [Cmd.bind_run_ok (listToVector_of_isList "lambda body" hbody), Cmd.bind_run_ok hbs]
  dsimp only
  rw [if_neg hne', Cmd.bind_run_ok hbl, Cmd.bind_run_ok hform, hbody']

end Scheme14
