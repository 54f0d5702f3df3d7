import SecdScheme.Scheme14.Internal

/-!
# scheme14: the scope of a `let` with a name

The expander puts the call of the loop procedure, with the expressions of the
bindings, into the `letrec` that binds the name. So the expressions are
evaluated in the scope of the loop procedure, and not around the form.
-/

namespace Scheme14

variable {X : Type} {host : Host X} {n : ℕ} {w w' : World X} {env : CompileEnv} {tail : Bool}

/-- A frame of one variable hides that name, and moves the others. -/
theorem locationOf_singleton (x name : String) (env : CompileEnv) :
    locationOf x ([name] :: env) =
      if x = name then some (0, 0) else (locationOf x env).map fun p => (p.1 + 1, p.2) := by
  rw [locationOf, List.findIdx?_singleton]
  by_cases hx : x = name
  · rw [if_pos hx, hx, beq_self_eq_true]
    rfl
  · rw [if_neg hx, beq_eq_false_iff_ne.mpr (Ne.symm hx)]
    rfl

/-- **What a `let` with a name means**: a closure over the name alone is
entered at once. Its body sets the name to the loop procedure and calls it,
and all of this is compiled in the scope of the name, the expressions of the
bindings included: there the name is the loop procedure, and any other name
is what it is around the form. -/
theorem namedLet_scope {form bl : Value} {name : String} {xes : List (String × Value)}
    {forms : List Value} {c : Code}
    (hform : w.data.IsList form (.sym "let" :: .sym name :: bl :: forms))
    (hbl : w.data.IsBindings bl xes)
    (h : (machine host n).comp form env tail w = (.ok c, w')) :
    ∃ u s' body set call lam ps b,
      c = [u, .ldf [name] none (b ++ [.rtn]) true, if tail then .tapp 1 else .app 1] ∧
      u.IsVariable ∧ w.data.Grows s' ∧ s'.IsBegin body [set, call] ∧
      s'.IsList set [.sym "set!", .sym name, lam] ∧
      s'.IsList lam (.sym "lambda" :: ps :: forms) ∧ s'.IsList ps (symbols (xes.map (·.1))) ∧
      s'.IsList call (.sym name :: xes.map (·.2)) ∧
      BodyCode (machine host) s' [body] ([name] :: env) b ∧
      ∀ x, locationOf x ([name] :: env) =
        if x = name then some (0, 0) else (locationOf x env).map fun p => (p.1 + 1, p.2) := by
  obtain ⟨v, lam, ps, call, s₁, hexpand, hmore, hv, hlam, hps, hcall⟩ :=
    expandLet_named_spec hform hbl
  have hnext := levels_machine host
  obtain ⟨m, rfl, hcomp⟩ := comp_derived_eq_ok (d := .letF) hnext hform rfl rfl (fun _ => hexpand) h
  obtain ⟨u, s₂, body, sets, b, hu, hs₂, rfl, hsets, hbegin, hb⟩ :=
    bodyCode_of_comp_letrec hnext hv hcomp
  have hgrows : s₁.Grows s₂ := hs₂
  cases hsets with
  | @cons set _ sets _ hset hnil =>
    cases hnil
    exact ⟨u, s₂, body, set, call, lam, ps, b, rfl, hu, hmore.grows.trans hgrows, hbegin, hset,
      hgrows.isList hlam, hgrows.isList hps, hgrows.isList hcall, hb,
      fun x => locationOf_singleton x name env⟩

/-! ### A name that is used twice -/

/-- The pairs of `(let x ((y x)) y)`, which is pair 5, and of
`((letrec ((x (lambda (y) y))) x) x)`, which is the last one. -/
def loopNamedX : List (Value × Value) :=
  [(.sym "x", .nil), (.sym "y", .pair 0), (.pair 1, .nil), (.sym "y", .nil), (.pair 2, .pair 3),
    (.sym "x", .pair 4), (.sym "let", .pair 5),
    (.sym "y", .nil), (.pair 7, .pair 3), (.sym "lambda", .pair 8), (.pair 9, .nil),
    (.sym "x", .pair 10), (.pair 11, .nil), (.pair 12, .pair 0), (.sym "letrec", .pair 13),
    (.pair 14, .pair 0)]

theorem namedLet_scope_loopNamedX : ∃ c w',
    (machine plainHost 12).comp (.pair 6) [] false (pairsWorld loopNamedX) = (.ok c, w') ∧
      ∃ u b s' body, c = [u, .ldf ["x"] none (b ++ [.rtn]) true, .app 1] ∧
        BodyCode (machine plainHost) s' [body] [["x"]] b := by
  obtain ⟨c, w', h⟩ : ∃ c w',
      (machine plainHost 12).comp (.pair 6) [] false (pairsWorld loopNamedX) = (.ok c, w') :=
    Cmd.exists_of_isOk (by decide +kernel)
  have hform : (pairsWorld loopNamedX).data.IsList (.pair 6)
      [.sym "let", .sym "x", .pair 2, .sym "y"] :=
    ⟨6, .pair 5, rfl, rfl, 5, .pair 4, rfl, rfl, 4, .pair 3, rfl, rfl, 3, .nil, rfl, rfl, rfl⟩
  have hbl : (pairsWorld loopNamedX).data.IsBindings (.pair 2) [("y", .sym "x")] :=
    ⟨[.pair 1], ⟨2, .nil, rfl, rfl, rfl⟩,
      .cons ⟨1, .pair 0, rfl, rfl, 0, .nil, rfl, rfl, rfl⟩ .nil⟩
  obtain ⟨u, s', body, -, -, -, -, b, hc, -, -, -, -, -, -, -, hb, -⟩ := namedLet_scope hform hbl h
  exact ⟨c, w', h, u, b, s', body, hc, hb⟩

/-- A world where the global `x` is 5. -/
def worldOfX : World Unit :=
  { pairsWorld loopNamedX with
    globals := fun t name => if t ≠ .interaction then none
      else if name = "x" then some (.int 5)
      else if name = ":undef" then some (.sym ":undef") else none }

/-- The initial value `x` is read inside of the scope of the loop, so that
`(let x ((y x)) y)` starts with its own procedure; with the loop bound around the
body alone, it starts with the global variable. -/
theorem namedLet_captures :
    (evalTop (machine plainHost 16) (.pair 6) worldOfX).1 = .ok (.closure 0) ∧
      (evalTop (machine plainHost 16) (.pair 15) worldOfX).1 = .ok (.int 5) := by
  decide +kernel

end Scheme14
