import SecdScheme.Scheme14.Boxes
import SecdScheme.Scheme14.Handlers
import SecdScheme.Scheme14.Accessors
import SecdScheme.Scheme14.ProperTailCalls

/-!
# scheme14: multiple values and continuations

Several values travel in a box, and one value as it is. `call-with-values` of
the library opens what its producer returned. A continuation delivers the
first of its arguments, so it delivers what it is called with only when that
is one value.
-/

namespace Scheme14

variable {X Y : Type}

/-! ## The primitives -/

/-- `prim_values`. -/
def primValues : List Value → DataM (Boxes Y) Value
  | [v] => return v
  | vs => fun s =>
    if h : vs.all (·.olderThan s.ext.vals.length) = true then
      (.ok (.values s.ext.vals.length), { s with ext := s.ext.add vs h })
    else (.error (.internal "a box that is none"), s)

/-- `prim_values_to_list`. -/
def primValuesToList (args : List Value) : DataM (Boxes Y) Value := do
  needArgsBetween "%values->list" args 1 1
  match arg args 0 with
  | .values a => do listFrom ((← Cmd.getState).ext.vals.getD a [])
  | v => makePair v .nil

/-- The host has the primitives for multiple values. -/
structure HasValues (host : Host (Boxes Y)) : Prop where
  values_kind : host.kind "values" = .data
  values : host.apply "values" = primValues
  toList_kind : host.kind "%values->list" = .data
  toList : host.apply "%values->list" = primValuesToList

theorem primValuesToList_eq (v : Value) (s : Data (Boxes Y)) :
    primValuesToList [v] s = listFrom (s.ext.unboxed v) s := by
  cases v <;> rfl

/-- A number of values other than one is put into a new box. -/
theorem primValues_many {vs : List Value} {s s' : Data (Boxes Y)} {r : Value}
    (hmany : ∀ v, vs ≠ [v]) (h : primValues vs s = (.ok r, s')) :
    ∃ hvs, r = .values s.ext.vals.length ∧ s' = { s with ext := s.ext.add vs hvs } := by
  have hbox : primValues vs s =
      if h : vs.all (·.olderThan s.ext.vals.length) = true then
        (.ok (.values s.ext.vals.length), { s with ext := s.ext.add vs h })
      else (.error (.internal "a box that is none"), s) := by
    match vs, hmany with
    | [], _ => rfl
    | [v], hmany => exact absurd rfl (hmany v)
    | _ :: _ :: _, _ => rfl
  rw [hbox] at h
  split at h
  · obtain ⟨hr, rfl⟩ := Prod.mk.inj h
    exact ⟨‹_›, (Except.ok.inj hr).symm, rfl⟩
  · cases (Prod.mk.inj h).1

/-- **What the values are collected in** stands for them, unless it is a box
that is the only one of them. -/
theorem unboxed_of_primValues {vs : List Value} {s s' : Data (Boxes Y)} {r : Value}
    (h : primValues vs s = (.ok r, s')) :
    s'.ext.unboxed r = vs ↔ ∀ v, vs = [v] → v.isValues = false := by
  by_cases hone : ∃ v, vs = [v]
  · obtain ⟨v, rfl⟩ := hone
    obtain ⟨rfl, rfl⟩ := Cmd.eq_of_pure_ok h
    have hiff := s.ext.unboxed_headD_iff [v]
    rw [List.headD_cons] at hiff
    rw [hiff]
    constructor
    · rintro ⟨v, hv, hbox⟩ v' hv'
      cases hv
      cases hv'
      exact hbox
    · intro hbox
      exact ⟨v, rfl, hbox v rfl⟩
  · rw [not_exists] at hone
    obtain ⟨hvs, rfl, rfl⟩ := primValues_many hone h
    refine iff_of_true ?_ fun v hv => absurd hv (hone v)
    show (s.ext.vals ++ [vs]).getD s.ext.vals.length [] = vs
    simp

/-! ## `call-with-values` -/

/-- `(define call-with-values (lambda (producer consumer) …))`. -/
def libraryCallWithValues : Datum :=
  defineLambda "call-with-values" ["producer", "consumer"]
    [callOf "apply" [.sym "consumer", callOf "%values->list" [callOf "producer" []]]]

/-- The code of its body; `x` is the cell of `%values->list`. -/
def callWithValuesBody (x : Cell) : Code :=
  [.ld 0 0, .app 0, .ldg x, .app 1, .argsAp 1, .ld 0 1, .tapply, .rtn]

example : (match (playData (handlerHost []) 20 [libraryCallWithValues] handlerWorld).closures with
    | [⟨["producer", "consumer"], none,
        [.ld 0 0, .app 0, .ldg x, .app 1, .argsAp 1, .ld 0 1, .tapply, .rtn], none⟩] =>
      x.name == "%values->list"
    | _ => false) = true := by decide +kernel

/-- **What is to be returned to**: the code returns from the producer of a call
of `call-with-values`, with that consumer. -/
structure ReturnsToBody (x : Cell) (w : World X) (consumer : Value) (body : Code) (pc : ℕ)
    (dump : List DumpEntry) : Prop where
  code : body[pc]? = some .rtn
  entry : ∃ back rest f, dump = back :: rest ∧ back.c = callWithValuesBody x ∧ back.pc = 2 ∧
    localAt w.frames back.env 0 1 = some (f, consumer)
  listing : w.globals x.table x.name = some (.prim "%values->list")

/-- **The consumer is called next**, with these arguments. -/
structure AtConsumer (x : Cell) (consumer : Value) (vs : List Value) (d : Config X) : Prop where
  code : d.vm.c = callWithValuesBody x
  pc : d.vm.pc = 6
  stack : ∃ l rest, d.vm.stack = consumer :: l :: rest ∧
    (listToVector l "apply" d.world.data).1 = .ok vs

/-- The consumer is called with these arguments after so many turns. -/
def Delivers (host : Host X) (m : ℕ) (x : Cell) (consumer : Value) (vs : List Value)
    (c : Config X) : Prop :=
  ∃ d, Turns host c d ∧ c.fuel = d.fuel + m ∧ AtConsumer x consumer vs d

/-! ## Turns -/

section Turns

variable {X : Type} {host : Host X} {w w' : World X} {vm : VM} {n : ℕ}

/-- A turn whose instruction runs through. -/
theorem turn_of_execute {self : Self X} {ins : Instr} {next : Next}
    (hins : vm.c[vm.pc]? = some ins)
    (h : execute host self { vm with pc := vm.pc + 1 } ins w = (.ok next, w')) :
    turn host self vm w = (.ok next, w') := by
  unfold turn handOver
  rw [hins]
  simp only [h]

theorem Turns.fuel_le {c d : Config X} (h : Turns host c d) : d.fuel ≤ c.fuel := by
  induction h with
  | refl => exact Nat.le_refl _
  | turn _ _ ih => exact Nat.le_succ_of_le ih

/-- **Turns are determined**: a state that is passed through later is passed
through from there. -/
theorem Turns.through {c d d' : Config X} (h : Turns host c d) (h' : Turns host c d')
    (hfuel : d'.fuel ≤ d.fuel) : Turns host d d' := by
  induction h with
  | refl c => exact h'
  | turn hturn hrest ih =>
    cases h' with
    | refl => exact absurd (Nat.le_trans hfuel hrest.fuel_le) (Nat.not_succ_le_self _)
    | turn hturn' hrest' =>
      obtain ⟨hnext, rfl⟩ := Prod.mk.inj (hturn.symm.trans hturn')
      cases hnext
      exact ih hrest' hfuel

theorem Turns.trans {c d d' : Config X} (h : Turns host c d) (h' : Turns host d d') :
    Turns host c d' := by
  induction h with
  | refl => exact h'
  | turn hturn _ ih => exact .turn hturn (ih h')

theorem Turns.unique {c d d' : Config X} (h : Turns host c d) (h' : Turns host c d')
    (hfuel : d.fuel = d'.fuel) : d = d' := by
  cases h.through h' (Nat.le_of_eq hfuel.symm) with
  | refl => rfl
  | turn _ hrest => exact absurd hrest.fuel_le (by rw [← hfuel]; exact Nat.not_succ_le_self _)

/-- What is delivered later is delivered from each state on the way. -/
theorem delivers_of_turns {c d : Config X} {m p : ℕ} {x : Cell} {consumer : Value}
    {vs : List Value} (h : Turns host c d) (hfuel : c.fuel = d.fuel + m) :
    Delivers host (m + p) x consumer vs c ↔ Delivers host p x consumer vs d := by
  constructor
  · rintro ⟨d', hturns, hd', hat⟩
    exact ⟨d', h.through hturns (by omega), by omega, hat⟩
  · rintro ⟨d', hturns, hd', hat⟩
    exact ⟨d', h.trans hturns, by omega, hat⟩

theorem observe_run (c : Prop) [Decidable c] (f : Fault) (w : World X) :
    ∃ faults, observe c f w = (.ok (), { w with faults := faults }) := by
  unfold observe
  split
  · exact ⟨w.faults, rfl⟩
  · exact ⟨_, rfl⟩

theorem needOperands_run (vm : VM) {m : ℕ} (who : String) (h : m ≤ vm.stack.length)
    (w : World X) :
    ∃ faults, needOperands vm m who w = (.ok (), { w with faults := faults }) := by
  unfold needOperands
  rw [if_neg (Nat.not_lt.2 h)]
  exact observe_run _ _ w

/-- A return to an entry of the dump. -/
theorem execute_rtn (host : Host X) (self : Self X) (vm : VM) (w : World X) {r : Value}
    {stack : List Value} {back : DumpEntry} {rest : List DumpEntry}
    (hstack : vm.stack = r :: stack) (hdump : vm.dump = back :: rest) :
    ∃ faults, execute host self vm .rtn w = (.ok (.continue { vm with
      dump := rest, stack := r :: VM.resize vm.stack vm.base, c := back.c, pc := back.pc,
      env := back.env, base := back.base, mark := back.mark }), { w with faults := faults }) := by
  obtain ⟨faults, hfirst⟩ := observe_run (vm.base + 1 ≤ vm.stack.length) .stackUnderflow w
  obtain ⟨faults', hsecond⟩ := observe_run (back.kind = .call ∧ back.stamp = vm.mark)
    .foreignEntry { w with faults := faults }
  refine ⟨faults', ?_⟩
  show returnStep vm w = _
  unfold returnStep
  rw [Cmd.bind_run_ok hfirst, hdump]
  simp only [Cmd.bind_run_ok hsecond, hstack, List.headD_cons, Cmd.pure_run]

end Turns

/-! ## From the return to the consumer -/

section Consumer

variable {host : Host (Boxes Y)} {x : Cell} {w : World (Boxes Y)} {consumer : Value}

/-- The call of `%values->list`, on what has been returned. -/
theorem execute_valuesToList (hhost : HasValues host) (self : Self (Boxes Y)) (vm : VM)
    (w : World (Boxes Y)) {r : Value} {stack : List Value}
    (hstack : vm.stack = .prim "%values->list" :: r :: stack) :
    ∃ faults l s', s'.IsList l (w.data.ext.unboxed r) ∧ w.data.MorePairs s' ∧
      execute host self vm (.app 1) w = (.ok (.continue { vm with stack := l :: stack }),
        { w with faults := faults, data := s' }) := by
  obtain ⟨faults, hneed⟩ := needOperands_run vm (m := 2) "APP" (by rw [hstack]; simp) w
  obtain ⟨l, s', hlist, hmore, hl⟩ := listFrom_spec (w.data.ext.unboxed r) w.data
  refine ⟨faults, l, s', hl, hmore, ?_⟩
  show (needOperands vm 2 "APP" >>= fun _ => _) w = _
  rw [Cmd.bind_run_ok hneed]
  have hresize : VM.resize (r :: stack) ((r :: stack).length - 1) = stack := by
    simp [VM.resize]
  unfold popAndCall doCall callPrimStep
  simp only [hstack, hhost.toList_kind, hhost.toList, reduceCtorEq, if_false, List.take,
    List.reverse_cons, List.reverse_nil, List.nil_append, hresize, Cmd.bind_run, onData,
    primValuesToList_eq, hlist, Cmd.pure_run]

/-- `apply` takes the list, and makes one of its own. -/
theorem execute_argsAp (host : Host (Boxes Y)) (self : Self (Boxes Y)) (vm : VM)
    (w : World (Boxes Y)) {l : Value} {vs stack : List Value}
    (hstack : vm.stack = l :: stack) (hl : w.data.IsList l vs) :
    ∃ faults l' s', s'.IsList l' vs ∧ execute host self vm (.argsAp 1) w =
      (.ok (.continue { vm with stack := l' :: stack }),
        { w with faults := faults, data := s' }) := by
  obtain ⟨faults, hneed⟩ := needOperands_run vm (m := 1) "ARGS-AP" (by rw [hstack]; simp) w
  obtain ⟨l', s', hlist, -, hl'⟩ := listFrom_spec vs w.data
  have hvector : listToVector l "apply" w.data = (.ok vs, w.data) :=
    listToVector_of_listed (walkList_of_listTo rfl hl)
  refine ⟨faults, l', s', hl', ?_⟩
  show (needOperands vm 1 "ARGS-AP" >>= fun _ => _) w = _
  rw [Cmd.bind_run_ok hneed]
  simp only [hstack, List.headD_cons, List.take_succ_cons, List.take_zero, List.drop_succ_cons,
    List.drop_zero, List.drop_nil, List.reverse_nil, List.nil_append, Cmd.bind_run, onData,
    hvector, hlist, Cmd.pure_run]

/-- **In the body**, from the list of the values to the call of the consumer. -/
theorem exists_atConsumer_of_body (hhost : HasValues host) (vm : VM) (w : World (Boxes Y))
    {r : Value} {stack : List Value} {f : ℕ} (hstack : vm.stack = r :: stack)
    (hc : vm.c = callWithValuesBody x) (hpc : vm.pc = 2)
    (hlocal : localAt w.frames vm.env 0 1 = some (f, consumer))
    (hlisting : w.globals x.table x.name = some (.prim "%values->list")) (n : ℕ) :
    ∃ d, Turns host ⟨n + 4, vm, w⟩ d ∧ d.fuel = n ∧
      AtConsumer x consumer (w.data.ext.unboxed r) d := by
  -- `%values->list` is pushed
  have hldg : execute host (machine host (n + 3)) { vm with pc := vm.pc + 1 } (.ldg x) w =
      (.ok (.continue { vm with pc := 3, stack := .prim "%values->list" :: r :: stack }),
        { w with reads := w.reads ++ [.instruction vm.c x] }) := by
    unfold execute noteRead
    simp only [Cmd.bind_run, Cmd.modifyState_run, Cmd.getState_run, hlisting, Cmd.pure_run,
      VM.push, hstack, hpc]
  have h₁ := turn_of_execute (by rw [hc, hpc]; rfl) hldg
  -- and called
  obtain ⟨faults₂, l, s₂, hl, -, happ⟩ := execute_valuesToList hhost (machine host (n + 2))
    { vm with pc := 4, stack := .prim "%values->list" :: r :: stack }
    { w with reads := w.reads ++ [.instruction vm.c x] } rfl
  have h₂ : turn host (machine host (n + 2))
      { vm with pc := 3, stack := .prim "%values->list" :: r :: stack } _ = _ :=
    turn_of_execute (by rw [hc]; rfl) happ
  -- the list is taken for the arguments
  obtain ⟨faults₃, l', s₃, hl', hargs⟩ := execute_argsAp host (machine host (n + 1))
    { vm with pc := 5, stack := l :: stack }
    { w with reads := w.reads ++ [.instruction vm.c x], faults := faults₂, data := s₂ } rfl hl
  have h₃ : turn host (machine host (n + 1)) { vm with pc := 4, stack := l :: stack } _ = _ :=
    turn_of_execute (by rw [hc]; rfl) hargs
  -- and the consumer is pushed
  have hld : execute host (machine host n) { vm with pc := 6, stack := l' :: stack } (.ld 0 1)
      { w with reads := w.reads ++ [.instruction vm.c x], faults := faults₃, data := s₃ } =
      (.ok (.continue { vm with pc := 6, stack := consumer :: l' :: stack }),
        { w with reads := w.reads ++ [.instruction vm.c x], faults := faults₃, data := s₃ }) := by
    unfold execute
    simp only [Cmd.bind_run, Cmd.getState_run, hlocal, Cmd.pure_run, VM.push]
  have h₄ : turn host (machine host n) { vm with pc := 5, stack := l' :: stack } _ = _ :=
    turn_of_execute (by rw [hc]; rfl) hld
  have hvector : listToVector l' "apply" s₃ = (.ok _, s₃) :=
    listToVector_of_listed (walkList_of_listTo rfl hl')
  refine ⟨_, .turn h₁ (.turn h₂ (.turn h₃ (.turn h₄ (.refl _)))), rfl, hc, rfl, l', stack, rfl, ?_⟩
  exact congrArg Prod.fst hvector

/-- **From a return to the call of the consumer** it is five turns, and what is
returned stands for the arguments. -/
theorem exists_atConsumer (hhost : HasValues host) {vm : VM} {r : Value} {stack : List Value}
    (hstack : vm.stack = r :: stack) (hbody : ReturnsToBody x w consumer vm.c vm.pc vm.dump)
    (n : ℕ) : ∃ d, Turns host ⟨n + 5, vm, w⟩ d ∧ d.fuel = n ∧
      AtConsumer x consumer (w.data.ext.unboxed r) d := by
  obtain ⟨back, rest, f, hdump, hc, hpc, hlocal⟩ := hbody.entry
  obtain ⟨faults, hrtn⟩ := execute_rtn host (machine host (n + 4)) { vm with pc := vm.pc + 1 } w
    hstack hdump
  have hturn := turn_of_execute hbody.code hrtn
  obtain ⟨d, hturns, hd⟩ := exists_atConsumer_of_body hhost
    { vm with
      dump := rest, stack := r :: VM.resize vm.stack vm.base, c := back.c, pc := back.pc,
      env := back.env, base := back.base, mark := back.mark }
    { w with faults := faults } rfl hc hpc hlocal hbody.listing n
  exact ⟨d, .turn hturn hturns, hd⟩

/-- **What is delivered** is what the returned value stands for. -/
theorem delivers_iff_unboxed (hhost : HasValues host) (vm : VM) {r : Value}
    {stack vs : List Value} (hstack : vm.stack = r :: stack)
    (hbody : ReturnsToBody x w consumer vm.c vm.pc vm.dump)
    (n : ℕ) : Delivers host 5 x consumer vs ⟨n + 5, vm, w⟩ ↔ w.data.ext.unboxed r = vs := by
  obtain ⟨d, hturns, hfuel, hat⟩ := exists_atConsumer hhost hstack hbody n
  constructor
  · rintro ⟨d', hturns', hfuel', hat'⟩
    obtain rfl := hturns.unique hturns' (by rw [hfuel]; exact Nat.add_right_cancel hfuel')
    obtain ⟨l, rest, hs, hl⟩ := hat.stack
    obtain ⟨l', rest', hs', hl'⟩ := hat'.stack
    rw [hs] at hs'
    cases hs'
    exact Except.ok.inj (hl.symm.trans hl')
  · rintro rfl
    exact ⟨d, hturns, by rw [hfuel], hat⟩

end Consumer

/-! ## Continuations -/

section Continuations

variable {host : Host (Boxes Y)} {x : Cell} {w : World (Boxes Y)} {consumer : Value} {k : Cont}
  {a : ℕ}

/-- The call of a continuation, for the wind list that is its own. -/
theorem doCall_cont_direct (host : Host (Boxes Y)) (self : Self (Boxes Y))
    (hk : w.conts[a]? = some k) (hwinds : windsMatch w.data.winds k.winds = true)
    (vm : VM) (vs : List Value) (tail : Bool) :
    doCall host self { vm with stack := vs.reverse ++ vm.stack } (.cont a) vs.length tail w =
      (.ok (k.resume vm.scratch (vs.headD .nil)), w) := by
  have hargs : ((vs.reverse ++ vm.stack).take vs.length).reverse = vs := by
    rw [← List.length_reverse, List.take_left, List.reverse_reverse]
  unfold doCall
  simp only [Cmd.bind_run, Cmd.getState_run, hk, hwinds, if_true, hargs, Cmd.pure_run]

/-- The call of a continuation that has to rewind first. -/
theorem doCall_cont_rewind (host : Host (Boxes Y)) (self : Self (Boxes Y))
    (hk : w.conts[a]? = some k) (hwinds : windsMatch w.data.winds k.winds = false)
    (vm : VM) (vs : List Value) (tail : Bool) :
    doCall host self { vm with stack := vs.reverse ++ vm.stack } (.cont a) vs.length tail w =
      (.ok { vm with
          stack := vs.reverse ++ vm.stack
          c := rewindCode w.data.winds (.cont a) k.winds (vs.headD .nil)
          pc := 0 },
        { w with data := { w.data with winds := k.winds } }) := by
  have hargs : ((vs.reverse ++ vm.stack).take vs.length).reverse = vs := by
    rw [← List.length_reverse, List.take_left, List.reverse_reverse]
  unfold doCall
  simp only [Cmd.bind_run, Cmd.getState_run, hk, hwinds, Bool.false_eq_true, if_false, hargs,
    Cmd.pure_run, onData, Cmd.modifyState_run]

/-- **The thunks have returned**: what is left of the rewinding code is the
call of the continuation, and the wind list is the one of the continuation. -/
structure ThunksReturned (host : Host (Boxes Y)) (x : Cell) (consumer : Value) (a : ℕ) (k : Cont)
    (c d : Config (Boxes Y)) : Prop where
  turns : Turns host c d
  code : d.vm.c = c.vm.c
  pc : d.vm.pc + 3 = c.vm.c.length
  winds : windsMatch d.world.data.winds k.winds = true
  cont : d.world.conts[a]? = some k
  body : ReturnsToBody x d.world consumer k.c k.pc k.dump

/-- **After the thunks** the continuation delivers the value that the code was
made for. -/
theorem delivers_after_thunks (hhost : HasValues host) {c d : Config (Boxes Y)}
    (h : ThunksReturned host x consumer a k c d) {before : Code} {v : Value}
    (hcode : c.vm.c = before ++ [.ldc v, .ldc (.cont a), .app 1]) {n : ℕ} (hfuel : d.fuel = n + 8)
    (vs : List Value) :
    Delivers host 8 x consumer vs d ↔ d.world.data.ext.unboxed v = vs := by
  obtain ⟨fuel, dvm, dw⟩ := d
  obtain rfl : fuel = n + 8 := hfuel
  have hpc : dvm.pc = before.length := by
    have := h.pc
    rw [hcode] at this
    simpa using this
  have hcode' : dvm.c = before ++ [.ldc v, .ldc (.cont a), .app 1] := h.code.trans hcode
  have hat : ∀ i, dvm.c[before.length + i]? = [Instr.ldc v, .ldc (.cont a), .app 1][i]? := by
    intro i
    rw [hcode', List.getElem?_append_right (Nat.le_add_right _ _), Nat.add_sub_cancel_left]
  -- the value and the continuation are pushed
  have h₁ : turn host (machine host (n + 7)) dvm dw =
      (.ok (.continue { dvm with pc := dvm.pc + 1, stack := v :: dvm.stack }), dw) :=
    turn_of_execute (by rw [hpc]; exact hat 0) rfl
  have h₂ : turn host (machine host (n + 6))
      { dvm with pc := dvm.pc + 1, stack := v :: dvm.stack } dw =
      (.ok (.continue { dvm with pc := dvm.pc + 2, stack := .cont a :: v :: dvm.stack }), dw) :=
    turn_of_execute (by rw [hpc]; exact hat 1) rfl
  -- and the call is one for the wind list of the continuation
  obtain ⟨faults, hneed⟩ := needOperands_run
    { dvm with pc := dvm.pc + 3, stack := .cont a :: v :: dvm.stack } (m := 2) "APP" (by simp) dw
  have hcall := doCall_cont_direct host (machine host (n + 5))
    (w := { dw with faults := faults }) h.cont h.winds { dvm with pc := dvm.pc + 3 } [v] false
  have happ : execute host (machine host (n + 5))
      { dvm with pc := dvm.pc + 3, stack := .cont a :: v :: dvm.stack } (.app 1) dw =
      (.ok (.continue (k.resume dvm.scratch v)), { dw with faults := faults }) := by
    show (needOperands _ 2 "APP" >>= fun _ => _) dw = _
    rw [Cmd.bind_run_ok hneed]
    exact Cmd.bind_run_ok hcall _
  have h₃ : turn host (machine host (n + 5))
      { dvm with pc := dvm.pc + 2, stack := .cont a :: v :: dvm.stack } dw =
      (.ok (.continue (k.resume dvm.scratch v)), { dw with faults := faults }) :=
    turn_of_execute (by rw [hpc]; exact hat 2) happ
  have hbody : ReturnsToBody x { dw with faults := faults } consumer k.c k.pc k.dump :=
    ⟨h.body.code, h.body.entry, h.body.listing⟩
  rw [delivers_of_turns (m := 3) (p := 5) (.turn h₁ (.turn h₂ (.turn h₃ (.refl _)))) rfl,
    delivers_iff_unboxed hhost (k.resume dvm.scratch v) rfl hbody n]

/-- **A continuation delivers its first argument.** It delivers what it is
called with, when the consumer is to get it, exactly if that is one value and
no box, whether there is something to rewind or not. A return of the values
delivers them. -/
theorem continuation_delivers_iff (hhost : HasValues host) (hk : w.conts[a]? = some k)
    (self : Self (Boxes Y)) (vm : VM) (vs : List Value) (tail : Bool) (n : ℕ) :
    (windsMatch w.data.winds k.winds = true → ReturnsToBody x w consumer k.c k.pc k.dump →
      ∃ vm', doCall host self { vm with stack := vs.reverse ++ vm.stack } (.cont a) vs.length
          tail w = (.ok vm', w) ∧
        (Delivers host 5 x consumer vs ⟨n + 5, vm', w⟩ ↔
          ∃ v, vs = [v] ∧ v.isValues = false)) ∧
    (windsMatch w.data.winds k.winds = false →
      ∃ vm' w', doCall host self { vm with stack := vs.reverse ++ vm.stack } (.cont a) vs.length
          tail w = (.ok vm', w') ∧
        ∀ m d, ThunksReturned host x consumer a k ⟨m, vm', w'⟩ d → d.fuel = n + 8 →
          (Delivers host 8 x consumer vs d ↔ ∃ v, vs = [v] ∧ v.isValues = false)) ∧
    (∀ p : VM, ReturnsToBody x w consumer p.c p.pc p.dump → ∀ r s,
      primValues vs w.data = (.ok r, s) →
        (Delivers host 5 x consumer vs ⟨n + 5, p.push r, { w with data := s }⟩ ↔
          ∀ v, vs = [v] → v.isValues = false)) := by
  refine ⟨fun hwinds hbody => ?_, fun hwinds => ?_, fun p hbody r s hvalues => ?_⟩
  · refine ⟨_, doCall_cont_direct host self hk hwinds vm vs tail, ?_⟩
    rw [delivers_iff_unboxed hhost (k.resume vm.scratch (vs.headD .nil)) rfl hbody n,
      Boxes.unboxed_headD_iff]
  · refine ⟨_, _, doCall_cont_rewind host self hk hwinds vm vs tail, fun m d h hfuel => ?_⟩
    rw [delivers_after_thunks hhost h rfl hfuel, Boxes.unboxed_headD_iff]
  · have hbody' : ReturnsToBody x { w with data := s } consumer p.c p.pc p.dump :=
      ⟨hbody.code, hbody.entry, hbody.listing⟩
    rw [delivers_iff_unboxed hhost (p.push r) rfl hbody' n]
    exact unboxed_of_primValues hvalues

end Continuations

/-! ### A continuation of a producer -/

/-- A host with the primitives for multiple values. -/
def valuesHost : Host (Boxes Unit) where
  kind _ := .data
  apply name := if name = "values" then primValues else
    if name = "%values->list" then primValuesToList else fun _ => internalError "no such primitive"
  readForms _ := return []
  testMode _ := false
  reportTest _ _ := return ()

theorem hasValues_valuesHost : HasValues valuesHost := ⟨rfl, rfl, rfl, rfl⟩

/-- The cell of `%values->list`. -/
def listingCell : Cell := ⟨.interaction, "%values->list"⟩

/-- A continuation of the producer of a call of `call-with-values`. -/
def producerCont : Cont where
  stack := []
  dump := [⟨callWithValuesBody listingCell, 2, some 0, 0, .call, 1, 0⟩]
  winds := []
  c := [.tcallcc, .rtn]
  pc := 1
  env := none
  base := 0
  mark := 1

/-- A world with this continuation, and with a wind list. -/
def producerWorld (winds : List WindEntry) : World (Boxes Unit) where
  data := ⟨[], [], [], [], winds, 0, none, 0, ⟨[], nofun, ()⟩⟩
  frames := [⟨none, [.closure 0, .prim "list"]⟩]
  closures := []
  conts := [producerCont]
  globals t name := if t = .interaction ∧ name = "%values->list" then some (.prim name) else none
  macros _ _ := none
  compileTable := .interaction
  runDepth := 1
  updates := []
  reads := []
  stamps := 1
  faults := []
  truncated := false

theorem returnsToBody_producerCont (winds : List WindEntry) :
    ReturnsToBody listingCell (producerWorld winds) (.prim "list") producerCont.c producerCont.pc
      producerCont.dump :=
  ⟨rfl, ⟨_, _, _, rfl, rfl, rfl, rfl⟩, rfl⟩

/-- Called with the values 1 and 2. -/
theorem producerCont_two_values :
    ∃ vm', doCall valuesHost (machine valuesHost 0)
        { VM.start [] none with stack := [.int 2, .int 1] } (.cont 0) 2 false (producerWorld []) =
          (.ok vm', producerWorld []) ∧
      ¬ Delivers valuesHost 5 listingCell (.prim "list") [.int 1, .int 2]
        ⟨5, vm', producerWorld []⟩ := by
  refine ⟨_, doCall_cont_direct valuesHost _ (k := producerCont) rfl rfl (VM.start [] none)
    [.int 1, .int 2]
    false, ?_⟩
  intro hdelivers
  have hvalues := (delivers_iff_unboxed hasValues_valuesHost
    (producerCont.resume none (.int 1)) rfl (returnsToBody_producerCont []) 0).1 hdelivers
  cases hvalues

/-- A world in which there is a frame to leave. -/
def frameWorld : World (Boxes Unit) := producerWorld [⟨.nil, .prim "values", 0⟩]

/-- The machine that leaves it, and then calls the continuation with the value 1. -/
def leavingVM : VM :=
  { VM.start [] none with
    stack := [.int 1]
    c := [.ldc (.prim "values"), .app 0, .pop, .ldc (.int 1), .ldc (.cont 0), .app 1] }

/-- The machine after that, and its world. -/
def leftConfig : Config (Boxes Unit) :=
  ⟨8, { leavingVM with pc := 3 },
    { producerWorld [] with data := { (producerWorld []).data with
        ext := (producerWorld []).data.ext.add [] rfl } }⟩

theorem thunksReturned_leftConfig :
    ThunksReturned valuesHost listingCell (.prim "list") 0 producerCont
      ⟨11, leavingVM, producerWorld []⟩ leftConfig where
  turns := .turn rfl (.turn rfl (.turn rfl (.refl _)))
  code := rfl
  pc := rfl
  winds := rfl
  cont := rfl
  body := ⟨rfl, ⟨_, _, _, rfl, rfl, rfl, rfl⟩, rfl⟩

/-- Called with the value 1, with a frame to leave. -/
theorem continuation_delivers_iff_oneValue :
    ∃ vm' w', doCall valuesHost (machine valuesHost 0)
        { VM.start [] none with stack := [.int 1] } (.cont 0) 1 false frameWorld =
          (.ok vm', w') ∧
      ThunksReturned valuesHost listingCell (.prim "list") 0 producerCont ⟨11, vm', w'⟩
        leftConfig ∧
      Delivers valuesHost 8 listingCell (.prim "list") [.int 1] leftConfig := by
  obtain ⟨vm', w', hcall, hiff⟩ := (continuation_delivers_iff (x := listingCell)
    (k := producerCont) (a := 0) hasValues_valuesHost (w := frameWorld) rfl (machine valuesHost 0)
    (VM.start [] none) [.int 1] false 0).2.1 rfl
  obtain ⟨hvm, rfl⟩ := Prod.mk.inj (hcall.symm.trans
    (doCall_cont_rewind valuesHost _ (k := producerCont) rfl rfl (VM.start [] none) [.int 1] false))
  obtain rfl := Except.ok.inj hvm
  exact ⟨_, _, hcall, thunksReturned_leftConfig,
    (hiff 11 _ thunksReturned_leftConfig rfl).2 ⟨.int 1, rfl, rfl⟩⟩

end Scheme14
