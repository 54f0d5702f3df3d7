import SecdScheme.Lib.CmdAlike
import SecdScheme.Scheme14.CallsRelated

/-!
# scheme14: machines at another depth

How deep a machine runs inside of others makes a difference in one place: only
in the outermost machine an error goes to the handler. Here two machines are
compared, each with its depth, one of which may leave errors as they are. Up
to that place the compiler and the machine do the same.
-/

namespace Scheme14

open Cmd (Alike)

variable {X α : Type} {host : Host X} {self self' : Self X} {Bad : Prop} {vm : VM} {d k a : ℕ}

/-- The same world at another depth. -/
def World.withDepth (w : World X) (a : ℕ) : World X := { w with runDepth := a }

/-- At the depth `k` the first command does what the second one does at the
depth `a`; or it fails, where failures are left out. -/
abbrev AtDepth (Bad : Prop) (k a : ℕ) (m m' : SchemeM X α) : Prop :=
  Alike (World.withDepth · a) (fun _ => Bad) (·.runDepth = k) m m'

/-- **What is asked of the next level**, from the depth `d` on. -/
structure Self.Level (next next' : Self X) (Bad : Prop) (d : ℕ) : Prop where
  fuel : next.fuel = next'.fuel
  comp : ∀ k a expr env tail, d ≤ k →
    AtDepth Bad k a (next.comp expr env tail) (next'.comp expr env tail)
  loop : ∀ k a vm, d ≤ k → AtDepth Bad (k + 1) (a + 1) (next.loop vm) (next'.loop vm)
  callPrim : ∀ k a name args, d ≤ k →
    AtDepth Bad k a (next.callPrim name args) (next'.callPrim name args)

/-- A change that has nothing to do with the depth. -/
theorem atDepth_modify {f : World X → World X}
    (hf : ∀ w : World X, f (w.withDepth a) = (f w).withDepth a)
    (hdepth : ∀ w : World X, (f w).runDepth = w.runDepth) :
    AtDepth Bad k a (Cmd.modifyState f : SchemeM X Unit) (Cmd.modifyState f) :=
  .modifyState hf fun w hw => (hdepth w).trans hw

theorem atDepth_basic {m : SchemeM X α} (h : Basic m) : AtDepth Bad k a m m := by
  refine .of_run fun w hw => ?_
  cases h <;> exact ⟨rfl, hw⟩

theorem atDepth_withTable {t : Table} {m m' : SchemeM X α} (h : AtDepth Bad k a m m') :
    AtDepth Bad k a (withTable t m) (withTable t m') := by
  unfold withTable
  refine .getState (fun _ => rfl) fun w => ?_
  refine Alike.bind (atDepth_modify (fun _ => rfl) fun _ => rfl) fun _ => ?_
  intro w' hw'
  exact h.finallyDo (fun s => { s with compileTable := w.compileTable }) (World.withDepth · a)
    (·.runDepth = k) (fun _ hs => ⟨rfl, hs⟩) hw'

/-- **To do the same at two depths**, as a relation that commands respect. -/
def Rules.atDepth (Bad : Prop) (k a : ℕ) : Rules X where
  Rel := AtDepth Bad k a
  pure _ := .pure
  fail _ := .fail
  bind := .bind
  getState hf h := .getState (fun w => hf w a) h
  basic := atDepth_basic
  data _ := .of_run fun _ hw => ⟨rfl, hw⟩
  cut := atDepth_modify (fun _ => rfl) fun _ => rfl
  withTable _ := atDepth_withTable

/-- A machine is started, one level deeper. -/
theorem atDepth_run (hself : self.Level self' Bad d) (hk : d ≤ k) (vm : VM) :
    AtDepth Bad k a (run self vm) (run self' vm) := by
  intro w hw
  refine (hself.loop k a vm hk).finallyDo (fun s => { s with runDepth := s.runDepth - 1 })
    (World.withDepth · a) (·.runDepth = k) ?_
    (show ({ w with runDepth := w.runDepth + 1 } : World X).runDepth = k + 1 by
      rw [← show w.runDepth = k from hw])
  intro s hs
  exact ⟨rfl, show s.runDepth - 1 = k by
    rw [show s.runDepth = k + 1 from hs, Nat.add_sub_cancel]⟩

/-- **The calls of the next level** do the same at the two depths. -/
theorem Self.Level.related (hself : self.Level self' Bad d) (hk : d ≤ k) (a : ℕ) :
    Self.Related (.atDepth Bad k a) self self' where
  fuel := hself.fuel
  comp expr env tail := hself.comp k a expr env tail hk
  run vm := atDepth_run hself hk vm
  callPrim name args := hself.callPrim k a name args hk

/-! ## Errors that are not handed over -/

/-- An error of a machine inside of another one is not handed over. -/
theorem atDepth_handOver_inner {m m' : SchemeM X Next} (h : AtDepth False k a m m') (hk : 2 ≤ k)
    (vm : VM) : AtDepth False k a (handOver vm m) m' := by
  refine .of_run fun w hw => ?_
  obtain ⟨hrun, hdepth⟩ : m' (w.withDepth a) = ((m w).1, (m w).2.withDepth a) ∧
      (m w).2.runDepth = k := (h w hw).resolve_left fun ⟨_, _, _, hbad⟩ => hbad
  have hsame : handOver vm m w = m w := by
    unfold handOver
    rcases hm : m w with ⟨e | next, w'⟩
    · rw [hm] at hdepth
      have hdeep : 1 < w'.runDepth := (show w'.runDepth = k from hdepth) ▸ hk
      cases hcatch : e.catchable? with
      | none => simp [hcatch]
      | some message => simp [hcatch, hdeep]
    · rfl
  rw [hsame]
  exact ⟨hrun, hdepth⟩

/-- What returns without its errors handed over returns anyway. -/
theorem atDepth_handOver_outer {m m' : SchemeM X Next} (h : AtDepth True k a m m') (vm : VM) :
    AtDepth True k a m (handOver vm m') := by
  intro w hw
  rcases h w hw with hbad | ⟨hrun, hdepth⟩
  · exact .inl hbad
  rcases hm : m w with ⟨e | next, w'⟩ <;> rw [hm] at hrun hdepth
  · exact .inl ⟨e, w', rfl, trivial⟩
  · refine .inr ⟨?_, hdepth⟩
    unfold handOver
    rw [hrun]

/-- One turn of a machine that hands no error over. -/
def unhandedStep (host : Host X) (self : Self X) (vm : VM) : SchemeM X Value := do
  match vm.c[vm.pc]? with
  | none => fault .codeExhausted "code exhausted without reaching STOP"
  | some ins =>
    match ← execute host self { vm with pc := vm.pc + 1 } ins with
    | .continue vm => self.loop vm
    | .done v => return v

/-- **The machine without handing over**: the first error of an instruction
ends everything, whether there is a handler or not. -/
def unhanded (host : Host X) : ℕ → Self X
  | 0 =>
    { fuel := 0
      comp := fun _ _ _ => Cmd.fail .outOfFuel
      loop := fun _ => Cmd.fail .outOfFuel
      callPrim := fun _ _ => Cmd.fail .outOfFuel }
  | n + 1 =>
    { fuel := n + 1
      comp := compStep (unhanded host n)
      loop := unhandedStep host (unhanded host n)
      callPrim := callPrimStep host (unhanded host n) }

/-- The rest of a turn. -/
theorem atDepth_next (hself : self.Level self' Bad d) (hk : d ≤ k) (next : Next) :
    AtDepth Bad (k + 1) (a + 1)
      (match next with
        | .continue vm => self.loop vm
        | .done v => return v)
      (match next with
        | .continue vm => self'.loop vm
        | .done v => return v) := by
  cases next with
  | «continue» vm => exact hself.loop k a vm hk
  | done v => exact .pure

/-- One level more, inside of another machine. -/
theorem level_inner (hself : self.Level self' False 1) (n : ℕ) :
    Self.Level ⟨n, compStep self, loopStep host self, callPrimStep host self⟩
      ⟨n, compStep self', unhandedStep host self', callPrimStep host self'⟩ False 1 where
  fuel := rfl
  comp _ a expr env tail hk := (hself.related hk a).compStep expr env tail
  loop k a vm hk := by
    show AtDepth _ _ _ (loopStep host self vm) (unhandedStep host self' vm)
    unfold loopStep unhandedStep
    cases vm.c[vm.pc]? with
    | none => exact (Rules.atDepth False _ _).fault _ _
    | some ins =>
      have hexec := (hself.related (Nat.le_succ_of_le hk) (a + 1)).execute host
        { vm with pc := vm.pc + 1 } ins
      exact (atDepth_handOver_inner hexec (Nat.succ_le_succ hk) vm).bind (atDepth_next hself hk)
  callPrim _ a name args hk := (hself.related hk a).callPrimStep host name args

/-- One level more, at the top level. -/
theorem level_outer (hself : self.Level self' True 0) (n : ℕ) :
    Self.Level ⟨n, compStep self, unhandedStep host self, callPrimStep host self⟩
      ⟨n, compStep self', loopStep host self', callPrimStep host self'⟩ True 0 where
  fuel := rfl
  comp _ a expr env tail hk := (hself.related hk a).compStep expr env tail
  loop k a vm hk := by
    show AtDepth _ _ _ (unhandedStep host self vm) (loopStep host self' vm)
    unfold loopStep unhandedStep
    cases vm.c[vm.pc]? with
    | none => exact (Rules.atDepth True _ _).fault _ _
    | some ins =>
      have hexec := (hself.related (Nat.zero_le (k + 1)) (a + 1)).execute host
        { vm with pc := vm.pc + 1 } ins
      exact (atDepth_handOver_outer hexec vm).bind (atDepth_next hself hk)
  callPrim _ a name args hk := (hself.related hk a).callPrimStep host name args

/-- **Inside of another machine** the machine hands nothing over. -/
theorem machine_level (host : Host X) :
    ∀ n, (machine host n).Level (unhanded host n) False 1
  | 0 => ⟨rfl, fun _ _ _ _ _ _ => .fail, fun _ _ _ _ => .fail, fun _ _ _ _ _ => .fail⟩
  | n + 1 => level_inner (machine_level host n) (n + 1)

/-- **What the machine without handing over returns** the machine returns. -/
theorem unhanded_level (host : Host X) :
    ∀ n, (unhanded host n).Level (machine host n) True 0
  | 0 => ⟨rfl, fun _ _ _ _ _ _ => .fail, fun _ _ _ _ => .fail, fun _ _ _ _ _ => .fail⟩
  | n + 1 => level_outer (unhanded_level host n) (n + 1)

end Scheme14
