import SecdScheme.Scheme14.CallsRelated

/-!
# scheme14: ordinary primitives

`eval`, `load`, `compile` and `macroexpand` call the compiler, or the machine, one
level deeper. The other primitives are ordinary: they work on the tables. What is
said about ordinary primitives is said of every program up to its first call of
one that is not: the machine whose other primitives end the run does what the
machine does, or such a call ends it.
-/

namespace Scheme14

variable {X : Type} {host : Host X}

/-- How a run ends that is not followed beyond a primitive that is not ordinary. -/
def Err.outside : Err := .internal "a primitive that is not ordinary"

/-- **The host with its ordinary primitives**; a call of another one ends the run. -/
def Host.ordinary (host : Host X) : Host X where
  kind _ := .data
  apply name args :=
    if host.kind name = .data then host.apply name args else Cmd.fail .outside
  readForms := host.readForms
  testMode := host.testMode
  reportTest := host.reportTest

section Relation

theorem givesUp_doCall (self : Self X) (vm : VM) (callee : Value) (n : ℕ) (tail : Bool) :
    Cmd.GivesUp Err.outside (doCall host.ordinary self vm callee n tail)
      (doCall host self vm callee n tail) := by
  unfold doCall
  cases callee with
  | prim name =>
    dsimp only
    rw [if_neg (show ¬ host.ordinary.kind name = .eval from nofun)]
    unfold callPrimStep
    by_cases hkind : host.kind name = .data
    · rw [if_neg (by rw [hkind]; exact nofun), hkind]
      refine (Cmd.givingUp Err.outside).before ?_ _
      show Cmd.GivesUp Err.outside (onData (if host.kind name = .data then _ else _)) _
      rw [if_pos hkind]
      exact (Cmd.givingUp Err.outside).refl _
    · intro w
      left
      show ((onData (if host.kind name = .data then _ else _) >>= _ : SchemeM X VM) w).1 = _
      rw [if_neg hkind]
      rfl
  | _ => exact (Cmd.givingUp Err.outside).refl _

/-- An error that goes to no handler ends the turn. -/
theorem givesUp_handOver (vm : VM) {m m' : SchemeM X Next} (h : Cmd.GivesUp Err.outside m m') :
    Cmd.GivesUp Err.outside (handOver vm m) (handOver vm m') := by
  intro w
  rcases h w with hgives | hsame
  · left
    unfold handOver
    rcases hm : m w with ⟨e | next, w'⟩ <;> rw [hm] at hgives
    · obtain rfl := Except.error.inj hgives
      rfl
    · cases hgives
  · right
    unfold handOver
    rw [hsame]

theorem givesUp_loopStep {self self' : Self X}
    (hself : ∀ vm, Cmd.GivesUp Err.outside (self.loop vm) (self'.loop vm))
    (hcall : ∀ vm callee n tail, doCall host.ordinary self vm callee n tail =
      doCall host.ordinary self' vm callee n tail) (vm : VM) :
    Cmd.GivesUp Err.outside (loopStep host.ordinary self vm) (loopStep host self' vm) := by
  let R : Cmd.Congruence (World X) Err := Cmd.givingUp Err.outside
  unfold loopStep
  cases vm.c[vm.pc]? with
  | none => exact R.refl _
  | some i =>
    refine R.bind (givesUp_handOver vm ?_) fun next => ?_
    · refine (Rules.ofCongruence R).execute (fun vm callee n tail => ?_) _ i
      rw [hcall]
      exact givesUp_doCall self' vm callee n tail
    · cases next with
      | «continue» vm => exact hself vm
      | done v => exact R.refl _

/-- A call of an ordinary primitive needs nothing of the levels below. -/
theorem doCall_eq (hhost : ∀ name, host.kind name = .data) (self self' : Self X) (vm : VM)
    (callee : Value) (n : ℕ) (tail : Bool) :
    doCall host self vm callee n tail = doCall host self' vm callee n tail := by
  unfold doCall
  cases callee with
  | prim name =>
    dsimp only
    rw [if_neg (by rw [hhost]; exact nofun), if_neg (by rw [hhost]; exact nofun)]
    unfold callPrimStep
    rw [hhost]
  | _ => rfl

/-- **The machine whose other primitives end the run** does what the machine does,
or such a call ends it. -/
theorem givesUp_loop (host : Host X) (n : ℕ) (vm : VM) :
    Cmd.GivesUp Err.outside ((machine host.ordinary n).loop vm) ((machine host n).loop vm) := by
  induction n generalizing vm with
  | zero => exact (Cmd.givingUp Err.outside).refl _
  | succ n ih => exact givesUp_loopStep ih (doCall_eq (fun _ => rfl) _ _) vm

end Relation

end Scheme14
