import SecdScheme.Scheme14.CallsRelated
import SecdScheme.Scheme14.FormCode

/-!
# scheme14: compiling a program that stays as it is

A macro is called while the form around its call is being compiled, and it may
write into the pairs that the rest of the program is made of. The compiler that is
watched stops after such a call. What it makes code of was therefore compiled from
the pairs that were there, and the compiler itself makes the same code.
-/

namespace Scheme14

variable {X : Type} {host : Host X} {n : ℕ} {w w' : World X} {e : Value} {env : CompileEnv}
  {tail : Bool} {c : Code}

/-- **A call that is watched**: no code when a pair that was there is not what it was. -/
def watch (m : SchemeM X Code) : SchemeM X Code := fun w =>
  match m w with
  | (.ok c, w') => if w.data.pairs <+: w'.data.pairs then (.ok c, w') else (.error .outOfFuel, w')
  | (.error e, w') => (.error e, w')

/-- **The compiler with each of its calls watched**, also those inside of another. -/
def watching (host : Host X) : ℕ → Self X
  | 0 => machine host 0
  | n + 1 =>
    { machine host (n + 1) with
      comp := fun e env tail => watch (compStep (watching host n) e env tail) }

/-- **No pair is overwritten** while the form is compiled, by any macro that is
called for it. -/
def Undisturbed (host : Host X) (n : ℕ) (e : Value) (env : CompileEnv) (tail : Bool)
    (w : World X) : Prop :=
  ∃ c w', (watching host n).comp e env tail w = (.ok c, w')

theorem givesUp_watch (m : SchemeM X Code) : Cmd.GivesUp .outOfFuel (watch m) m := by
  intro w
  unfold watch
  split
  · split
    · exact .inr (Eq.symm ‹_›)
    · exact .inl rfl
  · exact .inr (Eq.symm ‹_›)

theorem watch_eq_ok {m : SchemeM X Code} (h : watch m w = (.ok c, w')) :
    m w = (.ok c, w') ∧ w.data.KeepsPairs w'.data := by
  have hm := (givesUp_watch m).eq_ok h
  unfold watch at h
  rw [hm] at h
  dsimp only at h
  split at h
  next hpairs =>
    obtain ⟨rest, hrest⟩ := hpairs
    refine ⟨hm, ⟨fun hp => ?_⟩⟩
    rw [← hrest]
    exact getElem?_append_of_some hp
  next => cases (Prod.mk.inj h).1

/-- The watched compiler does what the compiler does, or stops. -/
theorem related_watching (host : Host X) : ∀ n,
    Self.Related (.ofCongruence (Cmd.givingUp .outOfFuel)) (watching host n) (machine host n)
  | 0 => .of_congruence rfl (fun _ _ _ => (Cmd.givingUp _).refl _)
      (fun _ => (Cmd.givingUp _).refl _) fun _ _ => (Cmd.givingUp _).refl _
  | n + 1 => .of_congruence rfl
      (fun e env tail => (givesUp_watch _).trans ((related_watching host n).compStep e env tail))
      (fun _ => (Cmd.givingUp _).refl _) fun _ _ => (Cmd.givingUp _).refl _

/-- **The same code.** -/
theorem comp_of_watching (h : (watching host n).comp e env tail w = (.ok c, w')) :
    (machine host n).comp e env tail w = (.ok c, w') :=
  ((related_watching host n).comp e env tail).eq_ok h

/-- The compiler and the watched one agree on the code and the world. -/
theorem Undisturbed.watching (h : Undisturbed host n e env tail w)
    (hc : (machine host n).comp e env tail w = (.ok c, w')) :
    (watching host n).comp e env tail w = (.ok c, w') := by
  obtain ⟨c', w'', hwatched⟩ := h
  rw [hwatched, ← comp_of_watching hwatched, hc]

theorem levels_watching (host : Host X) : Levels (watching host) where
  fuel n := ((related_watching host n).fuel).trans (machine_fuel host n)
  step {n e env tail w c w'} h := by
    cases n with
    | zero => cases (Prod.mk.inj h).1
    | succ m => exact ⟨m, rfl, (watch_eq_ok h).1⟩

/-- **The pairs that were there** still are when there is code. -/
theorem keepsPairs_of_comp (h : (watching host n).comp e env tail w = (.ok c, w')) :
    w.data.KeepsPairs w'.data := by
  cases n with
  | zero => cases (Prod.mk.inj h).1
  | succ m => exact (watch_eq_ok h).2

theorem keepsPairs_of_compArgs {es : List Value}
    (h : compArgs (watching host n) es env w = (.ok c, w')) : w.data.KeepsPairs w'.data := by
  obtain ⟨cs, w₁, hcs, hend⟩ := Cmd.exists_of_bind_ok h
  obtain ⟨-, rfl⟩ := Cmd.eq_of_pure_ok hend
  clear h hend
  induction es generalizing w cs with
  | nil =>
    obtain ⟨-, rfl⟩ := Cmd.eq_of_pure_ok hcs
    exact .refl _
  | cons e es ih =>
    obtain ⟨c, w₂, hc, hcs⟩ := Cmd.exists_of_bind_ok hcs
    obtain ⟨cs', w₃, hcs', hend⟩ := Cmd.exists_of_bind_ok hcs
    obtain ⟨-, rfl⟩ := Cmd.eq_of_pure_ok hend
    exact (keepsPairs_of_comp hc).trans (ih cs' hcs')

end Scheme14
