import SecdScheme.Lib.EventRuns
import SecdScheme.Scheme14.Values

/-!
# system_lib.scm: promises

`make-promise` keeps a pair, a flag and a value, and sets the flag before it
calls the procedure. What goes on around the promise is any program: it may
call and return, force the promise again while its expression is evaluated,
keep a continuation and go back to it, or fail. The frames it leaves on the
dump are of two kinds, for what happens to the promise when they are returned
to.
-/

namespace SystemLib

open Scheme14 EventRuns

/-- What is returned to: the assignment that waits for `(f)`, or other code. -/
inductive Frame where
  | setCdr
  | other
  deriving DecidableEq

/-- **A promise and the program around it.** The last two are the program's
past, and nothing reads them: the values that evaluations of the expression
returned, and those that forces returned. -/
structure World where
  state : Value × Value
  dump : List Frame
  saved : List (List Frame)
  completed : List Value
  returned : List Value

/-- What the program does next. -/
inductive Event where
  | force
  | call
  | ret (v : Value)
  | capture
  | resume (i : ℕ)
  | abort

/-- `(make-promise f)`: `(cons false false)`. -/
def makePromise : World := ⟨(.bool false, .bool false), [], [], [], []⟩

/-- `(cdr state)`, which the promise returns. -/
def World.answer (w : World) : World := { w with returned := w.state.2 :: w.returned }

/-- `(promise)`, up to the call of `f` if there is one. -/
def force (w : World) : World :=
  if !w.state.1.isTrue then
    { w with state := (.bool true, w.state.2), dump := .setCdr :: w.dump }
  else w.answer

/-- `f` has returned: `(set-cdr! state …)`, and what follows. -/
def setCdr (v : Value) (rest : List Frame) (w : World) : World :=
  World.answer { w with state := (w.state.1, v), dump := rest, completed := v :: w.completed }

/-- **One step.** A continuation is the dump at the time; an error that nobody
handles leaves the dump empty. -/
def step (w : World) : Event → Option World
  | .force => some (force w)
  | .call => some { w with dump := .other :: w.dump }
  | .ret v =>
    match w.dump with
    | [] => none
    | .other :: rest => some { w with dump := rest }
    | .setCdr :: rest => some (setCdr v rest w)
  | .capture => some { w with saved := w.saved ++ [w.dump] }
  | .resume i => w.saved[i]?.map fun rest => { w with dump := rest }
  | .abort => some { w with dump := [] }

/-- **What forces are to return**: a value that an evaluation returned, and all
of them the same one. -/
def World.Consistent (w : World) : Prop :=
  (∀ v ∈ w.returned, v ∈ w.completed) ∧ ∀ v ∈ w.returned, ∀ v' ∈ w.returned, v = v'

/-- **A step that the promise is made for**: it is not forced between the start
of the evaluation and its first return, and an evaluation that returns again
returns the same value. -/
def Orderly (w : World) : Event → Prop
  | .force => w.state.1.isTrue = true → w.completed ≠ []
  | .ret v => w.dump.head? = some .setCdr → w.completed ≠ [] → v = w.state.2
  | _ => True

/-! ## What a step does to the promise -/

/-- **The steps there are**, as far as the promise is concerned. -/
theorem step_cases {w w' : World} {e : Event} (h : step w e = some w') :
    (e = .force ∧ w.state.1.isTrue = false ∧ w'.state = (.bool true, w.state.2) ∧
      w'.completed = w.completed ∧ w'.returned = w.returned) ∨
    (e = .force ∧ w.state.1.isTrue = true ∧ w' = w.answer) ∨
    (∃ v rest, e = .ret v ∧ w.dump = .setCdr :: rest ∧ w' = setCdr v rest w) ∨
    (e ≠ .force ∧ (∀ v, e = .ret v → w.dump.head? ≠ some .setCdr) ∧ w'.state = w.state ∧
      w'.completed = w.completed ∧ w'.returned = w.returned) := by
  cases e with
  | force =>
    cases hflag : w.state.1.isTrue with
    | false =>
      refine .inl ⟨rfl, rfl, ?_⟩
      cases h
      unfold force
      rw [hflag]
      exact ⟨rfl, rfl, rfl⟩
    | true =>
      refine .inr (.inl ⟨rfl, rfl, ?_⟩)
      cases h
      unfold force
      rw [hflag]
      rfl
  | ret v =>
    unfold step at h
    cases hdump : w.dump with
    | nil =>
      simp only [hdump, reduceCtorEq] at h
    | cons frame rest =>
      cases frame with
      | other =>
        simp only [hdump, Option.some.injEq] at h
        subst h
        refine .inr (.inr (.inr ⟨nofun, nofun, rfl, rfl, rfl⟩))
      | setCdr =>
        simp only [hdump, Option.some.injEq] at h
        exact .inr (.inr (.inl ⟨v, rest, rfl, rfl, h.symm⟩))
  | resume i =>
    obtain ⟨rest, -, rfl⟩ := Option.map_eq_some_iff.1 h
    exact .inr (.inr (.inr ⟨nofun, nofun, rfl, rfl, rfl⟩))
  | _ =>
    cases h
    exact .inr (.inr (.inr ⟨nofun, nofun, rfl, rfl, rfl⟩))

/-! ## Orderly runs -/

/-- **What orderly steps keep**: every value that an evaluation returned is the
one in the pair, which has been returned by a force then; and forces returned
nothing else. -/
structure World.Settled (w : World) : Prop where
  completed : ∀ v ∈ w.completed, v = w.state.2
  returned : ∀ v ∈ w.returned, v ∈ w.completed
  answered : w.completed ≠ [] → w.state.2 ∈ w.returned

theorem settled_makePromise : makePromise.Settled := ⟨nofun, nofun, fun h => absurd rfl h⟩

theorem World.Settled.consistent {w : World} (h : w.Settled) : w.Consistent := by
  refine ⟨h.returned, fun v hv v' hv' => ?_⟩
  rw [h.completed v (h.returned v hv), h.completed v' (h.returned v' hv')]

/-- An orderly step. -/
theorem World.Settled.step {w w' : World} {e : Event} (h : w.Settled)
    (hstep : SystemLib.step w e = some w') (hord : Orderly w e) : w'.Settled := by
  rcases step_cases hstep with ⟨rfl, hflag, hstate, hcomp, hret⟩ | ⟨rfl, hflag, rfl⟩ |
    ⟨v, rest, rfl, hdump, rfl⟩ | ⟨-, -, hstate, hcomp, hret⟩
  · -- The evaluation starts, and the value is left as it is.
    refine ⟨?_, ?_, ?_⟩ <;> rw [hcomp]
    · rw [hstate]
      exact h.completed
    · rw [hret]
      exact h.returned
    · rw [hstate, hret]
      exact h.answered
  · have hne := hord hflag
    obtain ⟨v, hv⟩ := List.exists_mem_of_ne_nil _ hne
    have hvalue : w.state.2 ∈ w.completed := h.completed v hv ▸ hv
    exact ⟨h.completed, List.forall_mem_cons.2 ⟨hvalue, h.returned⟩,
      fun _ => List.mem_cons_self⟩
  · refine ⟨List.forall_mem_cons.2 ⟨rfl, fun u hu => ?_⟩,
      List.forall_mem_cons.2 ⟨List.mem_cons_self, fun u hu => ?_⟩, fun _ => List.mem_cons_self⟩
    · have hsame := hord (by rw [hdump]; rfl) (List.ne_nil_of_mem hu)
      show u = v
      rw [hsame]
      exact h.completed u hu
    · exact List.mem_cons_of_mem v (h.returned u hu)
  · exact ⟨by rw [hcomp, hstate]; exact h.completed, by rw [hcomp, hret]; exact h.returned,
      by rw [hcomp, hret, hstate]; exact h.answered⟩

/-- **A step that is not orderly** is noticed at once: a force returns a value
that no evaluation returned, or another one than before. -/
theorem World.Settled.spoilt {w w' : World} {e : Event} (h : w.Settled)
    (hstep : SystemLib.step w e = some w') (hord : ¬ Orderly w e) : ¬ w'.Consistent := by
  rcases step_cases hstep with ⟨rfl, hflag, -⟩ | ⟨rfl, hflag, rfl⟩ |
    ⟨v, rest, rfl, hdump, rfl⟩ | ⟨hforce, hret, -⟩
  · exact absurd (fun htrue => absurd htrue (by rw [hflag]; nofun)) hord
  · rintro ⟨hcomp, -⟩
    exact hord fun _ => List.ne_nil_of_mem (hcomp _ List.mem_cons_self)
  · rintro ⟨-, hsame⟩
    refine hord fun _ hne => ?_
    exact hsame v List.mem_cons_self w.state.2 (List.mem_cons_of_mem _ (h.answered hne))
  · refine absurd ?_ hord
    cases e with
    | force => exact absurd rfl hforce
    | ret v => exact fun hhead => absurd hhead (hret v rfl)
    | _ => trivial

/-- **Promises are consistent** exactly in the runs whose steps are orderly: no
force between the start of the evaluation and its first return, which an
abandoned evaluation never comes to, and no second return with another
value. -/
theorem consistent_iff_orderly (es : List Event) :
    Throughout step World.Consistent makePromise es ↔ Along step Orderly makePromise es :=
  throughout_iff_along (fun _ h => h.consistent) (fun _ _ _ h => h.step)
    (fun _ _ _ h => h.spoilt) settled_makePromise

/-- **An abandoned evaluation**: the force after it returns false, which no
evaluation returned. -/
theorem abandoned_not_consistent :
    ¬ Throughout step World.Consistent makePromise [.force, .abort, .force] := by
  intro h
  have hgood := (h.2 _ rfl).2 _ rfl |>.2 _ rfl
  exact absurd (hgood.1 (.bool false) List.mem_cons_self) (List.not_mem_nil)

/-! ## The expression is evaluated once -/

/-- **The flag stays set**: every force after the first one returns what the
pair holds, and starts no evaluation. -/
theorem evaluated_once {w : World} (hset : w.state.1.isTrue = true) (es : List Event) :
    Throughout step (fun w' => w'.state.1.isTrue = true ∧ force w' = w'.answer) w es := by
  have hforce : ∀ {w : World}, w.state.1.isTrue = true → force w = w.answer := by
    intro w hset
    unfold force
    rw [hset]
    rfl
  refine throughout_of_step ?_ ⟨hset, hforce hset⟩ es
  rintro w e w' ⟨hset, -⟩ hstep
  suffices hset' : w'.state.1.isTrue = true from ⟨hset', hforce hset'⟩
  rcases step_cases hstep with ⟨-, hflag, -⟩ | ⟨-, -, rfl⟩ | ⟨v, rest, -, -, rfl⟩ |
    ⟨-, -, hstate, -⟩
  · rw [hset] at hflag
    cases hflag
  · exact hset
  · exact hset
  · rw [hstate]
    exact hset

end SystemLib
