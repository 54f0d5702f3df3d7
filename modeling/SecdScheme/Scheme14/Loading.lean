import SecdScheme.Scheme14.Depth
import SecdScheme.Scheme14.Handlers

/-!
# scheme14: a file loaded by a running program

`load` starts machines inside of the one that runs, and an error is handed to
the handler in the outermost machine only. So a file whose forms run through,
no instruction failing, is loaded as it would be evaluated at the top level,
and the caller goes on; a file with a form that catches an error of a
primitive is not.
-/

namespace Scheme14

variable {X : Type} {host : Host X} {n : ℕ} {forms : List Value} {w w₀ : World X}

/-- The forms one after the other: the value of the last one. -/
def evalForms (self : Self X) : List Value → Value → SchemeM X Value
  | [], last => return last
  | form :: forms, _ => do evalForms self forms (← evalTop self form)

/-- Outside of test mode a file is its forms, one after the other. -/
theorem loadForms_eq_evalForms (htest : ∀ x, host.testMode x = false) (self : Self X) :
    ∀ (forms : List Value) (last : Value),
      loadForms host self forms last = evalForms self forms last
  | [], _ => rfl
  | form :: forms, _ => by
    unfold loadForms evalForms
    funext w
    simp only [Cmd.bind_run]
    rcases evalTop self form w with ⟨e | last, w'⟩
    · rfl
    · simp [htest, loadForms_eq_evalForms htest self forms last]

/-- **`load` is transparent** where it is called with the forms of a file, read
in the world `w₀`: evaluated at the top level the forms return, and inside of
the running program they have the same effects, and the value of the last one
is returned to the caller. -/
def LoadTransparent (host : Host X) (n : ℕ) (name : String) (path : Value) (forms : List Value)
    (vm : VM) (tail : Bool) (w w₀ : World X) : Prop :=
  ∃ v w', loadForms host (machine host n) forms .nil (w₀.withDepth 0) = (.ok v, w') ∧
    doCall host (machine host n) { vm with stack := path :: vm.stack } (.prim name) 1 tail w =
      (.ok (vm.push v), w'.withDepth w.runDepth)

/-- **The forms run through**: at the top level they return although no error
of an instruction is handed over, so that no instruction fails. -/
def RunsThrough (host : Host X) (n : ℕ) (forms : List Value) (w₀ : World X) : Prop :=
  (loadForms host (unhanded host n) forms .nil (w₀.withDepth 0)).1.isOk = true

/-- The primitive returns to its caller what the forms return. -/
theorem doCall_load {name : String} {path : Value} {s : Data X} {self : Self X}
    (hname : host.kind name = .load) (hread : host.readForms path w.data = (.ok forms, s))
    (vm : VM) (tail : Bool) :
    doCall host self { vm with stack := path :: vm.stack } (.prim name) 1 tail w =
      (loadForms host self forms .nil >>= fun v => pure (vm.push v)) { w with data := s } := by
  have hstack : VM.resize (path :: vm.stack) (vm.stack.length + 1 - 1) = vm.stack := by
    simp [VM.resize]
  have hread' : onData (host.readForms path) w = (.ok forms, { w with data := s }) := by
    unfold onData
    rw [hread]
  unfold doCall callPrimStep
  simp only [hname, reduceCtorEq, if_false, List.take, List.reverse_cons, List.reverse_nil,
    List.nil_append, List.headD, List.length_cons, hstack]
  rw [Cmd.bind_run]
  simp [needArgs, hread', Cmd.bind_run, VM.push]

/-- Inside of another machine the forms do what they do at the top level without
any error handed over. -/
theorem unhanded_of_inner (hdepth : 1 ≤ w₀.runDepth) :
    loadForms host (unhanded host n) forms .nil (w₀.withDepth 0) =
        ((loadForms host (machine host n) forms .nil w₀).1,
          (loadForms host (machine host n) forms .nil w₀).2.withDepth 0) ∧
      (loadForms host (machine host n) forms .nil w₀).2.runDepth = w₀.runDepth := by
  have hinner : AtDepth False w₀.runDepth 0 (loadForms host (machine host n) forms .nil)
      (loadForms host (unhanded host n) forms .nil) :=
    ((machine_level host n).related hdepth 0).loadForms host forms .nil
  exact (hinner w₀ rfl).resolve_left fun ⟨_, _, _, hbad⟩ => hbad

/-- Forms that run through do the same with handing over. -/
theorem machine_of_unhanded {v : Value} {w' : World X}
    (h : loadForms host (unhanded host n) forms .nil (w₀.withDepth 0) = (.ok v, w')) :
    loadForms host (machine host n) forms .nil (w₀.withDepth 0) = (.ok v, w'.withDepth 0) := by
  have hdepth : AtDepth True 0 0 (loadForms host (unhanded host n) forms .nil)
      (loadForms host (machine host n) forms .nil) :=
    ((unhanded_level host n).related (Nat.le_refl 0) 0).loadForms host forms .nil
  have halike : _ ∨ _ := hdepth (w₀.withDepth 0) rfl
  rw [h] at halike
  rcases halike with ⟨e, w'', herr, -⟩ | ⟨hrun, -⟩
  · cases herr
  · exact hrun

/-- **When `load` is transparent**: exactly when the forms run through. Outside
of test mode the forms are evaluated one after the other. -/
theorem loadTransparent_iff {name : String} {path : Value} {s : Data X}
    (hname : host.kind name = .load) (hread : host.readForms path w.data = (.ok forms, s))
    (hdepth : 1 ≤ w.runDepth) (n : ℕ) (vm : VM) (tail : Bool) :
    (LoadTransparent host n name path forms vm tail w { w with data := s } ↔
        RunsThrough host n forms { w with data := s }) ∧
      ((∀ x, host.testMode x = false) → loadForms host (machine host n) forms .nil =
        evalForms (machine host n) forms .nil) := by
  refine ⟨?_, fun htest => loadForms_eq_evalForms htest _ forms .nil⟩
  obtain ⟨hinner, hsame⟩ : loadForms host (unhanded host n) forms .nil
      (({ w with data := s } : World X).withDepth 0) = _ ∧ _ := unhanded_of_inner hdepth
  unfold LoadTransparent RunsThrough
  rw [doCall_load hname hread, Cmd.bind_run]
  constructor
  · rintro ⟨v, w', -, hcall⟩
    rw [hinner]
    rcases hload : loadForms host (machine host n) forms .nil { w with data := s } with
      ⟨e | u, w''⟩
    · rw [hload] at hcall
      cases (Prod.mk.inj hcall).1
    · rfl
  · intro hok
    obtain ⟨v, w', hrun⟩ := Cmd.exists_of_isOk hok
    refine ⟨v, w'.withDepth 0, machine_of_unhanded hrun, ?_⟩
    rw [hinner] at hrun
    obtain ⟨hv, hw'⟩ := Prod.mk.inj hrun
    rcases hload : loadForms host (machine host n) forms .nil { w with data := s } with ⟨r, w''⟩
    rw [hload] at hv hw' hsame
    obtain rfl : r = .ok v := hv
    subst hw'
    refine Prod.ext rfl (show w'' = (w''.withDepth 0).withDepth w.runDepth from ?_)
    rw [← show w''.runDepth = w.runDepth from hsame]
    rfl

/-! ### Two files -/

/-- `(call/cc (lambda (k) (with-exception-handler (lambda (c) (k 7)) (lambda () body))))`. -/
def caught (body : Datum) : Datum :=
  .list [.sym "call/cc", .list [.sym "lambda", .list [.sym "k"],
    callOf "with-exception-handler"
      [.list [.sym "lambda", .list [.sym "c"], callOf "k" [.atom (.int 7)]],
        .list [.sym "lambda", .nil, body]]]]

/-- A file with a form that catches what it raises. -/
def raisingFile : List Datum := [caught (callOf "raise" [.atom (.int 1)])]

/-- A file with a form that catches an error of `car`. -/
def failingFile : List Datum := [caught (callOf "car" [.atom (.int 1)])]

/-- The library's world, inside of a running program. -/
def runningWorld : World Unit := libraryWorld.withDepth 1

/-- The forms of a file run through. -/
def fileRunsThrough (file : List Datum) : Bool :=
  match (handlerHost file).readForms .nil runningWorld.data with
  | (.ok forms, s) =>
    (loadForms (handlerHost file) (unhanded (handlerHost file) 120) forms .nil
      (World.withDepth { runningWorld with data := s } 0)).1.isOk
  | (.error _, _) => false

theorem loadTransparent_raisingFile : ∃ forms s,
    (handlerHost raisingFile).readForms .nil runningWorld.data = (.ok forms, s) ∧
      LoadTransparent (handlerHost raisingFile) 120 "load" .nil forms (VM.start [] none) false
        runningWorld { runningWorld with data := s } := by
  have hruns : fileRunsThrough raisingFile = true := by decide +kernel
  unfold fileRunsThrough at hruns
  split at hruns
  · rename_i forms s hread
    exact ⟨forms, s, hread, (loadTransparent_iff (by decide) hread (Nat.le_refl 1) 120
      (VM.start [] none) false).1.mpr hruns⟩
  · cases hruns

/-- What the forms of a file return at the top level, and how loading them ends. -/
def topLevelAndLoaded (file : List Datum) : Option Value × Bool :=
  match (handlerHost file).readForms .nil runningWorld.data with
  | (.ok forms, s) =>
    ((loadForms (handlerHost file) (machine (handlerHost file) 120) forms .nil
        (World.withDepth { runningWorld with data := s } 0)).1.toOption,
      (doCall (handlerHost file) (machine (handlerHost file) 120)
        { VM.start [] none with stack := [.nil] } (.prim "load") 1 false runningWorld).1.isOk)
  | (.error _, _) => (none, false)

/-- **A form that catches an error of a primitive**: it returns at the top
level, and ends the program that loads it. -/
theorem failingFile_not_loadTransparent : ∃ forms s,
    (handlerHost failingFile).readForms .nil runningWorld.data = (.ok forms, s) ∧
      (loadForms (handlerHost failingFile) (machine (handlerHost failingFile) 120) forms .nil
        (World.withDepth { runningWorld with data := s } 0)).1.toOption = some (.int 7) ∧
      ¬ LoadTransparent (handlerHost failingFile) 120 "load" .nil forms (VM.start [] none) false
        runningWorld { runningWorld with data := s } := by
  have hruns : topLevelAndLoaded failingFile = (some (.int 7), false) := by
    decide +kernel
  unfold topLevelAndLoaded at hruns
  split at hruns
  · rename_i forms s hread
    obtain ⟨htop, hcall⟩ := Prod.mk.inj hruns
    refine ⟨forms, s, hread, htop, ?_⟩
    rintro ⟨v, w', -, hload⟩
    rw [show ({ VM.start [] none with stack := [.nil] } : VM) =
      { VM.start [] none with stack := .nil :: (VM.start [] none).stack } from rfl, hload] at hcall
    cases hcall
  · cases hruns

end Scheme14
