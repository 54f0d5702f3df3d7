import SecdScheme.Scheme14.MachineSound

/-!
# scheme14: sessions

A session starts without any code, reads the library, takes the copies that
become the environments of the report and of the empty environment, and then
plays the forms that are typed in. Worlds stay certified all the way. So the
machine never fails in itself, and the copies stay what they were.
-/

namespace Scheme14

open Certified (world)

variable {X : Type} {w : World X}

/-- A world without code; the compiler looks into the table of the
interaction environment. -/
structure World.Fresh (w : World X) : Prop where
  closures : w.closures = []
  conts : w.conts = []
  updates : w.updates = []
  reads : w.reads = []
  faults : w.faults = []
  compileTable : w.compileTable = .interaction

/-- Without code there is nothing to certify. -/
theorem World.Fresh.certified (h : w.Fresh) : ∃ g : Certified X, g.world = w := by
  obtain ⟨hclosures, hconts, hupdates, hreads, hfaults, -⟩ := h
  refine ⟨⟨w, ⟨?_, ?_, ?_, ?_⟩, fun _ => ⟨hfaults, ?_, ?_⟩⟩, rfl⟩
  · rw [hclosures]
    exact nofun
  · rw [hconts]
    exact nofun
  · rw [hupdates]
    exact nofun
  · rw [hreads]
    exact nofun
  · rw [hclosures]
    exact nofun
  · rw [hconts]
    exact nofun

/-- A special form. -/
def Value.isSpecial : Value → Bool
  | .special _ => true
  | _ => false

/-- **`freeze_environments`.** The copy for the report has every cell with a
value or a macro, the copy for the empty environment has the special forms and
`:undef`. -/
def freeze (w : World X) : World X :=
  let proc := Value.prim "scheme-report-environment"
  let present := fun n => (w.globals .interaction n).isSome || (w.macros .interaction n).isSome
  { w with
    globals := fun t n => match t with
      | .interaction =>
        if n = "scheme-report-environment" then some proc else w.globals .interaction n
      | .report =>
        if n = "scheme-report-environment" ∧ !present n then some proc
        else w.globals .interaction n
      | .null => (w.globals .interaction n).filter fun v => v.isSpecial || n == ":undef"
    macros := fun t n => match t with
      | .null => none
      | _ => w.macros .interaction n }

/-- **A session**: the library, the copies, and the forms typed in. -/
def session (host : Host X) (fuel fuel' : ℕ) (library forms : List Value) (w : World X) :
    World X :=
  playForms host fuel' forms (freeze (playForms host fuel library w))

/-- The forms of a session leave a later certified world. -/
theorem exists_certified_playForms (host : Host X) (fuel : ℕ) : ∀ (forms : List Value)
    (g : Certified X), ∃ g' : Certified X, g'.world = playForms host fuel forms g.world ∧ g ≤ g'
  | [], g => ⟨g, rfl, le_refl g⟩
  | form :: forms, g => by
    obtain ⟨g₁, hg₁, h₁⟩ := (follows_evalTop (g := g) (machine_sound host fuel) form).exists_state
    obtain ⟨g₂, hg₂, h₂⟩ := exists_certified_playForms host fuel forms g₁
    refine ⟨g₂, ?_, le_trans h₁ h₂⟩
    rw [hg₂, hg₁]
    rfl

/-- **Every session passes through certified worlds only.** -/
theorem World.Fresh.session_certified (hw : w.Fresh) (host : Host X) (fuel fuel' : ℕ)
    (library forms : List Value) : ∃ g g' : Certified X,
      g.world = freeze (playForms host fuel library w) ∧
        g'.world = session host fuel fuel' library forms w ∧ g ≤ g' ∧
        g.world.compileTable = .interaction := by
  obtain ⟨g₀, rfl⟩ := hw.certified
  obtain ⟨g₁, hg₁, h₁⟩ := exists_certified_playForms host fuel library g₀
  let g₂ : Certified X := ⟨freeze g₁.world, g₁.placed, g₁.typed⟩
  obtain ⟨g₃, hg₃, h₃⟩ := exists_certified_playForms host fuel' forms g₂
  refine ⟨g₂, g₃, congrArg freeze hg₁, ?_, h₃, h₁.compileTable.trans hw.compileTable⟩
  rw [hg₃]
  show playForms host fuel' forms (freeze g₁.world) = _
  rw [hg₁]
  rfl

/-! ## No fault -/

/-- **The machine never fails in itself.** Unless an operand was cut, no
session ever notes a missing operand, a variable that is not there, an entry
of another call or branch, a branch that is missing, or the end of the code. -/
theorem session_faults_eq_nil (host : Host X) (fuel fuel' : ℕ) (library forms : List Value)
    (hw : w.Fresh) (ht : (session host fuel fuel' library forms w).truncated = false) :
    (session host fuel fuel' library forms w).faults = [] := by
  obtain ⟨-, g, -, hg, -, -⟩ := hw.session_certified host fuel fuel' library forms
  rw [← hg] at ht ⊢
  exact (g.typed ht).faults

/-! ### A small session -/

/-- A host whose primitives all return `()`. -/
def plainHost : Host Unit where
  kind _ := .data
  apply _ _ := return .nil
  readForms _ := return []
  testMode _ := false
  reportTest _ _ := return ()

/-- A world with nothing in it but pairs. -/
def pairsWorld (pairs : List (Value × Value)) : World Unit where
  data := { pairs := pairs, strings := [], vectors := [], errors := [], winds := [],
            windNextId := 0, handler := none, gensymCounter := 0, ext := () }
  frames := []
  closures := []
  conts := []
  globals _ _ := none
  macros _ _ := none
  compileTable := .interaction
  runDepth := 0
  updates := []
  reads := []
  stamps := 0
  faults := []
  truncated := false

theorem fresh_pairsWorld (pairs : List (Value × Value)) : (pairsWorld pairs).Fresh :=
  ⟨rfl, rfl, rfl, rfl, rfl, rfl⟩

/-- The pairs of `((lambda (x) x) 1)`, which is the last one. -/
def applyIdentity : List (Value × Value) :=
  [(.sym "x", .nil), (.pair 0, .pair 0), (.sym "lambda", .pair 1), (.int 1, .nil),
    (.pair 2, .pair 3)]

theorem session_applyIdentity :
    (session plainHost 9 9 [] [.pair 4] (pairsWorld applyIdentity)).faults = [] :=
  session_faults_eq_nil plainHost 9 9 [] [.pair 4] (fresh_pairsWorld applyIdentity) (by decide +kernel)

end Scheme14
