import SecdScheme.Lib.CmdKeeps
import SecdScheme.Scheme14.CallsRelated

/-!
# scheme14: what no run takes back

A preorder of worlds that every basic change of the machine respects is
respected by the compiler and the machine as a whole, however they end. For one
such preorder: whatever a program does, a global variable that has a value has
one afterwards, and so does a macro; a closure and a continuation stay what they
are; and a frame keeps its place, the frame it leads to and the number of its
variables, so that an address that the compiler has found leads to the same
location for good.
-/

namespace Scheme14

open Cmd (Keeps)

variable {X α : Type} {host : Host X} {self : Self X}

/-- **A preorder that the basic changes of the machine respect.** What else is
changed is the compiler's table, the depth, and what is noted of reads, stamps
and faults. -/
class RunOrder (R : World X → World X → Prop) : Prop extends IsPreorder (World X) R where
  quiet : ∀ {w w' : World X}, w'.data = w.data → w'.frames = w.frames →
    w'.closures = w.closures → w'.conts = w.conts → w'.globals = w.globals →
    w'.macros = w.macros → w'.updates = w.updates → R w w'
  data : ∀ (w : World X) (s : Data X), R w { w with data := s }
  frame : ∀ (w : World X) (f : Frame), R w { w with frames := w.frames ++ [f] }
  closure : ∀ (w : World X) (clo : Closure), R w { w with closures := w.closures ++ [clo] }
  cont : ∀ (w : World X) (k : Cont), R w { w with conts := w.conts ++ [k] }
  macroCell : ∀ (w : World X) (x : Cell) (v : Value), R w { w with
    macros := fun t n => if t = x.table ∧ n = x.name then some v else w.macros t n }
  global : ∀ (w : World X) (x : Cell) (v : Value), R w (setGlobal x v w).2
  location : ∀ (w : World X) (f b : ℕ) (v : Value), R w (setLocation f b v w).2

/-- To keep a preorder, as a relation that commands respect; there is only one command
to look at. -/
def TurnRules.keeping (R : World X → World X → Prop) [IsPreorder (World X) R]
    (hbasic : ∀ {α : Type} {m : SchemeM X α}, Basic m → Keeps R m) : TurnRules X where
  Rel m _ := Keeps R m
  pure _ := .pure
  fail _ := .fail
  bind h hf := h.bind hf
  getState _ h := .bind_reads .getState h
  basic := hbasic

variable {R : World X → World X → Prop} [RunOrder R]

theorem keeps_basic {m : SchemeM X α} (h : Basic m) : Keeps R m := by
  intro w
  cases h with
  | fault | read | stamp => exact RunOrder.quiet rfl rfl rfl rfl rfl rfl rfl
  | frame f => exact RunOrder.frame w f
  | closure clo => exact RunOrder.closure w clo
  | cont vm => exact RunOrder.cont w _
  | macroCell x v => exact RunOrder.macroCell w x v
  | global x v => exact RunOrder.global w x v
  | location f b v => exact RunOrder.location w f b v
  | list | elements | error => exact RunOrder.data w _

variable (R) in
/-- **To keep an order of runs.** -/
def Rules.keeping : Rules X where
  toTurnRules := .keeping R keeps_basic
  data _ := fun w => RunOrder.data w _
  cut := fun _ => RunOrder.quiet rfl rfl rfl rfl rfl rfl rfl
  withTable t h := by
    refine Keeps.bind_reads .getState fun w => ?_
    refine Keeps.bind (.modifyState fun _ => RunOrder.quiet rfl rfl rfl rfl rfl rfl rfl) fun _ => ?_
    exact Keeps.finallyDo h fun s => RunOrder.quiet rfl rfl rfl rfl rfl rfl rfl

/-- **An error that is handed over** has kept the order as well. -/
theorem keeps_handOver (vm : VM) {m : SchemeM X Next} (h : Keeps R m) :
    Keeps R (handOver vm m) := by
  intro w
  have hw := h w
  unfold handOver
  rcases hm : m w with ⟨e | next, w'⟩ <;> rw [hm] at hw
  · dsimp only
    split
    -- the error goes on as it is: to no handler at all, or past this machine
    · exact hw
    · split
      · exact hw
      -- the registers are set for a call of `raise`
      · exact trans_of R hw ((Rules.keeping R).map ((Rules.keeping R).abandonToRaise vm _) _ w')
  · exact hw

/-- A machine is started, one level deeper. -/
theorem keeps_run (hloop : ∀ vm, Keeps R (self.loop vm)) (vm : VM) : Keeps R (run self vm) :=
  Keeps.bind (.modifyState fun _ => RunOrder.quiet rfl rfl rfl rfl rfl rfl rfl) fun _ =>
    (hloop vm).finallyDo fun _ => RunOrder.quiet rfl rfl rfl rfl rfl rfl rfl

/-- One turn of the loop. -/
theorem keeps_loopStep (host : Host X) (hself : Self.Related (.keeping R) self self)
    (hloop : ∀ vm, Keeps R (self.loop vm)) (vm : VM) : Keeps R (loopStep host self vm) := by
  unfold loopStep
  split
  · exact (Rules.keeping R).fault _ _
  · refine (keeps_handOver _ (hself.execute host _ _)).bind fun next => ?_
    cases next with
    | «continue» vm => exact hloop vm
    | done v => exact .pure

/-- **The compiler and the machine respect the order**, to every depth. -/
theorem machine_keepsOrder (host : Host X) : ∀ n,
    Self.Related (.keeping R) (machine host n) (machine host n) ∧
      ∀ vm, Keeps R ((machine host n).loop vm)
  | 0 => ⟨⟨rfl, fun _ _ _ => .fail, keeps_run fun _ => .fail, fun _ _ => .fail⟩, fun _ => .fail⟩
  | n + 1 => by
    -- the machines inside of this one are a level below
    obtain ⟨hself, hloop⟩ := machine_keepsOrder host n
    have hloop' : ∀ vm, Keeps R ((machine host (n + 1)).loop vm) := keeps_loopStep host hself hloop
    exact ⟨⟨rfl, hself.compStep, keeps_run hloop', hself.callPrimStep host⟩, hloop'⟩

/-- **So does a session.** -/
theorem playForms_keepsOrder (host : Host X) (fuel : ℕ) (forms : List Value) (w : World X) :
    R w (playForms host fuel forms w) := by
  induction forms generalizing w with
  | nil => exact refl_of R w
  | cons form forms ih =>
    have hform : Keeps R (evalTop (machine host fuel) form) :=
      (machine_keepsOrder host fuel).1.evalTop form
    exact trans_of R (hform w) (ih _)

/-! ## What stays -/

variable {w w' w'' : World X}

/-- A frame after some run: with other values. -/
structure Frame.SameShape (f f' : Frame) : Prop where
  next : f'.next = f.next
  length : f'.vals.length = f.vals.length

theorem Frame.SameShape.refl (f : Frame) : f.SameShape f := ⟨rfl, rfl⟩

/-- **What there is stays there.** -/
structure World.Grows (w w' : World X) : Prop where
  globals : ∀ t name, (w.globals t name).isSome = true → (w'.globals t name).isSome = true
  macros : ∀ t name, (w.macros t name).isSome = true → (w'.macros t name).isSome = true
  closures : w.closures <+: w'.closures
  conts : w.conts <+: w'.conts
  frames : ∀ (a : ℕ) (f : Frame), w.frames[a]? = some f →
    ∃ f', w'.frames[a]? = some f' ∧ f.SameShape f'

namespace World.Grows

theorem refl (w : World X) : w.Grows w :=
  ⟨fun _ _ => id, fun _ _ => id, List.prefix_rfl, List.prefix_rfl,
    fun _ f hf => ⟨f, hf, .refl f⟩⟩

theorem trans (h : w.Grows w') (h' : w'.Grows w'') : w.Grows w'' where
  globals t name hw := h'.globals t name (h.globals t name hw)
  macros t name hw := h'.macros t name (h.macros t name hw)
  closures := h.closures.trans h'.closures
  conts := h.conts.trans h'.conts
  frames a f hf := by
    obtain ⟨f', hf', hs⟩ := h.frames a f hf
    obtain ⟨f'', hf'', hs'⟩ := h'.frames a f' hf'
    exact ⟨f'', hf'', hs'.next.trans hs.next, hs'.length.trans hs.length⟩

/-- A change that has nothing to do with these tables. -/
theorem of_eq (hf : w'.frames = w.frames) (hc : w'.closures = w.closures)
    (hk : w'.conts = w.conts) (hg : w'.globals = w.globals) (hm : w'.macros = w.macros) :
    w.Grows w' where
  globals _ _ h := hg ▸ h
  macros _ _ h := hm ▸ h
  closures := hc ▸ List.prefix_rfl
  conts := hk ▸ List.prefix_rfl
  frames _ f h := ⟨f, hf ▸ h, .refl f⟩

/-- A name is bound in a table. -/
theorem isSome_bind {m : Table → String → Option Value} {x : Cell} {v : Value} {t : Table}
    {name : String} (h : (m t name).isSome = true) :
    (if t = x.table ∧ name = x.name then some v else m t name).isSome = true := by
  split
  · rfl
  · exact h

instance : RunOrder (X := X) World.Grows where
  refl := refl
  trans _ _ _ := trans
  quiet _ hf hc hk hg hm _ := .of_eq hf hc hk hg hm
  data _ _ := .of_eq rfl rfl rfl rfl rfl
  frame w f :=
    { refl w with
      frames := fun a f' hf' => by
        refine ⟨f', ?_, .refl f'⟩
        show (w.frames ++ [f])[a]? = _
        rw [List.getElem?_append_left (List.getElem?_eq_some_iff.mp hf').1, hf'] }
  closure w _ := { refl w with closures := List.prefix_append _ _ }
  cont w _ := { refl w with conts := List.prefix_append _ _ }
  macroCell w _ _ := { refl w with macros := fun _ _ => isSome_bind }
  global w _ _ := { refl w with globals := fun _ _ => isSome_bind }
  location w f b v :=
    { refl w with
      frames := fun a fr hfr => by
        refine ⟨if f = a then { fr with vals := fr.vals.set b v } else fr, ?_, ?_⟩
        · show (w.frames.modify f fun fr => { fr with vals := fr.vals.set b v })[a]? = _
          rw [List.getElem?_modify, hfr]
          rfl
        · split
          · exact ⟨rfl, List.length_set⟩
          · exact .refl fr }

/-- The way along the frames stays the same. -/
theorem envAt (h : w.Grows w') {n a : ℕ} {env : Option ℕ}
    (ha : Scheme14.envAt w.frames env n = some a) : Scheme14.envAt w'.frames env n = some a := by
  induction n generalizing env with
  | zero =>
    cases env with
    | none => cases ha
    | some b => exact ha
  | succ n ih =>
    cases env with
    | none => cases ha
    | some b =>
      rw [Scheme14.envAt] at ha ⊢
      cases hb : w.frames[b]? with
      | none =>
        rw [hb] at ha
        cases ha
      | some f =>
        rw [hb] at ha
        obtain ⟨f', hf', hs⟩ := h.frames b f hb
        rw [hf']
        dsimp only at ha ⊢
        rw [hs.next]
        exact ih ha

/-- **A location that was found is found again.** -/
theorem localAt (h : w.Grows w') {env : Option ℕ} {a b f : ℕ} {v : Value}
    (hv : Scheme14.localAt w.frames env a b = some (f, v)) :
    ∃ v', Scheme14.localAt w'.frames env a b = some (f, v') := by
  unfold Scheme14.localAt at hv ⊢
  obtain ⟨f₁, henv, hv⟩ := Option.bind_eq_some_iff.mp hv
  obtain ⟨fr, hfr, hv⟩ := Option.bind_eq_some_iff.mp hv
  obtain ⟨u, hu, hv⟩ := Option.bind_eq_some_iff.mp hv
  cases hv
  obtain ⟨fr', hfr', hs⟩ := h.frames f fr hfr
  have hlt : b < fr'.vals.length := by
    rw [hs.length]
    exact (List.getElem?_eq_some_iff.mp hu).1
  refine ⟨fr'.vals[b], ?_⟩
  simp only [h.envAt henv, hfr', List.getElem?_eq_getElem hlt, bind, Option.bind, pure]

end World.Grows

theorem getElem?_of_isPrefix {l l' : List α} {a : ℕ} {x : α} (h : l <+: l') (hx : l[a]? = some x) :
    l'[a]? = some x := by
  obtain ⟨rest, rfl⟩ := h
  rw [List.getElem?_append_left (List.getElem?_eq_some_iff.mp hx).1, hx]

/-- **No run takes anything back.** After any session, whatever its forms are,
with whatever host and to whatever depth of recursion, errors or not: a global
variable that had a value has one, a macro is still a macro, every closure (but
the scratch closure of a running machine) and every continuation is what it was,
and a local variable that was found at an address is found there, in the same
frame. -/
theorem playForms_takesNothingBack (host : Host X) (fuel : ℕ) (forms : List Value)
    (w : World X) :
    (∀ t name, (w.globals t name).isSome = true →
      ((playForms host fuel forms w).globals t name).isSome = true) ∧
    (∀ t name, (w.macros t name).isSome = true →
      ((playForms host fuel forms w).macros t name).isSome = true) ∧
    (∀ (a : ℕ) (clo : Closure), w.closures[a]? = some clo →
      (playForms host fuel forms w).closures[a]? = some clo) ∧
    (∀ (a : ℕ) (k : Cont), w.conts[a]? = some k →
      (playForms host fuel forms w).conts[a]? = some k) ∧
    ∀ (env : Option ℕ) (a b f : ℕ) (v : Value), localAt w.frames env a b = some (f, v) →
      ∃ v', localAt (playForms host fuel forms w).frames env a b = some (f, v') := by
  have h : w.Grows (playForms host fuel forms w) := playForms_keepsOrder host fuel forms w
  exact ⟨h.globals, h.macros, fun _ _ => getElem?_of_isPrefix h.closures,
    fun _ _ => getElem?_of_isPrefix h.conts, fun _ _ _ _ _ hv => h.localAt hv⟩

end Scheme14
