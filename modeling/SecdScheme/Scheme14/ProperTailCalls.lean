import SecdScheme.Scheme14.TailCalls

/-!
# scheme14: chains of tail calls

The states that machines pass through, from the worlds that a session
reaches. An activation is followed from the start of a body through everything
that happens before its tail call, other calls and continuations included, and
a chain of tail calls of any length ends with the dump and the operands that
it started with.
-/

namespace Scheme14

open Tracked (world machine_tracks)

variable {X : Type} {host : Host X}

/-! ## Runs of a machine -/

/-- A state of a machine: what is left of the depth of recursion, its
registers, and the world. -/
structure Config (X : Type) where
  fuel : ℕ
  vm : VM
  world : World X

/-- **The states that a machine passes through.** -/
inductive Turns (host : Host X) : Config X → Config X → Prop
  | refl (c) : Turns host c c
  | turn {n vm vm' w w' d} : turn host (machine host n) vm w = (.ok (.continue vm'), w') →
      Turns host ⟨n, vm', w'⟩ d → Turns host ⟨n + 1, vm, w⟩ d

/-- The instruction that comes next. -/
def VM.instr? (vm : VM) : Option Instr := vm.c[vm.pc]?

/-- **A call enters a body**, of a closure or of `eval`: `d` is the start of
that body. -/
def EntersBody (host : Host X) (tail : Bool) (c d : Config X) : Prop :=
  c.fuel = d.fuel + 1 ∧ ∃ ins, c.vm.instr? = some ins ∧ ins.callMode = some tail ∧
    Enters host (c.vm.stack.headD .nil) ∧
    execute host (machine host d.fuel) { c.vm with pc := c.vm.pc + 1 } ins c.world =
      (.ok (.continue d.vm), d.world)

/-- The body that is running is the same: it has the same frame, or it is to
take the same entry from the dump. -/
def VM.SameActivation (vm vm' : VM) : Prop :=
  vm'.mark = vm.mark ∨ ∃ f, vm.env = some f ∧ vm'.env = some f

/-- **A chain of tail calls**: from the start of a body the machine gets to a
tail call of that body, which enters the next one. -/
inductive TailCalls (host : Host X) : ℕ → Config X → Config X → Prop
  | nil (a) : TailCalls host 0 a a
  | cons {k a c b d} : Turns host a c → a.vm.SameActivation c.vm → EntersBody host true c b →
      TailCalls host k b d → TailCalls host (k + 1) a d

/-- The start of a machine, for a form or for a call of a macro. -/
inductive Starts (host : Host X) (w : World X) : VM → World X → Prop
  | form {n expr c w'} : compileTop (machine host n) expr w = (.ok c, w') →
      Starts host w (VM.start c none) { w' with runDepth := w'.runDepth + 1 }
  | closure {clo args a w'} : clo ∈ w.closures → makeFrame clo args w = (.ok a, w') →
      Starts host w (VM.start clo.body (some a)) { w' with runDepth := w'.runDepth + 1 }

/-- **The worlds of a session.** There is no code at first. What the compiler
does before it starts a machine for a macro, and what an instruction does
before it starts one, is made of the same steps. -/
inductive Reached (host : Host X) : World X → Prop
  | fresh {w} : w.closures = [] → w.conts = [] → Reached host w
  | alike {w w'} : Reached host w → w.Alike w' → Reached host w'
  | comp {w} (n expr env tail) : Reached host w →
      Reached host ((machine host n).comp expr env tail w).2
  | callPrim {w} (n name args) : Reached host w →
      Reached host ((machine host n).callPrim name args w).2
  | turns {w vm w' n d} : Reached host w → Starts host w vm w' → Turns host ⟨n, vm, w'⟩ d →
      Reached host d.world
  | ended {w vm w'} (n) : Reached host w → Starts host w vm w' →
      Reached host ((machine host n).loop vm w').2

/-- The starts of bodies in a run: its own, and those that calls enter. -/
def BodyStarts (host : Host X) (s a : Config X) : Prop :=
  a = s ∨ ∃ tail c, Turns host s c ∧ EntersBody host tail c a

/-! ## What the book has -/

/-- What is in the book of a body that has just been entered. -/
structure VM.Entered (vm : VM) (b : Book) : Prop where
  placed : vm.At b
  acts : b.acts vm.mark = some (vm.base, vm.dump)
  owners : ∀ f ∈ vm.env, b.owners f = some vm.mark
  operands : vm.stack.length = vm.base

theorem VM.Body.entered {vm : VM} {b : Book} (h : vm.Body b) : vm.Entered b :=
  ⟨h.at, h.held.inBook.1, h.held.inBook.2, h.operands⟩

/-- **One activation has one dump**, and one place where its operands start,
which its code that returns comes back to. -/
theorem VM.Entered.same {vm vm' : VM} {b b' : Book} (h : vm.Entered b) (hsub : b.Sub b')
    (hheld : Held b' .rtn vm'.env vm'.base vm'.mark vm'.dump) (hsame : vm.SameActivation vm') :
    vm'.dump = vm.dump ∧ vm'.base = vm.base := by
  obtain ⟨hacts, howners⟩ := hheld.inBook
  have hmark : vm'.mark = vm.mark := by
    rcases hsame with hmark | ⟨f, hf, hf'⟩
    · exact hmark
    · have hown := hsub.owners f _ (h.owners f hf)
      exact Option.some.inj ((howners f hf').symm.trans hown)
  rw [hmark, hsub.acts _ _ h.acts] at hacts
  obtain ⟨hbase, hdump⟩ := Prod.mk.inj (Option.some.inj hacts)
  exact ⟨hdump.symm, hbase.symm⟩

namespace Tracked

variable {g : Tracked X} {c d : Config X}

theorem exists_turns (h : Turns host c d) : ∀ {g : Tracked X}, g.world = c.world →
    c.vm.At g.book → ∃ g' : Tracked X, g'.world = d.world ∧ g ≤ g' ∧ d.vm.At g'.book := by
  induction h with
  | refl c => exact fun hworld hvm => ⟨_, hworld, le_refl _, hvm⟩
  | @turn n vm vm' w w' d hturn _ ih =>
    rintro g rfl hvm
    have hfollows : Cmd.Follows world g (turn host (machine host n) vm) _ :=
      follows_turn (machine_tracks host n) hvm
    rcases hfollows.outcomes with ⟨next, g₁, hrun, h₁, hnext⟩ | ⟨e, g₁, hrun, -⟩
    · obtain ⟨hok, hw'⟩ := Prod.mk.inj (hrun.symm.trans hturn)
      obtain rfl := Except.ok.inj hok
      obtain ⟨g₂, hworld, h₂, hd⟩ := ih hw' hnext
      exact ⟨g₂, hworld, le_trans h₁ h₂, hd⟩
    · cases (Prod.mk.inj (hrun.symm.trans hturn)).1

theorem exists_entered {tail : Bool} (h : EntersBody host tail c d) (hworld : g.world = c.world)
    (hvm : c.vm.At g.book) : ∃ g' : Tracked X, g'.world = d.world ∧ g ≤ g' ∧
      d.vm.Body g'.book ∧ (tail = true → d.vm.dump = c.vm.dump ∧ d.vm.base = c.vm.base) := by
  obtain ⟨-, ins, hins, hi, hent, hexec⟩ := h
  have hpast := past_of_at hvm hins
  rw [← hworld] at hexec
  have hfollows : Cmd.Follows world g (execute host (machine host d.fuel) _ ins) _ :=
    follows_call (machine_tracks host d.fuel) hi hpast
  rcases hfollows.outcomes with ⟨next, g₁, hrun, h₁, vm', rfl, hcalled⟩ | ⟨e, g₁, hrun, -⟩
  · obtain ⟨hok, hw'⟩ := Prod.mk.inj (hrun.symm.trans hexec)
    obtain rfl := Next.continue.inj (Except.ok.inj hok)
    exact ⟨g₁, hw', h₁, hcalled.body hent, hcalled.same hent⟩
  · cases (Prod.mk.inj (hrun.symm.trans hexec)).1

/-- A tail call is in code that returns. -/
theorem held_of_tail (h : EntersBody host true c d) (hvm : c.vm.At g.book) :
    Held g.book .rtn c.vm.env c.vm.base c.vm.mark c.vm.dump := by
  obtain ⟨-, ins, hins, hi, -⟩ := h
  obtain ⟨e, he, hheld, -⟩ := ((past_of_at hvm hins).ready hi).place
  obtain rfl := he rfl
  exact hheld

/-- **A chain keeps the dump and the base.** -/
theorem exists_tailCalls {k : ℕ} {a b : Config X} (h : TailCalls host k a b) :
    ∀ {g : Tracked X}, g.world = a.world → a.vm.Entered g.book →
      b.vm.dump = a.vm.dump ∧ b.vm.base = a.vm.base ∧ b.vm.stack.length = b.vm.base := by
  induction h with
  | nil a => exact fun _ ha => ⟨rfl, rfl, ha.operands⟩
  | cons hturns hsame hent _ ih =>
    intro g hworld ha
    obtain ⟨g₁, hworld₁, h₁, hc⟩ := exists_turns hturns hworld ha.placed
    obtain ⟨hdump, hbase⟩ := ha.same h₁ (held_of_tail hent hc) hsame
    obtain ⟨g₂, hworld₂, h₂, hb, htail⟩ := exists_entered hent hworld₁ hc
    obtain ⟨hdump', hbase'⟩ := htail rfl
    obtain ⟨hdump'', hbase'', hstack⟩ := ih hworld₂ hb.entered
    refine ⟨?_, ?_, hstack⟩
    · rw [hdump'', hdump', hdump]
    · rw [hbase'', hbase', hbase]

/-! ## Sessions -/

/-- A machine that has been started is in the book. -/
theorem exists_starts {vm : VM} {w' : World X} (h : Starts host g.world vm w') :
    ∃ g' : Tracked X, g'.world = w' ∧ vm.Entered g'.book := by
  cases h with
  | @form n expr c w' hrun =>
    rcases (follows_compileTop (g := g) (machine_tracks host n) expr).outcomes with
      ⟨c', g₁, hrun', -, hc⟩ | ⟨e, g₁, hrun', -⟩
    · obtain ⟨hok, hw'⟩ := Prod.mk.inj (hrun'.symm.trans hrun)
      obtain rfl := Except.ok.inj hok
      subst hw'
      let g₂ := g₁.alike (w := { g₁.world with runDepth := g₁.world.runDepth + 1 })
        ⟨rfl, rfl, rfl, rfl⟩
      exact ⟨g₂, rfl, ⟨nofun, .stop, .stop, hc⟩, g₂.tracks.outermost, nofun, rfl⟩
    · cases (Prod.mk.inj (hrun'.symm.trans hrun)).1
  | @closure clo args a w' hclo hrun =>
    rcases (follows_makeFrame (g := g) clo args).outcomes with
      ⟨a', g₁, hrun', -, ha, hfree⟩ | ⟨e, g₁, hrun', -⟩
    · obtain ⟨hok, hw'⟩ := Prod.mk.inj (hrun'.symm.trans hrun)
      obtain rfl := Except.ok.inj hok
      obtain ⟨g₂, hworld, hbook, hle⟩ := exists_own ha hfree 0
      let g₃ := g₂.alike (w := { g₂.world with runDepth := g₂.world.runDepth + 1 })
        ⟨rfl, rfl, rfl, rfl⟩
      have howner : ∀ f ∈ some a', g₃.book.owners f = some 0 := by
        intro f hf
        obtain rfl := Option.mem_some_iff.mp hf
        show g₂.book.owners a' = some 0
        rw [hbook]
        exact Book.owners_own _ _ _
      have hw₃ : g₃.world = { w' with runDepth := w'.runDepth + 1 } := by
        rw [← hw', ← hworld]
        rfl
      exact ⟨g₃, hw₃, ⟨nofun, .rtn, .outermost g₃.tracks.outermost howner,
        g.tracks.closures clo hclo⟩, g₃.tracks.outermost, howner, rfl⟩
    · cases (Prod.mk.inj (hrun'.symm.trans hrun)).1

/-- **Every world of a session has a book.** -/
theorem exists_tracked {w : World X} (h : Reached host w) : ∃ g : Tracked X, g.world = w := by
  induction h with
  | @fresh w hclosures hconts =>
    let b := Book.start ⟨fun _ => none, fun _ => none⟩ 0 0 []
    refine ⟨⟨w, b, ⟨Book.acts_start _ _ _ _, fun m p hm => ?_, nofun, ?_, ?_⟩⟩, rfl⟩
    · by_cases hzero : m = 0
      · rw [hzero]
        exact Nat.zero_le _
      · cases (Function.update_of_ne hzero _ _).symm.trans hm
    · rw [hclosures]
      exact nofun
    · rw [hconts]
      exact nofun
  | alike _ halike ih =>
    obtain ⟨g, rfl⟩ := ih
    exact ⟨g.alike halike, rfl⟩
  | comp n expr env tail _ ih =>
    obtain ⟨g, rfl⟩ := ih
    obtain ⟨g', hworld, -⟩ := ((machine_tracks host n).comp g expr env tail).exists_state
    exact ⟨g', hworld⟩
  | callPrim n name args _ ih =>
    obtain ⟨g, rfl⟩ := ih
    obtain ⟨g', hworld, -⟩ := ((machine_tracks host n).callPrim g name args).exists_state
    exact ⟨g', hworld⟩
  | turns _ hstart hturns ih =>
    obtain ⟨g, rfl⟩ := ih
    obtain ⟨g₁, hworld, hvm⟩ := exists_starts hstart
    obtain ⟨g₂, hworld₂, -, -⟩ := exists_turns hturns hworld hvm.placed
    exact ⟨g₂, hworld₂⟩
  | ended n _ hstart ih =>
    obtain ⟨g, rfl⟩ := ih
    obtain ⟨g₁, rfl, hvm⟩ := exists_starts hstart
    obtain ⟨g₂, hworld, -⟩ := ((machine_tracks host n).loop g₁ _ hvm.placed).exists_state
    exact ⟨g₂, hworld⟩

/-- Where a body starts, the book has it. -/
theorem exists_bodyStarts {s a : Config X} (h : BodyStarts host s a) (hworld : g.world = s.world)
    (hs : s.vm.Entered g.book) : ∃ g' : Tracked X, g'.world = a.world ∧ a.vm.Entered g'.book := by
  rcases h with rfl | ⟨tail, c, hturns, hent⟩
  · exact ⟨g, hworld, hs⟩
  · obtain ⟨g₁, hworld₁, -, hc⟩ := exists_turns hturns hworld hs.placed
    obtain ⟨g₂, hworld₂, -, ha, -⟩ := exists_entered hent hworld₁ hc
    exact ⟨g₂, hworld₂, ha.entered⟩

/-- **After an ordinary call there is something to do.** -/
theorem not_returnsNext_of_call {vm : VM} {ins : Instr} (hvm : vm.At g.book)
    (hins : vm.instr? = some ins) (hi : ins.callMode = some false) :
    ¬ ReturnsNext (vm.c.drop (vm.pc + 1)) vm.dump := by
  obtain ⟨e, hheld, hends⟩ := (past_of_at hvm hins).place
  obtain ⟨hrest, -, hne⟩ := hends.of_call hi
  exact hheld.not_returnsNext hrest (hne rfl)

end Tracked

/-- **Proper tail calls.** In every run of a machine, in every world of a
session: a call after which its body returns at once, through whatever
branches, is a tail call; and where a chain of tail calls, of any length, has
entered a body, the dump and the base are those with which the first body of
the chain started, and there are no operands above the base. -/
theorem proper_tail_calls {w w' : World X} {vm : VM} (hw : Reached host w)
    (hs : Starts host w vm w') (n : ℕ) :
    (∀ d ins, Turns host ⟨n, vm, w'⟩ d → d.vm.instr? = some ins → ins.callMode = some false →
      ¬ ReturnsNext (d.vm.c.drop (d.vm.pc + 1)) d.vm.dump) ∧
    ∀ a k b, BodyStarts host ⟨n, vm, w'⟩ a → TailCalls host k a b →
      b.vm.dump = a.vm.dump ∧ b.vm.base = a.vm.base ∧ a.vm.stack.length = a.vm.base ∧
        b.vm.stack.length = b.vm.base := by
  obtain ⟨g, rfl⟩ := Tracked.exists_tracked hw
  obtain ⟨g₁, hworld, hvm⟩ := Tracked.exists_starts hs
  constructor
  · intro d ins hturns hins hi
    obtain ⟨g₂, -, -, hd⟩ := Tracked.exists_turns hturns hworld hvm.placed
    exact Tracked.not_returnsNext_of_call hd hins hi
  · intro a k b ha hchain
    obtain ⟨g₂, hworld₂, ha'⟩ := Tracked.exists_bodyStarts ha hworld hvm
    obtain ⟨hdump, hbase, hstack⟩ := Tracked.exists_tailCalls hchain hworld₂ ha'
    exact ⟨hdump, hbase, ha'.operands, hstack⟩

/-! ### A small chain -/

instance (host : Host X) : (v : Value) → Decidable (Enters host v)
  | .closure _ | .scratch => .isTrue trivial
  | .prim name => inferInstanceAs (Decidable (host.kind name = .eval))
  | .nil | .eof | .bool _ | .int _ | .real _ | .sym _ | .string _ | .vector _ | .pair _
  | .macroObj _ | .cont _ | .special _ | .environment _ | .port _ | .values _ | .errorObj _ =>
    .isFalse id

/-- The machine that is started for a form. -/
def Config.ofForm (host : Host X) (n : ℕ) (expr : Value) (w : World X) : Option (Config X) :=
  match compileTop (machine host n) expr w with
  | (.ok c, w') => some ⟨n, VM.start c none, { w' with runDepth := w'.runDepth + 1 }⟩
  | _ => none

theorem Config.starts_ofForm {n : ℕ} {expr : Value} {w : World X} {s : Config X}
    (h : Config.ofForm host n expr w = some s) : Starts host w s.vm s.world := by
  unfold Config.ofForm at h
  split at h
  · rename_i c w' hrun
    obtain rfl := Option.some.inj h
    exact .form hrun
  · cases h

/-- The state after some turns. -/
def Config.turns? (host : Host X) : ℕ → Config X → Option (Config X)
  | 0, c => some c
  | k + 1, ⟨n + 1, vm, w⟩ =>
    match turn host (machine host n) vm w with
    | (.ok (.continue vm'), w') => Config.turns? host k ⟨n, vm', w'⟩
    | _ => none
  | _ + 1, ⟨0, _, _⟩ => none

theorem Config.turns_of_turns? : ∀ {k : ℕ} {c d : Config X}, c.turns? host k = some d →
    Turns host c d
  | 0, _, _, h => Option.some.inj h ▸ .refl _
  | k + 1, ⟨n + 1, vm, w⟩, d, h => by
    unfold Config.turns? at h
    split at h
    · exact .turn ‹_› (Config.turns_of_turns? h)
    · cases h
  | _ + 1, ⟨0, _, _⟩, _, h => by cases h

/-- The body that the next instruction enters. -/
def Config.enters? (host : Host X) (tail : Bool) : Config X → Option (Config X)
  | ⟨0, _, _⟩ => none
  | ⟨n + 1, vm, w⟩ => do
    let ins ← vm.instr?
    if ins.callMode = some tail ∧ Enters host (vm.stack.headD .nil) then
      match execute host (machine host n) { vm with pc := vm.pc + 1 } ins w with
      | (.ok (.continue vm'), w') => some ⟨n, vm', w'⟩
      | _ => none
    else none

theorem Config.entersBody_of_enters? {tail : Bool} : ∀ {c d : Config X},
    c.enters? host tail = some d → EntersBody host tail c d
  | ⟨n + 1, vm, w⟩, d, h => by
    obtain ⟨ins, hins, h⟩ := Option.bind_eq_some_iff.mp h
    split at h
    · rename_i hcall
      split at h
      · obtain rfl := Option.some.inj h
        exact ⟨rfl, ins, hins, hcall.1, hcall.2, ‹_›⟩
      · cases h
    · cases h
  | ⟨0, _, _⟩, _, h => by cases h

/-- The pairs of `((lambda (f) (f 1)) (lambda (x) x))`, which is the last one. -/
def applyGiven : List (Value × Value) :=
  [(.sym "x", .nil), (.pair 0, .pair 0), (.sym "lambda", .pair 1), (.int 1, .nil),
    (.sym "f", .pair 3), (.sym "f", .nil), (.pair 4, .nil), (.pair 5, .pair 6),
    (.sym "lambda", .pair 7), (.pair 2, .nil), (.pair 8, .pair 9)]

/-- The call of `f` is a tail call. -/
theorem proper_tail_calls_applyGiven : ∃ s a b : Config Unit,
    Config.ofForm plainHost 9 (.pair 10) (pairsWorld applyGiven) = some s ∧
      BodyStarts plainHost s a ∧ TailCalls plainHost 1 a b ∧
      b.vm.dump = a.vm.dump ∧ b.vm.base = a.vm.base ∧ a.vm.stack.length = a.vm.base ∧
        b.vm.stack.length = b.vm.base := by
  have h : (do
      let s ← Config.ofForm plainHost 9 (.pair 10) (pairsWorld applyGiven)
      let d ← s.turns? plainHost 2
      let a ← d.enters? plainHost false
      let c ← a.turns? plainHost 2
      let b ← c.enters? plainHost true
      if c.vm.mark = a.vm.mark then some b else none).isSome := by decide +kernel
  simp only [Option.isSome_iff_exists, Option.bind_eq_bind, Option.bind_eq_some_iff,
    Option.ite_none_right_eq_some] at h
  obtain ⟨b', s, hs, d, hd, a, ha, c, hc, b, hb, hmark, -⟩ := h
  have hstart : BodyStarts plainHost s a :=
    .inr ⟨false, d, Config.turns_of_turns? hd, Config.entersBody_of_enters? ha⟩
  have hchain : TailCalls plainHost 1 a b :=
    .cons (Config.turns_of_turns? hc) (.inl hmark) (Config.entersBody_of_enters? hb) (.nil b)
  exact ⟨s, a, b, hs, hstart, hchain,
    (proper_tail_calls (.fresh rfl rfl) (Config.starts_ofForm hs) s.fuel).2 a 1 b hstart hchain⟩

end Scheme14
