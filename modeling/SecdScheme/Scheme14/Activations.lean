import SecdScheme.Scheme14.TailCode
import SecdScheme.Lib.CmdGhost
import Mathlib.Logic.Function.Basic

/-!
# scheme14: activations

An activation is named by its mark, the stamp of the dump entry that its code
is to pop. A book remembers, for each of them, where its operands start and
what the dump was when its body started, and to which activation a frame
belongs. What holds of the machine, of the dump and of every continuation is
said with the book, and entries are only added to it: so what the dump was
does not change as long as the activation lasts, whatever has been called,
captured and resumed in between.

With the book, worlds are followed through the compiler, which only emits code
that ends as it should.
-/

namespace Scheme14

variable {X α : Type}

/-! ## Books -/

/-- **What is remembered of activations.** -/
structure Book where
  /-- Where the operands of an activation start, and its dump. -/
  acts : ℕ → Option (ℕ × List DumpEntry)
  /-- The activation of a frame. -/
  owners : ℕ → Option ℕ

/-- Entries are only added. -/
structure Book.Sub (b b' : Book) : Prop where
  acts : ∀ m p, b.acts m = some p → b'.acts m = some p
  owners : ∀ f m, b.owners f = some m → b'.owners f = some m

theorem Book.Sub.refl (b : Book) : b.Sub b := ⟨fun _ _ => id, fun _ _ => id⟩

theorem Book.Sub.trans {b b' b'' : Book} (h : b.Sub b') (h' : b'.Sub b'') : b.Sub b'' :=
  ⟨fun m p hp => h'.acts m p (h.acts m p hp), fun f m hm => h'.owners f m (h.owners f m hm)⟩

/-- A frame is given to an activation. -/
def Book.own (b : Book) (f mark : ℕ) : Book :=
  { b with owners := Function.update b.owners f (some mark) }

/-- A frame that had no owner may be given one. -/
theorem Book.sub_own {b : Book} {f : ℕ} (hf : b.owners f = none) (mark : ℕ) :
    b.Sub (b.own f mark) := by
  refine ⟨fun _ _ => id, fun f' m hm => ?_⟩
  have hne : f' ≠ f := by
    rintro rfl
    rw [hf] at hm
    cases hm
  exact (Function.update_of_ne hne _ _).trans hm

/-- It has that owner then. -/
theorem Book.owners_own (b : Book) (f mark : ℕ) : (b.own f mark).owners f = some mark :=
  Function.update_self _ _ _

/-- An activation starts. -/
def Book.start (b : Book) (mark base : ℕ) (dump : List DumpEntry) : Book :=
  { b with acts := Function.update b.acts mark (some (base, dump)) }

/-- An activation that is new may be entered. -/
theorem Book.sub_start {b : Book} {mark : ℕ} (h : b.acts mark = none) (base : ℕ)
    (dump : List DumpEntry) : b.Sub (b.start mark base dump) := by
  refine ⟨fun m p hp => ?_, fun _ _ => id⟩
  have hne : m ≠ mark := by
    rintro rfl
    rw [h] at hp
    cases hp
  exact (Function.update_of_ne hne _ _).trans hp

/-- It is in the book then. -/
theorem Book.acts_start (b : Book) (mark base : ℕ) (dump : List DumpEntry) :
    (b.start mark base dump).acts mark = some (base, dump) :=
  Function.update_self _ _ _

/-- **The registers are as the book has them.** Code that returns has the
entry of its activation on top, and its frame belongs to that; code that joins
has the entry of its SEL on top; nothing is asked of code that stops. What an
entry of a SEL goes on with does not return at once. -/
inductive Held (b : Book) : Ending → Option ℕ → ℕ → ℕ → List DumpEntry → Prop
  | stop {env base mark dump} : Held b .stop env base mark dump
  | outermost {env} : b.acts 0 = some (0, []) → (∀ f ∈ env, b.owners f = some 0) →
      Held b .rtn env 0 0 []
  | call {env base} {back : DumpEntry} {dump e} : b.acts back.stamp = some (base, back :: dump) →
      (∀ f ∈ env, b.owners f = some back.stamp) → Ends e (back.c.drop back.pc) →
      Held b e back.env back.base back.mark dump → Held b .rtn env base back.stamp (back :: dump)
  | branch {back : DumpEntry} {dump e} : ¬ Returning (back.c.drop back.pc) →
      Ends e (back.c.drop back.pc) → Held b e back.env back.base back.mark dump →
      Held b .join back.env back.base back.stamp (back :: dump)

/-- A later book holds what an earlier one held. -/
theorem Held.mono {b b' : Book} (hsub : b.Sub b') {e : Ending} {env : Option ℕ} {base mark : ℕ}
    {dump : List DumpEntry} (h : Held b e env base mark dump) : Held b' e env base mark dump := by
  induction h with
  | stop => exact .stop
  | outermost hacts hown =>
    exact .outermost (hsub.acts _ _ hacts) fun f hf => hsub.owners _ _ (hown f hf)
  | call hacts hown hends _ ih =>
    exact .call (hsub.acts _ _ hacts) (fun f hf => hsub.owners _ _ (hown f hf)) hends ih
  | branch hne hends _ ih => exact .branch hne hends ih

/-- **Code that returns is in the book**, with its operands, its dump and its
frame. -/
theorem Held.inBook {b : Book} {env : Option ℕ} {base mark : ℕ} {dump : List DumpEntry}
    (h : Held b .rtn env base mark dump) :
    b.acts mark = some (base, dump) ∧ ∀ f ∈ env, b.owners f = some mark := by
  cases h with
  | outermost hacts hown => exact ⟨hacts, hown⟩
  | call hacts hown _ _ => exact ⟨hacts, hown⟩

/-- What an entry of a call goes on with. -/
theorem Held.back_of_call {b : Book} {env : Option ℕ} {base mark : ℕ} {back : DumpEntry}
    {dump : List DumpEntry} (h : Held b .rtn env base mark (back :: dump)) :
    ∃ e, Held b e back.env back.base back.mark dump ∧ Ends e (back.c.drop back.pc) := by
  cases h with
  | call _ _ hends hheld => exact ⟨_, hheld, hends⟩

/-- What an entry of a SEL goes on with: in the same frame, and above the same
operands. -/
theorem Held.back_of_branch {b : Book} {env : Option ℕ} {base mark : ℕ} {back : DumpEntry}
    {dump : List DumpEntry} (h : Held b .join env base mark (back :: dump)) :
    ∃ e, Held b e env base back.mark dump ∧ Ends e (back.c.drop back.pc) := by
  cases h with
  | branch _ hends hheld => exact ⟨_, hheld, hends⟩

/-- A body is entered in the same activation. -/
theorem Held.enter {b : Book} {env env' : Option ℕ} {base mark : ℕ} {dump : List DumpEntry}
    (h : Held b .rtn env base mark dump) (henv : ∀ f ∈ env', b.owners f = some mark) :
    Held b .rtn env' base mark dump := by
  cases h with
  | outermost hacts _ => exact .outermost hacts henv
  | call hacts _ hends hheld => exact .call hacts henv hends hheld

/-- **Whether code returns at once**, through the ends of branches. -/
def ReturnsNext : Code → List DumpEntry → Prop
  | c, [] => Returning c
  | c, back :: dump => Returning c ∨
      c.head? = some .join ∧ ReturnsNext (back.c.drop back.pc) dump

/-- Code that goes on is not about to return. -/
theorem not_returnsNext_of_not_returning {c : Code} {dump : List DumpEntry}
    (h : ¬ Returning c) (hjoin : c.head? ≠ some .join) : ¬ ReturnsNext c dump := by
  cases dump with
  | nil => exact h
  | cons back dump => exact not_or.mpr ⟨h, fun hj => hjoin hj.1⟩

/-- **What does not return at once**, does not do so behind a JOIN. -/
theorem Held.not_returnsNext {b : Book} {e : Ending} {env : Option ℕ} {base mark : ℕ}
    {dump : List DumpEntry} (h : Held b e env base mark dump) {c : Code} (hc : Ends e c)
    (hne : ¬ Returning c) : ¬ ReturnsNext c dump := by
  induction h generalizing c with
  | @branch back dump e hne' hends _ ih =>
    refine not_or.mpr ⟨hne, fun hj => ih hends hne' hj.2⟩
  | _ =>
    refine not_returnsNext_of_not_returning hne fun hj => ?_
    obtain ⟨c', rfl⟩ : ∃ c', c = .join :: c' := by
      cases c with
      | nil => cases hj
      | cons i c' =>
        obtain rfl := Option.some.inj hj
        exact ⟨c', rfl⟩
    cases hc.eq_join

/-! ## Worlds -/

/-- **A world as the book has it.** -/
structure Book.Tracks (b : Book) (w : World X) : Prop where
  outermost : b.acts 0 = some (0, [])
  stamps : ∀ m p, b.acts m = some p → m ≤ w.stamps
  frames : ∀ f m, b.owners f = some m → f < w.frames.length
  closures : ∀ clo ∈ w.closures, Ends .rtn clo.body
  conts : ∀ k ∈ w.conts, ∃ e, Held b e k.env k.base k.mark k.dump ∧ Ends e (k.c.drop k.pc)

/-- A world and its book. -/
structure Tracked (X : Type) where
  world : World X
  book : Book
  tracks : book.Tracks world

instance : Preorder (Tracked X) where
  le g g' := g.book.Sub g'.book
  le_refl g := .refl g.book
  le_trans _ _ _ := .trans

/-- A machine as the book has it. -/
structure VM.At (vm : VM) (b : Book) : Prop where
  scratch : ∀ clo ∈ vm.scratch, Ends .rtn clo.body
  place : ∃ e, Held b e vm.env vm.base vm.mark vm.dump ∧ Ends e (vm.c.drop vm.pc)

/-- The same of a machine. -/
theorem VM.At.mono {vm : VM} {b b' : Book} (h : vm.At b) (hsub : b.Sub b') : vm.At b' := by
  obtain ⟨e, hheld, hends⟩ := h.place
  exact ⟨h.scratch, e, hheld.mono hsub, hends⟩

/-- Worlds that a book does not tell apart. -/
structure World.Alike (w w' : World X) : Prop where
  stamps : w'.stamps = w.stamps
  frames : w'.frames.length = w.frames.length
  closures : w'.closures = w.closures
  conts : w'.conts = w.conts

theorem World.Alike.refl (w : World X) : w.Alike w := ⟨rfl, rfl, rfl, rfl⟩

namespace Tracked

variable {g g' : Tracked X}

/-- The same book for a world that is alike. -/
def alike (g : Tracked X) {w : World X} (h : g.world.Alike w) : Tracked X where
  world := w
  book := g.book
  tracks := by
    obtain ⟨hstamps, hframes, hclosures, hconts⟩ := h
    refine ⟨g.tracks.outermost, ?_, ?_, ?_, ?_⟩
    · rw [hstamps]
      exact g.tracks.stamps
    · rw [hframes]
      exact g.tracks.frames
    · rw [hclosures]
      exact g.tracks.closures
    · rw [hconts]
      exact g.tracks.conts

/-- **What leaves worlds alike.** -/
theorem follows_alike {m : SchemeM X α} {B : α → Prop} (h : g.world.Alike (m g.world).2)
    (hb : ∀ a w', m g.world = (.ok a, w') → B a) : Cmd.Follows world g m (fun a _ => B a) := by
  rcases hm : m g.world with ⟨e | a, w'⟩
  · rw [hm] at h
    exact .of_error (g.alike h) hm (.refl _)
  · rw [hm] at h
    exact .of_ok (g.alike h) hm (.refl _) (hb a w' hm)

/-- Data are no activations. -/
theorem follows_onData (m : DataM X α) : Cmd.Follows world g (onData m) (fun _ _ => True) :=
  follows_alike ⟨rfl, rfl, rfl, rfl⟩ fun _ _ _ => trivial

theorem follows_syntaxError {B : α → Tracked X → Prop} (form : String) (what : Message) :
    Cmd.Follows world g (onData (syntaxError form what)) B :=
  .of_error g rfl (le_refl g)

theorem follows_getState {B : α → Tracked X → Prop} {f : World X → SchemeM X α}
    (h : Cmd.Follows world g (f g.world) B) : Cmd.Follows world g (Cmd.getState >>= f) B := h

/-- Neither is anything else that leaves frames, closures and continuations alone. -/
theorem follows_modify {f : World X → World X} (h : g.world.Alike (f g.world)) :
    Cmd.Follows world g (Cmd.modifyState f : SchemeM X Unit) (fun _ _ => True) :=
  follows_alike h fun _ _ _ => trivial

/-- A change at the end that leaves worlds alike. -/
theorem follows_finallyDo {m : SchemeM X α} {B : α → Prop} {f : World X → World X}
    (h : Cmd.Follows world g m (fun a _ => B a)) (hf : ∀ w : World X, w.Alike (f w)) :
    Cmd.Follows world g (Cmd.finallyDo m f) (fun a _ => B a) := by
  rcases h.outcomes with ⟨a, g', hm, hle, hb⟩ | ⟨e, g', hm, hle⟩
  · refine .of_ok (g'.alike (hf g'.world)) ?_ hle hb
    unfold Cmd.finallyDo
    rw [hm]
    rfl
  · refine .of_error (g'.alike (hf g'.world)) (e := e) ?_ hle
    unfold Cmd.finallyDo
    rw [hm]
    rfl

theorem follows_operand (n : ℕ) : Cmd.Follows world g (operand n) (fun _ _ => True) := by
  refine follows_alike ?_ fun _ _ _ => trivial
  unfold operand
  dsimp only
  split
  · exact ⟨rfl, rfl, rfl, rfl⟩
  · exact .refl _

theorem follows_compileGlobal (name : String) :
    Cmd.Follows world g (compileGlobal name) (fun _ _ => True) :=
  follows_getState (.pure trivial)

/-- Nor the table that is compiled for. -/
theorem follows_withTable {t : Table} {m : SchemeM X α} {B : α → Prop}
    (h : ∀ g₁ : Tracked X, Cmd.Follows world g₁ m (fun a _ => B a)) :
    Cmd.Follows world g (withTable t m) (fun a _ => B a) := by
  unfold withTable
  refine follows_getState ((follows_modify ⟨rfl, rfl, rfl, rfl⟩).bind fun _ g₁ _ _ => ?_)
  exact follows_finallyDo (h g₁) fun _ => ⟨rfl, rfl, rfl, rfl⟩

/-! ### Frames -/

/-- A frame is given to an activation. -/
theorem exists_own {f : ℕ} (hf : f < g.world.frames.length) (hfree : g.book.owners f = none)
    (mark : ℕ) : ∃ g' : Tracked X, g'.world = g.world ∧ g'.book = g.book.own f mark ∧ g ≤ g' := by
  have hsub := Book.sub_own hfree mark
  refine ⟨⟨g.world, g.book.own f mark, ⟨g.tracks.outermost, g.tracks.stamps, fun f' m hm => ?_,
    g.tracks.closures, fun k hk => ?_⟩⟩, rfl, rfl, hsub⟩
  · by_cases hne : f' = f
    · rw [hne]
      exact hf
    · exact g.tracks.frames f' m ((Function.update_of_ne hne _ _).symm.trans hm)
  · obtain ⟨e, hheld, hends⟩ := g.tracks.conts k hk
    exact ⟨e, hheld.mono hsub, hends⟩

/-- **A frame that is made** belongs to no activation yet. -/
theorem follows_makeFrame (clo : Closure) (args : List Value) :
    Cmd.Follows world g (makeFrame clo args)
      (fun a g' => a < g'.world.frames.length ∧ g'.book.owners a = none) := by
  have hpush : ∀ (g₁ : Tracked X) (vals : List Value), Cmd.Follows world g₁ (do
      let a := (← Cmd.getState).frames.length
      Cmd.modifyState (fun w => { w with frames := w.frames ++ [⟨clo.env, vals⟩] })
      return a : SchemeM X ℕ)
        (fun a g' => a < g'.world.frames.length ∧ g'.book.owners a = none) := by
    intro g₁ vals
    have hlen : (g₁.world.frames ++ [(⟨clo.env, vals⟩ : Frame)]).length = g₁.world.frames.length + 1 :=
      List.length_append
    let g₂ : Tracked X := ⟨{ g₁.world with frames := g₁.world.frames ++ [⟨clo.env, vals⟩] }, g₁.book,
      ⟨g₁.tracks.outermost, g₁.tracks.stamps, fun f m hm => ?_, g₁.tracks.closures,
        g₁.tracks.conts⟩⟩
    · have hfree : g₁.book.owners g₁.world.frames.length = none :=
        Option.eq_none_iff_forall_ne_some.mpr fun m hown =>
          Nat.lt_irrefl _ (g₁.tracks.frames _ m hown)
      have hthere : g₁.world.frames.length <
          (g₁.world.frames ++ [(⟨clo.env, vals⟩ : Frame)]).length :=
        hlen ▸ Nat.lt_succ_self _
      exact .of_ok g₂ rfl (.refl _) ⟨hthere, hfree⟩
    · exact hlen ▸ Nat.lt_succ_of_lt (g₁.tracks.frames f m hm)
  unfold makeFrame
  dsimp only
  refine .ite (fun _ => Cmd.Follows.fail.bind_false) fun _ => ?_
  split
  · exact hpush g args
  · exact Cmd.Follows.bind (B := fun _ _ => True)
      ((follows_onData _).bind fun _ _ _ _ => .pure trivial) fun vals g₁ _ _ => hpush g₁ vals

end Tracked

/-- **What is asked of the next level.** -/
structure Self.Tracks (next : Self X) : Prop where
  comp : ∀ (g : Tracked X) expr env tail,
    Cmd.Follows Tracked.world g (next.comp expr env tail) (fun c _ => EmitsTail tail c)
  loop : ∀ (g : Tracked X) vm, vm.At g.book →
    Cmd.Follows Tracked.world g (next.loop vm) (fun _ _ => True)
  callPrim : ∀ (g : Tracked X) name args,
    Cmd.Follows Tracked.world g (next.callPrim name args) (fun _ _ => True)

/-! ## Calls from the compiler to the machine -/

namespace Tracked

variable {g g' : Tracked X} {self : Self X}

theorem follows_run (hself : self.Tracks) {vm : VM} (hvm : vm.At g.book) :
    Cmd.Follows world g (run self vm) (fun _ _ => True) := by
  unfold run
  refine (follows_modify ⟨rfl, rfl, rfl, rfl⟩).bind fun _ g₁ h₁ _ => ?_
  exact follows_finallyDo (hself.loop g₁ vm (hvm.mono h₁)) fun _ => ⟨rfl, rfl, rfl, rfl⟩

/-- **A procedure that is called from inside a primitive** begins an activation of its
own. -/
theorem exists_start {clo : Closure} {a : ℕ} (hclo : Ends .rtn clo.body)
    (ha : a < g.world.frames.length) (hfree : g.book.owners a = none) :
    ∃ g' : Tracked X, g'.world = g.world ∧ g ≤ g' ∧ (VM.start clo.body (some a)).At g'.book := by
  obtain ⟨g', hworld, hbook, hle⟩ := exists_own ha hfree 0
  refine ⟨g', hworld, hle, nofun, .rtn, .outermost g'.tracks.outermost fun f hf => ?_, hclo⟩
  obtain rfl := Option.mem_some_iff.mp hf
  rw [hbook]
  exact Book.owners_own _ _ _

/-- Such a call keeps the book. -/
theorem follows_applyCallable (hself : self.Tracks) (proc : Value) (args : List Value) :
    Cmd.Follows world g (applyCallable self proc args) (fun _ _ => True) := by
  unfold applyCallable
  split
  · exact hself.callPrim g _ args
  · refine follows_getState ?_
    split
    · exact .fail
    · rename_i clo hclo
      have hmem : clo ∈ g.world.closures := by
        unfold World.closureAt at hclo
        split at hclo
        · exact List.mem_of_getElem? hclo
        · cases hclo
      have hbody := g.tracks.closures clo hmem
      refine (follows_makeFrame clo args).bind fun a g₁ _ ⟨ha, hfree⟩ => ?_
      obtain ⟨g₂, hworld, hle, hvm⟩ := exists_start hbody ha hfree
      have hrun := follows_run hself hvm
      rcases hrun.outcomes with ⟨v, g₃, hm, h₃, -⟩ | ⟨e, g₃, hm, h₃⟩
      · exact .of_ok g₃ (hworld ▸ hm) (le_trans hle h₃) trivial
      · exact .of_error g₃ (hworld ▸ hm) (le_trans hle h₃)

/-- So does the call of a macro. -/
theorem follows_macroExpand1 (hself : self.Tracks) (expr : Value) :
    Cmd.Follows world g (macroExpand1 self expr) (fun _ _ => True) := by
  unfold macroExpand1
  dsimp only
  refine .ite (fun _ => .pure trivial) fun _ => (follows_onData _).bind fun p g₁ _ _ => ?_
  split
  · refine follows_getState ?_
    split
    · exact .pure trivial
    · exact (follows_onData _).bind fun args g₂ _ _ => follows_applyCallable hself _ args
  · exact .pure trivial

/-! ## The compiler -/

/-- A variable ends as its place asks. -/
theorem follows_compVar (name : String) (env : CompileEnv) (tail : Bool) :
    Cmd.Follows world g (compVar name env) (fun c _ => EmitsTail tail c) := by
  unfold compVar
  split
  · exact (follows_operand _).bind fun _ _ _ _ => (follows_operand _).bind fun _ _ _ _ =>
      .pure (.one trivial)
  · exact (follows_compileGlobal _).bind fun _ _ _ _ => .pure (.one trivial)

/-- Code of arguments goes on. -/
theorem follows_compEach (hself : self.Tracks) (env : CompileEnv) : ∀ (xs : List Value)
    {g : Tracked X}, Cmd.Follows world g (Cmd.mapList (fun x => self.comp x env false) xs)
      (fun cs _ => EmitsAll cs.flatten)
  | [], _ => .pure .nil
  | x :: xs, g => by
    unfold Cmd.mapList
    refine (hself.comp g x env false).bind fun c g₁ _ hc => ?_
    refine (follows_compEach hself env xs).bind fun cs g₂ _ hcs => .pure ?_
    rw [List.flatten_cons]
    exact .cons hc hcs

theorem follows_compArgs (hself : self.Tracks) (env : CompileEnv) (xs : List Value) :
    Cmd.Follows world g (compArgs self xs env) (fun c _ => EmitsAll c) :=
  (follows_compEach hself env xs).bind fun _ _ _ h => .pure h

/-- **A body**: only its last form is in tail position. -/
theorem follows_compForms (hself : self.Tracks) (env : CompileEnv) (tail : Bool) :
    ∀ (es : List Value) {g : Tracked X},
      Cmd.Follows world g (compForms self env tail es) (fun c _ => EmitsTail tail c)
  | [], _ => .pure (.one trivial)
  | [e], g => hself.comp g e env tail
  | e :: e' :: es, g => by
    unfold compForms
    refine (hself.comp g e env false).bind fun c g₁ _ hc => ?_
    refine (follows_compForms hself env tail (e' :: es)).bind fun cs g₂ _ hcs => .pure ?_
    refine EmitsAll.before (fun r rest hr hrest => ?_) ⟨⟨.pop, cs, rfl, nofun⟩, ?_⟩
    · exact ⟨hc.not_returning rest, hc.ends nofun (fun _ => hr) hrest⟩
    · exact fun r rest hr hne hrest => .plain trivial (hcs.ends hr hne hrest)

/-- A body ends as its last form does. -/
theorem follows_compBody (hself : self.Tracks) (body : Value) (env : CompileEnv) (tail : Bool) :
    Cmd.Follows world g (compBody self body env tail) (fun c _ => EmitsTail tail c) :=
  (follows_onData _).bind fun es _ _ _ => follows_compForms hself env tail es

/-- A procedure is made, and its own body returns. -/
theorem follows_compileLambda (hself : self.Tracks) (params body : Value) (env : CompileEnv)
    (tail : Bool) :
    Cmd.Follows world g (compileLambda self params body env) (fun i _ => EmitsTail tail [i]) := by
  unfold compileLambda
  refine (follows_onData _).bind fun ps g₁ _ _ => ?_
  split
  · exact follows_syntaxError _ _
  · refine (follows_onData _).bind fun body' g₂ _ _ => ?_
    exact (follows_compBody hself body' _ true).bind fun code g₃ _ hcode => .pure (.ldf hcode)

/-- A branch ends as the whole form does. -/
theorem follows_compIf (hself : self.Tracks) (rest : Value) (env : CompileEnv) (tail : Bool) :
    Cmd.Follows world g (compIf self rest env tail) (fun c _ => EmitsTail tail c) := by
  unfold compIf
  dsimp only
  refine (follows_onData _).bind fun _ _ _ _ => (follows_onData _).bind fun test _ _ _ => ?_
  refine (follows_onData _).bind fun _ _ _ _ => (follows_onData _).bind fun thenE _ _ _ => ?_
  refine (follows_onData _).bind fun others _ _ _ => ?_
  refine .ite_bind (B := fun _ _ => True) (fun _ => .pure trivial) (fun _ => follows_onData _)
    fun elseE g₁ _ _ => ?_
  refine (hself.comp g₁ test env false).bind fun code g₂ _ hcode => ?_
  refine (hself.comp g₂ thenE env tail).bind fun ct g₃ _ hct => ?_
  refine (hself.comp g₃ elseE env tail).bind fun cf g₄ _ hcf => ?_
  cases tail with
  | true =>
    refine .pure (hcode.append nofun fun he _ _ => ?_)
    obtain rfl := he rfl
    exact .selr (hct.ends (fun _ => rfl) nofun .rtn) (hcf.ends (fun _ => rfl) nofun .rtn)
  | false =>
    refine .pure (hcode.append nofun fun _ hr hrest => .sel ?_ ?_ (hr rfl) hrest)
    · exact hct.ends nofun (fun _ => nofun) .join
    · exact hcf.ends nofun (fun _ => nofun) .join

/-- A definition is followed by what its place asks for. -/
theorem follows_compDefine (hself : self.Tracks) (isMacro : Bool) (rest : Value)
    (env : CompileEnv) (tail : Bool) :
    Cmd.Follows world g (compDefine self isMacro rest env) (fun c _ => EmitsTail tail c) := by
  unfold compDefine
  dsimp only
  refine follows_getState (.ite (fun _ => (follows_syntaxError _ _).bind_false) fun _ => ?_)
  refine (follows_onData _).bind fun _ _ _ _ => (follows_onData _).bind fun p g₁ _ _ => ?_
  have hrest : ∀ (code : Code) (name : String) {g₂ : Tracked X}, EmitsTail false code →
      Cmd.Follows world g₂ (do
        let x ← compileGlobal name
        pure (code ++ [if isMacro = true then .defm x else .defG x]))
        (fun c _ => EmitsTail tail c) := by
    intro code name g₂ hcode
    refine (follows_compileGlobal name).bind fun x _ _ _ => .pure (hcode.ofNonTail ?_ tail)
    cases isMacro <;> trivial
  obtain ⟨lhs, rhsTail⟩ := p
  dsimp only
  split
  · refine .ite (fun _ => (follows_syntaxError _ _).bind_false) fun _ => ?_
    refine (follows_onData _).bind fun more g₂ _ _ => ?_
    refine .ite (fun _ => (follows_syntaxError _ _).bind_false) fun _ => ?_
    refine (follows_onData _).bind fun e g₃ _ _ => ?_
    exact (hself.comp g₃ e env false).bind fun code _ _ hcode => hrest code _ hcode
  · refine (follows_onData _).bind fun q g₂ _ _ => ?_
    obtain ⟨f, params⟩ := q
    dsimp only
    split
    · exact (follows_compileLambda hself params rhsTail env false).bind fun i _ _ hi =>
        hrest [i] _ hi
    · exact (follows_syntaxError _ _).bind_false
  · exact (follows_syntaxError _ _).bind_false

/-- So is an assignment. -/
theorem follows_compSet (hself : self.Tracks) (rest : Value) (env : CompileEnv) (tail : Bool) :
    Cmd.Follows world g (compSet self rest env) (fun c _ => EmitsTail tail c) := by
  unfold compSet
  refine (follows_onData _).bind fun _ _ _ _ => (follows_onData _).bind fun target g₁ _ _ => ?_
  split
  · refine (follows_onData _).bind fun e g₂ _ _ => ?_
    refine (hself.comp g₂ e env false).bind fun code g₃ _ hcode => ?_
    split
    · exact (follows_operand _).bind fun _ _ _ _ => (follows_operand _).bind fun _ _ _ _ =>
        .pure (hcode.ofNonTail (by trivial) tail)
    · dsimp only
      refine follows_getState (.ite (fun _ => (follows_syntaxError _ _).bind_false) fun _ => ?_)
      exact (follows_compileGlobal _).bind fun _ _ _ _ => .pure (hcode.ofNonTail (by trivial) tail)
  · exact follows_syntaxError _ _

/-- A call by `apply` is a tail call where its place asks for one. -/
theorem follows_compApply (hself : self.Tracks) (rest : Value) (env : CompileEnv) (tail : Bool) :
    Cmd.Follows world g (compApply self rest env tail) (fun c _ => EmitsTail tail c) := by
  unfold compApply
  refine (follows_onData _).bind fun _ _ _ _ => (follows_onData _).bind fun fxs g₁ _ _ => ?_
  split
  · exact .fail
  · rename_i f xs
    refine (follows_compArgs hself env xs).bind fun args g₂ _ hargs => ?_
    refine (follows_operand _).bind fun n g₃ _ _ => ?_
    refine (hself.comp g₃ f env false).bind fun code g₄ _ hcode => .pure ?_
    rw [List.append_assoc]
    refine hargs.before ⟨⟨.argsAp n, _, rfl, nofun⟩, fun r rest hr hne hrest => ?_⟩
    exact .plain trivial ((hcode.called (i := .tapply) (j := .apply) rfl rfl).ends hr hne hrest)

/-- **A call is a tail call** exactly where its place asks for one. -/
theorem follows_compCall (hself : self.Tracks) (head rest : Value) (env : CompileEnv)
    (tail : Bool) :
    Cmd.Follows world g (compCall self head rest env tail) (fun c _ => EmitsTail tail c) := by
  unfold compCall
  refine (follows_onData _).bind fun xs g₁ _ _ => ?_
  refine (follows_compArgs hself env xs).bind fun args g₂ _ hargs => ?_
  refine (hself.comp g₂ head env false).bind fun code g₃ _ hcode => ?_
  refine (follows_operand _).bind fun n g₄ _ _ => .pure ?_
  rw [List.append_assoc]
  refine hargs.before (EmitsTail.called ?_ (i := .tapp n) (j := .app n) rfl rfl)
  constructor
  · obtain ⟨i, c', rfl, hi⟩ := hcode.starts
    have hstart : ¬ Returning (markLast (i :: c') ++ []) := fun h =>
      not_returning_cons hi (head?_markLast _ [] h)
    cases hmark : markLast (i :: c') with
    | nil =>
      cases c' with
      | nil => cases i <;> cases hmark
      | cons j c' => cases i <;> cases hmark
    | cons j d =>
      rw [hmark] at hstart
      exact ⟨j, d, rfl, fun hj => hstart (congrArg some hj)⟩
  · exact fun e rest he hr hrest => .markLast (hcode.ends he hr hrest)

theorem follows_compSpecial (hself : self.Tracks) (expr rest : Value) (env : CompileEnv)
    (tail : Bool) (word : Keyword) :
    Cmd.Follows world g (compSpecial self expr rest env tail word) (fun c _ => EmitsTail tail c) := by
  cases word with
  | quote =>
    exact (follows_onData _).bind fun _ _ _ _ => (follows_onData _).bind fun v _ _ _ =>
      .pure (.one trivial)
  | traceSwitch => exact .pure (.one trivial)
  | derived d => exact (follows_onData _).bind fun e g₁ _ _ => hself.comp g₁ e env tail
  | ifK => exact follows_compIf hself rest env tail
  | begin => exact follows_compBody hself rest env tail
  | lambda =>
    refine (follows_onData _).bind fun _ _ _ _ => (follows_onData _).bind fun p _ _ _ => ?_
    exact (follows_compileLambda hself p.1 p.2 env tail).bind fun i _ _ hi => .pure hi
  | define isMacro => exact follows_compDefine hself isMacro rest env tail
  | set => exact follows_compSet hself rest env tail
  | callcc word =>
    refine (follows_onData _).bind fun _ _ _ _ => (follows_onData _).bind fun e g₁ _ _ => ?_
    exact (hself.comp g₁ e env false).bind fun code _ _ hcode =>
      .pure (hcode.called (i := .tcallcc) (j := .callcc) rfl rfl)
  | apply => exact follows_compApply hself rest env tail

/-- **`comp`.** -/
theorem follows_compStep (hself : self.Tracks) (expr : Value) (env : CompileEnv) (tail : Bool) :
    Cmd.Follows world g (compStep self expr env tail) (fun c _ => EmitsTail tail c) := by
  unfold compStep
  refine .ite (fun _ => .pure (.one trivial)) fun _ => ?_
  split
  · exact follows_compVar _ env tail
  · refine (follows_onData _).bind fun p g₁ _ _ => ?_
    obtain ⟨head, rest⟩ := p
    dsimp only
    split
    · exact follows_compSpecial hself _ rest env tail _
    · refine (follows_macroExpand1 hself _).bind fun expanded g₂ _ _ => ?_
      exact .ite (fun _ => hself.comp g₂ expanded env tail)
        fun _ => follows_compCall hself head rest env tail
  · exact .pure (.one trivial)

/-! ## Entries -/

/-- The code of a form at the top level stops. -/
theorem follows_compileTop (hself : self.Tracks) (expr : Value) :
    Cmd.Follows world g (compileTop self expr) (fun c _ => Ends .stop c) :=
  follows_withTable fun g₁ => (hself.comp g₁ expr [] false).bind fun _ _ _ hc =>
    .pure (hc.ends nofun (fun _ => nofun) .stop)

/-- The code of a form that `eval` is given returns. -/
theorem follows_compileEval (hself : self.Tracks) (expr : Value) (t : Table) :
    Cmd.Follows world g (compileEval self expr t) (fun c _ => Ends .rtn c) :=
  follows_withTable fun g₁ => (hself.comp g₁ expr [] true).bind fun _ _ _ hc =>
    .pure (hc.ends (fun _ => rfl) nofun .rtn)

theorem follows_evalTop (hself : self.Tracks) (expr : Value) :
    Cmd.Follows world g (evalTop self expr) (fun _ _ => True) :=
  (follows_compileTop hself expr).bind fun _ _ _ hc =>
    follows_run hself ⟨nofun, .stop, .stop, hc⟩

/-- The forms of a file, one after another. -/
theorem follows_loadForms (host : Host X) (hself : self.Tracks) : ∀ (forms : List Value)
    (last : Value) {g : Tracked X},
    Cmd.Follows world g (loadForms host self forms last) (fun _ _ => True)
  | [], _, _ => .pure trivial
  | [form], _, g => by
    unfold loadForms
    refine (follows_evalTop hself form).bind fun last g₁ _ _ => follows_getState ?_
    exact .ite (fun _ => .pure trivial) fun _ => .pure trivial
  | form :: expected :: forms, _, g => by
    unfold loadForms
    refine (follows_evalTop hself form).bind fun last g₁ _ _ => follows_getState ?_
    refine .ite (fun _ => ?_) fun _ => follows_loadForms host hself (expected :: forms) last
    exact (follows_onData _).bind fun _ _ _ _ => follows_loadForms host hself forms last

theorem follows_expandOneStep (hself : self.Tracks) (form : Value) :
    Cmd.Follows world g (expandOneStep self form) (fun _ _ => True) :=
  (follows_onData _).bind fun _ _ _ _ =>
    .ite (fun _ => .pure trivial) fun _ => follows_macroExpand1 hself form

/-- The steps of an expansion. -/
theorem follows_expandRepeatedly (hself : self.Tracks) : ∀ (steps : ℕ) (form : Value)
    {g : Tracked X}, Cmd.Follows world g (expandRepeatedly self steps form) (fun _ _ => True)
  | 0, _, _ => .fail
  | steps + 1, form, _ => (follows_expandOneStep hself form).bind fun out _ _ _ =>
      .ite (fun _ => .pure trivial) fun _ => follows_expandRepeatedly hself steps out

theorem follows_needArgs (who : String) (args : List Value) (n : ℕ) :
    Cmd.Follows world g (needArgs who args n) (fun _ _ => True) :=
  .ite (fun _ => .pure trivial) fun _ => .fail

/-- **A call of a primitive.** -/
theorem follows_callPrimStep (host : Host X) (hself : self.Tracks) (name : String)
    (args : List Value) : Cmd.Follows world g (callPrimStep host self name args) (fun _ _ => True) := by
  unfold callPrimStep
  split
  · exact follows_onData _
  · exact .fail
  · exact (follows_needArgs _ _ _).bind fun _ _ _ _ => follows_expandOneStep hself _
  · exact (follows_needArgs _ _ _).bind fun _ _ _ _ => follows_expandRepeatedly hself _ _
  · exact (follows_needArgs _ _ _).bind fun _ _ _ _ => (follows_onData _).bind
      fun forms _ _ _ => follows_loadForms host hself forms _
  · exact (follows_needArgs _ _ _).bind fun _ _ _ _ => (follows_compileTop hself _).bind
      fun _ _ _ _ => .pure trivial

end Tracked

end Scheme14
