import SecdScheme.Scheme14.Activations
import SecdScheme.Scheme14.Safety

/-!
# scheme14: proper tail calls

A tail call leaves the dump as it was when the body around it started, and
cuts the operands to where they started then; so a chain of them, of any
length, needs no more room than one call. And a call is only compiled to an
ordinary call where there is something to do after it.
-/

namespace Scheme14

variable {X α : Type} {host : Host X} {self : Self X} {vm vm' : VM}

/-! ## Calls -/

/-- What a call enters a body of: closures, and `eval`. -/
def Enters (host : Host X) : Value → Prop
  | .closure _ | .scratch => True
  | .prim name => host.kind name = .eval
  | _ => False

/-- **The start of a body**: no operands yet, and the code is to return. -/
structure VM.Body (vm : VM) (b : Book) : Prop where
  scratch : ∀ clo ∈ vm.scratch, Ends .rtn clo.body
  held : Held b .rtn vm.env vm.base vm.mark vm.dump
  ends : Ends .rtn (vm.c.drop vm.pc)
  operands : vm.stack.length = vm.base

/-- A body that is entered is at its own code. -/
theorem VM.Body.at {b : Book} (h : vm.Body b) : vm.At b :=
  ⟨h.scratch, .rtn, h.held, h.ends⟩

/-- A machine about to call: in a tail call its code is to return. -/
structure VM.Ready (vm : VM) (b : Book) (tail : Bool) : Prop where
  scratch : ∀ clo ∈ vm.scratch, Ends .rtn clo.body
  place : ∃ e, (tail = true → e = .rtn) ∧ Held b e vm.env vm.base vm.mark vm.dump ∧
    Ends e (vm.c.drop vm.pc)

/-- A machine that is ready to call may go on. -/
theorem VM.Ready.at {b : Book} {tail : Bool} (h : vm.Ready b tail) : vm.At b := by
  obtain ⟨e, -, hheld, hends⟩ := h.place
  exact ⟨h.scratch, e, hheld, hends⟩

/-- It stays ready in a later book. -/
theorem VM.Ready.mono {b b' : Book} {tail : Bool} (h : vm.Ready b tail) (hsub : b.Sub b') :
    vm.Ready b' tail := by
  obtain ⟨e, he, hheld, hends⟩ := h.place
  exact ⟨h.scratch, e, he, hheld.mono hsub, hends⟩

/-- **What a call leads to.** Where a body is entered it is at its start, and
by a tail call with the dump and the base there are. -/
structure Called (host : Host X) (callee : Value) (tail : Bool) (vm vm' : VM) (b : Book) :
    Prop where
  place : vm'.At b
  body : Enters host callee → vm'.Body b
  same : Enters host callee → tail = true → vm'.dump = vm.dump ∧ vm'.base = vm.base

namespace Tracked

variable {g g' : Tracked X}

/-- The frames of an environment are given to an activation. -/
theorem exists_owned {env : Option ℕ} (henv : ∀ f ∈ env, f < g.world.frames.length ∧
    g.book.owners f = none) (mark : ℕ) : ∃ g' : Tracked X, g'.world = g.world ∧ g ≤ g' ∧
      ∀ f ∈ env, g'.book.owners f = some mark := by
  cases env with
  | none => exact ⟨g, rfl, le_refl g, nofun⟩
  | some f =>
    obtain ⟨hf, hfree⟩ := henv f rfl
    obtain ⟨g', hworld, hbook, hle⟩ := exists_own hf hfree mark
    refine ⟨g', hworld, hle, fun f' hf' => ?_⟩
    obtain rfl := Option.mem_some_iff.mp hf'
    rw [hbook]
    exact Book.owners_own _ _ _

/-- **An activation starts** with a new stamp. -/
theorem exists_started (g : Tracked X) (base : ℕ) (dump : List DumpEntry) : ∃ g' : Tracked X,
    g'.world = { g.world with stamps := g.world.stamps + 1 } ∧ g ≤ g' ∧
      g'.book.acts (g.world.stamps + 1) = some (base, dump) ∧ g'.book.owners = g.book.owners := by
  have hnew : g.book.acts (g.world.stamps + 1) = none :=
    Option.eq_none_iff_forall_ne_some.mpr fun p hp =>
      Nat.lt_irrefl _ (g.tracks.stamps _ p hp)
  have hsub := Book.sub_start hnew base dump
  let g' : Tracked X := ⟨{ g.world with stamps := g.world.stamps + 1 },
    g.book.start (g.world.stamps + 1) base dump,
    ⟨?_, fun m p hp => ?_, g.tracks.frames, g.tracks.closures, fun k hk => ?_⟩⟩
  · exact ⟨g', rfl, hsub, Book.acts_start _ _ _ _, rfl⟩
  · exact hsub.acts 0 _ g.tracks.outermost
  · by_cases hm : m = g.world.stamps + 1
    · exact Nat.le_of_eq hm
    · exact Nat.le_succ_of_le (g.tracks.stamps m p ((Function.update_of_ne hm _ _).symm.trans hp))
  · obtain ⟨e, hheld, hends⟩ := g.tracks.conts k hk
    exact ⟨e, hheld.mono hsub, hends⟩

/-- **A body is entered.** -/
theorem follows_enterCode {argp : ℕ} {tail : Bool} {c : Code} {env : Option ℕ}
    (hvm : vm.Ready g.book tail) (hc : Ends .rtn c)
    (henv : ∀ f ∈ env, f < g.world.frames.length ∧ g.book.owners f = none) :
    Cmd.Follows world g (enterCode vm argp tail c env) (fun vm' g' => vm'.Body g'.book ∧
      (tail = true → vm'.dump = vm.dump ∧ vm'.base = vm.base)) := by
  obtain ⟨e, he, hheld, hends⟩ := hvm.place
  cases tail with
  | true =>
    obtain rfl := he rfl
    obtain ⟨g', hworld, hle, hown⟩ := exists_owned henv vm.mark
    let vm' : VM := { vm with stack := VM.resize vm.stack vm.base, c := c, pc := 0, env := env }
    refine .of_ok (a := vm') g' ?_ hle
      ⟨⟨hvm.scratch, (hheld.mono hle).enter hown, hc, VM.length_resize _ _⟩, fun _ => ⟨rfl, rfl⟩⟩
    rw [hworld]
    rfl
  | false =>
    -- the entry of the call, with the stamp it gets
    let back : DumpEntry :=
      ⟨vm.c, vm.pc, vm.env, vm.base, .call, g.world.stamps + 1, vm.mark⟩
    obtain ⟨g₁, hworld₁, h₁, hacts, howners⟩ := exists_started g argp (back :: vm.dump)
    have henv₁ : ∀ f ∈ env, f < g₁.world.frames.length ∧ g₁.book.owners f = none := by
      rw [hworld₁, howners]
      exact henv
    obtain ⟨g₂, hworld₂, h₂, hown⟩ := exists_owned henv₁ (g.world.stamps + 1)
    have hheld' : Held g₂.book .rtn env argp (g.world.stamps + 1) (back :: vm.dump) :=
      @Held.call _ _ _ back _ _ (h₂.acts _ _ hacts) hown hends ((hheld.mono h₁).mono h₂)
    refine .of_ok (a := ⟨VM.resize vm.stack argp, back :: vm.dump, env, vm.scratch, c, 0, argp,
      g.world.stamps + 1⟩) g₂ ?_ (le_trans h₁ h₂) ⟨⟨hvm.scratch, hheld', hc, VM.length_resize _ _⟩,
        nofun⟩
    rw [hworld₂, hworld₁]
    rfl

/-- The call of a closure. -/
theorem follows_callClosure {tail : Bool} {clo : Closure} {argp : ℕ} (args : List Value)
    (hvm : vm.Ready g.book tail) (hclo : Ends .rtn clo.body) :
    Cmd.Follows world g (do
      let frame ← makeFrame clo args
      enterCode vm argp tail clo.body (some frame)) (fun vm' g' => vm'.Body g'.book ∧
        (tail = true → vm'.dump = vm.dump ∧ vm'.base = vm.base)) := by
  refine (follows_makeFrame clo args).bind fun a g₁ h₁ ⟨ha, hfree⟩ => ?_
  refine follows_enterCode (hvm.mono h₁) hclo fun f hf => ?_
  obtain rfl := Option.mem_some_iff.mp hf
  exact ⟨ha, hfree⟩

/-- **`eval` enters its form** as a procedure its body. -/
theorem follows_enterEval (hself : self.Tracks) {tail : Bool} {argp : ℕ} (args : List Value)
    (hvm : vm.Ready g.book tail) :
    Cmd.Follows world g (enterEval self vm argp args tail) (fun vm' g' => vm'.Body g'.book ∧
      (tail = true → vm'.dump = vm.dump ∧ vm'.base = vm.base)) := by
  unfold enterEval
  split
  · split
    · refine (follows_compileEval hself _ _).bind fun c g₁ h₁ hc => ?_
      exact follows_enterCode (hvm.mono h₁) hc nofun
    · exact .fail
  · exact .fail

/-- Calls of thunks may be put before anything. -/
theorem ends_thunkCalls {e : Ending} {rest : Code} (h : Ends e rest) (thunks : List Value) :
    Ends e ((thunks.map thunkCall).flatten ++ rest) := by
  induction thunks with
  | nil => exact h
  | cons thunk thunks ih =>
    rw [List.map_cons, List.flatten_cons, List.append_assoc]
    exact .plain trivial (.call rfl (not_returning_cons nofun) (.plain trivial ih))

/-- The code that rewinds may end anywhere, in a jump. -/
theorem ends_rewindCode {e : Ending} (winds want : List WindEntry) (k v : Value) :
    Ends e (rewindCode winds k want v) := by
  obtain ⟨outs, ins, heq⟩ := rewindCode_eq winds want k v
  rw [heq]
  refine ends_thunkCalls (ends_thunkCalls ?_ ins) outs
  exact .plain trivial (.plain trivial (.call rfl not_returning_nil .nil))

/-- **The call of a continuation** takes the machine back to where the book
has it. -/
theorem follows_callCont (a n : ℕ) (tail : Bool) (hvm : vm.At g.book) :
    Cmd.Follows world g (doCall host self vm (.cont a) n tail) (fun vm' g' => vm'.At g'.book) := by
  unfold doCall
  dsimp only
  refine follows_getState ?_
  split
  · exact .fail
  · rename_i k hk
    obtain ⟨e, hheld, hends⟩ := g.tracks.conts k (List.mem_of_getElem? hk)
    refine .ite (fun _ => .pure ⟨hvm.scratch, e, hheld, hends⟩) fun _ => ?_
    refine (follows_onData _).bind fun _ g₁ h₁ _ => .pure ⟨hvm.scratch, ?_⟩
    obtain ⟨e', hheld', -⟩ := (hvm.mono h₁).place
    exact ⟨e', hheld', ends_rewindCode _ _ _ _⟩

/-- **A call**, whatever is called. -/
theorem follows_doCall (hself : self.Tracks) (callee : Value) (n : ℕ) (tail : Bool)
    (hvm : vm.Ready g.book tail) : Cmd.Follows world g (doCall host self vm callee n tail)
      (fun vm' g' => Called host callee tail vm vm' g'.book) := by
  have hentered : ∀ {vm' : VM} {b : Book}, (vm'.Body b ∧
      (tail = true → vm'.dump = vm.dump ∧ vm'.base = vm.base)) →
      Called host callee tail vm vm' b := fun h => ⟨h.1.at, fun _ => h.1, fun _ => h.2⟩
  cases callee with
  | prim name =>
    unfold doCall
    dsimp only
    refine .ite (fun _ => (follows_enterEval hself _ hvm).post fun _ _ _ h => hentered h)
      fun hkind => ?_
    refine (follows_callPrimStep host hself name _).bind fun out g₁ h₁ _ => .pure
      ⟨⟨hvm.scratch, (hvm.mono h₁).at.place⟩, fun h => absurd h hkind, fun h => absurd h hkind⟩
  | cont a =>
    exact (follows_callCont a n tail hvm.at).post fun _ _ _ h => ⟨h, nofun, nofun⟩
  | closure a =>
    unfold doCall
    dsimp only
    refine follows_getState ?_
    split
    · exact .fail
    · rename_i clo hclo
      have hbody := g.tracks.closures clo (List.mem_of_getElem? hclo)
      exact (follows_callClosure _ hvm hbody).post fun _ _ _ h => hentered h
  | scratch =>
    unfold doCall
    dsimp only
    split
    · exact .fail
    · rename_i clo hclo
      exact (follows_callClosure _ hvm (hvm.scratch clo hclo)).post fun _ _ _ h => hentered h
  | _ => exact .fail

end Tracked

/-! ## Instructions -/

/-- A machine whose counter is past an instruction. -/
structure VM.Past (vm : VM) (b : Book) (ins : Instr) : Prop where
  scratch : ∀ clo ∈ vm.scratch, Ends .rtn clo.body
  place : ∃ e, Held b e vm.env vm.base vm.mark vm.dump ∧ Ends e (ins :: vm.c.drop vm.pc)

/-- A machine past an instruction stays there in a later book. -/
theorem VM.Past.mono {b b' : Book} {ins : Instr} (h : vm.Past b ins) (hsub : b.Sub b') :
    vm.Past b' ins := by
  obtain ⟨e, hheld, hends⟩ := h.place
  exact ⟨h.scratch, e, hheld.mono hsub, hends⟩

/-- After a plain instruction the rest ends as the whole. -/
theorem Ends.of_plain {e : Ending} {i : Instr} {c : Code} (h : Ends e (i :: c)) (hi : i.Plain) :
    Ends e c := by
  cases h with
  | plain _ h => exact h
  | call hc _ _ => cases i <;> first | exact hi.elim | cases hc
  | tail hc _ => cases i <;> first | exact hi.elim | cases hc
  | _ => exact hi.elim

/-- The body of a procedure returns. -/
theorem Ends.of_ldf {e : Ending} {params : List String} {rest : Option String} {body c : Code}
    {b : Bool} (h : Ends e (.ldf params rest body b :: c)) : Ends .rtn body ∧ Ends e c := by
  cases h with
  | plain hi _ => exact hi.elim
  | ldf hbody h => exact ⟨hbody, h⟩
  | call hi _ _ => cases hi
  | tail hi _ => cases hi

/-- Only code of an activation returns. -/
theorem Ends.of_rtn {e : Ending} {c : Code} (h : Ends e (.rtn :: c)) : e = .rtn := by
  cases h with
  | plain hi _ => exact hi.elim
  | call hi _ _ => cases hi
  | tail hi _ => cases hi
  | rtn => rfl

/-- Branches join, and the code goes on behind them. -/
theorem Ends.of_sel {e : Ending} {ct cf : Option Code} {c : Code} (h : Ends e (.sel ct cf :: c)) :
    (∀ c' ∈ ct, Ends .join c') ∧ (∀ c' ∈ cf, Ends .join c') ∧ ¬ Returning c ∧ Ends e c := by
  cases h with
  | plain hi _ => exact hi.elim
  | call hi _ _ => cases hi
  | tail hi _ => cases hi
  | sel ht hf hne h =>
    exact ⟨fun c' hc' => Option.mem_some_iff.mp hc' ▸ ht,
      fun c' hc' => Option.mem_some_iff.mp hc' ▸ hf, hne, h⟩

/-- Branches in tail position return themselves. -/
theorem Ends.of_selr {e : Ending} {ct cf : Option Code} {c : Code}
    (h : Ends e (.selr ct cf :: c)) :
    e = .rtn ∧ (∀ c' ∈ ct, Ends .rtn c') ∧ ∀ c' ∈ cf, Ends .rtn c' := by
  cases h with
  | plain hi _ => exact hi.elim
  | call hi _ _ => cases hi
  | tail hi _ => cases hi
  | selr ht hf =>
    exact ⟨rfl, fun c' hc' => Option.mem_some_iff.mp hc' ▸ ht,
      fun c' hc' => Option.mem_some_iff.mp hc' ▸ hf⟩

/-- **What follows a call**: after an ordinary one there is something to do, and
the code of a tail call is to return. -/
theorem Ends.of_call {e : Ending} {i : Instr} {c : Code} {tail : Bool} (h : Ends e (i :: c))
    (hi : i.callMode = some tail) :
    Ends e c ∧ (tail = true → e = .rtn) ∧ (tail = false → ¬ Returning c) := by
  cases h with
  | plain hp _ => cases i <;> first | exact hp.elim | cases hi
  | call hc hne h =>
    obtain rfl := Option.some.inj (hc.symm.trans hi)
    exact ⟨h, nofun, fun _ => hne⟩
  | tail hc h =>
    obtain rfl := Option.some.inj (hc.symm.trans hi)
    exact ⟨h, fun _ => rfl, nofun⟩
  | _ => cases hi

/-- A plain instruction leaves the machine where it was. -/
theorem VM.Past.at {b : Book} {ins : Instr} (h : vm.Past b ins) (hi : ins.Plain) : vm.At b := by
  obtain ⟨e, hheld, hends⟩ := h.place
  exact ⟨h.scratch, e, hheld, hends.of_plain hi⟩

/-- A calling one finds it ready. -/
theorem VM.Past.ready {b : Book} {ins : Instr} {tail : Bool} (h : vm.Past b ins)
    (hi : ins.callMode = some tail) : vm.Ready b tail := by
  obtain ⟨e, hheld, hends⟩ := h.place
  obtain ⟨hrest, he, -⟩ := hends.of_call hi
  exact ⟨h.scratch, e, he, hheld, hrest⟩

/-- How an instruction may end. -/
def Next.At : Next → Book → Prop
  | .continue vm, b => vm.At b
  | .done _, _ => True

/-- How a call may end. -/
def Next.Called (host : Host X) (callee : Value) (tail : Bool) (vm : VM) (next : Next)
    (b : Book) : Prop :=
  ∃ vm', next = .continue vm' ∧ Scheme14.Called host callee tail vm vm' b

/-- After a call the machine may go on. -/
theorem Next.Called.at {callee : Value} {tail : Bool} {next : Next} {b : Book}
    (h : next.Called host callee tail vm b) : next.At b := by
  obtain ⟨vm', rfl, hcalled⟩ := h
  exact hcalled.place

namespace Tracked

variable {g g' : Tracked X}

theorem follows_noteFault (f : Fault) : Cmd.Follows world g (noteFault f) (fun _ _ => True) :=
  follows_modify ⟨rfl, rfl, rfl, rfl⟩

theorem follows_fault {B : α → Tracked X → Prop} (f : Fault) (what : String) :
    Cmd.Follows world g (fault f what) B :=
  (follows_noteFault f).bind fun _ _ _ _ => .fail

theorem follows_observe (c : Prop) [Decidable c] (f : Fault) :
    Cmd.Follows world g (observe c f) (fun _ _ => True) :=
  .ite (fun _ => .pure trivial) fun _ => follows_noteFault f

theorem follows_needOperands (vm : VM) (n : ℕ) (who : String) :
    Cmd.Follows world g (needOperands vm n who) (fun _ _ => True) := by
  unfold needOperands
  dsimp only
  exact .ite_skip (B := fun _ _ => True) (fun _ => follows_fault _ _) (fun _ => trivial)
    fun _ _ _ => follows_observe _ _

theorem follows_setGlobal (x : Cell) (v : Value) :
    Cmd.Follows world g (setGlobal x v) (fun _ _ => True) :=
  follows_modify ⟨rfl, rfl, rfl, rfl⟩

theorem follows_setLocation (f b : ℕ) (v : Value) :
    Cmd.Follows world g (setLocation f b v) (fun _ _ => True) :=
  follows_modify ⟨rfl, List.length_modify _ _ _, rfl, rfl⟩

theorem follows_makeClosure {clo : Closure} (hclo : Ends .rtn clo.body) :
    Cmd.Follows world g (makeClosure clo) (fun _ _ => True) := by
  let g' : Tracked X := ⟨{ g.world with closures := g.world.closures ++ [clo] }, g.book,
    ⟨g.tracks.outermost, g.tracks.stamps, g.tracks.frames, fun clo' h' => ?_, g.tracks.conts⟩⟩
  · exact .of_ok g' rfl (.refl _) trivial
  · rcases List.mem_append.mp h' with h' | h'
    · exact g.tracks.closures clo' h'
    · rw [List.mem_singleton.mp h']
      exact hclo

/-- **A continuation that is made** is where the machine is. -/
theorem follows_makeCont (hvm : vm.At g.book) :
    Cmd.Follows world g (makeCont vm) (fun _ _ => True) := by
  let k : Cont := ⟨vm.stack, vm.dump, g.world.data.winds, vm.c, vm.pc, vm.env, vm.base, vm.mark⟩
  let g' : Tracked X := ⟨{ g.world with conts := g.world.conts ++ [k] }, g.book,
    ⟨g.tracks.outermost, g.tracks.stamps, g.tracks.frames, g.tracks.closures, fun k' h' => ?_⟩⟩
  · exact .of_ok g' rfl (.refl _) trivial
  · rcases List.mem_append.mp h' with h' | h'
    · exact g.tracks.conts k' h'
    · rw [List.mem_singleton.mp h']
      exact hvm.place

/-! ### RTN, JOIN and SEL -/

/-- **RTN** goes on where its call was. -/
theorem follows_returnStep (hvm : vm.Past g.book .rtn) :
    Cmd.Follows world g (returnStep vm) (fun next g' => next.At g'.book) := by
  unfold returnStep
  dsimp only
  refine (follows_observe _ _).bind fun _ g₁ h₁ _ => ?_
  split
  · exact (follows_observe _ _).bind fun _ _ _ _ => .pure trivial
  · rename_i back dump hcons
    refine (follows_observe _ _).bind fun _ g₂ h₂ _ => .pure ?_
    obtain ⟨e, hheld, hends⟩ := ((hvm.mono h₁).mono h₂).place
    obtain rfl := hends.of_rtn
    rw [hcons] at hheld
    obtain ⟨e', hback, hends'⟩ := hheld.back_of_call
    exact ⟨hvm.scratch, e', hback, hends'⟩

/-- **JOIN** goes on where its SEL was. -/
theorem follows_joinStep (hvm : vm.Past g.book .join) :
    Cmd.Follows world g (joinStep vm) (fun next g' => next.At g'.book) := by
  unfold joinStep
  split
  · exact follows_fault _ _
  · rename_i back dump hcons
    refine (follows_observe _ _).bind fun _ g₁ h₁ _ => .pure ?_
    obtain ⟨e, hheld, hends⟩ := (hvm.mono h₁).place
    obtain rfl := hends.eq_join
    rw [hcons] at hheld
    obtain ⟨e', hback, hends'⟩ := hheld.back_of_branch
    exact ⟨hvm.scratch, e', hback, hends'⟩

/-- The branch that is taken is one of the two. -/
theorem follows_chooseBranch (v : Value) {ct cf : Option Code} {P : Code → Prop}
    (ht : ∀ c ∈ ct, P c) (hf : ∀ c ∈ cf, P c) :
    Cmd.Follows world g (chooseBranch v ct cf) (fun c _ => P c) := by
  unfold chooseBranch
  split
  · rename_i c hc
    exact .pure (chosen hc ht hf)
  · exact follows_fault _ _

/-- **SEL** pushes an entry for what follows it. -/
theorem follows_sel {ct cf : Option Code} (hvm : vm.Past g.book (.sel ct cf)) :
    Cmd.Follows world g (execute host self vm (.sel ct cf)) (fun next g' => next.At g'.book) := by
  obtain ⟨e, hheld, hends⟩ := hvm.place
  obtain ⟨hct, hcf, hne, hrest⟩ := hends.of_sel
  unfold execute
  refine (follows_needOperands _ _ _).bind fun _ g₁ h₁ _ => ?_
  refine (follows_chooseBranch _ hct hcf).bind fun c g₂ h₂ hc => ?_
  -- the stamp is new, and it is no activation's
  let back : DumpEntry :=
    ⟨vm.c, vm.pc, vm.env, vm.base, .branch, g₂.world.stamps + 1, vm.mark⟩
  have hheld' : Held g₂.book .join vm.env vm.base (g₂.world.stamps + 1) (back :: vm.dump) :=
    @Held.branch _ back _ _ hne hrest ((hheld.mono h₁).mono h₂)
  let g₃ : Tracked X := ⟨{ g₂.world with stamps := g₂.world.stamps + 1 }, g₂.book,
    ⟨g₂.tracks.outermost, fun m p hp => Nat.le_succ_of_le (g₂.tracks.stamps m p hp),
      g₂.tracks.frames, g₂.tracks.closures, g₂.tracks.conts⟩⟩
  have hplace : (⟨vm.stack.drop 1, back :: vm.dump, vm.env, vm.scratch, c, 0, vm.base,
      g₂.world.stamps + 1⟩ : VM).At g₃.book := ⟨hvm.scratch, _, hheld', hc⟩
  exact .of_ok (a := .continue ⟨vm.stack.drop 1, back :: vm.dump, vm.env, vm.scratch, c, 0, vm.base,
    g₂.world.stamps + 1⟩) g₃ rfl (.refl _) hplace

/-- `SELR` pushes nothing. -/
theorem follows_selr {ct cf : Option Code} (hvm : vm.Past g.book (.selr ct cf)) :
    Cmd.Follows world g (execute host self vm (.selr ct cf)) (fun next g' => next.At g'.book) := by
  obtain ⟨e, hheld, hends⟩ := hvm.place
  obtain ⟨rfl, hct, hcf⟩ := hends.of_selr
  unfold execute
  refine (follows_needOperands _ _ _).bind fun _ g₁ h₁ _ => ?_
  refine (follows_chooseBranch _ hct hcf).bind fun c g₂ h₂ hc => .pure ?_
  exact ⟨hvm.scratch, .rtn, (hheld.mono h₁).mono h₂, hc⟩

/-! ### Calls -/

/-- What is called is on top of the stack, and the call changes neither the dump nor
where the operands start. -/
structure Prepared (vm : VM) (tail : Bool) (c : Call) (b : Book) : Prop where
  ready : c.vm.Ready b tail
  callee : c.callee = vm.stack.headD .nil
  same : c.vm.dump = vm.dump ∧ c.vm.base = vm.base

/-- **A call is prepared** without a change of the dump. -/
theorem follows_prepareCall {ins : Instr} {tail : Bool} (hi : ins.callMode = some tail)
    (hvm : vm.Past g.book ins) : Cmd.Follows world g (prepareCall vm ins)
      (fun c g' => Prepared vm tail c g'.book) := by
  have hready := hvm.ready hi
  cases ins with
  | app n | tapp n =>
    refine (follows_needOperands vm (n + 1) "APP").bind fun _ g₁ h₁ _ => ?_
    split
    · exact .fail
    · rename_i callee stack hstack
      have hready₁ := hready.mono h₁
      exact .pure ⟨⟨hready₁.scratch, hready₁.place⟩, (by rw [hstack]; rfl), rfl, rfl⟩
  | apply | tapply =>
    refine (follows_needOperands vm 2 "APPLY").bind fun _ g₁ h₁ _ => ?_
    refine (follows_onData _).bind fun args g₂ h₂ _ => ?_
    have hready₂ := (hready.mono h₁).mono h₂
    exact .pure ⟨⟨hready₂.scratch, hready₂.place⟩, rfl, rfl, rfl⟩
  | callcc | tcallcc =>
    refine (follows_needOperands vm 1 "call/cc").bind fun _ g₁ h₁ _ => ?_
    have hready₁ := hready.mono h₁
    have hpopped : ({ vm with stack := vm.stack.drop 1 } : VM).At g₁.book :=
      ⟨hready₁.at.scratch, hready₁.at.place⟩
    refine (follows_makeCont hpopped).bind fun k g₂ h₂ _ => ?_
    have hready₂ := hready₁.mono h₂
    exact .pure ⟨⟨hready₂.scratch, hready₂.place⟩, rfl, rfl, rfl⟩
  | _ => cases hi

/-- **The six calls.** The callee is on top of the stack. -/
theorem follows_call (hself : self.Tracks) {ins : Instr} {tail : Bool}
    (hi : ins.callMode = some tail) (hvm : vm.Past g.book ins) :
    Cmd.Follows world g (execute host self vm ins)
      (fun next g' => next.Called host (vm.stack.headD .nil) tail vm g'.book) := by
  rw [execute_call host self vm hi]
  refine (follows_prepareCall hi hvm).bind fun c g₁ h₁ hc => ?_
  refine (follows_doCall hself c.callee c.n tail hc.ready).bind fun vm' g₂ h₂ hcalled =>
    .pure ⟨vm', rfl, ?_⟩
  rw [← hc.callee]
  exact ⟨hcalled.place, hcalled.body, fun henters htail =>
    (hcalled.same henters htail).imp (·.trans hc.same.1) (·.trans hc.same.2)⟩

/-- **One instruction.** -/
theorem follows_execute (hself : self.Tracks) {ins : Instr} (hvm : vm.Past g.book ins) :
    Cmd.Follows world g (execute host self vm ins) (fun next g' => next.At g'.book) := by
  have hcalls : ∀ {tail : Bool}, ins.callMode = some tail →
      Cmd.Follows world g (execute host self vm ins) (fun next g' => next.At g'.book) := fun hi =>
    (follows_call hself hi hvm).post fun _ _ _ h => h.at
  -- the machine after an instruction that changes operands only
  have hstack : ins.Plain → ∀ (g' : Tracked X), g ≤ g' → ∀ s,
      ({ vm with stack := s } : VM).At g'.book := fun hi g' hle s =>
    ⟨hvm.scratch, ((hvm.mono hle).at hi).place⟩
  cases ins with
  | ld a b =>
    unfold execute
    refine follows_getState ?_
    split
    · exact follows_fault _ _
    · exact .pure (hstack trivial g (le_refl g) _)
  | ldc v => exact .pure (hstack trivial g (le_refl g) _)
  | ldg x =>
    unfold execute
    refine (follows_modify ⟨rfl, rfl, rfl, rfl⟩).bind fun _ g₁ h₁ _ => follows_getState ?_
    split
    · exact .fail
    · exact .pure (hstack trivial g₁ h₁ _)
  | ldf params rest body noAlloc =>
    obtain ⟨e, hheld, hends⟩ := hvm.place
    obtain ⟨hbody, hrest⟩ := hends.of_ldf
    cases noAlloc with
    | true =>
      refine .pure ⟨fun clo hclo => ?_, e, hheld, hrest⟩
      obtain rfl := Option.mem_some_iff.mp hclo
      exact hbody
    | false =>
      exact (follows_makeClosure hbody).bind fun v g₁ h₁ _ =>
        .pure ⟨hvm.scratch, e, hheld.mono h₁, hrest⟩
  | app n => exact hcalls rfl
  | tapp n => exact hcalls rfl
  | argsAp n =>
    unfold execute
    dsimp only
    refine .ite_skip (B := fun _ _ => True) (fun _ => follows_fault _ _) (fun _ => trivial)
      fun g₁ h₁ _ => (follows_needOperands _ _ _).bind fun _ g₂ h₂ _ => ?_
    refine (follows_onData _).bind fun acc g₃ h₃ _ => (follows_onData _).bind fun l g₄ h₄ _ => ?_
    exact .pure (hstack trivial g₄ (le_trans (le_trans (le_trans h₁ h₂) h₃) h₄) _)
  | apply => exact hcalls rfl
  | tapply => exact hcalls rfl
  | rtn => exact follows_returnStep hvm
  | sel ct cf => exact follows_sel hvm
  | selr ct cf => exact follows_selr hvm
  | join => exact follows_joinStep hvm
  | pop =>
    exact (follows_needOperands _ _ _).bind fun _ g₁ h₁ _ => .pure (hstack trivial g₁ h₁ _)
  | defG x =>
    exact (follows_needOperands _ _ _).bind fun _ g₁ h₁ _ => (follows_setGlobal _ _).bind
      fun _ g₂ h₂ _ => .pure (hstack trivial g₂ (le_trans h₁ h₂) _)
  | defm x =>
    refine (follows_needOperands _ _ _).bind fun _ g₁ h₁ _ =>
      (follows_modify ⟨rfl, rfl, rfl, rfl⟩).bind fun _ g₂ h₂ _ => (follows_setGlobal _ _).bind
        fun _ g₃ h₃ _ => .pure (hstack trivial g₃ (le_trans (le_trans h₁ h₂) h₃) _)
  | lset a b =>
    unfold execute
    refine (follows_needOperands _ _ _).bind fun _ g₁ h₁ _ => follows_getState ?_
    split
    · exact follows_fault _ _
    · exact (follows_setLocation _ _ _).bind fun _ g₂ h₂ _ =>
        .pure (hstack trivial g₂ (le_trans h₁ h₂) vm.stack)
  | gset x =>
    exact (follows_needOperands _ _ _).bind fun _ g₁ h₁ _ => (follows_setGlobal _ _).bind
      fun _ g₂ h₂ _ => .pure (hstack trivial g₂ (le_trans h₁ h₂) vm.stack)
  | callcc => exact hcalls rfl
  | tcallcc => exact hcalls rfl
  | stop => exact .pure trivial

end Tracked

/-! ## The loop -/

/-- **One turn of the loop**, without what comes after it. -/
def turn (host : Host X) (self : Self X) (vm : VM) : SchemeM X Next :=
  match vm.c[vm.pc]? with
  | none => fault .codeExhausted "code exhausted without reaching STOP"
  | some ins => handOver vm (execute host self { vm with pc := vm.pc + 1 } ins)

/-- The loop is one turn after the other. -/
theorem loopStep_eq (host : Host X) (self : Self X) (vm : VM) :
    loopStep host self vm = (do
      match ← turn host self vm with
      | .continue vm => self.loop vm
      | .done v => return v) := by
  unfold loopStep turn
  cases vm.c[vm.pc]? with
  | none => rfl
  | some ins => rfl

namespace Tracked

variable {g g' : Tracked X}

/-- **The machine that an error leaves** is to stop. -/
theorem follows_abandonToRaise (message : Message)
    (hvm : ∀ clo ∈ vm.scratch, Ends .rtn clo.body) :
    Cmd.Follows world g (abandonToRaise vm message) (fun vm' g' => vm'.At g'.book) := by
  unfold abandonToRaise
  refine (follows_modify ⟨rfl, rfl, rfl, rfl⟩).bind fun _ g₁ _ _ => follows_getState ?_
  split
  · exact .fail
  · refine (follows_onData _).bind fun _ g₁ _ _ => .pure ⟨hvm, .stop, .stop, ?_⟩
    exact .plain trivial (.plain trivial (.call rfl (not_returning_cons nofun) .stop))

/-- An error that is handed over goes on in code of its own. -/
theorem follows_handOver {m : SchemeM X Next} (hvm : ∀ clo ∈ vm.scratch, Ends .rtn clo.body)
    (hm : Cmd.Follows world g m (fun next g' => next.At g'.book)) :
    Cmd.Follows world g (handOver vm m) (fun next g' => next.At g'.book) := by
  rcases hm.outcomes with ⟨next, g₁, hrun, h₁, hnext⟩ | ⟨e, g₁, hrun, h₁⟩
  · refine .of_ok g₁ ?_ h₁ hnext
    unfold handOver
    rw [hrun]
  · rcases @handOver_error X vm _ _ _ _ hrun with hover | ⟨message, hover⟩
    · exact .of_error g₁ hover h₁
    · -- the machine goes on in the world the failed instruction left
      have hraise := (follows_abandonToRaise (g := g₁) message hvm).bind fun vm' g' _ hvm' =>
        Cmd.Follows.pure (B := fun next (g' : Tracked X) => Next.At next g'.book)
          (a := .continue vm') hvm'
      rcases hraise.outcomes with ⟨next, g₂, hrun₂, h₂, hnext⟩ | ⟨e₂, g₂, hrun₂, h₂⟩
      · exact .of_ok g₂ (hover.trans hrun₂) (le_trans h₁ h₂) hnext
      · exact .of_error g₂ (hover.trans hrun₂) (le_trans h₁ h₂)

/-- An instruction is taken at the counter. -/
theorem past_of_at {ins : Instr} (hvm : vm.At g.book) (hins : vm.c[vm.pc]? = some ins) :
    ({ vm with pc := vm.pc + 1 } : VM).Past g.book ins := by
  obtain ⟨e, hheld, hends⟩ := hvm.place
  obtain ⟨hlt, hget⟩ := List.getElem?_eq_some_iff.mp hins
  rw [List.drop_eq_getElem_cons hlt, hget] at hends
  exact ⟨hvm.scratch, e, hheld, hends⟩

/-- **One turn** keeps the book. -/
theorem follows_turn (hself : self.Tracks) (hvm : vm.At g.book) :
    Cmd.Follows world g (turn host self vm) (fun next g' => next.At g'.book) := by
  unfold turn
  split
  · exact follows_fault _ _
  · rename_i ins hins
    exact follows_handOver hvm.scratch (follows_execute hself (past_of_at hvm hins))

/-- So does the loop. -/
theorem follows_loopStep (hself : self.Tracks) (hvm : vm.At g.book) :
    Cmd.Follows world g (loopStep host self vm) (fun _ _ => True) := by
  rw [loopStep_eq]
  refine (follows_turn hself hvm).bind fun next g₁ _ hnext => ?_
  cases next with
  | «continue» vm' => exact hself.loop g₁ vm' hnext
  | done v => exact .pure trivial

/-- **The compiler and the machine** keep to their books, to every depth of
recursion. -/
theorem machine_tracks (host : Host X) : ∀ n, (machine host n).Tracks
  | 0 => ⟨fun _ _ _ _ => .fail, fun _ _ _ => .fail, fun _ _ _ => .fail⟩
  | n + 1 =>
    have ih := machine_tracks host n
    ⟨fun _ expr env tail => follows_compStep ih expr env tail,
      fun _ _ hvm => follows_loopStep ih hvm,
      fun _ name args => follows_callPrimStep host ih name args⟩

end Tracked

end Scheme14
