import SecdScheme.Lib.TreeWalk
import SecdScheme.Scheme14.CoreSteps
import SecdScheme.Scheme14.Growth

/-!
# scheme14: the wind lists are paths of one tree

The wind list is the path of a walker: `%wind-push` enters a new entry,
`%wind-pop` leaves the last one, a continuation that is captured saves the
list, and one that is called jumps to what it has saved. Every run of the
machine is a run of the walker. So wind lists may be compared by their ids,
the thunks that a jump calls are those of the walk between the lists, and the
entries that the calls enter and leave balance.
-/

namespace Scheme14

open TreeWalk

variable {X : Type} {host : Host X} {self : Self X} {w w' w₁ : World X}

/-! ## The walker in a world -/

/-- **The wind list as a path in a tree**, with the lists the continuations were
captured with. -/
def World.walker (w : World X) : Walker WindEntry :=
  ⟨w.data.winds, w.data.windNextId, w.conts.map (·.winds)⟩

/-- A host all of whose primitives are ordinary, with `%wind-push` and `%wind-pop`;
no other primitive touches the wind list. -/
structure Host.Winding (host : Host X) : Prop where
  ordinary : ∀ name, host.kind name = .data
  push : host.apply "%wind-push" = primWindPush
  pop : host.apply "%wind-pop" = primWindPop
  others : ∀ name, name ≠ "%wind-push" → name ≠ "%wind-pop" → ∀ args s,
    (host.apply name args s).2.winds = s.winds ∧
      (host.apply name args s).2.windNextId = s.windNextId

/-- The walker stays where it is; it may save its path. -/
structure World.Saves (w w' : World X) : Prop where
  winds : w'.data.winds = w.data.winds
  windNextId : w'.data.windNextId = w.data.windNextId
  conts : ∃ ks, w'.conts = w.conts ++ ks ∧ ∀ k ∈ ks, k.winds = w.data.winds

namespace World.Saves

/-- A change of something else. -/
theorem of_eq (hwinds : w'.data.winds = w.data.winds)
    (hnext : w'.data.windNextId = w.data.windNextId) (hconts : w'.conts = w.conts) : w.Saves w' :=
  ⟨hwinds, hnext, [], hconts.trans (List.append_nil _).symm, nofun⟩

instance : IsPreorder (World X) World.Saves where
  refl _ := .of_eq rfl rfl rfl
  trans w w₁ w' h h' := by
    obtain ⟨ks, hks, hwinds⟩ := h.conts
    obtain ⟨ks', hks', hwinds'⟩ := h'.conts
    refine ⟨h'.winds.trans h.winds, h'.windNextId.trans h.windNextId, ks ++ ks', ?_, fun k hk => ?_⟩
    · rw [hks', hks, List.append_assoc]
    · rcases List.mem_append.mp hk with hk | hk
      · exact hwinds k hk
      · exact (hwinds' k hk).trans h.winds

theorem roams (h : w.Saves w') : Roams WindEntry.id w.walker w'.walker := by
  obtain ⟨ks, hks, hwinds⟩ := h.conts
  have hwalker : w'.walker = { w.walker with saved := w.walker.saved ++ ks.map (·.winds) } := by
    unfold World.walker
    rw [h.winds, h.windNextId, hks, List.map_append]
  rw [hwalker]
  refine roams_saves _ fun p hp => ?_
  obtain ⟨k, hk, rfl⟩ := List.mem_map.mp hp
  exact hwinds k hk

end World.Saves

theorem saves_basic {α : Type} {m : SchemeM X α} (h : Basic m) : Cmd.Keeps World.Saves m := by
  intro w
  cases h with
  | cont vm =>
    refine ⟨rfl, rfl, _, rfl, fun k hk => ?_⟩
    rw [List.mem_singleton.mp hk]
  | list vs =>
    obtain ⟨v, s', hrun, ⟨ps, rfl⟩, -⟩ := listFrom_spec vs w.data
    unfold onData
    rw [hrun]
    exact .of_eq rfl rfl rfl
  | elements v who =>
    unfold onData
    rw [reads_listToVector v who w.data]
    exact .of_eq rfl rfl rfl
  | _ => exact .of_eq rfl rfl rfl

/-- **The basic commands leave the walker where it is.** -/
def savesRules : TurnRules X := .keeping World.Saves saves_basic

/-! ## The moves of a turn -/

/-- The moves of a primitive: `%wind-push` enters an entry with the next id, and
`%wind-pop` leaves the last one, whatever its arguments are. -/
def primMoves (w : World X) (name : String) (args : List Value) : List (Move WindEntry) :=
  if name = "%wind-push" then
    match args with
    | [before, after] => [.enter ⟨before, after, w.data.windNextId⟩]
    | _ => []
  else if name = "%wind-pop" then w.data.winds.getLast?.toList.map .leave
  else []

/-- **The moves of a call.** A continuation moves on the way to its own list. -/
def callMoves (w : World X) (c : Call) : List (Move WindEntry) :=
  match c.callee with
  | .prim name => primMoves w name c.args
  | .cont a =>
    match w.conts[a]? with
    | some k => movesBetween WindEntry.id w.data.winds k.winds
    | none => []
  | _ => []

/-- The moves of an instruction are those of the call it makes, if it makes one. -/
def instrMoves (vm : VM) (i : Instr) (w : World X) : List (Move WindEntry) :=
  match prepareCall vm i w with
  | (.ok c, w') => callMoves w' c
  | (.error _, _) => []

/-- The moves of a turn. -/
def turnMoves (vm : VM) (w : World X) : List (Move WindEntry) :=
  match vm.c[vm.pc]? with
  | none => []
  | some i => instrMoves { vm with pc := vm.pc + 1 } i w

/-- **The entries that are entered and left** by the calls of so many turns. -/
def windLog (host : Host X) : ℕ → VM × World X → List (Move WindEntry)
  | 0, _ => []
  | n + 1, c =>
    match turnFrom host c with
    | .inl _ => []
    | .inr c' => turnMoves c.1 c.2 ++ windLog host n c'

/-- **The walker moves**, from one list to the other, where the lists are paths of one
tree. -/
structure World.Moves (w : World X) (ms : List (Move WindEntry)) (w' : World X) : Prop where
  roams : Roams WindEntry.id w.walker w'.walker
  walk : w.walker.Rooted WindEntry.id → Walk w.data.winds ms w'.data.winds

namespace World.Moves

variable {ms ns : List (Move WindEntry)}

theorem trans (h : w.Moves ms w₁) (h' : w₁.Moves ns w') : w.Moves (ms ++ ns) w' :=
  ⟨h.roams.trans h'.roams, fun hw => (h.walk hw).trans (h'.walk (h.roams.rooted hw))⟩

theorem of_saves (h : w.Saves w') : w.Moves [] w' :=
  ⟨h.roams, fun _ => h.winds ▸ .here _⟩

theorem after_saves (h : w.Saves w₁) (h' : w₁.Moves ms w') : w.Moves ms w' :=
  (of_saves h).trans h'

theorem before_saves (h : w.Moves ms w₁) (h' : w₁.Saves w') : w.Moves ms w' := by
  have hmoves := h.trans (of_saves h')
  rwa [List.append_nil] at hmoves

end World.Moves

/-- **A primitive** moves the walker as its name says, whether it returns or fails. -/
theorem moves_apply (hhost : host.Winding) (name : String) (args : List Value) (w : World X) :
    w.Moves (primMoves w name args) (w.withData (host.apply name args w.data).2) := by
  by_cases hpush : name = "%wind-push"
  · subst hpush
    rw [hhost.push]
    match args with
    | [before, after] =>
      -- the new entry has the id that comes next
      exact ⟨.single (.enter w.walker rfl), fun _ => .enter (.here _)⟩
    | [] | [_] | _ :: _ :: _ :: _ => exact .of_saves (.of_eq rfl rfl rfl)
  by_cases hpop : name = "%wind-pop"
  · subst hpop
    rw [hhost.pop]
    have hpopped : primWindPop args w.data =
        (.ok .nil, { w.data with winds := w.data.winds.dropLast }) := by
      unfold primWindPop needArgsBetween
      rw [if_neg (by omega)]
      rfl
    rw [hpopped]
    refine ⟨.single (.leave w.walker), fun _ => ?_⟩
    show Walk w.data.winds (w.data.winds.getLast?.toList.map .leave) w.data.winds.dropLast
    rcases List.eq_nil_or_concat w.data.winds with hnil | ⟨winds, e, hwinds⟩
    · rw [hnil]
      exact .here _
    · rw [hwinds, List.concat_eq_append, List.getLast?_append, List.dropLast_concat]
      exact .leave (.here _)
  · obtain ⟨hwinds, hnext⟩ := hhost.others name hpush hpop args w.data
    unfold primMoves
    rw [if_neg hpush, if_neg hpop]
    exact .of_saves (.of_eq hwinds hnext rfl)

/-- **A continuation** jumps to the wind list it has saved. -/
theorem moves_callCont (vm : VM) (a n : ℕ) (w : World X) :
    w.Moves (callMoves w ⟨vm, .cont a, n⟩) (callCont vm a n w).2 := by
  unfold callCont callMoves
  dsimp only
  rw [Cmd.bind_run_ok (Cmd.getState_run w)]
  cases hk : w.conts[a]? with
  | none => exact .of_saves (.of_eq rfl rfl rfl)
  | some k =>
    have hjump : TreeWalk.Goes WindEntry.id w.walker { w.walker with path := k.winds } :=
      .jump w.walker (List.mem_map_of_mem (List.mem_of_getElem? hk))
    have hwalk : w.walker.Rooted WindEntry.id →
        Walk w.data.winds (movesBetween WindEntry.id w.data.winds k.winds) k.winds :=
      fun hw => ((Roams.together (.single hjump) hw)).walk
    dsimp only
    split
    · rename_i hmatch
      refine ⟨.refl, fun hw => ?_⟩
      -- the ids are the same, and so the lists are
      have hsame : w.data.winds = k.winds :=
        (Roams.together (.single hjump) hw).eq_of_keys (beq_iff_eq.mp hmatch)
      have hstay := hwalk hw
      rwa [← hsame] at hstay ⊢
    · exact ⟨.single hjump, hwalk⟩

/-- **A call** makes its moves, and no other. -/
theorem moves_doCall (hhost : host.Winding) (c : Call) (tail : Bool) (w : World X) :
    w.Moves (callMoves w c) (doCall host self c.vm c.callee c.n tail w).2 := by
  obtain ⟨vm, callee, n⟩ := c
  cases callee with
  | prim name =>
    have hcall : (doCall host self vm (.prim name) n tail w).2 =
        w.withData (host.apply name (vm.stack.take n).reverse w.data).2 := by
      unfold doCall callPrimStep
      dsimp only
      rw [if_neg (by rw [hhost.ordinary]; exact nofun), hhost.ordinary]
      exact Cmd.bind_pure_snd _ _ w
    rw [hcall]
    exact moves_apply hhost name _ w
  | cont a => exact moves_callCont vm a n w
  | _ =>
    exact .of_saves (@TurnRules.doCall_of_ne X savesRules host host self self _ (by nofun)
      (by nofun) vm n tail w)

theorem prepareCall_of_none (vm : VM) {i : Instr} (hi : i.callMode = none) :
    (prepareCall vm i : SchemeM X Call) = internalError "no call" := by
  cases i with
  | app | tapp | apply | tapply | callcc | tcallcc => cases hi
  | _ => rfl

theorem moves_execute (hhost : host.Winding) (vm : VM) (i : Instr) (w : World X) :
    w.Moves (instrMoves vm i w) (execute host self vm i w).2 := by
  unfold instrMoves
  cases hi : i.callMode with
  | none =>
    rw [prepareCall_of_none vm hi]
    exact .of_saves (@TurnRules.execute_of_none X savesRules host host self self vm i hi w)
  | some tail =>
    have hprepared : w.Saves (prepareCall vm i w).2 := savesRules.prepareCall vm i w
    rw [execute_call host self vm hi, Cmd.bind_run]
    rcases hrun : prepareCall vm i w with ⟨e | c, w₁⟩ <;> rw [hrun] at hprepared
    · exact .of_saves hprepared
    · refine .after_saves hprepared ?_
      show w₁.Moves _ ((doCall host self c.vm c.callee c.n tail >>= fun vm => pure (.continue vm) :
        SchemeM X Next) w₁).2
      rw [Cmd.bind_pure_snd]
      exact moves_doCall hhost c tail w₁

/-- An error that is handed over moves nothing. -/
theorem moves_handOver {ms : List (Move WindEntry)} (vm : VM) {m : SchemeM X Next} {w : World X}
    (h : w.Moves ms (m w).2) : w.Moves ms (handOver vm m w).2 := by
  rcases hm : m w with ⟨e | next, w'⟩ <;> rw [hm] at h
  · rcases @handOver_error X vm _ _ _ _ hm with hover | ⟨message, hover⟩ <;> rw [hover]
    · exact h
    · exact h.before_saves (savesRules.map (savesRules.abandonToRaise vm message) _ w')
  · unfold handOver
    rw [hm]
    exact h

/-- **Every turn** makes the moves of its call, also one that hands an error over. -/
theorem moves_turn (hhost : host.Winding) (vm : VM) (w : World X) :
    w.Moves (turnMoves vm w) (turn host self vm w).2 := by
  unfold turn turnMoves
  cases vm.c[vm.pc]? with
  | none => exact .of_saves (savesRules.fault .codeExhausted _ w)
  | some i => exact moves_handOver vm (moves_execute hhost _ i w)

/-! ## Runs -/

theorem moves_turnFrom (hhost : host.Winding) {c c' : VM × World X}
    (h : turnFrom host c = .inr c') : c.2.Moves (turnMoves c.1 c.2) c'.2 := by
  have hturn : c.2.Moves (turnMoves c.1 c.2) (turn host (machine host 0) c.1 c.2).2 :=
    moves_turn hhost c.1 c.2
  unfold turnFrom at h
  rcases hrun : turn host (machine host 0) c.1 c.2 with ⟨err | next, w'⟩
  · rw [hrun] at h
    cases h
  · rw [hrun] at h hturn
    cases next with
    | «continue» vm =>
      cases h
      exact hturn
    | done v => cases h

/-- **A run of the machine** is a run of the walker, with the moves of its calls. -/
theorem moves_steps (hhost : host.Winding) {n : ℕ} {c c' : VM × World X}
    (hrun : Stepping.Steps (turnFrom host) n c c') : c.2.Moves (windLog host n c) c'.2 := by
  induction hrun with
  | refl => exact .of_saves (refl_of World.Saves _)
  | @step n c c₁ c' hturn _ ih =>
    rw [windLog, hturn]
    exact (moves_turnFrom hhost hturn).trans ih

/-- The thunk that goes with a move. -/
def windThunk : Move WindEntry → Value
  | .leave e => e.after
  | .enter e => e.before

/-- **A continuation rewinds as it should** in a world: its wind list is there
exactly when the ids say so, and then a call of it goes on where it was made. Otherwise
the call sets the list, and the machine runs code that calls thunks and then the
continuation again. The thunks are those of the walk to its list, which leaves what is
not in it and enters what is not there. -/
structure World.Rewinds (w : World X) (k : Cont) : Prop where
  there : windsMatch w.data.winds k.winds = true ↔ w.data.winds = k.winds
  resumes : ∀ (host : Host X) (self : Self X) (vm : VM) (a n : ℕ) (tail : Bool),
    w.conts[a]? = some k → w.data.winds = k.winds → doCall host self vm (.cont a) n tail w =
      (.ok (k.resume vm.scratch ((vm.stack.take n).reverse.headD .nil)), w)
  rewinds : ∀ (host : Host X) (self : Self X) (vm : VM) (a n : ℕ) (tail : Bool),
    w.conts[a]? = some k → w.data.winds ≠ k.winds → doCall host self vm (.cont a) n tail w =
      (.ok { vm with
        c := rewindCode w.data.winds (.cont a) k.winds ((vm.stack.take n).reverse.headD .nil)
        pc := 0 }, w.withData { w.data with winds := k.winds })
  walk : Walk w.data.winds (movesBetween WindEntry.id w.data.winds k.winds) k.winds
  thunks : ∀ callee v, rewindCode w.data.winds callee k.winds v =
    ((movesBetween WindEntry.id w.data.winds k.winds).map fun m => thunkCall (windThunk m)).flatten
      ++ [.ldc v, .ldc callee, .app 1]
  leaves : ∀ e, .leave e ∈ movesBetween WindEntry.id w.data.winds k.winds ↔
    e ∈ w.data.winds ∧ e ∉ k.winds
  enters : ∀ e, .enter e ∈ movesBetween WindEntry.id w.data.winds k.winds ↔
    e ∈ k.winds ∧ e ∉ w.data.winds

theorem commonWinds_eq : ∀ (winds want : List WindEntry),
    commonWinds winds want = shared WindEntry.id winds want
  | [], _ => by cases ‹List WindEntry› <;> rfl
  | _ :: _, [] => rfl
  | a :: winds, b :: want => by
    rw [commonWinds, shared, commonWinds_eq winds want]

/-- The code of a rewinding calls the thunks of the walk. -/
theorem rewindCode_eq_moves (winds want : List WindEntry) (callee v : Value) :
    rewindCode winds callee want v =
      ((movesBetween WindEntry.id winds want).map fun m => thunkCall (windThunk m)).flatten
        ++ [.ldc v, .ldc callee, .app 1] := by
  unfold rewindCode movesBetween
  rw [commonWinds_eq, List.map_append, List.flatten_append, List.map_map, List.map_map]
  rfl

theorem callCont_run {k : Cont} (vm : VM) {a : ℕ} (n : ℕ) (hk : w.conts[a]? = some k) :
    callCont vm a n w = if windsMatch w.data.winds k.winds then
      (.ok (k.resume vm.scratch ((vm.stack.take n).reverse.headD .nil)), w)
    else (.ok { vm with
        c := rewindCode w.data.winds (.cont a) k.winds ((vm.stack.take n).reverse.headD .nil)
        pc := 0 }, w.withData { w.data with winds := k.winds }) := by
  unfold callCont
  dsimp only
  rw [Cmd.bind_run_ok (Cmd.getState_run w), hk]
  dsimp only
  split <;> rfl

theorem World.Rewinds.of_rooted (hw : w.walker.Rooted WindEntry.id) {k : Cont}
    (hk : k ∈ w.conts) : w.Rewinds k := by
  have htogether : Together WindEntry.id w.data.winds k.winds :=
    hw.together _ List.mem_cons_self _ (List.mem_cons_of_mem _ (List.mem_map_of_mem hk))
  have hthere : windsMatch w.data.winds k.winds = true ↔ w.data.winds = k.winds := by
    rw [windsMatch, beq_iff_eq]
    exact ⟨htogether.eq_of_keys, fun h => by rw [h]⟩
  exact
    { there := hthere
      resumes := fun host self vm a n tail ha heq => by
        rw [doCall_cont, callCont_run vm n ha, if_pos (hthere.mpr heq)]
      rewinds := fun host self vm a n tail ha hne => by
        rw [doCall_cont, callCont_run vm n ha, if_neg fun hmatch => hne (hthere.mp hmatch)]
      walk := htogether.walk
      thunks := fun callee v => rewindCode_eq_moves _ _ callee v
      leaves := htogether.leave_mem_iff
      enters := htogether.enter_mem_iff }

/-- **The wind lists balance, and jumps between them are walks.** From a world
whose wind lists are paths of one tree, in every run: they stay so; the moves of the
calls are a walk from the first list to the one there is, so that each entry is entered
once more than it is left exactly when it is in this list and was not in the first one;
and every continuation rewinds as it should. -/
theorem winds_balance (hhost : host.Winding) {n : ℕ} {vm vm' : VM} {w w' : World X}
    (hw : w.walker.Rooted WindEntry.id)
    (hrun : Stepping.Steps (turnFrom host) n (vm, w) (vm', w')) :
    w'.walker.Rooted WindEntry.id ∧
      Walk w.data.winds (windLog host n (vm, w)) w'.data.winds ∧
      (∀ id, (windLog host n (vm, w)).countP (Move.enters WindEntry.id id) +
          (if id ∈ w.data.winds.map (·.id) then 1 else 0) =
        (windLog host n (vm, w)).countP (Move.leaves WindEntry.id id) +
          (if id ∈ w'.data.winds.map (·.id) then 1 else 0)) ∧
      ∀ k ∈ w'.conts, w'.Rewinds k := by
  have hmoves : w.Moves (windLog host n (vm, w)) w' := moves_steps hhost hrun
  have hw' := hmoves.roams.rooted hw
  have honce : ∀ {w : World X}, w.walker.Rooted WindEntry.id → ∀ id,
      w.data.winds.countP (·.id == id) = if id ∈ w.data.winds.map (·.id) then 1 else 0 :=
    fun hw => (hw.together _ List.mem_cons_self _ List.mem_cons_self).countP_eq
  refine ⟨hw', hmoves.walk hw, fun id => ?_, fun k hk => .of_rooted hw' hk⟩
  rw [← honce hw, ← honce hw']
  exact (hmoves.walk hw).balance id

/-- A host with `%wind-push` and `%wind-pop` only. -/
def windHost : Host Unit where
  kind _ := .data
  apply name args :=
    if name = "%wind-push" then primWindPush args
    else if name = "%wind-pop" then primWindPop args
    else internalError "no such primitive"
  readForms _ := return []
  testMode _ := false
  reportTest _ _ := return ()

theorem winding_windHost : windHost.Winding where
  ordinary _ := rfl
  push := rfl
  pop := rfl
  others name hpush hpop args s := by
    unfold windHost
    dsimp only
    rw [if_neg hpush, if_neg hpop]
    exact ⟨rfl, rfl⟩

/-- An entry is pushed, and a continuation is called that was captured before. -/
def windCode : Code :=
  [.ldc .nil, .ldc (.bool true), .ldc (.prim "%wind-push"), .app 2, .ldc .nil, .ldc (.cont 0),
    .app 1, .stop]

/-- A machine at the first instruction of it. -/
def windVM : VM := ⟨[], [], none, none, windCode, 0, 0, 0⟩

/-- A world with the continuation. -/
def windWorld : World Unit :=
  { pairsWorld [] with conts := [⟨[], [], [], windCode, 7, none, 0, 0⟩] }

theorem rooted_windWorld : windWorld.walker.Rooted WindEntry.id := by
  have hempty : ∀ p ∈ windWorld.walker.path :: windWorld.walker.saved, p = [] := by decide
  constructor
  · intro p hp a ha
    rw [hempty p hp] at ha
    cases ha
  · intro p hp q _ u v s t a b hu
    rw [hempty p hp] at hu
    exact absurd hu.symm (List.append_ne_nil_of_right_ne_nil _ (List.cons_ne_nil _ _))

theorem winds_balance_windWorld : ∃ vm' w',
    Stepping.Steps (turnFrom windHost) 7 (windVM, windWorld) (vm', w') ∧
      windLog windHost 7 (windVM, windWorld) =
        [.enter ⟨.nil, .bool true, 0⟩, .leave ⟨.nil, .bool true, 0⟩] ∧
      w'.walker.Rooted WindEntry.id ∧
      Walk [] (windLog windHost 7 (windVM, windWorld)) w'.data.winds ∧
      (∀ id, (windLog windHost 7 (windVM, windWorld)).countP (Move.enters WindEntry.id id) + 0 =
        (windLog windHost 7 (windVM, windWorld)).countP (Move.leaves WindEntry.id id) + 0) ∧
      ∀ k ∈ w'.conts, w'.Rewinds k := by
  have hrun : ∃ vm' w', Stepping.Steps (turnFrom windHost) 7 (windVM, windWorld) (vm', w') ∧
      w'.data.winds = [] :=
    ⟨_, _, .step rfl (.step rfl (.step rfl (.step rfl (.step rfl (.step rfl (.one rfl)))))), rfl⟩
  obtain ⟨vm', w', hsteps, hwinds⟩ := hrun
  obtain ⟨hrooted, hwalk, hcount, hrewinds⟩ :=
    winds_balance winding_windHost rooted_windWorld hsteps
  refine ⟨vm', w', hsteps, rfl, hrooted, hwalk, fun id => ?_, hrewinds⟩
  have hid := hcount id
  rw [hwinds] at hid
  exact hid

end Scheme14
