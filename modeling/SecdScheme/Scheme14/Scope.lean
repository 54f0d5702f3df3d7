import SecdScheme.Scheme14.Machine
import SecdScheme.Lib.CmdGhost

/-!
# scheme14: a name in scope is no global variable

The code of an expression neither reads nor sets a global variable whose name
is in the scope that the expression is compiled in, however deep the
instruction is in closures and branches: such a name is always found among
the local variables first.
-/

namespace Scheme14

open Cmd (Returns)

variable {X : Type}

/-! ## The instructions of some code -/

mutual

/-- An instruction, and those of its branches or its body. -/
def Instr.all : Instr → List Instr
  | .ldf params rest body b => .ldf params rest body b :: instrs body
  | .sel ct cf => .sel ct cf :: (branchInstrs ct ++ branchInstrs cf)
  | .selr ct cf => .selr ct cf :: (branchInstrs ct ++ branchInstrs cf)
  | i => [i]

/-- **The instructions of some code**, at any depth. -/
def instrs : List Instr → List Instr
  | [] => []
  | i :: c => i.all ++ instrs c

/-- Those of a branch. -/
def branchInstrs : Option (List Instr) → List Instr
  | none => []
  | some c => instrs c

end

/-- The instructions of two parts. -/
theorem instrs_append (c c' : Code) : instrs (c ++ c') = instrs c ++ instrs c' := by
  induction c with
  | nil => rfl
  | cons i c ih =>
    show i.all ++ instrs (c ++ c') = i.all ++ instrs c ++ instrs c'
    rw [ih, List.append_assoc]

/-- **Code that hides names**: it neither reads nor sets a global variable of
one of them. -/
def Hides (names : List String) (c : Code) : Prop :=
  ∀ x : Cell, x.name ∈ names → .ldg x ∉ instrs c ∧ .gset x ∉ instrs c

variable {names names' : List String} {c c' : Code}

/-- Fewer names are hidden as well. -/
theorem Hides.mono (h : Hides names c) (hsub : names' ⊆ names) : Hides names' c :=
  fun x hx => h x (hsub hx)

/-- Code hides names, where both its parts do. -/
theorem hides_append : Hides names (c ++ c') ↔ Hides names c ∧ Hides names c' := by
  refine ⟨fun h => ⟨fun x hx => ?_, fun x hx => ?_⟩, fun h x hx => ?_⟩
  · have := h x hx
    rw [instrs_append, List.mem_append, List.mem_append, not_or, not_or] at this
    exact ⟨this.1.1, this.2.1⟩
  · have := h x hx
    rw [instrs_append, List.mem_append, List.mem_append, not_or, not_or] at this
    exact ⟨this.1.2, this.2.2⟩
  · rw [instrs_append, List.mem_append, List.mem_append, not_or, not_or]
    exact ⟨⟨(h.1 x hx).1, (h.2 x hx).1⟩, (h.1 x hx).2, (h.2 x hx).2⟩

theorem hides_nil : Hides names [] := fun _ _ => ⟨List.not_mem_nil, List.not_mem_nil⟩

/-- So does code that was put together. -/
theorem hides_flatten {cs : List Code} (h : ∀ c ∈ cs, Hides names c) : Hides names cs.flatten := by
  induction cs with
  | nil => exact hides_nil
  | cons c cs ih =>
    rw [List.flatten_cons, hides_append]
    exact ⟨h c List.mem_cons_self, ih fun c' hc' => h c' (List.mem_cons_of_mem c hc')⟩

/-- An instruction that names no global variable of its own. -/
def Instr.IsPlain : Instr → Prop
  | .ldg _ | .gset _ | .ldf .. | .sel .. | .selr .. => False
  | _ => True

/-- An instruction without a cell hides any. -/
theorem hides_plain {i : Instr} (h : i.IsPlain) : Hides names [i] := by
  intro x _
  have hall : instrs [i] = [i] := by
    cases i <;> first | rfl | exact h.elim
  rw [hall, List.mem_singleton, List.mem_singleton]
  constructor <;> rintro rfl <;> exact h

/-- A procedure hides what its body hides. -/
theorem hides_ldf {params : List String} {rest : Option String} {body : Code} {b : Bool} :
    Hides names [.ldf params rest body b] ↔ Hides names body := by
  refine forall₂_congr fun x _ => ?_
  show _ ∉ Instr.ldf params rest body b :: instrs body ++ [] ∧
    _ ∉ Instr.ldf params rest body b :: instrs body ++ [] ↔ _
  rw [List.append_nil, List.mem_cons, List.mem_cons, not_or, not_or]
  exact ⟨fun h => ⟨h.1.2, h.2.2⟩, fun h => ⟨⟨nofun, h.1⟩, nofun, h.2⟩⟩

theorem hides_sel {ct cf : Code} (ht : Hides names ct) (hf : Hides names cf) :
    Hides names [.sel (some ct) (some cf)] := by
  intro x hx
  show _ ∉ Instr.sel (some ct) (some cf) :: (instrs ct ++ instrs cf) ++ [] ∧
    _ ∉ Instr.sel (some ct) (some cf) :: (instrs ct ++ instrs cf) ++ []
  rw [List.append_nil, List.mem_cons, List.mem_cons, ← instrs_append]
  have := hides_append.mpr ⟨ht, hf⟩ x hx
  exact ⟨not_or.mpr ⟨nofun, this.1⟩, not_or.mpr ⟨nofun, this.2⟩⟩

theorem hides_selr {ct cf : Code} (ht : Hides names ct) (hf : Hides names cf) :
    Hides names [.selr (some ct) (some cf)] := by
  intro x hx
  show _ ∉ Instr.selr (some ct) (some cf) :: (instrs ct ++ instrs cf) ++ [] ∧
    _ ∉ Instr.selr (some ct) (some cf) :: (instrs ct ++ instrs cf) ++ []
  rw [List.append_nil, List.mem_cons, List.mem_cons, ← instrs_append]
  have := hides_append.mpr ⟨ht, hf⟩ x hx
  exact ⟨not_or.mpr ⟨nofun, this.1⟩, not_or.mpr ⟨nofun, this.2⟩⟩

/-- An instruction before the rest. -/
theorem hides_cons {i : Instr} : Hides names (i :: c) ↔ Hides names [i] ∧ Hides names c :=
  hides_append (c := [i])

/-- A mark is no cell. -/
theorem hides_markLast : ∀ {c : Code}, Hides names c → Hides names (markLast c)
  | [], h => h
  | [i], h => by
    cases i with
    | ldf params rest body b => exact hides_ldf.mpr (hides_ldf.mp h)
    | _ => exact h
  | i :: j :: c, h => by
    rw [show markLast (i :: j :: c) = i :: markLast (j :: c) by cases i <;> rfl]
    obtain ⟨hi, hrest⟩ := hides_cons.mp h
    exact hides_cons.mpr ⟨hi, hides_markLast hrest⟩

/-! ## The compiler -/

/-- A name that is not found is not in scope. -/
theorem not_mem_of_locationOf_eq_none {name : String} : ∀ {env : CompileEnv},
    locationOf name env = none → name ∉ env.flatten
  | [], _ => List.not_mem_nil
  | frame :: env, h => by
    unfold locationOf at h
    split at h
    · cases h
    · rename_i hframe
      rw [List.flatten_cons, List.mem_append, not_or]
      refine ⟨fun hmem => ?_, not_mem_of_locationOf_eq_none (Option.map_eq_none_iff.mp h)⟩
      have := List.findIdx?_eq_none_iff.mp hframe name hmem
      rw [beq_self_eq_true] at this
      cases this

/-- **What is asked of the next level**: code hides the names in scope. -/
def Self.Scoped (next : Self X) : Prop :=
  ∀ expr env tail, Returns (next.comp expr env tail) (Hides env.flatten)

variable {self : Self X} {env : CompileEnv} {tail : Bool}

theorem returns_compileGlobal (name : String) :
    Returns (compileGlobal name : SchemeM X Cell) (fun x => x.name = name) :=
  .after fun _ => .pure rfl

/-- A global variable that is not in scope. -/
theorem hides_global {i : Instr} {x : Cell} (hx : x.name ∉ names)
    (hall : i.all = [i]) (hi : i = .ldg x ∨ i = .gset x) : Hides names [i] := by
  intro y hy
  have hne : y ≠ x := by
    rintro rfl
    exact hx hy
  show _ ∉ i.all ++ [] ∧ _ ∉ i.all ++ []
  rw [List.append_nil, hall, List.mem_singleton, List.mem_singleton]
  obtain rfl | rfl := hi
  · exact ⟨fun h => hne (Instr.ldg.inj h), nofun⟩
  · exact ⟨nofun, fun h => hne (Instr.gset.inj h)⟩

/-- **A variable is local or of another name.** -/
theorem hides_compVar (name : String) : Returns (compVar name env : SchemeM X Code)
    (Hides env.flatten) := by
  unfold compVar
  split
  · exact .after fun _ => .after fun _ => .pure (hides_plain trivial)
  · rename_i hloc
    refine (returns_compileGlobal name).bind fun x hx => .pure ?_
    subst hx
    exact hides_global (not_mem_of_locationOf_eq_none hloc) rfl (.inl rfl)

/-- Arguments hide the names around them. -/
theorem hides_compEach (hself : self.Scoped) : ∀ xs : List Value,
    Returns (Cmd.mapList (fun x => self.comp x env false) xs)
      (fun cs => ∀ c ∈ cs, Hides env.flatten c)
  | [] => .pure nofun
  | x :: xs => by
    unfold Cmd.mapList
    refine (hself x env false).bind fun c hc => (hides_compEach hself xs).bind fun cs hcs => ?_
    refine .pure fun c' hc' => ?_
    cases hc' with
    | head => exact hc
    | tail _ hc' => exact hcs c' hc'

theorem hides_compArgs (hself : self.Scoped) (xs : List Value) :
    Returns (compArgs self xs env) (Hides env.flatten) :=
  (hides_compEach hself xs).bind fun _ hcs => .pure (hides_flatten hcs)

/-- So do the forms of a sequence. -/
theorem hides_compForms (hself : self.Scoped) : ∀ es : List Value,
    Returns (compForms self env tail es) (Hides env.flatten)
  | [] => .pure (hides_plain trivial)
  | [e] => hself e env tail
  | e :: e' :: es => by
    unfold compForms
    refine (hself e env false).bind fun c hc => ?_
    refine (hides_compForms hself (e' :: es)).bind fun cs hcs => .pure ?_
    exact hides_append.mpr ⟨hc, hides_cons.mpr ⟨hides_plain trivial, hcs⟩⟩

theorem hides_compBody (hself : self.Scoped) (body : Value) :
    Returns (compBody self body env tail) (Hides env.flatten) :=
  .after fun es => hides_compForms hself es

/-- The scope of a body is larger. -/
theorem hides_compileLambda (hself : self.Scoped) (params body : Value) :
    Returns (compileLambda self params body env) (fun i => Hides env.flatten [i]) := by
  unfold compileLambda
  refine .after fun ps => ?_
  split
  · exact fun _ _ _ h => nomatch h
  · refine .after fun body' => (hides_compBody hself body').bind fun code hcode => .pure ?_
    refine hides_ldf.mpr (hides_append.mpr ⟨?_, hides_plain trivial⟩)
    refine hcode.mono ?_
    rw [List.flatten_cons]
    exact List.subset_append_right _ _

theorem hides_compIf (hself : self.Scoped) (rest : Value) :
    Returns (compIf self rest env tail) (Hides env.flatten) := by
  unfold compIf
  dsimp only
  refine .after fun _ => .after fun test => .after fun _ => .after fun thenE => .after fun _ => ?_
  have hbranches : ∀ elseE, Returns (do
      let code ← self.comp test env false
      let ct ← self.comp thenE env tail
      let cf ← self.comp elseE env tail
      if tail then return code ++ [.selr (some (ct ++ [.rtn])) (some (cf ++ [.rtn]))]
      else return code ++ [.sel (some (ct ++ [.join])) (some (cf ++ [.join]))])
      (Hides env.flatten) := by
    intro elseE
    refine (hself test env false).bind fun code hcode => ?_
    refine (hself thenE env tail).bind fun ct hct => (hself elseE env tail).bind fun cf hcf => ?_
    refine .ite (.pure (hides_append.mpr ⟨hcode, ?_⟩)) (.pure (hides_append.mpr ⟨hcode, ?_⟩))
    · exact hides_selr (hides_append.mpr ⟨hct, hides_plain trivial⟩)
        (hides_append.mpr ⟨hcf, hides_plain trivial⟩)
    · exact hides_sel (hides_append.mpr ⟨hct, hides_plain trivial⟩)
        (hides_append.mpr ⟨hcf, hides_plain trivial⟩)
  exact .ite (.after hbranches) (.after hbranches)

/-- A definition names its variable in an instruction of its own. -/
theorem hides_compDefine (hself : self.Scoped) (isMacro : Bool) (rest : Value) :
    Returns (compDefine self isMacro rest env) (Hides env.flatten) := by
  unfold compDefine
  dsimp only
  have herror : ∀ {β : Type} (form : String) (what : Message),
      Returns (onData (syntaxError form what) : SchemeM X β) (fun _ => False) :=
    fun form what _ _ _ h => nomatch h
  have hrest : ∀ (name : String) (code : Code), Hides env.flatten code → Returns (do
      let x ← compileGlobal name
      return code ++ [if isMacro then .defm x else .defG x] : SchemeM X Code)
      (Hides env.flatten) := by
    intro name code hcode
    refine .after fun x => .pure (hides_append.mpr ⟨hcode, hides_plain ?_⟩)
    cases isMacro <;> trivial
  refine .after fun _ => .ite (.stop (herror _ _)) (.after fun _ => .after fun p => ?_)
  obtain ⟨lhs, rhsTail⟩ := p
  dsimp only
  split
  · rename_i name
    refine .ite (.stop (herror _ _)) (.after fun more => .ite (.stop (herror _ _)) ?_)
    exact .after fun e => (hself e env false).bind fun code hcode => hrest name code hcode
  · refine .after fun q => ?_
    obtain ⟨f, params⟩ := q
    dsimp only
    split
    · rename_i name
      exact (hides_compileLambda hself params rhsTail).bind fun i hi => hrest name [i] hi
    · exact .stop (herror _ _)
  · exact .stop (herror _ _)

theorem hides_compSet (hself : self.Scoped) (rest : Value) :
    Returns (compSet self rest env) (Hides env.flatten) := by
  unfold compSet
  refine .after fun _ => .after fun target => ?_
  split
  · rename_i name
    refine .after fun e => (hself e env false).bind fun code hcode => ?_
    split
    · exact .after fun _ => .after fun _ => .pure (hides_append.mpr ⟨hcode, hides_plain trivial⟩)
    · rename_i hloc
      have hset : Returns (do return code ++ [.gset (← compileGlobal name)] : SchemeM X Code)
          (Hides env.flatten) := by
        refine (returns_compileGlobal name).bind fun x hx => .pure (hides_append.mpr ⟨hcode, ?_⟩)
        subst hx
        exact hides_global (not_mem_of_locationOf_eq_none hloc) rfl (.inr rfl)
      exact .after fun _ => .ite (.after fun _ => hset) hset
  · exact fun _ _ _ h => nomatch h

theorem hides_compApply (hself : self.Scoped) (rest : Value) :
    Returns (compApply self rest env tail) (Hides env.flatten) := by
  unfold compApply
  refine .after fun _ => .after fun fxs => ?_
  split
  · exact .fail
  · refine (hides_compArgs hself _).bind fun args hargs => .after fun n => ?_
    refine (hself _ env false).bind fun code hcode => .pure ?_
    refine hides_append.mpr ⟨hides_append.mpr ⟨hargs, hides_cons.mpr ⟨hides_plain trivial, hcode⟩⟩,
      hides_plain ?_⟩
    cases tail <;> trivial

/-- So does a call. -/
theorem hides_compCall (hself : self.Scoped) (head rest : Value) :
    Returns (compCall self head rest env tail) (Hides env.flatten) := by
  unfold compCall
  refine .after fun xs => (hides_compArgs hself xs).bind fun args hargs => ?_
  refine (hself head env false).bind fun code hcode => .after fun n => .pure ?_
  refine hides_append.mpr ⟨hides_append.mpr ⟨hargs, hides_markLast hcode⟩, hides_plain ?_⟩
  cases tail <;> trivial

/-- **So does every special form.** -/
theorem hides_compSpecial (hself : self.Scoped) (expr rest : Value) (word : Keyword) :
    Returns (compSpecial self expr rest env tail word) (Hides env.flatten) := by
  cases word with
  | quote => exact .after fun _ => .after fun _ => .pure (hides_plain trivial)
  | traceSwitch => exact .pure (hides_plain trivial)
  | derived d => exact .after fun e => hself e env tail
  | ifK => exact hides_compIf hself rest
  | begin => exact hides_compBody hself rest
  | lambda =>
    exact .after fun _ => .after fun p =>
      (hides_compileLambda hself p.1 p.2).bind fun _ hi => .pure hi
  | define isMacro => exact hides_compDefine hself isMacro rest
  | set => exact hides_compSet hself rest
  | callcc word =>
    refine .after fun _ => .after fun e => (hself e env false).bind fun code hcode => ?_
    refine .pure (hides_append.mpr ⟨hcode, hides_plain ?_⟩)
    cases tail <;> trivial
  | apply => exact hides_compApply hself rest

/-- So does any form. -/
theorem hides_compStep (hself : self.Scoped) (expr : Value) :
    Returns (compStep self expr env tail) (Hides env.flatten) := by
  unfold compStep
  refine .ite (.pure (hides_plain trivial)) ?_
  split
  · exact hides_compVar _
  · refine .after fun p => ?_
    obtain ⟨head, rest⟩ := p
    dsimp only
    split
    · exact hides_compSpecial hself _ rest _
    · refine .after fun expanded => ?_
      exact .ite (hself expanded env tail) (hides_compCall hself head rest)
  · exact .pure (hides_plain trivial)

/-- **Code hides the names in scope.** -/
theorem machine_scoped (host : Host X) : ∀ n, (machine host n).Scoped
  | 0 => fun _ _ _ => .fail
  | n + 1 => fun expr _ _ => hides_compStep (machine_scoped host n) expr

end Scheme14
