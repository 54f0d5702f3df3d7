import SecdScheme.Scheme14.Machine

/-!
# scheme14: what code may do

Two things are said of a code vector. It is *within* a table when all the
cells it names, in its branches and in the bodies of its closures too, are
cells of the table; the instructions that change a cell are within the table
of the interaction environment only. And it is *well formed*, for the number of operands there
are, the sizes of the frames around and the way it is to finish, when no
instruction of it can miss an operand, a variable, a branch or what comes
next. How code finishes says whose dump entry is on top.
-/

namespace Scheme14

/-! ## Tables -/

mutual

/-- The cells of an instruction are cells of a table. -/
def Instr.Within (t : Table) : Instr → Prop
  | .ldg x => x.table = t
  | .ldf _ _ body _ => Within t body
  | .sel ct cf => BranchWithin t ct ∧ BranchWithin t cf
  | .selr ct cf => BranchWithin t ct ∧ BranchWithin t cf
  | .defG x => x.table = t ∧ t = .interaction
  | .defm x => x.table = t ∧ t = .interaction
  | .gset x => x.table = t ∧ t = .interaction
  | _ => True

/-- **The cells of a code vector are cells of a table.** -/
def Within (t : Table) : List Instr → Prop
  | [] => True
  | i :: c => i.Within t ∧ Within t c

/-- The same of a branch. -/
def BranchWithin (t : Table) : Option (List Instr) → Prop
  | none => True
  | some c => Within t c

end

/-- All cells of a code vector are of one table. -/
def OneTable (c : Code) : Prop := ∃ t, Within t c

theorem within_append {t : Table} {c c' : Code} :
    Within t (c ++ c') ↔ Within t c ∧ Within t c' := by
  induction c with
  | nil => exact ⟨fun h => ⟨trivial, h⟩, fun h => h.2⟩
  | cons i c ih =>
    show i.Within t ∧ Within t (c ++ c') ↔ (i.Within t ∧ Within t c) ∧ Within t c'
    rw [ih, and_assoc]

theorem within_of_getElem? {t : Table} {code : Code} {n : ℕ} {i : Instr} (h : Within t code)
    (hi : code[n]? = some i) : i.Within t := by
  induction code generalizing n with
  | nil => cases hi
  | cons j code ih =>
    cases n with
    | zero =>
      obtain rfl : j = i := Option.some.inj hi
      exact h.1
    | succ n => exact ih h.2 hi

theorem within_flatten {t : Table} {cs : List Code} (h : ∀ c ∈ cs, Within t c) :
    Within t cs.flatten := by
  induction cs with
  | nil => trivial
  | cons c cs ih =>
    rw [List.flatten_cons, within_append]
    exact ⟨h c List.mem_cons_self, ih fun c' hc' => h c' (List.mem_cons_of_mem c hc')⟩

theorem within_markLast {t : Table} : ∀ {c : Code}, Within t c → Within t (markLast c)
  | [], h => h
  | [i], h => by
    cases i <;> exact h
  | i :: j :: c, h => by
    rw [show markLast (i :: j :: c) = i :: markLast (j :: c) by cases i <;> rfl]
    exact ⟨h.1, within_markLast h.2⟩

/-! ## Well-formed code -/

/-- How code finishes: it returns from a call, joins the code around with so
many operands, or stops the machine. -/
inductive Finish where
  | rtn
  | join (k : ℕ)
  | stop

/-- **Well-formed code.** The list has the sizes of the frames, the number is
that of the operands above `base`. A call has its arguments and its callee on
the stack and leaves one value; a tail call may also be the last thing that is
done, so that it is only where the code is to return. What follows RTN, JOIN,
SELR or STOP is never reached. The last rule is for the code that takes the
machine to another wind list, which ends in the call of a continuation. -/
inductive CodeOk : Finish → List ℕ → ℕ → Code → Prop
  | ld {e Γ k n a b c} : Γ[a]? = some n → b < n → CodeOk e Γ (k + 1) c →
      CodeOk e Γ k (.ld a b :: c)
  | ldc {e Γ k v c} : CodeOk e Γ (k + 1) c → CodeOk e Γ k (.ldc v :: c)
  | ldg {e Γ k x c} : CodeOk e Γ (k + 1) c → CodeOk e Γ k (.ldg x :: c)
  | ldf {e Γ k params rest body b c} :
      CodeOk .rtn ((params.length + rest.toList.length) :: Γ) 0 body → CodeOk e Γ (k + 1) c →
      CodeOk e Γ k (.ldf params rest body b :: c)
  | app {e Γ k n c} : CodeOk e Γ (k + 1) c → CodeOk e Γ (k + n + 1) (.app n :: c)
  | tapp {Γ k n c} : CodeOk .rtn Γ (k + 1) c → CodeOk .rtn Γ (k + n + 1) (.tapp n :: c)
  | argsAp {e Γ k n c} : CodeOk e Γ (k + 1) c → CodeOk e Γ (k + n + 1) (.argsAp (n + 1) :: c)
  | apply {e Γ k c} : CodeOk e Γ (k + 1) c → CodeOk e Γ (k + 2) (.apply :: c)
  | tapply {Γ k c} : CodeOk .rtn Γ (k + 1) c → CodeOk .rtn Γ (k + 2) (.tapply :: c)
  | rtn {Γ k c} : CodeOk .rtn Γ (k + 1) (.rtn :: c)
  | sel {e Γ k ct cf c} : CodeOk (.join (k + 1)) Γ k ct → CodeOk (.join (k + 1)) Γ k cf →
      CodeOk e Γ (k + 1) c → CodeOk e Γ (k + 1) (.sel (some ct) (some cf) :: c)
  | selr {Γ k ct cf c} : CodeOk .rtn Γ k ct → CodeOk .rtn Γ k cf →
      CodeOk .rtn Γ (k + 1) (.selr (some ct) (some cf) :: c)
  | join {Γ k c} : CodeOk (.join k) Γ k (.join :: c)
  | pop {e Γ k c} : CodeOk e Γ k c → CodeOk e Γ (k + 1) (.pop :: c)
  | defG {e Γ k x c} : CodeOk e Γ (k + 1) c → CodeOk e Γ (k + 1) (.defG x :: c)
  | defm {e Γ k x c} : CodeOk e Γ (k + 1) c → CodeOk e Γ (k + 1) (.defm x :: c)
  | lset {e Γ k n a b c} : Γ[a]? = some n → b < n → CodeOk e Γ (k + 1) c →
      CodeOk e Γ (k + 1) (.lset a b :: c)
  | gset {e Γ k x c} : CodeOk e Γ (k + 1) c → CodeOk e Γ (k + 1) (.gset x :: c)
  | callcc {e Γ k c} : CodeOk e Γ (k + 1) c → CodeOk e Γ (k + 1) (.callcc :: c)
  | tcallcc {Γ k c} : CodeOk .rtn Γ (k + 1) c → CodeOk .rtn Γ (k + 1) (.tcallcc :: c)
  | stop {Γ k c} : CodeOk .stop Γ (k + 1) (.stop :: c)
  | jump {e Γ k a} : CodeOk e Γ (k + 1) [.ldc (.cont a), .app 1]

/-- Well-formed code has an instruction to run. -/
theorem CodeOk.ne_nil {e : Finish} {Γ : List ℕ} {k : ℕ} {c : Code} (h : CodeOk e Γ k c) :
    c ≠ [] := by
  cases h <;> exact List.cons_ne_nil _ _

/-- What follows an instruction may be replaced. -/
theorem CodeOk.replace {e : Finish} {Γ : List ℕ} {k : ℕ} {i : Instr} {c c' : Code}
    (h : CodeOk e Γ k (i :: c)) (hc : ∀ {e Γ k}, CodeOk e Γ k c → CodeOk e Γ k c')
    (hjump : c = [.app 1] → c' = [.app 1]) : CodeOk e Γ k (i :: c') := by
  cases h with
  | ld ha hb h => exact .ld ha hb (hc h)
  | ldc h => exact .ldc (hc h)
  | ldg h => exact .ldg (hc h)
  | ldf hbody h => exact .ldf hbody (hc h)
  | app h => exact .app (hc h)
  | tapp h => exact .tapp (hc h)
  | argsAp h => exact .argsAp (hc h)
  | apply h => exact .apply (hc h)
  | tapply h => exact .tapply (hc h)
  | rtn => exact .rtn
  | sel ht hf h => exact .sel ht hf (hc h)
  | selr ht hf => exact .selr ht hf
  | join => exact .join
  | pop h => exact .pop (hc h)
  | defG h => exact .defG (hc h)
  | defm h => exact .defm (hc h)
  | lset ha hb h => exact .lset ha hb (hc h)
  | gset h => exact .gset (hc h)
  | callcc h => exact .callcc (hc h)
  | tcallcc h => exact .tcallcc (hc h)
  | stop => exact .stop
  | jump => rw [hjump rfl]; exact .jump

/-- The mark for the scratch closure makes no difference. -/
theorem CodeOk.markLast {rest : Code} : ∀ {c : Code} {e : Finish} {Γ : List ℕ} {k : ℕ},
    CodeOk e Γ k (c ++ rest) → CodeOk e Γ k (markLast c ++ rest)
  | [], _, _, _, h => h
  | [i], e, Γ, k, h => by
    cases i with
    | ldf params r body b =>
      cases h with
      | ldf hbody h => exact .ldf hbody h
    | _ => exact h
  | i :: j :: c, e, Γ, k, h => by
    rw [show Scheme14.markLast (i :: j :: c) = i :: Scheme14.markLast (j :: c) by cases i <;> rfl]
    refine CodeOk.replace (c := j :: c ++ rest) h CodeOk.markLast fun heq => ?_
    -- the call of a continuation is an instruction alone
    obtain ⟨rfl, hnil⟩ := List.cons.inj heq
    obtain ⟨rfl, rfl⟩ := List.append_eq_nil_iff.mp hnil
    rfl

/-! ## What the compiler emits -/

/-- Code that leaves one value, before anything that goes on with it. In tail
position it is only put where the code is to return. -/
def Emits (Γ : List ℕ) (tail : Bool) (c : Code) : Prop :=
  ∀ ⦃e k rest⦄, (tail = true → e = .rtn) → CodeOk e Γ (k + 1) rest → CodeOk e Γ k (c ++ rest)

/-- Code that leaves so many values. -/
def EmitsMany (Γ : List ℕ) (n : ℕ) (c : Code) : Prop :=
  ∀ ⦃e k rest⦄, CodeOk e Γ (k + n) rest → CodeOk e Γ k (c ++ rest)

theorem Emits.one {Γ : List ℕ} {tail : Bool} {i : Instr}
    (h : ∀ {e k c}, (tail = true → e = .rtn) → CodeOk e Γ (k + 1) c → CodeOk e Γ k (i :: c)) :
    Emits Γ tail [i] := fun _ _ _ he hrest => h he hrest

/-- Code for a value, and then an instruction that leaves one value for it. -/
theorem Emits.append {Γ : List ℕ} {tail : Bool} {c : Code} {i : Instr} (hc : Emits Γ false c)
    (hi : ∀ {e k c}, (tail = true → e = .rtn) → CodeOk e Γ (k + 1) c →
      CodeOk e Γ (k + 1) (i :: c)) : Emits Γ tail (c ++ [i]) := by
  intro e k rest he hrest
  rw [List.append_assoc]
  exact hc nofun (hi he hrest)

theorem EmitsMany.nil {Γ : List ℕ} : EmitsMany Γ 0 [] := fun _ _ _ h => h

theorem EmitsMany.cons {Γ : List ℕ} {n : ℕ} {c c' : Code} (hc : Emits Γ false c)
    (hc' : EmitsMany Γ n c') : EmitsMany Γ (n + 1) (c ++ c') := by
  intro e k rest hrest
  rw [List.append_assoc]
  refine hc nofun (hc' ?_)
  rwa [Nat.add_assoc, Nat.add_comm 1 n]

/-- A variable of the compiler's names is in the frames of their sizes. -/
theorem locationOf_eq_some {name : String} : ∀ {env : CompileEnv} {i j : ℕ},
    locationOf name env = some (i, j) →
      ∃ n, (env.map List.length)[i]? = some n ∧ j < n
  | [], i, j, h => by cases h
  | frame :: env, i, j, h => by
    unfold locationOf at h
    cases hj : frame.findIdx? (· == name) with
    | some m =>
      rw [hj] at h
      obtain ⟨rfl, rfl⟩ := Prod.mk.inj (Option.some.inj h)
      exact ⟨frame.length, rfl, (List.findIdx?_eq_some_iff_findIdx_eq.mp hj).1⟩
    | none =>
      rw [hj] at h
      obtain ⟨⟨i', j'⟩, hloc, heq⟩ := Option.map_eq_some_iff.mp h
      obtain ⟨rfl, rfl⟩ := Prod.mk.inj heq
      have ih : ∃ n, (env.map List.length)[i']? = some n ∧ j' < n := locationOf_eq_some hloc
      exact ih

end Scheme14
