import SecdScheme.Scheme14.Calls

/-!
# scheme14: calls that are the last thing

How a code vector ends says whose dump entry it leaves: it returns from the
call that entered it, joins the code around, or stops the machine. A tail call
is only in code that returns. The other way round, an instruction that leaves
an entry on the dump is never right before the return, so that no call that
is the last thing a body does is an ordinary one. Here how many operands there
are does not matter.
-/

namespace Scheme14

/-- How code ends. -/
inductive Ending where
  | rtn
  | join
  | stop

/-- The instructions after which the next one comes. -/
def Instr.Plain : Instr → Prop
  | .ld _ _ | .ldc _ | .ldg _ | .argsAp _ | .pop | .defG _ | .defm _ | .lset _ _ | .gset _ => True
  | _ => False

/-- Code that returns at once. -/
def Returning (c : Code) : Prop := c.head? = some .rtn

/-- **Code that ends as it should.** What follows RTN, SELR, JOIN and STOP is
never reached, and what follows a call, or a SEL, does not return at once. -/
inductive Ends : Ending → Code → Prop
  | nil {e} : Ends e []
  | plain {e i c} : i.Plain → Ends e c → Ends e (i :: c)
  | ldf {e params rest body b c} : Ends .rtn body → Ends e c →
      Ends e (.ldf params rest body b :: c)
  | call {e i c} : i.callMode = some false → ¬ Returning c → Ends e c → Ends e (i :: c)
  | tail {i c} : i.callMode = some true → Ends .rtn c → Ends .rtn (i :: c)
  | rtn {c} : Ends .rtn (.rtn :: c)
  | sel {e ct cf c} : Ends .join ct → Ends .join cf → ¬ Returning c → Ends e c →
      Ends e (.sel (some ct) (some cf) :: c)
  | selr {ct cf c} : Ends .rtn ct → Ends .rtn cf → Ends .rtn (.selr (some ct) (some cf) :: c)
  | join {c} : Ends .join (.join :: c)
  | stop {c} : Ends .stop (.stop :: c)

theorem not_returning_nil : ¬ Returning [] := nofun

theorem not_returning_cons {i : Instr} {c : Code} (h : i ≠ .rtn) : ¬ Returning (i :: c) :=
  fun hi => h (Option.some.inj hi)

/-- Only code that joins the code around has a JOIN. -/
theorem Ends.eq_join {e : Ending} {c : Code} (h : Ends e (.join :: c)) : e = .join := by
  cases h with
  | plain hi _ => exact hi.elim
  | call hi _ _ => cases hi
  | tail hi _ => cases hi
  | join => rfl

/-- What follows an instruction may be replaced by code that begins alike. -/
theorem Ends.replace {e : Ending} {i : Instr} {c c' : Code} (h : Ends e (i :: c))
    (hc : ∀ {e}, Ends e c → Ends e c') (hr : Returning c' → Returning c) : Ends e (i :: c') := by
  cases h with
  | plain hi h => exact .plain hi (hc h)
  | ldf hbody h => exact .ldf hbody (hc h)
  | call hi hne h => exact .call hi (fun hr' => hne (hr hr')) (hc h)
  | tail hi h => exact .tail hi (hc h)
  | rtn => exact .rtn
  | sel ht hf hne h => exact .sel ht hf (fun hr' => hne (hr hr')) (hc h)
  | selr ht hf => exact .selr ht hf
  | join => exact .join
  | stop => exact .stop

theorem head?_markLast : ∀ (c rest : Code), Returning (markLast c ++ rest) → Returning (c ++ rest)
  | [], _, h => h
  | [i], rest, h => by
    cases i with
    | ldf params r body b => cases Option.some.inj h
    | _ => exact h
  | i :: j :: c, rest, h => by
    rw [show markLast (i :: j :: c) = i :: markLast (j :: c) by cases i <;> rfl] at h
    exact h

/-- The mark for the scratch closure makes no difference. -/
theorem Ends.markLast {rest : Code} : ∀ {c : Code} {e : Ending},
    Ends e (c ++ rest) → Ends e (markLast c ++ rest)
  | [], _, h => h
  | [i], e, h => by
    cases i with
    | ldf params r body b =>
      cases h with
      | plain hi _ => exact hi.elim
      | ldf hbody h => exact .ldf hbody h
      | call hi _ _ => cases hi
      | tail hi _ => cases hi
    | _ => exact h
  | i :: j :: c, e, h => by
    rw [show Scheme14.markLast (i :: j :: c) = i :: Scheme14.markLast (j :: c) by cases i <;> rfl]
    exact Ends.replace (c := j :: c ++ rest) h Ends.markLast (head?_markLast (j :: c) rest)

/-! ## What the compiler emits -/

/-- **Code that leaves one value**, before anything that goes on with it. In
tail position it is put where the code is to return, and else never right
before the return. -/
structure EmitsTail (tail : Bool) (c : Code) : Prop where
  starts : ∃ i c', c = i :: c' ∧ i ≠ .rtn
  ends : ∀ ⦃e rest⦄, (tail = true → e = .rtn) → (tail = false → ¬ Returning rest) →
    Ends e rest → Ends e (c ++ rest)

theorem EmitsTail.not_returning {tail : Bool} {c : Code} (h : EmitsTail tail c) (rest : Code) :
    ¬ Returning (c ++ rest) := by
  obtain ⟨i, c', rfl, hi⟩ := h.starts
  exact not_returning_cons hi

/-- An instruction after which the next one comes. -/
theorem EmitsTail.one {tail : Bool} {i : Instr} (hi : i.Plain) : EmitsTail tail [i] := by
  refine ⟨⟨i, [], rfl, fun h => ?_⟩, fun e rest _ _ hrest => .plain hi hrest⟩
  rw [h] at hi
  exact hi

/-- Code for a value, and then an instruction. -/
theorem EmitsTail.append {tail : Bool} {c : Code} {i : Instr} (hc : EmitsTail false c)
    (hne : i ≠ .rtn) (hi : ∀ {e rest}, (tail = true → e = .rtn) →
      (tail = false → ¬ Returning rest) → Ends e rest → Ends e (i :: rest)) :
    EmitsTail tail (c ++ [i]) := by
  obtain ⟨j, c', rfl, hj⟩ := hc.starts
  refine ⟨⟨j, c' ++ [i], rfl, hj⟩, fun e rest he hr hrest => ?_⟩
  rw [List.append_assoc]
  exact hc.ends nofun (fun _ => not_returning_cons hne) (hi he hr hrest)

/-- A call, or a tail call, of what has been compiled. -/
theorem EmitsTail.called {tail : Bool} {c : Code} {i j : Instr} (hc : EmitsTail false c)
    (hi : i.callMode = some true) (hj : j.callMode = some false) :
    EmitsTail tail (c ++ [if tail then i else j]) := by
  have hne : ∀ {k : Instr} {b : Bool}, k.callMode = some b → k ≠ .rtn := by
    rintro k b hk rfl
    cases hk
  cases tail with
  | true =>
    refine hc.append (hne hi) fun he _ hrest => ?_
    obtain rfl := he rfl
    exact .tail hi hrest
  | false => exact hc.append (hne hj) fun _ hr hrest => .call hj (hr rfl) hrest

/-- Code for values, one after the other. -/
def EmitsAll (c : Code) : Prop :=
  ∀ ⦃e rest⦄, ¬ Returning rest → Ends e rest → ¬ Returning (c ++ rest) ∧ Ends e (c ++ rest)

theorem EmitsAll.nil : EmitsAll [] := fun _ _ hr hrest => ⟨hr, hrest⟩

theorem EmitsAll.cons {c c' : Code} (hc : EmitsTail false c) (hc' : EmitsAll c') :
    EmitsAll (c ++ c') := by
  intro e rest hr hrest
  obtain ⟨hr', hends⟩ := hc' hr hrest
  rw [List.append_assoc]
  exact ⟨hc.not_returning _, hc.ends nofun (fun _ => hr') hends⟩

/-- Values, and then code that uses them. -/
theorem EmitsAll.before {tail : Bool} {c c' : Code} (hc : EmitsAll c) (hc' : EmitsTail tail c') :
    EmitsTail tail (c ++ c') := by
  constructor
  · obtain ⟨i, d, rfl, hi⟩ := hc'.starts
    cases c with
    | nil => exact ⟨i, d, rfl, hi⟩
    | cons j c =>
      refine ⟨j, c ++ i :: d, rfl, ?_⟩
      rintro rfl
      exact (hc (e := .rtn) not_returning_nil .nil).1 rfl
  · intro e rest he hr hrest
    rw [List.append_assoc]
    exact (hc (hc'.not_returning rest) (hc'.ends he hr hrest)).2

theorem EmitsTail.ofNonTail {c : Code} (h : EmitsTail false c) {i : Instr} (hi : i.Plain)
    (tail : Bool) : EmitsTail tail (c ++ [i]) := by
  refine h.append (fun hr => ?_) fun _ _ hrest => .plain hi hrest
  rw [hr] at hi
  exact hi

/-- An instruction that makes a closure. -/
theorem EmitsTail.ldf {tail : Bool} {params : List String} {rest : Option String} {code : Code}
    (h : EmitsTail true code) : EmitsTail tail [.ldf params rest (code ++ [.rtn]) false] := by
  refine ⟨⟨_, [], rfl, nofun⟩, fun e r _ _ hr => .ldf ?_ hr⟩
  exact h.ends (fun _ => rfl) nofun .rtn

end Scheme14
