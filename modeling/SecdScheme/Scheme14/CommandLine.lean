import Mathlib.Algebra.Group.Nat.Defs
import Mathlib.Data.List.TakeWhile
import Mathlib.Tactic.Common

/-!
# scheme14: command lines of Windows

`system` puts its arguments into one command line, which the program that is
started takes apart again. A run of backslashes means something different
before a quote than elsewhere, so the encoder doubles it there, and counts it
for that in a machine word of 32 bits. The arguments arrive as they were unless
a run of an argument that is put in quotes is longer than the counter reaches,
and no string in the heap is so long.
-/

namespace Scheme14

namespace CommandLine

/-- `"\"`. -/
abbrev backslash : UInt8 := 92

/-- `"`. -/
abbrev quoteMark : UInt8 := 34

/-- The space between two arguments. -/
abbrev space : UInt8 := 32

/-! ## The encoder -/

/-- Whether `append_windows_arg` puts an argument in quotes. -/
def needsQuotes (arg : List UInt8) : Bool :=
  arg.isEmpty || arg.any fun c => c = space || c = 9 || c = 10 || c = 11 || c = quoteMark

/-- The loop of `append_windows_arg`; `n` backslashes have been counted. -/
def escapeFrom (n : UInt32) : List UInt8 → List UInt8
  | [] => List.replicate (n.toNat * 2) backslash
  | c :: rest =>
    if c = backslash then escapeFrom (n + 1) rest
    else if c = quoteMark then
      List.replicate (n.toNat * 2 + 1) backslash ++ quoteMark :: escapeFrom 0 rest
    else List.replicate n.toNat backslash ++ c :: escapeFrom 0 rest

/-- What is appended for an argument. -/
def encodeArg (arg : List UInt8) : List UInt8 :=
  if needsQuotes arg then quoteMark :: escapeFrom 0 arg ++ [quoteMark] else arg

/-- `append_windows_arg`. -/
def appendWindowsArg (cmd arg : List UInt8) : List UInt8 :=
  (if cmd.isEmpty then cmd else cmd ++ [space]) ++ encodeArg arg

/-- The command line of `system`. -/
def commandLine (args : List (List UInt8)) : List UInt8 := args.foldl appendWindowsArg []

/-! ## The rules of Windows

`blank` says which bytes are white space. -/

/-- What has been read of an argument, if anything has. -/
def pending (cur : Option (List UInt8)) (slashes : ℕ) : Option (List UInt8) :=
  if slashes = 0 then cur else some (cur.getD [] ++ List.replicate slashes backslash)

section Rules

variable (blank : UInt8 → Bool)

/-- **The arguments of a line**: inside of quotes or not, what has been read of
the argument, and the backslashes that have not been given a meaning. -/
def splitFrom (quoted : Bool) (cur : Option (List UInt8)) (slashes : ℕ) :
    List UInt8 → List (List UInt8)
  | [] => (pending cur slashes).toList
  | c :: rest =>
    if c = backslash then splitFrom quoted cur (slashes + 1) rest
    else if c = quoteMark then
      let read := cur.getD [] ++ List.replicate (slashes / 2) backslash
      if slashes % 2 = 0 then splitFrom (!quoted) (some read) 0 rest
      else splitFrom quoted (some (read ++ [quoteMark])) 0 rest
    else if blank c && !quoted then
      (pending cur slashes).toList ++ splitFrom false none 0 rest
    else splitFrom quoted (some ((pending cur slashes).getD [] ++ [c])) 0 rest

/-- The arguments of a command line, which ends at a zero byte. -/
def splitArguments (line : List UInt8) : List (List UInt8) :=
  splitFrom blank false none 0 (line.takeWhile (· ≠ 0))

/-- **What is behind the name of the program**, in which backslashes mean
nothing: it ends at the first white space outside of quotes. -/
def behindProgram (quoted : Bool) : List UInt8 → List UInt8
  | [] => []
  | c :: rest =>
    if c = quoteMark then behindProgram (!quoted) rest
    else if blank c && !quoted then rest
    else behindProgram quoted rest

/-- The arguments after the name of the program. -/
def argumentsAfterProgram (line : List UInt8) : List (List UInt8) :=
  splitFrom blank false none 0 (behindProgram blank false (line.takeWhile (· ≠ 0)))

end Rules

/-! ## What arrives -/

/-- An argument with its runs of backslashes as they are counted. -/
def countedFrom (n : UInt32) : List UInt8 → List UInt8
  | [] => List.replicate n.toNat backslash
  | c :: rest =>
    if c = backslash then countedFrom (n + 1) rest
    else List.replicate n.toNat backslash ++ c :: countedFrom 0 rest

/-- The argument that arrives. -/
def received (arg : List UInt8) : List UInt8 :=
  if needsQuotes arg then countedFrom 0 arg else arg

section Split

variable {blank : UInt8 → Bool} {quoted : Bool} {cur : Option (List UInt8)} {slashes : ℕ}

/-- Backslashes are counted. -/
theorem splitFrom_replicate (m : ℕ) (rest : List UInt8) :
    splitFrom blank quoted cur slashes (List.replicate m backslash ++ rest) =
      splitFrom blank quoted cur (slashes + m) rest := by
  induction m generalizing slashes with
  | zero => rfl
  | succ m ih =>
    show splitFrom blank quoted cur (slashes + 1) (List.replicate m backslash ++ rest) = _
    rw [ih, Nat.add_assoc, Nat.add_comm 1 m]

/-- **A quote halves them**, and counts itself where one is left. -/
theorem splitFrom_quoteMark (rest : List UInt8) :
    splitFrom blank quoted cur slashes (quoteMark :: rest) =
      if slashes % 2 = 0 then
        splitFrom blank (!quoted) (some (cur.getD [] ++ List.replicate (slashes / 2) backslash)) 0
          rest
      else
        splitFrom blank quoted
          (some (cur.getD [] ++ List.replicate (slashes / 2) backslash ++ [quoteMark])) 0 rest :=
  rfl

/-- What is kept of the backslashes before another character. -/
theorem getD_pending (cur : Option (List UInt8)) (slashes : ℕ) :
    (pending cur slashes).getD [] = cur.getD [] ++ List.replicate slashes backslash := by
  unfold pending
  split
  · rename_i h
    rw [h, List.replicate_zero, List.append_nil]
  · rfl

/-- A byte that is of the argument. -/
theorem splitFrom_other {c : UInt8} (hslash : c ≠ backslash) (hquote : c ≠ quoteMark)
    (hblank : (blank c && !quoted) = false) (rest : List UInt8) :
    splitFrom blank quoted cur slashes (c :: rest) =
      splitFrom blank quoted
        (some (cur.getD [] ++ List.replicate slashes backslash ++ [c])) 0 rest := by
  show (if c = backslash then _ else if c = quoteMark then _ else
    if (blank c && !quoted) = true then _ else _) = _
  rw [if_neg hslash, if_neg hquote, hblank, if_neg Bool.false_ne_true, getD_pending]

/-- **Inside of quotes** the encoder is undone, as far as the runs have been
counted. -/
theorem splitFrom_escapeFrom (rest : List UInt8) : ∀ (arg : List UInt8) (n : UInt32)
    (read : List UInt8),
    splitFrom blank true (some read) 0 (escapeFrom n arg ++ quoteMark :: rest) =
      splitFrom blank false (some (read ++ countedFrom n arg)) 0 rest
  | [], n, read => by
    show splitFrom blank true (some read) 0
      (List.replicate (n.toNat * 2) backslash ++ quoteMark :: rest) = _
    rw [splitFrom_replicate, splitFrom_quoteMark, Nat.zero_add,
      if_pos (Nat.mul_mod_left _ _), Nat.mul_div_cancel _ Nat.two_pos]
    rfl
  | c :: arg, n, read => by
    unfold escapeFrom countedFrom
    by_cases hslash : c = backslash
    · rw [if_pos hslash, if_pos hslash]
      exact splitFrom_escapeFrom rest arg (n + 1) read
    rw [if_neg hslash, if_neg hslash]
    by_cases hquote : c = quoteMark
    · -- an odd number of backslashes, of which half are meant
      have hodd : (0 + (n.toNat * 2 + 1)) % 2 ≠ 0 := by omega
      have hhalf : (0 + (n.toNat * 2 + 1)) / 2 = n.toNat := by omega
      rw [if_pos hquote, hquote, List.append_assoc, List.cons_append, splitFrom_replicate,
        splitFrom_quoteMark, if_neg hodd, hhalf, splitFrom_escapeFrom rest arg 0]
      simp
    · rw [if_neg hquote, List.append_assoc, List.cons_append, splitFrom_replicate,
        splitFrom_other hslash hquote (Bool.and_false _), Nat.zero_add,
        splitFrom_escapeFrom rest arg 0]
      simp

/-- **An argument without quotes** is read as it is. -/
theorem splitFrom_plain (rest : List UInt8) : ∀ (arg : List UInt8) (cur : Option (List UInt8))
    (slashes : ℕ), (∀ c ∈ arg, c ≠ quoteMark ∧ blank c = false) → arg ≠ [] →
    ∃ cur' slashes',
      pending cur' slashes' = some (cur.getD [] ++ List.replicate slashes backslash ++ arg) ∧
      splitFrom blank false cur slashes (arg ++ rest) = splitFrom blank false cur' slashes' rest
  | [], _, _, _, hne => absurd rfl hne
  | c :: arg, cur, slashes, h, _ => by
    obtain ⟨hquote, hblank⟩ := h c List.mem_cons_self
    have htail : ∀ d ∈ arg, d ≠ quoteMark ∧ blank d = false := fun d hd =>
      h d (List.mem_cons_of_mem c hd)
    by_cases hslash : c = backslash
    · have hstep : splitFrom blank false cur slashes (c :: arg ++ rest) =
          splitFrom blank false cur (slashes + 1) (arg ++ rest) := by
        rw [hslash]
        rfl
      rw [hstep]
      cases arg with
      | nil =>
        refine ⟨cur, slashes + 1, ?_, rfl⟩
        rw [hslash, pending, if_neg (Nat.succ_ne_zero _), List.replicate_succ', List.append_assoc]
      | cons d arg =>
        obtain ⟨cur', slashes', hpending, hsplit⟩ :=
          splitFrom_plain rest (d :: arg) cur (slashes + 1) htail (List.cons_ne_nil d arg)
        refine ⟨cur', slashes', ?_, hsplit⟩
        rw [hpending, hslash, List.replicate_succ']
        simp
    · have hstep : splitFrom blank false cur slashes (c :: arg ++ rest) =
          splitFrom blank false
            (some (cur.getD [] ++ List.replicate slashes backslash ++ [c])) 0 (arg ++ rest) :=
        splitFrom_other hslash hquote (by rw [hblank]; rfl) _
      rw [hstep]
      cases arg with
      | nil => exact ⟨_, 0, rfl, rfl⟩
      | cons d arg =>
        obtain ⟨cur', slashes', hpending, hsplit⟩ := splitFrom_plain rest (d :: arg)
          (some (cur.getD [] ++ List.replicate slashes backslash ++ [c])) 0 htail
          (List.cons_ne_nil d arg)
        refine ⟨cur', slashes', ?_, hsplit⟩
        rw [hpending]
        simp

end Split

/-! ## Whole lines -/

/-- What is white space to Windows: the space is, and nothing that an argument
may have without being put in quotes. -/
structure Blanks (blank : UInt8 → Bool) : Prop where
  space : blank CommandLine.space = true
  plain : ∀ c, blank c = true → c = CommandLine.space ∨ c = 9 ∨ c = 10 ∨ c = 11

section Lines

variable {blank : UInt8 → Bool}

/-- An argument that is written as it is has neither quotes nor blanks. -/
theorem plain_of_not_needsQuotes (hblank : Blanks blank) {arg : List UInt8}
    (h : needsQuotes arg = false) :
    arg ≠ [] ∧ ∀ c ∈ arg, c ≠ quoteMark ∧ blank c = false := by
  obtain ⟨hempty, hany⟩ := Bool.or_eq_false_iff.1 h
  refine ⟨fun hnil => ?_, fun c hc => ?_⟩
  · rw [hnil] at hempty
    cases hempty
  · have hother := List.any_eq_false.1 hany c hc
    simp only [Bool.or_eq_true, decide_eq_true_eq, not_or] at hother
    obtain ⟨⟨⟨⟨hspace, htab⟩, hline⟩, hvtab⟩, hquote⟩ := hother
    refine ⟨hquote, Bool.eq_false_iff.2 fun htrue => ?_⟩
    rcases hblank.plain c htrue with h | h | h | h
    · exact hspace h
    · exact htab h
    · exact hline h
    · exact hvtab h

/-- The end of an argument: that of the line, or a space. -/
theorem splitFrom_end (hblank : Blanks blank) {cur : Option (List UInt8)} {slashes : ℕ}
    {arg : List UInt8} (h : pending cur slashes = some arg) {rest : List UInt8}
    (hrest : rest = [] ∨ ∃ line, rest = space :: line) :
    splitFrom blank false cur slashes rest =
      arg :: splitFrom blank false none 0 (rest.drop 1) := by
  rcases hrest with rfl | ⟨line, rfl⟩
  · show (pending cur slashes).toList = _
    rw [h]
    rfl
  · show (if (blank space && true) = true then
      (pending cur slashes).toList ++ splitFrom blank false none 0 line else _) = _
    rw [hblank.space, Bool.and_self, if_pos rfl, h]
    rfl

/-- **One argument** is read back as far as its runs have been counted. -/
theorem splitFrom_encodeArg (hblank : Blanks blank) (arg : List UInt8) {rest : List UInt8}
    (hrest : rest = [] ∨ ∃ line, rest = space :: line) :
    splitFrom blank false none 0 (encodeArg arg ++ rest) =
      received arg :: splitFrom blank false none 0 (rest.drop 1) := by
  unfold encodeArg received
  cases h : needsQuotes arg with
  | true =>
    have hline : quoteMark :: escapeFrom 0 arg ++ [quoteMark] ++ rest =
        quoteMark :: (escapeFrom 0 arg ++ quoteMark :: rest) := by simp
    rw [if_pos rfl, if_pos rfl, hline]
    show splitFrom blank true (some []) 0 (escapeFrom 0 arg ++ quoteMark :: rest) = _
    rw [splitFrom_escapeFrom]
    exact splitFrom_end hblank rfl hrest
  | false =>
    obtain ⟨hne, hplain⟩ := plain_of_not_needsQuotes hblank h
    obtain ⟨cur', slashes', hpending, hsplit⟩ := splitFrom_plain rest arg none 0 hplain hne
    rw [if_neg Bool.false_ne_true, if_neg Bool.false_ne_true, hsplit]
    exact splitFrom_end hblank hpending hrest

/-- No argument is written as nothing. -/
theorem encodeArg_ne_nil (arg : List UInt8) : encodeArg arg ≠ [] := by
  unfold encodeArg
  cases arg with
  | nil => exact List.cons_ne_nil _ _
  | cons c arg =>
    split
    · exact List.cons_ne_nil _ _
    · exact List.cons_ne_nil _ _

/-- What is appended after the first argument. -/
def behindFirst (args : List (List UInt8)) : List UInt8 :=
  args.flatMap fun arg => space :: encodeArg arg

/-- The arguments are put behind one another. -/
theorem foldl_appendWindowsArg {cmd : List UInt8} (hne : cmd ≠ []) (args : List (List UInt8)) :
    args.foldl appendWindowsArg cmd = cmd ++ behindFirst args := by
  induction args generalizing cmd with
  | nil => exact (List.append_nil cmd).symm
  | cons arg args ih =>
    have hstep : appendWindowsArg cmd arg = cmd ++ space :: encodeArg arg := by
      unfold appendWindowsArg
      rw [if_neg (by rwa [List.isEmpty_iff]), List.append_assoc]
      rfl
    show args.foldl appendWindowsArg (appendWindowsArg cmd arg) = _
    rw [hstep, ih (List.append_ne_nil_of_left_ne_nil hne _), List.append_assoc]
    rfl

theorem commandLine_cons (arg : List UInt8) (args : List (List UInt8)) :
    commandLine (arg :: args) = encodeArg arg ++ behindFirst args :=
  foldl_appendWindowsArg (encodeArg_ne_nil arg) args

/-- A blank comes before each but the first. -/
theorem behindFirst_cases (args : List (List UInt8)) :
    behindFirst args = [] ∨ ∃ line, behindFirst args = space :: line := by
  cases args with
  | nil => exact .inl rfl
  | cons arg args => exact .inr ⟨_, rfl⟩

/-- **The arguments behind the first are read back.** -/
theorem splitFrom_behindFirst (hblank : Blanks blank) (args : List (List UInt8)) :
    splitFrom blank false none 0 ((behindFirst args).drop 1) = args.map received := by
  induction args with
  | nil => rfl
  | cons arg args ih =>
    show splitFrom blank false none 0 (encodeArg arg ++ behindFirst args) = _
    rw [splitFrom_encodeArg hblank arg (behindFirst_cases args), ih]
    rfl

/-- **A whole line** is read back as far as the runs have been counted. -/
theorem splitFrom_commandLine (hblank : Blanks blank) (args : List (List UInt8)) :
    splitFrom blank false none 0 (commandLine args) = args.map received := by
  cases args with
  | nil => rfl
  | cons arg args =>
    rw [commandLine_cons, splitFrom_encodeArg hblank arg (behindFirst_cases args),
      splitFrom_behindFirst hblank]
    rfl

/-! ## The name of the program -/

/-- What is skipped with the name of the program. -/
theorem behindProgram_skip {quoted : Bool} (rest : List UInt8) : ∀ (read : List UInt8),
    (∀ c ∈ read, c ≠ quoteMark ∧ (blank c && !quoted) = false) →
    behindProgram blank quoted (read ++ rest) = behindProgram blank quoted rest
  | [], _ => rfl
  | c :: read, h => by
    obtain ⟨hquote, hblank⟩ := h c List.mem_cons_self
    show (if c = quoteMark then _ else if (blank c && !quoted) = true then _ else
      behindProgram blank quoted (read ++ rest)) = _
    rw [if_neg hquote, hblank, if_neg Bool.false_ne_true]
    exact behindProgram_skip rest read fun d hd => h d (List.mem_cons_of_mem c hd)

theorem mem_escapeFrom {d : UInt8} : ∀ (arg : List UInt8) (n : UInt32), d ∈ escapeFrom n arg →
    d = backslash ∨ d ∈ arg
  | [], n, h => .inl (List.eq_of_mem_replicate h)
  | c :: arg, n, h => by
    unfold escapeFrom at h
    by_cases hslash : c = backslash
    · rw [if_pos hslash] at h
      exact (mem_escapeFrom arg (n + 1) h).imp_right (List.mem_cons_of_mem c)
    rw [if_neg hslash] at h
    by_cases hquote : c = quoteMark
    · rw [if_pos hquote] at h
      rcases List.mem_append.1 h with h | h
      · exact .inl (List.eq_of_mem_replicate h)
      rcases List.mem_cons.1 h with rfl | h
      · exact .inr (hquote ▸ List.mem_cons_self)
      · exact (mem_escapeFrom arg 0 h).imp_right (List.mem_cons_of_mem c)
    · rw [if_neg hquote] at h
      rcases List.mem_append.1 h with h | h
      · exact .inl (List.eq_of_mem_replicate h)
      rcases List.mem_cons.1 h with rfl | h
      · exact .inr List.mem_cons_self
      · exact (mem_escapeFrom arg 0 h).imp_right (List.mem_cons_of_mem c)

/-- Nothing but quotes and backslashes is added. -/
theorem mem_encodeArg {d : UInt8} {arg : List UInt8} (h : d ∈ encodeArg arg) :
    d = quoteMark ∨ d = backslash ∨ d ∈ arg := by
  unfold encodeArg at h
  split at h
  · rcases List.mem_cons.1 h with rfl | h
    · exact .inl rfl
    rcases List.mem_append.1 h with h | h
    · exact .inr (mem_escapeFrom arg 0 h)
    · exact .inl (List.mem_singleton.1 h)
  · exact .inr (.inr h)

/-- **The name of the program is skipped**, quoted or not. -/
theorem behindProgram_encodeArg (hblank : Blanks blank) {prog : List UInt8}
    (hprog : quoteMark ∉ prog) {rest : List UInt8}
    (hrest : rest = [] ∨ ∃ line, rest = space :: line) :
    behindProgram blank false (encodeArg prog ++ rest) = rest.drop 1 := by
  have hend : behindProgram blank false rest = rest.drop 1 := by
    rcases hrest with rfl | ⟨line, rfl⟩
    · rfl
    · show (if (blank space && true) = true then line else _) = line
      rw [hblank.space, Bool.and_self, if_pos rfl]
  unfold encodeArg
  cases h : needsQuotes prog with
  | true =>
    have hline : quoteMark :: escapeFrom 0 prog ++ [quoteMark] ++ rest =
        quoteMark :: (escapeFrom 0 prog ++ quoteMark :: rest) := by simp
    rw [if_pos rfl, hline]
    show behindProgram blank true (escapeFrom 0 prog ++ quoteMark :: rest) = _
    rw [behindProgram_skip (quoteMark :: rest) (escapeFrom 0 prog) fun c hc => ?_]
    · exact hend
    · refine ⟨?_, Bool.and_false _⟩
      rintro rfl
      exact (mem_escapeFrom prog 0 hc).elim (by decide) hprog
  | false =>
    obtain ⟨-, hplain⟩ := plain_of_not_needsQuotes hblank h
    rw [if_neg Bool.false_ne_true, behindProgram_skip rest prog fun c hc => ?_]
    · exact hend
    · exact ⟨(hplain c hc).1, by rw [(hplain c hc).2]; rfl⟩

/-! ## Zero bytes -/

theorem ne_zero_of_mem_encodeArg {d : UInt8} {arg : List UInt8} (hzero : 0 ∉ arg)
    (h : d ∈ encodeArg arg) : d ≠ 0 := by
  rintro rfl
  rcases mem_encodeArg h with h | h | h
  · revert h
    decide
  · revert h
    decide
  · exact hzero h

/-- The line ends where it is said to. -/
theorem takeWhile_commandLine {args : List (List UInt8)} (hzero : ∀ arg ∈ args, 0 ∉ arg) :
    (commandLine args).takeWhile (· ≠ 0) = commandLine args := by
  have hbehind : ∀ {args : List (List UInt8)}, (∀ arg ∈ args, 0 ∉ arg) →
      ∀ d ∈ behindFirst args, d ≠ 0 := by
    intro args hzero d hd
    obtain ⟨arg, harg, hd⟩ := List.mem_flatMap.1 hd
    rcases List.mem_cons.1 hd with rfl | hd
    · decide
    · exact ne_zero_of_mem_encodeArg (hzero arg harg) hd
  rw [List.takeWhile_eq_self_iff]
  intro d hd
  refine decide_eq_true ?_
  cases args with
  | nil => exact absurd hd List.not_mem_nil
  | cons arg args =>
    rw [commandLine_cons] at hd
    rcases List.mem_append.1 hd with hd | hd
    · exact ne_zero_of_mem_encodeArg (hzero arg List.mem_cons_self) hd
    · exact hbehind (fun a ha => hzero a (List.mem_cons_of_mem arg ha)) d hd

end Lines

/-! ## Runs that the counter does not reach -/

/-- So many backslashes in a row that the counter starts again. -/
def HasLongRun (arg : List UInt8) : Prop :=
  ∃ p, ∀ i < 2 ^ 32, arg[p + i]? = some backslash

theorem toNat_succ_of_lt {n : UInt32} (h : n.toNat + 1 < 2 ^ 32) :
    (n + 1).toNat = n.toNat + 1 := by
  rw [UInt32.toNat_add]
  exact Nat.mod_eq_of_lt h

theorem toNat_succ_of_eq {n : UInt32} (h : n.toNat + 1 = 2 ^ 32) : (n + 1).toNat = 0 := by
  rw [UInt32.toNat_add]
  show (n.toNat + 1) % 2 ^ 32 = 0
  rw [h, Nat.mod_self]

/-- The counter counts one more, or starts again. -/
theorem succ_cases (n : UInt32) : (n + 1).toNat = n.toNat + 1 ∨
    n.toNat + 1 = 2 ^ 32 ∧ (n + 1).toNat = 0 := by
  have hlt : n.toNat < 2 ^ 32 := n.toNat_lt
  rcases Nat.lt_or_eq_of_le (Nat.succ_le_of_lt hlt) with h | h
  · exact .inl (toNat_succ_of_lt h)
  · exact .inr ⟨h, toNat_succ_of_eq h⟩

/-- A run is no longer than its argument. -/
theorem length_countedFrom : ∀ (arg : List UInt8) (n : UInt32),
    (countedFrom n arg).length ≤ n.toNat + arg.length
  | [], n => (List.length_replicate ..).le
  | c :: arg, n => by
    unfold countedFrom
    by_cases hslash : c = backslash
    · rw [if_pos hslash]
      have ih := length_countedFrom arg (n + 1)
      rw [List.length_cons]
      rcases succ_cases n with h | ⟨-, h⟩ <;> omega
    · rw [if_neg hslash]
      have ih := length_countedFrom arg 0
      rw [show (0 : UInt32).toNat = 0 from rfl] at ih
      simp only [List.length_append, List.length_replicate, List.length_cons]
      omega

theorem replicate_cons_backslash {n : ℕ} (arg : List UInt8) :
    List.replicate n backslash ++ backslash :: arg =
      List.replicate (n + 1) backslash ++ arg := by
  rw [List.replicate_succ', List.append_assoc]
  rfl

/-- A run that is behind another byte. -/
theorem HasLongRun.append {arg : List UInt8} (h : HasLongRun arg) (front : List UInt8) :
    HasLongRun (front ++ arg) := by
  obtain ⟨p, hp⟩ := h
  refine ⟨front.length + p, fun i hi => ?_⟩
  rw [Nat.add_assoc, List.getElem?_append_right (Nat.le_add_right _ _), Nat.add_sub_cancel_left]
  exact hp i hi

/-- A run does not go over another byte. -/
theorem HasLongRun.of_append {n : ℕ} (hn : n < 2 ^ 32) {c : UInt8} (hslash : c ≠ backslash)
    {arg : List UInt8} (h : HasLongRun (List.replicate n backslash ++ c :: arg)) :
    HasLongRun arg := by
  obtain ⟨p, hp⟩ := h
  have hc : (List.replicate n backslash ++ c :: arg)[n]? = some c := by
    rw [List.getElem?_append_right (List.length_replicate ..).le, List.length_replicate,
      Nat.sub_self]
    rfl
  have hlt : n < p := by
    by_contra hle
    have hat := hp (n - p) (by omega)
    rw [show p + (n - p) = n by omega, hc] at hat
    exact hslash (Option.some.inj hat)
  refine ⟨p - (n + 1), fun i hi => ?_⟩
  rw [← hp i hi, show p + i = n + (p - (n + 1) + i + 1) by omega,
    List.getElem?_append_right (by rw [List.length_replicate]; omega), List.length_replicate,
    Nat.add_sub_cancel_left, List.getElem?_cons_succ]

/-- A run below the counter's range is no long one. -/
theorem not_hasLongRun_replicate {n : ℕ} (hn : n < 2 ^ 32) :
    ¬ HasLongRun (List.replicate n backslash) := by
  rintro ⟨p, hp⟩
  have hat := hp n hn
  rw [List.getElem?_eq_none (by rw [List.length_replicate]; omega)] at hat
  cases hat

/-- **Runs within reach** are counted right. -/
theorem countedFrom_of_short : ∀ (arg : List UInt8) (n : UInt32),
    ¬ HasLongRun (List.replicate n.toNat backslash ++ arg) →
    countedFrom n arg = List.replicate n.toNat backslash ++ arg
  | [], n, _ => (List.append_nil _).symm
  | c :: arg, n, h => by
    unfold countedFrom
    by_cases hslash : c = backslash
    · rw [if_pos hslash]
      rw [hslash, replicate_cons_backslash] at h ⊢
      rcases succ_cases n with hsucc | ⟨hwrap, -⟩
      · rw [← hsucc] at h ⊢
        exact countedFrom_of_short arg (n + 1) h
      · refine absurd ⟨0, fun i hi => ?_⟩ h
        rw [hwrap, Nat.zero_add, List.getElem?_append_left (by rwa [List.length_replicate]),
          List.getElem?_replicate, if_pos hi]
    · rw [if_neg hslash, countedFrom_of_short arg 0 fun hrun => h ?_]
      · rfl
      · have hlong := hrun.append (List.replicate n.toNat backslash ++ [c])
        rwa [List.append_assoc] at hlong

/-- **A run that is out of reach** loses bytes. -/
theorem length_countedFrom_of_long : ∀ (arg : List UInt8) (n : UInt32),
    HasLongRun (List.replicate n.toNat backslash ++ arg) →
    (countedFrom n arg).length < n.toNat + arg.length
  | [], n, h => by
    rw [List.append_nil] at h
    exact absurd h (not_hasLongRun_replicate n.toNat_lt)
  | c :: arg, n, h => by
    unfold countedFrom
    by_cases hslash : c = backslash
    · rw [if_pos hslash, List.length_cons]
      rw [hslash, replicate_cons_backslash] at h
      rcases succ_cases n with hsucc | ⟨hwrap, hzero⟩
      · rw [← hsucc] at h
        have ih := length_countedFrom_of_long arg (n + 1) h
        omega
      · have hle := length_countedFrom arg (n + 1)
        omega
    · rw [if_neg hslash]
      have ih := length_countedFrom_of_long arg 0 (h.of_append n.toNat_lt hslash)
      rw [show (0 : UInt32).toNat = 0 from rfl] at ih
      simp only [List.length_append, List.length_replicate, List.length_cons]
      omega

/-- **What arrives is the argument** unless it is put in quotes and has a run
that is out of reach. -/
theorem received_eq_iff (arg : List UInt8) :
    received arg = arg ↔ ¬ (needsQuotes arg = true ∧ HasLongRun arg) := by
  unfold received
  cases needsQuotes arg with
  | false => simp
  | true =>
    rw [if_pos rfl]
    constructor
    · rintro heq ⟨-, hlong⟩
      have hlt := length_countedFrom_of_long arg 0 hlong
      rw [heq, show (0 : UInt32).toNat = 0 from rfl, Nat.zero_add] at hlt
      exact Nat.lt_irrefl _ hlt
    · intro hshort
      exact countedFrom_of_short arg 0 fun hlong => hshort ⟨rfl, hlong⟩

/-- **All arguments arrive** where none has such a run. -/
theorem map_received_iff (args : List (List UInt8)) :
    args.map received = args ↔ ∀ arg ∈ args, ¬ (needsQuotes arg = true ∧ HasLongRun arg) := by
  induction args with
  | nil => exact ⟨nofun, fun _ => rfl⟩
  | cons arg args ih =>
    rw [List.map_cons, List.cons.injEq, ih, received_eq_iff, List.forall_mem_cons]

/-! ## The round trip -/

/-- **Command lines round-trip**, whatever is white space besides the space:
the arguments arrive as they were, by the rules for all of the line as by those
that read the name of the program apart, exactly if no argument in quotes has a
run that is out of reach. -/
theorem split_commandLine_iff {blank : UInt8 → Bool} (hblank : Blanks blank)
    {args : List (List UInt8)} (hzero : ∀ arg ∈ args, 0 ∉ arg) :
    (splitArguments blank (commandLine args) = args ↔
      ∀ arg ∈ args, ¬ (needsQuotes arg = true ∧ HasLongRun arg)) ∧
    ∀ prog : List UInt8, 0 ∉ prog → quoteMark ∉ prog →
      (argumentsAfterProgram blank (commandLine (prog :: args)) = args ↔
        ∀ arg ∈ args, ¬ (needsQuotes arg = true ∧ HasLongRun arg)) := by
  refine ⟨?_, fun prog hnul hquote => ?_⟩
  · unfold splitArguments
    rw [takeWhile_commandLine hzero, splitFrom_commandLine hblank]
    exact map_received_iff args
  · have hnuls : ∀ arg ∈ prog :: args, 0 ∉ arg := List.forall_mem_cons.2 ⟨hnul, hzero⟩
    unfold argumentsAfterProgram
    rw [takeWhile_commandLine hnuls, commandLine_cons,
      behindProgram_encodeArg hblank hquote (behindFirst_cases args), splitFrom_behindFirst hblank]
    exact map_received_iff args

/-- The white space between arguments. -/
def spaceOrTab (c : UInt8) : Bool := c = space || c = 9

theorem blanks_spaceOrTab : Blanks spaceOrTab := by
  refine ⟨rfl, fun c hc => ?_⟩
  unfold spaceOrTab at hc
  simp only [Bool.or_eq_true, decide_eq_true_eq] at hc
  exact hc.elim .inl fun h => .inr (.inl h)

/-! ## Strings of the program -/

/-- `GC_set_max_heap_size`: everything a program makes is in so many bytes. -/
def maxHeapSize : ℕ := 1024 * 1024 * 1024

/-- **A string of the program** that `system` is given: it is in the heap, and
has no zero byte, at which the line would end. -/
structure ArgString where
  bytes : List UInt8
  noZero : 0 ∉ bytes
  inHeap : bytes.length ≤ maxHeapSize

/-- The counter reaches to the end of every run. -/
theorem ArgString.not_hasLongRun (arg : ArgString) : ¬ HasLongRun arg.bytes := by
  rintro ⟨p, hp⟩
  have hlast := hp (2 ^ 32 - 1) (by decide)
  obtain ⟨hlt, -⟩ := List.getElem?_eq_some_iff.1 hlast
  have hle : arg.bytes.length ≤ 1024 * 1024 * 1024 := arg.inHeap
  omega

/-- **The arguments of `system` arrive as they were**, by the rules for all of
the line as by those that read the name of the program apart. -/
theorem split_commandLine {blank : UInt8 → Bool} (hblank : Blanks blank)
    (args : List ArgString) :
    splitArguments blank (commandLine (args.map (·.bytes))) = args.map (·.bytes) ∧
    ∀ prog : ArgString, quoteMark ∉ prog.bytes →
      argumentsAfterProgram blank (commandLine ((prog :: args).map (·.bytes))) =
        args.map (·.bytes) := by
  have hzero : ∀ arg ∈ args.map (·.bytes), 0 ∉ arg :=
    List.forall_mem_map.2 fun arg _ => arg.noZero
  have hshort : ∀ arg ∈ args.map (·.bytes), ¬ (needsQuotes arg = true ∧ HasLongRun arg) :=
    List.forall_mem_map.2 fun arg _ h => arg.not_hasLongRun h.2
  obtain ⟨hline, hprog⟩ := split_commandLine_iff hblank hzero
  exact ⟨hline.2 hshort, fun prog hquote => (hprog prog.bytes prog.noZero hquote).2 hshort⟩

/-- `hi` and `a\" `. -/
def helloArgs : List ArgString :=
  [⟨[104, 105], by decide, by decide⟩, ⟨[97, 92, 34, 32], by decide, by decide⟩]

theorem split_commandLine_hello :
    splitArguments spaceOrTab (commandLine (helloArgs.map (·.bytes))) =
      [[104, 105], [97, 92, 34, 32]] :=
  (split_commandLine blanks_spaceOrTab helloArgs).1

end CommandLine

end Scheme14
