import SecdScheme.Scheme14.Values

/-!
# scheme14: lists, syntax checks and expansion

The walks along the `cdr`s of a list, which find a circular list with two
pointers, the checks of the special forms, and the expansion of the derived
ones. None of this looks at the machine: it reads and makes pairs.

A loop that the program does not protect from circular lists runs here on the
number of pairs there are, and is out of fuel after that; so is the
quasiquote, which does not protect itself either.
-/

namespace Scheme14

variable {X : Type}

/-! ## Walks -/

/-- The walk with two pointers: the elements and the tail, or nothing when
the list is circular. -/
def walkPairs : ℕ → Value → Value → DataM X (Option (List Value × Value))
  | 0, _, _ => Cmd.fail .outOfFuel
  | fuel + 1, slow, fast => do
    if !isPair fast then return some ([], fast)
    let p ← asPair fast
    if !isPair p.2 then return some ([p.1], p.2)
    let q ← asPair p.2
    let slow ← cdr slow
    if q.2 = slow then return none
    let rest ← walkPairs fuel slow q.2
    return rest.map fun r => (p.1 :: q.1 :: r.1, r.2)

/-- The walk from the start of a list. -/
def walkList (ls : Value) : DataM X (Option (List Value × Value)) := do
  walkPairs ((← Cmd.getState).pairs.length + 1) ls ls

/-- `form_arity`: the length of a proper list. -/
def formArity (rest : Value) : DataM X (Option ℕ) := do
  match ← walkList rest with
  | some (xs, .nil) => return some xs.length
  | _ => return none

/-- `list_to_vector`. -/
def listToVector (ls : Value) (who : String) : DataM X (List Value) := do
  match ← walkList ls with
  | none => errorAt (who ++ ": wrong type of argument\n  expected: a proper list\n  given: a circular list")
  | some (xs, .nil) => return xs
  | some (_, _) =>
    errorAt (.behind (who ++ ": wrong type of argument\n  ") (expectedGiven "a proper list" ls))

/-! ## Syntax checks -/

/-- `syntax_error`. -/
def syntaxError {α : Type} (form : String) (what : Message) : DataM X α :=
  errorAt (.behind ("bad syntax in " ++ form ++ "\n  ") what)

/-- `arity_detail`; `maxArgs` is `0` where there is no bound. -/
def arityDetail (minArgs maxArgs got : ℕ) : String :=
  let want :=
    if maxArgs = 0 then "at least " ++ toString minArgs
    else if minArgs = maxArgs then toString minArgs
    else toString minArgs ++ " to " ++ toString maxArgs
  let singular := minArgs = 1 ∧ (maxArgs = 1 ∨ maxArgs = 0)
  "expected: " ++ want ++ (if singular then " argument" else " arguments") ++
    "\n  given: " ++ toString got

/-- `check_arity`. -/
def checkArity (form : String) (rest : Value) (minArgs maxArgs : ℕ) : DataM X Unit := do
  match ← formArity rest with
  | none => syntaxError form "the argument list is improper or circular"
  | some n =>
    if n < minArgs ∨ maxArgs ≠ 0 ∧ maxArgs < n then
      syntaxError form (arityDetail minArgs maxArgs n)

/-- Whether a binding is `(variable expression)`. -/
def isBinding (one : Value) : DataM X Bool := do
  if !isPair one then return false
  let p ← asPair one
  if !isSymbol p.1 then return false
  if !isPair p.2 then return false
  return (← cdr p.2) == .nil

/-- The bindings are looked at one by one; circular ones have no end. -/
def checkEach (form : String) (bindings : Value) : ℕ → Value → DataM X Unit
  | 0, _ => Cmd.fail .outOfFuel
  | fuel + 1, b => do
    if b = .nil then return ()
    if !isPair b then syntaxError form (expectedGiven "a proper list of bindings" bindings)
    let p ← asPair b
    if !(← isBinding p.1) then
      syntaxError form (expectedGiven "each binding to be (variable expression)" p.1)
    checkEach form bindings fuel p.2

/-- `check_bindings`. -/
def checkBindings (form : String) (bindings : Value) : DataM X Unit := do
  if bindings ≠ .nil ∧ !isPair bindings then
    syntaxError form (expectedGiven "a list of bindings" bindings)
  checkEach form bindings ((← Cmd.getState).pairs.length + 1) bindings

/-- `extract_params`: the fixed parameters and the rest parameter. -/
def extractParamsFrom : ℕ → Value → DataM X (Option (List String × Option String))
  | 0, _ => Cmd.fail .outOfFuel
  | fuel + 1, params => do
    match params with
    | .nil => return some ([], none)
    | .sym r => return some ([], some r)
    | .pair a =>
      let p ← asPair (.pair a)
      match p.1 with
      | .sym x => return (← extractParamsFrom fuel p.2).map fun r => (x :: r.1, r.2)
      | _ => return none
    | _ => return none

/-- `extract_params`: nothing, where the parameters are not well formed. -/
def extractParams (params : Value) : DataM X (Option (List String × Option String)) := do
  extractParamsFrom ((← Cmd.getState).pairs.length + 1) params

/-! ## Expansion -/

/-- `make_begin_form`. -/
def makeBeginForm : List Value → DataM X Value
  | [] => return .nil
  | [form] => return form
  | forms => listFrom (.sym "begin" :: forms)

/-- `make_gensym`. -/
def makeGensym (pre : String) : DataM X Value := fun s =>
  (.ok (.sym (pre ++ toString (s.gensymCounter + 1))),
    { s with gensymCounter := s.gensymCounter + 1 })

/-- The variable and the expression of a binding. -/
def bindingParts (b : Value) : DataM X (Value × Value) := do
  return (← car b, ← car (← cdr b))

/-- `expand_let`. -/
def expandLet (form : Value) : DataM X Value := do
  let rest ← cdr form
  checkArity "let" rest 1 0
  let bindings ← car rest
  let body ← cdr rest
  if isSymbol bindings then
    if !isPair body then syntaxError "let" "named let needs a binding list"
    let realBindings ← car body
    let realBody ← cdr body
    checkBindings "let" realBindings
    let bs ← Cmd.mapList bindingParts (← listToVector realBindings "let")
    let lambdaExpr ← makePair (.sym "lambda") (← makePair (← listFrom (bs.map (·.1))) realBody)
    let binding ← listFrom [← listFrom [bindings, lambdaExpr]]
    let call ← listFrom (bindings :: bs.map (·.2))
    listFrom [.sym "letrec", binding, call]
  else
    checkBindings "let" bindings
    let bs ← Cmd.mapList bindingParts (← listToVector bindings "let")
    let lambdaExpr ← makePair (.sym "lambda") (← makePair (← listFrom (bs.map (·.1))) body)
    listFrom (lambdaExpr :: bs.map (·.2))

/-- `expand_let_star`. -/
def expandLetStar (form : Value) : DataM X Value := do
  let rest ← cdr form
  checkArity "let*" rest 1 0
  let bindings ← car rest
  let body ← cdr rest
  checkBindings "let*" bindings
  let bs ← listToVector bindings "let*"
  let bodyForm ← makeBeginForm (← listToVector body "let*")
  match bs with
  | [] => return bodyForm
  | [b] => listFrom [.sym "let", ← listFrom [b], bodyForm]
  | b :: bs =>
    let nested ← listFrom [.sym "let*", ← listFrom bs, bodyForm]
    listFrom [.sym "let", ← listFrom [b], nested]

/-- `expand_letrec`. -/
def expandLetrec (form : Value) : DataM X Value := do
  let rest ← cdr form
  checkArity "letrec" rest 1 0
  let bindings ← car rest
  let body ← cdr rest
  checkBindings "letrec" bindings
  let bs ← listToVector bindings "letrec"
  let letBindings ← Cmd.mapList (fun b => do listFrom [← car b, .sym ":undef"]) bs
  let sets ← Cmd.mapList
    (fun b => do listFrom [.sym "set!", ← car b, ← car (← cdr b)]) bs
  let bodyVec ← listToVector body "letrec"
  let letBindings ← listFrom letBindings
  listFrom [.sym "let", letBindings, ← makeBeginForm (sets ++ bodyVec)]

/-- The nested conditionals of `and`, for its first operands and the last. -/
def andForms : List Value → Value → DataM X Value
  | [], last => return last
  | x :: xs, last => do listFrom [.sym "if", x, ← andForms xs last, .bool false]

/-- `expand_and`. -/
def expandAnd (form : Value) : DataM X Value := do
  let xs ← listToVector (← cdr form) "and"
  match xs.getLast? with
  | none => return .bool true
  | some last => andForms xs.dropLast last

/-- The nested bindings of `or`, with a temporary for each operand but the
last. -/
def orForms : List (Value × Value) → Value → DataM X Value
  | [], last => return last
  | (t, x) :: xs, last => do
    let out ← orForms xs last
    let binding ← listFrom [← listFrom [t, x]]
    listFrom [.sym "let", binding, ← listFrom [.sym "if", t, t, out]]

/-- `expand_or`. -/
def expandOr (form : Value) : DataM X Value := do
  let xs ← listToVector (← cdr form) "or"
  match xs.getLast? with
  | none => return .bool false
  | some last =>
    let temps ← Cmd.mapList (fun x => do return (← makeGensym "or", x)) xs.dropLast
    orForms temps last

/-- A clause of `cond`. -/
structure CondClause where
  test : Value
  body : Value
  /-- The temporary for the value of the test, where one is needed. -/
  temp : Option Value
  /-- The receiver after `=>`. -/
  recv : Option Value
  isElse : Bool

/-- A clause of `cond` is read. -/
def condClause (cl : Value) : DataM X CondClause := do
  if !isPair cl then
    syntaxError "cond" (expectedGiven "each clause to be (test expression ...)" cl)
  let (test, body) ← asPair cl
  if test = .sym "else" then return ⟨test, body, none, none, true⟩
  if body = .nil then return ⟨test, body, some (← makeGensym "cond"), none, false⟩
  if !isPair body then return ⟨test, body, none, none, false⟩
  if (← car body) ≠ .sym "=>" then return ⟨test, body, none, none, false⟩
  let tail ← cdr body
  let alone ← if isPair tail then (do return (← cdr tail) == .nil) else pure false
  if !alone then syntaxError "cond" (expectedGiven "exactly one expression after =>" cl)
  let recv ← car tail
  return ⟨test, body, some (← makeGensym "cond"), some recv, false⟩

/-- The clauses up to the first `else`. -/
def condClauses (clauses : Value) : ℕ → Value → DataM X (List CondClause)
  | 0, _ => Cmd.fail .outOfFuel
  | fuel + 1, cur => do
    if cur = .nil then return []
    if !isPair cur then syntaxError "cond" (expectedGiven "a proper list of clauses" clauses)
    let (cl, rest) ← asPair cur
    let c ← condClause cl
    if c.isElse then return [c]
    return c :: (← condClauses clauses fuel rest)

/-- The code of the clauses, from the last one on. -/
def condForms : List CondClause → DataM X Value
  | [] => return .sym ":undef"
  | c :: cs => do
    let out ← condForms cs
    if c.isElse then makeBeginForm (← listToVector c.body "cond")
    else match c.temp with
      | some t =>
        let thenE ← match c.recv with
          | some r => listFrom [r, t]
          | none => pure t
        let binding ← listFrom [← listFrom [t, c.test]]
        listFrom [.sym "let", binding, ← listFrom [.sym "if", t, thenE, out]]
      | none =>
        listFrom [.sym "if", c.test, ← makeBeginForm (← listToVector c.body "cond"), out]

/-- `expand_cond`. -/
def expandCond (form : Value) : DataM X Value := do
  let cur ← cdr form
  condForms (← condClauses cur ((← Cmd.getState).pairs.length + 1) cur)

/-- A clause of `case`, as a clause of `cond`. -/
def caseClause (t cl : Value) : DataM X Value := do
  if !isPair cl then
    syntaxError "case" (expectedGiven "each clause to be ((datum ...) expression ...)" cl)
  let (head, body) ← asPair cl
  let test ←
    if head = .sym "else" then pure (.sym "else")
    else (do listFrom [.sym "memv", t, ← listFrom [.sym "quote", head]])
  listFrom (test :: (← listToVector body "case"))

/-- The clauses of `case`, one by one. -/
def caseClauses (t clauses : Value) : ℕ → Value → DataM X (List Value)
  | 0, _ => Cmd.fail .outOfFuel
  | fuel + 1, cur => do
    if cur = .nil then return []
    if !isPair cur then syntaxError "case" (expectedGiven "a proper list of clauses" clauses)
    let (cl, rest) ← asPair cur
    let c ← caseClause t cl
    return c :: (← caseClauses t clauses fuel rest)

/-- `expand_case`. -/
def expandCase (form : Value) : DataM X Value := do
  let rest ← cdr form
  checkArity "case" rest 1 0
  let key ← car rest
  let clauses ← cdr rest
  let t ← makeGensym "case"
  let condClauses ← caseClauses t clauses ((← Cmd.getState).pairs.length + 1) clauses
  let binding ← listFrom [← listFrom [t, key]]
  listFrom [.sym "let", binding, ← makePair (.sym "cond") (← listFrom condClauses)]

/-- A specification of `do`: the variable, the start and the step. -/
def doSpec (v : Value) : DataM X (Value × Value × Value) := do
  if !isPair v then syntaxError "do" (expectedGiven "each spec to be (variable init [step])" v)
  let (x, rest) ← asPair v
  if !isSymbol x ∨ !isPair rest then
    syntaxError "do" (expectedGiven "each spec to be (variable init [step])" v)
  let stepTail ← cdr rest
  let step ← if stepTail = .nil then pure x else car stepTail
  return (x, ← car rest, step)

/-- `expand_do`. -/
def expandDo (form : Value) : DataM X Value := do
  let rest ← cdr form
  checkArity "do" rest 2 0
  let varForm ← car rest
  let testForm ← car (← cdr rest)
  let body ← cdr (← cdr rest)
  if !isPair testForm then
    syntaxError "do" (expectedGiven "the test clause to be (test expression ...)" testForm)
  let specs ← Cmd.mapList doSpec (← listToVector varForm "do")
  let loopName ← makeGensym "loop"
  let elseSeq ← listToVector body "do"
  let recur ← listFrom (loopName :: specs.map (·.2.2))
  let result ← makeBeginForm (← listToVector (← cdr testForm) "do")
  let ifExpr ← listFrom [.sym "if", ← car testForm, result, ← makeBeginForm (elseSeq ++ [recur])]
  let lambdaExpr ← listFrom [.sym "lambda", ← listFrom (specs.map (·.1)), ifExpr]
  let binding ← listFrom [← listFrom [loopName, lambdaExpr]]
  listFrom [.sym "letrec", binding, ← listFrom (loopName :: specs.map (·.2.1))]

/-! ### Quasiquote -/

/-- `QqKind`. -/
inductive QqKind where
  | quasiquote
  | unquote
  | splice
  deriving DecidableEq, Repr

/-- `qq_expect`. -/
def qqExpect : QqKind → String
  | .quasiquote => "(quasiquote expression)"
  | .unquote => "(unquote expression)"
  | .splice => "(splice expression)"

/-- `qq_kind_of`. -/
def qqKindOf : Value → Option QqKind
  | .sym "quasiquote" => some .quasiquote
  | .sym "unquote" => some .unquote
  | .sym "splice" => some .splice
  | _ => none

/-- `qq_take_form`: a list that starts with one of the three symbols has one
argument. -/
def qqTakeForm (cur : Value) : DataM X (Option (QqKind × Value)) := do
  if !isPair cur then return none
  let p ← asPair cur
  match qqKindOf p.1 with
  | none => return none
  | some kind =>
    let alone ← if isPair p.2 then (do return (← cdr p.2) == .nil) else pure false
    if !alone then
      errorAt (.behind "bad syntax in quasiquote\n  " (expectedGiven (qqExpect kind) cur))
    return some (kind, ← car p.2)

/-- `qq_quote_of`. -/
def qqQuoteOf (x : Value) : DataM X Value := listFrom [.sym "quote", x]

/-- `qq_wrap`. -/
def qqWrap (name : String) (expanded : Value) : DataM X Value := do
  let quoted ← qqQuoteOf (.sym name)
  listFrom [.sym "cons", quoted, ← listFrom [.sym "cons", expanded, ← qqQuoteOf .nil]]

/-- The steps of a list, from the last one on; the flag is for a splice. -/
def qqSteps : List (Bool × Value) → Value → DataM X Value
  | [], tail => return tail
  | (splice, e) :: steps, tail => do
    let out ← qqSteps steps tail
    listFrom [.sym (if splice then "append" else "cons"), e, out]

mutual

/-- `qq_form_code`. -/
def qqFormCode : ℕ → QqKind → Value → ℕ → DataM X Value
  | 0, _, _, _ => Cmd.fail .outOfFuel
  | fuel + 1, .quasiquote, arg, depth => do
    qqWrap "quasiquote" (← qqTransfer fuel arg (depth + 1))
  | fuel + 1, kind, arg, depth => do
    if depth = 1 then return arg
    qqWrap (if kind = .unquote then "unquote" else "splice")
      (← qqTransfer fuel arg (depth - 1))

/-- `qq_transfer`. -/
def qqTransfer : ℕ → Value → ℕ → DataM X Value
  | 0, _, _ => Cmd.fail .outOfFuel
  | fuel + 1, x, depth =>
    match x with
    | .pair _ => do
      let (steps, tail) ← qqList fuel x depth
      qqSteps steps tail
    | .vector a => do
      let elems := ((← Cmd.getState).vectors[a]?).getD []
      listFrom [.sym "list->vector", ← qqTransfer fuel (← listFrom elems) depth]
    | x => qqQuoteOf x

/-- The loop of `qq_transfer`: the steps and the tail. -/
def qqList : ℕ → Value → ℕ → DataM X (List (Bool × Value) × Value)
  | 0, _, _ => Cmd.fail .outOfFuel
  | fuel + 1, cur, depth => do
    if !isPair cur then return ([], ← qqTransfer fuel cur depth)
    match ← qqTakeForm cur with
    | some (kind, arg) =>
      -- `(a . ,v)` is read as `(a unquote v)`: the rest of the list is itself a form.
      if kind = .splice ∧ depth = 1 then
        errorAt (.behind "bad syntax in quasiquote\n  " ("note: unquote-splicing (,@) is not " ++
          "allowed in the tail position of a dotted list"))
      return ([], ← qqFormCode fuel kind arg depth)
    | none =>
      let (a, rest) ← asPair cur
      let step ← match ← qqTakeForm a with
        | some (kind, arg) =>
          if kind = .splice ∧ depth = 1 then pure (true, arg)
          else (do return (false, ← qqFormCode fuel kind arg depth))
        | none =>
          if isPair a then (do return (false, ← qqTransfer fuel a depth))
          else (do return (false, ← qqQuoteOf a))
      let (steps, tail) ← qqList fuel rest depth
      return (step :: steps, tail)

end

/-! ### Internal definitions -/

/-- The binding that an internal definition becomes. -/
def internalBinding (form : Value) : DataM X Value := do
  let drest ← cdr form
  if drest = .nil then syntaxError "define" "internal define needs a name"
  let (lhs, rhsTail) ← asPair drest
  match lhs with
  | .sym _ =>
    if rhsTail = .nil then syntaxError "define" "internal define needs a value expression"
    listFrom [lhs, ← car rhsTail]
  | .pair _ =>
    let (name, params) ← asPair lhs
    if !isSymbol name then
      syntaxError "define" "expected (define name expr) or (define (name . params) body ...)"
    let lambdaExpr ← makePair (.sym "lambda") (← makePair params rhsTail)
    listFrom [name, lambdaExpr]
  | _ => syntaxError "define" "expected (define name expr) or (define (name . params) body ...)"

/-- Whether a form of a body is an internal definition. -/
def isDefine (form : Value) : DataM X Bool := do
  if !isPair form then return false
  return (← car form) == .sym "define"

/-- The bindings of the leading definitions, and the other forms. -/
def leadingDefines : List Value → DataM X (List Value × List Value)
  | [] => return ([], [])
  | form :: forms => do
    if !(← isDefine form) then return ([], form :: forms)
    let b ← internalBinding form
    let (bs, rest) ← leadingDefines forms
    return (b :: bs, rest)

/-- `scan_out_defines`. -/
def scanOutDefines (body : Value) : DataM X Value := do
  let forms ← listToVector body "lambda body"
  let (bindings, rest) ← leadingDefines forms
  if bindings = [] then return body
  let bindingList ← listFrom bindings
  let letrecForm ← listFrom (.sym "letrec" :: bindingList ::
    if rest = [] then [.sym ":undef"] else rest)
  listFrom [letrecForm]

/-! ### One step -/

/-- The derived forms. -/
inductive Derived where
  | letF
  | letStar
  | letrecF
  | andF
  | orF
  | condF
  | caseF
  | doF
  | quasiquoteF
  deriving DecidableEq, Repr

/-- The derived form a word stands for. -/
def derivedOf : String → Option Derived
  | "let" => some .letF
  | "let*" => some .letStar
  | "letrec" => some .letrecF
  | "and" => some .andF
  | "or" => some .orF
  | "cond" => some .condF
  | "case" => some .caseF
  | "do" => some .doF
  | "quasiquote" => some .quasiquoteF
  | _ => none

/-- A derived form is expanded. -/
def expandDerived (fuel : ℕ) (form : Value) : Derived → DataM X Value
  | .letF => expandLet form
  | .letStar => expandLetStar form
  | .letrecF => expandLetrec form
  | .andF => expandAnd form
  | .orF => expandOr form
  | .condF => expandCond form
  | .caseF => expandCase form
  | .doF => expandDo form
  | .quasiquoteF => do
    checkArity "quasiquote" (← cdr form) 1 1
    qqTransfer fuel (← car (← cdr form)) 1

/-- `expand_form_1`. -/
def expandForm1 (fuel : ℕ) (form : Value) : DataM X Value := do
  if !isPair form then return form
  match ← car form with
  | .sym name =>
    match derivedOf name with
    | some d => expandDerived fuel form d
    | none => return form
  | _ => return form

end Scheme14
