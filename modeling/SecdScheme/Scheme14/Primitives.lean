import SecdScheme.Scheme14.Syntax

/-!
# scheme14: the primitives that read a representation

The primitives that call an accessor, `as_pair`, `as_string` or
`as_symbol_name`; an accessor that is given another value is an internal
error. They work on the arguments they are given, which a call checks the
number of first. A walk along a list that the program does not protect from
circular lists runs on fuel.
-/

namespace Scheme14

variable {X : Type}

/-! ## Accessors and checks -/

/-- `as_symbol_name`. -/
def asSymbolName : Value → DataM X String
  | .sym name => pure name
  | _ => internalError "as_symbol_name on a non-symbol"

/-- `as_string`. -/
def asString (v : Value) : DataM X String := fun s =>
  match v with
  | .string a => (.ok ((s.strings[a]?).getD ""), s)
  | _ => (.error (.internal "as_string on a non-string"), s)

/-- `is_string`. -/
def isString : Value → Bool
  | .string _ => true
  | _ => false

/-- `need_args`; `hi` is `0` where there is no bound. -/
def needArgsBetween (who : String) (args : List Value) (lo hi : ℕ) : DataM X Unit :=
  if args.length < lo ∨ hi ≠ 0 ∧ hi < args.length then
    errorAt (who ++ ": wrong number of arguments\n  " ++ arityDetail lo hi args.length)
  else pure ()

/-- `prim_type_error`. -/
def primTypeError {α : Type} (who expected : String) (got : Value) : DataM X α :=
  errorAt (.behind (who ++ ": wrong type of argument\n  ") (expectedGiven expected got))

/-- An argument. -/
def arg (args : List Value) (i : ℕ) : Value := args.getD i .nil

/-- A new string. -/
def makeString (text : String) : DataM X Value := fun s =>
  (.ok (.string s.strings.length), { s with strings := s.strings ++ [text] })

/-! ## Pairs -/

/-- `car` and `cdr`. -/
def primField (who : String) (field : Value × Value → Value) (args : List Value) :
    DataM X Value := do
  needArgsBetween who args 1 1
  if !isPair (arg args 0) then primTypeError who "a pair" (arg args 0)
  return field (← asPair (arg args 0))

/-- `prim_car`. -/
def primCar (args : List Value) : DataM X Value := primField "car" Prod.fst args

/-- `prim_cdr`. -/
def primCdr (args : List Value) : DataM X Value := primField "cdr" Prod.snd args

/-- The pair at an address is replaced. -/
def setPair (v : Value) (p : Value × Value) : DataM X Unit :=
  Cmd.modifyState fun s =>
    match v with
    | .pair a => { s with pairs := s.pairs.set a p }
    | _ => s

/-- `set-car!` and `set-cdr!`. -/
def primSetField (who : String) (update : Value × Value → Value → Value × Value)
    (args : List Value) : DataM X Value := do
  needArgsBetween who args 2 2
  if !isPair (arg args 0) then primTypeError who "a pair" (arg args 0)
  let p ← asPair (arg args 0)
  setPair (arg args 0) (update p (arg args 1))
  return arg args 1

/-- `prim_set_car`. -/
def primSetCar (args : List Value) : DataM X Value :=
  primSetField "set-car!" (fun p v => (v, p.2)) args

/-- `prim_set_cdr`. -/
def primSetCdr (args : List Value) : DataM X Value :=
  primSetField "set-cdr!" (fun p v => (p.1, v)) args

/-- The loop of `cxr`, from the last letter of the path on. -/
def cxr (who : String) : List Char → Value → DataM X Value
  | [], v => return v
  | op :: ops, v => do
    if !isPair v then primTypeError who "a pair" v
    let p ← asPair v
    cxr who ops (if op = 'a' then p.1 else p.2)

/-- The composed accessors. -/
def primCxr (who path : String) (args : List Value) : DataM X Value := do
  needArgsBetween who args 1 1
  cxr who path.toList.reverse (arg args 0)

/-- `caar`. -/
def primCaar (args : List Value) : DataM X Value := primCxr "caar" "aa" args

/-- `cadr`. -/
def primCadr (args : List Value) : DataM X Value := primCxr "cadr" "ad" args

/-- `cdar`. -/
def primCdar (args : List Value) : DataM X Value := primCxr "cdar" "da" args

/-- `cddr`. -/
def primCddr (args : List Value) : DataM X Value := primCxr "cddr" "dd" args

/-- `caddr`. -/
def primCaddr (args : List Value) : DataM X Value := primCxr "caddr" "add" args

/-- `cdddr`. -/
def primCdddr (args : List Value) : DataM X Value := primCxr "cdddr" "ddd" args

/-! ## Lists -/

/-- The loop of `is_proper_list`. -/
def properFrom : ℕ → Value → Value → DataM X Bool
  | 0, _, _ => Cmd.fail .outOfFuel
  | fuel + 1, slow, fast => do
    if fast = .nil then return true
    if !isPair fast then return false
    let fast ← cdr fast
    if fast = .nil then return true
    if !isPair fast then return false
    let fast ← cdr fast
    let slow ← cdr slow
    if slow = fast then return false
    properFrom fuel slow fast

/-- `is_proper_list`. -/
def isProperList (v : Value) : DataM X Bool := do
  properFrom ((← Cmd.getState).pairs.length + 1) v v

/-- The loop of `length`. -/
def countPairs : ℕ → Value → DataM X ℕ
  | 0, _ => Cmd.fail .outOfFuel
  | fuel + 1, ls => do
    if ls = .nil then return 0
    return (← countPairs fuel (← cdr ls)) + 1

/-- `prim_length`: a list that goes round is no proper one. -/
def primLength (args : List Value) : DataM X Value := do
  needArgsBetween "length" args 1 1
  if !(← isProperList (arg args 0)) then
    primTypeError "length" "a proper list" (arg args 0)
  return .int (← countPairs ((← Cmd.getState).pairs.length + 1) (arg args 0))

/-- `prim_listp`. -/
def primListp (args : List Value) : DataM X Value := do
  needArgsBetween "list?" args 1 1
  return .bool (← isProperList (arg args 0))

/-- A loop along a list that stops at what is no pair; an error shows the whole list. -/
def eachElement {α : Type} (who expected : String) (whole : Value) (f : Value → Value → DataM X (Option α)) :
    ℕ → Value → DataM X (List α × Option Value)
  | 0, _ => Cmd.fail .outOfFuel
  | fuel + 1, ls => do
    if ls = .nil then return ([], none)
    if !isPair ls then primTypeError who expected whole
    match ← f ls (← car ls) with
    | none => return ([], some ls)
    | some x =>
      let (xs, found) ← eachElement who expected whole f fuel (← cdr ls)
      return (x :: xs, found)

/-- The elements of the arguments of `append`, but for the last one. -/
def appendElements (fuel : ℕ) : List Value → DataM X (List Value)
  | [] => return []
  | ls :: rest => do
    let (xs, _) ← eachElement "append" "a proper list" ls (fun _ x => return some x) fuel ls
    return xs ++ (← appendElements fuel rest)

/-- The pairs of `append`, from the last one on. -/
def consAll : List Value → Value → DataM X Value
  | [], tail => return tail
  | x :: xs, tail => do makePair x (← consAll xs tail)

/-- `prim_append`: the last argument is shared, the others are copied. -/
def primAppend (args : List Value) : DataM X Value := do
  match args.getLast? with
  | none => return .nil
  | some last =>
    let elems ← appendElements ((← Cmd.getState).pairs.length + 1) args.dropLast
    consAll elems last

/-- `eqv_values`: numbers are the same when exactness and value are. -/
def eqvValues (x y : Value) : Bool := x == y

/-- The loop of `memq`: it stops at the pair that has the object. -/
def primMemq (args : List Value) : DataM X Value := do
  needArgsBetween "memq" args 2 2
  let (_, found) ← eachElement "memq" "a proper list" (arg args 1)
    (fun _ x => return if eqvValues x (arg args 0) then none else some ())
    ((← Cmd.getState).pairs.length + 1) (arg args 1)
  return found.getD (.bool false)

/-- The loop of `assq`: it stops at the pair whose element has the key. -/
def primAssq (args : List Value) : DataM X Value := do
  needArgsBetween "assq" args 2 2
  let (_, found) ← eachElement "assq" "a proper association list" (arg args 1)
    (fun _ e => do
      if isPair e then
        return if eqvValues (← car e) (arg args 0) then none else some ()
      else return some ())
    ((← Cmd.getState).pairs.length + 1) (arg args 1)
  match found with
  | none => return .bool false
  | some ls => car ls

/-! ## equal? -/

mutual

/-- `equal_values`, with its accessors; what is being compared is remembered. -/
def equalRead : ℕ → Value → Value → List (Value × Value) → DataM X Bool
  | 0, _, _, _ => Cmd.fail .outOfFuel
  | fuel + 1, a, b, seen => do
    if eqvValues a b then return true
    match a, b with
    | .string i, .string j =>
      let s ← Cmd.getState
      return (s.strings[i]?).getD "" == (s.strings[j]?).getD ""
    | .vector i, .vector j =>
      match seen.lookup a with
      | some c => return c == b
      | none =>
        let s ← Cmd.getState
        let xs := (s.vectors[i]?).getD []
        let ys := (s.vectors[j]?).getD []
        if xs.length ≠ ys.length then return false
        equalReadElems fuel (xs.zip ys) ((a, b) :: seen)
    | .pair _, .pair _ => equalReadLists fuel a b seen
    | _, _ => return false

/-- The loop along two vectors. -/
def equalReadElems : ℕ → List (Value × Value) → List (Value × Value) → DataM X Bool
  | 0, _, _ => Cmd.fail .outOfFuel
  | _ + 1, [], _ => return true
  | fuel + 1, (x, y) :: xys, seen => do
    if !(← equalRead fuel x y seen) then return false
    equalReadElems fuel xys seen

/-- The loop along two lists. -/
def equalReadLists : ℕ → Value → Value → List (Value × Value) → DataM X Bool
  | 0, _, _, _ => Cmd.fail .outOfFuel
  | fuel + 1, a, b, seen => do
    match seen.lookup a with
    | some c => return c == b
    | none =>
      let p ← asPair a
      let q ← asPair b
      if !(← equalRead fuel p.1 q.1 ((a, b) :: seen)) then return false
      if p.2 = q.2 then return true
      if isPair p.2 ≠ isPair q.2 then return false
      if !isPair p.2 then equalRead fuel p.2 q.2 ((a, b) :: seen)
      else equalReadLists fuel p.2 q.2 ((a, b) :: seen)

end

/-- `equal?`; another number of arguments is no error. -/
def primEqual (fuel : ℕ) (args : List Value) : DataM X Value := do
  if args.length ≠ 2 then return .bool false
  return .bool (← equalRead fuel (arg args 0) (arg args 1) [])

/-! ## Strings and symbols -/

/-- `str_of`. -/
def strOf (who : String) (v : Value) : DataM X String := do
  if !isString v then primTypeError who "a string" v
  return ((← Cmd.getState).strings[match v with | .string a => a | _ => 0]?).getD ""

/-- `prim_list_to_string`: of every element the first character. -/
def primListToString (args : List Value) : DataM X Value := do
  needArgsBetween "list->string" args 1 1
  let (chars, _) ← eachElement "list->string" "a proper list" (arg args 0)
    (fun _ x => do return some ((← strOf "list->string" x).toList.take 1))
    ((← Cmd.getState).pairs.length + 1) (arg args 0)
  makeString (String.ofList chars.flatten)

/-- `prim_symbol_to_string`, which makes no test of the type of its argument. -/
def primSymbolToString (args : List Value) : DataM X Value := do
  needArgsBetween "symbol->string" args 1 1
  makeString (← asSymbolName (arg args 0))

/-- `prim_make_error_object`. -/
def primMakeErrorObject (args : List Value) : DataM X Value := do
  needArgsBetween "%make-error-object" args 1 1
  if !isString (arg args 0) then primTypeError "%make-error-object" "a string" (arg args 0)
  let message ← asString (arg args 0)
  fun s => (.ok (.errorObj s.errors.length), { s with errors := s.errors ++ [↑message] })

end Scheme14
