import SecdScheme.Scheme14.Machine
import SecdScheme.Scheme14.Primitives
import SecdScheme.Scheme14.Reader
import SecdScheme.Scheme14.Safety

/-!
# scheme14: the library's handlers

`with-exception-handler` and `raise` are procedures of the library, over
primitives that only keep the handler and the wind list. Both are here, with
a host that has these primitives.
-/

namespace Scheme14

variable {X : Type}

/-! ## Primitives -/

/-- `prim_cons`. -/
def primCons (args : List Value) : DataM X Value := do
  needArgsBetween "cons" args 2 2
  makePair (arg args 0) (arg args 1)

/-- `prim_not`. -/
def primNot (args : List Value) : DataM X Value := do
  needArgsBetween "not" args 1 1
  return .bool (!(arg args 0).isTrue)

/-- `prim_procedurep`. -/
def primProcedurep (args : List Value) : DataM X Value := do
  needArgsBetween "procedure?" args 1 1
  return .bool (match arg args 0 with
    | .prim _ | .closure _ | .scratch | .cont _ => true
    | _ => false)

/-- `prim_current_exception_handler`: `#f` where there is none. -/
def primCurrentExceptionHandler (args : List Value) : DataM X Value := do
  needArgsBetween "%current-exception-handler" args 0 0
  return (← Cmd.getState).handler.getD (.bool false)

/-- `prim_set_exception_handler`. -/
def primSetExceptionHandler (args : List Value) : DataM X Value := do
  needArgsBetween "%set-exception-handler!" args 1 1
  Cmd.modifyState fun s => { s with handler := some (arg args 0) }
  return .nil

/-- `prim_wind_push`: every entry gets a new number. -/
def primWindPush (args : List Value) : DataM X Value := do
  needArgsBetween "%wind-push" args 2 2
  Cmd.modifyState fun s => { s with
    winds := s.winds ++ [⟨arg args 0, arg args 1, s.windNextId⟩]
    windNextId := s.windNextId + 1 }
  return .nil

/-- `prim_wind_pop`. -/
def primWindPop (args : List Value) : DataM X Value := do
  needArgsBetween "%wind-pop" args 0 0
  Cmd.modifyState fun s => { s with winds := s.winds.dropLast }
  return .nil

/-- The primitives, by name. -/
def handlerPrims : List (String × (List Value → DataM X Value)) :=
  [("cons", primCons), ("car", primCar), ("cdr", primCdr), ("not", primNot),
    ("procedure?", primProcedurep), ("%current-exception-handler", primCurrentExceptionHandler),
    ("%set-exception-handler!", primSetExceptionHandler), ("%wind-push", primWindPush),
    ("%wind-pop", primWindPop)]

/-- A host with these primitives, and with one file. -/
def handlerHost (file : List Datum) : Host Unit where
  kind name := if name = "load" then .load else .data
  apply name args := match handlerPrims.lookup name with
    | some prim => prim args
    | none => internalError "no such primitive"
  readForms _ := Datum.makeEach file
  testMode _ := false
  reportTest _ _ := return ()

/-! ## Procedures -/

/-- A list, as it is written. -/
def Datum.list (xs : List Datum) : Datum := xs.foldr .pair .nil

/-- `(define name (lambda params body …))`. -/
def defineLambda (name : String) (params : List String) (body : List Datum) : Datum :=
  .list [.sym "define", .sym name,
    .list (.sym "lambda" :: .list (params.map .sym) :: body)]

/-- A call of what a variable holds. -/
def callOf (name : String) (args : List Datum) : Datum := .list (.sym name :: args)

/-- `dynamic-wind`, as the library defines it. -/
def libraryDynamicWind : Datum :=
  defineLambda "dynamic-wind" ["before", "thunk", "after"]
    [callOf "before" [], callOf "%wind-push" [.sym "before", .sym "after"],
      .list [.sym "let", .list [.list [.sym "result", callOf "thunk" []]],
        callOf "%wind-pop" [], callOf "after" [], .sym "result"]]

/-- The check of an argument of `with-exception-handler`. -/
def checkProcedure (name : String) : Datum :=
  .list [.sym "if", callOf "not" [callOf "procedure?" [.sym name]],
    callOf "error"
      [.string "with-exception-handler: wrong type of argument\n  expected: a procedure",
        .sym name]]

/-- `with-exception-handler`: the handler is installed on the way in, and the outer one
again on the way out. -/
def libraryWithExceptionHandler : Datum :=
  defineLambda "with-exception-handler" ["handler", "thunk"]
    [checkProcedure "handler", checkProcedure "thunk",
      .list [.sym "let", .list [.list [.sym "outer", callOf "%current-exception-handler" []]],
        callOf "dynamic-wind"
          [.list [.sym "lambda", .nil,
            callOf "%set-exception-handler!" [callOf "cons" [.sym "handler", .sym "outer"]]],
          .sym "thunk",
          .list [.sym "lambda", .nil, callOf "%set-exception-handler!" [.sym "outer"]]]]]

/-- `raise`: the handler is called with the outer one installed, and may not return. -/
def libraryRaise : Datum :=
  defineLambda "raise" ["obj"]
    [.list [.sym "let", .list [.list [.sym "cell", callOf "%current-exception-handler" []]],
      .list [.sym "if", callOf "not" [.sym "cell"], callOf "%abort-exception" [.sym "obj"],
        .list [.sym "begin", callOf "%set-exception-handler!" [callOf "cdr" [.sym "cell"]],
          .list [callOf "car" [.sym "cell"], .sym "obj"],
          callOf "raise" [callOf "%make-error-object" [.string "exception handler returned"]]]]]]

/-- A world whose global variables are the primitives. -/
def handlerWorld : World Unit :=
  { pairsWorld [] with
    globals := fun t name =>
      if t = .interaction ∧ ((handlerPrims (X := Unit)).lookup name).isSome then some (.prim name)
      else none }

/-- The forms are made, and evaluated with a machine. -/
def playData (host : Host X) (n : ℕ) (forms : List Datum) (w : World X) : World X :=
  match onData (Datum.makeEach forms) w with
  | (.ok vs, w') => playForms host n vs w'
  | (.error _, w') => w'

/-- The world with the library's procedures. -/
def libraryWorld : World Unit :=
  playData (handlerHost []) 20
    [libraryDynamicWind, libraryWithExceptionHandler, libraryRaise] handlerWorld

end Scheme14
