import SecdScheme.Scheme14.Values
import Mathlib.Algebra.Group.Nat.Defs

/-!
# scheme14: the reader

A text is the list of its bytes, each as the character of that number. The
reader takes its text from the front: what it leaves is where it stands. What
it reads is a datum, a tree of fresh objects, which `Datum.make` puts into
the tables. Source positions are left out.
-/

namespace Scheme14

/-- A text: its bytes. -/
abbrev Text := List Char

/-- **What a text can denote**: an atom, which is immediate, or an object of
strings, vectors and pairs. -/
inductive Datum where
  | atom (v : Value)
  | string (s : String)
  | vector (xs : List Datum)
  | pair (a d : Datum)

namespace Datum

/-- The empty list. -/
def nil : Datum := .atom .nil

/-- A symbol. -/
def sym (name : String) : Datum := .atom (.sym name)

/-- The list of two elements. -/
def two (x y : Datum) : Datum := .pair x (.pair y nil)

end Datum

/-- How reading fails. An error of the reader goes to no handler. -/
inductive ReadError where
  | scheme (message : String)
  /-- An exception of the big integers. -/
  | standard (what : String)
  | outOfFuel
  deriving DecidableEq, Repr

/-! ## Characters -/

/-- `std::isspace`. -/
def isSpace (c : Char) : Bool := c == ' ' || (9 ≤ c.toNat && c.toNat ≤ 13)

/-- The apostrophe. -/
def apostrophe : Char := Char.ofNat 39

/-- The backquote. -/
def backquote : Char := Char.ofNat 96

/-- The double quote. -/
def dquote : Char := Char.ofNat 34

/-- The backslash. -/
def backslash : Char := Char.ofNat 92

/-- `is_delimiter`. -/
def isDelimiter (c : Char) : Bool :=
  isSpace c || c == '(' || c == ')' || c == apostrophe || c == backquote || c == ',' ||
    c == dquote || c == ';'

/-- `delimiter_at`. -/
def delimiterNext : Text → Bool
  | [] => true
  | c :: _ => isDelimiter c

/-- `std::isdigit`. -/
def isDigit (c : Char) : Bool := 48 ≤ c.toNat && c.toNat ≤ 57

/-! ## Numbers -/

/-- The value of digits in a base. -/
def digitsValue (base : ℕ) (digits : Text) : ℕ :=
  digits.foldl (fun n c => n * base + (c.toNat - 48)) 0

/-- The constructor of a big integer from a text, which is no code of the program:
it stands for that of Boost.Multiprecision, as that is documented. A leading `0` is
for octal, and what is no digit of the base is refused. -/
def bigIntMagnitude : Text → Except ReadError ℕ
  | [] => .ok 0
  | c :: digits =>
    if c = '0' then
      if digits.all (fun d => d.toNat < 56) then .ok (digitsValue 8 digits)
      else .error (.standard "Unexpected content found while parsing character string.")
    else .ok (digitsValue 10 (c :: digits))

/-- `make_int_from_text`. -/
def makeIntFromText : Text → Except ReadError ℤ
  | [] => .ok 0
  | c :: digits =>
    if c = '-' then (bigIntMagnitude digits).map fun (n : ℕ) => -(n : ℤ)
    else (bigIntMagnitude (c :: digits)).map fun (n : ℕ) => (n : ℤ)

/-- The bits of the double nearest to a ratio; of two, the even one. -/
def doubleOfRatio (num den : ℕ) : ℕ :=
  if num = 0 then 0 else
    -- the exponent for which the ratio has 53 bits, if it can have them
    let estimate : ℤ := (Nat.log2 num : ℤ) - Nat.log2 den
    let below : Bool :=
      if 0 ≤ estimate then num < den * 2 ^ estimate.toNat
      else num * 2 ^ (-estimate).toNat < den
    let e : ℤ := max (estimate - (if below then 1 else 0) - 52) (-1074)
    let num := if 0 ≤ e then num else num * 2 ^ (-e).toNat
    let den := if 0 ≤ e then den * 2 ^ e.toNat else den
    let q := num / den
    let r := num % den
    let q := if den < 2 * r ∨ den = 2 * r ∧ q % 2 = 1 then q + 1 else q
    -- the hidden bit carries into the exponent
    min ((e + 1074).toNat * 2 ^ 52 + q) (2047 * 2 ^ 52)

/-- The sign bit of a double. -/
def signBit (negative : Bool) : ℕ := if negative then 2 ^ 63 else 0

/-- `std::from_chars`: the double of a decimal. -/
def doubleOfDecimal (negative : Bool) (digits : Text) (exponent : ℤ) : ℕ :=
  let n := digitsValue 10 digits
  signBit negative +
    if 0 ≤ exponent then doubleOfRatio (n * 10 ^ exponent.toNat) 1
    else doubleOfRatio n (10 ^ (-exponent).toNat)

/-- Whether a character is a sign. -/
def isSign (c : Char) : Bool := c == '+' || c == '-'

/-- An exponent, if there is one, and what is left; an exponent without
digits is none at all, and then the token is no number. -/
def exponentPart (t : Text) : Option (Option ℤ × Text) :=
  match t with
  | [] => some (none, [])
  | c :: t =>
    if c = 'e' ∨ c = 'E' then
      let negative := t.head? = some '-'
      let t := if t.head?.any isSign then t.drop 1 else t
      let digits := t.takeWhile isDigit
      let n : ℤ := digitsValue 10 digits
      if digits = [] then none
      else some (some (if negative then -n else n), t.dropWhile isDigit)
    else some (none, c :: t)

/-- **`parse_number`**: nothing where the token is not a number. -/
def parseNumber (tok : Text) : Except ReadError (Option Value) :=
  if tok = ['+', 'i', 'n', 'f', '.', '0'] then .ok (some (.real (2047 * 2 ^ 52)))
  else if tok = ['-', 'i', 'n', 'f', '.', '0'] then
    .ok (some (.real (signBit true + 2047 * 2 ^ 52)))
  else if tok = ['+', 'n', 'a', 'n', '.', '0'] ∨ tok = ['-', 'n', 'a', 'n', '.', '0'] then
    .ok (some (.real (4095 * 2 ^ 51)))
  else
    let negative := tok.head? = some '-'
    let body := if tok.head?.any isSign then tok.drop 1 else tok
    let int := body.takeWhile isDigit
    let t := body.dropWhile isDigit
    let point : Bool := t.head? = some '.'
    let frac := if point then (t.drop 1).takeWhile isDigit else []
    let t := if point then (t.drop 1).dropWhile isDigit else t
    if int = [] ∧ frac = [] then .ok none
    else match exponentPart t with
      | none => .ok none
      | some (exponent, rest) =>
        if rest ≠ [] then .ok none
        else if !point ∧ exponent = none then
          -- only a leading `+` is dropped
          (makeIntFromText (if tok.head? = some '+' then tok.drop 1 else tok)).map
            fun n => some (.int n)
        else .ok (some (.real
          (doubleOfDecimal negative (int ++ frac) (exponent.getD 0 - frac.length))))

/-! ## Separators -/

/-- `skip_atmosphere`: white space, and comments up to the end of the line. -/
def skipFrom : Bool → Text → Text
  | _, [] => []
  | true, c :: t => skipFrom (c != '\n') t
  | false, c :: t =>
    if isSpace c then skipFrom false t
    else if c = ';' then skipFrom true t
    else c :: t

/-- `skip_atmosphere`. -/
def skipAtmosphere (t : Text) : Text := skipFrom false t

/-! ## Data -/

/-- `error_at`, in the reader. -/
def readError {α : Type} (message : String) : Except ReadError α := .error (.scheme message)

/-- `read_string`, after the first quote. -/
def readString : Text → Except ReadError (Text × Text)
  | [] => readError "unexpected EOF in string literal"
  | c :: t =>
    if c = dquote then .ok ([], t)
    else if c = backslash then
      match t with
      | [] => readError "unexpected EOF in string literal"
      | n :: t => do
        let (s, rest) ← readString t
        return ((if n = 'n' then '\n' else n) :: s, rest)
    else do
      let (s, rest) ← readString t
      return (c :: s, rest)

/-- The datum of a token. -/
def atomOf (tok : Text) : Except ReadError Datum :=
  if tok = ['n', 'i', 'l'] then .ok .nil
  else if tok = ['t', 'r', 'u', 'e'] then .ok (.atom (.bool true))
  else if tok = ['f', 'a', 'l', 's', 'e'] then .ok (.atom (.bool false))
  else (parseNumber tok).map fun n => .atom (n.getD (.sym (String.ofList tok)))

/-- `read_atom`. -/
def readAtom (t : Text) : Except ReadError (Datum × Text) := do
  let tok := t.takeWhile (fun c => !isDelimiter c)
  if tok = [] then readError "empty token"
  else return (← atomOf tok, t.dropWhile (fun c => !isDelimiter c))

/-- The abbreviations: the word, and what follows the sign. -/
def abbreviation (c : Char) (t : Text) : Option (String × Text) :=
  if c = apostrophe then some ("quote", t)
  else if c = backquote then some ("quasiquote", t)
  else if c = ',' then
    if t.head? = some '@' then some ("splice", t.drop 1) else some ("unquote", t)
  else none

/-- `#t` and `#f`, after the sign. -/
def boolAfterSharp (t : Text) : Option (Bool × Text) :=
  match t with
  | [] => none
  | c :: t =>
    if !delimiterNext t then none
    else if c = 't' ∨ c = 'T' then some (true, t)
    else if c = 'f' ∨ c = 'F' then some (false, t)
    else none

mutual

/-- **`read_expr`**: nothing at the end of the text. -/
def readExpr : ℕ → Text → Except ReadError (Option (Datum × Text))
  | 0, _ => .error .outOfFuel
  | fuel + 1, t =>
    match skipAtmosphere t with
    | [] => .ok none
    | c :: t => (readDatum fuel c t).map some

/-- `read_expr`, from the first character of the datum on. -/
def readDatum : ℕ → Char → Text → Except ReadError (Datum × Text)
  | 0, _, _ => .error .outOfFuel
  | fuel + 1, c, t =>
    if c = '(' then readList fuel true t
    else if c = ')' then readError "unexpected ')'"
    else if c = dquote then (readString t).map fun r => (.string (String.ofList r.1), r.2)
    else match abbreviation c t with
      | some (head, t) => do
        match ← readExpr fuel t with
        | none => readError ("unexpected EOF after " ++ head ++ " abbreviation")
        | some (x, t) => return (.two (.sym head) x, t)
      | none =>
        if c = '#' ∧ t.head? = some '(' then
          (readVector fuel (t.drop 1)).map fun r => (.vector r.1, r.2)
        else match if c = '#' then boolAfterSharp t else none with
          | some (b, t) => .ok (.atom (.bool b), t)
          | none => readAtom (c :: t)

/-- The loop of `read_list`; the flag is up while there is no element. -/
def readList : ℕ → Bool → Text → Except ReadError (Datum × Text)
  | 0, _, _ => .error .outOfFuel
  | fuel + 1, first, t =>
    match skipAtmosphere t with
    | [] => readError "unexpected EOF in list"
    | c :: t =>
      if c = ')' then .ok (.nil, t)
      else if c = '.' ∧ delimiterNext t then
        if first then readError "misplaced '.' in list"
        else do
          match ← readExpr fuel t with
          | none => readError "unexpected EOF after '.'"
          | some (tail, t) =>
            match skipAtmosphere t with
            | [] => readError "unexpected EOF in list"
            | c :: t =>
              if c = ')' then return (tail, t)
              else readError "expected ')' after dotted tail"
      else do
        match ← readExpr fuel (c :: t) with
        | none => readError "unexpected EOF in list"
        | some (x, t) =>
          let (ls, t) ← readList fuel false t
          return (.pair x ls, t)

/-- The loop of `read_vector`. -/
def readVector : ℕ → Text → Except ReadError (List Datum × Text)
  | 0, _ => .error .outOfFuel
  | fuel + 1, t =>
    match skipAtmosphere t with
    | [] => readError "unexpected EOF in vector literal"
    | c :: t =>
      if c = ')' then .ok ([], t)
      else do
        match ← readExpr fuel (c :: t) with
        | none => readError "unexpected EOF in vector literal"
        | some (x, t) =>
          let (xs, t) ← readVector fuel t
          return (x :: xs, t)

end

/-- The depth of recursion that a text can need. -/
def readFuel (t : Text) : ℕ := 3 * t.length + 1

/-- `read_expr`, at the start of a text. -/
def readOne (t : Text) : Except ReadError (Option (Datum × Text)) := readExpr (readFuel t) t

/-- The loop of `read_all`. -/
def readAllFrom : ℕ → Text → Except ReadError (List Datum)
  | 0, _ => .error .outOfFuel
  | fuel + 1, t => do
    match ← readOne t with
    | none => return []
    | some (d, t) => return d :: (← readAllFrom fuel t)

/-- **`read_all`**. -/
def readAll (t : Text) : Except ReadError (List Datum) := readAllFrom (t.length + 1) t

/-! ## Data in the tables -/

variable {X : Type}

mutual

/-- The objects of a datum are made. -/
def Datum.make : Datum → DataM X Value
  | .atom v => return v
  | .string s => fun w => (.ok (.string w.strings.length), { w with strings := w.strings ++ [s] })
  | .vector xs => do
    let vs ← Datum.makeEach xs
    fun w => (.ok (.vector w.vectors.length), { w with vectors := w.vectors ++ [vs] })
  | .pair a d => do
    let d ← d.make
    makePair (← a.make) d

/-- Data are made, from the first one on. -/
def Datum.makeEach : List Datum → DataM X (List Value)
  | [] => return []
  | x :: xs => do
    let v ← x.make
    return v :: (← Datum.makeEach xs)

end

end Scheme14
