import SecdScheme.Scheme14.Reader
import Mathlib.Data.Nat.Digits.Defs

/-!
# scheme14: the printer and `equal?`

`write_value` goes down the `car`s and along the `cdr`s of a value, and keeps
the pairs and vectors it is in, so that a circle is found. `equal_values`
keeps which objects it has taken for equal. Both have here a bound on their
recursion that the program does not have.

What both do is first said of trees: a value unfolds to a datum when the
tables hold the objects of the datum below it, shared or not.
-/

namespace Scheme14

variable {X : Type}

/-! ## Unfolding -/

/-- A value that is written and compared without its parts. -/
def Value.isAtom : Value → Bool
  | .string _ | .vector _ | .pair _ | .values _ => false
  | _ => true

mutual

/-- **A value unfolds to a datum.** -/
def Data.Unfolds (s : Data X) (v : Value) : Datum → Prop
  | .atom w => v = w ∧ v.isAtom = true
  | .string t => ∃ a, v = .string a ∧ s.strings[a]? = some t
  | .vector ds => ∃ a vs, v = .vector a ∧ s.vectors[a]? = some vs ∧ s.UnfoldsEach vs ds
  | .pair d e => ∃ a x y, v = .pair a ∧ s.pairs[a]? = some (x, y) ∧ s.Unfolds x d ∧ s.Unfolds y e

/-- Values unfold to data, one by one. -/
def Data.UnfoldsEach (s : Data X) (vs : List Value) : List Datum → Prop
  | [] => vs = []
  | d :: ds => ∃ v us, vs = v :: us ∧ s.Unfolds v d ∧ s.UnfoldsEach us ds

end

/-! ## The printer -/

/-- The decimal digits of a natural number. -/
def decimalNat (n : ℕ) : Text :=
  if n = 0 then ['0'] else (Nat.digits 10 n).reverse.map fun k => Char.ofNat (48 + k)

/-- `std::to_string` and `str` of an integer. -/
def decimal (n : ℤ) : Text :=
  if n < 0 then '-' :: decimalNat n.natAbs else decimalNat n.natAbs

/-- The texts of atoms. What an object of another table looks like is a
parameter. -/
def atomText (objectText : Value → Text) : Value → Text
  | .int n => decimal n
  | .nil => ['N', 'I', 'L']
  | .bool true => ['T', 'R', 'U', 'E']
  | .bool false => ['F', 'A', 'L', 'S', 'E']
  | .sym name => name.toList
  | v => objectText v

/-- A string is written as it is. -/
def stringText (s : String) : Text := dquote :: (s.toList ++ [dquote])

section Write

variable (objectText : Value → Text) (boxed : ℕ → List Value) (s : Data X)

mutual

/-- **`write_value`**; the path has the pairs and vectors around. What is in a box
of multiple values is a parameter, as the box is not in the tables. -/
def writeValue : ℕ → Value → List Value → Option Text
  | 0, _, _ => none
  | fuel + 1, v, path =>
    match v with
    | .pair _ => do return '(' :: (← writeTail fuel true v path)
    | .vector a =>
      if v ∈ path then some "#<circular-vector>".toList
      else do
        let elems := (s.vectors[a]?).getD []
        return '#' :: '(' :: (← writeElems fuel true elems (v :: path))
    | .string a => some (stringText ((s.strings[a]?).getD ""))
    | .values a => do return "#<values".toList ++ (← writeBox fuel (boxed a) path)
    | v => some (atomText objectText v)

/-- The loop of `write_list`, and the parenthesis at its end. -/
def writeTail : ℕ → Bool → Value → List Value → Option Text
  | 0, _, _, _ => none
  | fuel + 1, first, ls, path =>
    if ls = .nil then some [')']
    else match s.pairAt ls with
      | none => do return [' ', '.', ' '] ++ (← writeValue fuel ls path) ++ [')']
      | some (x, y) =>
        if ls ∈ path then some " . #<circular>)".toList
        else do
          let text ← writeValue fuel x (ls :: path)
          return (if first then [] else [' ']) ++ text ++ (← writeTail fuel false y (ls :: path))

/-- The loop of `write_vector`, and the parenthesis at its end. -/
def writeElems : ℕ → Bool → List Value → List Value → Option Text
  | 0, _, _, _ => none
  | _ + 1, _, [], _ => some [')']
  | fuel + 1, first, v :: vs, path => do
    let text ← writeValue fuel v path
    return (if first then [] else [' ']) ++ text ++ (← writeElems fuel false vs path)

/-- The loop over the values of a box, and the bracket at its end. -/
def writeBox : ℕ → List Value → List Value → Option Text
  | 0, _, _ => none
  | _ + 1, [], _ => some ['>']
  | fuel + 1, v :: vs, path => do
    let text ← writeValue fuel v path
    return ' ' :: (text ++ (← writeBox fuel vs path))

end

end Write

/-! ## The text of a tree -/

section Text

variable (objectText : Value → Text)

mutual

/-- The text of a datum. -/
def Datum.text : Datum → Text
  | .atom v => atomText objectText v
  | .string s => stringText s
  | .vector xs => '#' :: '(' :: Datum.elemsText true xs
  | .pair a d => '(' :: (a.text ++ d.tailText)

/-- What comes after the first element of a list. -/
def Datum.tailText : Datum → Text
  | .atom v => if v = .nil then [')'] else [' ', '.', ' '] ++ atomText objectText v ++ [')']
  | .string s => [' ', '.', ' '] ++ stringText s ++ [')']
  | .vector xs => [' ', '.', ' '] ++ ('#' :: '(' :: Datum.elemsText true xs) ++ [')']
  | .pair a d => ' ' :: (a.text ++ d.tailText)

/-- The elements of a vector, and the parenthesis. -/
def Datum.elemsText : Bool → List Datum → Text
  | _, [] => [')']
  | first, x :: xs => (if first then [] else [' ']) ++ x.text ++ Datum.elemsText false xs

end

end Text

/-! ## `equal?` -/

section Equal

variable (s : Data X)

mutual

/-- **`equal_values`**; `seen` has the objects taken for equal. -/
def equalValues : ℕ → List (Value × Value) → Value → Value → Option Bool
  | 0, _, _, _ => none
  | fuel + 1, seen, a, b =>
    -- numbers are equal when they are the same number of the same exactness
    if a = b then some true
    else match a, b with
      | .string x, .string y => some (s.strings[x]? == s.strings[y]?)
      | .vector x, .vector y =>
        match seen.lookup a with
        | some b' => some (b' == b)
        | none =>
          let xs := (s.vectors[x]?).getD []
          let ys := (s.vectors[y]?).getD []
          if xs.length ≠ ys.length then some false else equalElems fuel ((a, b) :: seen) xs ys
      | .pair _, .pair _ => equalPairs fuel seen a b
      | _, _ => some false

/-- The elements of two vectors. -/
def equalElems : ℕ → List (Value × Value) → List Value → List Value → Option Bool
  | 0, _, _, _ => none
  | fuel + 1, seen, x :: xs, y :: ys => do
    if !(← equalValues fuel seen x y) then return false
    equalElems fuel seen xs ys
  | _ + 1, _, _, _ => some true

/-- The loop along the `cdr`s. -/
def equalPairs : ℕ → List (Value × Value) → Value → Value → Option Bool
  | 0, _, _, _ => none
  | fuel + 1, seen, a, b =>
    match seen.lookup a with
    | some b' => some (b' == b)
    | none =>
      match s.pairAt a, s.pairAt b with
      | some (x, u), some (y, v) => do
        let seen := (a, b) :: seen
        if !(← equalValues fuel seen x y) then return false
        if u = v then return true
        if isPair u ≠ isPair v then return false
        if isPair u then equalPairs fuel seen u v else equalValues fuel seen u v
      | _, _ => none

end

end Equal

end Scheme14
