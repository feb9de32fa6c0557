/-!
Decimal numerals. A numeral is one or more ASCII digits; a number read from text may have one sign in
front and has to fit into 64 bits. Anything else is not a number.
-/

namespace Minuscule.Numeral

def digit (c : Char) : Nat :=
  c.toNat - '0'.toNat

def value (digits : List Char) : Nat :=
  digits.foldl (fun n c => 10 * n + digit c) 0

def digits? (text : List Char) : Option Nat :=
  if text ≠ [] ∧ text.all Char.isDigit then some (value text) else none

/-- The largest unsigned number of 64 bits. -/
def unsignedMax : Nat := 0xffffffffffffffff

/-- The largest signed number of 64 bits; the smallest is one further from zero. -/
def signedMax : Nat := 0x7fffffffffffffff

def unsigned? (text : String) : Option Nat :=
  let digits := match text.toList with
    | '+' :: rest => rest
    | unmarked => unmarked
  (digits? digits).filter (· ≤ unsignedMax)

def signed? (text : String) : Option Int :=
  let upTo (limit : Nat) (digits : List Char) := (digits? digits).filter (· ≤ limit)
  match text.toList with
  | '-' :: rest => (upTo (signedMax + 1) rest).map fun n => -(n : Int)
  | '+' :: rest => (upTo signedMax rest).map Int.ofNat
  | unmarked => (upTo signedMax unmarked).map Int.ofNat

end Minuscule.Numeral
