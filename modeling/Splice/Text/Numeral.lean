import Splice.Text.Digit

/-!
This module contains the reading of natural numbers in a base of at most 36.
-/

namespace Splice
namespace Text

/--
The number that the digits `cs` give behind digits of the value `value`. Underscores between the
digits are skipped.
-/
def digits? (base value : Nat) : List Char → Option Nat
  | [] => some value
  | c :: cs =>
    if c = '_' then
      digits? base value cs
    else
      match digitIn? base c with
      | some d => digits? base (value * base + d) cs
      | none => none

/--
The number that is written as `cs`. A plus sign may stand in front. There has to be a digit, and no
underscore in front of the first one.
-/
def numeral? (base : Nat) (cs : List Char) : Option Nat :=
  match dropSign cs with
  | [] => none
  | c :: rest => if c = '_' then none else digits? base 0 (c :: rest)
where
  dropSign : List Char → List Char
    | '+' :: cs => cs
    | cs => cs

end Text
end Splice
