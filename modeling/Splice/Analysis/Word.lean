import Splice.Text.Numeral
import Splice.Tree.Basic

/-!
This module contains the machine words that literals stand for. A word has 256 bits, or 32 bytes.
-/

namespace Splice

def wordBytes : Nat := 32

def wordCount : Nat := Nat.pow 256 wordBytes

namespace Literal

def number? (text : String) : Option Nat :=
  match text.toList with
  | '0' :: 'x' :: digits => Text.numeral? 16 digits
  | '0' :: 'X' :: digits => Text.numeral? 16 digits
  | digits => Text.numeral? 10 digits

/--
The bytes of one character of a string literal. The characters up to `\xff` are the bytes that the
escapes for bytes stand for, all others have their UTF-8 encoding.
-/
def charBytes (c : Char) : List Nat :=
  if c.toNat ≤ 0xff then [c.toNat] else (String.utf8EncodeChar c).map UInt8.toNat

def bytes (text : String) : List Nat :=
  text.toList.flatMap charBytes

def ofBytes (bytes : List Nat) : Nat :=
  bytes.foldl (fun value byte => value * 256 + byte) 0

/--
The value of a literal, if it has one. The bytes of a string are the first ones of a word, and what
is left of the word is zero.
-/
def value? (l : Literal) : Option Nat :=
  match l.kind with
  | .number => number? l.text
  | .boolean => some (if l.text = "true" then 1 else 0)
  | .string =>
    let bs := bytes l.text
    some (ofBytes (bs ++ List.replicate (wordBytes - bs.length) 0))

end Literal
end Splice
