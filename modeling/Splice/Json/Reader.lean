import Splice.Json.Basic

/-!
This module contains the reading of JSON texts.
-/

namespace Splice
namespace Json

def isSpace (c : Char) : Bool :=
  c = ' ' || c = '\t' || c = '\n' || c = '\r'

def skipSpaces (cs : List Char) : List Char :=
  cs.dropWhile isSpace

def hexUnit? (a b c d : Char) : Option Nat := do
  let digits ← [a, b, c, d].mapM (Text.digitIn? 16)
  return digits.foldl (fun unit d => unit * 16 + d) 0

def startsPair (unit : Nat) : Bool :=
  0xd800 ≤ unit && unit < 0xdc00

def ofUnits? (high low : Nat) : Option Char :=
  if 0xdc00 ≤ low ∧ low < 0xe000 then
    some (Char.ofNat (0x10000 + (high - 0xd800) * 0x400 + (low - 0xdc00)))
  else
    none

def ofUnit? (unit : Nat) : Option Char :=
  if unit.isValidChar then some (Char.ofNat unit) else none

def letterEscape? : Char → Option Char
  | '"' => some '"'
  | '\\' => some '\\'
  | '/' => some '/'
  | 'b' => some '\x08'
  | 'f' => some '\x0c'
  | 'n' => some '\n'
  | 'r' => some '\r'
  | 't' => some '\t'
  | _ => none

def push (c? : Option Char) (rest? : Option (List Char × List Char)) :
    Option (List Char × List Char) := do
  let c ← c?
  let (text, rest) ← rest?
  return (c :: text, rest)

def readString? : List Char → Option (List Char × List Char)
  | [] => none
  | '"' :: rest => some ([], rest)
  | '\\' :: 'u' :: a :: b :: c :: d :: rest =>
    match hexUnit? a b c d with
    | none => none
    | some unit =>
      if startsPair unit then
        match rest with
        | '\\' :: 'u' :: e :: f :: g :: h :: rest =>
          push ((hexUnit? e f g h).bind (ofUnits? unit)) (readString? rest)
        | _ => none
      else
        push (ofUnit? unit) (readString? rest)
  | '\\' :: c :: rest => push (letterEscape? c) (readString? rest)
  | c :: rest => if c.toNat < 0x20 then none else push (some c) (readString? rest)

def readDigits? (cs : List Char) : Option (List Char × List Char) :=
  match cs.takeWhile Char.isDigit with
  | [] => none
  | digits => some (digits, cs.dropWhile Char.isDigit)

/--
The part of a number in front of its point: it starts with a zero only if it is one.
-/
def readInteger? (cs : List Char) : Option (List Char × List Char) :=
  match cs with
  | '0' :: rest => some (['0'], rest)
  | _ => readDigits? cs

def readFraction? (cs : List Char) : Option (List Char × List Char) :=
  match cs with
  | '.' :: rest => do
    let (digits, rest) ← readDigits? rest
    return ('.' :: digits, rest)
  | _ => some ([], cs)

def readExponent? (cs : List Char) : Option (List Char × List Char) :=
  match cs with
  | c :: '+' :: rest => if isMark c then signed [c, '+'] rest else some ([], cs)
  | c :: '-' :: rest => if isMark c then signed [c, '-'] rest else some ([], cs)
  | c :: rest => if isMark c then signed [c] rest else some ([], cs)
  | [] => some ([], [])
where
  isMark (c : Char) : Bool := c = 'e' || c = 'E'
  signed (front rest : List Char) : Option (List Char × List Char) := do
    let (digits, rest) ← readDigits? rest
    return (front ++ digits, rest)

def readNumber? (cs : List Char) : Option (List Char × List Char) := do
  let (sign, rest) := dropSign cs
  let (integer, rest) ← readInteger? rest
  let (fraction, rest) ← readFraction? rest
  let (exponent, rest) ← readExponent? rest
  return (sign ++ integer ++ fraction ++ exponent, rest)
where
  dropSign : List Char → List Char × List Char
    | '-' :: rest => (['-'], rest)
    | cs => ([], cs)

mutual

/--
A value, and what follows it. No more than two rounds take a character, so `2 * n + 1` rounds are
enough for a text of `n` characters.
-/
def readValue? : Nat → List Char → Option (Json × List Char)
  | 0, _ => none
  | n + 1, cs =>
    match skipSpaces cs with
    | 'n' :: 'u' :: 'l' :: 'l' :: rest => some (.null, rest)
    | 't' :: 'r' :: 'u' :: 'e' :: rest => some (.boolean true, rest)
    | 'f' :: 'a' :: 'l' :: 's' :: 'e' :: rest => some (.boolean false, rest)
    | '"' :: rest => do
      let (text, rest) ← readString? rest
      return (.string (String.ofList text), rest)
    | '[' :: rest =>
      match skipSpaces rest with
      | ']' :: rest => some (.list [], rest)
      | rest => do
        let (items, rest) ← readItems? n rest
        return (.list items, rest)
    | '\x7b' :: rest =>
      match skipSpaces rest with
      | '\x7d' :: rest => some (.object [], rest)
      | rest => do
        let (fields, rest) ← readFields? n rest
        return (.object fields, rest)
    | rest => do
      let (text, rest) ← readNumber? rest
      return (.number (String.ofList text), rest)

def readItems? : Nat → List Char → Option (List Json × List Char)
  | 0, _ => none
  | n + 1, cs => do
    let (item, rest) ← readValue? n cs
    match skipSpaces rest with
    | ',' :: rest =>
      let (items, rest) ← readItems? n rest
      return (item :: items, rest)
    | ']' :: rest => return ([item], rest)
    | _ => none

def readFields? : Nat → List Char → Option (List (String × Json) × List Char)
  | 0, _ => none
  | n + 1, cs => do
    match skipSpaces cs with
    | '"' :: rest =>
      let (name, rest) ← readString? rest
      match skipSpaces rest with
      | ':' :: rest =>
        let (v, rest) ← readValue? n rest
        let field := (String.ofList name, v)
        match skipSpaces rest with
        | ',' :: rest =>
          let (fields, rest) ← readFields? n rest
          return (field :: fields, rest)
        | '\x7d' :: rest => return ([field], rest)
        | _ => none
      | _ => none
    | _ => none

end

def read? (text : String) : Option Json := do
  let cs := text.toList
  let (v, rest) ← readValue? (2 * cs.length + 1) cs
  if (skipSpaces rest).isEmpty then return v else none

end Json
end Splice
