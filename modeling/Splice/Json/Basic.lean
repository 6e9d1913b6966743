import Splice.Text.Digit

/-!
This module contains JSON values and their text, laid out with one value a line.
-/

namespace Splice

/--
A JSON value. A number is kept as it is written. The fields of an object are kept in their order.
-/
inductive Json where
  | null
  | boolean (b : Bool)
  | number (text : String)
  | string (text : String)
  | list (items : List Json)
  | object (fields : List (String × Json))
deriving Inhabited

namespace Json

def ofNat (n : Nat) : Json :=
  number (toString n)

def ofOption : Option String → Json
  | none => null
  | some text => string text

def escape (c : Char) : List Char :=
  if c = '"' then ['\\', '"']
  else if c = '\\' then ['\\', '\\']
  else if c = '\x08' then ['\\', 'b']
  else if c = '\t' then ['\\', 't']
  else if c = '\n' then ['\\', 'n']
  else if c = '\x0c' then ['\\', 'f']
  else if c = '\r' then ['\\', 'r']
  else if c.toNat < 0x20 then
    ['\\', 'u', '0', '0', Text.hexDigit (c.toNat / 16), Text.hexDigit (c.toNat % 16)]
  else [c]

def quote (text : String) : String :=
  "\"" ++ String.ofList (text.toList.flatMap escape) ++ "\""

def newLine (depth : Nat) : String :=
  "\n" ++ String.ofList (List.replicate (2 * depth) ' ')

mutual

def pretty (depth : Nat) : Json → String
  | .null => "null"
  | .boolean b => if b then "true" else "false"
  | .number text => text
  | .string text => quote text
  | .list items =>
    if items.isEmpty then
      "[]"
    else
      "[" ++ ",".intercalate (prettyItems (depth + 1) items) ++ newLine depth ++ "]"
  | .object fields =>
    if fields.isEmpty then
      "\x7b\x7d"
    else
      "\x7b" ++ ",".intercalate (prettyFields (depth + 1) fields) ++ newLine depth ++ "\x7d"

def prettyItems (depth : Nat) : List Json → List String
  | [] => []
  | item :: items => (newLine depth ++ item.pretty depth) :: prettyItems depth items

def prettyFields (depth : Nat) : List (String × Json) → List String
  | [] => []
  | (name, v) :: fields =>
    (newLine depth ++ quote name ++ ": " ++ v.pretty depth) :: prettyFields depth fields

end

/--
The value of a field. Of several fields of one name the last one counts.
-/
def field? (name : String) : Json → Option Json
  | .object fields => fields.reverse.lookup name
  | _ => none

def string? : Json → Option String
  | .string text => some text
  | _ => none

def list? : Json → Option (List Json)
  | .list items => some items
  | _ => none

def boolean? : Json → Option Bool
  | .boolean b => some b
  | _ => none

def decimal? (text : List Char) : Option Nat :=
  if text.isEmpty || text.any (fun c => !c.isDigit) then
    none
  else
    some (text.foldl (fun n c => n * 10 + (c.toNat - '0'.toNat)) 0)

def nat? : Json → Option Nat
  | .number text => decimal? text.toList
  | _ => none

mutual

def depth : Json → Nat
  | .list items => maxDepth items + 1
  | .object fields => maxFieldDepth fields + 1
  | _ => 0

def maxDepth : List Json → Nat
  | [] => 0
  | item :: items => max item.depth (maxDepth items)

def maxFieldDepth : List (String × Json) → Nat
  | [] => 0
  | (_, v) :: fields => max v.depth (maxFieldDepth fields)

end

end Json
end Splice
