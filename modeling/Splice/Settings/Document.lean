import Splice.Settings.Document.Table
import Splice.Settings.Document.Text

/-!
This module contains the reading of settings documents. A document is a list of lines, each of which
gives a value to a key or names the table that the following keys belong to.
-/

namespace Splice
namespace Document

mutual

/--
A value. The readers of values take a character each round, so `n` rounds are enough for `n`
characters.
-/
def value : Nat → Read Value
  | 0 => failure
  | n + 1 => do
    match ← get with
    | '[' :: rest =>
      set rest
      return .list (← items n)
    | '\x7b' :: rest =>
      set rest
      return .table (Node.toValues (← entries n []))
    | _ =>
      if ← startsWith "true".toList then
        skip 4
        return .boolean true
      else if ← startsWith "false".toList then
        skip 5
        return .boolean false
      else
        return .string (← string)

def items : Nat → Read (List Value)
  | 0 => failure
  | n + 1 => do
    skipGap
    if (← peek) = some ']' then
      skip 1
      return []
    else
      let v ← value n
      skipGap
      if (← peek) = some ',' then
        skip 1
        let vs ← items n
        return v :: vs
      else
        char ']'
        return [v]

/--
The entries of a table up to its closing brace. There may be a comma behind the last one. Unlike
the lines of a document, an entry may have line breaks and comments on both sides of its `=`.
-/
def entries : Nat → Entries → Read Entries
  | 0, _ => failure
  | n + 1, before => do
    skipGap
    if (← peek) = some '\x7d' then
      skip 1
      return before
    else
      let ks ← key
      skipGap
      char '='
      skipGap
      let v ← value n
      let before ← (before.put v ks : Option Entries)
      skipGap
      if (← peek) = some ',' then
        skip 1
        entries n before
      else
        char '\x7d'
        return before

end

def body : Nat → List String → Entries → Read Entries
  | 0, _, _ => failure
  | n + 1, path, before => do
    skipGap
    if (← get).isEmpty then
      return before
    else if ← startsWith ['[', '['] then
      skip 2
      let path ← key
      char ']'
      char ']'
      endOfLine
      let after ← (before.openItem path : Option Entries)
      body n path after
    else if (← peek) = some '[' then
      skip 1
      let path ← key
      char ']'
      endOfLine
      let after ← (before.openTable path : Option Entries)
      body n path after
    else
      let ks ← key
      char '='
      skipSpaces
      let v ← value (← get).length
      endOfLine
      let after ← (before.putIn path ks v : Option Entries)
      body n path after

def read? (text : String) : Option (List (String × Value)) :=
  let cs := text.toList
  let cs := if cs.head? = some '\ufeff' then cs.tail else cs
  (body (cs.length + 1) [] []).run' cs |>.map Node.toValues

end Document
end Splice
