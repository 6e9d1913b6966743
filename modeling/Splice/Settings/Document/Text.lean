import Splice.Text.Digit

/-!
This module contains the readers of the smallest parts of a settings document: blanks, comments,
line breaks, strings and keys.
-/

namespace Splice
namespace Document

abbrev Read (α : Type) := StateT (List Char) Option α

def peek : Read (Option Char) :=
  return (← get).head?

def skip (n : Nat) : Read Unit :=
  modify (List.drop n)

def char (c : Char) : Read Unit := do
  match ← get with
  | d :: rest => if c = d then set rest else failure
  | [] => failure

def takeWhile (p : Char → Bool) : Read (List Char) := do
  let cs ← get
  set (cs.dropWhile p)
  return cs.takeWhile p

def startsWith (text : List Char) : Read Bool :=
  return text.isPrefixOf (← get)

def isSpace (c : Char) : Bool :=
  c = ' ' || c = '\t'

def skipSpaces : Read Unit := do
  let _ ← takeWhile isSpace

/--
Whether `c` may stand for itself in comments and strings: anything but the control characters, of
which the tab is allowed.
-/
def isPlain (c : Char) : Bool :=
  c = '\t' || (0x20 ≤ c.toNat && c.toNat ≠ 0x7f)

def lineBreak? : Read Bool := do
  match ← get with
  | '\n' :: rest => set rest; return true
  | '\r' :: '\n' :: rest => set rest; return true
  | _ => return false

def skipComment : Read Unit := do
  if (← peek) = some '#' then
    let _ ← takeWhile isPlain

def skipLines : Nat → Read Unit
  | 0 => return
  | n + 1 => do
    skipSpaces
    skipComment
    if ← lineBreak? then skipLines n

def skipGap : Read Unit := do
  skipLines ((← get).length + 1)

def endOfLine : Read Unit := do
  skipSpaces
  skipComment
  if !(← lineBreak?) && !(← get).isEmpty then failure

def codePoint (n : Nat) : Read Char := do
  let cs := (← get).take n
  let digits ← (cs.mapM (Text.digitIn? 16) : Option (List Nat))
  let code := digits.foldl (fun value d => value * 16 + d) 0
  if cs.length = n ∧ code.isValidChar then
    skip n
    return Char.ofNat code
  else
    failure

def escape : Read Char := do
  match ← get with
  | 'b' :: rest => set rest; return '\x08'
  | 't' :: rest => set rest; return '\t'
  | 'n' :: rest => set rest; return '\n'
  | 'f' :: rest => set rest; return '\x0c'
  | 'r' :: rest => set rest; return '\r'
  | 'e' :: rest => set rest; return '\x1b'
  | '"' :: rest => set rest; return '"'
  | '\\' :: rest => set rest; return '\\'
  | 'x' :: rest => set rest; codePoint 2
  | 'u' :: rest => set rest; codePoint 4
  | 'U' :: rest => set rest; codePoint 8
  | _ => failure

/--
A string in double quotes behind its opening quote. Each round takes a character, so `n` rounds are
enough for `n` characters. The same holds of the readers below.
-/
def basicString : Nat → Read (List Char)
  | 0 => failure
  | n + 1 => do
    match ← get with
    | '"' :: rest => set rest; return []
    | '\\' :: rest =>
      set rest
      let c ← escape
      let cs ← basicString n
      return c :: cs
    | c :: rest =>
      if isPlain c then
        set rest
        let cs ← basicString n
        return c :: cs
      else
        failure
    | [] => failure

def literalString : Read (List Char) := do
  let cs ← takeWhile fun c => isPlain c && c ≠ '\''
  char '\''
  return cs

/--
The end of a string over several lines, at its first quote: up to five quotes, the last three of
which close the string. Fewer than three belong to the string, and the string goes on.
-/
def closeQuotes (quote : Char) : Read (List Char × Bool) := do
  let quotes ← takeWhile (· = quote)
  if quotes.length < 3 then return (quotes, false)
  else if quotes.length ≤ 5 then return (quotes.drop 3, true)
  else failure

/--
A string over several lines, behind its opening quotes. With escapes, a backslash at the end of a
line leaves out the line break and all blanks and line breaks that follow.
-/
def longString (quote : Char) (escapes : Bool) : Nat → Read (List Char)
  | 0 => failure
  | n + 1 => do
    match ← get with
    | [] => failure
    | c :: rest =>
      if c = quote then
        let (quotes, closed) ← closeQuotes quote
        if closed then
          return quotes
        else
          let cs ← longString quote escapes n
          return quotes ++ cs
      else if c = '\\' && escapes then
        set rest
        match ← continued with
        | true => longString quote escapes n
        | false =>
          let c ← escape
          let cs ← longString quote escapes n
          return c :: cs
      else if c = '\r' then
        char '\r'
        char '\n'
        let cs ← longString quote escapes n
        return '\r' :: '\n' :: cs
      else if isPlain c || c = '\n' then
        set rest
        let cs ← longString quote escapes n
        return c :: cs
      else
        failure
where
  continued : Read Bool := do
    let before ← get
    skipSpaces
    if ← lineBreak? then
      blankLines ((← get).length + 1)
      return true
    else
      set before
      return false
  blankLines : Nat → Read Unit
    | 0 => return
    | n + 1 => do
      skipSpaces
      if ← lineBreak? then blankLines n

/--
A string of any of the four forms. A line break right behind the quotes that open a string over
several lines is left out.
-/
def string : Read String := do
  let n := (← get).length
  if ← startsWith ['"', '"', '"'] then
    skip 3
    let _ ← lineBreak?
    return String.ofList (← longString '"' true n)
  else if ← startsWith ['\'', '\'', '\''] then
    skip 3
    let _ ← lineBreak?
    return String.ofList (← longString '\'' false n)
  else
    shortString n
where
  shortString (n : Nat) : Read String := do
    match ← get with
    | '"' :: rest => set rest; return String.ofList (← basicString n)
    | '\'' :: rest => set rest; return String.ofList (← literalString)
    | _ => failure

def isBareKey (c : Char) : Bool :=
  c.isAlphanum || c = '_' || c = '-'

def keyPart : Read String := do
  if (← peek) = some '"' || (← peek) = some '\'' then
    string.shortString (← get).length
  else
    let cs ← takeWhile isBareKey
    if cs.isEmpty then failure else return String.ofList cs

def key : Read (List String) := do
  go (← get).length
where
  go : Nat → Read (List String)
    | 0 => failure
    | n + 1 => do
      skipSpaces
      let part ← keyPart
      skipSpaces
      if (← peek) = some '.' then
        skip 1
        let parts ← go n
        return part :: parts
      else
        return [part]

end Document
end Splice
