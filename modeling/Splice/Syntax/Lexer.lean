import Splice.Syntax.Token
import Splice.Diagnostic.Basic
import Splice.Text.Blank
import Splice.Text.Digit

/-!
This module contains the lexer. It cuts a source text into pieces, each of which is a token, a
comment, a blank or an unexpected character. Where a piece starts and ends is decided on its
characters alone (`scan`), the positions are added afterwards (`Lexer.lex`). Faults do not stop it.
-/

namespace Splice

inductive LexicalFault where
  | unterminatedString
  | unexpectedCharacter (c : Char)
  | unterminatedComment
  | invalidByteEscape
  | invalidEscape (c? : Option Char)
  | hexWithoutDigits
deriving DecidableEq, Repr

namespace LexicalFault

def code : LexicalFault → String
  | unterminatedString => "E1001"
  | unexpectedCharacter _ => "E1002"
  | unterminatedComment => "E1003"
  | invalidByteEscape => "E1004"
  | invalidEscape _ => "E1004"
  | hexWithoutDigits => "E1005"

def message : LexicalFault → String
  | unterminatedString => "unterminated string literal"
  | unexpectedCharacter c => "unexpected character `" ++ c.toString ++ "`"
  | unterminatedComment => "unterminated block comment"
  | invalidByteEscape => "invalid `\\x` escape, expected two hex digits"
  | invalidEscape c? => "invalid escape sequence `\\" ++ (c?.elim "" Char.toString) ++ "`"
  | hexWithoutDigits => "hex number literal without digits"

end LexicalFault

namespace Lexer

/--
A fault and where it is: it starts behind the first `start` characters of its piece, and the piece
was read up to its first `stop` characters when it was found.
-/
structure Finding where
  fault : LexicalFault
  start : Nat
  stop : Nat
deriving DecidableEq, Repr

/--
What one step reads off the front of the source: some characters, at most one token, and what was
wrong.
-/
structure Piece where
  length : Nat
  token? : Option (TokenKind × String)
  findings : List Finding
  length_pos : 0 < length := by omega

namespace Piece

def gap (length : Nat) (h : 0 < length := by omega) : Piece :=
  ⟨length, none, [], h⟩

def token (kind : TokenKind) (text : String) (length : Nat) (h : 0 < length := by omega) : Piece :=
  ⟨length, some (kind, text), [], h⟩

end Piece

def isIdentifierStart (c : Char) : Bool :=
  c.isAlpha || c = '_' || c = '$'

def isIdentifierPart (c : Char) : Bool :=
  c.isAlphanum || c = '_' || c = '$' || c = '.'

def isHexDigit (c : Char) : Bool :=
  (Text.digitIn? 16 c).isSome

def commentLength? : List Char → Option Nat
  | '*' :: '/' :: _ => some 2
  | _ :: cs => (commentLength? cs).map (· + 1)
  | [] => none

def simpleEscape? : Char → Option Char
  | '\\' => some '\\'
  | '"' => some '"'
  | '\'' => some '\''
  | 'n' => some '\n'
  | 't' => some '\t'
  | 'r' => some '\r'
  | _ => none

def byteEscape? (high low : Char) : Option Char :=
  match Text.digitIn? 16 high, Text.digitIn? 16 low with
  | some h, some l => some (Char.ofNat (h * 16 + l))
  | _, _ => none

structure StringBody where
  text : List Char
  length : Nat
  findings : List Finding

namespace StringBody

def push (c : Char) (body : StringBody) : StringBody :=
  { body with text := c :: body.text }

def note (f : Finding) (body : StringBody) : StringBody :=
  { body with findings := f :: body.findings }

def pushOr (c? : Option Char) (f : Finding) (body : StringBody) : StringBody :=
  match c? with
  | some c => body.push c
  | none => body.note f

end StringBody

/--
Reads the rest of a string literal, the first `n` characters of which were read. It ends with its
quote. A literal that the end of its line or of the source cuts off is at fault, but still read up
to there. What is not an escape after a backslash is left out.
-/
def stringBody (n : Nat) : List Char → StringBody
  | [] => ⟨[], n, [⟨.unterminatedString, 0, n⟩]⟩
  | '\n' :: _ => ⟨[], n + 1, [⟨.unterminatedString, 0, n + 1⟩]⟩
  | '"' :: _ => ⟨[], n + 1, []⟩
  | ['\\'] => (stringBody (n + 1) []).note ⟨.invalidEscape none, n, n + 1⟩
  | ['\\', 'x'] => (stringBody (n + 2) []).note ⟨.invalidByteEscape, n, n + 2⟩
  | ['\\', 'x', _] => (stringBody (n + 3) []).note ⟨.invalidByteEscape, n, n + 3⟩
  | '\\' :: 'x' :: high :: low :: rest =>
    (stringBody (n + 4) rest).pushOr (byteEscape? high low) ⟨.invalidByteEscape, n, n + 4⟩
  | '\\' :: c :: rest =>
    (stringBody (n + 2) rest).pushOr (simpleEscape? c) ⟨.invalidEscape (some c), n, n + 2⟩
  | c :: rest => (stringBody (n + 1) rest).push c

@[simp]
theorem StringBody.length_pushOr (c? : Option Char) (f : Finding) (body : StringBody) :
    (body.pushOr c? f).length = body.length := by
  cases c? <;> rfl

theorem le_length_stringBody (n : Nat) (cs : List Char) : n ≤ (stringBody n cs).length := by
  fun_induction stringBody n cs <;> simp_all [StringBody.push, StringBody.note] <;> omega

def scan (c : Char) (cs : List Char) : Piece :=
  if Text.isBlank c then
    .gap 1
  else
    match c, cs with
    | '/', '/' :: rest => .gap (2 + (rest.takeWhile (· ≠ '\n')).length)
    | '/', '*' :: rest =>
      match commentLength? rest with
      | some n => .gap (2 + n)
      | none => ⟨2 + rest.length, none, [⟨.unterminatedComment, 0, 2 + rest.length⟩], by omega⟩
    | '\x7b', _ => .token .leftBrace "\x7b" 1
    | '\x7d', _ => .token .rightBrace "\x7d" 1
    | '(', _ => .token .leftParen "(" 1
    | ')', _ => .token .rightParen ")" 1
    | ',', _ => .token .comma "," 1
    | ':', '=' :: _ => .token .assign ":=" 2
    | ':', _ => .token .colon ":" 1
    | '=', ':' :: _ => .token .stackAssign "=:" 2
    | '-', '>' :: _ => .token .arrow "->" 2
    | '"', rest =>
      let body := stringBody 1 rest
      ⟨body.length, some (.string, String.ofList body.text), body.findings,
        le_length_stringBody 1 rest⟩
    | _, _ =>
      if c.isDigit then
        number c cs
      else if isIdentifierStart c then
        let text := c :: cs.takeWhile isIdentifierPart
        .token .identifier (String.ofList text) text.length (by simp [text])
      else
        ⟨1, none, [⟨.unexpectedCharacter c, 0, 1⟩], by omega⟩
where
  number (c : Char) (cs : List Char) : Piece :=
    match c, cs with
    | '0', 'x' :: rest => hexNumber 'x' (rest.takeWhile isHexDigit)
    | '0', 'X' :: rest => hexNumber 'X' (rest.takeWhile isHexDigit)
    | _, _ =>
      let text := c :: cs.takeWhile Char.isDigit
      .token .number (String.ofList text) text.length (by simp [text])
  hexNumber (x : Char) (digits : List Char) : Piece :=
    ⟨2 + digits.length, some (.number, String.ofList ('0' :: x :: digits)),
      if digits.isEmpty then [⟨.hexWithoutDigits, 0, 2⟩] else [], by omega⟩

/--
The span of the first `n` of the characters `cs`, the first of which stands at `p`. Behind a line
feed it ends at the start of the next line.
-/
def spanOf (p : Position) (cs : List Char) (start stop : Nat) : Span :=
  ⟨p.after (cs.take start), (p.after (cs.take stop)).back⟩

namespace Piece

def tokens (piece : Piece) (p : Position) (cs : List Char) : List Token :=
  match piece.token? with
  | some (kind, text) => [⟨kind, text, spanOf p cs 0 piece.length⟩]
  | none => []

def diagnostics (piece : Piece) (p : Position) (cs : List Char) : List Diagnostic :=
  piece.findings.map fun f => .error f.fault.code f.fault.message (spanOf p cs f.start f.stop)

end Piece

def lexFrom (p : Position) (cs : List Char) : List Token × List Diagnostic :=
  match cs with
  | [] => ([], [])
  | c :: rest =>
    let piece := scan c rest
    let others := lexFrom (p.after ((c :: rest).take piece.length)) ((c :: rest).drop piece.length)
    (piece.tokens p (c :: rest) ++ others.1, piece.diagnostics p (c :: rest) ++ others.2)
termination_by cs.length
decreasing_by
  have := (scan c rest).length_pos
  simp only [List.length_drop, List.length_cons]
  omega

end Lexer

def lex (source : String) : List Token × List Diagnostic :=
  Lexer.lexFrom .first source.toList

end Splice
