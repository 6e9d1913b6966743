import Splice.Span

/-!
This module contains the tokens of the language.
-/

namespace Splice

inductive TokenKind where
  | identifier
  | number
  | string
  | leftBrace
  | rightBrace
  | leftParen
  | rightParen
  | comma
  | colon
  | assign
  | stackAssign
  | arrow
deriving DecidableEq, Repr

/--
A token. Its text is that of the source, except that the text of a string is what the string stands
for.
-/
structure Token where
  kind : TokenKind
  text : String
  span : Span
deriving DecidableEq, Repr

end Splice
