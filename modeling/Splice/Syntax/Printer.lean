import Splice.Text.Digit
import Splice.Tree.Basic

/-!
This module contains the canonical text of a tree. It is laid out one statement a line, indented by
four spaces a level.
-/

namespace Splice

namespace Printer

def indentation (level : Nat) : String :=
  String.ofList (List.replicate (4 * level) ' ')

/--
The character `c` in a string literal. Control characters and those from `\x7f` to `\xff` are
written as bytes.
-/
def escape (c : Char) : List Char :=
  if c = '\\' then ['\\', '\\']
  else if c = '"' then ['\\', '"']
  else if c = '\n' then ['\\', 'n']
  else if c = '\t' then ['\\', 't']
  else if c = '\r' then ['\\', 'r']
  else if c.toNat < 0x20 || (0x7f ≤ c.toNat && c.toNat ≤ 0xff) then
    ['\\', 'x', Text.hexDigit (c.toNat / 16), Text.hexDigit (c.toNat % 16)]
  else [c]

def quote (text : String) : String :=
  "\"" ++ String.ofList (text.toList.flatMap escape) ++ "\""

def typeSuffix : Option String → String
  | none => ""
  | some type => ":" ++ type

def binder (b : Binder) : String :=
  b.name ++ typeSuffix b.type

def binders (bs : List Binder) : String :=
  ", ".intercalate (bs.map binder)

def literal (l : Literal) : String :=
  match l.kind with
  | .number => l.text ++ typeSuffix l.type
  | .boolean => l.text ++ typeSuffix l.type
  | .string => quote l.text ++ typeSuffix l.type

mutual

def expr : Expr → String
  | .literal l => literal l
  | .identifier i => i.name
  | .call _ callee arguments => callee.name ++ "(" ++ ", ".intercalate (exprs arguments) ++ ")"
  | .instruction _ name arguments => name ++ "(" ++ ", ".intercalate (exprs arguments) ++ ")"

def exprs : List Expr → List String
  | [] => []
  | e :: es => expr e :: exprs es

end

def signature (s : Signature) : String :=
  "function " ++ s.name ++ "(" ++ binders s.parameters ++ ")"
    ++ (if s.returns.isEmpty then "" else " -> " ++ binders s.returns)

def stackForm : StackForm → String
  | .label _ name => name ++ ":"
  | .assignment _ target => "=: " ++ target.name
  | .instruction _ name => name

mutual

def stmt (level : Nat) : Stmt → String
  | .expression e => expr e
  | .declaration _ vars none => "let " ++ binders vars
  | .declaration _ vars (some value) => "let " ++ binders vars ++ " := " ++ expr value
  | .assignment _ targets value =>
    ", ".intercalate (targets.map Identifier.name) ++ " := " ++ expr value
  | .conditional _ condition body => "if " ++ expr condition ++ " " ++ block level body
  | .switch _ subject arms => "switch " ++ expr subject ++ cases level arms
  | .loop _ pre condition post body =>
    "for " ++ block level pre ++ " " ++ expr condition ++ " " ++ block level post ++ " "
      ++ block level body
  | .function ⟨head, body⟩ => signature head ++ " " ++ block level body
  | .block b => block level b
  | .stack form => stackForm form

def stmts (level : Nat) : List Stmt → String
  | [] => ""
  | s :: ss => indentation level ++ stmt level s ++ "\n" ++ stmts level ss

def block (level : Nat) : Block → String
  | ⟨_, ss⟩ =>
    if ss.isEmpty then
      "\x7b \x7d"
    else
      "\x7b\n" ++ stmts (level + 1) ss ++ indentation level ++ "\x7d"

def cases (level : Nat) : List Case → String
  | [] => ""
  | ⟨_, value, body⟩ :: cs =>
    "\n" ++ indentation level ++ arm value ++ block level body ++ cases level cs
where
  arm : Option Literal → String
    | some value => "case " ++ literal value ++ " "
    | none => "default "

end

end Printer

def Block.print (b : Block) : String :=
  Printer.block 0 b

end Splice
