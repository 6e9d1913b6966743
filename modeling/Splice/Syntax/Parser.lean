import Splice.Dialect
import Splice.Syntax.Lexer
import Splice.Tree.Basic

/-!
This module contains the parser. It reads a tree off a list of tokens, and where it cannot it
reports an error and gives up. Blocks and expressions may be nested up to a fixed depth, and the
parser recurses on what is left of that depth. Within one level it repeats itself along the tokens.
-/

namespace Splice

inductive SyntaxFault where
  | expected (what : String) (found? : Option String)
  | afterProgram
  | blocksTooDeep
  | expressionTooDeep
  | keyword (name what : String)
  | instructionName (name what : String)
  | strayCase (word : String)
  | caseNotLiteral
  | switchWithoutCases
deriving DecidableEq, Repr

namespace SyntaxFault

def code : SyntaxFault → String
  | expected _ (some _) => "E1006"
  | expected _ none => "E1007"
  | afterProgram => "E1008"
  | blocksTooDeep => "E1009"
  | expressionTooDeep => "E1009"
  | keyword .. => "E1010"
  | instructionName .. => "E1011"
  | strayCase _ => "E1012"
  | caseNotLiteral => "E1013"
  | switchWithoutCases => "E1014"

def message : SyntaxFault → String
  | expected what (some found) => "expected " ++ what ++ ", found `" ++ found ++ "`"
  | expected what none => "expected " ++ what ++ ", found end of input"
  | afterProgram => "unexpected input after the program block"
  | blocksTooDeep => "blocks nested too deeply"
  | expressionTooDeep => "expression nested too deeply"
  | keyword name what => "keyword `" ++ name ++ "` cannot be used as " ++ what
  | instructionName name what => "instruction name `" ++ name ++ "` cannot be used as " ++ what
  | strayCase word => "`" ++ word ++ "` outside of a switch statement"
  | caseNotLiteral => "case value must be a literal"
  | switchWithoutCases => "switch statement without any cases"

end SyntaxFault

structure SyntaxError where
  fault : SyntaxFault
  span : Span
deriving DecidableEq, Repr

namespace SyntaxError

def diagnostic (e : SyntaxError) : Diagnostic :=
  .error e.fault.code e.fault.message e.span

end SyntaxError

def keywords : List String :=
  ["let", "function", "if", "switch", "case", "default", "for", "true", "false"]

/--
What comes of reading: a result if there is one, and the errors that were reported on the way. The
type does not say that one is there exactly if the other is not.
-/
structure Attempt (α : Type) where
  result? : Option α
  errors : List SyntaxError
deriving DecidableEq, Repr

namespace Attempt

variable {α β : Type}

def ok (a : α) : Attempt α := ⟨some a, []⟩

def stopped : Attempt α := ⟨none, []⟩

def failed (e : SyntaxError) : Attempt α := ⟨none, [e]⟩

def map (f : α → β) (x : Attempt α) : Attempt β :=
  ⟨x.result?.map f, x.errors⟩

/--
What was reported stays reported. Nothing is tried behind what gave up.
-/
def bind (x : Attempt α) (f : α → Attempt β) : Attempt β :=
  match x.result? with
  | none => ⟨none, x.errors⟩
  | some a => ⟨(f a).result?, x.errors ++ (f a).errors⟩

instance : Monad Attempt where
  pure := ok
  bind := bind

end Attempt

namespace Parser

def maxNesting : Nat := 256

/--
What the parser knows all the time: the dialect, and the span of the last token, where everything
that is missing at the end of the input is reported.
-/
structure Setting where
  dialect : Dialect
  finish : Span

/-! ## Tokens -/

def firstKind? (ts : List Token) : Option TokenKind :=
  ts.head?.map Token.kind

def secondKind? (ts : List Token) : Option TokenKind :=
  firstKind? ts.tail

def startsWith (word : String) (ts : List Token) : Bool :=
  ts.head?.any fun t => t.kind = .identifier && t.text = word

abbrev Parse (α : Type) := StateT (List Token) Attempt α

variable {α : Type}

def report (fault : SyntaxFault) (span : Span) : Parse Unit :=
  StateT.lift ⟨some (), [⟨fault, span⟩]⟩

def stop : Parse α :=
  StateT.lift .stopped

def fail (fault : SyntaxFault) (span : Span) : Parse α := do
  report fault span
  stop

def peekKind : Parse (Option TokenKind) :=
  return firstKind? (← get)

def peekWord (word : String) : Parse Bool :=
  return startsWith word (← get)

/--
Takes the first token, and gives up without a word if there is none.
-/
def next : Parse Token := do
  match ← get with
  | [] => stop
  | t :: rest =>
    set rest
    return t

def skip : Parse Unit :=
  modify List.tail

def expect (s : Setting) (kind : TokenKind) (what : String) : Parse Token := do
  match (← get).head? with
  | some t => if t.kind = kind then next else fail (.expected what (some t.text)) t.span
  | none => fail (.expected what none) s.finish

/--
Takes a name: an identifier that is no keyword and, unless `instructions` is set, no instruction.
-/
def name (s : Setting) (what : String) (instructions : Bool) : Parse Identifier := do
  let t ← expect s .identifier what
  if keywords.contains t.text then
    fail (.keyword t.text what) t.span
  else if !instructions && Instruction.isName t.text then
    fail (.instructionName t.text what) t.span
  else
    return ⟨t.span, t.text⟩

/-! ## Lists -/

/--
Repeats `p` for as long as `goesOn` says so. A round takes a token, so that one round for each of
the tokens is enough, and one more to find the end. A loop that runs out of rounds gives up without
a word.
-/
def repeatWhile (goesOn : Parse Bool) (p : Parse α) : Parse (List α) := do
  go ((← get).length + 1)
where
  go : (rounds : Nat) → Parse (List α)
    | 0 => stop
    | rounds + 1 => do
      if ← goesOn then
        let first ← p
        let others ← go rounds
        return first :: others
      else
        return []

def atComma : Parse Bool :=
  return (← peekKind) = some .comma

def behindComma (p : Parse α) : Parse α := do
  skip
  p

def commaSeparated (p : Parse α) : Parse (List α) := do
  let first ← p
  let others ← repeatWhile atComma (behindComma p)
  return first :: others

def items (p : Parse α) : Parse (List α) := do
  if (← peekKind) = some .rightParen then return [] else commaSeparated p

/-! ## Variables and expressions -/

def typeSuffix (s : Setting) : Parse (Option String) := do
  if s.dialect.types && (← peekKind) = some .colon then
    skip
    let type ← name s "a type name" false
    return some type.name
  else
    return none

def binder (s : Setting) : Parse Binder := do
  let i ← name s "a variable name" false
  let type ← typeSuffix s
  return ⟨i.span, i.name, type⟩

def literal (s : Setting) (kind : LiteralKind) : Parse Expr := do
  let t ← next
  let type ← typeSuffix s
  return .literal ⟨t.span, kind, t.text, type⟩

def arguments (s : Setting) (expression : Parse Expr) : Parse (List Expr × Token) := do
  let es ← items expression
  let close ← expect s .rightParen "`)`"
  return (es, close)

def named (s : Setting) (expression : Parse Expr) : Parse Expr := do
  let i ← name s "an identifier" true
  if (← peekKind) = some .leftParen then
    skip
    let (es, close) ← arguments s expression
    if Instruction.isName i.name then
      return .instruction (i.span.join close.span) i.name es
    else
      return .call (i.span.join close.span) i es
  else
    return .identifier i

def expression (s : Setting) : (depth : Nat) → Parse Expr
  | 0 => do
    fail .expressionTooDeep (((← get).head?.map Token.span).getD s.finish)
  | depth + 1 => do
    match ← peekKind with
    | some .number => literal s .number
    | some .string => literal s .string
    | some .identifier =>
      if (← peekWord "true") || (← peekWord "false") then
        literal s .boolean
      else
        named s (expression s depth)
    | some _ => do
      let t ← next
      fail (.expected "an expression" (some t.text)) t.span
    | none => fail (.expected "an expression" none) s.finish

/-! ## Statements -/

inductive Form where
  | block
  | stackAssignment
  | declaration
  | function
  | conditional
  | switch
  | loop
  | strayCase
  | label
  | instruction
  | simple
deriving DecidableEq, Repr

def isBareInstruction (d : Dialect) (ts : List Token) : Bool :=
  d.stackForms && secondKind? ts ≠ some .leftParen &&
    ts.head?.any fun t => t.kind = .identifier && Instruction.isName t.text

def Form.ofTokens (d : Dialect) (ts : List Token) : Form :=
  if firstKind? ts = some .leftBrace then .block
  else if firstKind? ts = some .stackAssign && d.stackForms then .stackAssignment
  else if startsWith "let" ts then .declaration
  else if startsWith "function" ts then .function
  else if startsWith "if" ts then .conditional
  else if startsWith "switch" ts then .switch
  else if startsWith "for" ts then .loop
  else if startsWith "case" ts || startsWith "default" ts then .strayCase
  else if d.stackForms && firstKind? ts = some .identifier && secondKind? ts = some .colon then
    .label
  else if isBareInstruction d ts then .instruction
  else .simple

def stackAssignment (s : Setting) : Parse Stmt := do
  let start ← next
  let target ← name s "a variable name" false
  return .stack (.assignment (start.span.join target.span) target)

def declaration (s : Setting) (expression : Parse Expr) : Parse Stmt := do
  let start ← next
  let vars ← commaSeparated (binder s)
  if (← peekKind) = some .assign then
    skip
    let value ← expression
    return .declaration (start.span.join value.span) vars (some value)
  else
    let stop := (vars.getLast?.map Binder.span).getD start.span
    return .declaration (start.span.join stop) vars none

def returns (s : Setting) : Parse (List Binder) := do
  if (← peekKind) = some .arrow then
    skip
    commaSeparated (binder s)
  else
    return []

def function (s : Setting) (block : Parse Block) : Parse Stmt := do
  let start ← next
  let i ← name s "a function name" false
  let _ ← expect s .leftParen "`(`"
  let parameters ← items (binder s)
  let _ ← expect s .rightParen "`)`"
  let returns ← returns s
  let body ← block
  return .function ⟨⟨start.span.join body.span, i.name, parameters, returns⟩, body⟩

def conditional (block : Parse Block) (expression : Parse Expr) : Parse Stmt := do
  let start ← next
  let condition ← expression
  let body ← block
  return .conditional (start.span.join body.span) condition body

def caseArm (block : Parse Block) (expression : Parse Expr) : Parse Case := do
  let start ← next
  match ← expression with
  | .literal value =>
    let body ← block
    return ⟨start.span.join body.span, some value, body⟩
  | other => fail .caseNotLiteral other.span

def defaultArm (block : Parse Block) : Parse (List Case) := do
  if ← peekWord "default" then
    let start ← next
    let body ← block
    return [⟨start.span.join body.span, none, body⟩]
  else
    return []

def switch (block : Parse Block) (expression : Parse Expr) : Parse Stmt := do
  let start ← next
  let subject ← expression
  let arms ← repeatWhile (peekWord "case") (caseArm block expression)
  let default ← defaultArm block
  match (arms ++ default).getLast? with
  | none => fail .switchWithoutCases start.span
  | some last => return .switch (start.span.join last.span) subject (arms ++ default)

def loop (block : Parse Block) (expression : Parse Expr) : Parse Stmt := do
  let start ← next
  let pre ← block
  let condition ← expression
  let post ← block
  let body ← block
  return .loop (start.span.join body.span) pre condition post body

def strayCase : Parse Stmt := do
  let t ← next
  fail (.strayCase t.text) t.span

def label (s : Setting) : Parse Stmt := do
  let i ← name s "a label name" false
  let colon ← next
  return .stack (.label (i.span.join colon.span) i.name)

def instruction : Parse Stmt := do
  let t ← next
  return .stack (.instruction t.span t.text)

def simple (s : Setting) (expression : Parse Expr) : Parse Stmt := do
  let e ← expression
  let kind ← peekKind
  match e with
  | .identifier first =>
    if kind = some .comma || kind = some .assign then
      let others ← repeatWhile atComma (behindComma (name s "a variable name" false))
      let _ ← expect s .assign "`:=`"
      let value ← expression
      return .assignment (first.span.join value.span) (first :: others) value
    else
      return .expression e
  | _ => return .expression e

def statementOf (s : Setting) (block : Parse Block) (expression : Parse Expr) : Form → Parse Stmt
  | .block => do return .block (← block)
  | .stackAssignment => stackAssignment s
  | .declaration => declaration s expression
  | .function => function s block
  | .conditional => conditional block expression
  | .switch => switch block expression
  | .loop => loop block expression
  | .strayCase => strayCase
  | .label => label s
  | .instruction => instruction
  | .simple => simple s expression

def statement (s : Setting) (block : Parse Block) (expression : Parse Expr) : Parse Stmt := do
  statementOf s block expression (Form.ofTokens s.dialect (← get))

/-! ## Blocks -/

def inBlock (start : Span) : Parse Bool := do
  match ← peekKind with
  | some .rightBrace => return false
  | some _ => return true
  | none => fail (.expected "`\x7d`" none) start

def block (s : Setting) : (depth : Nat) → Parse Block
  | 0 => do
    let start ← expect s .leftBrace "`\x7b`"
    fail .blocksTooDeep start.span
  | depth + 1 => do
    let start ← expect s .leftBrace "`\x7b`"
    let body ← repeatWhile (inBlock start.span)
      (statement s (block s depth) (expression s depth))
    let close ← next
    return ⟨start.span.join close.span, body⟩

def program (s : Setting) : Parse Block := do
  let root ← block s maxNesting
  match (← get).head? with
  | none => return root
  | some t => fail .afterProgram t.span

end Parser

def parseTokens (dialect : Dialect) (tokens : List Token) : Attempt Block :=
  ((Parser.program ⟨dialect, (tokens.getLast?.map Token.span).getD .none⟩).run tokens).map Prod.fst

/--
The tree of a source text if nothing is wrong with it, and what is: the diagnostics of the lexer,
and behind them those of the parser.
-/
def parseAndReport (dialect : Dialect) (source : String) : Option Block × List Diagnostic :=
  let (tokens, found) := lex source
  let attempt := parseTokens dialect tokens
  let ds := found ++ attempt.errors.map SyntaxError.diagnostic
  if ds.isEmpty then (attempt.result?, ds) else (none, ds)

def parse (dialect : Dialect) (source : String) : Except (List Diagnostic) Block :=
  match parseAndReport dialect source with
  | (some root, _) => .ok root
  | (none, ds) => .error ds

end Splice
