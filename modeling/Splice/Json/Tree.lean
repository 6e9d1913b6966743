import Splice.Json.Reader
import Splice.Tree.Basic

/-!
This module contains the JSON form of trees. A node is an object of its fields. Statements and
expressions have a tag in front that says which kind of node they are. A statement that is an
expression is one object with both tags.

Reading also takes a shorter form, in which a node is the list of its fields in their order.
-/

namespace Splice

namespace Json

/--
The node with the given fields that `j` is the form of, as an object. A list has to have all of the
fields.
-/
def record? (names : List String) (j : Json) : Option Json :=
  match j with
  | .list items => if items.length = names.length then some (.object (names.zip items)) else none
  | _ => some j

def tagged? (name : String) (j : Json) : Option (Json × Json) :=
  match j with
  | .list items => items.head?.map fun tag => (tag, .list items.tail)
  | _ => (j.field? name).map fun tag => (tag, j)

/--
The kind of node that a tag stands for. A number stands for the kind at its place in `kinds`.
-/
def kind? (kinds : List String) : Json → Option String
  | .string text => some text
  | .number text => (number text).nat?.bind fun n => kinds[n]?
  | _ => none

end Json

namespace Position

def toJson (p : Position) : Json :=
  .object [("line", .ofNat p.line), ("column", .ofNat p.column)]

def coordinate? (j : Json) : Option Nat := do
  let n ← j.nat?
  if n ≤ 0xffffffffffffffff then return n else none

def ofJson? (j : Json) : Option Position := do
  let j ← j.record? ["line", "column"]
  let line ← (j.field? "line").bind coordinate?
  let column ← (j.field? "column").bind coordinate?
  return ⟨line, column⟩

end Position

namespace Span

def toJson (s : Span) : Json :=
  .object [("start", s.start.toJson), ("end", s.stop.toJson)]

def ofJson? (j : Json) : Option Span := do
  let j ← j.record? ["start", "end"]
  let start ← (j.field? "start").bind Position.ofJson?
  let stop ← (j.field? "end").bind Position.ofJson?
  return ⟨start, stop⟩

end Span

namespace Json

def span? (j : Json) : Option Span :=
  (j.field? "span").bind Span.ofJson?

def text? (name : String) (j : Json) : Option String :=
  (j.field? name).bind string?

def optional? {α : Type} (name : String) (f : Json → Option α) (j : Json) : Option (Option α) :=
  match j.field? name with
  | none => some none
  | some .null => some none
  | some v => (f v).map some

def all? {α : Type} (name : String) (f : Json → Option α) (j : Json) : Option (List α) := do
  let items ← (j.field? name).bind list?
  items.mapM f

end Json

namespace Binder

def toJson (b : Binder) : Json :=
  .object [("span", b.span.toJson), ("name", .string b.name), ("ty", .ofOption b.type)]

def ofJson? (j : Json) : Option Binder := do
  let j ← j.record? ["span", "name", "ty"]
  let span ← j.span?
  let name ← j.text? "name"
  let type ← j.optional? "ty" Json.string?
  return ⟨span, name, type⟩

end Binder

namespace Identifier

def toJson (i : Identifier) : Json :=
  .object [("span", i.span.toJson), ("name", .string i.name)]

def ofJson? (j : Json) : Option Identifier := do
  let j ← j.record? ["span", "name"]
  let span ← j.span?
  let name ← j.text? "name"
  return ⟨span, name⟩

end Identifier

namespace LiteralKind

def label : LiteralKind → String
  | number => "number"
  | boolean => "boolean"
  | string => "string"

def ofLabel? : String → Option LiteralKind
  | "number" => some number
  | "boolean" => some boolean
  | "string" => some string
  | _ => none

theorem ofLabel?_label (k : LiteralKind) : ofLabel? k.label = some k := by
  cases k <;> rfl

/--
The kind that `j` is the form of: its label, or an object with the label as its only field and
nothing for a value.
-/
def ofJson? : Json → Option LiteralKind
  | .string text => ofLabel? text
  | .object [(text, .null)] => ofLabel? text
  | .object [(text, .object [])] => ofLabel? text
  | _ => none

end LiteralKind

namespace Literal

def fields (l : Literal) : List (String × Json) :=
  [("span", l.span.toJson), ("kind", .string l.kind.label), ("value", .string l.text),
    ("ty", .ofOption l.type)]

def toJson (l : Literal) : Json :=
  .object l.fields

def ofJson? (j : Json) : Option Literal := do
  let j ← j.record? ["span", "kind", "value", "ty"]
  let span ← j.span?
  let kind ← (j.field? "kind").bind LiteralKind.ofJson?
  let text ← j.text? "value"
  let type ← j.optional? "ty" Json.string?
  return ⟨span, kind, text, type⟩

end Literal

namespace Expr

mutual

def fields : Expr → List (String × Json)
  | .literal l => ("expression", .string "Literal") :: l.fields
  | .identifier i =>
    [("expression", .string "Identifier"), ("span", i.span.toJson), ("name", .string i.name)]
  | .call span callee arguments =>
    [("expression", .string "FunctionCall"), ("span", span.toJson),
      ("function_name", callee.toJson), ("arguments", .list (toJsons arguments))]
  | .instruction span name arguments =>
    [("expression", .string "FunctionalInstruction"), ("span", span.toJson),
      ("instruction", .string name), ("arguments", .list (toJsons arguments))]

def toJsons : List Expr → List Json
  | [] => []
  | e :: es => .object e.fields :: toJsons es

end

def toJson (e : Expr) : Json :=
  .object e.fields

def kinds : List String :=
  ["Literal", "Identifier", "FunctionCall", "FunctionalInstruction"]

def ofJsonWithin? : (depth : Nat) → Json → Option Expr
  | 0, _ => none
  | depth + 1, j => do
    let (tag, j) ← j.tagged? "expression"
    match ← tag.kind? kinds with
    | "Literal" => return .literal (← Literal.ofJson? j)
    | "Identifier" => return .identifier (← Identifier.ofJson? j)
    | "FunctionCall" =>
      let j ← j.record? ["span", "function_name", "arguments"]
      let span ← j.span?
      let callee ← (j.field? "function_name").bind Identifier.ofJson?
      let arguments ← j.all? "arguments" (ofJsonWithin? depth)
      return .call span callee arguments
    | "FunctionalInstruction" =>
      let j ← j.record? ["span", "instruction", "arguments"]
      let span ← j.span?
      let name ← j.text? "instruction"
      let arguments ← j.all? "arguments" (ofJsonWithin? depth)
      return .instruction span name arguments
    | _ => none

def ofJson? (j : Json) : Option Expr :=
  ofJsonWithin? (j.depth + 1) j

end Expr

namespace StackForm

def fields : StackForm → List (String × Json)
  | .label span name =>
    [("statement", .string "Label"), ("span", span.toJson), ("name", .string name)]
  | .assignment span target =>
    [("statement", .string "StackAssignment"), ("span", span.toJson),
      ("variable_name", target.toJson)]
  | .instruction span name =>
    [("statement", .string "Instruction"), ("span", span.toJson), ("instruction", .string name)]

end StackForm

namespace Signature

def fields (f : Signature) : List (String × Json) :=
  [("span", f.span.toJson), ("name", .string f.name),
    ("parameters", .list (f.parameters.map Binder.toJson)),
    ("return_variables", .list (f.returns.map Binder.toJson))]

def ofJson? (j : Json) : Option Signature := do
  let span ← j.span?
  let name ← j.text? "name"
  let parameters ← j.all? "parameters" Binder.ofJson?
  let returns ← j.all? "return_variables" Binder.ofJson?
  return ⟨span, name, parameters, returns⟩

end Signature

mutual

def Stmt.fields : Stmt → List (String × Json)
  | .expression e => ("statement", .string "Expression") :: e.fields
  | .declaration span vars value =>
    [("statement", .string "VariableDeclaration"), ("span", span.toJson),
      ("variables", .list (vars.map Binder.toJson)), ("value", value.elim .null Expr.toJson)]
  | .assignment span targets value =>
    [("statement", .string "Assignment"), ("span", span.toJson),
      ("variable_names", .list (targets.map Identifier.toJson)), ("value", value.toJson)]
  | .conditional span condition body =>
    [("statement", .string "If"), ("span", span.toJson), ("condition", condition.toJson),
      ("body", .object body.fields)]
  | .switch span subject cases =>
    [("statement", .string "Switch"), ("span", span.toJson), ("expression", subject.toJson),
      ("cases", .list (Case.toJsons cases))]
  | .loop span pre condition post body =>
    [("statement", .string "ForLoop"), ("span", span.toJson), ("pre", .object pre.fields),
      ("condition", condition.toJson), ("post", .object post.fields), ("body", .object body.fields)]
  | .function ⟨signature, body⟩ =>
    ("statement", .string "FunctionDefinition") :: signature.fields
      ++ [("body", .object body.fields)]
  | .block b => ("statement", .string "Block") :: b.fields
  | .stack form => form.fields

def Stmt.toJsons : List Stmt → List Json
  | [] => []
  | s :: ss => .object s.fields :: Stmt.toJsons ss

def Block.fields : Block → List (String × Json)
  | ⟨span, statements⟩ => [("span", span.toJson), ("statements", .list (Stmt.toJsons statements))]

def Case.toJsons : List Case → List Json
  | [] => []
  | ⟨span, value, body⟩ :: cs =>
    .object [("span", span.toJson), ("value", value.elim .null Literal.toJson),
      ("body", .object body.fields)] :: Case.toJsons cs

end

namespace Block

def toJson (b : Block) : Json :=
  .object b.fields

def ofJsonWith? (stmt? : Json → Option Stmt) (j : Json) : Option Block := do
  let j ← j.record? ["span", "statements"]
  let span ← j.span?
  let statements ← j.all? "statements" stmt?
  return ⟨span, statements⟩

def dump (b : Block) : String :=
  b.toJson.pretty 0

end Block

namespace Case

def ofJsonWith? (block? : Json → Option Block) (j : Json) : Option Case := do
  let j ← j.record? ["span", "value", "body"]
  let span ← j.span?
  let value ← j.optional? "value" Literal.ofJson?
  let body ← (j.field? "body").bind block?
  return ⟨span, value, body⟩

end Case

namespace Stmt

def kinds : List String :=
  ["Expression", "VariableDeclaration", "Assignment", "If", "Switch", "ForLoop",
    "FunctionDefinition", "Block", "Label", "StackAssignment", "Instruction"]

/--
The statement that `j` is the form of, if it has at most `depth` levels. Its tag may be a number
only where `numbered` says so, but those of the statements in it always may.
-/
def ofJsonWithin? : (depth : Nat) → (numbered : Bool) → Json → Option Stmt
  | 0, _, _ => none
  | depth + 1, numbered, j => do
    let block? := Block.ofJsonWith? (ofJsonWithin? depth true)
    let (tag, j) ← j.tagged? "statement"
    match ← tag.kind? (if numbered then kinds else []) with
    | "Expression" => return .expression (← Expr.ofJson? j)
    | "VariableDeclaration" =>
      let j ← j.record? ["span", "variables", "value"]
      let span ← j.span?
      let vars ← j.all? "variables" Binder.ofJson?
      let value ← j.optional? "value" Expr.ofJson?
      return .declaration span vars value
    | "Assignment" =>
      let j ← j.record? ["span", "variable_names", "value"]
      let span ← j.span?
      let targets ← j.all? "variable_names" Identifier.ofJson?
      let value ← (j.field? "value").bind Expr.ofJson?
      return .assignment span targets value
    | "If" =>
      let j ← j.record? ["span", "condition", "body"]
      let span ← j.span?
      let condition ← (j.field? "condition").bind Expr.ofJson?
      let body ← (j.field? "body").bind block?
      return .conditional span condition body
    | "Switch" =>
      let j ← j.record? ["span", "expression", "cases"]
      let span ← j.span?
      let subject ← (j.field? "expression").bind Expr.ofJson?
      let cases ← j.all? "cases" (Case.ofJsonWith? block?)
      return .switch span subject cases
    | "ForLoop" =>
      let j ← j.record? ["span", "pre", "condition", "post", "body"]
      let span ← j.span?
      let pre ← (j.field? "pre").bind block?
      let condition ← (j.field? "condition").bind Expr.ofJson?
      let post ← (j.field? "post").bind block?
      let body ← (j.field? "body").bind block?
      return .loop span pre condition post body
    | "FunctionDefinition" =>
      let j ← j.record? ["span", "name", "parameters", "return_variables", "body"]
      let signature ← Signature.ofJson? j
      let body ← (j.field? "body").bind block?
      return .function ⟨signature, body⟩
    | "Block" => return .block (← block? j)
    | "Label" =>
      let i ← Identifier.ofJson? j
      return .stack (.label i.span i.name)
    | "StackAssignment" =>
      let j ← j.record? ["span", "variable_name"]
      let span ← j.span?
      let target ← (j.field? "variable_name").bind Identifier.ofJson?
      return .stack (.assignment span target)
    | "Instruction" =>
      let j ← j.record? ["span", "instruction"]
      let span ← j.span?
      let name ← j.text? "instruction"
      return .stack (.instruction span name)
    | _ => none

end Stmt

namespace Block

/--
The block that `j` is the form of. Fields that a node does not have are ignored.
-/
def ofJson? (j : Json) : Option Block :=
  ofJsonWith? (Stmt.ofJsonWithin? j.depth false) j

def ofDump? (text : String) : Option Block :=
  (Json.read? text).bind ofJson?

end Block
end Splice
