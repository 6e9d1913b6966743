import Splice.Diagnostic.Basic
import Splice.Text.Blank

/-!
This module contains the text form of diagnostics: a header line, the line of the source that it is
about with carets under the columns in question, and the notes. The text can be coloured for a
terminal.
-/

namespace Splice
namespace Diagnostic

inductive Colour where
  | red
  | yellow
  | cyan
  | grey
  | white
  | orange
deriving DecidableEq, Repr

namespace Colour

def sequence : Colour → String
  | .red => "\x1b[1;31m"
  | .yellow => "\x1b[1;33m"
  | .cyan => "\x1b[1;36m"
  | .grey => "\x1b[90m"
  | .white => "\x1b[97m"
  | .orange => "\x1b[38;5;208m"

def reset : String := "\x1b[0m"

end Colour

def paint (coloured : Bool) (colour : Colour) (text : String) : String :=
  if coloured then colour.sequence ++ text ++ Colour.reset else text

def caretColour : Severity → Colour
  | .error => .red
  | .warning => .yellow

def messageColour : Severity → Colour
  | .error => .orange
  | .warning => .yellow

def severityWord : Severity → String
  | .error => "error"
  | .warning => "warning"

def place (origin : String) (p : Position) : String :=
  origin ++ ":" ++ toString p.line ++ ":" ++ toString p.column

def repeated (c : Char) (n : Nat) : String :=
  String.ofList (List.replicate n c)

/--
The first and the last column that gets a caret under a line of the given length. The carets start
at most one column behind the line. A span that ends on another line gets one caret.
-/
def caretColumns (length : Nat) (span : Span) : Nat × Nat :=
  let start := min (max span.start.column 1) (length + 1)
  let stop := if span.start.line = span.stop.line then max span.stop.column start else start
  (start, if stop > length then max length start else stop)

/--
The line of the source where `span` starts, with carets under it, or nothing if the source has no
such line. The gutter holds the number of the line.
-/
def frame (coloured : Bool) (severity : Severity) (source : String) (span : Span)
    (message? : Option String) : String :=
  if span.start.line = 0 then
    ""
  else
    match (Text.lines source.toList)[span.start.line - 1]? with
    | none => ""
    | some line =>
      let number := toString span.start.line
      let margin := repeated ' ' number.length
      let columns := caretColumns line.length span
      let top := if coloured then paint coloured .grey (margin ++ " |") else "  |"
      let carets := repeated '^' (columns.2 - columns.1 + 1)
      let message :=
        match message? with
        | none => ""
        | some message => " " ++ paint coloured (messageColour severity) message
      top ++ "\n"
        ++ paint coloured .grey (number ++ " |") ++ " " ++ String.ofList line ++ "\n"
        ++ paint coloured .grey (margin ++ " |") ++ " " ++ repeated ' ' (columns.1 - 1)
        ++ paint coloured (caretColour severity) carets ++ message ++ "\n"

def renderNote (coloured : Bool) (severity : Severity) (origin source : String) (note : Note) :
    String :=
  paint coloured .cyan "note" ++ ": " ++ paint coloured .white note.message ++ " at "
    ++ paint coloured .grey (place origin note.span.start) ++ "\n"
    ++ frame coloured severity source note.span none

def renderOne (coloured : Bool) (origin source : String) (d : Diagnostic) : String :=
  Text.trimEnd <|
    paint coloured .yellow (severityWord d.severity ++ "[" ++ d.code ++ "]") ++ " "
      ++ paint coloured .grey (place origin d.span.start) ++ "\n  "
      ++ paint coloured .white d.message ++ "\n"
      ++ frame coloured d.severity source d.span (some d.message)
      ++ String.join (d.notes.map (renderNote coloured d.severity origin source))

def render (coloured : Bool) (origin source : String) (ds : List Diagnostic) : String :=
  "\n".intercalate (ds.map (renderOne coloured origin source))

end Diagnostic
end Splice
