import Splice.Span

/-!
This module contains the diagnostics: what a reader of a source text is told about it.
-/

namespace Splice

inductive Severity where
  | error
  | warning
deriving DecidableEq, Repr

structure Note where
  message : String
  span : Span
deriving DecidableEq, Repr

structure Diagnostic where
  code : String
  severity : Severity
  message : String
  span : Span
  notes : List Note
deriving DecidableEq, Repr

namespace Diagnostic

def error (code message : String) (span : Span) : Diagnostic :=
  ⟨code, .error, message, span, []⟩

def withNote (d : Diagnostic) (message : String) (span : Span) : Diagnostic :=
  { d with notes := d.notes ++ [⟨message, span⟩] }

def anyError (ds : List Diagnostic) : Bool :=
  ds.any fun d => d.severity = .error

end Diagnostic
end Splice
