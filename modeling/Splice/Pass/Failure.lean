import Splice.Tree.Basic

/-!
This module contains the ways in which the optimiser fails.
-/

namespace Splice

inductive SettingsFault where
  | invalid
  | unpreparedInlining
deriving DecidableEq, Repr

namespace SettingsFault

def message : SettingsFault → String
  | invalid => "invalid settings"
  | unpreparedInlining => "step `full_inline` requires an earlier `disambiguate` step"

end SettingsFault

inductive Failure where
  | unsupported (form : StackForm)
  | unresolved (i : Identifier)
  | nestedFunction (f : Signature)
  | arityMismatch (callee : String) (expected found : Nat) (span : Span)
  | diagnostics (rendered : String)
  /--
  A fault of the settings, which were read from a file if there is a path.
  -/
  | settings (path? : Option String) (fault : SettingsFault)
  | unreadable
deriving DecidableEq, Repr

namespace Failure

def span? : Failure → Option Span
  | unsupported form => some form.span
  | unresolved i => some i.span
  | nestedFunction f => some f.span
  | arityMismatch _ _ _ span => some span
  | diagnostics _ => none
  | settings .. => none
  | unreadable => none

def place (span : Span) : String :=
  toString span.start.line ++ ":" ++ toString span.start.column

def message : Failure → String
  | unsupported form =>
    form.kind ++ " at " ++ place form.span ++ " is not supported by the optimiser"
  | unresolved i => "unresolved name `" ++ i.name ++ "` at " ++ place i.span
  | nestedFunction f =>
    "function `" ++ f.name ++ "` is defined inside a body being inlined (" ++ place f.span ++ ")"
  | arityMismatch callee expected found span =>
    "arity mismatch for `" ++ callee ++ "` at " ++ place span ++ ": expected " ++ toString expected
      ++ ", found " ++ toString found
  | diagnostics rendered => "Diagnostics emitted:\n" ++ rendered
  | settings none fault => "Config error: " ++ fault.message
  | settings (some path) fault => "Config error: " ++ path ++ ": " ++ fault.message
  | unreadable => "IO error"

end Failure
end Splice
