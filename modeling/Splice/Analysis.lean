import Splice.Analysis.Check
import Splice.Syntax.Parser
import Splice.Text.Order

/-!
This module contains the way from a source text to a tree that the passes can work on.
-/

namespace Splice

structure Info where
  dialect : Dialect
  /--
  The names that the host binds, in order and each once. They mean themselves, and no pass may
  declare them.
  -/
  external : List String
  declarations : Nat
deriving DecidableEq, Repr

namespace Info

def unchecked (dialect : Dialect) (external : List String) : Info :=
  ⟨dialect, Text.ordered external, 0⟩

end Info

def analyze (dialect : Dialect) (external : List String) (b : Block) :
    Except (List Diagnostic) Info :=
  let report := Env.block ⟨dialect, Text.ordered external, []⟩ b
  if report.diagnostics.isEmpty then
    .ok ⟨dialect, Text.ordered external, report.declarations⟩
  else
    .error report.diagnostics

def parseAndAnalyze (dialect : Dialect) (external : List String) (source : String) :
    Except (List Diagnostic) (Block × Info) := do
  let root ← parse dialect source
  let info ← analyze dialect external root
  return (root, info)

end Splice
