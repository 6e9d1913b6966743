import Splice.Diagnostic.Render
import Splice.Pass.Disambiguate
import Splice.Pass.Inline
import Splice.Settings.Basic
import Splice.Syntax.Printer

/-!
This module contains the optimiser as a whole: a source text is parsed and analysed, the steps of
the settings are run on its tree, and the result is printed.
-/

namespace Splice

namespace Pipeline

def timed (traceTiming : Bool) (label : String) : Traced Unit :=
  if traceTiming then .report (.timed label) else pure ()

def runStep (info : Info) (b : Block) : Step → Traced Block
  | .disambiguate => disambiguateTraced info b
  | .fullInline => do
    let (b, inlined) ← fullInlineTraced info b
    Traced.report (.inliningStepDone inlined)
    return b

def runPrepared (traceTiming : Bool) (info : Info) : List Step → Block → Traced Block
  | [], b => return b
  | step :: steps, b => do
    let b ← runStep info b step
    timed traceTiming step.label
    runPrepared traceTiming info steps b

end Pipeline

def runSteps (traceTiming : Bool) (info : Info) (steps : List Step) (b : Block) : Traced Block := do
  Traced.ofExcept (Step.validate steps)
  Pipeline.runPrepared traceTiming info steps b

def inputOrigin : String := "<input>"

def optimise (settings : Settings) (source : String) : Traced String := do
  Traced.ofExcept (Step.validate settings.steps)
  let (b, info) ← Traced.ofExcept <|
    (parseAndAnalyze settings.dialect settings.external source).mapError fun ds =>
      .diagnostics (Diagnostic.render false inputOrigin source ds)
  Pipeline.timed settings.traceTiming "parse and analyse"
  let b ← runSteps settings.traceTiming info settings.steps b
  Pipeline.timed settings.traceTiming "print"
  return b.print

end Splice
