import Splice.Dialect
import Splice.Pass.Failure
import Splice.Settings.Document

/-!
This module contains the settings of the optimiser. A settings document gives some of them, and the
others have their default.
-/

namespace Splice

inductive Step where
  | disambiguate
  | fullInline
deriving DecidableEq, Repr

namespace Step

def label : Step → String
  | disambiguate => "disambiguate"
  | fullInline => "full_inline"

def ofLabel? : String → Option Step
  | "disambiguate" => some disambiguate
  | "full_inline" => some fullInline
  | _ => none

/--
Whether each step that inlines has a step in front of it that makes the names unique. With these two
kinds of steps that is so unless inlining comes first.
-/
def prepared : List Step → Bool
  | [] => true
  | .disambiguate :: _ => true
  | .fullInline :: _ => false

def validate (steps : List Step) : Except Failure Unit :=
  if prepared steps then .ok () else .error (.settings none .unpreparedInlining)

end Step

namespace Dialect

def label : Dialect → String
  | typed => "typed"
  | loose => "loose"

def ofLabel? : String → Option Dialect
  | "typed" => some typed
  | "loose" => some loose
  | _ => none

end Dialect

structure Settings where
  dialect : Dialect
  steps : List Step
  traceTiming : Bool
  external : List String
deriving DecidableEq, Repr

namespace Value

/--
One of several named options: its name as a string, or a table with the name as its only key and
nothing for a value.
-/
def option? : Value → Option String
  | .string text => some text
  | .table [(name, .table [])] => some name
  | .table [(name, .list [])] => some name
  | _ => none

def boolean? : Value → Option Bool
  | .boolean b => some b
  | _ => none

def string? : Value → Option String
  | .string text => some text
  | _ => none

def list? {α : Type} (f : Value → Option α) : Value → Option (List α)
  | .list items => items.mapM f
  | _ => none

end Value

namespace Settings

def default : Settings where
  dialect := .typed
  steps := [.disambiguate, .fullInline]
  traceTiming := false
  external := []

def set? (s : Settings) (key : String) (v : Value) : Option Settings :=
  match key with
  | "dialect" => do
    let dialect ← Dialect.ofLabel? (← v.option?)
    return { s with dialect := dialect }
  | "steps" => do
    let steps ← v.list? fun item => do Step.ofLabel? (← item.option?)
    return { s with steps := steps }
  | "trace_timing" => do
    let traceTiming ← v.boolean?
    return { s with traceTiming := traceTiming }
  | "external_identifiers" => do
    let external ← v.list? Value.string?
    return { s with external := external }
  | _ => none

/--
The settings that a table of them gives. Their steps may be in any order.
-/
def ofEntries? (entries : List (String × Value)) : Option Settings :=
  entries.foldlM (fun s entry => s.set? entry.1 entry.2) default

def ofDocument (text : String) : Except Failure Settings :=
  match (Document.read? text).bind ofEntries? with
  | none => .error (.settings none .invalid)
  | some s => do
    Step.validate s.steps
    return s

def ofFile (path : String) (contents? : Option ByteArray) : Except Failure Settings :=
  match contents?.bind String.fromUTF8? with
  | none => .error .unreadable
  | some text =>
    match ofDocument text with
    | .error (.settings none fault) => .error (.settings (some path) fault)
    | result => result

end Settings
end Splice
