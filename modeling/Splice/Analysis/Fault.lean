import Splice.Diagnostic.Basic

/-!
This module contains what can be wrong with a program that has a tree.
-/

namespace Splice

inductive AnalysisFault where
  | unknownIdentifier (name : String)
  | unknownInstruction (name : String)
  | hiddenVariable (name : String)
  | alreadyDeclared (name : String)
  | declaredTwice (name : String)
  | notAValue (name : String)
  | argumentCount (name : String) (expected found : Nat)
  | notAFunction (name : String)
  | unusedValues (count : Nat)
  | valueCount (expected found : Nat)
  | notAssignable (name : String)
  | duplicateCase (text : String)
  | unsupportedForm (kind : String)
  | numberTooLarge (text : String)
  | invalidNumber (text : String)
  | stringTooLong (limit : Nat)
  | instructionDeclared (name : String)
  | severalDefaults
deriving DecidableEq, Repr

namespace AnalysisFault

def code : AnalysisFault → String
  | unknownIdentifier _ => "E2001"
  | unknownInstruction _ => "E2001"
  | hiddenVariable _ => "E2002"
  | alreadyDeclared _ => "E2003"
  | declaredTwice _ => "E2003"
  | notAValue _ => "E2004"
  | argumentCount .. => "E2005"
  | notAFunction _ => "E2006"
  | unusedValues _ => "E2007"
  | valueCount .. => "E2008"
  | notAssignable _ => "E2009"
  | duplicateCase _ => "E2010"
  | unsupportedForm _ => "E2011"
  | numberTooLarge _ => "E2012"
  | invalidNumber _ => "E2012"
  | stringTooLong _ => "E2013"
  | instructionDeclared _ => "E2014"
  | severalDefaults => "E2015"

def message : AnalysisFault → String
  | unknownIdentifier name => "unknown identifier `" ++ name ++ "`"
  | unknownInstruction name => "unknown instruction `" ++ name ++ "`"
  | hiddenVariable name =>
    "variable `" ++ name ++ "` of an enclosing scope is not accessible inside a function"
  | alreadyDeclared name => "`" ++ name ++ "` is already declared"
  | declaredTwice name => "`" ++ name ++ "` is declared twice in one declaration"
  | notAValue name => "`" ++ name ++ "` is not a variable and cannot be used as a value"
  | argumentCount name expected found =>
    "`" ++ name ++ "` expects " ++ toString expected ++ " argument(s), but " ++ toString found
      ++ " were given"
  | notAFunction name => "`" ++ name ++ "` is not a function"
  | unusedValues count =>
    "expression statement leaves " ++ toString count ++ " unused value(s)"
  | valueCount expected found =>
    "expected " ++ toString expected ++ " value(s), but the expression yields " ++ toString found
  | notAssignable name => "`" ++ name ++ "` is not a variable and cannot be assigned"
  | duplicateCase text => "duplicate case value `" ++ text ++ "`"
  | unsupportedForm kind => kind ++ " is not allowed in this dialect"
  | numberTooLarge text => "number literal `" ++ text ++ "` does not fit in 256 bits"
  | invalidNumber text => "invalid number literal `" ++ text ++ "`"
  | stringTooLong limit => "string literal longer than " ++ toString limit ++ " bytes"
  | instructionDeclared name =>
    "`" ++ name ++ "` is the name of an instruction and cannot be declared"
  | severalDefaults => "switch has more than one default case"

def diagnostic (fault : AnalysisFault) (span : Span) : Diagnostic :=
  .error fault.code fault.message span

end AnalysisFault
end Splice
