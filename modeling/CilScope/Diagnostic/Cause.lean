import CilScope.Diagnostic.Basic
import CilScope.Language

/-!
# Causes of diagnostics

Everything the compilers can complain about. A cause has a code, a severity and a wording in each
of the two languages.
-/

namespace CilScope

/-- Why a diagnostic is reported. -/
inductive Cause
  | missingSemicolon
  | expectedOpenBrace
  | expectedCloseBrace
  | expectedCloseParen
  | endOfStatementExpected
  | syntaxError (found : String)
  | topLevelExpected
  | invalidExpressionTerm (term : String)
  | identifierExpected
  /-- A block construct without its end. -/
  | missingEnd (construct : String)
  | newlineInConstant
  | unexpectedChar (c : Char)
  | integerTooLarge
  | nameNotFound (name : String)
  | typeNotFound (name : String)
  | noMember (type name : String)
  | cannotConvert (source target : String)
  | badBinaryOperands (op lhs rhs : String)
  | badUnaryOperand (op type : String)
  | wrongArgCount (method : String) (count : Nat)
  | badArgument (index : Nat) (source target : String)
  | notInvocable (name : String)
  | notIndexable (type : String)
  | duplicateLocal (name : String)
  | duplicateMember (type name : String)
  | instanceRequired (member : String)
  | notAStatement
  | leftHandSideNotVariable
  | notAllPathsReturn (method : String)
  | returnValueRequired (type : String)
  | returnValueInVoid (method : String)
  | noEnclosingLoop (exit : Bool) (kind : String)
  | notAnException
  | staticClassInstance (type : String)
  | instanceMemberInStaticClass (name : String)
  | unknownOption (option : String) (ignored : Bool)
  | unusedVariable (name : String)
  | assignedNeverUsed (name : String)
  deriving DecidableEq, Repr, Inhabited

namespace Cause

/-- Unused variables and ignored options are warnings, and so is a missing return value in Visual
Basic. -/
def severity (language : Language) : Cause → Severity
  | unusedVariable _ | assignedNeverUsed _ => .warning
  | notAllPathsReturn _ => if language = .visualBasic then .warning else .error
  | unknownOption _ ignored => if ignored then .warning else .error
  | _ => .error

/-- The codes of C#. -/
def csharpCode : Cause → String
  | missingSemicolon | endOfStatementExpected => "CS1002"
  | expectedOpenBrace => "CS1514"
  | expectedCloseBrace | missingEnd _ => "CS1513"
  | expectedCloseParen => "CS1026"
  | syntaxError _ => "CS1519"
  | topLevelExpected => "CS1022"
  | invalidExpressionTerm _ => "CS1525"
  | identifierExpected => "CS1001"
  | newlineInConstant => "CS1010"
  | unexpectedChar _ => "CS1056"
  | integerTooLarge => "CS1021"
  | nameNotFound _ => "CS0103"
  | typeNotFound _ => "CS0246"
  | noMember .. => "CS0117"
  | cannotConvert .. => "CS0029"
  | badBinaryOperands .. => "CS0019"
  | badUnaryOperand .. => "CS0023"
  | wrongArgCount .. => "CS1501"
  | badArgument .. => "CS1503"
  | notInvocable _ => "CS1955"
  | notIndexable _ => "CS0021"
  | duplicateLocal _ => "CS0128"
  | duplicateMember .. => "CS0111"
  | instanceRequired _ => "CS0120"
  | notAStatement => "CS0201"
  | leftHandSideNotVariable => "CS0131"
  | notAllPathsReturn _ => "CS0161"
  | returnValueRequired _ => "CS0126"
  | returnValueInVoid _ => "CS0127"
  | noEnclosingLoop .. => "CS0139"
  | notAnException => "CS0155"
  | staticClassInstance _ => "CS0712"
  | instanceMemberInStaticClass _ => "CS0708"
  | unknownOption .. => "CS2007"
  | unusedVariable _ => "CS0168"
  | assignedNeverUsed _ => "CS0219"

/-- The code for a block construct without its end, by the construct. -/
def missingEndCode : String → String
  | "If" => "BC30081"
  | "While" => "BC30082"
  | "Do" => "BC30083"
  | "For" => "BC30084"
  | "Sub" => "BC30026"
  | "Function" => "BC30027"
  | "Module" => "BC30625"
  | "Namespace" => "BC30626"
  | "Class" => "BC30481"
  | _ => "BC30384"

/-- The codes of Visual Basic. -/
def visualBasicCode : Cause → String
  | missingSemicolon | endOfStatementExpected => "BC30205"
  | expectedOpenBrace | expectedCloseBrace | syntaxError _ => "BC30035"
  | expectedCloseParen => "BC30198"
  | topLevelExpected => "BC30689"
  | invalidExpressionTerm _ => "BC30201"
  | identifierExpected => "BC30203"
  | missingEnd construct => missingEndCode construct
  | newlineInConstant => "BC30648"
  | unexpectedChar _ => "BC30037"
  | integerTooLarge => "BC30036"
  | nameNotFound _ => "BC30451"
  | typeNotFound _ => "BC30002"
  | noMember .. => "BC30456"
  | cannotConvert .. | badArgument .. => "BC30311"
  | badBinaryOperands .. => "BC30452"
  | badUnaryOperand .. => "BC30487"
  | wrongArgCount .. => "BC30516"
  | notInvocable _ | notAStatement => "BC30454"
  | notIndexable _ => "BC30367"
  | duplicateLocal _ => "BC30288"
  | duplicateMember .. => "BC30269"
  | instanceRequired _ => "BC30369"
  | leftHandSideNotVariable => "BC30068"
  | notAllPathsReturn _ => "BC42105"
  | returnValueRequired _ => "BC30654"
  | returnValueInVoid _ => "BC30647"
  | noEnclosingLoop exit _ => if exit then "BC30096" else "BC30783"
  | notAnException => "BC30665"
  | staticClassInstance _ => "BC30371"
  | instanceMemberInStaticClass _ => "BC30433"
  | unknownOption .. => "BC2007"
  | unusedVariable _ | assignedNeverUsed _ => "BC42024"

/-- The code of a cause. -/
def code (cause : Cause) : Language → String
  | .csharp => cause.csharpCode
  | .visualBasic => cause.visualBasicCode

/-- A word in single quotes. -/
def quoted (word : String) : String := "'" ++ word ++ "'"

/-- The wording of C#. -/
def csharpText : Cause → String
  | missingSemicolon | endOfStatementExpected => "; expected"
  | expectedOpenBrace => "\x7b expected"
  | expectedCloseBrace | missingEnd _ => "\x7d expected"
  | expectedCloseParen => ") expected"
  | syntaxError found =>
    "Invalid token " ++ quoted found ++ " in class, struct, or interface member declaration"
  | topLevelExpected => "Type or namespace definition, or end-of-file expected"
  | invalidExpressionTerm term => "Invalid expression term " ++ quoted term
  | identifierExpected => "Identifier expected"
  | newlineInConstant => "Newline in constant"
  | unexpectedChar c => "Unexpected character " ++ quoted (String.singleton c)
  | integerTooLarge => "Integral constant is too large"
  | nameNotFound name => "The name " ++ quoted name ++ " does not exist in the current context"
  | typeNotFound name =>
    "The type or namespace name " ++ quoted name ++
      " could not be found (are you missing a using directive or an assembly reference?)"
  | noMember type name => quoted type ++ " does not contain a definition for " ++ quoted name
  | cannotConvert source target =>
    "Cannot implicitly convert type " ++ quoted source ++ " to " ++ quoted target
  | badBinaryOperands op lhs rhs =>
    "Operator " ++ quoted op ++ " cannot be applied to operands of type " ++ quoted lhs ++
      " and " ++ quoted rhs
  | badUnaryOperand op type =>
    "Operator " ++ quoted op ++ " cannot be applied to operand of type " ++ quoted type
  | wrongArgCount method count =>
    "No overload for method " ++ quoted method ++ s!" takes {count} arguments"
  | badArgument index source target =>
    s!"Argument {index}: cannot convert from " ++ quoted source ++ " to " ++ quoted target
  | notInvocable name =>
    "Non-invocable member " ++ quoted name ++ " cannot be used like a method."
  | notIndexable type =>
    "Cannot apply indexing with [] to an expression of type " ++ quoted type
  | duplicateLocal name =>
    "A local variable named " ++ quoted name ++ " is already defined in this scope"
  | duplicateMember type name =>
    "Type " ++ quoted type ++ " already defines a member called " ++ quoted name ++
      " with the same parameter types"
  | instanceRequired member =>
    "An object reference is required for the non-static field, method, or property " ++
      quoted member
  | notAStatement =>
    "Only assignment, call, increment, decrement, await, and new object expressions can be " ++
      "used as a statement"
  | leftHandSideNotVariable =>
    "The left-hand side of an assignment must be a variable, property or indexer"
  | notAllPathsReturn method => quoted method ++ ": not all code paths return a value"
  | returnValueRequired type =>
    "An object of a type convertible to " ++ quoted type ++ " is required"
  | returnValueInVoid method =>
    "Since " ++ quoted method ++
      " returns void, a return keyword must not be followed by an object expression"
  | noEnclosingLoop .. => "No enclosing loop out of which to break or continue"
  | notAnException => "The type caught or thrown must be derived from System.Exception"
  | staticClassInstance type =>
    "Cannot create an instance of the static class " ++ quoted type
  | instanceMemberInStaticClass name =>
    quoted name ++ ": cannot declare instance members in a static class"
  | unknownOption option _ => "Unrecognized option: " ++ quoted option
  | unusedVariable name => "The variable " ++ quoted name ++ " is declared but never used"
  | assignedNeverUsed name =>
    "The variable " ++ quoted name ++ " is assigned but its value is never used"

/-- The wording for a block construct without its end. -/
def missingEndText (construct : String) : String :=
  match construct with
  | "Sub" => "'End Sub' expected."
  | "Function" => "'End Function' expected."
  | "For" => "'For' must end with a matching 'Next'."
  | "Do" => "'Do' must end with a matching 'Loop'."
  | "Module" | "Class" | "Namespace" =>
    quoted construct ++ " statement must end with a matching " ++ quoted ("End " ++ construct) ++
      "."
  | _ => quoted construct ++ " must end with a matching " ++ quoted ("End " ++ construct) ++ "."

/-- The wording of Visual Basic. -/
def visualBasicText : Cause → String
  | missingSemicolon | endOfStatementExpected => "End of statement expected."
  | expectedOpenBrace | expectedCloseBrace | syntaxError _ => "Syntax error."
  | expectedCloseParen => "')' expected."
  | topLevelExpected => "Statement cannot appear outside of a method body."
  | invalidExpressionTerm _ => "Expression expected."
  | identifierExpected => "Identifier expected."
  | missingEnd construct => missingEndText construct
  | newlineInConstant => "String constants must end with a double quote."
  | unexpectedChar _ => "Character is not valid."
  | integerTooLarge => "Overflow."
  | nameNotFound name =>
    quoted name ++ " is not declared. It may be inaccessible due to its protection level."
  | typeNotFound name => "Type " ++ quoted name ++ " is not defined."
  | noMember type name => quoted name ++ " is not a member of " ++ quoted type ++ "."
  | cannotConvert source target | badArgument _ source target =>
    "Value of type " ++ quoted source ++ " cannot be converted to " ++ quoted target ++ "."
  | badBinaryOperands op lhs rhs =>
    "Operator " ++ quoted op ++ " is not defined for types " ++ quoted lhs ++ " and " ++
      quoted rhs ++ "."
  | badUnaryOperand op type =>
    "Operator " ++ quoted op ++ " is not defined for type " ++ quoted type ++ "."
  | wrongArgCount method _ =>
    "Overload resolution failed because no accessible " ++ quoted method ++
      " accepts this number of arguments."
  | notInvocable _ | notAStatement => "Expression is not a method."
  | notIndexable type =>
    "Class " ++ quoted type ++ " cannot be indexed because it has no default property."
  | duplicateLocal name =>
    "Local variable " ++ quoted name ++ " is already declared in the current block."
  | duplicateMember _ name =>
    quoted name ++ " has multiple definitions with identical signatures."
  | instanceRequired _ =>
    "Cannot refer to an instance member of a class from within a shared method or shared " ++
      "member initializer without an explicit instance of the class."
  | leftHandSideNotVariable =>
    "Expression is a value and therefore cannot be the target of an assignment."
  | notAllPathsReturn method =>
    "Function " ++ quoted method ++ " doesn't return a value on all code paths. A null " ++
      "reference exception could occur at run time when the result is used."
  | returnValueRequired _ =>
    "'Return' statement in a Function, Get, or Operator must return a value."
  | returnValueInVoid _ => "'Return' statement in a Sub or a Set cannot return a value."
  | noEnclosingLoop exit kind =>
    quoted ((if exit then "Exit" else "Continue") ++ " " ++ kind) ++
      " can only appear inside a " ++ quoted kind ++ " statement."
  | notAnException => "'Throw' operand must derive from 'System.Exception'."
  | staticClassInstance type => "Module " ++ quoted type ++ " cannot be used as a type."
  | instanceMemberInStaticClass _ => "Methods in a Module cannot be declared 'Overridable'."
  | unknownOption option _ => "unrecognized option " ++ quoted option ++ "; ignored"
  | unusedVariable name | assignedNeverUsed name =>
    "Unused local variable: " ++ quoted name ++ "."

/-- The wording of a cause. -/
def text (cause : Cause) : Language → String
  | .csharp => cause.csharpText
  | .visualBasic => cause.visualBasicText

/-- The diagnostic of a cause. -/
def diagnostic (cause : Cause) (language : Language) (place : Option Place) : Diagnostic where
  severity := cause.severity language
  code := cause.code language
  message := cause.text language
  place

end Cause

end CilScope
