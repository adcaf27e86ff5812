import Fluent.Grammar.Fault
import Fluent.Message.Entry
import Fluent.Refusal

/-!
# Problems

What a bundle reports: faults of a resource, entries that were there already, and what went wrong
while a pattern was evaluated. None of them stops the work.
-/

namespace Fluent

/-- What went wrong while a pattern was evaluated. -/
inductive EvaluationProblem where
  | unknownMessage (id : String)
  | unknownTerm (id : String)
  | unknownAttribute (name : String)
  | unknownVariant (key : String)
  | unknownFunction (name : String)
  | unknownVariable (name : String)
  | unsupportedVariableType (name kind : String)
  | noDefault
  | noValue
  | cyclic
  | tooManyCharacters (length most : Nat)
  | tooDeeplyNested (most : Nat)
  | functionFailed (name : String) (refusal : Refusal)
  deriving DecidableEq, Repr

/-- The text of a problem of evaluation. -/
def EvaluationProblem.message : EvaluationProblem → String
  | .unknownMessage id => "Unknown message: " ++ id
  | .unknownTerm id => "Unknown term: " ++ id
  | .unknownAttribute name => "Unknown attribute: " ++ name
  | .unknownVariant key => "Unknown variant: " ++ key
  | .unknownFunction name => "Unknown function: " ++ name ++ "()"
  | .unknownVariable name => "Unknown variable: " ++ name
  | .unsupportedVariableType name kind => "Unsupported variable type: " ++ name ++ ", " ++ kind
  | .noDefault => "No default"
  | .noValue => "No value"
  | .cyclic => "Cyclic reference"
  | .tooManyCharacters length most =>
    "Too many characters in placeable (" ++ toString length ++ ", max allowed is " ++
      toString most ++ ")"
  | .tooDeeplyNested most =>
    "Too deeply nested references (max allowed is " ++ toString most ++ ")"
  | .functionFailed name refusal => "Function " ++ name ++ "() failed: " ++ refusal.message

/-- What a bundle reports. -/
inductive Problem where
  | overriding (kind : EntryKind) (id : String)
  | grammar (error : Grammar.ParseError)
  | evaluation (problem : EvaluationProblem)
  deriving DecidableEq, Repr

/-- The text of a problem. -/
def Problem.message : Problem → String
  | .overriding kind id => "Attempt to override an existing " ++ kind.name ++ ": \"" ++ id ++ "\""
  | .grammar error => "parser error: " ++ error.message
  | .evaluation problem => "resolver error: " ++ problem.message

end Fluent
