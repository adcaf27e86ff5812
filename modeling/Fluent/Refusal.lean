/-!
# Refusals

Language tags, functions and formatters refuse what they cannot handle. A refusal says of which kind
it is and names its reason.
-/

namespace Fluent

/-- Why a tag, a function call or a formatter was refused. -/
inductive Refusal where
  | unsupported (reason : String)
  | invalidInput (reason : String)
  | broken (reason : String)
  deriving DecidableEq, Repr

/-- The text of a refusal. -/
def Refusal.message : Refusal → String
  | .unsupported reason => "unsupported: " ++ reason
  | .invalidInput reason => "invalid input: " ++ reason
  | .broken reason => "internal error: " ++ reason

end Fluent
