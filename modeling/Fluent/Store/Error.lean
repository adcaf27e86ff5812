import Fluent.Refusal

/-!
# Errors of a store

What stops a store from reading a resource or its settings.
-/

namespace Fluent

/-- Why a file cannot be read. -/
inductive FileError where
  | notFound
  | invalidInput
  | invalidData
  | isADirectory
  | notADirectory
  | invalidFilename
  deriving DecidableEq, Repr

/-- What stops a store. -/
inductive StoreError where
  | refused (refusal : Refusal)
  | invalidLocale (locale : String)
  | file (error : FileError)
  | settings
  deriving DecidableEq, Repr

end Fluent
