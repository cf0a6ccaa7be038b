import Stencil.Declaration

/-
What can be wrong with a placeholder, and the messages that say so.
-/
namespace Stencil

inductive Declaration.Fault where
  | notPlaceholder (text : Text)
  | malformedProperty (segment : Text)
  | missingName (text : Text)
  | invalidName (name : Text)
  | unknownKind (tag : Text)
  | missingValue (text : Text)
  | kindMismatch (name : Text) (expected actual : Kind)
  deriving DecidableEq, Repr

namespace Declaration

def Fault.isFormat : Fault → Bool
  | .notPlaceholder _ | .malformedProperty _ | .missingName _ | .invalidName _ => true
  | .unknownKind _ | .missingValue _ | .kindMismatch _ _ _ => false

def Fault.message : Fault → Text
  | .notPlaceholder text => text ++ " is not a placeholder".toList
  | .malformedProperty segment => segment ++ " is not a placeholder property".toList
  | .missingName text => text ++ " does not have a name".toList
  | .invalidName name => "`".toList ++ name ++ "` is not a valid variable name".toList
  | .unknownKind tag => "Placeholder type ".toList ++ tag ++ " does not exist".toList
  | .missingValue text => text ++ " does not have a value or a defaultValue".toList
  | .kindMismatch name expected actual =>
    "`".toList ++ name ++ "` is a `".toList ++ expected.tag ++ "`, `".toList ++ actual.tag ++
      "` given".toList

end Declaration
end Stencil
