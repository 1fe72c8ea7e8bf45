import Mixin.Value

/-! Why a send, a definition or a method body failed. A fault carries its cause; its wording is
`Fault.message` and nothing else. -/

namespace Mixin

inductive Fault where
  /-- The default handler was reached for a message that the receiver does not understand. -/
  | undefinedMethod (method receiver : String)
  /-- A body asked for the implementation below the lowest one. -/
  | noSuperMethod (method receiver : String)
  | duplicateDefinition (name : String)
  | arityMismatch (method : String) (expected got : Nat)
  | typeMismatch (expected got : String)
  /-- Raised by a method body with a text of its own. -/
  | custom (message : String)
deriving DecidableEq

namespace Fault

def message : Fault → String
  | .undefinedMethod m r => "undefined method `" ++ m ++ "' for " ++ r
  | .noSuperMethod m r => "no superclass method `" ++ m ++ "' for " ++ r
  | .duplicateDefinition n => "`" ++ n ++ "' is already defined"
  | .arityMismatch m expected got =>
    m ++ " expects " ++ toString expected ++ (if expected = 1 then " argument" else " arguments")
      ++ ", got " ++ toString got
  | .typeMismatch expected got => "type mismatch: expected " ++ expected ++ ", got " ++ got
  | .custom text => text

def wrongType (expected : String) (got : Value) : Fault := .typeMismatch expected got.typeName

def isUndefinedMethod : Fault → Bool
  | .undefinedMethod _ _ => true
  | _ => false

def isNoSuperMethod : Fault → Bool
  | .noSuperMethod _ _ => true
  | _ => false

end Fault

/-- What an invocation comes back with. -/
abbrev Reply := Except Fault Value

end Mixin
