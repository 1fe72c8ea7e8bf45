import Mixin.Symbol

/-! Methods and the tables modules keep them in. A method is known by its body: two methods are the
same implementation when their bodies are equal, whatever else they carry. Programs are numbered in
the order in which they were made, so a program made twice has two bodies. -/

namespace Mixin

/-- The methods that every receiver answers to from the start. -/
inductive Native where
  | methodMissing
  | inspect
  | respondTo
  | isA
deriving DecidableEq

inductive Body where
  | native (n : Native)
  /-- Forwards the message `name` to the receiver's `method_missing`; only the gate installs it. -/
  | stub (name : Symbol)
  | program (index : Nat)
deriving DecidableEq

structure Method where
  body : Body
  /-- The body was declared to call the next implementation in its chain. -/
  callsNext : Bool := false
deriving DecidableEq

namespace Method

def native (n : Native) : Method := { body := .native n }

def stub (name : Symbol) : Method := { body := .stub name }

def program (index : Nat) (callsNext : Bool) : Method := { body := .program index, callsNext }

def isStub (m : Method) : Bool :=
  match m.body with
  | .stub _ => true
  | _ => false

def sameBody (a b : Method) : Bool := a.body = b.body

/-- The handler that every `method_missing` ends in unless a receiver has its own. -/
def defaultHandler : Method := native .methodMissing

end Method

/-- The methods a module defines itself, in the order of their symbols. -/
abbrev MethodTable := Std.ExtTreeMap Symbol Method

end Mixin
