import Mixin.Method
import Mixin.Value

/-! The frame of one invocation. Its cursor remembers the chain and the place in it of the
implementation that is running; each invocation has a frame of its own, so nested calls never share
a cursor. -/

namespace Mixin

structure Cursor where
  callees : List Method
  index : Nat
deriving DecidableEq

structure Call where
  receiver : Receiver
  name : Symbol
  args : List Value
  /-- A frame entered through a direct slot has no place in a chain yet. -/
  cursor : Option Cursor := none
deriving DecidableEq

namespace Cursor

/-- At the most specific implementation. -/
def top (callees : List Method) : Cursor := ⟨callees, callees.length - 1⟩

/-- The implementation directly below, with the cursor moved to it. -/
def below? (c : Cursor) : Option (Method × Cursor) :=
  match c.index with
  | 0 => none
  | i + 1 => c.callees[i]?.map fun m => (m, { c with index := i })

end Cursor

namespace Call

/-- A missing argument is void. -/
def arg (c : Call) (i : Nat) : Value := c.args[i]?.getD .void

/-- The arguments with `overrides` laid over the leading ones. -/
def overlay (c : Call) (overrides : List Value) : List Value :=
  overrides ++ c.args.drop overrides.length

end Call

end Mixin
