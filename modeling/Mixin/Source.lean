import Mixin.Method
import Mixin.Value

/-! What can be included into a module or put onto a receiver. -/

namespace Mixin

inductive Source where
  /-- Becomes an edge of the graph. -/
  | module (m : ModuleId)
  /-- Is flattened: first its mixins, then its extensions, then the methods it lists itself. -/
  | record (methods : List (String × Method)) (mixins extensions : List Source)

structure MixOptions where
  /-- Whom a record's methods are said to have been added to, if not to the includer. -/
  notifyAs : Option Value := none
  /-- A deferred edit leaves resolution to a later call. -/
  resolving : Bool := true

namespace MixOptions

def deferred : MixOptions := { resolving := false }

end MixOptions

end Mixin
