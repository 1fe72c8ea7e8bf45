import Mixin.Image.Gate

/-! Edits that define modules and methods. A defined name is watched from then on, so that receivers
outside the definition's reach route it to `method_missing`. -/

namespace Mixin

namespace Image

def defineModule (s : Image) (name : String) : ModuleId × Image :=
  let (a, s) := s.intern name
  let (m, graph) := s.graph.alloc { name := some a }
  (m, { s with graph })

/-- Stores a method in a module's own table. A deferred definition leaves the tables as they are. -/
def define (s : Image) (owner : ModuleId) (name : Symbol) (m : Method) (resolving : Bool) : Image :=
  let fresh := s.gate.admits name
  let s := { s with graph := s.graph.setMethod owner name m }.watch name
  if resolving then
    let s := s.resolve owner
    if fresh then s.resolve .gate else s
  else s

def link (s : Image) (owner other : ModuleId) (resolving : Bool) : Image :=
  let s := { s with graph := s.graph.addEdge owner other }
  if resolving then s.resolve owner else s

def setHooks (s : Image) (m : ModuleId) (f : Hooks → Hooks) : Image :=
  { s with graph := s.graph.update m fun n => { n with hooks := f n.hooks } }

end Image

end Mixin
