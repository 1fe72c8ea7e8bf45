import Mixin.Image.Resolve

/-! The gate. For every watched name the gate module holds a stub, and since the kernel includes the
gate before anything else, any real definition shadows the stub. Watched names stay watched;
reserved names never are. -/

namespace Mixin

namespace Gate

def isWatched (g : Gate) (name : Symbol) : Bool := name ∈ g.watched

def isReserved (g : Gate) (name : Symbol) : Bool := name ∈ g.reserved

def watchedCount (g : Gate) : Nat := g.watched.length

/-- Whether watching the name would be something new. -/
def admits (g : Gate) (name : Symbol) : Bool := !g.isReserved name && !g.isWatched name

end Gate

namespace Image

/-- Starts routing a name through the gate, without resolving. -/
def watch (s : Image) (name : Symbol) : Image :=
  if s.gate.admits name then
    { s with
      gate := { s.gate with watched := name :: s.gate.watched }
      graph := s.graph.setMethod .gate name (.stub name) }
  else s

/-- Watches a name and lets every receiver know of it. -/
def watchNow (s : Image) (name : Symbol) : Image :=
  if s.gate.admits name then (s.watch name).resolve .gate else s

end Image

end Mixin
