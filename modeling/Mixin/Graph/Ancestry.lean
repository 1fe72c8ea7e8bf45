import Mixin.Graph.Basic

/-! The ancestry of a module is the order in which a depth-first walk over `included` leaves the
modules: what a module includes comes before it, the module itself comes last, and each module is
kept where it was left first. A module counts as seen once the walk has entered it, so the walk also
ends on cycles. Later entries shadow earlier ones. -/

namespace Mixin

/-- The modules a walk has entered and, last first, those it has left. -/
structure Walk where
  entered : List ModuleId := []
  left : List ModuleId := []

namespace Walk

def enter (w : Walk) (m : ModuleId) : Walk := { w with entered := m :: w.entered }

def leave (w : Walk) (m : ModuleId) : Walk := { w with left := m :: w.left }

end Walk

namespace Graph

/-- Walks from `m` unless it was entered before. Of the modules it leaves it notes all or, unless
hidden ones are to be shown, the others. The budget bounds the depth of the walk; no walk through an
arena goes deeper than the number of its modules. -/
def visit (g : Graph) (showHidden : Bool) : (budget : Nat) → ModuleId → Walk → Walk
  | 0, _, w => w
  | budget + 1, m, w =>
    if m ∈ w.entered then w
    else
      let v := (g.node m).included.foldl (fun w inc => visit g showHidden budget inc w) (w.enter m)
      if showHidden || !(g.node m).hidden then v.leave m else v

/-- The whole ancestry of a module, hidden modules too. -/
def linearize (g : Graph) (m : ModuleId) : List ModuleId :=
  (g.visit true (g.nodes.size + 1) m {}).left.reverse

/-- The ancestry as it is reported. -/
def ancestors (g : Graph) (m : ModuleId) : List ModuleId :=
  (g.visit false (g.nodes.size + 1) m {}).left.reverse

/-- The implementations of a name along an ancestry, the most specific one last. -/
def chain (g : Graph) (m : ModuleId) (name : Symbol) : List Method :=
  (g.ancestors m).filterMap fun a => (g.node a).methods[name]?

def implementation? (g : Graph) (m : ModuleId) (name : Symbol) : Option Method :=
  (g.chain m name).getLast?

/-- The names a module defines itself, in symbol order. -/
def ownNames (g : Graph) (m : ModuleId) : List Symbol := (g.node m).methods.keys

/-- The names visible through a module, each at the most specific ancestor that defines it, with the
most specific ancestor first. -/
def visibleNames (g : Graph) (m : ModuleId) : List Symbol :=
  ((g.ancestors m).reverse.flatMap g.ownNames).eraseDups

/-- The methods of an ancestry folded together: of two definitions of a name the later stays. -/
def view (g : Graph) (m : ModuleId) : MethodTable :=
  (g.linearize m).foldl (fun t a => (g.node a).methods.foldl (fun t n m => t.insert n m) t) ∅

end Graph

end Mixin
