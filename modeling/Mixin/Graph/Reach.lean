import Mixin.Graph.Basic

/-! What can be reached over the edges of a graph. A search down `included` answers whether a module
is composed of another; over `dependents`, nearest first, one comes to the modules an edit can
affect. -/

namespace Mixin

namespace Graph

/-- Takes modules from the front of the queue and puts what they lead to at its end. The modules met
so far are kept last first. -/
def explore (next : ModuleId → List ModuleId) :
    (budget : Nat) → (queue met : List ModuleId) → List ModuleId
  | 0, _, met => met
  | _ + 1, [], met => met
  | budget + 1, m :: queue, met =>
    if m ∈ met then explore next budget queue met
    else explore next budget (queue ++ next m) (m :: met)

/-- Each module of the arena puts its edges into the queue at most once. -/
def explorationBudget (g : Graph) (next : ModuleId → List ModuleId) : Nat :=
  ((List.range g.nodes.size).flatMap fun i => next ⟨i⟩).length + 2

def reached (g : Graph) (next : ModuleId → List ModuleId) (m : ModuleId) : List ModuleId :=
  (explore next (g.explorationBudget next) [m] []).reverse

/-- Takes modules from the top of the stack until it comes to `other` or the stack is empty. A module
that was met before is dropped; the last edge of a new one is followed first. -/
def search (g : Graph) (other : ModuleId) : (budget : Nat) → (stack met : List ModuleId) → Bool
  | 0, _, _ => false
  | _ + 1, [], _ => false
  | budget + 1, m :: stack, met =>
    if m = other then true
    else if m ∈ met then search g other budget stack met
    else search g other budget ((g.node m).included.reverse ++ stack) (m :: met)

def includes (g : Graph) (m other : ModuleId) : Bool :=
  g.search other (g.explorationBudget fun a => (g.node a).included) [m] []

/-- The modules whose resolution can depend on `m`, itself first. -/
def affected (g : Graph) (m : ModuleId) : List ModuleId :=
  g.reached (fun a => (g.node a).dependents) m

end Graph

end Mixin
