import Mixin.Image.Basic

/-! Resolution brings the tables of targets up to date with the graph. After an edit to a module,
every module that the edit can affect folds its ancestry, the gate included, into a fresh view, and
its target's table is synchronized with that view. -/

namespace Mixin

namespace Graph

/-- What a module answers to by its ancestry, as slots. -/
def freshSlots (g : Graph) (m : ModuleId) : SlotTable := (g.view m).map fun _ m => Slot.ofMethod m

end Graph

namespace Image

def resolveTarget (s : Image) (m : ModuleId) (t : Target) : Image :=
  s.setTable t (SlotTable.sync (s.table t) (s.graph.freshSlots m)).1

def resolveOne (s : Image) (m : ModuleId) : Image :=
  match (s.graph.node m).target with
  | some t => s.resolveTarget m t
  | none => s

/-- Resolves a module and everything that depends on it. -/
def resolve (s : Image) (m : ModuleId) : Image := (s.graph.affected m).foldl resolveOne s

end Image

end Mixin
