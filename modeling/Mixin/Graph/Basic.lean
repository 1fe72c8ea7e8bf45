import Mixin.Value
import Mixin.Method

/-! The modules and who includes whom. `included` lists what a module composes, in order and with
repeats; `dependents` points back and holds each includer once. A removed module gives its place to
the next one allocated. Every edit that can change what a module answers to moves the generation
on. -/

namespace Mixin

structure HookId where
  index : Nat
deriving DecidableEq

/-- The table that is kept equal to what a module resolves to. -/
inductive Target where
  /-- Shared by the instances of a class that have no behaviour of their own. -/
  | prototype (c : ClassId)
  /-- The behaviour of one receiver alone. -/
  | singleton (r : Receiver)
  /-- What classes answer to until one on their superclass line has behaviour of its own. -/
  | classBase
  /-- What modules answer to until they have behaviour of their own. -/
  | moduleBase
deriving DecidableEq

/-- Callbacks run after a module has been included or a receiver extended with it. -/
structure Hooks where
  included : Option HookId := none
  extended : Option HookId := none
deriving DecidableEq

structure Node where
  name : Option Symbol := none
  methods : MethodTable := ∅
  included : List ModuleId := []
  dependents : List ModuleId := []
  target : Option Target := none
  hooks : Hooks := {}
  /-- A hidden module takes part in resolution and is never reported as an ancestor. -/
  hidden : Bool := false

namespace Node

instance : Inhabited Node := ⟨{}⟩

def addIncluded (other : ModuleId) (n : Node) : Node := { n with included := n.included ++ [other] }

def addDependent (owner : ModuleId) (n : Node) : Node :=
  { n with dependents := if owner ∈ n.dependents then n.dependents else n.dependents ++ [owner] }

def dropIncluded (m : ModuleId) (n : Node) : Node :=
  { n with included := n.included.filter (· ≠ m) }

def dropDependent (m : ModuleId) (n : Node) : Node :=
  { n with dependents := n.dependents.filter (· ≠ m) }

end Node

structure Graph where
  nodes : Array Node := #[]
  /-- The places of removed modules, last removed first. -/
  free : List ModuleId := []
  /-- How many edits there have been. -/
  edits : Nat := 0

namespace Graph

/-- The number of edits as a machine word. -/
def generation (g : Graph) : UInt64 := .ofNat g.edits

/-- A place outside the arena reads as a blank module. -/
def node (g : Graph) (m : ModuleId) : Node := g.nodes[m.index]?.getD {}

def update (g : Graph) (m : ModuleId) (f : Node → Node) : Graph :=
  { g with nodes := g.nodes.modify m.index f }

def bump (g : Graph) : Graph := { g with edits := g.edits + 1 }

@[simp]
theorem size_update (g : Graph) (m : ModuleId) (f : Node → Node) :
    (g.update m f).nodes.size = g.nodes.size := by simp [update]

theorem node_update_self (g : Graph) {m : ModuleId} (f : Node → Node) (h : m.index < g.nodes.size) :
    (g.update m f).node m = f (g.node m) := by
  simp [update, node, h, Array.getElem_modify]

theorem node_update_of_ne (g : Graph) {m a : ModuleId} (f : Node → Node) (h : m ≠ a) :
    (g.update m f).node a = g.node a := by
  have h' : m.index ≠ a.index := fun he => h (by cases m; cases a; simp_all)
  simp [update, node, Array.getElem?_modify, h']

@[simp]
theorem node_bump (g : Graph) (m : ModuleId) : g.bump.node m = g.node m := rfl

theorem node_of_size_le (g : Graph) {m : ModuleId} (h : g.nodes.size ≤ m.index) : g.node m = {} := by
  simp [node, Array.getElem?_eq_none h]

def liveCount (g : Graph) : Nat := g.nodes.size - g.free.length

/-- Puts a module into the place freed last, or at the end of the arena. -/
def alloc (g : Graph) (n : Node) : ModuleId × Graph :=
  match g.free with
  | m :: rest => (m, { g.update m fun _ => n with free := rest })
  | [] => (⟨g.nodes.size⟩, { g with nodes := g.nodes.push n })

def setMethod (g : Graph) (owner : ModuleId) (name : Symbol) (m : Method) : Graph :=
  (g.update owner fun n => { n with methods := n.methods.insert name m }).bump

/-- The edge is stored again each time, the pointer back only once. -/
def addEdge (g : Graph) (owner other : ModuleId) : Graph :=
  ((g.update owner (Node.addIncluded other)).update other (Node.addDependent owner)).bump

/-- Unlinks a module from both edge lists and frees its place. Also says who had included it. -/
def remove (g : Graph) (m : ModuleId) : List ModuleId × Graph :=
  let removed := g.node m
  let g := g.update m fun _ => {}
  let g := removed.included.foldl (fun g inc => g.update inc (Node.dropDependent m)) g
  let g := removed.dependents.foldl (fun g dep => g.update dep (Node.dropIncluded m)) g
  (removed.dependents, { g with free := m :: g.free }.bump)

end Graph

end Mixin
