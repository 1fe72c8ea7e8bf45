import Mixin.Graph.Ancestry
import Mixin.Graph.Reach
import Mixin.Fault
import Mixin.Slot

/-! The image: every class, object and module there is, with everything resolved from the module
graph. Four modules stand at fixed places from the start: the gate, the kernel that every receiver
descends from, and the roots that module and class receivers descend from. -/

namespace Mixin

namespace ModuleId

def gate : ModuleId := ⟨0⟩
def kernel : ModuleId := ⟨1⟩
def moduleRoot : ModuleId := ⟨2⟩
def classRoot : ModuleId := ⟨3⟩

end ModuleId

structure ObserverId where
  index : Nat
deriving DecidableEq

/-- The chain of a name as it was at one generation of the graph. -/
structure CachedChain where
  generation : UInt64
  callees : List Method

/-- What belongs to one receiver alone. The slots are in use once there is an eigenclass. -/
structure Singleton where
  eigenclass : Option ModuleId := none
  slots : SlotTable := ∅
  chains : Std.ExtTreeMap Symbol CachedChain := ∅

instance : Inhabited Singleton := ⟨{}⟩

structure ClassData where
  name : Symbol
  /-- The module that holds the methods of the instances. -/
  instanceModule : ModuleId
  superclass : Option ClassId
  prototype : SlotTable := ∅
  side : Singleton := {}

instance : Inhabited ClassData := ⟨{ name := .empty, instanceModule := .gate, superclass := none }⟩

structure ObjectData where
  classId : ClassId
  fields : Std.ExtTreeMap Symbol Value := ∅
  singleton : Singleton := {}
  released : Bool := false

instance : Inhabited ObjectData := ⟨{ classId := default }⟩

/-- The names that are routed to `method_missing` while nobody defines them, and the names that
never are. -/
structure Gate where
  watched : List Symbol := []
  reserved : List Symbol := []

structure Image where
  symbols : SymbolTable := .base
  graph : Graph := {}
  classes : Array ClassData := #[]
  objects : Array ObjectData := #[]
  /-- The places of released objects, last released first. -/
  freeObjects : List ObjectId := []
  gate : Gate := {}
  moduleBase : SlotTable := ∅
  classBase : SlotTable := ∅
  moduleSides : Std.ExtTreeMap ModuleId Singleton := ∅
  /-- Who is told about added methods, newest first. -/
  observers : List ObserverId := []
  /-- The receivers whose own `inspect` is being asked for. -/
  describing : List Receiver := []

namespace Image

def intern (s : Image) (text : String) : Symbol × Image :=
  let (a, symbols) := s.symbols.intern text
  (a, { s with symbols })

def text (s : Image) (a : Symbol) : String := s.symbols.text a

def classData (s : Image) (c : ClassId) : ClassData := s.classes[c.index]?.getD default

def objectData (s : Image) (o : ObjectId) : ObjectData := s.objects[o.index]?.getD default

def updateClass (s : Image) (c : ClassId) (f : ClassData → ClassData) : Image :=
  { s with classes := s.classes.modify c.index f }

def updateObject (s : Image) (o : ObjectId) (f : ObjectData → ObjectData) : Image :=
  { s with objects := s.objects.modify o.index f }

def instanceModule (s : Image) (c : ClassId) : ModuleId := (s.classData c).instanceModule

def superclass (s : Image) (c : ClassId) : Option ClassId := (s.classData c).superclass

def className (s : Image) (c : ClassId) : String := s.text (s.classData c).name

def classOf (s : Image) (o : ObjectId) : ClassId := (s.objectData o).classId

def moduleOf (s : Image) : Ancestor → ModuleId
  | .class c => s.instanceModule c
  | .module m => m

def singleton (s : Image) : Receiver → Singleton
  | .object o => (s.objectData o).singleton
  | .class c => (s.classData c).side
  | .module m => s.moduleSides[m]?.getD {}

def updateSingleton (s : Image) (r : Receiver) (f : Singleton → Singleton) : Image :=
  match r with
  | .object o => s.updateObject o fun d => { d with singleton := f d.singleton }
  | .class c => s.updateClass c fun d => { d with side := f d.side }
  | .module m => { s with moduleSides := s.moduleSides.insert m (f (s.singleton (.module m))) }

def eigenclass? (s : Image) (r : Receiver) : Option ModuleId := (s.singleton r).eigenclass

/-- A class followed by its superclasses. The line ends, for no class is older than its
superclass. -/
def superclassLine (s : Image) : (budget : Nat) → ClassId → List ClassId
  | 0, _ => []
  | budget + 1, c =>
    c :: match s.superclass c with
      | some above => s.superclassLine budget above
      | none => []

def lineOf (s : Image) (c : ClassId) : List ClassId := s.superclassLine s.classes.size c

/-- The nearest class on the superclass line with an eigenclass of its own. -/
def sideOwner? (s : Image) (c : ClassId) : Option ClassId :=
  (s.lineOf c).find? fun c => (s.eigenclass? (.class c)).isSome

/-- The receiver whose behaviour a module resolves, the module itself when it backs nothing. -/
def backed (s : Image) (m : ModuleId) : Receiver :=
  match (s.graph.node m).target with
  | some (.prototype c) => .class c
  | some (.singleton r) => r
  | some .classBase | some .moduleBase | none => .module m

def table (s : Image) : Target → SlotTable
  | .prototype c => (s.classData c).prototype
  | .singleton r => (s.singleton r).slots
  | .classBase => s.classBase
  | .moduleBase => s.moduleBase

def setTable (s : Image) (t : Target) (slots : SlotTable) : Image :=
  match t with
  | .prototype c => s.updateClass c fun d => { d with prototype := slots }
  | .singleton r => s.updateSingleton r fun d => { d with slots }
  | .classBase => { s with classBase := slots }
  | .moduleBase => { s with moduleBase := slots }

end Image

end Mixin
