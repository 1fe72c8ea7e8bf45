import Mixin.Image.Eigenclass

/-! What receivers answer to, and through which ancestry. A receiver without an eigenclass shares the
table of its class, of the nearest class on its superclass line that has one, or of the roots. -/

namespace Mixin

/-- An implementation captured together with its receiver. -/
structure BoundMethod where
  receiver : Receiver
  name : Symbol
  slot : Slot
deriving DecidableEq

namespace Image

def slotTable (s : Image) : Receiver → SlotTable
  | .object o =>
    let d := s.objectData o
    if d.singleton.eigenclass.isSome then d.singleton.slots else (s.classData d.classId).prototype
  | .class c =>
    match s.sideOwner? c with
    | some owner => (s.classData owner).side.slots
    | none => s.classBase
  | .module m =>
    let d := s.singleton (.module m)
    if d.eigenclass.isSome then d.slots else s.moduleBase

def slot? (s : Image) (r : Receiver) (name : Symbol) : Option Slot := (s.slotTable r)[name]?

/-- The slot of a name if a real definition is behind it. -/
def definedSlot? (s : Image) (r : Receiver) (name : Symbol) : Option Slot :=
  (s.slot? r name).filter Slot.isDefined

def respondsTo (s : Image) (r : Receiver) (name : Symbol) : Bool := (s.definedSlot? r name).isSome

/-- The module whose ancestry a receiver answers through. -/
def effectiveModule (s : Image) : Receiver → ModuleId
  | .object o =>
    let d := s.objectData o
    d.singleton.eigenclass.getD (s.instanceModule d.classId)
  | .class c =>
    ((s.sideOwner? c).bind fun owner => s.eigenclass? (.class owner)).getD .classRoot
  | .module m => (s.eigenclass? (.module m)).getD .moduleRoot

/-- The super-call chain of a name for a receiver, kept until the graph changes. -/
def chainFor (s : Image) (r : Receiver) (name : Symbol) : List Method × Image :=
  let generation := s.graph.generation
  match (s.singleton r).chains[name]?.filter (·.generation = generation) with
  | some cached => (cached.callees, s)
  | none =>
    let callees := s.graph.chain (s.effectiveModule r) name
    (callees, s.updateSingleton r fun d =>
      { d with chains := d.chains.insert name { generation, callees } })

/-- Whether messages nobody understands reach a handler other than the default one. -/
def hasOwnHandler (s : Image) (r : Receiver) : Bool :=
  (s.slot? r .methodMissing).any fun slot => !slot.method.sameBody .defaultHandler

def isA (s : Image) (r : Receiver) (a : Ancestor) : Bool :=
  s.graph.includes (s.effectiveModule r) (s.moduleOf a)

/-- The module of a class stands for the class. -/
def ancestorEntry (s : Image) (m : ModuleId) : Ancestor :=
  match (s.graph.node m).target with
  | some (.prototype c) => .class c
  | _ => .module m

def ancestorEntries (s : Image) (m : ModuleId) : List Ancestor :=
  (s.graph.ancestors m).map s.ancestorEntry

def ancestorsOf (s : Image) (r : Receiver) : List Ancestor :=
  s.ancestorEntries (s.effectiveModule r)

def moduleLabel (s : Image) (m : ModuleId) : String :=
  match (s.graph.node m).name with
  | some a => s.text a
  | none => "#<Module " ++ toString m.index ++ ">"

/-- How a receiver is shown when its own `inspect` is of no use. -/
def defaultInspect (s : Image) : Receiver → String
  | .object o => "#<" ++ s.className (s.classOf o) ++ ">"
  | .class c => s.className c
  | .module m => s.moduleLabel m

end Image

end Mixin
