import Mixin.Image.Eigenclass

/-! Classes and their instances. An instance is a class, some fields and what is its own; once it is
released its place goes to the next instance made. -/

namespace Mixin

namespace Image

/-- A class without a superclass descends from the kernel. -/
def defineClass (s : Image) (name : String) (superclass : Option ClassId) : ClassId × Image :=
  let c : ClassId := ⟨s.classes.size⟩
  let (a, s) := s.intern name
  let (m, graph) := s.graph.alloc { name := some a, target := some (.prototype c) }
  let classes := s.classes.push { name := a, instanceModule := m, superclass }
  let s := { s with graph, classes }
  let parent := match superclass with
    | some above => s.instanceModule above
    | none => .kernel
  (c, s.link m parent true)

def defineInstanceMethod (s : Image) (c : ClassId) (name : String) (m : Method) : Image :=
  let (a, s) := s.intern name
  s.define (s.instanceModule c) a m true

/-- Class methods live in the eigenclass of the class, which is made if need be. -/
def defineClassMethod (s : Image) (c : ClassId) (name : String) (m : Method) : Image :=
  let (a, s) := s.intern name
  let (owner, s) := s.eigenclass (.class c)
  s.define owner a m true

/-- A new instance, not initialized yet. -/
def allocate (s : Image) (c : ClassId) : ObjectId × Image :=
  match s.freeObjects with
  | o :: rest =>
    (o, { s.updateObject o fun _ => { classId := c } with freeObjects := rest })
  | [] => (⟨s.objects.size⟩, { s with objects := s.objects.push { classId := c } })

/-- Drops what an instance holds and unlinks its eigenclass; modules that had included the
eigenclass are resolved again. Releasing twice is releasing once. -/
def release (s : Image) (o : ObjectId) : Image :=
  let d := s.objectData o
  if d.released then s
  else
    let s := s.updateObject o fun d => { classId := d.classId, released := true }
    let s := match d.singleton.eigenclass with
      | some m =>
        let (dependents, graph) := s.graph.remove m
        dependents.foldl resolve { s with graph }
      | none => s
    { s with freeObjects := o :: s.freeObjects }

/-- A field nobody has set is void. Reading does not intern the name. -/
def field (s : Image) (o : ObjectId) (name : String) : Value :=
  match s.symbols.find? name with
  | some a => (s.objectData o).fields[a]?.getD .void
  | none => .void

def setField (s : Image) (o : ObjectId) (name : String) (v : Value) : Image :=
  let (a, s) := s.intern name
  s.updateObject o fun d => { d with fields := d.fields.insert a v }

end Image

end Mixin
