import Mixin.Image.Objects
import Mixin.Image.Receivers

/-! How an image comes to be: the gate, the kernel with its native methods, and the two roots. -/

namespace Mixin

/-- What may be chosen before an image is made. -/
structure Setup where
  /-- Texts interned beforehand. -/
  interned : List String := []
  /-- Names watched from the start. -/
  watched : List String := []
  /-- Names never watched, besides `method_missing` and `initialize`. -/
  reserved : List String := []

namespace Setup

def watch (u : Setup) (name : String) : Setup := { u with watched := u.watched ++ [name] }

def reserve (u : Setup) (name : String) : Setup := { u with reserved := u.reserved ++ [name] }

def configure (u : Setup) (watched reserved : List String) : Setup := { u with watched, reserved }

/-- Starts from a table that a host has used before. -/
def share (u : Setup) (interned : List String) : Setup := { u with interned }

end Setup

namespace Native

def all : List (Symbol × Native) :=
  [(.methodMissing, .methodMissing), (.inspect, .inspect), (.respondTo, .respondTo), (.isA, .isA)]

end Native

namespace Graph

/-- The gate below the kernel, the kernel below the module root, the module root below the class
root. -/
def seed (kernelName moduleName className : Symbol) : Graph :=
  let g : Graph := {}
  let g := (g.alloc { hidden := true }).2
  let g := (g.alloc { name := some kernelName }).2.addEdge .kernel .gate
  let g := (g.alloc { name := some moduleName, target := some .moduleBase }).2.addEdge
    .moduleRoot .kernel
  let g := (g.alloc { name := some className, target := some .classBase }).2.addEdge
    .classRoot .moduleRoot
  Native.all.foldl (fun g (name, native) => g.setMethod .kernel name (.native native)) g

end Graph

namespace Setup

def boot (u : Setup) : Image :=
  let (_, symbols) := SymbolTable.base.internAll u.interned
  let (kernelName, symbols) := symbols.intern "Kernel"
  let (moduleName, symbols) := symbols.intern "Module"
  let (className, symbols) := symbols.intern "Class"
  let (reserved, symbols) := symbols.internAll u.reserved
  let (watched, symbols) := symbols.internAll u.watched
  let s : Image :=
    { symbols
      graph := .seed kernelName moduleName className
      gate := { reserved := reserved ++ [.methodMissing, .initializer] } }
  (watched.foldl Image.watch s).resolve .gate

end Setup

end Mixin
