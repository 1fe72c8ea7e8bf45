import Mixin.Image.Define

/-! Eigenclasses hold what one receiver answers to beyond its class. They are made on first use. The
eigenclass of an object includes the module of its class, that of a class the eigenclass of its
superclass, which is then made too, and that of a module the module root. -/

namespace Mixin

namespace Image

def materialize (s : Image) (r : Receiver) (parent : ModuleId) : ModuleId × Image :=
  let (m, graph) := s.graph.alloc { target := some (.singleton r) }
  let s := { s with graph }.updateSingleton r fun d => { d with eigenclass := some m }
  (m, s.link m parent true)

/-- The eigenclass of the first class on a superclass line, made from the far end of the line on. -/
def classEigenclass (s : Image) : List ClassId → ModuleId × Image
  | [] => (.classRoot, s)
  | c :: above =>
    match s.eigenclass? (.class c) with
    | some m => (m, s)
    | none =>
      let (parent, s) := s.classEigenclass above
      s.materialize (.class c) parent

def eigenclass (s : Image) (r : Receiver) : ModuleId × Image :=
  match r, s.eigenclass? r with
  | .class c, _ => s.classEigenclass (s.lineOf c)
  | _, some m => (m, s)
  | .object o, none => s.materialize r (s.instanceModule (s.classOf o))
  | .module _, none => s.materialize r .moduleRoot

end Image

end Mixin
