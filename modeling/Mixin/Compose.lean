import Mixin.Dispatch
import Mixin.Image.Objects

/-! Inclusion and extension. A module becomes an edge and its hook is told; a record is flattened
into the module it is included into, down through the records it nests. -/

namespace Mixin

inductive Place where
  | into (owner : ModuleId) (options : MixOptions)
  | onto (r : Receiver)

namespace Place

def hook : Place → Hooks → Option HookId
  | into _ _, hooks => hooks.included
  | onto _, hooks => hooks.extended

end Place

namespace Image

/-- The module that takes a source in at a place. What is put onto a receiver goes into its
eigenclass, at once, and in the receiver's name. -/
def taker (s : Image) : Place → (ModuleId × MixOptions) × Image
  | .into owner options => ((owner, options), s)
  | .onto r =>
    let (m, s) := s.eigenclass r
    ((m, { notifyAs := some r.value }), s)

/-- What a hook is told about. -/
def partner (s : Image) : Place → Value
  | .into owner _ => (s.backed owner).value
  | .onto r => r.value

end Image

namespace Effect

variable {ω : Type}

/-- Tells the observers there are now, newest first, of a method that was added. -/
def notifyAdded (name : Symbol) (v : Value) : List ObserverId → Effect ω Unit
  | [] => pure ()
  | o :: rest => do
    let _ ← invoke (.observer o name v)
    notifyAdded name v rest

def defineAll (owner : ModuleId) (notify : Value) (resolving : Bool) :
    List (String × Method) → Effect ω Unit
  | [] => pure ()
  | (key, m) :: rest => do
    let name ← edit (·.intern key)
    change (·.define owner name m resolving)
    notifyAdded name notify (← read (·.observers))
    defineAll owner notify resolving rest

def runHook (h : Option HookId) (v : Value) : Effect ω Unit := do
  if let some h := h then
    let _ ← invoke (.hook h v)

mutual

/-- A fault of a nested source is handed on. -/
def put : Source → Place → Effect ω (Except Fault Unit)
  | .module other, place => do
    let (owner, options) ← edit (·.taker place)
    change (·.link owner other options.resolving)
    let hook ← read fun s => place.hook (s.graph.node other).hooks
    runHook hook (← read (·.partner place))
    pure (.ok ())
  | .record methods mixins extensions, place => do
    let (owner, options) ← edit (·.taker place)
    attempt (putAll mixins (.into owner options)) fun () => do
      let r ← read (·.backed owner)
      attempt (putAll extensions (.onto r)) fun () => do
        let notify ← read fun s => options.notifyAs.getD (s.backed owner).value
        defineAll owner notify options.resolving methods
        pure (.ok ())

def putAll : List Source → Place → Effect ω (Except Fault Unit)
  | [], _ => pure (.ok ())
  | source :: rest, place => attempt (put source place) fun () => putAll rest place

end

/-- Includes a source into a module, and answers the module. -/
def mixIn (owner : ModuleId) (source : Source) (options : MixOptions) :
    Effect ω (Except Fault ModuleId) :=
  attempt (put source (.into owner options)) fun () => pure (.ok owner)

/-- Adds a source to what one receiver alone answers to, and answers the receiver. -/
def extend (r : Receiver) (source : Source) : Effect ω (Except Fault Receiver) :=
  attempt (put source (.onto r)) fun () => pure (.ok r)

/-- A new instance, initialized if its class says how. A failing initializer leaves the instance in
place. -/
def instantiate (c : ClassId) (args : List Value) : Effect ω (Except Fault ObjectId) := do
  let o ← edit (·.allocate c)
  if ← read (·.respondsTo (.object o) .initializer) then
    attempt (send (.object o) .initializer args) fun _ => pure (.ok o)
  else pure (.ok o)

def defineUnique (owner : ModuleId) (name : Symbol) (m : Method) : Effect ω (Except Fault Unit) := do
  if ← read fun s => (s.graph.node owner).methods.contains name then
    pure (.error (.duplicateDefinition (← read (·.text name))))
  else
    change (·.define owner name m true)
    pure (.ok ())

end Effect

end Mixin
