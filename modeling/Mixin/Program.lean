import Mixin.Call
import Mixin.Source
import Mixin.Image.Receivers

/-! What a method body, hook or observer can do: look at the image, ask for one of the public
operations, install further bodies, and keep data of its own in the host's state. A program is the
tree of these requests, each with what follows every answer. -/

namespace Mixin

/-- The public operations that change the image or run bodies. -/
inductive Op where
  | intern (text : String)
  | defineModule (name : String)
  | define (owner : ModuleId) (name : Symbol) (m : Method)
  /-- Refuses to replace a method in the owner's own table. -/
  | defineUnique (owner : ModuleId) (name : Symbol) (m : Method)
  | mixIn (owner : ModuleId) (source : Source) (options : MixOptions)
  | extend (r : Receiver) (source : Source)
  | eigenclass (r : Receiver)
  | resolve (m : ModuleId)
  | defineClass (name : String) (superclass : Option ClassId)
  | defineInstanceMethod (c : ClassId) (name : String) (m : Method)
  | defineClassMethod (c : ClassId) (name : String) (m : Method)
  | instantiate (c : ClassId) (args : List Value)
  | release (o : ObjectId)
  | setField (o : ObjectId) (name : String) (v : Value)
  | send (r : Receiver) (name : Symbol) (args : List Value)
  | describe (r : Receiver)
  /-- Runs the implementation below the frame's. -/
  | next (call : Call) (args : List Value)
  /-- Captures the implementation of a name together with the receiver. -/
  | bind (r : Receiver) (name : Symbol)
  | callBound (b : BoundMethod) (args : List Value)

namespace Op

def Answer : Op → Type
  | intern _ => Symbol
  | defineModule _ | eigenclass _ => ModuleId
  | defineClass _ _ => ClassId
  | defineUnique _ _ _ => Except Fault Unit
  | mixIn _ _ _ => Except Fault ModuleId
  | extend _ _ => Except Fault Receiver
  | instantiate _ _ => Except Fault ObjectId
  | send _ _ _ | next _ _ | callBound _ _ => Reply
  | describe _ => String
  | bind _ _ => Except Fault BoundMethod
  | define _ _ _ | resolve _ | defineInstanceMethod _ _ _ | defineClassMethod _ _ _ | release _
  | setField _ _ _ => Unit

end Op

/-- Programs of a host that keeps data of type `ω`. -/
inductive Program (ω : Type) : Type where
  | reply (r : Reply)
  | read (next : Image → Program ω)
  | load (next : ω → Program ω)
  | alter (f : ω → ω) (next : Program ω)
  | perform (op : Op) (next : op.Answer → Program ω)
  /-- Makes a method with a new body. -/
  | makeMethod (callsNext : Bool) (body : Call → Program ω) (next : Method → Program ω)
  /-- The hook is run with whatever includes the module from now on. -/
  | onIncluded (m : ModuleId) (hook : Value → Program ω) (next : Program ω)
  /-- The hook is run with whatever is extended with the module from now on. -/
  | onExtended (m : ModuleId) (hook : Value → Program ω) (next : Program ω)
  /-- The observer is run for every method that is added with someone to tell about it. -/
  | onMethodAdded (observer : Symbol → Value → Program ω) (next : Program ω)

end Mixin
