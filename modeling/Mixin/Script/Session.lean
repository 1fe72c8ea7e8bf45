import Mixin.World
import Mixin.Machine
import Mixin.Image.Boot

/-! What a script keeps beside the image: its handles, the labels of the methods it made, and the
log. A routine is a piece of a program that comes to a value or fails, to be followed by whatever uses
it. -/

namespace Mixin.Script

structure Session where
  values : Std.ExtTreeMap String Value := ∅
  methods : Std.ExtTreeMap String Method := ∅
  bounds : Std.ExtTreeMap String BoundMethod := ∅
  /-- The labels of the methods made so far, in the order of their bodies. -/
  labels : Array String := #[]
  /-- What was logged since the last command began, last first. -/
  log : List Value := []
  /-- How many expressions have been evaluated. -/
  spent : Nat := 0

namespace Session

def initial : Session where
  values := .ofList
    [("$Gate", Value.module .gate), ("$Kernel", Value.module .kernel),
      ("$Module", Value.module .moduleRoot), ("$Class", Value.module .classRoot)]

/-- A script that has evaluated this many expressions fails from then on. -/
def expressionLimit : Nat := 200000

def note (s : Session) (v : Value) : Session := { s with log := v :: s.log }

def label (s : Session) (m : Method) : String :=
  match m.body with
  | .program index => s.labels[index]?.getD "native"
  | .native _ | .stub _ => "native"

/-- A method as a value: its label, whether it calls the next one, and where it comes from. -/
def showMethod (s : Session) (m : Method) : Value :=
  .list [.str (s.label m), .bool m.callsNext, .str (if m.isStub then "gate" else "defined")]

end Session

def Routine (α : Type) : Type := (Except Fault α → Program Session) → Program Session

namespace Routine

instance : Monad Routine where
  pure a k := k (.ok a)
  bind t f k := t fun
    | .ok a => f a k
    | .error e => k (.error e)

instance : MonadExcept Fault Routine where
  throw e k := k (.error e)
  tryCatch t handle k := t fun
    | .ok a => k (.ok a)
    | .error e => handle e k

variable {α : Type}

def look (f : Image → α) : Routine α := fun k => .read fun s => k (.ok (f s))

def load (f : Session → α) : Routine α := fun k => .load fun s => k (.ok (f s))

def alter (f : Session → Session) : Routine Unit := fun k => .alter f (k (.ok ()))

def perform (op : Op) : Routine op.Answer := fun k => .perform op fun a => k (.ok a)

def intern (text : String) : Routine Symbol := perform (.intern text)

def lift (r : Except Fault α) : Routine α := fun k => k r

def body (t : Routine Value) : Program Session := t .reply

/-- A routine as a hook or observer: nobody takes its reply, so a fault goes to the log. -/
def hook (t : Routine Value) : Program Session :=
  t fun
    | .ok v => .reply (.ok v)
    | .error e => .alter (·.note (.str ("hook error: " ++ e.message))) (.reply (.error e))

def badInput (detail : String) : Routine α := throw (.custom ("bad input: " ++ detail))

def spend : Routine Unit := do
  if (← load (·.spent)) < Session.expressionLimit then
    alter fun s => { s with spent := s.spent + 1 }
  else throw (.custom "step limit")

def handle (h : String) : Routine Value := do
  match ← load (·.values[h]?) with
  | some v => pure v
  | none => badInput ("unknown handle " ++ h)

def methodHandle (h : String) : Routine Method := do
  match ← load (·.methods[h]?) with
  | some m => pure m
  | none => badInput ("unknown method " ++ h)

def asReceiver (v : Value) : Routine Receiver :=
  match v.receiver? with
  | some r => pure r
  | none => badInput ("not a receiver: " ++ v.typeName)

/-- Where a module is wanted, a class stands for the module of its instances. -/
def asModule : Value → Routine ModuleId
  | .module m => pure m
  | .class c => look (·.instanceModule c)
  | v => badInput ("not a module: " ++ v.typeName)

def asClass : Value → Routine ClassId
  | .class c => pure c
  | v => badInput ("not a class: " ++ v.typeName)

def asObject : Value → Routine ObjectId
  | .object o => pure o
  | v => badInput ("not an object: " ++ v.typeName)

def asAncestor (v : Value) : Routine Ancestor :=
  match v.ancestor? with
  | some a => pure a
  | none => badInput ("not an ancestor: " ++ v.typeName)

def name (h : String) (v : Value) : Routine Unit :=
  if v.receiver?.isSome then alter fun s => { s with values := s.values.insert h v } else pure ()

def showMethods (ms : List Method) : Routine Value := do
  pure (.list (ms.map (← load Session.showMethod)))

def showMethod? : Option Method → Routine Value
  | some m => load (·.showMethod m)
  | none => pure .void

def keep (h : String) (m : Option Method) : Routine Unit :=
  match m with
  | some m => alter fun s => { s with methods := s.methods.insert h m }
  | none => pure ()

/-- Does a routine a number of times; the last value counts. -/
def times (t : Routine Value) : (count : Nat) → (last : Value) → Routine Value
  | 0, last => pure last
  | count + 1, _ => do times t count (← t)

end Routine

/-- What surrounds an expression: the arguments, and the frame if it is a method body. -/
structure Scope where
  args : List Value := []
  call : Option Call := none

namespace Scope

def self (sc : Scope) : Value :=
  match sc.call with
  | some call => call.receiver.value
  | none => .void

def ofCall (call : Call) : Scope := { args := call.args, call := some call }

def selfObject (sc : Scope) : Routine ObjectId :=
  match sc.call with
  | some { receiver := .object o, .. } => pure o
  | _ => Routine.badInput "self is not an object"

end Scope

end Mixin.Script
