import Mixin.World

/-! Sends, super calls and messages that nobody understands. A send reads the receiver's slot; if
there is none the name is watched, so that the gate supplies one; if there is still none the message
goes to the receiver's `method_missing`. -/

namespace Mixin

namespace Image

/-- Watches a name that the receiver has no slot for. -/
def prepare (s : Image) (r : Receiver) (name : Symbol) : Image :=
  if (s.slot? r name).isSome then s else s.watchNow name

/-- The slot for messages that nobody understands. -/
def missingSlot (s : Image) (r : Receiver) : Slot :=
  (s.slot? r .methodMissing).getD (.direct .defaultHandler)

def beginDescribing (s : Image) (r : Receiver) : Bool × Image :=
  if r ∈ s.describing then (false, s) else (true, { s with describing := r :: s.describing })

def endDescribing (s : Image) (r : Receiver) : Image :=
  { s with describing := s.describing.erase r }

end Image

namespace Effect

variable {ω : Type}

/-- Runs the method of a slot. A chained slot is entered at the top of the receiver's chain. -/
def enter (r : Receiver) (name : Symbol) (slot : Slot) (args : List Value) : Effect ω Reply := do
  match slot with
  | .direct m => invoke (.method m { receiver := r, name, args })
  | .chained m =>
    let callees ← edit (·.chainFor r name)
    invoke (.method m { receiver := r, name, args, cursor := some (.top callees) })

/-- Hands a message over to the receiver's `method_missing`. -/
def reportMissing (r : Receiver) (name : Symbol) (args : List Value) : Effect ω Reply := do
  let text ← read (·.text name)
  let slot ← read (·.missingSlot r)
  enter r .methodMissing slot [.str text, .list args]

def send (r : Receiver) (name : Symbol) (args : List Value) : Effect ω Reply := do
  change (·.prepare r name)
  match ← read (·.slot? r name) with
  | some slot => enter r name slot args
  | none => reportMissing r name args

/-- What the receiver's `inspect` says, or its built-in form if that fails, is no text, or is being
asked for already. -/
def describe (r : Receiver) : Effect ω String := do
  if ← edit (·.beginDescribing r) then
    let reply ← send r .inspect []
    change (·.endDescribing r)
    match reply with
    | .ok (.str text) => pure text
    | _ => read (·.defaultInspect r)
  else read (·.defaultInspect r)

/-- A super call below the lowest implementation. -/
def exhausted (r : Receiver) (name : Symbol) (args : List Value) : Effect ω Reply := do
  if ← read (·.hasOwnHandler r) then reportMissing r name args
  else
    let text ← read (·.text name)
    let who ← describe r
    pure (.error (.noSuperMethod text who))

/-- Runs the implementation below the frame's. A frame without a cursor counts as the most specific
implementation of its name. -/
def next (call : Call) (overrides : List Value) : Effect ω Reply := do
  let cursor ← match call.cursor with
    | some cursor => pure cursor
    | none => Cursor.top <$> edit (·.chainFor call.receiver call.name)
  let args := call.overlay overrides
  match cursor.below? with
  | some (m, cursor) => invoke (.method m { call with args, cursor := some cursor })
  | none => exhausted call.receiver call.name args

/-- The implementation of a name bound to its receiver, if there is a real one. -/
def bindMethod (r : Receiver) (name : Symbol) : Effect ω (Except Fault BoundMethod) := do
  match ← read (·.definedSlot? r name) with
  | some slot => pure (.ok { receiver := r, name, slot })
  | none =>
    let text ← read (·.text name)
    let who ← describe r
    pure (.error (.undefinedMethod text who))

def callBound (b : BoundMethod) (args : List Value) : Effect ω Reply :=
  enter b.receiver b.name b.slot args

end Effect

end Mixin
