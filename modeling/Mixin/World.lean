import Mixin.Program

/-! An image together with the code installed in it and the host's own state. A library operation
runs up to the next body it has to invoke and says how it goes on with the reply; between two such
points nothing but the operation itself touches the world. -/

namespace Mixin

/-- The bodies, hooks and observers installed so far, in the order in which they were made. -/
structure Code (ω : Type) where
  bodies : Array (Call → Program ω) := #[]
  hooks : Array (Value → Program ω) := #[]
  observers : Array (Symbol → Value → Program ω) := #[]

structure World (ω : Type) where
  image : Image
  code : Code ω := {}
  host : ω

/-- A piece of code that is about to run. -/
inductive Invocation where
  | method (m : Method) (call : Call)
  | hook (h : HookId) (v : Value)
  | observer (o : ObserverId) (name : Symbol) (v : Value)

/-- An operation that has finished, or that waits for the reply to an invocation. -/
inductive Run (ω α : Type) where
  | finished (a : α) (w : World ω)
  | calling (i : Invocation) (w : World ω) (resume : Reply → World ω → Run ω α)

namespace Run

variable {ω α β γ : Type}

def bind : Run ω α → (α → World ω → Run ω β) → Run ω β
  | finished a w, f => f a w
  | calling i w resume, f => calling i w fun r w => (resume r w).bind f

theorem bind_finished (x : Run ω α) : x.bind .finished = x := by
  induction x with
  | finished a w => rfl
  | calling i w resume ih => simp only [bind, ih]

theorem bind_assoc (x : Run ω α) (f : α → World ω → Run ω β) (h : β → World ω → Run ω γ) :
    (x.bind f).bind h = x.bind fun a w => (f a w).bind h := by
  induction x with
  | finished a w => rfl
  | calling i w resume ih => simp only [bind, ih]

end Run

def Effect (ω α : Type) : Type := World ω → Run ω α

namespace Effect

variable {ω α β : Type}

instance : Monad (Effect ω) where
  pure a := .finished a
  bind x f w := (x w).bind f

instance : LawfulMonad (Effect ω) :=
  .mk' (Effect ω) (fun x => funext fun w => Run.bind_finished (x w)) (fun _ _ => rfl)
    (fun x f h => funext fun w => Run.bind_assoc (x w) (fun a => f a) (fun b => h b))

def read (f : Image → α) : Effect ω α := fun w => .finished (f w.image) w

/-- Changes the image and answers something about it. -/
def edit (f : Image → α × Image) : Effect ω α := fun w =>
  let (a, image) := f w.image
  .finished a { w with image }

def change (f : Image → Image) : Effect ω Unit := fun w =>
  .finished () { w with image := f w.image }

/-- Stops until there is a reply to an invocation. -/
def invoke (i : Invocation) : Effect ω Reply := fun w => .calling i w .finished

/-- Goes on with what an effect answers, unless that is a fault. -/
def attempt (x : Effect ω (Except Fault α)) (f : α → Effect ω (Except Fault β)) :
    Effect ω (Except Fault β) := do
  match ← x with
  | .ok a => f a
  | .error e => pure (.error e)

end Effect

namespace World

variable {ω : Type}

/-- A method with a new body, numbered by the bodies before it. -/
def makeMethod (w : World ω) (callsNext : Bool) (body : Call → Program ω) : Method × World ω :=
  (.program w.code.bodies.size callsNext,
    { w with code := { w.code with bodies := w.code.bodies.push body } })

def addHook (w : World ω) (m : ModuleId) (hook : Value → Program ω)
    (place : HookId → Hooks → Hooks) : World ω :=
  let id : HookId := ⟨w.code.hooks.size⟩
  { w with
    code := { w.code with hooks := w.code.hooks.push hook }
    image := w.image.setHooks m (place id) }

/-- The new observer is told first. -/
def addObserver (w : World ω) (observer : Symbol → Value → Program ω) : World ω :=
  let id : ObserverId := ⟨w.code.observers.size⟩
  { w with
    code := { w.code with observers := w.code.observers.push observer }
    image := { w.image with observers := id :: w.image.observers } }

end World

end Mixin
