import Mixin.Perform

/-! The machine that runs programs, one request at a time. Every moment at which a program asks for
an operation, and every moment at which a body, hook or observer is about to run, is a state of the
machine. -/

namespace Mixin

/-- An operation that waits for the reply to what it invoked. -/
structure Pending (ω : Type) where
  op : Option Op
  invocation : Invocation
  resume : Reply → World ω → Run ω (Program ω)

structure Machine (ω : Type) where
  /-- What is going on: an operation about to invoke something, or a program about to run. -/
  current : Run ω (Program ω)
  /-- The operation asked for last, while `current` is still carrying it out. -/
  op : Option Op := none
  /-- The operations that wait, innermost first. -/
  waiting : List (Pending ω) := []

namespace Machine

variable {ω : Type}

def start (p : Program ω) (w : World ω) : Machine ω := { current := .finished p w }

def world (m : Machine ω) : World ω :=
  match m.current with
  | .finished _ w => w
  | .calling _ w _ => w

def proceed (m : Machine ω) (p : Program ω) (w : World ω) : Machine ω :=
  { m with current := .finished p w, op := none }

/-- One step, or the reply when nothing waits for it any more. -/
def step (m : Machine ω) : (Reply × World ω) ⊕ Machine ω :=
  match m.current with
  | .calling i w resume =>
    .inr { current := i.start w, waiting := { op := m.op, invocation := i, resume } :: m.waiting }
  | .finished (.reply r) w =>
    match m.waiting with
    | p :: waiting => .inr { current := p.resume r w, op := p.op, waiting }
    | [] => .inl (r, w)
  | .finished (.read next) w => .inr (m.proceed (next w.image) w)
  | .finished (.load next) w => .inr (m.proceed (next w.host) w)
  | .finished (.alter f next) w => .inr (m.proceed next { w with host := f w.host })
  | .finished (.perform op next) w => .inr { m with current := (next <$> op.act) w, op := some op }
  | .finished (.makeMethod callsNext body next) w =>
    let (made, w) := w.makeMethod callsNext body
    .inr (m.proceed (next made) w)
  | .finished (.onIncluded a hook next) w =>
    .inr (m.proceed next (w.addHook a hook fun h hooks => { hooks with included := some h }))
  | .finished (.onExtended a hook next) w =>
    .inr (m.proceed next (w.addHook a hook fun h hooks => { hooks with extended := some h }))
  | .finished (.onMethodAdded observer next) w => .inr (m.proceed next (w.addObserver observer))

/-- Runs for a number of steps at most. -/
def run : (fuel : Nat) → Machine ω → Option (Reply × World ω)
  | 0, _ => none
  | fuel + 1, m =>
    match m.step with
    | .inl done => some done
    | .inr m => run fuel m

end Machine

end Mixin
