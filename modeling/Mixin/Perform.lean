import Mixin.Compose

/-! How operations and native methods act on a world, and what an invocation runs. -/

namespace Mixin

namespace Op

variable {ω : Type}

open Effect in
def act : (op : Op) → Effect ω op.Answer
  | intern text => edit (·.intern text)
  | defineModule name => edit (·.defineModule name)
  | define owner name m => change (·.define owner name m true)
  | defineUnique owner name m => Effect.defineUnique owner name m
  | mixIn owner source options => Effect.mixIn owner source options
  | extend r source => Effect.extend r source
  | eigenclass r => edit (·.eigenclass r)
  | resolve m => change (·.resolve m)
  | defineClass name superclass => edit (·.defineClass name superclass)
  | defineInstanceMethod c name m => change (·.defineInstanceMethod c name m)
  | defineClassMethod c name m => change (·.defineClassMethod c name m)
  | instantiate c args => Effect.instantiate c args
  | release o => change (·.release o)
  | setField o name v => change (·.setField o name v)
  | send r name args => Effect.send r name args
  | describe r => Effect.describe r
  | next call args => Effect.next call args
  | bind r name => bindMethod r name
  | callBound b args => Effect.callBound b args

end Op

namespace Native

variable {ω : Type}

open Effect in
/-- The methods of the kernel. The default `method_missing` always fails, naming the message and the
receiver. -/
def act (call : Call) : Native → Effect ω Reply
  | methodMissing => do
    match call.arg 0 with
    | .str name =>
      let who ← describe call.receiver
      pure (.error (.undefinedMethod name who))
    | v => pure (.error (.wrongType "str" v))
  | inspect => do pure (.ok (.str (← Effect.read (·.defaultInspect call.receiver))))
  | respondTo => do
    match call.args with
    | [.str text] =>
      let name ← edit (·.intern text)
      pure (.ok (.bool (← Effect.read (·.respondsTo call.receiver name))))
    | [v] => pure (.error (.wrongType "str" v))
    | args => pure (.error (.arityMismatch "respond_to" 1 args.length))
  | isA => do
    match call.args with
    | [v] =>
      match v.ancestor? with
      | some a => pure (.ok (.bool (← Effect.read (·.isA call.receiver a))))
      | none => pure (.error (.wrongType "module or class" v))
    | args => pure (.error (.arityMismatch "is_a" 1 args.length))

end Native

namespace Invocation

variable {ω : Type}

/-- The program that an invocation leads to. Native methods and stubs act at once and then reply;
code that was never installed replies with nothing. -/
def start : Invocation → Effect ω (Program ω)
  | method m call =>
    match m.body with
    | .native n => .reply <$> n.act call
    | .stub name => .reply <$> Effect.reportMissing call.receiver name call.args
    | .program index => fun w =>
      .finished ((w.code.bodies[index]?.map fun body => body call).getD (.reply (.ok .void))) w
  | hook h v => fun w =>
    .finished ((w.code.hooks[h.index]?.map fun hook => hook v).getD (.reply (.ok .void))) w
  | observer o name v => fun w =>
    .finished ((w.code.observers[o.index]?.map fun observer => observer name v).getD
      (.reply (.ok .void))) w

end Invocation

end Mixin
