import Mixin.Perform
import Mixin.Proofs.Image.Eigenclass

/-! What an operation relies on and what it does to the image. Callers name receivers and modules
that are there, and may keep to further manners. Between two invocations an operation makes safe
edits; what other code does meanwhile must spare the objects that the operation works on. -/

namespace Mixin

/-- What callers may bind themselves to. -/
structure Manners where
  /-- No edit is deferred. -/
  prompt : Bool := false
  /-- Nothing is defined in the gate or included into it. -/
  offGate : Bool := false
  /-- No stub is defined. -/
  genuine : Bool := false

/-- Callers leave the gate alone and define no stubs; they may defer edits. -/
def Manners.fair : Manners := { offGate := true, genuine := true }

namespace Edit

/-- What callers with these manners can bring about. -/
def Allowed (k : Manners) : Edit → Prop
  | define owner _ m resolving =>
    (k.prompt → resolving = true) ∧ (k.offGate → owner ≠ .gate) ∧ (k.genuine → m.isStub = false)
  | link owner _ resolving => (k.prompt → resolving = true) ∧ (k.offGate → owner ≠ .gate)
  | _ => True

/-- What an operation other than a release can do. -/
def Usual (k : Manners) (e : Edit) : Prop := e.Allowed k ∧ e.Lasting

theorem Materializes.usual {k : Manners} {e : Edit} (h : e.Materializes) : e.Usual k := by
  cases e with
  | materialize r p => exact ⟨trivial, trivial⟩
  | _ => exact h.elim

end Edit

namespace Source

mutual

/-- The modules that are put in or onto something, at whatever depth. -/
def modules : Source → List ModuleId
  | .module m => [m]
  | .record _ mixins extensions => modulesAll mixins ++ modulesAll extensions

def modulesAll : List Source → List ModuleId
  | [] => []
  | source :: rest => modules source ++ modulesAll rest

end

mutual

def methods : Source → List Method
  | .module _ => []
  | .record ms mixins extensions => ms.map Prod.snd ++ methodsAll mixins ++ methodsAll extensions

def methodsAll : List Source → List Method
  | [] => []
  | source :: rest => methods source ++ methodsAll rest

end

end Source

namespace Op

/-- The receivers and modules that an operation works on. -/
def subjects : Op → List Receiver
  | intern _ | defineModule _ => []
  | define owner _ _ | defineUnique owner _ _ => [.module owner]
  | mixIn owner source _ => .module owner :: source.modules.map .module
  | extend r source => r :: source.modules.map .module
  | eigenclass r | send r _ _ | describe r | bind r _ => [r]
  | resolve m => [.module m]
  | defineClass _ superclass => superclass.toList.map .class
  | defineInstanceMethod c _ _ | defineClassMethod c _ _ | instantiate c _ => [.class c]
  | release o | setField o _ _ => [.object o]
  | next call _ => [call.receiver]
  | callBound b _ => [b.receiver]

def Allowed (k : Manners) : Op → Prop
  | define owner _ m | defineUnique owner _ m =>
    (k.offGate → owner ≠ .gate) ∧ (k.genuine → m.isStub = false)
  | mixIn owner source options =>
    (k.prompt → options.resolving = true) ∧ (k.offGate → owner ≠ .gate) ∧
      (k.genuine → ∀ m ∈ source.methods, m.isStub = false)
  | extend _ source => k.genuine → ∀ m ∈ source.methods, m.isStub = false
  | defineInstanceMethod _ _ m | defineClassMethod _ _ m => k.genuine → m.isStub = false
  | _ => True

end Op

namespace Invocation

def receivers : Invocation → List Receiver
  | method _ call => [call.receiver]
  | hook _ _ | observer _ _ _ => []

end Invocation

namespace Run

open Image

variable {ω α β : Type} {k : Manners} {held : ObjectId → Prop}

/-- Every stretch of a run makes usual edits, whatever the replies are and whatever else is done to
the image meanwhile, as long as the held objects are there when the run goes on. -/
def Keeps (k : Manners) (held : ObjectId → Prop) (Q : α → Image → Prop) : Image → Run ω α → Prop
  | s, finished a w => Becomes (Edit.Usual k) s w.image ∧ Q a w.image
  | s, calling i w resume =>
    Becomes (Edit.Usual k) s w.image ∧ (∀ r ∈ i.receivers, w.image.Alive r) ∧
      ∀ reply (w' : World ω), w'.image.Sound → Persists held w.image w'.image →
        Keeps k held Q w'.image (resume reply w')

theorem Keeps.after {Q : α → Image → Prop} {s s' : Image} {x : Run ω α}
    (hb : Becomes (Edit.Usual k) s s') (hx : x.Keeps k held Q s') : x.Keeps k held Q s := by
  cases x with
  | finished a w => exact ⟨hb.trans hx.1, hx.2⟩
  | calling i w resume => exact ⟨hb.trans hx.1, hx.2⟩

/-- What happens after a run may rely on all that stays. -/
theorem Keeps.bind {Q : α → Image → Prop} {R : β → Image → Prop} {s s₀ : Image} {x : Run ω α}
    {f : α → World ω → Run ω β} (hs : s.Sound) (hs₀ : Persists held s₀ s)
    (hx : x.Keeps k held Q s)
    (hf : ∀ a (w : World ω), w.image.Sound → Persists held s₀ w.image → Q a w.image →
      (f a w).Keeps k held R w.image) : (x.bind f).Keeps k held R s := by
  induction x generalizing s with
  | finished a w =>
    obtain ⟨hb, hQ⟩ := hx
    have hper := hb.persists held hs fun e he => he.2
    exact .after hb (hf a w (hb.sound hs) (hs₀.trans hper) hQ)
  | calling i w resume ih =>
    obtain ⟨hb, halive, hresume⟩ := hx
    have hper := hb.persists held hs fun e he => he.2
    refine ⟨hb, halive, fun reply w' hs' hper' => ?_⟩
    exact ih reply w' hs' ((hs₀.trans hper).trans hper') (hresume reply w' hs' hper')

end Run

namespace Effect

open Image

variable {ω α β : Type} {k : Manners} {held : ObjectId → Prop} {w : World ω}

/-- From this world on, the operation makes usual edits. -/
def Keeps (k : Manners) (held : ObjectId → Prop) (Q : α → Image → Prop) (w : World ω)
    (x : Effect ω α) : Prop := (x w).Keeps k held Q w.image

theorem Keeps.bind {Q : α → Image → Prop} {R : β → Image → Prop} {x : Effect ω α}
    {f : α → Effect ω β} (hs : w.image.Sound) (hx : Keeps k held Q w x)
    (hf : ∀ a (w' : World ω), w'.image.Sound → Persists held w.image w'.image → Q a w'.image →
      Keeps k held R w' (f a)) : Keeps k held R w (x >>= f) :=
  Run.Keeps.bind hs (.refl _) hx hf

theorem Keeps.map {Q : β → Image → Prop} {x : Effect ω α} {f : α → β} (hs : w.image.Sound)
    (hx : Keeps k held (fun a => Q (f a)) w x) : Keeps k held Q w (f <$> x) :=
  Run.Keeps.bind hs (.refl _) hx fun _ _ _ _ hQ => ⟨.refl _, hQ⟩

theorem keeps_pure {Q : α → Image → Prop} {a : α} (h : Q a w.image) :
    Keeps k held Q w (pure a) := ⟨.refl _, h⟩

theorem keeps_read {Q : α → Image → Prop} {f : Image → α} (h : Q (f w.image) w.image) :
    Keeps k held Q w (read f) := ⟨.refl _, h⟩

theorem keeps_edit {Q : α → Image → Prop} {f : Image → α × Image}
    (hb : Becomes (Edit.Usual k) w.image (f w.image).2) (h : Q (f w.image).1 (f w.image).2) :
    Keeps k held Q w (edit f) := ⟨hb, h⟩

theorem keeps_change {Q : Unit → Image → Prop} {f : Image → Image}
    (hb : Becomes (Edit.Usual k) w.image (f w.image)) (h : Q () (f w.image)) :
    Keeps k held Q w (change f) := ⟨hb, h⟩

theorem keeps_editing {f : Image → α × Image} (hb : Becomes (Edit.Usual k) w.image (f w.image).2) :
    Keeps k held (fun _ _ => True) w (edit f) := keeps_edit hb trivial

theorem keeps_changing {f : Image → Image} (hb : Becomes (Edit.Usual k) w.image (f w.image)) :
    Keeps k held (fun _ _ => True) w (change f) := keeps_change hb trivial

theorem Keeps.attempt {x : Effect ω (Except Fault α)} {f : α → Effect ω (Except Fault β)}
    (hs : w.image.Sound) (hx : Keeps k held (fun _ _ => True) w x)
    (hf : ∀ a (w' : World ω), w'.image.Sound → Persists held w.image w'.image →
      Keeps k held (fun _ _ => True) w' (f a)) :
    Keeps k held (fun _ _ => True) w (x.attempt f) := by
  refine Keeps.bind hs hx fun a w' hs' h' _ => ?_
  cases a with
  | ok a => exact hf a w' hs' h'
  | error e => exact keeps_pure trivial

theorem keeps_invoke {i : Invocation} (h : ∀ r ∈ i.receivers, w.image.Alive r) :
    Keeps k held (fun _ _ => True) w (invoke i) :=
  ⟨.refl _, h, fun _ _ _ _ => ⟨.refl _, trivial⟩⟩

end Effect

end Mixin
