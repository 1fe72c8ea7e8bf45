import Mathlib.Logic.Relation
import Mixin.Machine

/-! Runs that end. An invocation ends if it comes to its reply whatever waits below it, and an operation
if each of its invocations does; but a run that comes to a lost machine is followed no further. -/

namespace Mixin

namespace Machine

variable {ω : Type}

def Comes : Machine ω → Machine ω → Prop := Relation.ReflTransGen fun m m' => m.step = .inr m'

theorem Comes.head {m m' m'' : Machine ω} (hstep : m.step = .inr m') (h : m'.Comes m'') :
    m.Comes m'' := Relation.ReflTransGen.head hstep h

theorem Comes.invariant {I : Machine ω → Prop} {m m' : Machine ω} (h : m.Comes m') (hm : I m)
    (hstep : ∀ m m', I m → m.step = .inr m' → I m') : I m' := by
  induction h with
  | refl => exact hm
  | tail _ hnext ih => exact hstep _ _ ih hnext

end Machine

namespace Run

open Machine

variable {ω α β : Type} {lost : Machine ω → Prop} {T : Run ω (Program ω) → Prop}
  {P Q : World ω → Prop} {R R' : Reply → World ω → Prop}

/-- From here a machine comes to a run of this kind, whatever waits below, or is lost. -/
def Reaches (lost : Machine ω → Prop) (T : Run ω (Program ω) → Prop) (x : Run ω (Program ω)) : Prop :=
  ∀ op waiting, ∃ m, Machine.Comes { current := x, op, waiting } m ∧
    (lost m ∨ T m.current ∧ m.waiting = waiting)

/-- From here a machine comes to a reply and a world of this kind, or is lost. -/
def Ends (lost : Machine ω → Prop) (R : Reply → World ω → Prop) : Run ω (Program ω) → Prop :=
  Reaches lost fun y => ∃ reply w, y = .finished (.reply reply) w ∧ R reply w

theorem reaches_refl {x : Run ω (Program ω)} (h : T x) : x.Reaches lost T := fun _ _ =>
  ⟨_, .refl, .inr ⟨h, rfl⟩⟩

theorem ends_reply {reply : Reply} {w : World ω} (h : R reply w) :
    Ends lost R (.finished (.reply reply) w) := reaches_refl ⟨reply, w, rfl, h⟩

theorem reaches_of_lost {x : Run ω (Program ω)} (h : ∀ m : Machine ω, m.current = x → lost m) :
    x.Reaches lost T := fun _ _ => ⟨_, .refl, .inl (h _ rfl)⟩

theorem Reaches.of_step {x y : Run ω (Program ω)} (h : y.Reaches lost T)
    (hstep : ∀ op waiting, ∃ op', Machine.step { current := x, op, waiting } =
      .inr { current := y, op := op', waiting }) : x.Reaches lost T := by
  intro op waiting
  obtain ⟨op', hop⟩ := hstep op waiting
  obtain ⟨m, hcomes, hm⟩ := h op' waiting
  exact ⟨m, hcomes.head hop, hm⟩

theorem Ends.mono {x : Run ω (Program ω)} (h : x.Ends lost R) (hR : ∀ reply w, R reply w → R' reply w) :
    x.Ends lost R' := by
  intro op waiting
  obtain ⟨m, hcomes, hm⟩ := h op waiting
  refine ⟨m, hcomes, hm.imp_right ?_⟩
  rintro ⟨⟨reply, w, hcurrent, hreply⟩, hwaiting⟩
  exact ⟨⟨reply, w, hcurrent, hR reply w hreply⟩, hwaiting⟩

theorem reaches_calling {i : Invocation} {w : World ω} {resume : Reply → World ω → Run ω (Program ω)}
    (h : (i.start w).Ends lost fun reply w' => (resume reply w').Reaches lost T) :
    (calling i w resume).Reaches lost T := by
  intro op waiting
  obtain ⟨m, hcomes, hm⟩ := h none ({ op, invocation := i, resume } :: waiting)
  have hcomes : Machine.Comes { current := calling i w resume, op, waiting } m := hcomes.head rfl
  rcases hm with hlost | ⟨⟨reply, w', hcurrent, hresume⟩, hwaiting⟩
  · exact ⟨m, hcomes, .inl hlost⟩
  · obtain ⟨m', hrest, hm'⟩ := hresume op waiting
    refine ⟨m', hcomes.trans (hrest.head ?_), hm'⟩
    rw [step, hcurrent, hwaiting]

/-- Every invocation that the run comes to ends, and the run in a world of this kind. -/
def Halts (lost : Machine ω → Prop) (P : World ω → Prop) : Run ω α → Prop
  | finished _ w => P w
  | calling i w resume => (i.start w).Ends lost fun reply w' => Halts lost P (resume reply w')

theorem Halts.bind {x : Run ω α} {f : α → World ω → Run ω β} (hx : x.Halts lost P)
    (hf : ∀ a w, P w → (f a w).Halts lost Q) : (x.bind f).Halts lost Q := by
  induction x with
  | finished a w => exact hf a w hx
  | calling i w resume ih => exact Ends.mono hx fun reply w' hresume => ih reply w' hresume

theorem Halts.reaches {x : Run ω α} {f : α → World ω → Run ω (Program ω)} (hx : x.Halts lost P)
    (hf : ∀ a w, P w → (f a w).Reaches lost T) : (x.bind f).Reaches lost T := by
  induction x with
  | finished a w => exact hf a w hx
  | calling i w resume ih =>
    exact reaches_calling (Ends.mono hx fun reply w' hresume => ih reply w' hresume)

end Run

/-- Begun in a world of this kind, the invocation ends in one. -/
def Invocation.Finishes {ω : Type} (lost : Machine ω → Prop) (P : World ω → Prop) (i : Invocation) :
    Prop := ∀ w, P w → (i.start w).Ends lost fun _ => P

namespace Effect

variable {ω α β : Type} {lost : Machine ω → Prop} {P : World ω → Prop}

structure Halts (lost : Machine ω → Prop) (P : World ω → Prop) (x : Effect ω α) : Prop where
  run : ∀ w, P w → (x w).Halts lost P

theorem Halts.bind {x : Effect ω α} {f : α → Effect ω β} (hx : x.Halts lost P)
    (hf : ∀ a, (f a).Halts lost P) : (x >>= f).Halts lost P where
  run w hw := (hx.run w hw).bind fun a w' hw' => (hf a).run w' hw'

theorem halts_pure (a : α) : (pure a : Effect ω α).Halts lost P := ⟨fun _ hw => hw⟩

theorem Halts.map {x : Effect ω α} (hx : x.Halts lost P) (f : α → β) : (f <$> x).Halts lost P where
  run w hw := (hx.run w hw).bind fun _ _ hw' => hw'

theorem halts_read (f : Image → α) : (read f : Effect ω α).Halts lost P := ⟨fun _ hw => hw⟩

theorem halts_edit {f : Image → α × Image}
    (h : ∀ w : World ω, P w → P { w with image := (f w.image).2 }) :
    (edit f : Effect ω α).Halts lost P := ⟨h⟩

theorem halts_invoke {i : Invocation} (h : i.Finishes lost P) :
    (invoke i : Effect ω Reply).Halts lost P := ⟨h⟩

theorem Halts.ends {x : Effect ω α} (hx : x.Halts lost P) (f : α → Reply) {w : World ω} (hw : P w) :
    Run.Ends lost (fun _ => P) (((fun a => Program.reply (f a)) <$> x) w) :=
  (hx.run w hw).reaches fun _ _ hw' => Run.ends_reply hw'

end Effect

end Mixin
