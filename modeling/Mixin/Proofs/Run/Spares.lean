import Mixin.Proofs.Image.Fields

/-! Operations and the fields of objects. What an operation does to objects it does at once: it makes
the object, takes it away or stores in it. All else that belongs to it, up to the first invocation and
from each reply to the next one, spares them. -/

namespace Mixin

open Image

namespace Run

variable {ω α β : Type} {s s' : Image}

/-- Every stretch of a run spares the objects, whatever the replies are and whatever has been done to
the image meanwhile. -/
def Spares : Image → Run ω α → Prop
  | s, finished _ w => Image.Spares s w.image
  | s, calling _ w resume => Image.Spares s w.image ∧
      ∀ reply (w' : World ω), (resume reply w').Spares w'.image

theorem Spares.after {x : Run ω α} (h : Image.Spares s s') (hx : x.Spares s') : x.Spares s := by
  cases x with
  | finished a w => exact h.trans hx
  | calling i w resume => exact ⟨h.trans hx.1, hx.2⟩

theorem Spares.bind {x : Run ω α} {f : α → World ω → Run ω β} (hx : x.Spares s)
    (hf : ∀ a w, (f a w).Spares w.image) : (x.bind f).Spares s := by
  induction x generalizing s with
  | finished a w => exact (hf a w).after hx
  | calling i w resume ih => exact ⟨hx.1, fun reply w' => ih reply w' (hx.2 reply w')⟩

/-- However a run ends, it answers something of this kind. -/
def Answers (Q : α → Prop) : Run ω α → Prop
  | finished a _ => Q a
  | calling _ _ resume => ∀ reply w', (resume reply w').Answers Q

theorem Answers.mono {Q Q' : α → Prop} {x : Run ω α} (h : x.Answers Q) (hQ : ∀ a, Q a → Q' a) :
    x.Answers Q' := by
  induction x with
  | finished a w => exact hQ a h
  | calling i w resume ih => exact fun reply w' => ih reply w' (h reply w')

theorem answers_bind {Q : β → Prop} {x : Run ω α} {f : α → World ω → Run ω β}
    (hf : ∀ a w, (f a w).Answers Q) : (x.bind f).Answers Q := by
  induction x with
  | finished a w => exact hf a w
  | calling i w resume ih => exact ih

end Run

namespace Effect

variable {ω α β : Type}

structure Spares (x : Effect ω α) : Prop where
  run : ∀ w, (x w).Spares w.image

theorem Spares.bind {x : Effect ω α} {f : α → Effect ω β} (hx : x.Spares)
    (hf : ∀ a, (f a).Spares) : (x >>= f).Spares where
  run w := Run.Spares.bind (hx.run w) fun a w' => (hf a).run w'

theorem spares_pure (a : α) : (pure a : Effect ω α).Spares := ⟨fun _ => .refl _⟩

theorem Spares.attempt {x : Effect ω (Except Fault α)} {f : α → Effect ω (Except Fault β)}
    (hx : x.Spares) (hf : ∀ a, (f a).Spares) : (x.attempt f).Spares := by
  refine .bind hx fun a => ?_
  cases a with
  | ok a => exact hf a
  | error e => exact spares_pure _

theorem Spares.map {x : Effect ω α} (hx : x.Spares) (f : α → β) : (f <$> x).Spares :=
  .bind hx fun a => spares_pure (f a)

theorem spares_read (f : Image → α) : (read f : Effect ω α).Spares := ⟨fun _ => .refl _⟩

theorem spares_edit {f : Image → α × Image} (h : ∀ s, Image.Spares s (f s).2) :
    (edit f : Effect ω α).Spares := ⟨fun w => h w.image⟩

theorem spares_change {f : Image → Image} (h : ∀ s, Image.Spares s (f s)) :
    (change f : Effect ω Unit).Spares := ⟨fun w => h w.image⟩

theorem spares_invoke (i : Invocation) : (invoke i : Effect ω Reply).Spares :=
  ⟨fun _ => ⟨.refl _, fun _ _ => .refl _⟩⟩

theorem answers_bind {Q : β → Prop} {x : Effect ω α} {f : α → Effect ω β}
    (hf : ∀ a w, (f a w).Answers Q) (w : World ω) : ((x >>= f) w).Answers Q := Run.answers_bind hf

theorem spares_enter (r : Receiver) (name : Symbol) (slot : Slot) (args : List Value) :
    (enter r name slot args : Effect ω Reply).Spares := by
  cases slot with
  | direct m => exact spares_invoke _
  | chained m => exact .bind (spares_edit fun s => .chainFor s r name) fun _ => spares_invoke _

theorem spares_reportMissing (r : Receiver) (name : Symbol) (args : List Value) :
    (reportMissing r name args : Effect ω Reply).Spares :=
  .bind (spares_read _) fun _ => .bind (spares_read _) fun _ => spares_enter ..

theorem spares_send (r : Receiver) (name : Symbol) (args : List Value) :
    (send r name args : Effect ω Reply).Spares := by
  refine .bind (spares_change fun s => .prepare s r name) fun _ => ?_
  refine .bind (spares_read _) fun slot => ?_
  cases slot with
  | some slot => exact spares_enter ..
  | none => exact spares_reportMissing ..

theorem spares_describe (r : Receiver) : (describe r : Effect ω String).Spares := by
  refine .bind (spares_edit fun s => .beginDescribing s r) fun asked => ?_
  split
  · refine .bind (spares_send ..) fun reply => ?_
    refine .bind (spares_change fun _ => .of_objects rfl rfl) fun _ => ?_
    split
    · exact spares_pure _
    · exact spares_read _
  · exact spares_read _

theorem spares_exhausted (r : Receiver) (name : Symbol) (args : List Value) :
    (exhausted r name args : Effect ω Reply).Spares := by
  refine .bind (spares_read _) fun own => ?_
  split
  · exact spares_reportMissing ..
  · exact .bind (spares_read _) fun _ => .bind (spares_describe r) fun _ => spares_pure _

theorem spares_next (call : Call) (overrides : List Value) :
    (next call overrides : Effect ω Reply).Spares := by
  unfold next
  dsimp only
  split
  · refine .bind (spares_pure _) fun cursor => ?_
    split
    · exact spares_invoke _
    · exact spares_exhausted ..
  · refine .bind (.map (spares_edit fun s => .chainFor s _ _) _) fun cursor => ?_
    split
    · exact spares_invoke _
    · exact spares_exhausted ..

theorem spares_bindMethod (r : Receiver) (name : Symbol) :
    (bindMethod r name : Effect ω (Except Fault BoundMethod)).Spares := by
  refine .bind (spares_read _) fun slot => ?_
  split
  · exact spares_pure _
  · exact .bind (spares_read _) fun _ => .bind (spares_describe r) fun _ => spares_pure _

theorem spares_native (call : Call) (n : Native) : (n.act call : Effect ω Reply).Spares := by
  cases n with
  | methodMissing =>
    unfold Native.act
    dsimp only
    split
    · exact .bind (spares_describe _) fun _ => spares_pure _
    · exact spares_pure _
  | inspect => exact .bind (spares_read _) fun _ => spares_pure _
  | respondTo =>
    unfold Native.act
    dsimp only
    split
    · exact .bind (spares_edit fun s => .intern s _) fun _ => .bind (spares_read _) fun _ =>
        spares_pure _
    · exact spares_pure _
    · exact spares_pure _
  | isA =>
    unfold Native.act
    dsimp only
    split
    · split
      · exact .bind (spares_read _) fun _ => spares_pure _
      · exact spares_pure _
    · exact spares_pure _

theorem spares_start (i : Invocation) : (i.start : Effect ω (Program ω)).Spares := by
  cases i with
  | method m call =>
    unfold Invocation.start
    dsimp only
    split
    · exact .map (spares_native call _) _
    · exact .map (spares_reportMissing ..) _
    · exact ⟨fun _ => .refl _⟩
  | hook h v => exact ⟨fun _ => .refl _⟩
  | observer o name v => exact ⟨fun _ => .refl _⟩

theorem spares_notifyAdded (name : Symbol) (v : Value) (observers : List ObserverId) :
    (notifyAdded name v observers : Effect ω Unit).Spares := by
  induction observers with
  | nil => exact spares_pure _
  | cons o rest ih => exact .bind (spares_invoke _) fun _ => ih

theorem spares_defineAll (owner : ModuleId) (notify : Value) (resolving : Bool)
    (entries : List (String × Method)) :
    (defineAll owner notify resolving entries : Effect ω Unit).Spares := by
  induction entries with
  | nil => exact spares_pure _
  | cons entry rest ih =>
    refine .bind (spares_edit fun s => .intern s _) fun name => ?_
    refine .bind (spares_change fun s => .define s _ _ _ _) fun _ => ?_
    exact .bind (spares_read _) fun _ => .bind (spares_notifyAdded ..) fun _ => ih

theorem spares_runHook (h : Option HookId) (v : Value) :
    (runHook h v : Effect ω Unit).Spares := by
  unfold runHook
  split
  · exact .bind (spares_invoke _) fun _ => spares_pure _
  · exact spares_pure _

mutual

theorem spares_put (source : Source) (place : Place) :
    (put source place : Effect ω (Except Fault Unit)).Spares := by
  match source with
  | .module other =>
    rw [put]
    refine .bind (spares_edit fun s => .taker s place) fun taken => ?_
    refine .bind (spares_change fun s => .link s _ _ _) fun _ => ?_
    refine .bind (spares_read _) fun _ => .bind (spares_read _) fun _ => ?_
    exact .bind (spares_runHook ..) fun _ => spares_pure _
  | .record methods mixins extensions =>
    rw [put]
    refine .bind (spares_edit fun s => .taker s place) fun taken => ?_
    refine .attempt (spares_putAll mixins _) fun _ => .bind (spares_read _) fun r => ?_
    refine .attempt (spares_putAll extensions _) fun _ => .bind (spares_read _) fun _ => ?_
    exact .bind (spares_defineAll ..) fun _ => spares_pure _

theorem spares_putAll (sources : List Source) (place : Place) :
    (putAll sources place : Effect ω (Except Fault Unit)).Spares := by
  match sources with
  | [] => exact spares_pure _
  | source :: rest =>
    rw [putAll]
    exact .attempt (spares_put source place) fun _ => spares_putAll rest place

end

theorem spares_defineUnique (owner : ModuleId) (name : Symbol) (m : Method) :
    (defineUnique owner name m : Effect ω (Except Fault Unit)).Spares := by
  refine .bind (spares_read _) fun taken => ?_
  split
  · exact .bind (spares_read _) fun _ => spares_pure _
  · exact .bind (spares_change fun s => .define s _ _ _ _) fun _ => spares_pure _

def setUp (o : ObjectId) (args : List Value) : Effect ω (Except Fault ObjectId) := do
  if ← read (·.respondsTo (.object o) .initializer) then
    attempt (send (.object o) .initializer args) fun _ => pure (.ok o)
  else pure (.ok o)

theorem instantiate_eq (c : ClassId) (args : List Value) (w : World ω) :
    instantiate c args w = setUp (w.image.allocate c).1 args
      { w with image := (w.image.allocate c).2 } := rfl

theorem spares_setUp (o : ObjectId) (args : List Value) :
    (setUp o args : Effect ω (Except Fault ObjectId)).Spares := by
  refine .bind (spares_read _) fun answers => ?_
  split
  · exact .attempt (spares_send ..) fun _ => spares_pure _
  · exact spares_pure _

/-- The object that is answered is the one made at the start. -/
theorem answers_instantiate (c : ClassId) (args : List Value) (w : World ω) :
    (instantiate c args w).Answers fun a => ∀ o, a = .ok o → o = (w.image.allocate c).1 := by
  rw [instantiate_eq]
  generalize (w.image.allocate c).1 = o
  unfold setUp
  refine answers_bind (fun answers w' => ?_) _
  split
  · refine answers_bind (fun reply w'' => ?_) _
    cases reply with
    | ok v => exact fun o' ho => (Except.ok.inj ho).symm
    | error e => exact nofun
  · exact fun o' ho => (Except.ok.inj ho).symm

end Effect

namespace Op

variable {ω : Type}

/-- What an operation does to objects, before all else. -/
def onObjects (s : Image) : Op → Image
  | instantiate c _ => (s.allocate c).2
  | release o => s.release o
  | setField o name v => s.setField o name v
  | _ => s

theorem spares_act (op : Op) (w : World ω) : (op.act w).Spares (op.onObjects w.image) := by
  cases op with
  | intern text => exact .intern _ text
  | defineModule name => exact .defineModule _ name
  | define owner name m => exact .define _ owner name m true
  | defineUnique owner name m => exact (Effect.spares_defineUnique ..).run w
  | mixIn owner source options =>
    exact (Effect.Spares.attempt (Effect.spares_put ..) fun _ => Effect.spares_pure _).run w
  | extend r source =>
    exact (Effect.Spares.attempt (Effect.spares_put ..) fun _ => Effect.spares_pure _).run w
  | eigenclass r => exact .eigenclass _ r
  | resolve m => exact .resolve _ m
  | defineClass name above => exact .defineClass _ name above
  | defineInstanceMethod c name m => exact .defineInstanceMethod _ c name m
  | defineClassMethod c name m => exact .defineClassMethod _ c name m
  | instantiate c args => exact (Effect.spares_setUp ..).run { w with image := (w.image.allocate c).2 }
  | release o => exact .refl _
  | setField o name v => exact .refl _
  | send r name args => exact (Effect.spares_send ..).run w
  | describe r => exact (Effect.spares_describe r).run w
  | next call args => exact (Effect.spares_next ..).run w
  | bind r name => exact (Effect.spares_bindMethod ..).run w
  | callBound b args => exact (Effect.spares_enter ..).run w

end Op

end Mixin
