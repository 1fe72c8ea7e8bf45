import Mixin.Proofs.Image.Described
import Mixin.Proofs.Run.Steps

/-! Every operation leaves whoever is being described as it found them, provided that what it invokes
does. The one operation that invokes something with a further receiver under description is a
description, and never of a receiver that is under description already. -/

namespace Mixin

namespace Effect

variable {ω : Type}

/-- The invocation is what sending `inspect` to the receiver comes to. -/
def Asks (r : Receiver) (i : Invocation) (w : World ω) : Prop :=
  ∃ w₀ : World ω, (send r .inspect [] : Effect ω Reply) w₀ = .calling i w .finished

end Effect

namespace Run

variable {ω α β : Type} {D : List Receiver}

/-- While these receivers are described, an invocation is made with no others under description, or to
describe one more. -/
def Opens (D : List Receiver) (i : Invocation) (w : World ω) : Prop :=
  w.image.describing = D ∨ ∃ r ∉ D, w.image.describing = r :: D ∧ Effect.Asks r i w

/-- A run ends with these receivers under description, if each invocation leaves those under
description that it finds. -/
def Restores (D : List Receiver) : Run ω α → Prop
  | finished _ w => w.image.describing = D
  | calling i w resume => Opens D i w ∧
      ∀ reply (w' : World ω), w'.image.describing = w.image.describing →
        (resume reply w').Restores D

theorem Restores.bind {x : Run ω α} {f : α → World ω → Run ω β} (hx : x.Restores D)
    (hf : ∀ a (w : World ω), w.image.describing = D → (f a w).Restores D) :
    (x.bind f).Restores D := by
  induction x with
  | finished a w => exact hf a w hx
  | calling i w resume ih => exact ⟨hx.1, fun reply w' hw' => ih reply w' (hx.2 reply w' hw')⟩

end Run

namespace Effect

variable {ω α β : Type}

structure Restores (x : Effect ω α) : Prop where
  run : ∀ w, (x w).Restores w.image.describing

theorem Restores.bind {x : Effect ω α} {f : α → Effect ω β} (hx : x.Restores)
    (hf : ∀ a, (f a).Restores) : (x >>= f).Restores where
  run w := Run.Restores.bind (hx.run w) fun a w' hw' => hw' ▸ (hf a).run w'

theorem Restores.map {x : Effect ω α} (hx : x.Restores) (f : α → β) : (f <$> x).Restores where
  run w := Run.Restores.bind (hx.run w) fun _ _ hw' => hw'

theorem restores_pure (a : α) : (pure a : Effect ω α).Restores := ⟨fun _ => rfl⟩

theorem Restores.attempt {x : Effect ω (Except Fault α)} {f : α → Effect ω (Except Fault β)}
    (hx : x.Restores) (hf : ∀ a, (f a).Restores) : (x.attempt f).Restores := by
  refine .bind hx fun a => ?_
  cases a with
  | ok a => exact hf a
  | error e => exact restores_pure _

theorem restores_read (f : Image → α) : (read f : Effect ω α).Restores := ⟨fun _ => rfl⟩

theorem restores_edit {f : Image → α × Image} (h : ∀ s, (f s).2.describing = s.describing) :
    (edit f : Effect ω α).Restores := ⟨fun w => h w.image⟩

theorem restores_change {f : Image → Image} (h : ∀ s, (f s).describing = s.describing) :
    (change f : Effect ω Unit).Restores := ⟨fun w => h w.image⟩

theorem restores_invoke (i : Invocation) : (invoke i : Effect ω Reply).Restores :=
  ⟨fun _ => ⟨.inl rfl, fun _ _ hw' => hw'⟩⟩

theorem restores_enter (r : Receiver) (name : Symbol) (slot : Slot) (args : List Value) :
    (enter r name slot args : Effect ω Reply).Restores := by
  cases slot with
  | direct m => exact restores_invoke _
  | chained m =>
    exact .bind (restores_edit fun _ => Image.describing_chainFor r name) fun _ => restores_invoke _

theorem restores_reportMissing (r : Receiver) (name : Symbol) (args : List Value) :
    (reportMissing r name args : Effect ω Reply).Restores :=
  .bind (restores_read _) fun _ => .bind (restores_read _) fun _ => restores_enter ..

theorem restores_send (r : Receiver) (name : Symbol) (args : List Value) :
    (send r name args : Effect ω Reply).Restores := by
  refine .bind (restores_change fun _ => Image.describing_prepare r name) fun _ => ?_
  refine .bind (restores_read _) fun slot => ?_
  cases slot with
  | some slot => exact restores_enter ..
  | none => exact restores_reportMissing ..

theorem exists_enter_eq (r : Receiver) (name : Symbol) (slot : Slot) (args : List Value)
    (w : World ω) : ∃ i w', enter r name slot args w = invoke i w' ∧
      w'.image.describing = w.image.describing := by
  cases slot with
  | direct m => exact ⟨_, w, rfl, rfl⟩
  | chained m =>
    exact ⟨_, { w with image := (w.image.chainFor r name).2 }, rfl, Image.describing_chainFor r name⟩

theorem exists_send_eq (r : Receiver) (name : Symbol) (args : List Value) (w : World ω) :
    ∃ i w', send r name args w = invoke i w' ∧ w'.image.describing = w.image.describing := by
  have hprepare : (w.image.prepare r name).describing = w.image.describing :=
    Image.describing_prepare r name
  rw [send_eq]
  cases (w.image.prepare r name).slot? r name with
  | some slot =>
    obtain ⟨i, w', heq, hw'⟩ := exists_enter_eq r name slot args
      { w with image := w.image.prepare r name }
    exact ⟨i, w', heq, hw'.trans hprepare⟩
  | none =>
    obtain ⟨i, w', heq, hw'⟩ := exists_enter_eq r .methodMissing
      ((w.image.prepare r name).missingSlot r)
      [.str ((w.image.prepare r name).text name), .list args]
      { w with image := w.image.prepare r name }
    exact ⟨i, w', heq, hw'.trans hprepare⟩

def shown (r : Receiver) (reply : Reply) : Effect ω String := do
  change (·.endDescribing r)
  match reply with
  | .ok (.str text) => pure text
  | _ => read (·.defaultInspect r)

/-- A receiver under description is shown in its built-in form, and nothing is invoked. -/
theorem describe_of_mem {r : Receiver} {w : World ω} (h : r ∈ w.image.describing) :
    describe r w = .finished (w.image.defaultInspect r) w := by
  have hbegin : w.image.beginDescribing r = (false, w.image) := if_pos h
  unfold describe
  show Run.bind (.finished (w.image.beginDescribing r).1
    { w with image := (w.image.beginDescribing r).2 }) _ = _
  rw [hbegin]
  rfl

theorem describe_of_not_mem {r : Receiver} {w : World ω} (h : r ∉ w.image.describing) :
    describe r w = (send r .inspect [] >>= shown r)
      { w with image := { w.image with describing := r :: w.image.describing } } := by
  have hbegin : w.image.beginDescribing r =
    (true, { w.image with describing := r :: w.image.describing }) := if_neg h
  unfold describe
  show Run.bind (.finished (w.image.beginDescribing r).1
    { w with image := (w.image.beginDescribing r).2 }) _ = _
  rw [hbegin]
  rfl

/-- The asking is an invocation, with the receiver under description. -/
theorem exists_describe_eq {r : Receiver} {w : World ω} (h : r ∉ w.image.describing)
    (f : String → Effect ω α) : ∃ i w' resume, (describe r >>= f) w = .calling i w' resume ∧
      Asks r i w' ∧ w'.image.describing = r :: w.image.describing := by
  obtain ⟨i, w', heq, hw'⟩ := exists_send_eq r .inspect []
    { w with image := { w.image with describing := r :: w.image.describing } }
  refine ⟨i, w', fun reply v => (shown r reply v).bind f, ?_, ⟨_, heq⟩, hw'⟩
  show (describe r w).bind _ = _
  rw [describe_of_not_mem h]
  show ((send r .inspect [] _).bind _).bind _ = _
  rw [heq]
  rfl

theorem restores_shown {r : Receiver} {D : List Receiver} {w : World ω} (reply : Reply)
    (h : w.image.describing = r :: D) : (shown r reply w).Restores D := by
  have hend : (w.image.endDescribing r).describing = D := Image.endDescribing_of_head h
  unfold shown
  show Run.Restores D (Run.bind (.finished () { w with image := w.image.endDescribing r }) _)
  refine Run.Restores.bind (D := D) hend fun _ w' hw' => ?_
  split <;> exact hw'

theorem restores_describe (r : Receiver) : (describe r : Effect ω String).Restores := by
  refine ⟨fun w => ?_⟩
  by_cases h : r ∈ w.image.describing
  · rw [describe_of_mem h]
    exact rfl
  · rw [describe_of_not_mem h]
    obtain ⟨i, w', heq, hw'⟩ := exists_send_eq r .inspect []
      { w with image := { w.image with describing := r :: w.image.describing } }
    show ((send r .inspect [] _).bind _).Restores _
    rw [heq]
    refine ⟨.inr ⟨r, h, hw', _, heq⟩, fun reply w'' hw'' => ?_⟩
    exact restores_shown reply (hw''.trans hw')

theorem restores_exhausted (r : Receiver) (name : Symbol) (args : List Value) :
    (exhausted r name args : Effect ω Reply).Restores := by
  refine .bind (restores_read _) fun own => ?_
  split
  · exact restores_reportMissing ..
  · exact .bind (restores_read _) fun _ => .bind (restores_describe r) fun _ => restores_pure _

theorem restores_next (call : Call) (overrides : List Value) :
    (next call overrides : Effect ω Reply).Restores := by
  unfold next
  dsimp only
  split
  · refine .bind (restores_pure _) fun cursor => ?_
    split
    · exact restores_invoke _
    · exact restores_exhausted ..
  · refine .bind (.map (restores_edit fun _ => Image.describing_chainFor ..) _) fun cursor => ?_
    split
    · exact restores_invoke _
    · exact restores_exhausted ..

theorem restores_bindMethod (r : Receiver) (name : Symbol) :
    (bindMethod r name : Effect ω (Except Fault BoundMethod)).Restores := by
  refine .bind (restores_read _) fun slot => ?_
  split
  · exact restores_pure _
  · exact .bind (restores_read _) fun _ => .bind (restores_describe r) fun _ => restores_pure _

theorem restores_native (call : Call) (n : Native) : (n.act call : Effect ω Reply).Restores := by
  cases n with
  | methodMissing =>
    unfold Native.act
    dsimp only
    split
    · exact .bind (restores_describe _) fun _ => restores_pure _
    · exact restores_pure _
  | inspect => exact .bind (restores_read _) fun _ => restores_pure _
  | respondTo =>
    unfold Native.act
    dsimp only
    split
    · exact .bind (restores_edit fun _ => rfl) fun _ => .bind (restores_read _) fun _ =>
        restores_pure _
    · exact restores_pure _
    · exact restores_pure _
  | isA =>
    unfold Native.act
    dsimp only
    split
    · split
      · exact .bind (restores_read _) fun _ => restores_pure _
      · exact restores_pure _
    · exact restores_pure _

theorem restores_start (i : Invocation) : (i.start : Effect ω (Program ω)).Restores := by
  cases i with
  | method m call =>
    unfold Invocation.start
    dsimp only
    split
    · exact .map (restores_native call _) _
    · exact .map (restores_reportMissing ..) _
    · exact ⟨fun _ => rfl⟩
  | hook h v => exact ⟨fun _ => rfl⟩
  | observer o name v => exact ⟨fun _ => rfl⟩

theorem restores_notifyAdded (name : Symbol) (v : Value) (observers : List ObserverId) :
    (notifyAdded name v observers : Effect ω Unit).Restores := by
  induction observers with
  | nil => exact restores_pure _
  | cons o rest ih => exact .bind (restores_invoke _) fun _ => ih

theorem restores_defineAll (owner : ModuleId) (notify : Value) (resolving : Bool)
    (entries : List (String × Method)) :
    (defineAll owner notify resolving entries : Effect ω Unit).Restores := by
  induction entries with
  | nil => exact restores_pure _
  | cons entry rest ih =>
    refine .bind (restores_edit fun _ => rfl) fun name => ?_
    refine .bind (restores_change fun _ => Image.describing_define ..) fun _ => ?_
    exact .bind (restores_read _) fun _ => .bind (restores_notifyAdded ..) fun _ => ih

theorem restores_runHook (h : Option HookId) (v : Value) :
    (runHook h v : Effect ω Unit).Restores := by
  unfold runHook
  split
  · exact .bind (restores_invoke _) fun _ => restores_pure _
  · exact restores_pure _

mutual

theorem restores_put (source : Source) (place : Place) :
    (put source place : Effect ω (Except Fault Unit)).Restores := by
  match source with
  | .module other =>
    rw [put]
    refine .bind (restores_edit fun _ => Image.describing_taker place) fun taken => ?_
    refine .bind (restores_change fun _ => Image.describing_link ..) fun _ => ?_
    refine .bind (restores_read _) fun _ => .bind (restores_read _) fun _ => ?_
    exact .bind (restores_runHook ..) fun _ => restores_pure _
  | .record methods mixins extensions =>
    rw [put]
    refine .bind (restores_edit fun _ => Image.describing_taker place) fun taken => ?_
    refine .attempt (restores_putAll mixins _) fun _ => .bind (restores_read _) fun r => ?_
    refine .attempt (restores_putAll extensions _) fun _ => .bind (restores_read _) fun _ => ?_
    exact .bind (restores_defineAll ..) fun _ => restores_pure _

theorem restores_putAll (sources : List Source) (place : Place) :
    (putAll sources place : Effect ω (Except Fault Unit)).Restores := by
  match sources with
  | [] => exact restores_pure _
  | source :: rest =>
    rw [putAll]
    exact .attempt (restores_put source place) fun _ => restores_putAll rest place

end

theorem restores_instantiate (c : ClassId) (args : List Value) :
    (instantiate c args : Effect ω (Except Fault ObjectId)).Restores := by
  refine .bind (restores_edit fun _ => Image.describing_allocate c) fun o => ?_
  refine .bind (restores_read _) fun answers => ?_
  split
  · exact .attempt (restores_send ..) fun _ => restores_pure _
  · exact restores_pure _

theorem restores_defineUnique (owner : ModuleId) (name : Symbol) (m : Method) :
    (defineUnique owner name m : Effect ω (Except Fault Unit)).Restores := by
  refine .bind (restores_read _) fun taken => ?_
  split
  · exact .bind (restores_read _) fun _ => restores_pure _
  · exact .bind (restores_change fun _ => Image.describing_define ..) fun _ => restores_pure _

theorem restores_act (op : Op) : (op.act : Effect ω op.Answer).Restores := by
  cases op with
  | intern text => exact restores_edit fun _ => Image.describing_intern text
  | defineModule name => exact restores_edit fun _ => Image.describing_defineModule name
  | define owner name m => exact restores_change fun _ => Image.describing_define ..
  | defineUnique owner name m => exact restores_defineUnique ..
  | mixIn owner source options => exact .attempt (restores_put ..) fun _ => restores_pure _
  | extend r source => exact .attempt (restores_put ..) fun _ => restores_pure _
  | eigenclass r => exact restores_edit fun _ => Image.describing_eigenclass r
  | resolve m => exact restores_change fun _ => Image.describing_resolve m
  | defineClass name superclass => exact restores_edit fun _ => Image.describing_defineClass ..
  | defineInstanceMethod c name m =>
    exact restores_change fun _ => Image.describing_defineInstanceMethod ..
  | defineClassMethod c name m =>
    exact restores_change fun _ => Image.describing_defineClassMethod ..
  | instantiate c args => exact restores_instantiate ..
  | release o => exact restores_change fun _ => Image.describing_release o
  | setField o name v => exact restores_change fun _ => Image.describing_setField ..
  | send r name args => exact restores_send ..
  | describe r => exact restores_describe r
  | next call args => exact restores_next ..
  | bind r name => exact restores_bindMethod ..
  | callBound b args => exact restores_enter ..

end Effect

end Mixin
