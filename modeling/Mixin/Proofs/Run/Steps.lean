import Mixin.Proofs.Run.Reached

/-! What a machine does when a program asks it for an operation: the answer, the invocation or the
effect that the operation comes to. -/

namespace Mixin

namespace Effect

variable {ω : Type} {w : World ω} {r : Receiver} {n : Symbol} {args : List Value}

theorem map_congr {α β : Type} {x y : Effect ω α} {w w' : World ω} (h : x w = y w') (f : α → β) :
    (f <$> x) w = (f <$> y) w' := congrArg (Run.bind · fun a w => .finished (f a) w) h

theorem enter_chained {x : Method} : enter r n (.chained x) args w =
    invoke (.method x ⟨r, n, args, some (.top (w.image.chainFor r n).1)⟩)
      { w with image := (w.image.chainFor r n).2 } := rfl

theorem enter_eq (slot : Slot) : ∃ cursor w', enter r n slot args w =
    invoke (.method slot.method ⟨r, n, args, cursor⟩) w' := by
  cases slot with
  | direct x => exact ⟨none, w, rfl⟩
  | chained x => exact ⟨_, _, enter_chained⟩

theorem send_eq : send r n args w =
    (match (w.image.prepare r n).slot? r n with
      | some slot => enter r n slot args
      | none => reportMissing r n args) { w with image := w.image.prepare r n } := rfl

theorem send_of_slot {slot : Slot} (h : w.image.slot? r n = some slot) :
    send r n args w = enter r n slot args w := by
  have hprepare : w.image.prepare r n = w.image := by
    rw [Image.prepare, h]
    rfl
  rw [send_eq, hprepare, h]

theorem reportMissing_of_slot {slot : Slot} (h : w.image.slot? r .methodMissing = some slot) :
    reportMissing r n args w =
      enter r .methodMissing slot [.str (w.image.text n), .list args] w := by
  have hmissing : w.image.missingSlot r = slot := by
    rw [Image.missingSlot, h]
    rfl
  rw [← hmissing]
  rfl

theorem exhausted_eq : exhausted r n args w =
    if w.image.hasOwnHandler r then reportMissing r n args w
    else ((fun who => .error (.noSuperMethod (w.image.text n) who)) <$> describe r) w := by
  have hexhausted : exhausted r n args w = (if w.image.hasOwnHandler r then reportMissing r n args
      else read (·.text n) >>= fun text => describe r >>= fun who =>
        pure (.error (.noSuperMethod text who))) w := rfl
  rw [hexhausted]
  cases w.image.hasOwnHandler r <;> rfl

variable {call : Call} {L : List Method} {overrides : List Value}

theorem next_of_below {i : ℕ} {x : Method} (hcursor : call.cursor = some ⟨L, i + 1⟩)
    (hx : L[i]? = some x) : next call overrides w =
      invoke (.method x { call with args := call.overlay overrides, cursor := some ⟨L, i⟩ }) w := by
  unfold next
  simp only [hcursor, pure_bind, Cursor.below?, hx, Option.map_some]

theorem next_of_bottom {cursor : Cursor} (hcursor : call.cursor = some cursor)
    (hbottom : cursor.below? = none) : next call overrides w =
      exhausted call.receiver call.name (call.overlay overrides) w := by
  unfold next
  simp only [hcursor, pure_bind, hbottom]

theorem next_of_lowest (hcursor : call.cursor = some ⟨L, 0⟩) : next call overrides w =
    exhausted call.receiver call.name (call.overlay overrides) w := next_of_bottom hcursor rfl

theorem next_of_cursorless (h : call.cursor = none) : next call overrides w =
    next { call with cursor := some (.top (w.image.chainFor call.receiver call.name).1) } overrides
      { w with image := (w.image.chainFor call.receiver call.name).2 } := by
  unfold next
  simp only [h]
  rfl

end Effect

namespace Op

variable {ω : Type}

theorem act_defineClass (name : String) (above : Option ClassId) (w : World ω) :
    (defineClass name above).act w = .finished (w.image.defineClass name above).1
      { w with image := (w.image.defineClass name above).2 } := rfl

theorem act_eigenclass (r : Receiver) (w : World ω) : (eigenclass r).act w =
    .finished (w.image.eigenclass r).1 { w with image := (w.image.eigenclass r).2 } := rfl

theorem act_define (owner : ModuleId) (name : Symbol) (x : Method) (w : World ω) :
    (define owner name x).act w =
      .finished () { w with image := w.image.define owner name x true } := rfl

theorem act_release (o : ObjectId) (w : World ω) :
    (release o).act w = .finished () { w with image := w.image.release o } := rfl

theorem act_setField (o : ObjectId) (f : String) (v : Value) (w : World ω) :
    (setField o f v).act w = .finished () { w with image := w.image.setField o f v } := rfl

theorem act_instantiate {c : ClassId} {w : World ω} (args : List Value)
    (h : (w.image.allocate c).2.respondsTo (.object (w.image.allocate c).1) .initializer = false) :
    (instantiate c args).act w = .finished (.ok (w.image.allocate c).1)
      { w with image := (w.image.allocate c).2 } := by
  obtain ⟨rest, hact⟩ : ∃ rest : Effect ω (Except Fault ObjectId),
      (instantiate c args).act w =
        (if (w.image.allocate c).2.respondsTo (.object (w.image.allocate c).1) .initializer
          then rest else pure (.ok (w.image.allocate c).1))
        { w with image := (w.image.allocate c).2 } := ⟨_, rfl⟩
  rw [hact, h]
  rfl

theorem act_bind {r : Receiver} {n : Symbol} {w : World ω} {slot : Slot}
    (h : w.image.definedSlot? r n = some slot) :
    (bind r n).act w = .finished (.ok { receiver := r, name := n, slot }) w := by
  obtain ⟨rest, hact⟩ : ∃ rest : Effect ω (Except Fault BoundMethod), (bind r n).act w =
      (match w.image.definedSlot? r n with
        | some slot => pure (Except.ok (BoundMethod.mk r n slot))
        | none => rest) w := ⟨_, rfl⟩
  rw [hact, h]
  rfl

end Op

namespace Machine

open Effect Image

variable {ω α β : Type} {k : Manners} {u : Setup} {m : Machine ω}

/-- In its next step the machine carries out an effect and the program goes on with the answer. -/
def Carries (m : Machine ω) (x : Effect ω α) (goesOn : α → Program ω) : Prop :=
  ∃ op, m.step = .inr { current := (goesOn <$> x) m.world, op, waiting := m.waiting }

/-- In its next step the machine comes to an invocation, and the program goes on with the reply. -/
def Enters (m : Machine ω) (i : Invocation) (goesOn : Reply → Program ω) : Prop :=
  ∃ op w, m.step = .inr { current := (goesOn <$> invoke i) w, op, waiting := m.waiting }

theorem Enters.unique {i j : Invocation} {goesOn goesOn' : Reply → Program ω}
    (hi : m.Enters i goesOn) (hj : m.Enters j goesOn') : i = j := by
  obtain ⟨op, w, hi⟩ := hi
  obtain ⟨op', w', hj⟩ := hj
  have hcurrent := congrArg Machine.current (Sum.inr.inj (hi.symm.trans hj))
  exact (Run.calling.inj hcurrent).1

theorem world_eq {p : Program ω} {w : World ω} (h : m.current = .finished p w) : m.world = w := by
  rw [world, h]

theorem carries_perform {op : Op} {goesOn : op.Answer → Program ω} {w : World ω}
    (h : m.current = .finished (.perform op goesOn) w) : m.Carries op.act goesOn := by
  refine ⟨some op, ?_⟩
  rw [step, world, h]

theorem step_perform {op : Op} {goesOn : op.Answer → Program ω} {w w' : World ω} {a : op.Answer}
    {old : Option Op} {waiting : List (Pending ω)} (h : op.act w = .finished a w') :
    step { current := .finished (.perform op goesOn) w, op := old, waiting } =
      .inr { current := .finished (goesOn a) w', op := some op, waiting } := by
  have hmap : (goesOn <$> op.act) w = .finished (goesOn a) w' :=
    map_congr (y := pure a) h goesOn
  show Sum.inr _ = _
  rw [hmap]

theorem Reached.define {s : Image} {code : Code ω} {host : ω} {owner : ModuleId} {name : Symbol}
    {x : Method} {goesOn : Unit → Program ω} {op : Option Op}
    (h : ({ current := .finished (.perform (.define owner name x) goesOn) { image := s, code, host }
            op } : Machine ω).Reached k u)
    (howner : s.graph.Live owner) (hgate : owner ≠ .gate) (hx : x.isStub = false) :
    ({ current := .finished (goesOn ()) { image := s.define owner name x true, code, host }
       op := some (.define owner name x) } : Machine ω).Reached k u := by
  refine h.step ⟨⟨fun _ => hgate, fun _ => hx⟩, ?_, nofun⟩ (step_perform (Op.act_define ..))
  intro r hr
  rw [List.mem_singleton.1 hr]
  exact howner

theorem Carries.congr {x : Effect ω α} {y : Effect ω β} {goesOn : α → Program ω}
    {goesOn' : β → Program ω} (h : m.Carries x goesOn)
    (he : (goesOn <$> x) m.world = (goesOn' <$> y) m.world) : m.Carries y goesOn' := by
  obtain ⟨op, hstep⟩ := h
  exact ⟨op, he ▸ hstep⟩

theorem Carries.step {x y : Effect ω α} {goesOn : α → Program ω} {w : World ω}
    (h : m.Carries x goesOn) (hx : x m.world = y w) :
    ∃ op, m.step = .inr { current := (goesOn <$> y) w, op, waiting := m.waiting } := by
  obtain ⟨op, hstep⟩ := h
  exact ⟨op, map_congr hx goesOn ▸ hstep⟩

theorem Carries.enters {x : Effect ω Reply} {i : Invocation} {goesOn : Reply → Program ω}
    {w : World ω} (h : m.Carries x goesOn) (hx : x m.world = invoke i w) :
    m.Enters i goesOn := by
  obtain ⟨op, hstep⟩ := h.step hx
  exact ⟨op, w, hstep⟩

section Next

variable {call : Call} {L : List Method} {i : Nat} {overrides : List Value}
  {goesOn : Reply → Program ω} {w : World ω}
  (hcur : m.current = .finished (.perform (.next call overrides) goesOn) w)
include hcur

theorem enters_below {x : Method} (hcursor : call.cursor = some ⟨L, i + 1⟩) (hx : L[i]? = some x) :
    m.Enters (.method x { call with args := call.overlay overrides, cursor := some ⟨L, i⟩ })
      goesOn :=
  (carries_perform hcur).enters (next_of_below hcursor hx)

theorem enters_handler (hcursor : call.cursor = some ⟨L, 0⟩) {slot : Slot}
    (hslot : w.image.slot? call.receiver .methodMissing = some slot)
    (hown : slot.method.sameBody .defaultHandler = false) :
    ∃ cursor, m.Enters (.method slot.method ⟨call.receiver, .methodMissing,
      [.str (w.image.text call.name), .list (call.overlay overrides)], cursor⟩) goesOn := by
  have hhandler : w.image.hasOwnHandler call.receiver = true := by
    simp [hasOwnHandler, hslot, hown]
  have hnext : next call overrides w = enter call.receiver .methodMissing slot
      [.str (w.image.text call.name), .list (call.overlay overrides)] w := by
    rw [next_of_lowest hcursor, exhausted_eq, if_pos hhandler, reportMissing_of_slot hslot]
  obtain ⟨cursor, w', henter⟩ := enter_eq slot
  refine ⟨cursor, (carries_perform hcur).enters (w := w') ?_⟩
  rw [world_eq hcur]
  exact hnext.trans henter

theorem carries_failure (hcursor : call.cursor = some ⟨L, 0⟩)
    (hslot : ∀ slot, w.image.slot? call.receiver .methodMissing = some slot →
      slot.method.sameBody .defaultHandler = true) :
    m.Carries (describe call.receiver) fun who =>
      goesOn (.error (.noSuperMethod (w.image.text call.name) who)) := by
  have hhandler : w.image.hasOwnHandler call.receiver = false := by
    unfold hasOwnHandler
    cases h : w.image.slot? call.receiver .methodMissing with
    | none => rfl
    | some slot => simp [hslot slot h]
  refine (carries_perform hcur).congr ?_
  rw [world_eq hcur]
  show (next call overrides w).bind _ = _
  rw [next_of_lowest hcursor, exhausted_eq, hhandler]
  exact Run.bind_assoc ..

end Next

theorem enters_top {r : Receiver} {n : Symbol} {args : List Value} {goesOn : Reply → Program ω}
    {w : World ω} (hcur : m.current = .finished (.perform (.send r n args) goesOn) w)
    {top : Method} (hslot : w.image.slot? r n = some (.chained top)) :
    m.Enters (.method top ⟨r, n, args, some (.top (w.image.chainFor r n).1)⟩) goesOn := by
  refine (carries_perform hcur).enters (w := { w with image := (w.image.chainFor r n).2 }) ?_
  rw [world_eq hcur]
  exact send_of_slot hslot

/-- Gives the modules an `inspect` and sends it to the kernel. -/
def reopening : Program Unit :=
  .perform (.define .moduleRoot .inspect (.program 0 true)) fun _ =>
    .perform (.send (.module .kernel) .inspect []) .reply

/-- The first body replaces the method that it belongs to and then makes a super call. -/
def reopeningCode : Code Unit where
  bodies := #[
    fun call => .perform (.define .moduleRoot .inspect (.program 1 false)) fun _ =>
      .perform (.next call []) .reply,
    fun _ => .reply (.ok .void)]

def reopened : Machine Unit where
  current := .finished (.perform (.send (.module .kernel) .inspect []) .reply)
    { image := ({} : Setup).boot.define .moduleRoot .inspect (.program 0 true) true
      code := reopeningCode
      host := () }
  op := some (.define .moduleRoot .inspect (.program 0 true))

theorem reached_reopened (k : Manners) : reopened.Reached k {} :=
  (Reached.start reopening reopeningCode ()).define ({} : Setup).sound_boot.live_moduleRoot nofun rfl

def reopeningCall : Call where
  receiver := .module .kernel
  name := .inspect
  args := []
  cursor := some ⟨[.native .inspect, .program 0 true], 1⟩

/-- About to run the first body. -/
def entered : Machine Unit where
  current := .calling (.method (.program 0 true) reopeningCall)
    { reopened.world with
      image := (reopened.world.image.chainFor (.module .kernel) .inspect).2 }
    fun reply w => .finished (.reply reply) w
  op := some (.send (.module .kernel) .inspect [])

def started : Machine Unit where
  current := .finished (.perform (.define .moduleRoot .inspect (.program 1 false)) fun _ =>
    .perform (.next reopeningCall []) .reply) entered.world
  waiting := [{
    op := some (.send (.module .kernel) .inspect [])
    invocation := .method (.program 0 true) reopeningCall
    resume := fun reply w => .finished (.reply reply) w }]

def redefined : Machine Unit where
  current := .finished (.perform (.next reopeningCall []) .reply)
    { entered.world with
      image := entered.world.image.define .moduleRoot .inspect (.program 1 false) true }
  op := some (.define .moduleRoot .inspect (.program 1 false))
  waiting := started.waiting

theorem slot_reopened : reopened.world.image.slot? (.module .kernel) .inspect =
    some (.chained (.program 0 true)) := by
  decide +kernel

theorem chainFor_reopened : (reopened.world.image.chainFor (.module .kernel) .inspect).1 =
    [.native .inspect, .program 0 true] := by
  decide +kernel

theorem permitted_reopened (k : Manners) : reopened.Permitted k := by
  refine ⟨trivial, ?_, nofun⟩
  intro r hr
  rw [List.mem_singleton.1 hr]
  exact (reached_reopened k).sane.sound.live_kernel

theorem step_reopened : reopened.step = .inr entered := by
  have hsend : send (.module .kernel) .inspect [] reopened.world =
      invoke (.method (.program 0 true) reopeningCall) entered.world := by
    rw [send_of_slot slot_reopened, enter_chained, chainFor_reopened]
    rfl
  have hstep : reopened.step = .inr
      { current := (send (.module .kernel) .inspect [] reopened.world).bind fun reply w =>
          .finished (.reply reply) w
        op := some (.send (.module .kernel) .inspect []) } := rfl
  rw [hstep, hsend]
  rfl

theorem reached_entered (k : Manners) : entered.Reached k {} :=
  .step (reached_reopened k) (permitted_reopened k) step_reopened

theorem reached_started (k : Manners) : started.Reached k {} :=
  .step (reached_entered k) trivial rfl

theorem permitted_started (k : Manners) : started.Permitted k := by
  refine ⟨⟨nofun, fun _ => rfl⟩, ?_, nofun⟩
  intro r hr
  rw [List.mem_singleton.1 hr]
  exact (reached_started k).sane.sound.live_moduleRoot

theorem reached_redefined (k : Manners) : redefined.Reached k {} :=
  .step (reached_started k) (permitted_started k) rfl

end Machine

end Mixin
