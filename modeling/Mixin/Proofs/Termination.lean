import Mixin.Proofs.Image.Genuine
import Mixin.Proofs.MissingMethods
import Mixin.Proofs.Run.Grounded

/-! Sends end, while bodies do no more than make super calls and one of the receiver's handlers makes
none. If each of them makes one, that of the lowest goes to the handlers again. -/

namespace Mixin

open Effect

namespace Machine

variable {ω : Type} {k : Manners} {u : Setup} {m asker : Machine ω}

/-- Comes to go on with a reply, while what waited waits. -/
def Returns (m : Machine ω) (goesOn : Reply → Program ω) : Prop :=
  ∃ reply w op, m.Comes { current := .finished (goesOn reply) w, op, waiting := m.waiting }

theorem returns_of_grounded {lost : Call → Image → Prop} {r : Receiver} {n : Symbol}
    {args : List Value} {goesOn : Reply → Program ω} {w : World ω}
    (hcur : asker.current = .finished (.perform (.send r n args) goesOn) w)
    (h : Grounded w.code (w.image.prepare r n) lost r) :
    asker.Returns goesOn ∨ ∃ m', asker.Comes m' ∧ m'.Supers lost := by
  have hreaches := (h.halts_send args).reaches (f := fun reply w => .finished (goesOn reply) w)
    (T := fun y => ∃ reply w, y = .finished (goesOn reply) w) fun reply w _ =>
      Run.reaches_refl ⟨reply, w, rfl⟩
  obtain ⟨m', hcomes, hm'⟩ := hreaches (some (.send r n args)) asker.waiting
  have hstep : asker.step = .inr { current := (goesOn <$> send r n args) w,
                                   op := some (.send r n args), waiting := asker.waiting } := by
    rw [step, hcur]
    rfl
  rcases hm' with hlost | ⟨⟨reply, w', hcurrent⟩, hwaiting⟩
  · exact .inr ⟨m', hcomes.head hstep, hlost⟩
  · refine .inl ⟨reply, w', m'.op, ?_⟩
    rw [← hcurrent, ← hwaiting]
    exact hcomes.head hstep

theorem Reached.grounded {lost : Call → Image → Prop} (h : m.Reached k u) (hprompt : k.prompt = true)
    (hgate : k.offGate = true) (hgenuine : k.genuine = true) (hmeek : m.world.code.Meek)
    {r : Receiver} (hr : m.world.image.Alive r) (n : Symbol)
    (hbottom : (∃ x ∈ (m.world.image.prepare r n).handlers r, x.Calm m.world.code) ∨
      ∀ call image, call.receiver = r → call.PassedBack image → lost call image) :
    Grounded m.world.code (m.world.image.prepare r n) lost r := by
  have hs := h.sane.sound
  have horderly := (h.orderly hprompt hgate hgenuine).prepare r n
  have hr' : (m.world.image.prepare r n).Alive r := (Image.alive_prepare hs r r n).2 hr
  refine ⟨hmeek, fun x hx => ?_, horderly.slot hr' (.inr (by decide)), hbottom⟩
  rcases List.mem_append.1 hx with hx | hx
  · exact ((h.genuine hgate hgenuine).prepare hs r n).isStub_of_mem_chainFor horderly.sound hr'.known
      (List.mem_of_mem_dropLast hx)
  · obtain ⟨slot, hslot, hdefined⟩ := horderly.methodMissing hr'
    rw [List.mem_singleton.1 hx, Image.missingSlot, hslot]
    simpa [Slot.isDefined] using hdefined

/-- While bodies do no more than make super calls, a message to whoever is there, whatever its name and
arguments, comes to a reply, unless the lowest of the receiver's handlers makes a super call on the way,
for that goes to the handlers again. One handler that makes none is enough for every message to come to a
reply, and the default handler is such a one. -/
theorem Reached.send_returns (h : m.Reached k u) (hprompt : k.prompt = true)
    (hgate : k.offGate = true) (hgenuine : k.genuine = true) (hmeek : m.world.code.Meek)
    {r : Receiver} {n : Symbol} {args : List Value} {goesOn : Reply → Program ω}
    (hcur : asker.current = .finished (.perform (.send r n args) goesOn) m.world)
    (hr : m.world.image.Alive r) :
    (asker.Returns goesOn ∨ ∃ m', asker.Comes m' ∧
      m'.Supers fun call s => call.receiver = r ∧ call.PassedBack s) ∧
    ((∃ x ∈ (m.world.image.prepare r n).handlers r, x.Calm m.world.code) →
      asker.Returns goesOn) := by
  refine ⟨?_, fun hcalm => ?_⟩
  · exact returns_of_grounded hcur (h.grounded hprompt hgate hgenuine hmeek hr n
      (.inr fun _ _ hcall hpassed => ⟨hcall, hpassed⟩))
  · have hgrounded : Grounded m.world.code (m.world.image.prepare r n) (fun _ _ => False) r :=
      h.grounded hprompt hgate hgenuine hmeek hr n (.inl hcalm)
    rcases returns_of_grounded hcur hgrounded with hreturns | ⟨m', -, _, _, _, _, -, hlost⟩
    · exact hreturns
    · exact hlost.elim

def passingCode : Code Unit where
  bodies := #[fun call => .perform (.next call []) .reply]

theorem meek_passingCode : passingCode.Meek := by
  intro body hbody call
  rw [List.mem_singleton.1 (Array.mem_def.1 hbody)]
  exact .superCall rfl fun reply => .reply reply

/-- About to send the kernel what it does not understand, with a handler that passes it on. -/
def passing (owner : ModuleId) : Machine Unit where
  current := .finished (.perform (.send (.module .kernel) .initializer []) .reply)
    { image := ({} : Setup).boot.define owner .methodMissing (.program 0 true) true
      code := passingCode
      host := () }
  op := some (.define owner .methodMissing (.program 0 true))

theorem reached_passing {owner : ModuleId} (howner : ({} : Setup).boot.graph.Live owner)
    (hgate : owner ≠ .gate) : (passing owner).Reached k {} :=
  (Reached.start (.perform (.define owner .methodMissing (.program 0 true)) fun _ =>
    .perform (.send (.module .kernel) .initializer []) .reply) passingCode ()).define howner hgate rfl

/-- The modules' handler passes the message on to the default one. -/
theorem send_returns_passing :
    let s := (passing .moduleRoot).world.image.prepare (.module .kernel) .initializer
    s.handlers (.module .kernel) = [.defaultHandler, .program 0 true] ∧
      (passing .moduleRoot).Returns .reply ∧ ((passing .moduleRoot).run 10).map Prod.fst =
        some (.error (.undefinedMethod "initialize" "Kernel")) := by
  intro s
  have hhandlers : s.handlers (.module .kernel) = [.defaultHandler, .program 0 true] := by
    decide +kernel
  have hreached : (passing .moduleRoot).Reached { prompt := true, offGate := true, genuine := true } {} :=
    reached_passing ({} : Setup).sound_boot.live_moduleRoot nofun
  have hcur : (passing .moduleRoot).current = .finished
    (.perform (.send (.module .kernel) .initializer []) .reply) (passing .moduleRoot).world := rfl
  obtain ⟨-, hreturns⟩ := hreached.send_returns rfl rfl rfl meek_passingCode hcur
    hreached.sane.sound.live_kernel
  refine ⟨hhandlers, hreturns ⟨.defaultHandler, ?_, trivial⟩, by decide +kernel⟩
  show _ ∈ s.handlers _
  rw [hhandlers]
  exact List.mem_cons_self

def passingCall (args : List Value) : Call where
  receiver := .module .kernel
  name := .methodMissing
  args
  cursor := some ⟨[.program 0 true], 0⟩

/-- In this world the kernel's one handler is the first body. -/
structure Sole (w : World Unit) : Prop where
  code : w.code = passingCode
  slot : w.image.slot? (.module .kernel) .methodMissing = some (.chained (.program 0 true))
  chain : (w.image.chainFor (.module .kernel) .methodMissing).1 = [.program 0 true]

inductive Passes : Machine Unit → Prop where
  | calling {args : List Value} {w : World Unit} {resume : Reply → World Unit → Run Unit (Program Unit)}
      {op : Option Op} {waiting : List (Pending Unit)} : Sole w →
      Passes { current := .calling (.method (.program 0 true) (passingCall args)) w resume, op, waiting }
  | running {args : List Value} {w : World Unit} {op : Option Op} {waiting : List (Pending Unit)} :
      Sole w →
      Passes { current := .finished (.perform (.next (passingCall args) []) .reply) w, op, waiting }

theorem Sole.of_steadfast {w w' : World Unit} (h : Sole w) (hs : w.image.Steadfast w'.image)
    (hcode : w'.code = w.code) : Sole w' :=
  ⟨hcode.trans h.code, (hs.slot ..).trans h.slot, (hs.chain ..).trans h.chain⟩

theorem Sole.passes {x : Effect Unit Reply} {w w' : World Unit} {n : Symbol} {args : List Value}
    (h : Sole w') (hx : x w = reportMissing (.module .kernel) n args w') (op : Option Op)
    (waiting : List (Pending Unit)) : Passes { current := (Program.reply <$> x) w, op, waiting } := by
  rw [reportMissing_of_slot h.slot, enter_chained, h.chain] at hx
  rw [map_congr hx]
  have hsteadfast := Image.steadfast_chainFor w'.image (.module .kernel) .methodMissing
  exact .calling (h.of_steadfast hsteadfast rfl)

theorem Passes.step {m m' : Machine Unit} (h : Passes m) (hstep : m.step = .inr m') : Passes m' := by
  cases h with
  | @calling args w resume op waiting hw =>
    cases hstep
    have hstart : (Invocation.method (.program 0 true) (passingCall args)).start w =
        .finished (.perform (.next (passingCall args) []) .reply) w := by
      show Run.finished ((w.code.bodies[0]?.map _).getD _) w = _
      rw [hw.code]
      rfl
    rw [hstart]
    exact .running hw
  | @running args w op waiting hw =>
    cases hstep
    have hown : w.image.hasOwnHandler (.module .kernel) = true := by
      rw [Image.hasOwnHandler, hw.slot]
      rfl
    have hback : (passingCall args).PassedBack w.image := ⟨rfl, rfl, hown⟩
    obtain ⟨w', hw', hnext⟩ := hback.next_eq []
    exact (hw.of_steadfast hw'.steadfast hw'.code).passes hnext _ _

theorem sole_passing : Sole { (passing .kernel).world with
    image := (passing .kernel).world.image.prepare (.module .kernel) .initializer } :=
  ⟨rfl, by decide +kernel, by decide +kernel⟩

theorem passes_of_step {m : Machine Unit} (hstep : (passing .kernel).step = .inr m) : Passes m := by
  cases hstep
  have hnone : ((passing .kernel).world.image.prepare (.module .kernel) .initializer).slot?
      (.module .kernel) .initializer = none := by decide +kernel
  have hsend : send (.module .kernel) .initializer [] (passing .kernel).world = _ := send_eq
  rw [hnone] at hsend
  exact sole_passing.passes hsend _ _

/-- Once the kernel's handler passes messages on, one that the kernel does not understand goes to it
again and again. -/
theorem not_returns_passing :
    (passing .kernel).Reached { prompt := true, offGate := true, genuine := true } {} ∧
      (passing .kernel).world.code.Meek ∧ (passing .kernel).world.image.Alive (.module .kernel) ∧
      ¬ (passing .kernel).Returns .reply := by
  have hreached : (passing .kernel).Reached { prompt := true, offGate := true, genuine := true } {} :=
    reached_passing ({} : Setup).sound_boot.live_kernel nofun
  refine ⟨hreached, meek_passingCode, hreached.sane.sound.live_kernel, ?_⟩
  rintro ⟨reply, w, op, hcomes⟩
  rcases Relation.ReflTransGen.cases_head hcomes with hsame | ⟨m, hstep, hcomes⟩
  · cases congrArg Machine.current hsame
  · have hpasses := Comes.invariant hcomes (passes_of_step hstep) fun _ _ h hstep => h.step hstep
    cases hpasses

end Machine

end Mixin
