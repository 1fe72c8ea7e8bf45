import Mixin.Proofs.ChainCache
import Mixin.Proofs.Image.Watching
import Mixin.Proofs.Run.Roamed

/-! Messages that a receiver does not understand. They go to its `method_missing`, by way of a stub of
the gate or, if their name is reserved, without one; a stub that is missing is put in on the way, and
nobody can tell. -/

namespace Mixin

namespace Image

variable {s : Image} {r : Receiver} {n : Symbol}

/-- Tables, stubs and the gate's lists are in order. -/
structure Orderly (s : Image) : Prop where
  sound : s.Sound
  coherent : s.Coherent
  rooted : s.graph.Rooted
  secure : s.Secure true

theorem mem_watched_watchNow (h : n ∉ s.gate.reserved) : n ∈ (s.watchNow n).gate.watched := by
  rw [(Twin.of_watchNow s n).gate, watch]
  split
  · exact List.mem_cons_self
  · rename_i hadmits
    rw [Gate.admits_iff, not_and, not_not] at hadmits
    exact hadmits h

theorem watchNow_of_reserved (h : n ∈ s.gate.reserved) : s.watchNow n = s := by
  refine if_neg fun hadmits => ?_
  exact (Gate.admits_iff.1 hadmits).1 h

namespace Orderly

variable (h : s.Orderly)
include h

theorem prepare (r : Receiver) (n : Symbol) : (s.prepare r n).Orderly := by
  have hsecure := (fares_prepare h.secure r n).secure
  unfold Image.prepare at hsecure ⊢
  split
  · exact h
  · rename_i hnone
    rw [if_neg hnone] at hsecure
    exact ⟨(Akin.watchNow h.sound n).sound h.sound, h.coherent.watchNow h.sound n,
      rooted_watchNow h.sound h.rooted n, hsecure⟩

variable (hr : s.Alive r)
include hr

theorem slot (hn : n ∈ s.gate.watched ∨ n ∈ Native.names) : ∃ slot, s.slot? r n = some slot :=
  Covered.slot (h.secure.covered rfl) h.secure.moored hr.hasRecord hn

theorem unseen_prepare (n : Symbol) : Unseen s (s.prepare r n) := by
  unfold Image.prepare
  split
  · exact .refl h.sound
  · rename_i hnone
    refine unseen_watchNow h.sound h.coherent h.rooted h.secure.gated fun hn => hnone ?_
    obtain ⟨slot, hslot⟩ := h.slot hr (.inr hn)
    rw [hslot]
    rfl

theorem methodMissing_prepare (n : Symbol) :
    (s.prepare r n).slot? r .methodMissing = s.slot? r .methodMissing := by
  unfold Image.prepare
  split
  · rfl
  · by_cases hn : Symbol.methodMissing = n
    · rw [← hn, watchNow_of_reserved h.secure.gated.methodMissing]
    · exact slot_watchNow h.sound h.coherent hr hn

section Miss

variable (hmiss : s.respondsTo r n = false)
include hmiss

/-- All that can be behind a slot for a message that is not understood is a stub of the gate. -/
theorem stub_of_slot {slot : Slot} (hslot : s.slot? r n = some slot) :
    n ∈ s.gate.watched ∧ ∃ x, slot = .direct x ∧ x.body = .stub n := by
  have hchain : s.graph.chain (s.effectiveModule r) n = [] := by
    by_contra hne
    have hresponds := (respondsTo_iff_chain h.sound h.coherent h.rooted hr.known).2 hne
    exact Bool.false_ne_true (hmiss.symm.trans hresponds)
  have himpl : s.graph.implementation? (s.effectiveModule r) n = none := by
    rw [Graph.implementation?, hchain]
    rfl
  obtain ⟨t, ht, htable⟩ := h.sound.target_effectiveModule hr.known
  have hagree := h.coherent _ t ht id n
  rw [htable, ← slot?, hslot, h.rooted.definition?_eq ht, himpl, Option.none_or,
    h.secure.gated.stubs n] at hagree
  split at hagree
  · rename_i hwatched
    refine ⟨hwatched, ?_⟩
    cases slot with
    | direct x => exact ⟨x, rfl, of_decide_eq_true hagree⟩
    | chained x => cases hagree
  · exact hagree.elim

theorem slot_eq_none (hreserved : n ∈ s.gate.reserved) : s.slot? r n = none := by
  cases hslot : s.slot? r n with
  | none => rfl
  | some slot =>
    exact absurd hreserved (h.secure.gated.apart n (h.stub_of_slot hr hmiss hslot).1)

theorem prepare_of_reserved (hreserved : n ∈ s.gate.reserved) : s.prepare r n = s := by
  rw [Image.prepare, h.slot_eq_none hr hmiss hreserved]
  exact watchNow_of_reserved hreserved

theorem stub_prepare (hreserved : n ∉ s.gate.reserved) :
    ∃ x, (s.prepare r n).slot? r n = some (.direct x) ∧ x.body = .stub n := by
  have h' := h.prepare r n
  have hr' : (s.prepare r n).Alive r := (alive_prepare h.sound r r n).2 hr
  have hmiss' : (s.prepare r n).respondsTo r n = false := by
    rw [respondsTo, (h.unseen_prepare hr n).definedSlot r hr n]
    exact hmiss
  obtain ⟨slot, hslot⟩ : ∃ slot, (s.prepare r n).slot? r n = some slot := by
    cases hold : s.slot? r n with
    | some slot =>
      have hsame : s.prepare r n = s := by rw [Image.prepare, hold]; rfl
      exact ⟨slot, by rw [hsame, hold]⟩
    | none =>
      refine h'.slot hr' (.inl ?_)
      rw [Image.prepare, hold]
      exact mem_watched_watchNow hreserved
  obtain ⟨-, x, rfl, hx⟩ := h'.stub_of_slot hr' hmiss' hslot
  exact ⟨x, hslot, hx⟩

end Miss

theorem methodMissing :
    ∃ slot, s.slot? r .methodMissing = some slot ∧ slot.isDefined = true := by
  obtain ⟨slot, hslot⟩ := h.slot (n := .methodMissing) hr (.inr (by decide))
  refine ⟨slot, hslot, ?_⟩
  by_contra hstub
  have hmiss : s.respondsTo r .methodMissing = false := by
    rw [← Bool.not_eq_true, respondsTo_iff]
    rintro ⟨x, hx, hdefined⟩
    obtain rfl := Option.some.inj (hslot.symm.trans hx)
    exact hstub hdefined
  have hwatched := (h.stub_of_slot hr hmiss hslot).1
  exact h.secure.gated.apart _ hwatched h.secure.gated.methodMissing

end Orderly

end Image

namespace Effect

open Image

variable {ω : Type} {w : World ω} {r : Receiver} {n : Symbol} {args : List Value}

theorem start_of_stub {x : Method} (hx : x.body = .stub n) (call : Call) :
    ((Invocation.method x call).start : Effect ω (Program ω)) =
      .reply <$> reportMissing call.receiver n call.args := by
  unfold Invocation.start
  simp only [hx]

theorem start_of_default {x : Method} (hx : x.sameBody .defaultHandler = true) (text : String)
    (cursor : Option Cursor) : ((Invocation.method x ⟨r, .methodMissing,
      [.str text, .list args], cursor⟩).start : Effect ω (Program ω)) =
      (fun who => .reply (.error (.undefinedMethod text who))) <$> describe r := by
  have hbody : x.body = .native .methodMissing := of_decide_eq_true hx
  unfold Invocation.start
  simp only [hbody]
  funext w
  exact Run.bind_assoc (describe r w) _ _

section Miss

variable (h : w.image.Orderly) (hr : w.image.Alive r) (hmiss : w.image.respondsTo r n = false)
  {slot : Slot} (hslot : w.image.slot? r .methodMissing = some slot)
include h hr hmiss hslot

theorem send_reserved (hreserved : n ∈ w.image.gate.reserved) : send r n args w =
    enter r .methodMissing slot [.str (w.image.text n), .list args] w := by
  rw [send_eq, h.prepare_of_reserved hr hmiss hreserved, h.slot_eq_none hr hmiss hreserved]
  exact reportMissing_of_slot hslot

/-- A stub is invoked, and does what would be done without it. -/
theorem send_stub (args : List Value) (hreserved : n ∉ w.image.gate.reserved) :
    ∃ x, x.body = .stub n ∧
      let i : Invocation := .method x ⟨r, n, args, none⟩
      let handle : Effect ω Reply :=
        enter r .methodMissing slot [.str (w.image.text n), .list args]
      let w' := { w with image := w.image.prepare r n }
      send r n args w = invoke i w' ∧ i.start w' = (.reply <$> handle : Effect ω (Program ω)) w' := by
  obtain ⟨x, hstub, hx⟩ := h.stub_prepare hr hmiss hreserved
  refine ⟨x, hx, ?_, ?_⟩
  · rw [send_eq, hstub]
    rfl
  · have htext : (w.image.prepare r n).text n = w.image.text n :=
      congrArg (SymbolTable.text · n) (h.unseen_prepare hr n).symbols
    have hreport : reportMissing r n args { w with image := w.image.prepare r n } = _ :=
      reportMissing_of_slot ((h.methodMissing_prepare hr n).trans hslot)
    rw [htext] at hreport
    rw [start_of_stub hx]
    exact map_congr hreport _

end Miss

end Effect

namespace Machine

open Effect Image

variable {ω : Type} {k : Manners} {u : Setup} {m : Machine ω}

/-- The machine comes to a stub for the name, and the stub carries out the effect; what the stub
replies, the program goes on with. -/
def Forwards (m : Machine ω) (n : Symbol) (x : Effect ω Reply) (w : World ω)
    (goesOn : Reply → Program ω) : Prop :=
  ∃ (stub : Method) (call : Call) (op : Option Op), stub.body = .stub n ∧
    let resume := fun reply w => Run.finished (goesOn reply) w
    let invoked : Machine ω :=
      { current := .calling (.method stub call) w resume, op, waiting := m.waiting }
    m.step = .inr invoked ∧ invoked.step = .inr {
      current := (.reply <$> x) w
      waiting := { op, invocation := .method stub call, resume } :: m.waiting }

theorem Reached.orderly (h : m.Reached k u) (hprompt : k.prompt = true) (hgate : k.offGate = true)
    (hgenuine : k.genuine = true) : m.world.image.Orderly where
  sound := h.sane.sound
  coherent := h.coherent hprompt
  rooted := h.rooted hgate hgenuine
  secure := hprompt ▸ (h.roamed.sturdy hgate).secure

theorem Reached.remembers_prepare (h : m.Reached k u) (r : Receiver) (n : Symbol) :
    (m.world.image.prepare r n).Remembers u.boot.graph.edits := by
  unfold prepare
  split
  · exact h.remembers
  · exact Edit.remembers (e := .watchNow n) h.sane.sound trivial h.remembers

/-- What a receiver does not understand goes to its `method_missing` as it was before the send, with the
message's name and arguments, from the send itself if the name is reserved and from a stub if not; in a
run with fewer than 2^64 edits the chain that is entered is the one looked up before, too. The default
handler fails for the message. The stub may be there already or put in by the send, which changes
nothing else that can be seen. -/
theorem Reached.send_missing (h : m.Reached k u) (hprompt : k.prompt = true)
    (hgate : k.offGate = true) (hgenuine : k.genuine = true) {r : Receiver} {n : Symbol}
    {args : List Value} {goesOn : Reply → Program ω} {w : World ω}
    (hcur : m.current = .finished (.perform (.send r n args) goesOn) w) (hr : w.image.Alive r)
    (hmiss : w.image.respondsTo r n = false) :
    let s := w.image
    let s' := s.prepare r n
    let message : List Value := [.str (s.text n), .list args]
    Unseen s s' ∧ ∃ slot, s.slot? r .methodMissing = some slot ∧ slot.isDefined = true ∧
      let handle : Effect ω Reply := enter r .methodMissing slot message
      (n ∈ s.gate.reserved → s' = s ∧ m.Carries handle goesOn) ∧
      (n ∉ s.gate.reserved → m.Forwards n handle { w with image := s' } goesOn) ∧
      (s'.graph.edits < u.boot.graph.edits + 2 ^ 64 →
        (s'.chainFor r .methodMissing).1 = s.lookup r .methodMissing) ∧
      (slot.method.sameBody .defaultHandler = true → ∀ cursor,
        ((Invocation.method slot.method ⟨r, .methodMissing, message, cursor⟩).start :
          Effect ω (Program ω)) =
          (fun who => .reply (.error (.undefinedMethod (s.text n) who))) <$> describe r) := by
  obtain rfl : m.world = w := world_eq hcur
  intro s s' message
  have ho : s.Orderly := h.orderly hprompt hgate hgenuine
  have hunseen : Unseen s s' := ho.unseen_prepare hr n
  obtain ⟨slot, hslot, hdefined⟩ := ho.methodMissing hr
  refine ⟨hunseen, slot, hslot, hdefined, fun hreserved => ?_, fun hreserved => ?_, fun hb => ?_,
    fun hdefault cursor => start_of_default hdefault _ cursor⟩
  · refine ⟨ho.prepare_of_reserved hr hmiss hreserved, (carries_perform hcur).congr ?_⟩
    exact map_congr (send_reserved ho hr hmiss hslot hreserved) goesOn
  · obtain ⟨x, hx, hsend, hstart⟩ := send_stub ho hr hmiss hslot args hreserved
    obtain ⟨op, hstep⟩ := (carries_perform hcur).step hsend
    refine ⟨x, _, op, hx, hstep, ?_⟩
    show Sum.inr _ = _
    rw [hstart]
  · rw [(h.remembers_prepare r n).chainFor_fresh hb]
    exact hunseen.lookup r hr .methodMissing

def lettered : Image := (({} : Setup).boot.intern "fly").2

def fly : Symbol := (({} : Setup).boot.intern "fly").1

def asking : Machine Unit where
  current := .finished (.perform (.send (.module .kernel) fly [.bool true]) .reply)
    { image := lettered, host := () }
  op := some (.intern "fly")

theorem reached_asking : asking.Reached k {} :=
  .step (.start (.perform (.intern "fly") fun n => .perform (.send (.module .kernel) n [.bool true])
    .reply) {} ()) ⟨trivial, nofun, nofun⟩ (step_perform rfl)

/-- The name comes under watch, unseen, and the default handler fails for it. -/
theorem send_missing_asking :
    let s' := lettered.prepare (.module .kernel) fly
    let message : List Value := [.str "fly", .list [.bool true]]
    lettered.respondsTo (.module .kernel) fly = false ∧ s'.gate.watched = [fly] ∧
      Unseen lettered s' ∧
      asking.Forwards fly (enter (.module .kernel) .methodMissing (.direct .defaultHandler) message)
        { image := s', host := () } .reply ∧
      ((Invocation.method .defaultHandler ⟨.module .kernel, .methodMissing, message, none⟩).start :
        Effect Unit (Program Unit)) =
        (fun who => .reply (.error (.undefinedMethod "fly" who))) <$> describe (.module .kernel) := by
  intro s' message
  have hmiss : lettered.respondsTo (.module .kernel) fly = false := by decide +kernel
  have hr : lettered.Alive (.module .kernel) := by decide +kernel
  have htext : lettered.text fly = "fly" := by decide +kernel
  have hhandler : lettered.slot? (.module .kernel) .methodMissing =
      some (.direct .defaultHandler) := by
    decide +kernel
  obtain ⟨hunseen, slot, hslot, -, -, hforwards, -, hdefault⟩ :=
    (reached_asking (k := { prompt := true, offGate := true, genuine := true })).send_missing
      rfl rfl rfl rfl hr hmiss
  obtain rfl := Option.some.inj (hhandler.symm.trans hslot)
  dsimp only at hforwards hdefault
  rw [htext] at hforwards hdefault
  exact ⟨hmiss, by decide +kernel, hunseen, hforwards (by decide +kernel), hdefault rfl none⟩

end Machine

end Mixin
