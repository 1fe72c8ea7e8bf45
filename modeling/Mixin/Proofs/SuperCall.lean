import Mixin.Proofs.BoundCall
import Mixin.Proofs.Image.Confined
import Mixin.Proofs.Redefinition

/-! Where super calls of sent messages go. A body that was declared to make super calls is entered
with its place in the chain; one that was not gets a place at its first super call, which is that of
the most specific implementation there is by then. So if the body has put something more specific on
its receiver in between, it is taken for that and runs itself again, or one that came in behind it. -/

namespace Mixin

namespace Graph

variable {g : Graph} {n : Symbol} {x : Method}

theorem exists_split_of_last {ms : List ModuleId} (h : (g.defined n ms).getLast? = some x) :
    ∃ before c after, ms = before ++ c :: after ∧ (g.node c).methods[n]? = some x ∧
      g.defined n after = [] := by
  induction ms using List.reverseRecOn with
  | nil => cases h
  | append_singleton ms c ih =>
    rw [defined_append, defined_cons] at h
    cases hc : (g.node c).methods[n]? with
    | some y =>
      rw [hc] at h
      have hx : y = x := by simpa [defined] using h
      exact ⟨ms, c, [], rfl, by rw [hc, hx], rfl⟩
    | none =>
      rw [hc] at h
      have hms : (g.defined n ms).getLast? = some x := by simpa [defined] using h
      obtain ⟨before, d, after, rfl, hd, hafter⟩ := ih hms
      refine ⟨before, d, after ++ [c], by simp, hd, ?_⟩
      rw [defined_append, hafter, defined_cons, hc]
      rfl

end Graph

namespace Machine

open Effect Image

variable {ω : Type} {k : Manners} {u : Setup} {m : Machine ω}

/-- The next step runs the last of these implementations, or the super call is exhausted if there are
none. -/
def GoesTo (m : Machine ω) (below : List Method) (b : BoundMethod) (args : List Value)
    (goesOn : Reply → Program ω) : Prop :=
  (∀ y, below.getLast? = some y → ∃ call, m.Enters (.method y call) goesOn ∧
    call.receiver = b.receiver ∧ call.name = b.name ∧ call.args = args) ∧
  (below = [] → m.Carries (refresh b >>= fun _ => exhausted b.receiver b.name args) goesOn)

section Next

variable {b : BoundMethod} {args overrides : List Value} {L : List Method} {first : Call}
  {goesOn : Reply → Program ω} {w : World ω}
  (hcur : m.current = .finished (.perform (.next first overrides) goesOn) w)
  (hnext : next first overrides m.world =
    (refresh b >>= fun _ => next (boundFrame b args L) overrides) m.world)
include hcur hnext

theorem goesTo_of_last {below : List Method} {z : Method} (hL : L = below ++ [z]) :
    m.GoesTo below b (overrides ++ args.drop overrides.length) goesOn := by
  refine ⟨fun y hy => ?_, fun hempty => ?_⟩
  · obtain ⟨front, rfl⟩ := List.getLast?_eq_some_iff.1 hy
    have hlength : front.length + 2 = L.length := by simp [hL]
    have hi : L[front.length]? = some y := by simp [hL]
    exact ⟨_, enters_second hcur hnext hlength hi, rfl, rfl, rfl⟩
  · exact carries_exhausted hcur hnext (by simp [hL, hempty])

/-- Where there is more behind an implementation, the frame does not get below it. -/
theorem enters_again {below after : List Method} {z : Method} (hL : L = below ++ z :: after)
    (hafter : after ≠ []) : ∃ y ∈ z :: after, ∃ call, m.Enters (.method y call) goesOn := by
  have hpos : 0 < after.length := List.length_pos_iff.2 hafter
  have hlength : below.length + (after.length - 1) + 2 = L.length := by
    rw [hL, List.length_append, List.length_cons]
    omega
  have hlt : after.length - 1 < (z :: after).length := by
    rw [List.length_cons]
    omega
  have hi : L[below.length + (after.length - 1)]? = some (z :: after)[after.length - 1] := by
    rw [hL, List.getElem?_append_right (Nat.le_add_right ..), Nat.add_sub_cancel_left,
      List.getElem?_eq_getElem hlt]
  exact ⟨_, List.getElem_mem hlt, _, enters_second hcur hnext hlength hi⟩

end Next

theorem Reached.enters_sent (h : m.Reached k u) (hprompt : k.prompt = true)
    (hgate : k.offGate = true) (hgenuine : k.genuine = true)
    (hb : m.world.image.graph.edits < u.boot.graph.edits + 2 ^ 64) {r : Receiver} {n : Symbol}
    {args : List Value} {goesOn : Reply → Program ω} {w : World ω}
    (hcur : m.current = .finished (.perform (.send r n args) goesOn) w) (hr : w.image.Alive r)
    {x : Method} (htop : (w.image.lookup r n).getLast? = some x) :
    ∃ (slot : Slot) (first : Call), slot.sameAs (.ofMethod x) = true ∧
      m.Enters (.method slot.method first) goesOn ∧
      first.receiver = r ∧ first.name = n ∧ first.args = args ∧
      ∀ (m' : Machine ω) (overrides : List Value), m'.Reached k u →
        m'.world.image.graph.edits < u.boot.graph.edits + 2 ^ 64 →
        next first overrides m'.world = (refresh ⟨r, n, slot⟩ >>= fun _ =>
          next (boundFrame ⟨r, n, slot⟩ args
            (BoundMethod.chain ⟨r, n, slot⟩ w.image m'.world.image)) overrides) m'.world := by
  obtain rfl : m.world = w := world_eq hcur
  obtain ⟨slot, hslot, hsame⟩ := exists_slot_of_last h.sane.sound (h.coherent hprompt)
    (h.rooted hgate hgenuine) hr.known htop
  have hcarries : m.Carries (callBound ⟨r, n, slot⟩ args) goesOn :=
    (carries_perform hcur).congr (map_congr (send_of_slot hslot) goesOn)
  obtain ⟨first, henters, hfirst⟩ := h.enters_slot hb hcarries
  exact ⟨slot, first, hsame, henters, hfirst⟩

/-- In a run with fewer than 2^64 edits, a send runs the last implementation of the receiver's chain.
If that was declared to make super calls, then whatever the body does first, its super call goes to
what was below it when the message was sent, where it stands again only if it is in the chain more than
once. If it was not, the super call goes to what is below it by then as long as no module behind its own
implements the name; once one does, the body itself runs again, or one of those behind it. -/
theorem Reached.super_call (h : m.Reached k u) (hprompt : k.prompt = true)
    (hgate : k.offGate = true) (hgenuine : k.genuine = true)
    (hb : m.world.image.graph.edits < u.boot.graph.edits + 2 ^ 64) {r : Receiver} {n : Symbol}
    {args : List Value} {goesOn : Reply → Program ω} {w : World ω}
    (hcur : m.current = .finished (.perform (.send r n args) goesOn) w) (hr : w.image.Alive r)
    {x : Method} (htop : (w.image.lookup r n).getLast? = some x) :
    ∃ (slot : Slot) (first : Call) (before after : List ModuleId) (c : ModuleId),
      slot.sameAs (.ofMethod x) = true ∧ m.Enters (.method slot.method first) goesOn ∧
      first.receiver = r ∧ first.name = n ∧ first.args = args ∧
      w.image.graph.ancestors (w.image.effectiveModule r) = before ++ c :: after ∧
      (w.image.graph.node c).methods[n]? = some x ∧ w.image.graph.defined n after = [] ∧
      ((w.image.lookup r n).countP (·.sameBody x) = 1 →
        ∀ y ∈ w.image.graph.defined n before, y.sameBody x = false) ∧
      ∀ (m' : Machine ω) (overrides : List Value) (goesOn' : Reply → Program ω) (w' : World ω),
        m'.Reached k u → m'.world.image.graph.edits < u.boot.graph.edits + 2 ^ 64 →
        m'.current = .finished (.perform (.next first overrides) goesOn') w' →
        let args' := overrides ++ args.drop overrides.length
        let g' := w'.image.graph
        (x.callsNext = true →
          m'.GoesTo (w.image.graph.defined n before) ⟨r, n, slot⟩ args' goesOn') ∧
        (x.callsNext = false → ∀ (before' after' : List ModuleId) (z : Method),
          g'.ancestors (w'.image.effectiveModule r) = before' ++ c :: after' →
          (g'.node c).methods[n]? = some z →
          (g'.defined n after' = [] →
            m'.GoesTo (g'.defined n before') ⟨r, n, slot⟩ args' goesOn') ∧
          (g'.defined n after' ≠ [] → ∃ y ∈ z :: g'.defined n after',
            ∃ call, m'.Enters (.method y call) goesOn')) := by
  obtain ⟨slot, first, hsame, henters, hreceiver, hname, hargs, hnext⟩ :=
    h.enters_sent hprompt hgate hgenuine hb hcur hr htop
  have hlookup : w.image.lookup r n =
      w.image.graph.defined n (w.image.graph.ancestors (w.image.effectiveModule r)) :=
    Graph.chain_eq_defined ..
  obtain ⟨before, c, after, hsplit, hc, hafter⟩ :=
    Graph.exists_split_of_last (hlookup ▸ htop)
  have hchain : w.image.lookup r n = w.image.graph.defined n before ++ [x] := by
    rw [hlookup, hsplit, Graph.defined_append, Graph.defined_cons, hc, hafter]
    rfl
  refine ⟨slot, first, before, after, c, hsame, henters, hreceiver, hname, hargs, hsplit, hc, hafter,
    fun hcount y hy => ?_, ?_⟩
  · have hnone : (w.image.graph.defined n before).countP (·.sameBody x) = 0 := by
      simpa [hchain, Method.sameBody] using hcount
    simpa using List.countP_eq_zero.1 hnone y hy
  intro m' overrides goesOn' w' hm' hb' hcur'
  obtain rfl : m'.world = w' := world_eq hcur'
  have hact := hnext m' overrides hm' hb'
  refine ⟨fun hcalls => ?_, fun hcalls before' after' z hsplit' hz => ?_⟩
  · obtain ⟨y, rfl⟩ : ∃ y, slot = .chained y := by
      cases slot with
      | direct y => simp [Slot.sameAs, Slot.ofMethod, hcalls] at hsame
      | chained y => exact ⟨y, rfl⟩
    exact goesTo_of_last hcur' hact hchain
  · obtain ⟨y, rfl⟩ : ∃ y, slot = .direct y := by
      cases slot with
      | direct y => exact ⟨y, rfl⟩
      | chained y => simp [Slot.sameAs, Slot.ofMethod, hcalls] at hsame
    have hchain' : m'.world.image.lookup r n =
        m'.world.image.graph.defined n before' ++ z :: m'.world.image.graph.defined n after' := by
      rw [lookup, Graph.chain_eq_defined, hsplit', Graph.defined_append, Graph.defined_cons, hz]
      rfl
    refine ⟨fun hlast => ?_, fun hmore => ?_⟩
    · rw [hlast] at hchain'
      exact goesTo_of_last hcur' hact hchain'
    · exact enters_again hcur' hact hchain' hmore

/-- The first body puts a source onto its receiver and then makes a super call. -/
def extendingCode (source : Source) : Code Unit where
  bodies := #[
    fun call => .perform (.extend call.receiver source) fun _ => .perform (.next call []) .reply,
    fun _ => .reply (.ok .void)]

/-- The modules have been given an `inspect` that was not declared to make super calls. -/
def opened : Image := ({} : Setup).boot.define .moduleRoot .inspect (.program 0 false) true

def sending (source : Source) : Machine Unit where
  current := .finished (.perform (.send (.module .kernel) .inspect []) .reply)
    { image := opened, code := extendingCode source, host := () }
  op := some (.define .moduleRoot .inspect (.program 0 false))

def openedCall : Call where
  receiver := .module .kernel
  name := .inspect
  args := []

def extended (source : Source) : Machine Unit where
  current := .finished (.perform (.next openedCall []) .reply)
    { image := opened.absorb source (.onto (.module .kernel))
      code := extendingCode source
      host := () }
  op := some (.extend (.module .kernel) source)
  waiting := [{
    op := some (.send (.module .kernel) .inspect [])
    invocation := .method (.program 0 false) openedCall
    resume := fun reply w => .finished (.reply reply) w }]

theorem lookup_opened : opened.lookup (.module .kernel) .inspect =
    [.native .inspect, .program 0 false] := by
  decide +kernel

theorem send_opened (source : Source) : send (.module .kernel) .inspect [] (sending source).world =
    invoke (.method (.program 0 false) openedCall) (sending source).world := by
  have hslot : (sending source).world.image.slot? (.module .kernel) .inspect =
      some (.direct (.program 0 false)) := by
    show opened.slot? (.module .kernel) .inspect = _
    decide +kernel
  exact send_of_slot hslot

theorem enters_sending (source : Source) :
    (sending source).Enters (.method (.program 0 false) openedCall) .reply := by
  have hcarries : (sending source).Carries (Op.send (.module .kernel) .inspect []).act .reply :=
    carries_perform rfl
  exact hcarries.enters (send_opened source)

theorem reached_sending (source : Source) : (sending source).Reached k {} :=
  (Reached.start (.perform (.define .moduleRoot .inspect (.program 0 false)) fun _ =>
    .perform (.send (.module .kernel) .inspect []) .reply) (extendingCode source) ()).define
      ({} : Setup).sound_boot.live_moduleRoot nofun rfl

theorem reached_extended {source : Source} (hmodules : source.modules = [])
    (hmethods : ∀ x ∈ source.methods, x.isStub = false) : (extended source).Reached k {} := by
  have h₀ : (sending source).Reached k {} := reached_sending source
  have hkernel : ∀ r ∈ [Receiver.module .kernel], opened.Alive r := fun r hr => by
    rw [List.mem_singleton.1 hr]
    exact h₀.sane.sound.live_kernel
  have h₁ : ({ (sending source) with
      current := (send (.module .kernel) .inspect [] (sending source).world).bind fun reply w =>
        .finished (.reply reply) w
      op := some (.send (.module .kernel) .inspect []) } : Machine Unit).Reached k {} :=
    h₀.step ⟨trivial, hkernel, nofun⟩ rfl
  rw [send_opened] at h₁
  have h₂ := h₁.step trivial rfl
  have hextend : (Op.extend (.module .kernel) source).act (sending source).world =
      .finished (.ok (.module .kernel))
        { (sending source).world with image := opened.absorb source (.onto (.module .kernel)) } :=
    extend_eq ⟨rfl, fun m hm => by rw [hmodules] at hm; exact absurd hm List.not_mem_nil⟩
  refine h₂.step ⟨fun _ => hmethods, fun r hr => ?_, nofun⟩ (step_perform hextend)
  rw [Op.subjects, hmodules] at hr
  exact hkernel r hr

/-- As long as nothing has come in behind the body, its super call runs the native method below. -/
theorem super_call_opened :
    let source := Source.record [] [] []
    ∃ first : Call, (sending source).Enters (.method (.program 0 false) first) .reply ∧
      first.args = [] ∧
      ∃ call, (extended source).Enters (.method (.native .inspect) call) .reply ∧
        call.receiver = .module .kernel ∧ call.name = .inspect ∧ call.args = [] := by
  intro source
  have hsending : (sending source).Reached { prompt := true, offGate := true, genuine := true } {} :=
    reached_sending source
  have hextended : (extended source).Reached { prompt := true, offGate := true, genuine := true } {} :=
    reached_extended rfl nofun
  have htop : (opened.lookup (.module .kernel) .inspect).getLast? = some (.program 0 false) := by
    rw [lookup_opened]
    rfl
  obtain ⟨slot, first, before, after, c, -, henters, -, -, hargs, hsplit, hc, -, -, hnext⟩ :=
    hsending.super_call rfl rfl rfl (by decide +kernel) rfl hsending.sane.sound.live_kernel htop
  obtain ⟨hmethod, rfl⟩ := Invocation.method.inj ((enters_sending source).unique henters)
  obtain rfl : c = .moduleRoot := by
    have hancestors : opened.graph.ancestors (opened.effectiveModule (.module .kernel)) =
        [.kernel, .moduleRoot] := by decide +kernel
    have hmem : c ∈ opened.graph.ancestors (opened.effectiveModule (.module .kernel)) := by
      rw [hsplit]
      exact List.mem_append_right _ List.mem_cons_self
    rw [hancestors, List.mem_pair] at hmem
    refine hmem.resolve_left ?_
    rintro rfl
    revert hc
    decide +kernel
  obtain ⟨hbelow, -⟩ := (hnext (extended source) [] .reply _ hextended (by decide +kernel) rfl).2 rfl
    [.kernel] [⟨4⟩] (.program 0 false) (by decide +kernel) (by decide +kernel)
  obtain ⟨call, hcall, hrest⟩ := (hbelow (by decide +kernel)).1 (.native .inspect)
    (by decide +kernel)
  exact ⟨openedCall, enters_sending source, hargs, call, hcall, hrest⟩

/-- Once the body has put another implementation on its receiver, its super call runs it once more,
and not the native method that was below it. -/
theorem super_call_extended :
    let source := Source.record [("inspect", .program 1 false)] [] []
    (sending source).Reached { prompt := true, offGate := true, genuine := true } {} ∧
    opened.Alive (.module .kernel) ∧
    opened.lookup (.module .kernel) .inspect = [.native .inspect, .program 0 false] ∧
    (sending source).Enters (.method (.program 0 false) openedCall) .reply ∧
    (extended source).Reached { prompt := true, offGate := true, genuine := true } {} ∧
    (∃ call, (extended source).Enters (.method (.program 0 false) call) .reply) ∧
    ¬ ∃ call, (extended source).Enters (.method (.native .inspect) call) .reply := by
  intro source
  have hsource : ∀ x ∈ source.methods, x.isStub = false := by decide
  have hchain : ((extended source).world.image.chainFor (.module .kernel) .inspect).1 =
      [.native .inspect, .program 0 false, .program 1 false] := by
    decide +kernel
  have hplace : some (Cursor.top ((extended source).world.image.chainFor (.module .kernel)
      .inspect).1) = some ⟨[.native .inspect, .program 0 false, .program 1 false], 2⟩ := by
    rw [hchain]
    rfl
  have hcarries : (extended source).Carries (next openedCall []) .reply := by
    show Carries _ (Op.next openedCall []).act _
    exact carries_perform rfl
  have hagain : ∃ call, (extended source).Enters (.method (.program 0 false) call) .reply :=
    ⟨_, hcarries.enters ((next_of_cursorless rfl).trans (next_of_below hplace rfl))⟩
  refine ⟨reached_sending source, ?_, lookup_opened, enters_sending source,
    reached_extended rfl hsource, hagain, ?_⟩
  · exact (reached_sending (k := {}) source).sane.sound.live_kernel
  · rintro ⟨call, hnative⟩
    obtain ⟨_, hagain⟩ := hagain
    have hsame := (Invocation.method.inj (hagain.unique hnative)).1
    cases hsame

end Machine

end Mixin
