import Mixin.Proofs.ChainCache
import Mixin.Proofs.SlotPath

/-! Super calls. A chained send enters the receiver's chain at its end, and every super call of a
frame runs the implementation below the frame's, on the chain as it was when the message was sent.
Below the lowest implementation the message goes to the receiver's own handler, or there is none. -/

namespace Mixin

theorem Image.last_of_chained {s : Image} (hs : s.Sound) (hc : s.Coherent)
    (hrooted : s.graph.Rooted) {r : Receiver} (hr : s.Known r) {n : Symbol} {top : Method}
    (h : s.slot? r n = some (.chained top)) :
    ∃ x, (s.graph.chain (s.effectiveModule r) n).getLast? = some x ∧ top.sameBody x = true := by
  rcases slot_cases (n := n) hs hc hrooted hr with ⟨slot, x, hslot, himpl, hsame, -⟩ | ⟨-, hstub⟩
  · obtain rfl := Option.some.inj (h.symm.trans hslot)
    have hbody := Slot.sameBody_of_sameAs hsame
    rw [Slot.method_ofMethod] at hbody
    exact ⟨x, himpl, hbody⟩
  · exact absurd (hstub _ h) nofun

namespace Machine

open Effect Image

variable {ω : Type} {k : Manners} {u : Setup} {m : Machine ω}

/-- The frames of a walk by their places. Any number of super calls may be made from one frame, at
any time; each makes a frame one place further down. -/
inductive Walk (ω : Type) (top : Nat) (first : Call) : Nat → Call → Prop where
  | first : Walk ω top first top first
  | next {i : Nat} {call call' : Call} {x : Method} {m : Machine ω} {overrides : List Value}
      {goesOn : Reply → Program ω} {w : World ω} : Walk ω top first (i + 1) call →
      m.current = .finished (.perform (.next call overrides) goesOn) w →
      m.Enters (.method x call') goesOn → Walk ω top first i call'

theorem Walk.cursor_eq {L : List Method} {first call : Call} {i : Nat}
    (h : Walk ω (L.length - 1) first i call) (hne : L ≠ []) (hfirst : first.cursor = some (.top L)) :
    i < L.length ∧ call.cursor = some ⟨L, i⟩ ∧ call.receiver = first.receiver ∧
      call.name = first.name := by
  have hpos : 0 < L.length := List.length_pos_iff.2 hne
  induction h with
  | first => exact ⟨by omega, hfirst, rfl, rfl⟩
  | @next i call call' x m overrides goesOn w _ hcur henters ih =>
    obtain ⟨hlt, hcursor, hreceiver, hname⟩ := ih
    have hi : i < L.length := by omega
    have hbelow := enters_below hcur hcursor (List.getElem?_eq_getElem hi)
    have heq := (Invocation.method.inj (henters.unique hbelow)).2
    rw [heq]
    exact ⟨hi, rfl, hreceiver, hname⟩

/-- In a run with fewer than 2^64 edits, a send to a chained slot runs the last implementation of
the receiver's chain, and whatever is done in between, by whatever code, a super call of a frame
runs the one below with the frame's arguments under the overrides. Below the lowest the receiver's
own handler is run, or the call fails with what the receiver then describes itself as. -/
theorem Reached.super_walk (h : m.Reached k u) (hprompt : k.prompt = true)
    (hgate : k.offGate = true) (hgenuine : k.genuine = true)
    (hb : m.world.image.graph.edits < u.boot.graph.edits + 2 ^ 64) {r : Receiver} {n : Symbol}
    {args : List Value} {goesOn : Reply → Program ω} {w : World ω}
    (hcur : m.current = .finished (.perform (.send r n args) goesOn) w)
    (hr : w.image.Alive r) {top : Method} (hslot : w.image.slot? r n = some (.chained top)) :
    let L := w.image.graph.chain (w.image.effectiveModule r) n
    (∃ x, L[L.length - 1]? = some x ∧ top.sameBody x = true) ∧
    ∃ first : Call, m.Enters (.method top first) goesOn ∧
      first.receiver = r ∧ first.name = n ∧ first.args = args ∧
      ∀ i call, Walk ω (L.length - 1) first i call →
        ∀ (m' : Machine ω) (overrides : List Value) (goesOn' : Reply → Program ω) (w' : World ω),
          m'.current = .finished (.perform (.next call overrides) goesOn') w' →
          let args' := overrides ++ call.args.drop overrides.length
          (∀ j, i = j + 1 → ∃ x call', L[j]? = some x ∧ m'.Enters (.method x call') goesOn' ∧
            call'.receiver = r ∧ call'.name = n ∧ call'.args = args') ∧
          (i = 0 → ∀ slot, w'.image.slot? r .methodMissing = some slot →
            slot.method.sameBody .defaultHandler = false →
            ∃ call', m'.Enters (.method slot.method call') goesOn' ∧ call'.receiver = r ∧
              call'.name = .methodMissing ∧ call'.args = [.str (w'.image.text n), .list args']) ∧
          (i = 0 → (∀ slot, w'.image.slot? r .methodMissing = some slot →
              slot.method.sameBody .defaultHandler = true) →
            m'.Carries (describe r) fun who =>
              goesOn' (.error (.noSuperMethod (w'.image.text n) who))) := by
  intro L
  have hw : m.world = w := world_eq hcur
  have hs := h.sane.sound
  have hc := h.coherent hprompt
  have hrooted := h.rooted hgate hgenuine
  have hfresh := h.remembers.chainFor_fresh hb r n
  rw [hw] at hs hc hrooted hfresh
  obtain ⟨x, himpl, hbody⟩ := last_of_chained hs hc hrooted hr.known hslot
  have hne : L ≠ [] := List.ne_nil_of_mem (List.mem_of_getLast? himpl)
  have henters := enters_top hcur hslot
  rw [hfresh] at henters
  refine ⟨⟨x, List.getLast?_eq_getElem? ▸ himpl, hbody⟩, _, henters, rfl, rfl, rfl, ?_⟩
  intro i call hwalk m' overrides goesOn' w' hcur' args'
  obtain ⟨hlt, hcursor, rfl, rfl⟩ := hwalk.cursor_eq hne rfl
  refine ⟨?_, ?_, ?_⟩
  · rintro j rfl
    have hj : j < L.length := by omega
    have hx : L[j]? = some L[j] := List.getElem?_eq_getElem hj
    exact ⟨_, _, hx, enters_below hcur' hcursor hx, rfl, rfl, rfl⟩
  · rintro rfl slot hslot' hown
    obtain ⟨cursor, hhandler⟩ := enters_handler hcur' hcursor hslot' hown
    exact ⟨_, hhandler, rfl, rfl, rfl⟩
  · rintro rfl hslot'
    exact carries_failure hcur' hcursor hslot'

/-- The super call of a body that has redefined its method still runs the kernel's. -/
theorem super_walk_redefined : reopened.Enters (.method (.program 0 true) reopeningCall) .reply ∧
    ∃ call, redefined.Enters (.method (.native .inspect) call) .reply ∧
      call.receiver = .module .kernel ∧ call.name = .inspect ∧ call.args = [] := by
  have h := reached_reopened { prompt := true, offGate := true, genuine := true }
  obtain ⟨-, first, henters, -, -, -, hwalk⟩ := h.super_walk rfl rfl rfl (by decide +kernel) rfl
    h.sane.sound.live_kernel slot_reopened
  have hfirst : reopened.Enters (.method (.program 0 true) reopeningCall) .reply :=
    ⟨_, _, step_reopened⟩
  obtain rfl := (Invocation.method.inj (henters.unique hfirst)).2
  have hlength : (reopened.world.image.graph.chain
      (reopened.world.image.effectiveModule (.module .kernel)) .inspect).length - 1 = 1 := by
    decide +kernel
  have hlowest : (reopened.world.image.graph.chain
      (reopened.world.image.effectiveModule (.module .kernel)) .inspect)[0]? =
        some (.native .inspect) := by
    decide +kernel
  obtain ⟨hbelow, -⟩ := hwalk 1 _ (hlength ▸ .first) redefined [] .reply _ rfl
  obtain ⟨x, call, hx, hcall, hrest⟩ := hbelow 0 rfl
  obtain rfl := Option.some.inj (hx.symm.trans hlowest)
  exact ⟨henters, call, hcall, hrest⟩

end Machine

end Mixin
