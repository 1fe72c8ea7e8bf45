import Mixin.Proofs.Image.Answering
import Mixin.Proofs.Resolution
import Mixin.Proofs.Run.Roamed

/-! Everybody is answered by the kernel. Tables are made, shared and lag behind deferred edits, but each
goes on having real slots for the kernel's first methods, and its module goes on leading to the kernel.
So there is always a handler for the messages that nobody understands. -/

namespace Mixin

namespace Image

variable {s : Image}

/-- What keeps the kernel's first methods within everybody's reach. -/
structure Served (s : Image) : Prop where
  moored : s.Moored
  gated : s.Gated
  rooted : s.graph.Rooted
  answering : s.Answering

theorem Served.slot (h : s.Served) (hs : s.Sound) {r : Receiver} (hr : s.Alive r) {n : Symbol}
    (hn : n ∈ Native.names) : ∃ slot, s.slot? r n = some slot ∧ slot.isDefined = true := by
  obtain ⟨t, ht, htable⟩ := hs.target_effectiveModule hr.known
  rw [slot?, ← htable]
  exact h.answering _ t ht id n hn

theorem Served.missingSlot (h : s.Served) (hs : s.Sound) {r : Receiver} (hr : s.Alive r) :
    s.slot? r .methodMissing = some (s.missingSlot r) := by
  obtain ⟨slot, hslot, -⟩ := h.slot hs hr (n := .methodMissing) List.mem_cons_self
  rw [Image.missingSlot, hslot]
  rfl

theorem Served.isA_kernel (h : s.Served) (hs : s.Sound) {r : Receiver} (hr : s.Alive r) :
    s.isA r (.module .kernel) = true := by
  obtain ⟨t, ht, -⟩ := hs.target_effectiveModule hr.known
  exact Graph.includes_iff.2 (h.moored.graph.anchored _ t ht).reaches

end Image

theorem Edit.served {s : Image} {k : Manners} (hgate : k.offGate = true)
    (hgenuine : k.genuine = true) (hs : s.Sound) {e : Edit} (ha : e.Allowed k) (hsafe : e.Safe s)
    (h : s.Served) : (e.apply s).Served := by
  have hm := Edit.moored h.moored (hsafe.feasible h.moored)
  have hg := Edit.gated hgate h.moored ha h.gated
  have hr := Edit.rooted hgate hgenuine hs hsafe ha h.rooted
  exact ⟨hm, hg, hr, Edit.answering hs hsafe (hr.supplies hm.graph hg.natives) h.answering⟩

theorem Setup.served_boot (u : Setup) : u.boot.Served := by
  have hsecure : u.boot.Secure false := u.secure_boot
  have hsupplies := u.rooted_boot.supplies hsecure.moored.graph hsecure.gated.natives
  refine ⟨hsecure.moored, hsecure.gated, u.rooted_boot, fun m t ht _ => ?_⟩
  exact (u.coherent_boot m t ht id).answers ht hsupplies

namespace Machine

open Image

variable {ω : Type} {k : Manners} {u : Setup} {m : Machine ω}

theorem Reached.served (h : m.Reached k u) (hgate : k.offGate = true)
    (hgenuine : k.genuine = true) : m.world.image.Served :=
  h.invariant u.served_boot fun _ _ hs ha hsafe hi => Edit.served hgate hgenuine hs ha hsafe hi

/-- However many edits are still deferred, everybody who is there has real slots for the kernel's first
methods and descends from the kernel. A message that nobody understands finds its handler in a slot, also
after its name has been watched. -/
theorem Reached.kernel_answers (h : m.Reached k u) (hgate : k.offGate = true)
    (hgenuine : k.genuine = true) {r : Receiver} (hr : m.world.image.Alive r) :
    let s := m.world.image
    (∀ n ∈ [Symbol.methodMissing, .inspect, .respondTo, .isA],
      ∃ slot, s.slot? r n = some slot ∧ slot.isDefined = true) ∧
    s.slot? r .methodMissing = some (s.missingSlot r) ∧
    (∀ n, (s.prepare r n).slot? r .methodMissing = some ((s.prepare r n).missingSlot r)) ∧
    s.isA r (.module .kernel) = true := by
  intro s
  have hs : s.Sound := h.sane.sound
  have hserved : s.Served := h.served hgate hgenuine
  refine ⟨fun n hn => hserved.slot hs hr hn, hserved.missingSlot hs hr, fun n => ?_,
    hserved.isA_kernel hs hr⟩
  unfold prepare
  split
  · exact hserved.missingSlot hs hr
  · have hwatched := Edit.served (k := k) (e := .watchNow n) hgate hgenuine hs trivial trivial hserved
    have hakin := Akin.watchNow hs n
    exact hwatched.missingSlot (hakin.sound hs) ((hakin.alive r).2 hr)

/-- The instance has an eigenclass, and the module of its class is ahead of all tables. -/
theorem kernel_answers_postponed :
    let s := postponed
    s.writes ⟨4⟩ = 2 ∧
    (∃ slot, s.slot? (.object ⟨0⟩) .inspect = some slot ∧ slot.isDefined = true) ∧
    s.slot? (.class ⟨0⟩) .methodMissing = some (s.missingSlot (.class ⟨0⟩)) ∧
    s.isA (.module ⟨4⟩) (.module .kernel) = true := by
  intro s
  have h := reached_postponed (k := .fair) rfl (.reply (.ok .void))
  have hobject : s.Alive (.object ⟨0⟩) := by decide +kernel
  have hclass : s.Alive (.class ⟨0⟩) := by decide +kernel
  have hmodule : s.Alive (.module ⟨4⟩) := by decide +kernel
  refine ⟨by decide +kernel, ?_, ?_, ?_⟩
  · exact (h.kernel_answers rfl rfl hobject).1 _ (by decide)
  · exact (h.kernel_answers rfl rfl hclass).2.1
  · exact (h.kernel_answers rfl rfl hmodule).2.2.2

end Machine

end Mixin
