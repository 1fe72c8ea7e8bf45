import Mixin.Proofs.CleanModule
import Mixin.Proofs.Coherence
import Mixin.Proofs.Image.Deepens

/-! Eigenclasses that are made on request. Whatever a receiver answered from before, the prototype of
its class, the side of the nearest class above it or one of the bases, its own new table comes to the
same, and so do the tables of those that borrow from it from then on. -/

namespace Mixin

namespace Machine

open Image

variable {ω : Type} {k : Manners} {u : Setup} {m : Machine ω}

/-- While no edit is deferred, giving a receiver its eigenclass changes nothing about any receiver that
was there, this one included: not its slots, nor what it looks up, nor what it is among the classes and
modules that were there. It reports new ancestors behind the old ones, all of them new and empty
eigenclasses. Asked for again, the eigenclass is the same and nothing changes at all. -/
theorem Reached.eigenclass_unseen (h : m.Reached k u) (hprompt : k.prompt = true) {x : Receiver}
    (hx : m.world.image.Alive x) :
    let s := m.world.image
    let e := (s.eigenclass x).1
    let s' := (s.eigenclass x).2
    (∀ r, s.Alive r → s'.Alive r ∧ (∀ n, Slot.Agree (s.slot? r n) (s'.slot? r n)) ∧
      (∀ n, s'.lookup r n = s.lookup r n) ∧ (∀ a, s.Existing a → s'.isA r a = s.isA r a) ∧
      ∃ added : List ModuleId, s'.ancestorsOf r = s.ancestorsOf r ++ added.map .module ∧
        ∀ a ∈ added, s.Added s' a) ∧
    s'.eigenclass x = (e, s') := by
  intro s e s'
  have hs : s.Sound := h.sane.sound
  have hc : s.Coherent := h.coherent hprompt
  obtain ⟨hb, hown⟩ := eigenclass_becomes hs (.inl hx)
  have hdeep := deepens_of_materializes hs hb
  obtain ⟨hs', hc'⟩ := hb.invariant hs hc fun _ _ hs he hsafe hc =>
    Edit.coherent hprompt hs hsafe he.usual.1 hc
  refine ⟨fun r hr => ⟨hdeep.alive r hr, hdeep.agree_slot hs hr hc hs' hc', hdeep.lookup_eq hs hr,
    fun a ha => hdeep.isA_eq hs hr ha, hdeep.ancestorsOf_eq hs hr⟩, eigenclass_of_some hown⟩

/-- A class and a subclass of it, neither with behaviour of its own as a class. -/
def derived : Image := (classed.defineClass "L" (some ⟨0⟩)).2

theorem reached_derived (p : Program Unit) :
    ({ current := .finished p { image := derived, host := () }
       op := some (.defineClass "L" (some ⟨0⟩)) } : Machine Unit).Reached k {} := by
  have h₀ : Reached k {} _ := .start (.perform (.defineClass "K" none) fun _ =>
    .perform (.defineClass "L" (some ⟨0⟩)) fun _ => p) {} ()
  have h₁ := h₀.step ⟨trivial, nofun, nofun⟩ (step_perform (Op.act_defineClass ..))
  exact h₁.step ⟨trivial, by decide +kernel, nofun⟩ (step_perform (Op.act_defineClass ..))

/-- The subclass gets its eigenclass and so does its superclass. -/
theorem eigenclass_unseen_derived :
    let s := derived
    let s' := (s.eigenclass (.class ⟨1⟩)).2
    s'.ancestorsOf (.class ⟨1⟩) = s.ancestorsOf (.class ⟨1⟩) ++ [.module ⟨6⟩, .module ⟨7⟩] ∧
    s'.ancestorsOf (.class ⟨0⟩) = s.ancestorsOf (.class ⟨0⟩) ++ [.module ⟨6⟩] ∧
    (∀ n, Slot.Agree (s.slot? (.class ⟨0⟩) n) (s'.slot? (.class ⟨0⟩) n)) ∧
    s'.eigenclass (.class ⟨1⟩) = (⟨7⟩, s') := by
  intro s s'
  have h := reached_derived (k := { prompt := true }) (.reply (.ok .void))
  have hsub : derived.Alive (.class ⟨1⟩) := by decide +kernel
  have habove : derived.Alive (.class ⟨0⟩) := by decide +kernel
  obtain ⟨hall, hagain⟩ := h.eigenclass_unseen rfl hsub
  have he : (derived.eigenclass (.class ⟨1⟩)).1 = ⟨7⟩ := by decide +kernel
  refine ⟨by decide +kernel, by decide +kernel, (hall _ habove).2.1, ?_⟩
  rw [← he]
  exact hagain

end Machine

end Mixin
