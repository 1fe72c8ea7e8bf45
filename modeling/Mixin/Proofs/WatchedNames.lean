import Mixin.Proofs.CleanModule
import Mixin.Proofs.Run.Roamed

/-! What the gate is told, what it holds and what everybody answers to are three copies of the list of
watched names. They agree in every state, whatever callers do with modules that have been removed and
objects that have been released, as long as they leave the gate alone. -/

namespace Mixin

namespace Machine

open Image

variable {ω : Type} {k : Manners} {u : Setup} {m : Machine ω}

/-- No reserved name is watched, and `method_missing` and `initialize` are reserved; watched names stay
watched and no name becomes reserved or stops being so; the gate's own table has a stub for every
watched name, which forwards that name, and nothing else; what a module defines itself is watched
unless it is reserved or one of the kernel's first methods; and where no edit is deferred, everybody
has a slot for every watched name. -/
theorem Roamed.watched_everywhere (h : m.Roamed k u) (hk : k.offGate = true) :
    let s := m.world.image
    (∀ n ∈ s.gate.watched, n ∉ s.gate.reserved) ∧
    .methodMissing ∈ s.gate.reserved ∧ .initializer ∈ s.gate.reserved ∧
    (∀ m', m.Roams k m' → s.gate.watched ⊆ m'.world.image.gate.watched ∧
      m'.world.image.gate.reserved = s.gate.reserved) ∧
    (∀ n, (s.graph.node .gate).methods[n]? =
      if n ∈ s.gate.watched then some (.stub n) else none) ∧
    (∀ n (call : Call), (Invocation.method (.stub n) call).start =
      (.reply <$> Effect.reportMissing call.receiver n call.args : Effect ω (Program ω))) ∧
    (∀ a, s.graph.Live a → ∀ n ∈ s.graph.ownNames a, n ∈ s.gate.watched ∨ n ∈ s.gate.reserved ∨
      a = .kernel ∧ n ∈ [Symbol.inspect, .respondTo, .isA]) ∧
    (k.prompt = true → ∀ r, s.Alive r → ∀ n ∈ s.gate.watched, ∃ slot, s.slot? r n = some slot) := by
  intro s
  have hsturdy := h.sturdy hk
  obtain ⟨hm, hg, hc⟩ := hsturdy.secure
  refine ⟨hg.apart, hg.methodMissing, hg.initializer, fun m' hr => ?_, hg.stubs, fun _ _ => rfl,
    fun a _ n hn => ?_, fun hp r hr n hn => ?_⟩
  · have hlater := (sturdy_roams hsturdy hk hr).2
    exact ⟨hlater.watched, hlater.reserved⟩
  · rcases hg.known a n (Std.ExtTreeMap.mem_keys.1 hn) id with hn | hn | ⟨ha, hn⟩
    · exact .inl hn
    · exact .inr (.inl hn)
    · rcases List.mem_cons.1 hn with rfl | hn
      · exact .inr (.inl hg.methodMissing)
      · exact .inr (.inr ⟨ha, hn⟩)
  · exact (hc hp).slot hm hr.hasRecord (.inl hn)

/-- Watches two names twice over, one of them reserved, and a name that is always reserved. -/
def wary : Setup := { watched := ["fly", "hide", "fly", "initialize"], reserved := ["hide"] }

/-- A method is put into the eigenclass of an object that has been released, and the object is given
another eigenclass in the same place. -/
def strayed : Image :=
  let s := (((wary.boot.defineClass "K" none).2.allocate ⟨0⟩).2.eigenclass (.object ⟨0⟩)).2
  (((s.release ⟨0⟩).define ⟨5⟩ .inspect (.program 0 false) true).eigenclass (.object ⟨0⟩)).2

def straying : Machine Unit where
  current := .finished (.reply (.ok .void)) { image := strayed, host := () }
  op := some (.eigenclass (.object ⟨0⟩))

theorem roamed_straying : straying.Roamed { prompt := true, offGate := true } wary := by
  have h₀ : Roamed { prompt := true, offGate := true } wary _ :=
    ⟨.perform (.defineClass "K" none) fun _ => .perform (.instantiate ⟨0⟩ []) fun _ =>
      .perform (.eigenclass (.object ⟨0⟩)) fun _ => .perform (.release ⟨0⟩) fun _ =>
      .perform (.define ⟨5⟩ .inspect (.program 0 false)) fun _ =>
      .perform (.eigenclass (.object ⟨0⟩)) fun _ => .reply (.ok .void), {}, (), .refl⟩
  have h₁ := h₀.tail ⟨trivial, nofun⟩ (step_perform (Op.act_defineClass ..))
  have h₂ := h₁.tail ⟨trivial, by decide +kernel⟩
    (step_perform (Op.act_instantiate [] (by decide +kernel)))
  have h₃ := h₂.tail ⟨trivial, by decide +kernel⟩ (step_perform (Op.act_eigenclass ..))
  have h₄ := h₃.tail ⟨trivial, by decide +kernel⟩ (step_perform (Op.act_release ..))
  have h₅ := h₄.tail ⟨⟨fun _ => by decide, nofun⟩, by decide +kernel⟩
    (step_perform (Op.act_define ..))
  exact h₅.tail ⟨trivial, by decide +kernel⟩ (step_perform (Op.act_eigenclass ..))

/-- Of the names asked for only the first is watched, once. -/
theorem watched_everywhere_straying :
    let s := straying.world.image
    let fly := (s.intern "fly").1
    let hide := (s.intern "hide").1
    ¬ s.Alive (.object ⟨0⟩) ∧ s.eigenclass? (.object ⟨0⟩) = some ⟨5⟩ ∧
      s.gate.watched.count fly = 1 ∧ hide ∉ s.gate.watched ∧ Symbol.initializer ∉ s.gate.watched ∧
      (s.graph.node .gate).methods[fly]? = some (.stub fly) ∧
      ∃ slot, s.slot? (.class ⟨0⟩) fly = some slot := by
  intro s fly hide
  have hfly : fly ∈ s.gate.watched := by decide +kernel
  have hhide : hide ∈ s.gate.reserved := by decide +kernel
  have hclass : s.Alive (.class ⟨0⟩) := by decide +kernel
  obtain ⟨hapart, -, hinit, -, hstubs, -, -, hslot⟩ := roamed_straying.watched_everywhere rfl
  refine ⟨by decide +kernel, by decide +kernel, by decide +kernel, fun h => hapart _ h hhide,
    fun h => hapart _ h hinit, ?_, hslot rfl _ hclass fly hfly⟩
  rw [hstubs, if_pos hfly]

end Machine

end Mixin
