import Mixin.Proofs.Deepening
import Mixin.Proofs.Image.Descended

/-! What a class and an object take over. The module that comes first in what another includes hands
its ancestry on as it is: the other adds to it behind, and so do the chains. Only a module that leads
back to the one that includes it is taken apart. -/

namespace Mixin

namespace Graph

variable {g : Graph} {base a b : ModuleId}

/-- What one module is composed of the other is composed of, too; and unless the first leads back to
it, the other's ancestry is that of the first and then some more, and so are all its chains. -/
structure Inherits (g : Graph) (base a : ModuleId) : Prop where
  mem : ∀ x ∈ g.ancestors base, x ∈ g.ancestors a
  goesOn : base = a ∨ ¬ g.Reaches base a → ∃ more, g.ancestors a = g.ancestors base ++ more ∧
    ∀ n, g.chain a n = g.chain base n ++ g.defined n more

theorem Inherits.refl (g : Graph) (a : ModuleId) : g.Inherits a a where
  mem _ hx := hx
  goesOn _ := ⟨[], (List.append_nil _).symm, fun _ => (List.append_nil _).symm⟩

theorem inherits_of_first {rest : List ModuleId} (hin : (g.node a).included = base :: rest) :
    g.Inherits base a where
  mem x hx := by
    rw [mem_ancestors] at hx ⊢
    refine ⟨.head ?_ hx.1, hx.2⟩
    show base ∈ (g.node a).included
    rw [hin]
    exact List.mem_cons_self
  goesOn hback := by
    have hprefix : g.ancestors base <+: g.ancestors a := by
      rcases hback with rfl | hback
      · exact List.prefix_refl _
      · rw [ancestors_eq_filter, ancestors_eq_filter]
        exact (linearize_of_first hin hback).filter _
    obtain ⟨more, hmore⟩ := hprefix
    refine ⟨more, hmore.symm, fun n => ?_⟩
    rw [chain_eq_defined, ← hmore, defined_append, chain_eq_defined]

end Graph

namespace Image

variable {s : Image} {c p : ClassId}

theorem Sound.effectiveModule_superclass (hs : s.Sound) (hc : s.superclass c = some p)
    (hn : s.eigenclass? (.class c) = none) :
    s.effectiveModule (.class c) = s.effectiveModule (.class p) := by
  have hline := hs.lineOf_eq (liveClass_of_superclass hc)
  rw [hc] at hline
  rw [effectiveModule_class, effectiveModule_class, hline, lineModule_cons, hn]
  rfl

theorem effectiveModule_of_side {e : ModuleId} (he : s.eigenclass? (.class c) = some e) :
    s.effectiveModule (.class c) = e := by
  obtain ⟨above, hline⟩ := lineOf_eq_cons (hasRecord_of_eigenclass he)
  rw [effectiveModule_class, hline, lineModule_cons, he]
  rfl

namespace Descended

variable (h : s.Descended)
include h

theorem inherits_instanceModule (hc : s.superclass c = some p) :
    s.graph.Inherits (s.instanceModule p) (s.instanceModule c) := by
  have hlive : s.holder? (.prototype c) = some (s.instanceModule c) :=
    if_pos (liveClass_of_superclass hc)
  obtain ⟨q, rest, hq, hin⟩ := h (.prototype c) (s.instanceModule c) hlive
  rw [parentOf?, hc] at hq
  obtain rfl := Option.some.inj hq
  exact Graph.inherits_of_first hin

theorem inherits_eigenclass {o : ObjectId} {e : ModuleId}
    (he : s.eigenclass? (.object o) = some e) :
    s.graph.Inherits (s.instanceModule (s.classOf o)) e := by
  obtain ⟨q, rest, hq, hin⟩ := h (.singleton (.object o)) e he
  obtain rfl := Option.some.inj hq
  exact Graph.inherits_of_first hin

/-- A class with an eigenclass has a superclass with one, which comes first; and otherwise both answer
through one module. -/
theorem inherits_side (hs : s.Sound) (hc : s.superclass c = some p) :
    s.graph.Inherits (s.effectiveModule (.class p)) (s.effectiveModule (.class c)) := by
  cases he : s.eigenclass? (.class c) with
  | none =>
    rw [hs.effectiveModule_superclass hc he]
    exact .refl _ _
  | some e =>
    obtain ⟨q, rest, hq, hin⟩ := h (.singleton (.class c)) e he
    rw [parentOf?, parent?, hc] at hq
    rw [effectiveModule_of_side he, effectiveModule_of_side hq]
    exact Graph.inherits_of_first hin

end Descended

end Image

namespace Machine

open Image

variable {ω : Type} {k : Manners} {u : Setup} {m : Machine ω}

/-- A class inherits from its superclass, an object with an eigenclass from its class, and a class as a
receiver from its superclass as one. What is inherited is in the heir's ancestry, whatever has been
included since and into whatever; and where the module it comes from does not lead back to the heir's,
or the two are one, it makes up the beginning of the heir's ancestry and of all its chains, in the same
order. -/
theorem Reached.inherits (h : m.Reached k u) :
    let s := m.world.image
    (∀ c p, s.superclass c = some p →
      s.graph.Inherits (s.instanceModule p) (s.instanceModule c) ∧
      s.graph.Inherits (s.effectiveModule (.class p)) (s.effectiveModule (.class c))) ∧
    ∀ o e, s.eigenclass? (.object o) = some e →
      s.graph.Inherits (s.instanceModule (s.classOf o)) e := by
  intro s
  have hd := h.descended
  refine ⟨fun c p hc => ⟨hd.inherits_instanceModule hc, hd.inherits_side h.sane.sound hc⟩, ?_⟩
  exact fun o e he => hd.inherits_eigenclass he

/-- A subclass with a method, and an object of it. Both have eigenclasses, and so has the superclass. -/
def descending : Image :=
  (((((derived.define ⟨5⟩ .inspect (.program 0 false) true).allocate ⟨1⟩).2.eigenclass
    (.object ⟨0⟩)).2).eigenclass (.class ⟨1⟩)).2

theorem reached_descending (p : Program Unit) :
    ({ current := .finished p { image := descending, host := () }
       op := some (.eigenclass (.class ⟨1⟩)) } : Machine Unit).Reached k {} := by
  have h₀ := reached_derived (k := k) (.perform (.define ⟨5⟩ .inspect (.program 0 false)) fun _ =>
    .perform (.instantiate ⟨1⟩ []) fun _ => .perform (.eigenclass (.object ⟨0⟩)) fun _ =>
    .perform (.eigenclass (.class ⟨1⟩)) fun _ => p)
  have h₁ := h₀.step ⟨⟨fun _ => by decide, fun _ => rfl⟩, by decide +kernel, nofun⟩
    (step_perform (Op.act_define ..))
  have h₂ := h₁.step ⟨trivial, by decide +kernel, nofun⟩
    (step_perform (Op.act_instantiate [] (by decide +kernel)))
  have h₃ := h₂.step ⟨trivial, by decide +kernel, nofun⟩ (step_perform (Op.act_eigenclass ..))
  exact h₃.step ⟨trivial, by decide +kernel, nofun⟩ (step_perform (Op.act_eigenclass ..))

/-- The object's chain goes on from that of its class, which goes on from that of the superclass. -/
theorem inherits_descending :
    let s := descending
    s.superclass ⟨1⟩ = some ⟨0⟩ ∧ s.eigenclass? (.object ⟨0⟩) = some ⟨6⟩ ∧
    (∃ more, s.graph.chain (s.instanceModule ⟨1⟩) .inspect =
      s.graph.chain (s.instanceModule ⟨0⟩) .inspect ++ more) ∧
    (∃ more, s.graph.chain ⟨6⟩ .inspect =
      s.graph.chain (s.instanceModule (s.classOf ⟨0⟩)) .inspect ++ more) ∧
    s.graph.chain ⟨6⟩ .inspect = [.native .inspect, .program 0 false] ∧
    s.graph.ancestors (s.effectiveModule (.class ⟨0⟩)) <+:
      s.graph.ancestors (s.effectiveModule (.class ⟨1⟩)) := by
  intro s
  obtain ⟨hclass, hobject⟩ := (reached_descending (k := {}) (.reply (.ok .void))).inherits
  have hc : descending.superclass ⟨1⟩ = some ⟨0⟩ := by decide +kernel
  have he : descending.eigenclass? (.object ⟨0⟩) = some ⟨6⟩ := by decide +kernel
  obtain ⟨more, -, hchain⟩ := (hclass ⟨1⟩ ⟨0⟩ hc).1.goesOn (.inr (by decide +kernel))
  obtain ⟨own, -, hown⟩ := (hobject ⟨0⟩ ⟨6⟩ he).goesOn (.inr (by decide +kernel))
  obtain ⟨side, hside, -⟩ := (hclass ⟨1⟩ ⟨0⟩ hc).2.goesOn (.inr (by decide +kernel))
  refine ⟨hc, he, ⟨_, hchain .inspect⟩, ⟨_, hown .inspect⟩, ?_, ⟨side, hside.symm⟩⟩
  decide +kernel

end Machine

end Mixin
