import Mixin.Proofs.Graph.Repeated
import Mixin.Proofs.Image.Settling
import Mixin.Proofs.Release

/-! Repeated inclusion. What a module includes it can include again, in any graph, without anything
coming of it. To include what it only reaches does change ancestries, but not its own. -/

namespace Mixin

namespace Image

variable {s : Image} {a x : ModuleId}

theorem Coherent.link_again (h : s.Coherent) (hg : s.graph.Symmetric)
    (hx : x ∈ (s.graph.node a).included) :
    (s.link a x false).writes a = 0 ∧
      ∀ t, ((s.link a x false).resolve a).table t = s.table t := by
  have hgraph : (s.link a x false).graph = s.graph.addEdge a x := graph_link a x false
  have htable : ∀ t, (s.link a x false).table t = s.table t := table_congr rfl rfl rfl rfl rfl
  obtain ⟨hcount, hsame⟩ := resolve_of_agrees (s := s.link a x false) (a := a) fun m _ t ht n => by
    rw [hgraph, Graph.target_addEdge_again hg hx] at ht
    rw [hgraph, htable, Graph.definition?_addEdge_again hg hx]
    exact h m t ht id n
  exact ⟨hcount, fun t => (hsame t).trans (htable t)⟩

end Image

namespace Graph

/-- However edges lead back, a module that is included already can be included once more: ancestries,
what is composed of what, chains and what depends on what stay as they are, and where tables agreed no
entry is written. A module that is reached can be included without a change to the includer's own
ancestry. -/
theorem addEdge_again {g : Graph} (hg : g.Symmetric) (a x : ModuleId) :
    let g' := g.addEdge a x
    (x ∈ (g.node a).included →
      (∀ t, g'.linearize t = g.linearize t ∧ g'.ancestors t = g.ancestors t ∧
        g'.affected t = g.affected t ∧ (∀ y, g'.includes t y = g.includes t y) ∧
        ∀ n, g'.chain t n = g.chain t n) ∧
      ∀ s : Image, s.graph = g → s.Coherent →
        (s.link a x false).writes a = 0 ∧
          ∀ t, ((s.link a x false).resolve a).table t = s.table t) ∧
    (g.Reaches a x → g'.linearize a = g.linearize a ∧ g'.ancestors a = g.ancestors a) := by
  intro g'
  refine ⟨fun hx => ⟨fun t => ?_, ?_⟩, fun hr => ?_⟩
  · exact ⟨linearize_addEdge_again hg hx t, ancestors_addEdge_again hg hx t,
      affected_addEdge_again hg hx t, includes_addEdge_again hg hx t, chain_addEdge_again hg hx t⟩
  · rintro s rfl hc
    exact hc.link_again hg hx
  · have hlinearize := linearize_addEdge_of_reaches hr
    exact ⟨hlinearize, ancestors_addEdge hlinearize⟩

/-- The class's module and the eigenclass include each other, and the eigenclass itself. It may
include both the class's module and, further on, the kernel once more. -/
theorem addEdge_again_knotted :
    let s := Machine.knotted.world.image
    (s.graph.addEdge ⟨5⟩ ⟨4⟩).linearize ⟨4⟩ = [.gate, .kernel, ⟨5⟩, ⟨4⟩] ∧
    (s.link ⟨5⟩ ⟨4⟩ false).writes ⟨5⟩ = 0 ∧
    .kernel ∉ (s.graph.node ⟨5⟩).included ∧
    (s.graph.addEdge ⟨5⟩ .kernel).linearize ⟨5⟩ = [.gate, .kernel, ⟨4⟩, ⟨5⟩] := by
  intro s
  have h := Machine.reached_knotted (k := { prompt := true })
  have hg : s.graph.Symmetric := h.sane.sound.graph.back
  have hc : s.Coherent := h.coherent rfl
  have hx : ⟨4⟩ ∈ (s.graph.node ⟨5⟩).included := by decide +kernel
  have hr : s.graph.Reaches ⟨5⟩ .kernel := by decide +kernel
  obtain ⟨hsame, hwrites⟩ := (addEdge_again hg ⟨5⟩ ⟨4⟩).1 hx
  have hown := (addEdge_again hg ⟨5⟩ .kernel).2 hr
  refine ⟨?_, (hwrites s rfl hc).1, by decide +kernel, ?_⟩
  · rw [(hsame ⟨4⟩).1]
    decide +kernel
  · rw [hown.1]
    decide +kernel

end Graph

end Mixin
