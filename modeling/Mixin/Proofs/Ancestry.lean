import Mixin.Proofs.CleanModule
import Mixin.Proofs.Image.Effective
import Mixin.Proofs.Image.Rooted
import Mixin.Proofs.WellFormed

/-! What the questions about ancestry have to do with each other. The search, the walk and the queue
walk all come to an end and tell one relation, so being composed of a module, standing in an ancestry
and depending on an edit are the same thing. For receivers this needs that no two modules are reported
as one, and that of all modules only the gate goes unreported. -/

namespace Mixin

open Relation

namespace Image

variable {s : Image}

theorem gateHidden_watch (hs : s.Sound) (h : s.graph.GateHidden) (name : Symbol) :
    (s.watch name).graph.GateHidden := by
  unfold watch
  split
  · exact h.setMethod hs.live_gate name _
  · exact h

theorem gateHidden_materialize (hs : s.Sound) (h : s.graph.GateHidden) {r : Receiver}
    (hr : s.Alive r) {p : ModuleId} (hp : s.parent? r = some p) :
    (s.materialize r p).2.graph.GateHidden := by
  have halloc := h.alloc hs.graph hs.live_gate (n := { target := some (.singleton r) }) rfl
  rw [materialize_eq, graph_link, graph_addEigenclass]
  exact halloc.addEdge (hs.graph.live_alloc.2 (.inl rfl))
    (hs.graph.live_alloc.2 (.inr (hs.live_parent hr hp)))

theorem gateHidden_makeClass (hs : s.Sound) (h : s.graph.GateHidden) (a : Symbol)
    {above : Option ClassId} (habove : ∀ c, above = some c → s.LiveClass c) :
    (s.makeClass a above).graph.GateHidden := by
  have halloc : (s.addClass a above).2.graph.GateHidden :=
    h.alloc hs.graph hs.live_gate (n := { name := some a, target := some _ }) rfl
  have hper : Persists (fun _ => True) s (s.addClass a above).2 := persists_addClass hs a above
  rw [makeClass_eq, graph_link]
  exact halloc.addEdge (hs.graph.live_alloc.2 (.inl rfl))
    ((hs.addClass a habove).live_classParent fun c hc => hper.liveClass c (habove c hc))

theorem gateHidden_drop (hs : s.Sound) (h : s.graph.GateHidden) (o : ObjectId) :
    (s.drop o).graph.GateHidden := by
  unfold drop
  dsimp only
  split
  · rename_i e he
    exact h.remove hs.graph (hs.live_eigenclass he)
      (hs.ne_gate_of_holder (t := .singleton (.object o)) he)
  · exact h

end Image

/-- Whatever callers do, the gate stays hidden and nothing else ever is. -/
theorem Edit.gateHidden {s : Image} (hs : s.Sound) {e : Edit} (hsafe : e.Safe s)
    (h : s.graph.GateHidden) : (e.apply s).graph.GateHidden := by
  cases e with
  | addModule name => exact h.alloc hs.graph hs.live_gate rfl
  | define owner name m resolving =>
    show (s.define owner name m resolving).graph.GateHidden
    rw [Image.graph_define]
    exact Image.gateHidden_watch ((Image.Akin.setMethod hsafe name m).sound hs)
      (h.setMethod hsafe name m) name
  | link owner other resolving =>
    show (s.link owner other resolving).graph.GateHidden
    rw [Image.graph_link]
    exact h.addEdge hsafe.1 hsafe.2
  | materialize r p => exact Image.gateHidden_materialize hs h hsafe.1 hsafe.2.2
  | makeClass a above => exact Image.gateHidden_makeClass hs h a hsafe
  | allocate c =>
    show (s.allocate c).2.graph.GateHidden
    rw [(s.allocate_rest c).1]
    exact h
  | release o =>
    show (s.release o).graph.GateHidden
    rw [Image.release_eq hsafe.2, Image.graph_foldl_resolve]
    exact Image.gateHidden_drop hs h o
  | watchNow name =>
    show (s.watchNow name).graph.GateHidden
    unfold Image.watchNow
    split
    · rw [Image.graph_resolve]
      exact Image.gateHidden_watch hs h name
    · exact h
  | setHooks m f =>
    choose hooks hnode using Image.node_setHooks hsafe f
    exact h.same fun a => (congrArg Node.hidden (hnode a) :)
  | resolve m =>
    show (s.resolve m).graph.GateHidden
    rw [Image.graph_resolve]
    exact h
  | remember r name =>
    show (s.chainFor r name).2.graph.GateHidden
    rw [Image.graph_chainFor]
    exact h
  | intern | store | setDescribing | observe => exact h

namespace Graph

variable {g : Graph} {root m : ModuleId}

theorem GateHidden.mem_ancestors (h : g.GateHidden) :
    m ∈ g.ancestors root ↔ g.Reaches root m ∧ m ≠ .gate := by
  rw [Graph.mem_ancestors, ne_eq, ← h m, Bool.not_eq_true]

end Graph

namespace Image

variable {s : Image}

theorem ancestorEntry_class {m : ModuleId} {c : ClassId} :
    s.ancestorEntry m = .class c ↔ (s.graph.node m).target = some (.prototype c) := by
  unfold ancestorEntry
  split
  · rename_i ht
    simp [ht]
  · rename_i hne
    simpa using hne c

theorem ancestorEntry_module {m a : ModuleId} (h : s.ancestorEntry m = .module a) : m = a := by
  unfold ancestorEntry at h
  split at h
  · cases h
  · exact Ancestor.module.inj h

theorem Sound.ancestorEntry_injective (hs : s.Sound) : Function.Injective s.ancestorEntry := by
  intro m a h
  cases ha : s.ancestorEntry a with
  | «class» c =>
    rw [ha] at h
    exact hs.target_inj (ancestorEntry_class.1 h) (ancestorEntry_class.1 ha)
  | module b =>
    rw [ha] at h
    exact (ancestorEntry_module h).trans (ancestorEntry_module ha).symm

theorem mem_ancestorsOf (hs : s.Sound) (h : s.graph.GateHidden) {r : Receiver} {m : ModuleId} :
    s.ancestorEntry m ∈ s.ancestorsOf r ↔
      s.graph.Reaches (s.effectiveModule r) m ∧ m ≠ .gate := by
  rw [ancestorsOf, ancestorEntries, List.mem_map_of_injective hs.ancestorEntry_injective,
    h.mem_ancestors]

theorem ancestorsOf_nodup (hs : s.Sound) (r : Receiver) : (s.ancestorsOf r).Nodup := by
  exact List.Nodup.map hs.ancestorEntry_injective (s.graph.ancestors_nodup _)

end Image

namespace Machine

open Image

variable {ω : Type} {k : Manners} {u : Setup} {m : Machine ω}

theorem Reached.gateHidden (h : m.Reached k u) : m.world.image.graph.GateHidden :=
  h.invariant u.rooted_boot.hidden fun _ _ hs _ hsafe => Edit.gateHidden hs hsafe

/-- Whether a module is composed of another, whether the edges lead there and whether its ancestry
holds the other are one question in every graph; and in every state a receiver is what it reports as
its ancestors, the gate apart. -/
theorem Reached.isA_iff (h : m.Reached k u) :
    let s := m.world.image
    (∀ (g : Graph) (a b : ModuleId),
      (g.includes a b = true ↔ g.Reaches a b) ∧ (g.Reaches a b ↔ b ∈ g.linearize a) ∧
      g.Search b [a] [] (g.includes a b) ∧
      (∃ w, g.Trail [a] {} w ∧ g.linearize a = w.left.reverse) ∧
      (g.linearize a).Nodup ∧ (∃ rest, g.linearize a = rest ++ [a]) ∧
      g.ancestors a = (g.linearize a).filter fun x => !(g.node x).hidden) ∧
    (∀ c, s.LiveClass c → s.ancestorEntry (s.moduleOf (.class c)) = .class c) ∧
    ∀ r,
      (∀ x, (∀ c, x = .class c → s.LiveClass c) → x ≠ .module .gate →
        (s.isA r x = true ↔ s.ancestorEntry (s.moduleOf x) ∈ s.ancestorsOf r)) ∧
      (s.ancestorsOf r).Nodup ∧ .module .gate ∉ s.ancestorsOf r := by
  intro s
  have hs := h.sane.sound
  have hgate := h.gateHidden
  refine ⟨fun g a b => ?_, fun c hc => ?_, fun r => ⟨fun x hclass hx => ?_, ?_, ?_⟩⟩
  · exact ⟨Graph.includes_iff, Graph.mem_linearize.symm, Graph.search_includes g a b,
      g.trail_linearize a, g.linearize_nodup a, g.linearize_eq_concat a, g.ancestors_eq_filter a⟩
  · exact ancestorEntry_class.2 (hs.prototype_iff.2 ⟨hc, rfl⟩)
  · have hne : m.world.image.moduleOf x ≠ .gate := by
      cases x with
      | «class» c => exact instanceModule_ne_gate hs (hclass c rfl)
      | module a => exact fun ha => hx (congrArg Ancestor.module ha)
    rw [isA, Graph.includes_iff, mem_ancestorsOf hs hgate]
    exact (and_iff_left hne).symm
  · exact ancestorsOf_nodup hs r
  · have hentry : m.world.image.ancestorEntry .gate = .module .gate := by
      rw [ancestorEntry, hs.target_gate]
    rw [← hentry, mem_ancestorsOf hs hgate]
    exact fun hmem => hmem.2 rfl

/-- An object with an eigenclass is an instance of its class and belongs to the kernel. -/
theorem isA_owned :
    let s := owned
    s.isA (.object ⟨0⟩) (.class ⟨0⟩) = true ∧ .class ⟨0⟩ ∈ s.ancestorsOf (.object ⟨0⟩) ∧
      s.ancestorsOf (.object ⟨0⟩) = [.module .kernel, .class ⟨0⟩, .module ⟨5⟩] := by
  have h := (tidy_owning (k := {}) (.reply (.ok .void))).reached
  obtain ⟨-, hentry, hall⟩ := h.isA_iff
  obtain ⟨hiff, -, -⟩ := hall (.object ⟨0⟩)
  have hlive : owned.LiveClass ⟨0⟩ := by decide +kernel
  have hisA : owned.isA (.object ⟨0⟩) (.class ⟨0⟩) = true := by decide +kernel
  refine ⟨hisA, ?_, by decide +kernel⟩
  have hmem := (hiff (.class ⟨0⟩) (fun c hc => Ancestor.class.inj hc ▸ hlive) nofun).1 hisA
  exact hentry ⟨0⟩ hlive ▸ hmem

/-- The modules that an edit to a module can affect are those composed of it. They are found by a
queue walk that ends, the module itself first and each of them once; and they are all there. -/
theorem Reached.mem_affected_iff (h : m.Reached k u) :
    (∀ (g : Graph) (x : ModuleId),
      (∃ out, Graph.Exploration (fun a => (g.node a).dependents) [x] [] out ∧
        g.affected x = out.reverse) ∧
      (∃ rest, g.affected x = x :: rest) ∧ (g.affected x).Nodup) ∧
    let g := m.world.image.graph
    ∀ x, g.Live x → (∀ t, t ∈ g.affected x ↔ g.includes t x = true) ∧
      ∀ t ∈ g.affected x, g.Live t := by
  have hs := h.sane.sound
  refine ⟨fun g x => ?_, fun x hx => ⟨fun t => ?_, fun t ht => hs.live_affected hx ht⟩⟩
  · have hout : ∀ a ∉ g.arena, (g.node a).dependents = [] := fun a ha => by
      rw [Graph.node_of_not_mem_arena ha]
    exact ⟨Graph.exploration_reached hout x, Graph.reached_eq_cons hout x,
      Graph.reached_nodup hout x⟩
  · rw [hs.graph.mem_affected, Graph.includes_iff]

theorem mem_affected_collapsed :
    let g := collapsed.world.image.graph
    g.Live .kernel ∧ ⟨6⟩ ∈ g.affected .kernel ∧ g.includes ⟨6⟩ .kernel = true ∧
      g.affected .kernel = [.kernel, .moduleRoot, ⟨4⟩, .classRoot, ⟨6⟩] := by
  obtain ⟨-, hiff⟩ := (reached_collapsed (k := {})).mem_affected_iff
  have hlive : collapsed.world.image.graph.Live .kernel := by decide +kernel
  have hincludes : collapsed.world.image.graph.includes ⟨6⟩ .kernel = true := by decide +kernel
  exact ⟨hlive, ((hiff .kernel hlive).1 ⟨6⟩).2 hincludes, hincludes, by decide +kernel⟩

end Machine

end Mixin
