import Mixin.Proofs.CleanModule
import Mixin.Proofs.Image.Effective

/-! How the records of an image fit together, in every state. Edges and the pointers back to them
match, no record names a module, class or object that is not there, the lists of free places hold
just what has been removed, and targets and the records of what they stand for point at each
other. -/

namespace Mixin

open Relation

namespace Image

variable {s : Image}

structure WellFormed (s : Image) : Prop where
  back : ∀ a b, b ∈ (s.graph.node a).included ↔ a ∈ (s.graph.node b).dependents
  once : ∀ a, (s.graph.node a).dependents.Nodup
  -- The modules that are named, and those that walks over what they name come to.
  live_included : ∀ a, ∀ b ∈ (s.graph.node a).included, s.graph.Live b
  live_dependents : ∀ a, ∀ b ∈ (s.graph.node a).dependents, s.graph.Live b
  live_eigenclass : ∀ r m, s.eigenclass? r = some m → s.graph.Live m
  live_instanceModule : ∀ c, s.LiveClass c → s.graph.Live (s.instanceModule c)
  live_roots : ∀ m ∈ [ModuleId.gate, .kernel, .moduleRoot, .classRoot], s.graph.Live m
  live_linearize : ∀ m, s.graph.Live m → ∀ x ∈ s.graph.linearize m, s.graph.Live x
  live_affected : ∀ m, s.graph.Live m → ∀ x ∈ s.graph.affected m, s.graph.Live x
  live_effectiveModule : ∀ r, s.Alive r → s.graph.Live (s.effectiveModule r)
  superclass_live : ∀ c d, s.superclass c = some d → s.LiveClass d
  classOf_live : ∀ o, s.LiveObject o → s.LiveClass (s.classOf o)
  -- The places of removed modules.
  free_lt : ∀ m ∈ s.graph.free, m.index < s.graph.nodes.size
  free_nodup : s.graph.free.Nodup
  free_blank : ∀ m ∈ s.graph.free, s.graph.node m = {}
  liveCount_eq : s.graph.liveCount + s.graph.free.length = s.graph.nodes.size
  -- The places of released objects.
  mem_freeObjects : ∀ o, o ∈ s.freeObjects ↔
    o.index < s.objects.size ∧ (s.objectData o).released = true
  freeObjects_nodup : s.freeObjects.Nodup
  allocate_new : ∀ c, ¬ s.LiveObject (s.allocate c).1
  release_again : ∀ o ∈ s.freeObjects, s.release o = s
  target_liveObject : ∀ m o, (s.graph.node m).target = some (.singleton (.object o)) →
    s.LiveObject o
  -- Targets.
  target_unique : ∀ m m' t, (s.graph.node m).target = some t → (s.graph.node m').target = some t →
    m = m'
  target_record : ∀ m t, (s.graph.node m).target = some t → s.HasTable t
  prototype_iff : ∀ m c, (s.graph.node m).target = some (.prototype c) ↔
    s.LiveClass c ∧ s.instanceModule c = m
  singleton_iff : ∀ m r, (s.graph.node m).target = some (.singleton r) ↔ s.eigenclass? r = some m
  classBase_iff : ∀ m, (s.graph.node m).target = some .classBase ↔ m = .classRoot
  moduleBase_iff : ∀ m, (s.graph.node m).target = some .moduleBase ↔ m = .moduleRoot

theorem Sound.liveCount_add (hs : s.Sound) :
    s.graph.liveCount + s.graph.free.length = s.graph.nodes.size := by
  have hsub : s.graph.free ⊆ (List.range s.graph.nodes.size).map ModuleId.mk := by
    intro m hm
    exact List.mem_map.2 ⟨m.index, List.mem_range.2 (hs.graph.free_lt m hm), rfl⟩
  have hle := (List.subperm_of_subset hs.graph.free_nodup hsub).length_le
  rw [List.length_map, List.length_range] at hle
  exact Nat.sub_add_cancel hle

theorem Sound.prototype_iff (hs : s.Sound) {m : ModuleId} {c : ClassId} :
    (s.graph.node m).target = some (.prototype c) ↔ s.LiveClass c ∧ s.instanceModule c = m := by
  rw [hs.target_iff]
  constructor
  · intro h
    have hc := liveClass_of_holder h
    exact ⟨hc, Option.some.inj ((if_pos hc).symm.trans h)⟩
  · rintro ⟨hc, rfl⟩
    exact if_pos hc

theorem Sound.live_affected (hs : s.Sound) {m x : ModuleId} (hm : s.graph.Live m)
    (hx : x ∈ s.graph.affected m) : s.graph.Live x := by
  rcases ReflTransGen.cases_head (hs.graph.mem_affected.1 hx) with rfl | ⟨y, hy, -⟩
  · exact hm
  · exact hs.graph.live_includer hy

theorem WellFormed.of_sound (hs : s.Sound) : s.WellFormed where
  back := hs.graph.back
  once := hs.graph.once
  live_included := hs.graph.live
  live_dependents a b hb := hs.graph.live_includer ((hs.graph.back b a).2 hb)
  live_eigenclass _ _ := hs.live_eigenclass
  live_instanceModule _ := hs.live_instanceModule
  live_roots := by
    simp [hs.live_gate, hs.live_kernel, hs.live_moduleRoot, hs.live_classRoot]
  live_linearize m hm x hx := hs.graph.live_of_reaches hm (Graph.mem_linearize.1 hx)
  live_affected m hm x hx := hs.live_affected hm hx
  live_effectiveModule r hr := hs.live_effectiveModule hr.known
  superclass_live _ _ := hs.superclass_live
  classOf_live := hs.classOf_live
  free_lt := hs.graph.free_lt
  free_nodup := hs.graph.free_nodup
  free_blank := hs.graph.blank
  liveCount_eq := hs.liveCount_add
  mem_freeObjects := hs.free_iff
  freeObjects_nodup := hs.free_nodup
  allocate_new := allocate_fresh hs
  release_again o ho := release_of_released ((hs.free_iff o).1 ho).2
  target_liveObject m o h := hs.liveObject_of_eigenclass ((hs.target_iff m _).1 h)
  target_unique _ _ _ := hs.target_inj
  target_record _ _ := hs.hasTable
  prototype_iff _ _ := hs.prototype_iff
  singleton_iff m r := hs.target_iff m (.singleton r)
  classBase_iff m := (hs.target_iff m .classBase).trans (by simp [holder?, eq_comm])
  moduleBase_iff m := (hs.target_iff m .moduleBase).trans (by simp [holder?, eq_comm])

end Image

namespace Machine

variable {ω : Type} {k : Manners} {u : Setup} {m : Machine ω}

/-- In every state the records fit together. -/
theorem Reached.wellFormed (h : m.Reached k u) : m.world.image.WellFormed :=
  .of_sound h.sane.sound

/-- They still do where a release has left something behind. -/
theorem wellFormed_collapsed : collapsed.world.image.WellFormed ∧
    collapsed.world.image.freeObjects = [⟨0⟩] ∧ collapsed.world.image.graph.free = [⟨5⟩] := by
  refine ⟨(reached_collapsed (k := {})).wellFormed, ?_, ?_⟩
  · decide +kernel
  · decide +kernel

end Machine

end Mixin
