import Mixin.Proofs.Graph.Anchored
import Mixin.Proofs.Image.Twin

/-! Edits that bring in nobody new and let nobody go. Modules may get methods and edges, whether they
are there or have been removed, and everything else stays in its place. -/

namespace Mixin

namespace Image

variable {s s' s'' : Image}

/-- The same receivers with the same eigenclasses, classes and targets, and no edge fewer. -/
structure Steady (s s' : Image) : Prop where
  roomy : s.graph.Roomy → s'.graph.Roomy
  graph : Graph.Retains (fun _ => False) s.graph s'.graph
  classes : s'.classes.size = s.classes.size
  objects : s'.objects.size = s.objects.size
  eigenclass : ∀ r, s'.eigenclass? r = s.eigenclass? r
  instanceModule : ∀ c, s'.instanceModule c = s.instanceModule c
  superclass : ∀ c, s'.superclass c = s.superclass c
  classOf : ∀ o, s'.classOf o = s.classOf o

theorem Twin.steady (h : Twin s s') : Steady s s' where
  roomy hg := h.graph ▸ hg
  graph := h.graph ▸ .refl _
  classes := h.classes
  objects := h.objects
  eigenclass := h.eigenclass
  instanceModule := h.instanceModule
  superclass := h.superclass
  classOf := h.classOf

namespace Steady

theorem refl (s : Image) : Steady s s := (Twin.refl s).steady

theorem trans (h : Steady s s') (h' : Steady s' s'') : Steady s s'' where
  roomy hg := h'.roomy (h.roomy hg)
  graph := h.graph.trans h'.graph
  classes := h'.classes.trans h.classes
  objects := h'.objects.trans h.objects
  eigenclass r := (h'.eigenclass r).trans (h.eigenclass r)
  instanceModule c := (h'.instanceModule c).trans (h.instanceModule c)
  superclass c := (h'.superclass c).trans (h.superclass c)
  classOf o := (h'.classOf o).trans (h.classOf o)

theorem of_records (hroomy : s.graph.Roomy → s'.graph.Roomy)
    (hg : Graph.Retains (fun _ => False) s.graph s'.graph) (hc : s'.classes = s.classes)
    (ho : s'.objects = s.objects) (hm : s'.moduleSides = s.moduleSides) : Steady s s' where
  roomy := hroomy
  graph := hg
  classes := by rw [hc]
  objects := by rw [ho]
  eigenclass r := by
    cases r <;> simp only [eigenclass?, singleton, objectData, classData, hc, ho, hm]
  instanceModule c := by rw [Image.instanceModule, classData, hc]; rfl
  superclass c := by rw [Image.superclass, classData, hc]; rfl
  classOf o := by rw [Image.classOf, objectData, ho]; rfl

theorem setMethod (owner : ModuleId) (name : Symbol) (m : Method) :
    Steady s { s with graph := s.graph.setMethod owner name m } :=
  of_records (fun hg => (hg.update ..).same rfl rfl) (Graph.retains_setMethod ..) rfl rfl rfl

theorem watch (name : Symbol) : Steady s (s.watch name) := by
  unfold Image.watch
  split
  · exact of_records (fun hg => (hg.update ..).same rfl rfl) (Graph.retains_setMethod ..) rfl rfl rfl
  · exact refl s

theorem watchNow (name : Symbol) : Steady s (s.watchNow name) :=
  (watch name).trans (Twin.of_watchNow s name).steady

theorem define (owner : ModuleId) (name : Symbol) (m : Method) (resolving : Bool) :
    Steady s (s.define owner name m resolving) :=
  ((setMethod owner name m).trans (watch name)).trans (Twin.of_define ..).steady

theorem link (owner other : ModuleId) (resolving : Bool) :
    Steady s (s.link owner other resolving) := by
  have hedge : Steady s { s with graph := s.graph.addEdge owner other } :=
    of_records (fun hg => hg.addEdge ..) (Graph.retains_addEdge ..) rfl rfl rfl
  exact hedge.trans (Twin.of_link s owner other resolving).steady

theorem setHooks (m : ModuleId) (f : Hooks → Hooks) : Steady s (s.setHooks m f) := by
  refine of_records (fun hg => hg.update ..) (Graph.retains_update fun n => ?_) rfl rfl rfl
  exact ⟨rfl, fun _ hb _ => hb, fun _ hb _ => hb⟩

theorem chainFor (r : Receiver) (name : Symbol) : Steady s (s.chainFor r name).2 := by
  unfold Image.chainFor
  dsimp only
  split
  · exact refl s
  · dsimp only
    refine (Twin.of_updateSingleton s r ?_).steady
    exact fun _ => rfl

theorem store (o : ObjectId) (name : Symbol) (v : Value) :
    Steady s (s.updateObject o fun d => { d with fields := d.fields.insert name v }) := by
  by_cases ho : o.index < s.objects.size
  · have hdata := fun a => objectData_updateObject (a := a)
      (fun d => { d with fields := d.fields.insert name v }) ho
    refine ⟨id, .refl _, rfl, Array.size_modify .., fun r => ?_, fun _ => rfl, fun _ => rfl,
      fun a => ?_⟩
    · cases r with
      | object a =>
        simp only [eigenclass?, singleton, hdata]
        split <;> rfl
      | «class» c => rfl
      | module m => rfl
    · simp only [Image.classOf, hdata]
      split <;> rfl
  · rw [updateObject, modify_of_size_le _ (Nat.le_of_not_lt ho)]
    exact refl s

variable (h : Steady s s')
include h

theorem holder? (t : Target) : s'.holder? t = s.holder? t :=
  holder_congr h.eigenclass h.instanceModule h.classes t

end Steady

end Image

end Mixin
