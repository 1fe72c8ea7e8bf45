import Mixin.Proofs.Image.Effective

/-! Images that differ in their tables only. What the tables hold has no influence on how the graph
grows and on who is given an eigenclass: an edit takes twins to twins, whether it is resolved at once
in both of them, in one or in none. -/

namespace Mixin

namespace Image

variable {s s' s'' : Image}

/-- The same graph, and the same classes, objects and eigenclasses. Tables may differ, and what is
kept of chains and fields. -/
structure Twin (s s' : Image) : Prop where
  symbols : s'.symbols = s.symbols
  graph : s'.graph = s.graph
  gate : s'.gate = s.gate
  observers : s'.observers = s.observers
  classes : s'.classes.size = s.classes.size
  objects : s'.objects.size = s.objects.size
  eigenclass : ∀ r, s'.eigenclass? r = s.eigenclass? r
  instanceModule : ∀ c, s'.instanceModule c = s.instanceModule c
  superclass : ∀ c, s'.superclass c = s.superclass c
  classOf : ∀ o, s'.classOf o = s.classOf o
  released : ∀ o, (s'.objectData o).released = (s.objectData o).released

theorem updateSingleton_of_not_hasRecord {r : Receiver} (h : ¬ s.HasRecord r)
    (f : Singleton → Singleton) : s.updateSingleton r f = s := by
  cases r with
  | object o =>
    rw [updateSingleton, updateObject, modify_of_size_le _ (Nat.le_of_not_lt h)]
  | «class» c =>
    rw [updateSingleton, updateClass, modify_of_size_le _ (Nat.le_of_not_lt h)]
  | module m => exact absurd trivial h

namespace Twin

theorem refl (s : Image) : Twin s s :=
  ⟨rfl, rfl, rfl, rfl, rfl, rfl, fun _ => rfl, fun _ => rfl, fun _ => rfl, fun _ => rfl,
    fun _ => rfl⟩

theorem symm (h : Twin s s') : Twin s' s where
  symbols := h.symbols.symm
  graph := h.graph.symm
  gate := h.gate.symm
  observers := h.observers.symm
  classes := h.classes.symm
  objects := h.objects.symm
  eigenclass r := (h.eigenclass r).symm
  instanceModule c := (h.instanceModule c).symm
  superclass c := (h.superclass c).symm
  classOf o := (h.classOf o).symm
  released o := (h.released o).symm

theorem trans (h : Twin s s') (h' : Twin s' s'') : Twin s s'' where
  symbols := h'.symbols.trans h.symbols
  graph := h'.graph.trans h.graph
  gate := h'.gate.trans h.gate
  observers := h'.observers.trans h.observers
  classes := h'.classes.trans h.classes
  objects := h'.objects.trans h.objects
  eigenclass r := (h'.eigenclass r).trans (h.eigenclass r)
  instanceModule c := (h'.instanceModule c).trans (h.instanceModule c)
  superclass c := (h'.superclass c).trans (h.superclass c)
  classOf o := (h'.classOf o).trans (h.classOf o)
  released o := (h'.released o).trans (h.released o)

section Tables

theorem of_updateSingleton (s : Image) (r : Receiver) {f : Singleton → Singleton}
    (hf : ∀ d, (f d).eigenclass = d.eigenclass) : Twin s (s.updateSingleton r f) := by
  by_cases hr : s.HasRecord r
  · refine ⟨?_, by simp, ?_, ?_, by simp, by simp, fun a => ?_, by simp, by simp, by simp, by simp⟩
    · cases r <;> rfl
    · cases r <;> rfl
    · cases r <;> rfl
    · rw [eigenclass?, singleton_updateSingleton f hr]
      split
      · exact hf _
      · rfl
  · rw [updateSingleton_of_not_hasRecord hr]
    exact refl s

theorem of_setTable (s : Image) (t : Target) (x : SlotTable) : Twin s (s.setTable t x) := by
  cases t with
  | prototype c =>
    by_cases hc : c.index < s.classes.size
    · have hdata := fun a => classData_updateClass (a := a) (fun d => { d with prototype := x }) hc
      refine ⟨rfl, rfl, rfl, rfl, Array.size_modify .., rfl, fun r => ?_, fun a => ?_, fun a => ?_,
        fun _ => rfl, fun _ => rfl⟩
      · cases r with
        | «class» a =>
          simp only [eigenclass?, singleton, setTable, hdata]
          split <;> rfl
        | object o => rfl
        | module m => rfl
      · simp only [Image.instanceModule, setTable, hdata]
        split <;> rfl
      · simp only [Image.superclass, setTable, hdata]
        split <;> rfl
    · rw [setTable, updateClass, modify_of_size_le _ (Nat.le_of_not_lt hc)]
      exact refl s
  | singleton r => exact of_updateSingleton s r (f := fun d => { d with slots := x }) fun _ => rfl
  | classBase => exact { refl s with symbols := rfl }
  | moduleBase => exact { refl s with symbols := rfl }

theorem of_resolveOne (s : Image) (m : ModuleId) : Twin s (s.resolveOne m) := by
  unfold Image.resolveOne
  split
  · exact of_setTable ..
  · exact refl s

theorem of_resolve (s : Image) (m : ModuleId) : Twin s (s.resolve m) := by
  unfold resolve
  generalize s.graph.affected m = ms
  induction ms generalizing s with
  | nil => exact refl s
  | cons a ms ih => exact (of_resolveOne s a).trans (ih _)

theorem of_foldl_resolve (s : Image) (ms : List ModuleId) : Twin s (ms.foldl Image.resolve s) := by
  induction ms generalizing s with
  | nil => exact refl s
  | cons m ms ih => exact (of_resolve s m).trans (ih _)

theorem of_define (s : Image) (owner : ModuleId) (name : Symbol) (m : Method) (resolving : Bool) :
    Twin (Image.watch { s with graph := s.graph.setMethod owner name m } name)
      (s.define owner name m resolving) := by
  unfold Image.define
  dsimp only
  split
  · split
    · exact (of_resolve _ owner).trans (of_resolve _ .gate)
    · exact of_resolve _ owner
  · exact refl _

/-- Watching a name for everybody to know of comes to watching it. -/
theorem of_watchNow (s : Image) (name : Symbol) : Twin (s.watch name) (s.watchNow name) := by
  unfold Image.watchNow
  split
  · exact of_resolve _ .gate
  · rename_i h
    rw [Image.watch, if_neg h]
    exact refl s

theorem of_link (s : Image) (owner other : ModuleId) (resolving : Bool) :
    Twin { s with graph := s.graph.addEdge owner other } (s.link owner other resolving) := by
  unfold Image.link
  dsimp only
  split
  · exact of_resolve _ owner
  · exact refl _

end Tables

variable (h : Twin s s')
include h

theorem hasRecord (r : Receiver) : s'.HasRecord r ↔ s.HasRecord r := by
  cases r with
  | object o => rw [HasRecord, HasRecord, h.objects]
  | «class» c => rw [HasRecord, HasRecord, h.classes]
  | module m => exact Iff.rfl

theorem alive (r : Receiver) : s'.Alive r ↔ s.Alive r := by
  cases r with
  | object o => rw [Alive, Alive, LiveObject, LiveObject, h.objects, h.released]
  | «class» c => rw [Alive, Alive, LiveClass, LiveClass, h.classes]
  | module m => rw [Alive, Alive, h.graph]

theorem effectiveModule (r : Receiver) : s'.effectiveModule r = s.effectiveModule r :=
  effectiveModule_congr h.eigenclass h.instanceModule h.superclass h.classes fun o _ => h.classOf o

theorem backed (m : ModuleId) : s'.backed m = s.backed m := by
  rw [Image.backed, Image.backed, h.graph]

theorem intern (text : String) : (s'.intern text).1 = (s.intern text).1 ∧
    Twin (s.intern text).2 (s'.intern text).2 := by
  unfold Image.intern
  rw [h.symbols]
  exact ⟨rfl, { h with symbols := rfl }⟩

theorem watch (name : Symbol) : Twin (s.watch name) (s'.watch name) := by
  unfold Image.watch
  rw [h.gate]
  split
  · exact { h with
      gate := rfl
      graph := congrArg (Graph.setMethod · .gate name (.stub name)) h.graph }
  · exact h

/-- Whether definitions are resolved makes no difference to twins. -/
theorem define (owner : ModuleId) (name : Symbol) (m : Method) (resolving resolving' : Bool) :
    Twin (s.define owner name m resolving) (s'.define owner name m resolving') := by
  have hgraph : Twin { s with graph := s.graph.setMethod owner name m }
      { s' with graph := s'.graph.setMethod owner name m } :=
    { h with graph := congrArg (Graph.setMethod · owner name m) h.graph }
  exact ((of_define s ..).symm.trans (hgraph.watch name)).trans (of_define s' ..)

theorem link (owner other : ModuleId) (resolving resolving' : Bool) :
    Twin (s.link owner other resolving) (s'.link owner other resolving') := by
  have hgraph : Twin { s with graph := s.graph.addEdge owner other }
      { s' with graph := s'.graph.addEdge owner other } :=
    { h with graph := congrArg (Graph.addEdge · owner other) h.graph }
  exact ((of_link s ..).symm.trans hgraph).trans (of_link s' ..)

theorem setEigenclass (r : Receiver) (m : ModuleId) :
    Twin (s.updateSingleton r fun d => { d with eigenclass := some m })
      (s'.updateSingleton r fun d => { d with eigenclass := some m }) := by
  by_cases hr : s.HasRecord r
  · have hr' := (h.hasRecord r).2 hr
    refine ⟨?_, by simp [h.graph], ?_, ?_, by simp [h.classes], by simp [h.objects], fun a => ?_,
      by simp [h.instanceModule], by simp [h.superclass], by simp [h.classOf], by simp [h.released]⟩
    · cases r <;> exact h.symbols
    · cases r <;> exact h.gate
    · cases r <;> exact h.observers
    · rw [eigenclass?, eigenclass?, singleton_updateSingleton _ hr, singleton_updateSingleton _ hr']
      split
      · rfl
      · exact h.eigenclass a
  · rw [updateSingleton_of_not_hasRecord hr,
      updateSingleton_of_not_hasRecord (mt (h.hasRecord r).1 hr)]
    exact h

theorem materialize (r : Receiver) (parent : ModuleId) :
    (s'.materialize r parent).1 = (s.materialize r parent).1 ∧
      Twin (s.materialize r parent).2 (s'.materialize r parent).2 := by
  have halloc : s'.graph.alloc { target := some (.singleton r) } =
      s.graph.alloc { target := some (.singleton r) } := by rw [h.graph]
  unfold Image.materialize
  rw [halloc]
  dsimp only
  refine ⟨rfl, link (setEigenclass ?_ _ _) _ _ _ _⟩
  exact { h with graph := rfl }

theorem classEigenclass (line : List ClassId) :
    (s'.classEigenclass line).1 = (s.classEigenclass line).1 ∧
      Twin (s.classEigenclass line).2 (s'.classEigenclass line).2 := by
  induction line with
  | nil => exact ⟨rfl, h⟩
  | cons c above ih =>
    unfold Image.classEigenclass
    rw [h.eigenclass]
    cases s.eigenclass? (.class c) with
    | some m => exact ⟨rfl, h⟩
    | none =>
      obtain ⟨hparent, habove⟩ := ih
      have hmake := habove.materialize (.class c) (s.classEigenclass above).1
      dsimp only
      rw [hparent]
      exact hmake

theorem giveEigenclass (r : Receiver) : (s'.eigenclass r).1 = (s.eigenclass r).1 ∧
    Twin (s.eigenclass r).2 (s'.eigenclass r).2 := by
  have he := h.eigenclass r
  cases r with
  | «class» c =>
    simp only [Image.eigenclass, lineOf_congr h.superclass h.classes]
    exact h.classEigenclass (s.lineOf c)
  | object o =>
    simp only [Image.eigenclass, he, h.classOf, h.instanceModule]
    cases s.eigenclass? (.object o) with
    | some m => exact ⟨rfl, h⟩
    | none => exact h.materialize _ _
  | module a =>
    simp only [Image.eigenclass, he]
    cases s.eigenclass? (.module a) with
    | some m => exact ⟨rfl, h⟩
    | none => exact h.materialize _ _

end Twin

end Image

end Mixin
