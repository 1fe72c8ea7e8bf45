import Mixin.Image.Resolve
import Mixin.Proofs.Graph.Sound
import Mixin.Proofs.Image.Records

/-! What every edit keeps of an image. Each target belongs to one module, and the module names it:
an eigenclass points at the receiver that points at it, and so do a class and its module. Most edits
leave all of this as it is and change methods, edges or tables only; such images are akin. -/

namespace Mixin

namespace Image

variable {s s' s'' : Image}

def LiveClass (s : Image) (c : ClassId) : Prop := c.index < s.classes.size

/-- The object has been made and has not been released. -/
def LiveObject (s : Image) (o : ObjectId) : Prop :=
  o.index < s.objects.size ∧ (s.objectData o).released = false

def Alive (s : Image) : Receiver → Prop
  | .object o => s.LiveObject o
  | .class c => s.LiveClass c
  | .module m => s.graph.Live m

instance (s : Image) (c : ClassId) : Decidable (s.LiveClass c) :=
  inferInstanceAs (Decidable (_ < _))

instance (s : Image) (o : ObjectId) : Decidable (s.LiveObject o) :=
  inferInstanceAs (Decidable (_ ∧ _))

instance (s : Image) (r : Receiver) : Decidable (s.Alive r) :=
  match r with
  | .object o => inferInstanceAs (Decidable (s.LiveObject o))
  | .class c => inferInstanceAs (Decidable (s.LiveClass c))
  | .module m => inferInstanceAs (Decidable (s.graph.Live m))

theorem Alive.hasRecord {r : Receiver} (h : s.Alive r) : s.HasRecord r := by
  cases r with
  | object o => exact h.1
  | «class» c => exact h
  | module m => trivial

/-- The module that a target belongs to, as the target's own record has it. -/
def holder? (s : Image) : Target → Option ModuleId
  | .prototype c => if c.index < s.classes.size then some (s.instanceModule c) else none
  | .singleton r => s.eigenclass? r
  | .classBase => some .classRoot
  | .moduleBase => some .moduleRoot

theorem liveClass_of_holder {s : Image} {c : ClassId} {m : ModuleId}
    (h : s.holder? (.prototype c) = some m) : s.LiveClass c := by
  by_contra hc
  have hnone : s.holder? (.prototype c) = none := if_neg hc
  rw [hnone] at h
  cases h

theorem liveClass_of_superclass {c d : ClassId} (h : s.superclass c = some d) : s.LiveClass c := by
  by_contra hc
  rw [superclass, classData_of_size_le (Nat.le_of_not_lt hc)] at h
  cases h

theorem holder_congr (he : ∀ r, s'.eigenclass? r = s.eigenclass? r)
    (hi : ∀ c, s'.instanceModule c = s.instanceModule c) (hc : s'.classes.size = s.classes.size)
    (t : Target) : s'.holder? t = s.holder? t := by
  cases t with
  | prototype c => rw [holder?, holder?, hc, hi]
  | singleton r => exact he r
  | classBase => rfl
  | moduleBase => rfl

structure Sound (s : Image) : Prop where
  graph : s.graph.Sound
  target_iff : ∀ m t, (s.graph.node m).target = some t ↔ s.holder? t = some m
  live_gate : s.graph.Live .gate
  target_gate : (s.graph.node .gate).target = none
  live_kernel : s.graph.Live .kernel
  target_kernel : (s.graph.node .kernel).target = none
  superclass_lt : ∀ c d, s.superclass c = some d → d.index < c.index
  classOf_live : ∀ o, s.LiveObject o → s.LiveClass (s.classOf o)
  free_iff : ∀ o, o ∈ s.freeObjects ↔
    o.index < s.objects.size ∧ (s.objectData o).released = true
  free_nodup : s.freeObjects.Nodup
  released : ∀ o, (s.objectData o).released = true → (s.objectData o).singleton = {}

namespace Sound

variable (hs : s.Sound)
include hs

theorem live_holder {t : Target} {m : ModuleId} (h : s.holder? t = some m) : s.graph.Live m :=
  hs.graph.live_of_target ((hs.target_iff m t).2 h)

theorem live_eigenclass {r : Receiver} {m : ModuleId} (h : s.eigenclass? r = some m) :
    s.graph.Live m :=
  hs.live_holder (t := .singleton r) h

/-- The gate is for nothing in particular, so a module that is for something is another one. -/
theorem ne_gate_of_target {t : Target} {m : ModuleId} (h : (s.graph.node m).target = some t) :
    m ≠ .gate := by
  rintro rfl
  rw [hs.target_gate] at h
  cases h

theorem ne_gate_of_holder {t : Target} {m : ModuleId} (h : s.holder? t = some m) : m ≠ .gate :=
  hs.ne_gate_of_target ((hs.target_iff m t).2 h)

theorem live_moduleRoot : s.graph.Live .moduleRoot := hs.live_holder (t := .moduleBase) rfl

theorem live_classRoot : s.graph.Live .classRoot := hs.live_holder (t := .classBase) rfl

theorem live_instanceModule {c : ClassId} (h : s.LiveClass c) :
    s.graph.Live (s.instanceModule c) :=
  hs.live_holder (t := .prototype c) (if_pos h)

theorem liveObject_of_eigenclass {o : ObjectId} {m : ModuleId}
    (h : s.eigenclass? (.object o) = some m) : s.LiveObject o := by
  refine ⟨hasRecord_of_eigenclass h, ?_⟩
  by_contra hr
  rw [Bool.not_eq_false] at hr
  have hblank : s.eigenclass? (.object o) = none := by
    rw [eigenclass?, singleton, hs.released o hr]
  rw [hblank] at h
  cases h

theorem hasTable {t : Target} {m : ModuleId} (h : (s.graph.node m).target = some t) :
    s.HasTable t := by
  have hm := (hs.target_iff m t).1 h
  cases t with
  | prototype c => exact liveClass_of_holder hm
  | singleton r => exact hasRecord_of_eigenclass hm
  | classBase => trivial
  | moduleBase => trivial

theorem target_inj {t : Target} {m m' : ModuleId} (h : (s.graph.node m).target = some t)
    (h' : (s.graph.node m').target = some t) : m = m' :=
  Option.some.inj (((hs.target_iff m t).1 h).symm.trans ((hs.target_iff m' t).1 h'))

theorem superclass_live {c d : ClassId} (h : s.superclass c = some d) : s.LiveClass d :=
  Nat.lt_trans (hs.superclass_lt c d h) (liveClass_of_superclass h)

end Sound

/-- The same receivers with the same eigenclasses, classes and targets; methods, edges, tables and
what is remembered may differ. -/
structure Akin (s s' : Image) : Prop where
  graph : s.graph.Sound → s'.graph.Sound
  live : ∀ m, s'.graph.Live m ↔ s.graph.Live m
  target : ∀ m, (s'.graph.node m).target = (s.graph.node m).target
  eigenclass : ∀ r, s'.eigenclass? r = s.eigenclass? r
  classes : s'.classes.size = s.classes.size
  instanceModule : ∀ c, s'.instanceModule c = s.instanceModule c
  superclass : ∀ c, s'.superclass c = s.superclass c
  objects : s'.objects.size = s.objects.size
  classOf : ∀ o, s'.classOf o = s.classOf o
  released : ∀ o, (s'.objectData o).released = (s.objectData o).released
  blank : ∀ o, (s.objectData o).released = true → (s.objectData o).singleton = {} →
    (s'.objectData o).singleton = {}
  free : s'.freeObjects = s.freeObjects

namespace Akin

theorem refl (s : Image) : Akin s s where
  graph h := h
  live _ := Iff.rfl
  target _ := rfl
  eigenclass _ := rfl
  classes := rfl
  instanceModule _ := rfl
  superclass _ := rfl
  objects := rfl
  classOf _ := rfl
  released _ := rfl
  blank _ _ h := h
  free := rfl

theorem trans (h : Akin s s') (h' : Akin s' s'') : Akin s s'' where
  graph hg := h'.graph (h.graph hg)
  live m := (h'.live m).trans (h.live m)
  target m := (h'.target m).trans (h.target m)
  eigenclass r := (h'.eigenclass r).trans (h.eigenclass r)
  classes := h'.classes.trans h.classes
  instanceModule c := (h'.instanceModule c).trans (h.instanceModule c)
  superclass c := (h'.superclass c).trans (h.superclass c)
  objects := h'.objects.trans h.objects
  classOf o := (h'.classOf o).trans (h.classOf o)
  released o := (h'.released o).trans (h.released o)
  blank o hr hb := h'.blank o ((h.released o).trans hr) (h.blank o hr hb)
  free := h'.free.trans h.free

theorem liveClass (h : Akin s s') (c : ClassId) : s'.LiveClass c ↔ s.LiveClass c := by
  rw [LiveClass, LiveClass, h.classes]

theorem liveObject (h : Akin s s') (o : ObjectId) : s'.LiveObject o ↔ s.LiveObject o := by
  rw [LiveObject, LiveObject, h.objects, h.released]

theorem alive (h : Akin s s') (r : Receiver) : s'.Alive r ↔ s.Alive r := by
  cases r with
  | object o => exact h.liveObject o
  | «class» c => exact h.liveClass c
  | module m => exact h.live m

theorem holder? (h : Akin s s') (t : Target) : s'.holder? t = s.holder? t :=
  holder_congr h.eigenclass h.instanceModule h.classes t

theorem sound (h : Akin s s') (hs : s.Sound) : s'.Sound where
  graph := h.graph hs.graph
  target_iff m t := by rw [h.target, h.holder?]; exact hs.target_iff m t
  live_gate := (h.live _).2 hs.live_gate
  target_gate := (h.target _).trans hs.target_gate
  live_kernel := (h.live _).2 hs.live_kernel
  target_kernel := (h.target _).trans hs.target_kernel
  superclass_lt c d hd := hs.superclass_lt c d ((h.superclass c).symm.trans hd)
  classOf_live o ho := by
    rw [h.liveClass, h.classOf]
    exact hs.classOf_live o ((h.liveObject o).1 ho)
  free_iff o := by rw [h.free, h.objects, h.released]; exact hs.free_iff o
  free_nodup := h.free ▸ hs.free_nodup
  released o ho := by
    rw [h.released] at ho
    exact h.blank o ho (hs.released o ho)

theorem of_records (hg : s.graph.Sound → s'.graph.Sound)
    (hl : ∀ m, s'.graph.Live m ↔ s.graph.Live m)
    (ht : ∀ m, (s'.graph.node m).target = (s.graph.node m).target) (hc : s'.classes = s.classes)
    (ho : s'.objects = s.objects) (hm : s'.moduleSides = s.moduleSides)
    (hf : s'.freeObjects = s.freeObjects) : Akin s s' where
  graph := hg
  live := hl
  target := ht
  eigenclass r := by
    cases r <;> simp only [eigenclass?, singleton, objectData, classData, hc, ho, hm]
  classes := by rw [hc]
  instanceModule c := by rw [Image.instanceModule, classData, hc]; rfl
  superclass c := by rw [Image.superclass, classData, hc]; rfl
  objects := by rw [ho]
  classOf o := by rw [Image.classOf, objectData, ho]; rfl
  released o := by rw [objectData, ho]; rfl
  blank o _ hb := by rw [objectData, ho]; exact hb
  free := hf

theorem of_updateSingleton {r : Receiver} {f : Singleton → Singleton} (hr : s.HasRecord r)
    (hf : (f (s.singleton r)).eigenclass = (s.singleton r).eigenclass)
    (hrel : ∀ o, r = .object o → (s.objectData o).released = false) :
    Akin s (s.updateSingleton r f) := by
  refine ⟨fun hg => by simpa using hg, fun m => by simp, fun m => by simp, fun a => ?_, by simp,
    by simp, by simp, by simp, by simp, by simp, fun o ho hb => ?_, by simp⟩
  · rw [eigenclass?, singleton_updateSingleton f hr]
    split
    · rename_i ha
      rw [ha, hf, eigenclass?]
    · rfl
  · have hne : Receiver.object o ≠ r := fun he => by
      rw [hrel o he.symm] at ho
      cases ho
    show (s.updateSingleton r f).singleton (.object o) = {}
    rw [singleton_updateSingleton f hr, if_neg hne]
    exact hb

theorem of_setTable (hs : s.Sound) {m : ModuleId} {t : Target}
    (ht : (s.graph.node m).target = some t) (x : SlotTable) : Akin s (s.setTable t x) := by
  have htab := hs.hasTable ht
  cases t with
  | prototype c =>
    have heigen : ∀ r, (s.setTable (.prototype c) x).eigenclass? r = s.eigenclass? r := by
      intro r
      cases r with
      | object o => rfl
      | «class» a =>
        simp only [eigenclass?, singleton, setTable, classData_updateClass _ htab]
        split <;> rfl
      | module a => rfl
    refine ⟨fun hg => hg, fun _ => Iff.rfl, fun _ => rfl, heigen, Array.size_modify .., fun a => ?_,
      fun a => ?_, rfl, fun _ => rfl, fun _ => rfl, fun _ _ h => h, rfl⟩
    · simp only [Image.instanceModule, setTable, classData_updateClass _ htab]
      split <;> rfl
    · simp only [Image.superclass, setTable, classData_updateClass _ htab]
      split <;> rfl
  | singleton r =>
    refine of_updateSingleton (f := fun d => { d with slots := x }) htab rfl fun o ho => ?_
    subst ho
    exact (hs.liveObject_of_eigenclass ((hs.target_iff m _).1 ht)).2
  | classBase => exact of_records (fun hg => hg) (fun _ => Iff.rfl) (fun _ => rfl) rfl rfl rfl rfl
  | moduleBase => exact of_records (fun hg => hg) (fun _ => Iff.rfl) (fun _ => rfl) rfl rfl rfl rfl

end Akin

section Resolve

variable (hs : s.Sound)

theorem graph_setTable (t : Target) (x : SlotTable) : (s.setTable t x).graph = s.graph := by
  cases t with
  | singleton r => cases r <;> rfl
  | _ => rfl

theorem graph_resolveOne (m : ModuleId) : (s.resolveOne m).graph = s.graph := by
  unfold resolveOne resolveTarget
  split
  · exact graph_setTable ..
  · rfl

theorem graph_foldl_resolveOne (ms : List ModuleId) :
    (ms.foldl resolveOne s).graph = s.graph := by
  induction ms generalizing s with
  | nil => rfl
  | cons m ms ih => rw [List.foldl_cons, ih, graph_resolveOne]

@[simp]
theorem graph_resolve (m : ModuleId) : (s.resolve m).graph = s.graph := graph_foldl_resolveOne _

theorem graph_foldl_resolve (ms : List ModuleId) : (ms.foldl resolve s).graph = s.graph := by
  induction ms generalizing s with
  | nil => rfl
  | cons m ms ih => rw [List.foldl_cons, ih, graph_resolve]

include hs

theorem Akin.resolveOne (m : ModuleId) : Akin s (s.resolveOne m) := by
  unfold Image.resolveOne
  split
  · rename_i t ht
    exact Akin.of_setTable hs ht _
  · exact Akin.refl s

theorem Akin.foldl_resolveOne (ms : List ModuleId) : Akin s (ms.foldl Image.resolveOne s) := by
  induction ms generalizing s with
  | nil => exact Akin.refl s
  | cons m ms ih =>
    have hm := Akin.resolveOne hs m
    exact hm.trans (ih (hm.sound hs))

/-- Resolution writes tables and nothing else. -/
theorem Akin.resolve (m : ModuleId) : Akin s (s.resolve m) := Akin.foldl_resolveOne hs _

theorem Akin.foldl_resolve (ms : List ModuleId) : Akin s (ms.foldl Image.resolve s) := by
  induction ms generalizing s with
  | nil => exact Akin.refl s
  | cons m ms ih =>
    have hm := Akin.resolve hs m
    exact hm.trans (ih (hm.sound hs))

theorem Sound.resolve (m : ModuleId) : (s.resolve m).Sound := (Akin.resolve hs m).sound hs

end Resolve

end Image

end Mixin
