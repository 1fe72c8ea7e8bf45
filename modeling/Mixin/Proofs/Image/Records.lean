import Mathlib.Tactic.ByContra
import Mixin.Image.Receivers
import Mixin.Image.Objects

/-! Reading a record after it has been changed. Each change to a class, an object, a singleton or a
table is seen at its own place and nowhere else. -/

namespace Mixin

theorem modify_of_size_le {α : Type} {xs : Array α} {i : Nat} (f : α → α) (h : xs.size ≤ i) :
    xs.modify i f = xs := by
  refine Array.ext_getElem? fun j => ?_
  rw [Array.getElem?_modify]
  split
  · rename_i he
    subst he
    rw [Array.getElem?_eq_none h]
    rfl
  · rfl

namespace Image

variable {s : Image}

/-- There is a record that a receiver's singleton can be stored in. -/
def HasRecord (s : Image) : Receiver → Prop
  | .object o => o.index < s.objects.size
  | .class c => c.index < s.classes.size
  | .module _ => True

instance (s : Image) (r : Receiver) : Decidable (s.HasRecord r) :=
  match r with
  | .object _ => inferInstanceAs (Decidable (_ < _))
  | .class _ => inferInstanceAs (Decidable (_ < _))
  | .module _ => inferInstanceAs (Decidable True)

theorem objectData_updateObject {o a : ObjectId} (f : ObjectData → ObjectData)
    (h : o.index < s.objects.size) :
    (s.updateObject o f).objectData a = if a = o then f (s.objectData a) else s.objectData a := by
  split
  · rename_i he
    subst he
    simp [updateObject, objectData, h, Array.getElem_modify]
  · rename_i he
    have hne : o.index ≠ a.index := fun h => he (by cases a; cases o; cases h; rfl)
    simp [updateObject, objectData, Array.getElem?_modify, hne]

theorem updateObject_of_size_le {o : ObjectId} {f : ObjectData → ObjectData}
    (h : s.objects.size ≤ o.index) : s.updateObject o f = s := by
  rw [updateObject, modify_of_size_le _ h]

theorem objectData_updateObject_of_ne {o a : ObjectId} {f : ObjectData → ObjectData} (h : a ≠ o) :
    (s.updateObject o f).objectData a = s.objectData a := by
  by_cases ho : o.index < s.objects.size
  · rw [objectData_updateObject f ho, if_neg h]
  · rw [updateObject_of_size_le (Nat.le_of_not_lt ho)]

theorem classData_updateClass {c a : ClassId} (f : ClassData → ClassData)
    (h : c.index < s.classes.size) :
    (s.updateClass c f).classData a = if a = c then f (s.classData a) else s.classData a := by
  split
  · rename_i he
    subst he
    simp [updateClass, classData, h, Array.getElem_modify]
  · rename_i he
    have hne : c.index ≠ a.index := fun h => he (by cases a; cases c; cases h; rfl)
    simp [updateClass, classData, Array.getElem?_modify, hne]

theorem objectData_of_size_le {o : ObjectId} (h : s.objects.size ≤ o.index) :
    s.objectData o = default := by
  simp [objectData, Array.getElem?_eq_none h]

theorem classData_of_size_le {c : ClassId} (h : s.classes.size ≤ c.index) :
    s.classData c = default := by
  simp [classData, Array.getElem?_eq_none h]

theorem singleton_of_not_hasRecord {r : Receiver} (h : ¬ s.HasRecord r) : s.singleton r = {} := by
  cases r with
  | object o => rw [singleton, objectData_of_size_le (Nat.le_of_not_lt h)]; rfl
  | «class» c => rw [singleton, classData_of_size_le (Nat.le_of_not_lt h)]; rfl
  | module m => exact absurd trivial h

theorem hasRecord_of_eigenclass {r : Receiver} {m : ModuleId} (h : s.eigenclass? r = some m) :
    s.HasRecord r := by
  by_contra hr
  rw [eigenclass?, singleton_of_not_hasRecord hr] at h
  cases h

theorem singleton_updateSingleton {r a : Receiver} (f : Singleton → Singleton)
    (h : s.HasRecord r) :
    (s.updateSingleton r f).singleton a = if a = r then f (s.singleton a) else s.singleton a := by
  cases r with
  | object o =>
    cases a with
    | object a =>
      simp only [updateSingleton, singleton, objectData_updateObject _ h, Receiver.object.injEq]
      split <;> rfl
    | «class» a => rfl
    | module a => rfl
  | «class» c =>
    cases a with
    | object a => rfl
    | «class» a =>
      simp only [updateSingleton, singleton, classData_updateClass _ h, Receiver.class.injEq]
      split <;> rfl
    | module a => rfl
  | module m =>
    cases a with
    | object a => rfl
    | «class» a => rfl
    | module a =>
      simp only [updateSingleton, singleton, Std.ExtTreeMap.getElem?_insert, Receiver.module.injEq,
        Std.LawfulEqOrd.compare_eq_iff_eq]
      by_cases hm : m = a
      · subst hm
        simp
      · simp [hm, Ne.symm hm]

section UpdateSingleton

variable (r : Receiver) (f : Singleton → Singleton)

theorem objectData_updateSingleton (o : ObjectId) : (s.updateSingleton r f).objectData o =
    { s.objectData o with singleton := (s.updateSingleton r f).singleton (.object o) } := by
  cases r with
  | object a =>
    by_cases h : a.index < s.objects.size
    · simp only [updateSingleton, singleton, objectData_updateObject _ h]
      split <;> rfl
    · simp [updateSingleton, updateObject, objectData, singleton, Array.getElem?_modify]
      split <;> simp_all
  | «class» c => rfl
  | module m => rfl

theorem classData_updateSingleton (c : ClassId) : (s.updateSingleton r f).classData c =
    { s.classData c with side := (s.updateSingleton r f).singleton (.class c) } := by
  cases r with
  | object o => rfl
  | «class» a =>
    by_cases h : a.index < s.classes.size
    · simp only [updateSingleton, singleton, classData_updateClass _ h]
      split <;> rfl
    · simp [updateSingleton, updateClass, classData, singleton, Array.getElem?_modify]
      split <;> simp_all
  | module m => rfl

@[simp]
theorem classOf_updateSingleton (o : ObjectId) :
    (s.updateSingleton r f).classOf o = s.classOf o := by
  rw [classOf, objectData_updateSingleton]
  rfl

@[simp]
theorem released_updateSingleton (o : ObjectId) :
    ((s.updateSingleton r f).objectData o).released = (s.objectData o).released := by
  rw [objectData_updateSingleton]

@[simp]
theorem instanceModule_updateSingleton (c : ClassId) :
    (s.updateSingleton r f).instanceModule c = s.instanceModule c := by
  rw [instanceModule, classData_updateSingleton]
  rfl

@[simp]
theorem superclass_updateSingleton (c : ClassId) :
    (s.updateSingleton r f).superclass c = s.superclass c := by
  rw [superclass, classData_updateSingleton]
  rfl

@[simp]
theorem graph_updateSingleton : (s.updateSingleton r f).graph = s.graph := by cases r <;> rfl

@[simp]
theorem size_classes_updateSingleton :
    (s.updateSingleton r f).classes.size = s.classes.size := by
  cases r <;> simp [updateSingleton, updateClass, updateObject]

@[simp]
theorem size_objects_updateSingleton :
    (s.updateSingleton r f).objects.size = s.objects.size := by
  cases r <;> simp [updateSingleton, updateClass, updateObject]

@[simp]
theorem freeObjects_updateSingleton : (s.updateSingleton r f).freeObjects = s.freeObjects := by
  cases r <;> rfl

end UpdateSingleton

/-- There is a place that a target's table can be stored in. -/
def HasTable (s : Image) : Target → Prop
  | .prototype c => c.index < s.classes.size
  | .singleton r => s.HasRecord r
  | .classBase | .moduleBase => True

section Grown

variable {s' : Image} (hc : s.classes.size ≤ s'.classes.size)
  (ho : s.objects.size ≤ s'.objects.size)
include hc ho

theorem HasRecord.grown {r : Receiver} (h : s.HasRecord r) : s'.HasRecord r := by
  cases r with
  | object o => exact Nat.lt_of_lt_of_le h ho
  | «class» c => exact Nat.lt_of_lt_of_le h hc
  | module m => trivial

theorem HasTable.grown {t : Target} (h : s.HasTable t) : s'.HasTable t := by
  cases t with
  | prototype c => exact Nat.lt_of_lt_of_le h hc
  | singleton r => exact HasRecord.grown hc ho h
  | classBase => trivial
  | moduleBase => trivial

end Grown

theorem table_setTable {t u : Target} (x : SlotTable) (h : s.HasTable t) :
    (s.setTable t x).table u = if u = t then x else s.table u := by
  cases t with
  | prototype c =>
    cases u with
    | prototype a =>
      simp only [setTable, table, classData_updateClass _ h, Target.prototype.injEq]
      split <;> rfl
    | singleton r =>
      cases r with
      | object o => rfl
      | «class» a =>
        simp only [setTable, table, singleton, classData_updateClass _ h, reduceCtorEq, if_false]
        split <;> rfl
      | module m => rfl
    | classBase => rfl
    | moduleBase => rfl
  | singleton r =>
    cases u with
    | prototype a => simp only [setTable, table, classData_updateSingleton, reduceCtorEq, if_false]
    | singleton a =>
      simp only [setTable, table, singleton_updateSingleton _ h, Target.singleton.injEq]
      split <;> rfl
    | classBase => cases r <;> rfl
    | moduleBase => cases r <;> rfl
  | classBase => cases u <;> rfl
  | moduleBase => cases u <;> rfl

end Image

end Mixin
