import Mixin.Compose
import Mixin.Image.Boot

/-! Who is being described is known to descriptions alone: no edit of an image touches it. -/

namespace Mixin

namespace Image

variable {s : Image}

@[simp] theorem describing_intern (text : String) : (s.intern text).2.describing = s.describing :=
  rfl

@[simp] theorem describing_updateSingleton (r : Receiver) (f : Singleton → Singleton) :
    (s.updateSingleton r f).describing = s.describing := by
  cases r <;> rfl

@[simp] theorem describing_resolveOne (m : ModuleId) :
    (s.resolveOne m).describing = s.describing := by
  unfold resolveOne
  split
  · rename_i t ht
    cases t with
    | singleton r => exact describing_updateSingleton r _
    | _ => rfl
  · rfl

@[simp] theorem describing_resolve (m : ModuleId) : (s.resolve m).describing = s.describing := by
  unfold resolve
  generalize s.graph.affected m = ms
  induction ms generalizing s with
  | nil => rfl
  | cons x ms ih => rw [List.foldl_cons, ih, describing_resolveOne]

@[simp] theorem describing_foldl_resolve (ms : List ModuleId) :
    (ms.foldl resolve s).describing = s.describing := by
  induction ms generalizing s with
  | nil => rfl
  | cons m ms ih => rw [List.foldl_cons, ih, describing_resolve]

@[simp] theorem describing_watch (name : Symbol) : (s.watch name).describing = s.describing := by
  unfold watch
  split <;> rfl

@[simp] theorem describing_watchNow (name : Symbol) :
    (s.watchNow name).describing = s.describing := by
  unfold watchNow
  split <;> simp

@[simp] theorem describing_prepare (r : Receiver) (name : Symbol) :
    (s.prepare r name).describing = s.describing := by
  unfold prepare
  split <;> simp

@[simp] theorem describing_define (owner : ModuleId) (name : Symbol) (m : Method)
    (resolving : Bool) : (s.define owner name m resolving).describing = s.describing := by
  unfold define
  dsimp only
  split
  · split <;> simp
  · simp

@[simp] theorem describing_link (owner other : ModuleId) (resolving : Bool) :
    (s.link owner other resolving).describing = s.describing := by
  unfold link
  split <;> simp

@[simp] theorem describing_defineModule (name : String) :
    (s.defineModule name).2.describing = s.describing := rfl

@[simp] theorem describing_materialize (r : Receiver) (parent : ModuleId) :
    (s.materialize r parent).2.describing = s.describing := by
  simp [materialize]

@[simp] theorem describing_classEigenclass (line : List ClassId) :
    (s.classEigenclass line).2.describing = s.describing := by
  induction line with
  | nil => rfl
  | cons c above ih =>
    unfold classEigenclass
    split
    · rfl
    · rw [describing_materialize, ih]

@[simp] theorem describing_eigenclass (r : Receiver) :
    (s.eigenclass r).2.describing = s.describing := by
  unfold eigenclass
  split <;> simp

@[simp] theorem describing_taker (place : Place) :
    (s.taker place).2.describing = s.describing := by
  cases place with
  | into owner options => rfl
  | onto r => exact describing_eigenclass r

@[simp] theorem describing_defineClass (name : String) (superclass : Option ClassId) :
    (s.defineClass name superclass).2.describing = s.describing := by
  simp [defineClass]

@[simp] theorem describing_defineInstanceMethod (c : ClassId) (name : String) (m : Method) :
    (s.defineInstanceMethod c name m).describing = s.describing := by
  simp [defineInstanceMethod]

@[simp] theorem describing_defineClassMethod (c : ClassId) (name : String) (m : Method) :
    (s.defineClassMethod c name m).describing = s.describing := by
  simp [defineClassMethod]

@[simp] theorem describing_allocate (c : ClassId) :
    (s.allocate c).2.describing = s.describing := by
  unfold allocate
  split <;> rfl

@[simp] theorem describing_release (o : ObjectId) : (s.release o).describing = s.describing := by
  unfold release
  dsimp only
  split
  · rfl
  · split <;> simp [updateObject]

@[simp] theorem describing_setField (o : ObjectId) (name : String) (v : Value) :
    (s.setField o name v).describing = s.describing := rfl

@[simp] theorem describing_chainFor (r : Receiver) (name : Symbol) :
    (s.chainFor r name).2.describing = s.describing := by
  unfold chainFor
  dsimp only
  split <;> simp

theorem endDescribing_of_head {r : Receiver} {D : List Receiver} (h : s.describing = r :: D) :
    (s.endDescribing r).describing = D := by
  rw [endDescribing, h]
  exact List.erase_cons_head ..

end Image

theorem Setup.describing_boot (u : Setup) : u.boot.describing = [] := by
  have hwatch (s : Image) (names : List Symbol) :
      (names.foldl Image.watch s).describing = s.describing := by
    induction names generalizing s with
    | nil => rfl
    | cons a names ih => rw [List.foldl_cons, ih, Image.describing_watch]
  unfold boot
  simp [hwatch]

end Mixin
