import Mixin.Proofs.Image.Gated
import Mixin.Proofs.Image.Gathers

/-! The fields of objects. They are stored under the symbols of their names, and a name that has no
symbol yet is the name of no field; so a field reads the same before and after whatever is done to the
image besides storing in it, making the object and releasing it. -/

namespace Mixin

namespace SymbolTable

variable {t t' t'' : SymbolTable}

/-- Texts keep their symbols, and other texts get new ones. -/
structure Grows (t t' : SymbolTable) : Prop where
  found : ∀ s a, t.find? s = some a → t'.find? s = some a
  fresh : ∀ s a, t.find? s = none → t'.find? s = some a → t.size ≤ a.index
  size : t.size ≤ t'.size

theorem Grows.refl (t : SymbolTable) : Grows t t := by
  refine ⟨fun _ _ h => h, fun s a hnone hsome => ?_, Nat.le_refl _⟩
  rw [hnone] at hsome
  cases hsome

theorem Grows.trans (h : Grows t t') (h' : Grows t' t'') : Grows t t'' := by
  refine ⟨fun s a hs => h'.found s a (h.found s a hs), fun s a hnone hsome => ?_,
    Nat.le_trans h.size h'.size⟩
  cases hmid : t'.find? s with
  | none => exact Nat.le_trans h.size (h'.fresh s a hmid hsome)
  | some b =>
    obtain rfl := Option.some.inj ((h'.found s b hmid).symm.trans hsome)
    exact h.fresh s b hnone hmid

theorem grows_intern (t : SymbolTable) (s : String) : Grows t (t.intern s).2 := by
  unfold intern
  split
  · exact .refl t
  · rename_i hs
    refine ⟨fun _ _ h => find?_add_of_find? h s, fun s' a hnone hsome => ?_, ?_⟩
    · by_cases he : s' = s
      · subst he
        rw [find?_add_self hs] at hsome
        obtain rfl := Option.some.inj hsome
        exact Nat.le_refl _
      · rw [find?_add_of_ne he, hnone] at hsome
        cases hsome
    · show _ ≤ (t.texts.push s).size
      rw [Array.size_push]
      exact Nat.le_succ _

theorem index_lt_of_find? {s : String} {a : Symbol} (h : t.find? s = some a) : a.index < t.size :=
  (Array.getElem?_eq_some_iff.1 (getElem?_of_find? h)).1

end SymbolTable

namespace Image

variable {s s' s'' : Image} {o a : ObjectId}

/-- Objects are left as they are, but for what belongs to their singletons. -/
structure Spares (s s' : Image) : Prop where
  symbols : s.symbols.Grows s'.symbols
  objects : s'.objects.size = s.objects.size
  object : ∀ o, ∃ d, s'.objectData o = { s.objectData o with singleton := d }

namespace Spares

theorem of_objects (hsymbols : s'.symbols = s.symbols) (hobjects : s'.objects = s.objects) :
    Spares s s' where
  symbols := hsymbols ▸ .refl _
  objects := congrArg Array.size hobjects
  object o := ⟨(s.objectData o).singleton, by rw [objectData, hobjects]; rfl⟩

theorem refl (s : Image) : Spares s s := of_objects rfl rfl

theorem trans (h : Spares s s') (h' : Spares s' s'') : Spares s s'' where
  symbols := h.symbols.trans h'.symbols
  objects := h'.objects.trans h.objects
  object o := by
    obtain ⟨d, hd⟩ := h.object o
    obtain ⟨d', hd'⟩ := h'.object o
    exact ⟨d', by rw [hd', hd]⟩

theorem intern (s : Image) (text : String) : Spares s (s.intern text).2 where
  symbols := SymbolTable.grows_intern s.symbols text
  objects := rfl
  object _ := ⟨_, rfl⟩

theorem updateSingleton (s : Image) (r : Receiver) (f : Singleton → Singleton) :
    Spares s (s.updateSingleton r f) where
  symbols := by
    have hsymbols : (s.updateSingleton r f).symbols = s.symbols := by cases r <;> rfl
    exact hsymbols ▸ .refl _
  objects := size_objects_updateSingleton r f
  object o := ⟨_, objectData_updateSingleton r f o⟩

theorem setTable (s : Image) (t : Target) (slots : SlotTable) : Spares s (s.setTable t slots) := by
  cases t with
  | singleton r => exact updateSingleton s r fun d => { d with slots }
  | _ => exact of_objects rfl rfl

theorem resolveOne (s : Image) (m : ModuleId) : Spares s (s.resolveOne m) := by
  unfold Image.resolveOne
  split
  · exact setTable s _ _
  · exact refl s

theorem resolve (s : Image) (m : ModuleId) : Spares s (s.resolve m) := by
  unfold Image.resolve
  generalize s.graph.affected m = ms
  induction ms generalizing s with
  | nil => exact refl s
  | cons x ms ih => exact (resolveOne s x).trans (ih (s.resolveOne x))

theorem foldl_resolve (s : Image) (ms : List ModuleId) : Spares s (ms.foldl Image.resolve s) := by
  induction ms generalizing s with
  | nil => exact refl s
  | cons m ms ih => exact (resolve s m).trans (ih (s.resolve m))

theorem watch (s : Image) (name : Symbol) : Spares s (s.watch name) := by
  unfold Image.watch
  split
  · exact of_objects rfl rfl
  · exact refl s

theorem foldl_watch (s : Image) (names : List Symbol) :
    Spares s (names.foldl Image.watch s) := by
  induction names generalizing s with
  | nil => exact refl s
  | cons name names ih => exact (watch s name).trans (ih (s.watch name))

theorem watchNow (s : Image) (name : Symbol) : Spares s (s.watchNow name) := by
  unfold Image.watchNow
  split
  · exact (watch s name).trans (resolve _ .gate)
  · exact refl s

theorem define (s : Image) (owner : ModuleId) (name : Symbol) (m : Method) (resolving : Bool) :
    Spares s (s.define owner name m resolving) := by
  have hset : Spares s { s with graph := s.graph.setMethod owner name m } := of_objects rfl rfl
  have hwatch := hset.trans (watch _ name)
  unfold Image.define
  dsimp only
  split
  · split
    · exact (hwatch.trans (resolve _ owner)).trans (resolve _ .gate)
    · exact hwatch.trans (resolve _ owner)
  · exact hwatch

theorem link (s : Image) (owner other : ModuleId) (resolving : Bool) :
    Spares s (s.link owner other resolving) := by
  have hedge : Spares s { s with graph := s.graph.addEdge owner other } := of_objects rfl rfl
  unfold Image.link
  dsimp only
  split
  · exact hedge.trans (resolve _ owner)
  · exact hedge

theorem addEigenclass (s : Image) (r : Receiver) : Spares s (s.addEigenclass r).2 := by
  unfold Image.addEigenclass
  obtain ⟨m, graph⟩ := s.graph.alloc { target := some (.singleton r) }
  have halloc : Spares s { s with graph } := of_objects rfl rfl
  exact halloc.trans (updateSingleton _ r fun d => { d with eigenclass := some m })

theorem materialize (s : Image) (r : Receiver) (parent : ModuleId) :
    Spares s (s.materialize r parent).2 := by
  rw [materialize_eq]
  dsimp only
  exact (addEigenclass s r).trans (link _ _ parent true)

theorem makeClass (s : Image) (name : Symbol) (above : Option ClassId) :
    Spares s (s.makeClass name above) := by
  have hnew : Spares s (s.addClass name above).2 := of_objects rfl rfl
  rw [makeClass_eq]
  exact hnew.trans (link _ _ _ true)

theorem chainFor (s : Image) (r : Receiver) (name : Symbol) : Spares s (s.chainFor r name).2 := by
  rcases chainFor_cases (s := s) r name with h | ⟨cached, h⟩
  · rw [h]
    exact refl s
  · rw [h]
    exact updateSingleton s r _

theorem prepare (s : Image) (r : Receiver) (name : Symbol) : Spares s (s.prepare r name) := by
  unfold Image.prepare
  split
  · exact refl s
  · exact watchNow s name

theorem beginDescribing (s : Image) (r : Receiver) : Spares s (s.beginDescribing r).2 := by
  unfold Image.beginDescribing
  split
  · exact refl s
  · exact of_objects rfl rfl

theorem classEigenclass (s : Image) (line : List ClassId) :
    Spares s (s.classEigenclass line).2 := by
  induction line with
  | nil => exact refl s
  | cons c above ih =>
    unfold Image.classEigenclass
    split
    · exact refl s
    · exact ih.trans (materialize _ _ _)

theorem eigenclass (s : Image) (r : Receiver) : Spares s (s.eigenclass r).2 := by
  unfold Image.eigenclass
  split
  · exact classEigenclass s _
  · exact refl s
  · exact materialize s _ _
  · exact materialize s _ _

theorem taker (s : Image) (place : Place) : Spares s (s.taker place).2 := by
  cases place with
  | into owner options => exact refl s
  | onto r => exact eigenclass s r

theorem defineModule (s : Image) (name : String) : Spares s (s.defineModule name).2 :=
  (intern s name).trans (of_objects rfl rfl)

theorem defineClass (s : Image) (name : String) (above : Option ClassId) :
    Spares s (s.defineClass name above).2 := by
  rw [defineClass_eq]
  dsimp only
  exact (intern s name).trans (makeClass _ _ above)

theorem defineInstanceMethod (s : Image) (c : ClassId) (name : String) (m : Method) :
    Spares s (s.defineInstanceMethod c name m) :=
  (intern s name).trans (define _ _ _ m true)

theorem defineClassMethod (s : Image) (c : ClassId) (name : String) (m : Method) :
    Spares s (s.defineClassMethod c name m) :=
  ((intern s name).trans (eigenclass _ (.class c))).trans (define _ _ _ m true)

theorem live (h : Spares s s') : s'.LiveObject o ↔ s.LiveObject o := by
  obtain ⟨d, hd⟩ := h.object o
  rw [LiveObject, LiveObject, h.objects, hd]

theorem fields (h : Spares s s') (o : ObjectId) :
    (s'.objectData o).fields = (s.objectData o).fields := by
  obtain ⟨d, hd⟩ := h.object o
  rw [hd]

end Spares

variable {f : String}

def Keyed (s : Image) : Prop :=
  ∀ o : ObjectId, ∀ n ∈ (s.objectData o).fields, n.index < s.symbols.size

theorem Spares.keyed (h : Spares s s') (hk : s.Keyed) : s'.Keyed := by
  intro o n hn
  rw [h.fields] at hn
  exact Nat.lt_of_lt_of_le (hk o n hn) h.symbols.size

theorem field_of_find? {n : Symbol} (h : s.symbols.find? f = some n) (o : ObjectId) :
    s.field o f = (s.objectData o).fields[n]?.getD .void := by
  rw [Image.field, h]

theorem field_of_unknown (h : s.symbols.find? f = none) (o : ObjectId) : s.field o f = .void := by
  rw [Image.field, h]

/-- A name that is new to the table may get the symbol of no field, since those are older. -/
theorem Spares.field (h : Spares s s') (hk : s.Keyed) (o : ObjectId) (f : String) :
    s'.field o f = s.field o f := by
  cases hf : s.symbols.find? f with
  | some n => rw [field_of_find? hf, field_of_find? (h.symbols.found f n hf), h.fields]
  | none =>
    rw [field_of_unknown hf]
    cases hf' : s'.symbols.find? f with
    | none => exact field_of_unknown hf' o
    | some n =>
      have hold : n ∉ (s.objectData o).fields := fun hn => by
        have hlt := hk o n hn
        have hle := h.symbols.fresh f n hf hf'
        omega
      rw [field_of_find? hf', h.fields, Std.ExtTreeMap.getElem?_eq_none hold, Option.getD_none]

section UpdateObject

variable {g : ObjectData → ObjectData}

theorem field_updateObject_of_ne (h : a ≠ o) (f : String) :
    (s.updateObject o g).field a f = s.field a f := by
  unfold Image.field
  rw [objectData_updateObject_of_ne h]
  rfl

theorem live_updateObject_of_ne (h : a ≠ o) :
    (s.updateObject o g).LiveObject a ↔ s.LiveObject a := by
  rw [LiveObject, LiveObject, objectData_updateObject_of_ne h, updateObject, Array.size_modify]

theorem keyed_updateObject (hk : s.Keyed)
    (hg : ∀ n ∈ (g (s.objectData o)).fields, n.index < s.symbols.size) :
    (s.updateObject o g).Keyed := by
  intro a n hn
  by_cases ha : a = o
  · subst ha
    by_cases hlt : a.index < s.objects.size
    · rw [objectData_updateObject g hlt, if_pos rfl] at hn
      exact hg n hn
    · rw [updateObject_of_size_le (Nat.le_of_not_lt hlt)] at hn
      exact hk a n hn
  · rw [objectData_updateObject_of_ne ha] at hn
    exact hk a n hn

end UpdateObject

section SetField

variable (o f) (v : Value)

theorem setField_eq : s.setField o f v = (s.intern f).2.updateObject o fun d =>
    { d with fields := d.fields.insert (s.intern f).1 v } := rfl

theorem keyed_setField (hk : s.Keyed) : (s.setField o f v).Keyed := by
  have hspares := Spares.intern s f
  refine keyed_updateObject (hspares.keyed hk) fun n hn => ?_
  rw [Std.ExtTreeMap.mem_insert, Std.LawfulEqOrd.compare_eq_iff_eq] at hn
  rcases hn with rfl | hn
  · exact SymbolTable.index_lt_of_find? (find?_intern s f)
  · exact hspares.keyed hk o n hn

theorem live_setField : (s.setField o f v).LiveObject a ↔ s.LiveObject a := by
  rw [setField_eq]
  by_cases ha : a = o
  · subst ha
    by_cases hlt : a.index < s.objects.size
    · have hdata := objectData_updateObject (s := (s.intern f).2) (a := a)
        (fun d => { d with fields := d.fields.insert (s.intern f).1 v }) hlt
      rw [LiveObject, hdata, if_pos rfl, updateObject, Array.size_modify]
      exact Iff.rfl
    · have hle : (s.intern f).2.objects.size ≤ a.index := Nat.le_of_not_lt hlt
      rw [updateObject_of_size_le hle]
      exact Iff.rfl
  · exact live_updateObject_of_ne (s := (s.intern f).2) ha

/-- What is stored is read back under the same name, from the same object, and nowhere else. -/
theorem field_setField (hk : s.Keyed) (ha : a.index < s.objects.size) (f' : String) :
    (s.setField o f v).field a f' = if o = a ∧ f = f' then v else s.field a f' := by
  have hspares := Spares.intern s f
  have hname := find?_intern s f
  by_cases hao : a = o
  · subst hao
    have hdata := objectData_updateObject (s := (s.intern f).2) (a := a)
      (fun d => { d with fields := d.fields.insert (s.intern f).1 v }) ha
    rw [if_pos rfl] at hdata
    rw [← hspares.field hk a f', setField_eq]
    cases hf' : (s.intern f).2.symbols.find? f' with
    | none =>
      have hff : f ≠ f' := by
        rintro rfl
        rw [hname] at hf'
        cases hf'
      rw [field_of_unknown hf', if_neg fun h => hff h.2]
      exact field_of_unknown (s := s.setField a f v) hf' a
    | some n =>
      have hread := field_of_find? (s := s.setField a f v) hf' a
      rw [setField_eq, hdata, Std.ExtTreeMap.getElem?_insert] at hread
      rw [hread, field_of_find? hf']
      by_cases hff : f = f'
      · subst hff
        obtain rfl := Option.some.inj (hname.symm.trans hf')
        simp
      · have hne : (s.intern f).1 ≠ n := by
          rintro rfl
          exact hff ((SymbolTable.text_of_find? hname).symm.trans (SymbolTable.text_of_find? hf'))
        simp [hff, hne]
  · rw [if_neg fun h => hao h.1.symm]
    exact (field_updateObject_of_ne hao f').trans (hspares.field hk a f')

end SetField

section Allocate

variable (c : ClassId)

theorem symbols_allocate : (s.allocate c).2.symbols = s.symbols := by
  unfold allocate
  split <;> rfl

theorem objectData_allocate_self
    (h : (s.allocate c).1.index < (s.allocate c).2.objects.size) :
    (s.allocate c).2.objectData (s.allocate c).1 = { classId := c } := by
  cases hfree : s.freeObjects with
  | nil => simp [allocate, hfree, objectData]
  | cons b rest =>
    simp only [allocate, hfree] at h ⊢
    rw [updateObject, Array.size_modify] at h
    exact (objectData_updateObject (fun _ => { classId := c }) h).trans (if_pos rfl)

theorem objectData_allocate_of_ne (h : a ≠ (s.allocate c).1) :
    (s.allocate c).2.objectData a = s.objectData a := by
  cases hfree : s.freeObjects with
  | nil =>
    simp only [allocate, hfree] at h ⊢
    have hne : a.index ≠ s.objects.size := fun he => h (by cases a; cases he; rfl)
    simp [objectData, Array.getElem?_push, hne]
  | cons b rest =>
    simp only [allocate, hfree] at h ⊢
    exact objectData_updateObject_of_ne h

theorem live_allocate_of_ne (h : a ≠ (s.allocate c).1) :
    (s.allocate c).2.LiveObject a ↔ s.LiveObject a := by
  rw [LiveObject, objectData_allocate_of_ne c h, LiveObject]
  cases hfree : s.freeObjects with
  | nil =>
    simp only [allocate, hfree, Array.size_push] at h ⊢
    have hne : a.index ≠ s.objects.size := fun he => h (by cases a; cases he; rfl)
    have hlt : a.index < s.objects.size + 1 ↔ a.index < s.objects.size := by omega
    rw [hlt]
  | cons b rest => simp only [allocate, hfree, updateObject, Array.size_modify]

theorem field_allocate_of_ne (h : a ≠ (s.allocate c).1) (f : String) :
    (s.allocate c).2.field a f = s.field a f := by
  unfold Image.field
  rw [symbols_allocate, objectData_allocate_of_ne c h]

/-- A new object has no field, whosever place it takes. -/
theorem field_allocate_self (h : (s.allocate c).2.LiveObject (s.allocate c).1) (f : String) :
    (s.allocate c).2.field (s.allocate c).1 f = .void := by
  unfold Image.field
  rw [objectData_allocate_self c h.1]
  split <;> simp

theorem keyed_allocate (hk : s.Keyed) : (s.allocate c).2.Keyed := by
  intro a n hn
  rw [symbols_allocate]
  rcases objectData_allocate_cases (s := s) c a with h | ⟨h, -⟩
  · rw [h] at hn
    exact absurd hn Std.ExtTreeMap.not_mem_empty
  · rw [h] at hn
    exact hk a n hn

end Allocate

section Release

/-- Besides clearing the record of the object a release only resolves. -/
theorem spares_release (h : (s.objectData o).released = false) :
    Spares (s.updateObject o fun d => { classId := d.classId, released := true }) (s.release o) := by
  have hdrop : Spares (s.updateObject o fun d => { classId := d.classId, released := true })
      (s.drop o) := .of_objects rfl rfl
  rw [release_eq h]
  exact hdrop.trans (.foldl_resolve _ _)

theorem live_release (h : (s.release o).LiveObject a) : a ≠ o ∧ s.LiveObject a := by
  cases hr : (s.objectData o).released with
  | true =>
    rw [release_of_released hr] at h
    refine ⟨?_, h⟩
    rintro rfl
    rw [h.2] at hr
    cases hr
  | false =>
    have hcleared := (spares_release hr).live.1 h
    have hne : a ≠ o := by
      rintro rfl
      have hlt : a.index < s.objects.size := by
        have hsize := hcleared.1
        rwa [updateObject, Array.size_modify] at hsize
      have hreleased := hcleared.2
      rw [objectData_updateObject _ hlt, if_pos rfl] at hreleased
      cases hreleased
    exact ⟨hne, (live_updateObject_of_ne hne).1 hcleared⟩

variable (hk : s.Keyed)
include hk

theorem keyed_cleared (o : ObjectId) :
    (s.updateObject o fun d => { classId := d.classId, released := true }).Keyed :=
  keyed_updateObject hk fun _ hn => absurd hn Std.ExtTreeMap.not_mem_empty

theorem keyed_release (o : ObjectId) : (s.release o).Keyed := by
  cases hr : (s.objectData o).released with
  | true => rwa [release_of_released hr]
  | false => exact (spares_release hr).keyed (keyed_cleared hk o)

theorem field_release (h : a ≠ o) (f : String) : (s.release o).field a f = s.field a f := by
  cases hr : (s.objectData o).released with
  | true => rw [release_of_released hr]
  | false =>
    rw [(spares_release hr).field (keyed_cleared hk o)]
    exact field_updateObject_of_ne h f

end Release

end Image

namespace Setup

theorem objects_boot (u : Setup) : ∀ o : ObjectId, u.boot.objects.size ≤ o.index := by
  obtain ⟨s, names, hseed, heq⟩ := u.boot_eq
  have hspares : Image.Spares s u.boot :=
    heq ▸ (Image.Spares.foldl_watch s names).trans (.resolve _ .gate)
  intro o
  rw [hspares.objects, hseed.objects]
  exact Nat.zero_le _

theorem keyed_boot (u : Setup) : u.boot.Keyed := by
  intro o n hn
  rw [Image.objectData_of_size_le (u.objects_boot o)] at hn
  exact absurd hn Std.ExtTreeMap.not_mem_empty

end Setup

end Mixin
