import Mixin.Proofs.Image.Sound
import Mixin.Image.Objects

/-! The changes that make and take away modules, classes and objects. Each is told apart from the
linking and resolving that follow it: a new module that nothing includes yet, or an eigenclass that
has been unlinked while the tables still show it. -/

namespace Mixin

namespace Image

variable {s : Image}

/-- A new class whose name has been interned, and whose module includes nothing yet. -/
def addClass (s : Image) (a : Symbol) (superclass : Option ClassId) : ModuleId × Image :=
  let (m, graph) := s.graph.alloc { name := some a, target := some (.prototype ⟨s.classes.size⟩) }
  let classes := s.classes.push { name := a, instanceModule := m, superclass }
  (m, { s with graph, classes })

/-- A new eigenclass that includes nothing yet. -/
def addEigenclass (s : Image) (r : Receiver) : ModuleId × Image :=
  let (m, graph) := s.graph.alloc { target := some (.singleton r) }
  (m, { s with graph }.updateSingleton r fun d => { d with eigenclass := some m })

/-- What a release takes away, without resolving. -/
def drop (s : Image) (o : ObjectId) : Image :=
  let objects := s.objects.modify o.index fun d => { classId := d.classId, released := true }
  let graph := match s.eigenclass? (.object o) with
    | some m => (s.graph.remove m).2
    | none => s.graph
  { s with objects, graph, freeObjects := o :: s.freeObjects }

/-- The modules that had included the eigenclass of an object. -/
def orphans (s : Image) (o : ObjectId) : List ModuleId :=
  match s.eigenclass? (.object o) with
  | some m => (s.graph.node m).dependents
  | none => []

theorem resolve_freeObjects (m : ModuleId) (free : List ObjectId) :
    ({ s with freeObjects := free } : Image).resolve m = { s.resolve m with freeObjects := free } := by
  unfold resolve
  generalize s.graph.affected m = ms
  induction ms generalizing s with
  | nil => rfl
  | cons a ms ih =>
    rw [List.foldl_cons, List.foldl_cons, ← ih]
    congr 1
    unfold resolveOne
    dsimp only
    cases (s.graph.node a).target with
    | none => rfl
    | some t =>
      cases t with
      | singleton r => cases r <;> rfl
      | _ => rfl

theorem foldl_resolve_freeObjects (ms : List ModuleId) (free : List ObjectId) :
    ms.foldl resolve ({ s with freeObjects := free } : Image) =
      { ms.foldl resolve s with freeObjects := free } := by
  induction ms generalizing s with
  | nil => rfl
  | cons m ms ih => rw [List.foldl_cons, List.foldl_cons, resolve_freeObjects, ih]

theorem freeObjects_foldl_resolve (ms : List ModuleId) :
    (ms.foldl resolve s).freeObjects = s.freeObjects := by
  have h := congrArg Image.freeObjects (foldl_resolve_freeObjects (s := s) ms s.freeObjects)
  exact h

theorem release_eq {o : ObjectId} (h : (s.objectData o).released = false) :
    s.release o = (s.orphans o).foldl resolve (s.drop o) := by
  unfold release
  rw [if_neg (by simp [h])]
  unfold drop orphans eigenclass? singleton
  cases hm : (s.objectData o).singleton.eigenclass with
  | none => rfl
  | some m =>
    dsimp only
    rw [freeObjects_foldl_resolve, ← foldl_resolve_freeObjects]
    rfl

theorem release_of_released {o : ObjectId} (h : (s.objectData o).released = true) :
    s.release o = s := if_pos h

section Structure

variable (hs : s.Sound)
include hs

theorem Sound.holder_ne_alloc {t : Target} (n : Node) : s.holder? t ≠ some (s.graph.alloc n).1 :=
  fun h => s.graph.alloc_fresh n (hs.live_holder h)

theorem Sound.addModule (a : Symbol) :
    ({ s with graph := (s.graph.alloc { name := some a }).2 } : Image).Sound where
  graph := hs.graph.alloc rfl rfl
  target_iff m t := by
    show ((Graph.alloc _ _).2.node m).target = _ ↔ s.holder? t = _
    rw [hs.graph.node_alloc, ← hs.target_iff m t]
    split
    · rename_i hm
      constructor
      · intro h
        cases h
      · intro h
        exact absurd ((hs.target_iff m t).1 h) (hm ▸ hs.holder_ne_alloc _)
    · exact Iff.rfl
  live_gate := hs.graph.live_alloc.2 (Or.inr hs.live_gate)
  target_gate := by rw [hs.graph.node_alloc_of_live hs.live_gate]; exact hs.target_gate
  live_kernel := hs.graph.live_alloc.2 (Or.inr hs.live_kernel)
  target_kernel := by rw [hs.graph.node_alloc_of_live hs.live_kernel]; exact hs.target_kernel
  superclass_lt := hs.superclass_lt
  classOf_live := hs.classOf_live
  free_iff := hs.free_iff
  free_nodup := hs.free_nodup
  released := hs.released

omit hs in
theorem graph_addEigenclass (r : Receiver) :
    (s.addEigenclass r).2.graph = (s.graph.alloc { target := some (.singleton r) }).2 := by
  simp [addEigenclass]

theorem Sound.live_addEigenclass (r : Receiver) (a : ModuleId) :
    (s.addEigenclass r).2.graph.Live a ↔ a = (s.addEigenclass r).1 ∨ s.graph.Live a := by
  rw [graph_addEigenclass]
  exact hs.graph.live_alloc

omit hs in
theorem singleton_addEigenclass {r : Receiver} (hr : s.HasRecord r) (a : Receiver) :
    (s.addEigenclass r).2.singleton a =
      if a = r then { s.singleton a with eigenclass := some (s.addEigenclass r).1 }
      else s.singleton a := by
  have hrec : ({ s with graph := (s.graph.alloc { target := some (.singleton r) }).2 } :
      Image).HasRecord r := by cases r <;> exact hr
  unfold addEigenclass
  dsimp only
  rw [singleton_updateSingleton _ hrec]
  cases a <;> rfl

omit hs in
theorem eigenclass_addEigenclass {r : Receiver} (hr : s.HasRecord r) (a : Receiver) :
    (s.addEigenclass r).2.eigenclass? a =
      if a = r then some (s.addEigenclass r).1 else s.eigenclass? a := by
  rw [eigenclass?, singleton_addEigenclass hr]
  split <;> rfl

omit hs in
theorem released_addEigenclass (r : Receiver) (o : ObjectId) :
    ((s.addEigenclass r).2.objectData o).released = (s.objectData o).released := by
  simp only [addEigenclass, released_updateSingleton]
  rfl

theorem Sound.target_iff_alloc {n : Node} {new : Target} (hnew : n.target = some new)
    (hnone : s.holder? new = none) {s' : Image} (hgraph : s'.graph = (s.graph.alloc n).2)
    (hholder : ∀ t, s'.holder? t = if t = new then some (s.graph.alloc n).1 else s.holder? t)
    (m : ModuleId) (t : Target) : (s'.graph.node m).target = some t ↔ s'.holder? t = some m := by
  have hne := hs.holder_ne_alloc (t := t) n
  rw [hholder, hgraph, hs.graph.node_alloc]
  by_cases hm : m = (s.graph.alloc n).1
  · rw [if_pos hm, hnew]
    by_cases ht : t = new
    · simp [ht, hm]
    · rw [if_neg ht]
      simp only [Option.some.injEq, hm, hne, iff_false]
      exact Ne.symm ht
  · rw [if_neg hm, hs.target_iff m t]
    by_cases ht : t = new
    · subst ht
      simp [hnone, Ne.symm hm]
    · rw [if_neg ht]

theorem Sound.addEigenclass {r : Receiver} (hr : s.Alive r) (hn : s.eigenclass? r = none) :
    (s.addEigenclass r).2.Sound where
  graph := by
    rw [graph_addEigenclass]
    exact hs.graph.alloc rfl rfl
  target_iff := by
    have hnone : s.holder? (.singleton r) = none := hn
    refine hs.target_iff_alloc rfl hnone (graph_addEigenclass r) fun t => ?_
    cases t with
    | prototype c => simp [holder?, Image.addEigenclass]; rfl
    | singleton a =>
      simp only [holder?, eigenclass_addEigenclass hr.hasRecord, Target.singleton.injEq]
      rfl
    | classBase => rfl
    | moduleBase => rfl
  live_gate := (hs.live_addEigenclass r _).2 (Or.inr hs.live_gate)
  target_gate := by
    rw [graph_addEigenclass, hs.graph.node_alloc_of_live hs.live_gate]
    exact hs.target_gate
  live_kernel := (hs.live_addEigenclass r _).2 (Or.inr hs.live_kernel)
  target_kernel := by
    rw [graph_addEigenclass, hs.graph.node_alloc_of_live hs.live_kernel]
    exact hs.target_kernel
  superclass_lt c d hd := by
    simp only [Image.addEigenclass, superclass_updateSingleton] at hd
    exact hs.superclass_lt c d hd
  classOf_live o ho := by
    rw [LiveObject, released_addEigenclass] at ho
    simp only [Image.addEigenclass, LiveClass, classOf_updateSingleton,
      size_objects_updateSingleton, size_classes_updateSingleton] at ho ⊢
    exact hs.classOf_live o ho
  free_iff o := by
    rw [released_addEigenclass]
    simp only [Image.addEigenclass, freeObjects_updateSingleton, size_objects_updateSingleton]
    exact hs.free_iff o
  free_nodup := by
    simp only [Image.addEigenclass, freeObjects_updateSingleton]
    exact hs.free_nodup
  released o ho := by
    rw [released_addEigenclass] at ho
    have hne : Receiver.object o ≠ r := by
      rintro rfl
      rw [hr.2] at ho
      cases ho
    show (s.addEigenclass r).2.singleton (.object o) = {}
    rw [singleton_addEigenclass hr.hasRecord, if_neg hne]
    exact hs.released o ho

omit hs in
theorem classData_addClass (a : Symbol) (above : Option ClassId) (c : ClassId) :
    (s.addClass a above).2.classData c = if c = ⟨s.classes.size⟩ then
      { name := a, instanceModule := (s.addClass a above).1, superclass := above }
      else s.classData c := by
  unfold addClass classData
  dsimp only
  split
  · rename_i hc
    subst hc
    simp
  · rename_i hc
    have hne : c.index ≠ s.classes.size := fun h => hc (by cases c; cases h; rfl)
    simp [Array.getElem?_push, hne]

omit hs in
theorem eigenclass_addClass (a : Symbol) (above : Option ClassId) (r : Receiver) :
    (s.addClass a above).2.eigenclass? r = s.eigenclass? r := by
  cases r with
  | object o => rfl
  | «class» c =>
    simp only [eigenclass?, singleton, classData_addClass]
    split
    · rename_i hc
      have hnew : s.classData ⟨s.classes.size⟩ = default := classData_of_size_le (Nat.le_refl _)
      rw [hc, hnew]
      rfl
    · rfl
  | module m => rfl

omit hs in
theorem holder_addClass (a : Symbol) (above : Option ClassId) (t : Target) :
    (s.addClass a above).2.holder? t = if t = .prototype ⟨s.classes.size⟩ then
      some (s.addClass a above).1 else s.holder? t := by
  cases t with
  | prototype c =>
    have hsize : (s.addClass a above).2.classes.size = s.classes.size + 1 := Array.size_push ..
    rw [holder?, hsize, instanceModule, classData_addClass, holder?]
    by_cases hc : c = ⟨s.classes.size⟩
    · simp [hc]
    · have hne : c.index ≠ s.classes.size := fun h => hc (by cases c; cases h; rfl)
      have hlt : c.index < s.classes.size + 1 ↔ c.index < s.classes.size := by omega
      simp only [hc, if_false, hlt, Target.prototype.injEq]
      rfl
  | singleton r => simp [holder?, eigenclass_addClass]
  | classBase => rfl
  | moduleBase => rfl

theorem Sound.addClass (a : Symbol) {above : Option ClassId}
    (habove : ∀ c, above = some c → s.LiveClass c) : (s.addClass a above).2.Sound where
  graph := hs.graph.alloc rfl rfl
  target_iff := by
    have hnone : s.holder? (.prototype ⟨s.classes.size⟩) = none := if_neg (Nat.lt_irrefl _)
    exact hs.target_iff_alloc rfl hnone rfl (holder_addClass a above)
  live_gate := hs.graph.live_alloc.2 (Or.inr hs.live_gate)
  target_gate := by
    show ((Graph.alloc _ _).2.node _).target = _
    rw [hs.graph.node_alloc_of_live hs.live_gate]
    exact hs.target_gate
  live_kernel := hs.graph.live_alloc.2 (Or.inr hs.live_kernel)
  target_kernel := by
    show ((Graph.alloc _ _).2.node _).target = _
    rw [hs.graph.node_alloc_of_live hs.live_kernel]
    exact hs.target_kernel
  superclass_lt c d hd := by
    rw [superclass, classData_addClass] at hd
    split at hd
    · rename_i hc
      rw [hc]
      exact habove d hd
    · exact hs.superclass_lt c d hd
  classOf_live o ho := by
    have hc : (s.classOf o).index < s.classes.size := hs.classOf_live o ho
    show _ < (s.classes.push _).size
    rw [Array.size_push]
    exact Nat.lt_succ_of_lt hc
  free_iff := hs.free_iff
  free_nodup := hs.free_nodup
  released := hs.released

theorem allocate_fresh (c : ClassId) : ¬ s.LiveObject (s.allocate c).1 := by
  unfold allocate
  split
  · rename_i o rest hfree
    intro h
    have hr := ((hs.free_iff o).1 (hfree ▸ List.mem_cons_self)).2
    rw [h.2] at hr
    cases hr
  · exact fun h => Nat.lt_irrefl _ h.1

theorem objectData_allocate (c : ClassId) (o : ObjectId) : (s.allocate c).2.objectData o =
    if o = (s.allocate c).1 then { classId := c } else s.objectData o := by
  unfold allocate
  split
  · rename_i a rest hfree
    have hlt := ((hs.free_iff a).1 (hfree ▸ List.mem_cons_self)).1
    exact objectData_updateObject (s := s) (fun _ => { classId := c }) hlt
  · unfold objectData
    by_cases ho : o = ⟨s.objects.size⟩
    · subst ho
      simp
    · have hne : o.index ≠ s.objects.size := fun h => ho (by cases o; cases h; rfl)
      simp [Array.getElem?_push, hne, ho]

omit hs in
theorem allocate_rest (c : ClassId) : (s.allocate c).2.graph = s.graph ∧
    (s.allocate c).2.classes = s.classes ∧ (s.allocate c).2.moduleSides = s.moduleSides := by
  unfold allocate
  split <;> exact ⟨rfl, rfl, rfl⟩

theorem singleton_allocate (c : ClassId) (r : Receiver) :
    (s.allocate c).2.singleton r = if r = .object (s.allocate c).1 then {} else s.singleton r := by
  obtain ⟨-, hc, hm⟩ := s.allocate_rest c
  cases r with
  | object o =>
    simp only [singleton, objectData_allocate hs, Receiver.object.injEq]
    split <;> rfl
  | «class» a => simp only [singleton, classData, hc, reduceCtorEq, if_false]
  | module m => simp only [singleton, hm, reduceCtorEq, if_false]

theorem eigenclass_allocate (c : ClassId) (r : Receiver) :
    (s.allocate c).2.eigenclass? r = s.eigenclass? r := by
  rw [eigenclass?, singleton_allocate hs]
  split
  · rename_i hr
    cases he : s.eigenclass? r with
    | none => rfl
    | some m => exact absurd (hs.liveObject_of_eigenclass (hr ▸ he)) (allocate_fresh hs c)
  · rfl

theorem free_allocate (c : ClassId) : (s.allocate c).2.freeObjects.Nodup ∧
    ∀ o, o ∈ (s.allocate c).2.freeObjects ↔ o ∈ s.freeObjects ∧ o ≠ (s.allocate c).1 := by
  have hn := hs.free_nodup
  unfold allocate
  split
  · rename_i a rest hfree
    rw [hfree, List.nodup_cons] at hn
    refine ⟨hn.2, fun o => ?_⟩
    rw [hfree, List.mem_cons]
    constructor
    · intro h
      refine ⟨Or.inr h, fun he : o = a => ?_⟩
      exact hn.1 (he ▸ h)
    · exact fun h => h.1.resolve_left h.2
  · rename_i hfree
    exact ⟨hn, by simp [hfree]⟩

theorem size_allocate (c : ClassId) (o : ObjectId) : o.index < (s.allocate c).2.objects.size ↔
    o.index < s.objects.size ∨ o = (s.allocate c).1 := by
  unfold allocate
  split
  · rename_i a rest hfree
    have hlt := ((hs.free_iff a).1 (hfree ▸ List.mem_cons_self)).1
    simp only [updateObject, Array.size_modify]
    exact ⟨Or.inl, fun h => h.elim id fun he => he ▸ hlt⟩
  · simp only [Array.size_push]
    rw [Nat.lt_succ_iff_lt_or_eq]
    exact or_congr_right ⟨fun h => by cases o; cases h; rfl, fun h => h ▸ rfl⟩

theorem Sound.allocate {c : ClassId} (hc : s.LiveClass c) : (s.allocate c).2.Sound where
  graph := (s.allocate_rest c).1 ▸ hs.graph
  target_iff m t := by
    have hholder : (s.allocate c).2.holder? t = s.holder? t := by
      cases t with
      | prototype a =>
        simp only [holder?, instanceModule, classData, (s.allocate_rest c).2.1]
      | singleton r => exact eigenclass_allocate hs c r
      | classBase => rfl
      | moduleBase => rfl
    rw [hholder, (s.allocate_rest c).1]
    exact hs.target_iff m t
  live_gate := (s.allocate_rest c).1 ▸ hs.live_gate
  target_gate := (s.allocate_rest c).1 ▸ hs.target_gate
  live_kernel := (s.allocate_rest c).1 ▸ hs.live_kernel
  target_kernel := (s.allocate_rest c).1 ▸ hs.target_kernel
  superclass_lt a d hd := by
    rw [superclass, classData, (s.allocate_rest c).2.1] at hd
    exact hs.superclass_lt a d hd
  classOf_live o ho := by
    rw [LiveObject, size_allocate hs, objectData_allocate hs] at ho
    rw [LiveClass, (s.allocate_rest c).2.1, classOf, objectData_allocate hs]
    split
    · exact hc
    · rename_i hne
      rw [if_neg hne] at ho
      exact hs.classOf_live o ⟨ho.1.resolve_right hne, ho.2⟩
  free_iff o := by
    rw [(free_allocate hs c).2, size_allocate hs, objectData_allocate hs, hs.free_iff]
    by_cases ho : o = (s.allocate c).1
    · simp [ho]
    · simp [ho]
  free_nodup := (free_allocate hs c).1
  released o ho := by
    rw [objectData_allocate hs] at ho ⊢
    split
    · rfl
    · rename_i hne
      rw [if_neg hne] at ho
      exact hs.released o ho

section Drop

variable {o : ObjectId}

section Record

variable (ho : o.index < s.objects.size)
include ho

omit hs in
theorem objectData_drop (a : ObjectId) : (s.drop o).objectData a =
    if a = o then { classId := (s.objectData a).classId, released := true }
    else s.objectData a :=
  objectData_updateObject (s := s) (fun d => { classId := d.classId, released := true }) ho

omit hs in
theorem singleton_drop (r : Receiver) :
    (s.drop o).singleton r = if r = .object o then {} else s.singleton r := by
  cases r with
  | object a =>
    simp only [singleton, objectData_drop ho, Receiver.object.injEq]
    split <;> rfl
  | «class» c => rfl
  | module m => rfl

omit hs in
theorem eigenclass_drop (r : Receiver) :
    (s.drop o).eigenclass? r = if r = .object o then none else s.eigenclass? r := by
  rw [eigenclass?, singleton_drop ho]
  split <;> rfl

omit hs in
theorem eigenclass_module_drop (m : ModuleId) :
    (s.drop o).eigenclass? (.module m) = s.eigenclass? (.module m) := by
  simp [eigenclass_drop ho]

end Record

variable (ho : s.LiveObject o)
include ho

omit ho in
theorem graph_drop_sound : (s.drop o).graph.Sound := by
  unfold drop
  dsimp only
  split
  · rename_i m hm
    exact hs.graph.remove (hs.live_eigenclass hm)
  · exact hs.graph

omit ho hs in
theorem live_drop (m : ModuleId) :
    (s.drop o).graph.Live m ↔ s.graph.Live m ∧ s.eigenclass? (.object o) ≠ some m := by
  unfold drop
  dsimp only
  split
  · rename_i e he
    simp [Graph.live_remove, he, eq_comm]
  · rename_i he
    simp [he]

omit ho in
theorem target_drop (m : ModuleId) : ((s.drop o).graph.node m).target =
    if s.eigenclass? (.object o) = some m then none else (s.graph.node m).target := by
  unfold drop
  dsimp only
  split
  · rename_i e he
    rw [hs.graph.node_remove (hs.live_eigenclass he), he]
    by_cases hm : m = e
    · simp [hm]
    · rw [if_neg hm, if_neg fun h => hm (Option.some.inj h).symm]
      rfl
  · rename_i he
    simp [he]

omit hs in
theorem holder_drop (t : Target) :
    (s.drop o).holder? t = if t = .singleton (.object o) then none else s.holder? t := by
  cases t with
  | prototype c => rfl
  | singleton r => simp only [holder?, eigenclass_drop ho.1, Target.singleton.injEq]
  | classBase => rfl
  | moduleBase => rfl

omit ho in
theorem Sound.eigenclass_ne {m : ModuleId} (hm : (s.graph.node m).target = none) (r : Receiver) :
    s.eigenclass? r ≠ some m := by
  intro h
  have ht := (hs.target_iff _ (.singleton r)).2 h
  rw [hm] at ht
  cases ht

theorem Sound.drop : (s.drop o).Sound where
  graph := graph_drop_sound hs
  target_iff m t := by
    rw [holder_drop ho, target_drop hs]
    split
    · rename_i hm
      have ht := (hs.target_iff m (.singleton (.object o))).2 hm
      constructor
      · intro h
        cases h
      · intro h
        split at h
        · cases h
        · rename_i hne
          have hm' := (hs.target_iff m t).2 h
          rw [ht] at hm'
          exact absurd (Option.some.inj hm').symm hne
    · rename_i hm
      rw [hs.target_iff]
      split
      · rename_i ht
        subst ht
        exact ⟨fun h => absurd h hm, fun h => by cases h⟩
      · exact Iff.rfl
  live_gate := (live_drop _).2 ⟨hs.live_gate, Sound.eigenclass_ne hs hs.target_gate _⟩
  target_gate := by
    rw [target_drop hs]
    split
    · rfl
    · exact hs.target_gate
  live_kernel := (live_drop _).2 ⟨hs.live_kernel, Sound.eigenclass_ne hs hs.target_kernel _⟩
  target_kernel := by
    rw [target_drop hs]
    split
    · rfl
    · exact hs.target_kernel
  superclass_lt := hs.superclass_lt
  classOf_live a ha := by
    have hne : a ≠ o := by
      rintro rfl
      have hr := ha.2
      rw [objectData_drop ho.1, if_pos rfl] at hr
      cases hr
    have ha' : s.LiveObject a := by
      refine ⟨by simpa [Image.drop] using ha.1, ?_⟩
      have hr := ha.2
      rwa [objectData_drop ho.1, if_neg hne] at hr
    rw [classOf, objectData_drop ho.1, if_neg hne]
    exact hs.classOf_live a ha'
  free_iff a := by
    have hsize : (s.drop o).objects.size = s.objects.size := Array.size_modify ..
    show a ∈ o :: s.freeObjects ↔ _
    rw [List.mem_cons, objectData_drop ho.1, hsize, hs.free_iff]
    by_cases ha : a = o
    · simp [ha, ho.1]
    · simp [ha]
  free_nodup := by
    refine List.nodup_cons.2 ⟨fun h => ?_, hs.free_nodup⟩
    have hr := ((hs.free_iff o).1 h).2
    rw [ho.2] at hr
    cases hr
  released a ha := by
    rw [objectData_drop ho.1] at ha ⊢
    split
    · rfl
    · rename_i hne
      rw [if_neg hne] at ha
      exact hs.released a ha

/-- After an object has been dropped a release only resolves. -/
theorem akin_release : Akin (s.drop o) (s.release o) := by
  rw [release_eq ho.2]
  exact Akin.foldl_resolve (Sound.drop hs ho) _

theorem Sound.release : (s.release o).Sound := (akin_release hs ho).sound (Sound.drop hs ho)

end Drop

end Structure

end Image

end Mixin
