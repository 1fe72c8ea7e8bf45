import Mixin.Proofs.Image.Boot
import Mixin.Proofs.Image.Steady

/-! What holds of an image whatever it is asked for, removed modules and released objects included.
The kernel goes on including the gate, and every module with a target keeps its hold on the kernel.
A removed module may since have been written to, a target may have two modules, and a released object
may have been given an eigenclass; none of that can cut a module in use off from the kernel. -/

namespace Mixin

namespace Image

variable {s s' s'' : Image}

structure Moored (s : Image) : Prop where
  graph : s.graph.Moored
  target_of_holder : ∀ t m, s.holder? t = some m → (s.graph.node m).target = some t
  hasTable : ∀ m t, (s.graph.node m).target = some t → s.HasTable t
  classOf_live : ∀ o, o.index < s.objects.size → s.LiveClass (s.classOf o)
  superclass_live : ∀ c d, s.superclass c = some d → s.LiveClass d

namespace Moored

variable (h : s.Moored)
include h

theorem anchored_of_holder {t : Target} {m : ModuleId} (hm : s.holder? t = some m) :
    s.graph.Anchored m := h.graph.anchored m t (h.target_of_holder t m hm)

theorem ne_gate_of_holder {t : Target} {m : ModuleId} (hm : s.holder? t = some m) : m ≠ .gate := by
  rintro rfl
  have ht := h.target_of_holder t _ hm
  rw [h.graph.target_gate] at ht
  cases ht

/-- A module that does not go with an object, and so can be linked to for good. -/
theorem lasts_of_holder {t : Target} {m : ModuleId} (hm : s.holder? t = some m)
    (ht : ∀ o, t ≠ .singleton (.object o)) : s.graph.Anchored m ∧ ¬ s.graph.Personal m := by
  refine ⟨h.anchored_of_holder hm, ?_⟩
  rintro ⟨o, ho⟩
  rw [h.target_of_holder t m hm] at ho
  exact ht o (Option.some.inj ho)

theorem lasts_instanceModule {c : ClassId} (hc : s.LiveClass c) :
    s.graph.Anchored (s.instanceModule c) ∧ ¬ s.graph.Personal (s.instanceModule c) :=
  h.lasts_of_holder (t := .prototype c) (if_pos hc) (by simp)

theorem lasts_classParent {above : Option ClassId} (hc : ∀ c, above = some c → s.LiveClass c) :
    s.graph.Anchored (s.classParent above) ∧ ¬ s.graph.Personal (s.classParent above) := by
  cases above with
  | none => exact ⟨.kernel h.graph.live_kernel, Graph.not_personal_of_target h.graph.target_kernel⟩
  | some c => exact h.lasts_instanceModule (hc c rfl)

theorem attach {n : Node} {new : Target} (hn : n.target = some new) {p : ModuleId}
    (hp : s.graph.Anchored p ∧ ¬ s.graph.Personal p)
    (hgraph : s'.graph = (s.graph.alloc n).2.addEdge (s.graph.alloc n).1 p)
    (hholder : ∀ t, s'.holder? t = if t = new then some (s.graph.alloc n).1 else s.holder? t)
    (hnew : s'.HasTable new) (htable : ∀ t, s.HasTable t → s'.HasTable t)
    (hclassOf : ∀ o, o.index < s'.objects.size → s'.LiveClass (s'.classOf o))
    (hsuper : ∀ c d, s'.superclass c = some d → s'.LiveClass d) : s'.Moored := by
  have hretains : Graph.Retains (· = (s.graph.alloc n).1) s.graph s'.graph := by
    rw [hgraph]
    exact (Graph.retains_alloc n).trans (Graph.retains_addEdge ..)
  have hself : (s'.graph.node (s.graph.alloc n).1).target = some new := by
    have hedge : Graph.Retains (fun _ => False) (s.graph.alloc n).2
        ((s.graph.alloc n).2.addEdge (s.graph.alloc n).1 p) := Graph.retains_addEdge ..
    rw [hgraph, (hedge.node _ id).target, h.graph.roomy.node_alloc, if_pos rfl, hn]
  refine ⟨?_, fun t m hm => ?_, fun m t ht => ?_, hclassOf, hsuper⟩
  · rw [hgraph]
    exact h.graph.attach hp.1 hp.2
  · rw [hholder] at hm
    split at hm
    · rename_i ht
      obtain rfl := Option.some.inj hm
      rw [hself, ht]
    · have hne : m ≠ (s.graph.alloc n).1 := fun he =>
        s.graph.alloc_fresh n (he ▸ (h.anchored_of_holder hm).live)
      rw [(hretains.node m hne).target]
      exact h.target_of_holder t m hm
  · by_cases hm : m = (s.graph.alloc n).1
    · rw [hm, hself] at ht
      exact Option.some.inj ht ▸ hnew
    · rw [(hretains.node m hm).target] at ht
      exact htable t (h.hasTable m t ht)

end Moored

theorem Steady.moored (h : Steady s s') (hs : s.Moored) : s'.Moored where
  graph := hs.graph.same (h.roomy hs.graph.roomy) h.graph
  target_of_holder t m hm := by
    rw [(h.graph.node m id).target]
    exact hs.target_of_holder t m ((h.holder? t).symm.trans hm)
  hasTable m t ht := by
    rw [(h.graph.node m id).target] at ht
    exact (hs.hasTable m t ht).grown h.classes.ge h.objects.ge
  classOf_live o ho := by
    rw [LiveClass, h.classes, h.classOf]
    exact hs.classOf_live o (h.objects ▸ ho)
  superclass_live c d hd := by
    rw [LiveClass, h.classes]
    exact hs.superclass_live c d ((h.superclass c).symm.trans hd)

theorem holder_addEigenclass {r : Receiver} (hr : s.HasRecord r) (t : Target) :
    (s.addEigenclass r).2.holder? t =
      if t = .singleton r then some (s.addEigenclass r).1 else s.holder? t := by
  cases t with
  | prototype c => simp [holder?, addEigenclass]; rfl
  | singleton a => simp only [holder?, eigenclass_addEigenclass hr, Target.singleton.injEq]
  | classBase => rfl
  | moduleBase => rfl

theorem size_classes_addEigenclass (r : Receiver) :
    (s.addEigenclass r).2.classes.size = s.classes.size := by simp [addEigenclass]

theorem size_objects_addEigenclass (r : Receiver) :
    (s.addEigenclass r).2.objects.size = s.objects.size := by simp [addEigenclass]

theorem classOf_addEigenclass (r : Receiver) (o : ObjectId) :
    (s.addEigenclass r).2.classOf o = s.classOf o := by
  rw [addEigenclass, classOf_updateSingleton]
  rfl

theorem superclass_addEigenclass (r : Receiver) (c : ClassId) :
    (s.addEigenclass r).2.superclass c = s.superclass c := by
  rw [addEigenclass, superclass_updateSingleton]
  rfl

theorem objectData_allocate_cases (c : ClassId) (o : ObjectId) :
    (s.allocate c).2.objectData o = { classId := c } ∨
      (s.allocate c).2.objectData o = s.objectData o ∧
        (o.index < (s.allocate c).2.objects.size → o.index < s.objects.size) := by
  unfold allocate
  split
  · rename_i a rest hfree
    have hsize : (s.updateObject a fun _ => { classId := c }).objects.size = s.objects.size :=
      Array.size_modify ..
    by_cases ha : a.index < s.objects.size
    · have hdata := objectData_updateObject (a := o) (fun _ => { classId := c }) ha
      by_cases ho : o = a
      · rw [if_pos ho] at hdata
        exact .inl hdata
      · rw [if_neg ho] at hdata
        exact .inr ⟨hdata, fun hlt => hsize ▸ hlt⟩
    · refine .inr ⟨?_, fun hlt => hsize ▸ hlt⟩
      rw [updateObject_of_size_le (Nat.le_of_not_lt ha)]
      rfl
  · by_cases ho : o.index = s.objects.size
    · refine .inl ?_
      simp [objectData, ho]
    · refine .inr ⟨?_, fun hlt => ?_⟩
      · simp [objectData, Array.getElem?_push, ho]
      · rw [Array.size_push] at hlt
        exact Nat.lt_of_le_of_ne (Nat.le_of_lt_succ hlt) ho

theorem size_le_allocate (c : ClassId) : s.objects.size ≤ (s.allocate c).2.objects.size := by
  unfold allocate
  split
  · exact Nat.le_of_eq (Array.size_modify ..).symm
  · rw [Array.size_push]
    exact Nat.le_succ _

theorem holder_of_allocate {c : ClassId} {t : Target} {m : ModuleId}
    (h : (s.allocate c).2.holder? t = some m) : s.holder? t = some m := by
  obtain ⟨-, hclasses, hsides⟩ := s.allocate_rest c
  cases t with
  | prototype a =>
    simp only [holder?, instanceModule, classData, hclasses] at h
    exact h
  | singleton r =>
    cases r with
    | object o =>
      simp only [holder?, eigenclass?, singleton] at h ⊢
      rcases objectData_allocate_cases (s := s) c o with ho | ⟨ho, -⟩
      · rw [ho] at h
        cases h
      · rw [ho] at h
        exact h
    | «class» a =>
      simp only [holder?, eigenclass?, singleton, classData, hclasses] at h
      exact h
    | module a =>
      simp only [holder?, eigenclass?, singleton, hsides] at h
      exact h
  | classBase => exact h
  | moduleBase => exact h

section Drop

variable {o : ObjectId}

theorem retains_drop : Graph.Retains (fun m => s.eigenclass? (.object o) = some m) s.graph
    (s.drop o).graph := by
  unfold drop
  dsimp only
  cases s.eigenclass? (.object o) with
  | none => exact .refl _
  | some e =>
    have hremove := Graph.retains_remove (g := s.graph) e
    exact ⟨fun m hm => hremove.live m fun he => hm (he ▸ rfl),
      fun m hm => by simpa [eq_comm] using hremove.node m fun he => hm (he ▸ rfl)⟩

theorem node_drop_eigenclass {e : ModuleId} (he : s.eigenclass? (.object o) = some e)
    (hlive : s.graph.Live e) : (s.drop o).graph.node e = {} := by
  unfold drop
  rw [he]
  exact Graph.node_remove_self hlive.1

end Drop

namespace Moored

variable (h : s.Moored)
include h

theorem addModule (name : Symbol) :
    ({ s with graph := (s.graph.alloc { name := some name }).2 } : Image).Moored where
  graph := h.graph.alloc rfl
  target_of_holder t m hm := by
    have hm' : s.holder? t = some m := hm
    show ((Graph.alloc _ _).2.node m).target = _
    have hne : m ≠ (s.graph.alloc { name := some name }).1 := fun he =>
      s.graph.alloc_fresh _ (he ▸ (h.anchored_of_holder hm').live)
    rw [h.graph.roomy.node_alloc, if_neg hne]
    exact h.target_of_holder t m hm'
  hasTable m t ht := by
    have ht' : ((s.graph.alloc { name := some name }).2.node m).target = some t := ht
    rw [h.graph.roomy.node_alloc] at ht'
    split at ht'
    · cases ht'
    · exact h.hasTable m t ht'
  classOf_live := h.classOf_live
  superclass_live := h.superclass_live

theorem materialize {r : Receiver} (hr : s.HasRecord r) {p : ModuleId}
    (hp : s.graph.Anchored p ∧ ¬ s.graph.Personal p) : (s.materialize r p).2.Moored := by
  rw [materialize_eq]
  dsimp only
  refine (Twin.of_link (s.addEigenclass r).2 (s.addEigenclass r).1 p true).steady.moored ?_
  have hn : ({ target := some (.singleton r) } : Node).target = some (.singleton r) := rfl
  have hclasses := size_classes_addEigenclass (s := s) r
  have hobjects := size_objects_addEigenclass (s := s) r
  refine h.attach hn hp ?_ (fun t => ?_) ?_ (fun t ht => ?_) (fun o ho => ?_) fun c d hd => ?_
  · rw [← graph_addEigenclass]
    rfl
  · exact holder_addEigenclass hr t
  · exact HasTable.grown (t := .singleton r) hclasses.ge hobjects.ge hr
  · exact ht.grown hclasses.ge hobjects.ge
  · have hlive := h.classOf_live o (Nat.lt_of_lt_of_eq ho hobjects)
    rw [← classOf_addEigenclass r o] at hlive
    exact Nat.lt_of_lt_of_eq hlive hclasses.symm
  · have hlive := h.superclass_live c d ((superclass_addEigenclass r c).symm.trans hd)
    exact Nat.lt_of_lt_of_eq hlive hclasses.symm

theorem makeClass (a : Symbol) {above : Option ClassId}
    (hc : ∀ c, above = some c → s.LiveClass c) : (s.makeClass a above).Moored := by
  have hsize : (s.addClass a above).2.classes.size = s.classes.size + 1 := Array.size_push ..
  have hle : s.classes.size ≤ (s.addClass a above).2.classes.size := hsize ▸ Nat.le_succ _
  have hparent : (s.addClass a above).2.classParent above = s.classParent above := by
    cases above with
    | none => rfl
    | some c =>
      have hne : c ≠ ⟨s.classes.size⟩ := fun he => by
        have hlt := hc c rfl
        rw [he] at hlt
        exact Nat.lt_irrefl _ hlt
      simp only [classParent, instanceModule, classData_addClass, if_neg hne]
  rw [makeClass_eq]
  refine (Twin.of_link (s.addClass a above).2 (s.addClass a above).1 _ true).steady.moored ?_
  rw [hparent]
  refine h.attach (n := { name := some a, target := some (.prototype ⟨s.classes.size⟩) }) rfl
    (h.lasts_classParent hc) rfl (fun t => ?_) ?_ (fun t ht => ?_) ?_ ?_
  · exact holder_addClass a above t
  · exact Nat.lt_of_lt_of_eq (Nat.lt_succ_self s.classes.size) hsize.symm
  · exact ht.grown hle (Nat.le_refl _)
  · exact fun o ho => Nat.lt_of_lt_of_le (h.classOf_live o ho) hle
  · intro c d hd
    have hd' : (s.addClass a above).2.superclass c = some d := hd
    rw [superclass, classData_addClass] at hd'
    split at hd'
    · exact Nat.lt_of_lt_of_le (hc d hd') hle
    · exact Nat.lt_of_lt_of_le (h.superclass_live c d hd') hle

theorem allocate {c : ClassId} (hc : s.LiveClass c) : (s.allocate c).2.Moored := by
  obtain ⟨hgraph, hclasses, -⟩ := s.allocate_rest c
  have hsize : (s.allocate c).2.classes.size = s.classes.size := by rw [hclasses]
  refine ⟨hgraph ▸ h.graph, fun t m hm => ?_, fun m t ht => ?_, fun o ho => ?_, fun d e hd => ?_⟩
  · rw [hgraph]
    exact h.target_of_holder t m (holder_of_allocate hm)
  · rw [hgraph] at ht
    exact (h.hasTable m t ht).grown hsize.ge (size_le_allocate c)
  · rw [LiveClass, hsize, classOf]
    rcases objectData_allocate_cases c o with hdata | ⟨hdata, hlt⟩
    · rw [hdata]
      exact hc
    · rw [hdata]
      exact h.classOf_live o (hlt ho)
  · rw [LiveClass, hsize]
    rw [superclass, classData, hclasses] at hd
    exact h.superclass_live d e hd

theorem drop {o : ObjectId} (ho : s.LiveObject o) : (s.drop o).Moored := by
  have hsize : (s.drop o).objects.size = s.objects.size := Array.size_modify ..
  have howner : ∀ e, s.eigenclass? (.object o) = some e →
      s.graph.Live e ∧ (s.graph.node e).target = some (.singleton (.object o)) := fun e he =>
    ⟨(h.anchored_of_holder (t := .singleton (.object o)) he).live,
      h.target_of_holder (.singleton (.object o)) e he⟩
  have htarget : ∀ m t, ((s.drop o).graph.node m).target = some t →
      (s.graph.node m).target = some t := by
    intro m t ht
    by_cases hm : s.eigenclass? (.object o) = some m
    · rw [node_drop_eigenclass hm (howner m hm).1] at ht
      cases ht
    · rwa [(retains_drop.node m hm).target] at ht
  refine ⟨?_, fun t m hm => ?_, fun m t ht => ?_, fun a ha => ?_, h.superclass_live⟩
  · unfold Image.drop
    dsimp only
    split
    · rename_i e he
      obtain ⟨hlive, ht⟩ := howner e he
      exact h.graph.remove hlive ⟨o, ht⟩
    · exact h.graph
  · rw [holder_drop ho] at hm
    split at hm
    · cases hm
    · rename_i hne
      have ht := h.target_of_holder t m hm
      have hm' : s.eigenclass? (.object o) ≠ some m := fun he =>
        hne (Option.some.inj (ht.symm.trans (howner m he).2))
      rw [(retains_drop.node m hm').target]
      exact ht
  · refine HasTable.grown ?_ hsize.ge (h.hasTable m t (htarget m t ht))
    exact Nat.le_refl _
  · rw [hsize] at ha
    have hclass := h.classOf_live a ha
    rw [classOf, objectData_drop ho.1]
    split <;> exact hclass

theorem release {o : ObjectId} (ho : o.index < s.objects.size) : (s.release o).Moored := by
  cases hr : (s.objectData o).released with
  | true =>
    unfold Image.release
    rw [if_pos hr]
    exact h
  | false =>
    rw [release_eq hr]
    exact (Twin.of_foldl_resolve _ _).steady.moored (h.drop ⟨ho, hr⟩)

end Moored

end Image

/-- What an edit relies on where callers may go on using what has been removed. -/
def Edit.Feasible (s : Image) : Edit → Prop
  | materialize r parent =>
    s.HasRecord r ∧ s.graph.Anchored parent ∧ ¬ s.graph.Personal parent
  | makeClass _ superclass => ∀ c, superclass = some c → s.LiveClass c
  | allocate c => s.LiveClass c
  | release o => s.HasRecord (.object o)
  | _ => True

theorem Edit.moored {s : Image} (h : s.Moored) {e : Edit} (hf : e.Feasible s) :
    (e.apply s).Moored := by
  have hsame : ∀ {s' : Image}, s'.graph = s.graph → s'.classes = s.classes →
      s'.objects = s.objects → s'.moduleSides = s.moduleSides → s'.Moored := fun hg hc ho hm =>
    (Image.Steady.of_records (fun hr => hg ▸ hr) (hg ▸ .refl _) hc ho hm).moored h
  cases e with
  | intern text => exact hsame rfl rfl rfl rfl
  | addModule name => exact h.addModule name
  | define owner name m resolving => exact (Image.Steady.define ..).moored h
  | link owner other resolving => exact (Image.Steady.link ..).moored h
  | materialize r p => exact h.materialize hf.1 hf.2
  | resolve m => exact (Image.Twin.of_resolve s m).steady.moored h
  | makeClass a above => exact h.makeClass a hf
  | allocate c => exact h.allocate hf
  | release o => exact h.release hf
  | store o name v => exact (Image.Steady.store ..).moored h
  | watchNow name => exact (Image.Steady.watchNow name).moored h
  | remember r name => exact (Image.Steady.chainFor ..).moored h
  | setDescribing rs => exact hsame rfl rfl rfl rfl
  | setHooks m f => exact (Image.Steady.setHooks m f).moored h
  | observe o => exact hsame rfl rfl rfl rfl

namespace Graph

variable {a b c : Symbol}

theorem dependents_seed (m : ModuleId) :
    ((seed a b c).node m).dependents = ((frame a b c).node m).dependents := by
  rw [node_seed]
  split <;> rfl

theorem moored_seed : (seed a b c).Moored := by
  have hlive : ∀ m : ModuleId, m.index < 4 → (seed a b c).Live m := fun m hm => live_seed.2 hm
  have hkernel : ((seed a b c).node .kernel).target = none := target_seed .kernel
  have hroot : ((seed a b c).node .moduleRoot).target = some .moduleBase := target_seed .moduleRoot
  -- An edge of the seed and the pointer back.
  have hstep : ∀ {x y : ModuleId}, x.index < 4 → y ∈ ((frame a b c).node x).included →
      x ∈ ((frame a b c).node y).dependents → ¬ (seed a b c).Personal y →
      (seed a b c).Anchored y → (seed a b c).Anchored x := by
    intro x y hx hin hdep hp hy
    rw [← included_seed] at hin
    rw [← dependents_seed] at hdep
    exact .step (hlive x hx) hin hdep hp hy
  have hmodule : (seed a b c).Anchored .moduleRoot := by
    refine hstep (y := .kernel) (by decide) ?_ ?_ (not_personal_of_target hkernel) ?_
    · exact List.mem_singleton_self _
    · exact List.mem_singleton_self _
    · exact .kernel (hlive _ (by decide))
  have hclass : (seed a b c).Anchored .classRoot := by
    refine hstep (y := .moduleRoot) (by decide) ?_ ?_ ?_ hmodule
    · exact List.mem_singleton_self _
    · exact List.mem_singleton_self _
    · rintro ⟨o, ho⟩
      rw [hroot] at ho
      cases ho
  refine ⟨sound_seed.roomy, hlive _ (by decide), target_seed .gate, hlive _ (by decide), hkernel,
    ?_, ?_, fun m t ht => ?_⟩
  · rw [included_seed]
    exact List.mem_singleton_self _
  · rw [dependents_seed]
    exact List.mem_singleton_self _
  · rw [target_seed, node_frame] at ht
    rcases m with ⟨_ | _ | _ | _ | i⟩
    · cases ht
    · cases ht
    · exact hmodule
    · exact hclass
    · cases ht

end Graph

namespace Image

variable {s : Image}

theorem Seeded.moored (h : s.Seeded) : s.Moored where
  graph := by
    obtain ⟨a, b, c, hg⟩ := h.graph
    exact hg ▸ Graph.moored_seed
  target_of_holder t m hm := (h.target_iff m t).2 hm
  hasTable _ _ := h.sound.hasTable
  classOf_live o ho := by
    rw [h.objects] at ho
    exact absurd ho (Nat.not_lt_zero _)
  superclass_live _ _ := h.sound.superclass_live

theorem steady_foldl_watch (names : List Symbol) : Steady s (names.foldl watch s) := by
  induction names generalizing s with
  | nil => exact .refl s
  | cons a names ih => exact (Steady.watch a).trans ih

end Image

end Mixin
