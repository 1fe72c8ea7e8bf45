import Mixin.Image.Receivers
import Mixin.Proofs.Graph.Walk
import Mixin.Proofs.Image.Structure

/-! The module that a receiver answers through. It always has a target, and the target's table is
the one that the receiver's slots are read from. -/

namespace Mixin

namespace Graph

variable {g g' : Graph} {m : ModuleId}

theorem mem_ancestors {x : ModuleId} :
    x ∈ g.ancestors m ↔ g.Reaches m x ∧ (g.node x).hidden = false := by
  rw [ancestors_eq_filter, List.mem_filter, mem_linearize, Bool.not_eq_true']

theorem ancestors_nodup (g : Graph) (m : ModuleId) : (g.ancestors m).Nodup := by
  rw [ancestors_eq_filter]
  exact (g.linearize_nodup m).filter _

/-- The implementations of a name in some modules. -/
def defined (g : Graph) (n : Symbol) (ms : List ModuleId) : List Method :=
  ms.filterMap fun a => (g.node a).methods[n]?

theorem chain_eq_defined (g : Graph) (m : ModuleId) (n : Symbol) :
    g.chain m n = g.defined n (g.ancestors m) := rfl

theorem defined_append (g : Graph) (n : Symbol) (ms ms' : List ModuleId) :
    g.defined n (ms ++ ms') = g.defined n ms ++ g.defined n ms' := List.filterMap_append

theorem defined_cons (g : Graph) (n : Symbol) (a : ModuleId) (ms : List ModuleId) :
    g.defined n (a :: ms) = (g.node a).methods[n]?.toList ++ g.defined n ms := by
  unfold defined
  rw [List.filterMap_cons]
  cases (g.node a).methods[n]? <;> rfl

theorem defined_congr {n : Symbol} {ms : List ModuleId}
    (h : ∀ a ∈ ms, (g'.node a).methods[n]? = (g.node a).methods[n]?) :
    g'.defined n ms = g.defined n ms := List.filterMap_congr h

/-! What a module reports only depends on the modules that it reaches, and on the methods of those that
show. -/
section Congr

variable (hin : ∀ x, g.Reaches m x → (g'.node x).included = (g.node x).included)
  (hm : ∀ x, g.Reaches m x → (g.node x).hidden = false →
    (g'.node x).methods = (g.node x).methods)
  (hh : ∀ x, g.Reaches m x → (g'.node x).hidden = (g.node x).hidden)

include hin hh

theorem ancestors_congr : g'.ancestors m = g.ancestors m := by
  rw [ancestors_eq_filter, ancestors_eq_filter, linearize_congr hin]
  refine List.filter_congr fun x hx => ?_
  rw [hh x (mem_linearize.1 hx)]

include hm

theorem chain_congr {name : Symbol} : g'.chain m name = g.chain m name := by
  unfold chain
  rw [ancestors_congr hin hh]
  refine List.filterMap_congr fun x hx => ?_
  obtain ⟨hr, hvisible⟩ := mem_ancestors.1 hx
  rw [hm x hr hvisible]

theorem visibleNames_congr : g'.visibleNames m = g.visibleNames m := by
  unfold visibleNames
  rw [ancestors_congr hin hh]
  congr 1
  refine List.flatMap_congr fun x hx => ?_
  obtain ⟨hr, hvisible⟩ := mem_ancestors.1 (List.mem_reverse.1 hx)
  rw [ownNames, ownNames, hm x hr hvisible]

end Congr

end Graph

namespace Image

variable {s s' : Image}

/-- The receiver is a class, a module or an object that is there. -/
def Known (s : Image) (r : Receiver) : Prop := ∀ o, r = .object o → s.LiveObject o

theorem Alive.known {r : Receiver} (h : s.Alive r) : s.Known r := by
  rintro o rfl
  exact h

theorem sideOwner_eigenclass {c owner : ClassId} (h : s.sideOwner? c = some owner) :
    ∃ m, s.eigenclass? (.class owner) = some m :=
  Option.isSome_iff_exists.1 (List.find?_some (p := fun c => (s.eigenclass? (.class c)).isSome) h)

theorem Sound.target_effectiveModule (hs : s.Sound) {r : Receiver} (hr : s.Known r) :
    ∃ t, (s.graph.node (s.effectiveModule r)).target = some t ∧ s.table t = s.slotTable r := by
  cases r with
  | object o =>
    cases he : (s.objectData o).singleton.eigenclass with
    | some m =>
      refine ⟨.singleton (.object o), (hs.target_iff _ _).2 ?_, ?_⟩
      · show (s.objectData o).singleton.eigenclass = _
        simp only [effectiveModule, he, Option.getD_some]
      · simp only [slotTable, he, Option.isSome_some, if_true]
        rfl
    | none =>
      have hc : s.LiveClass (s.classOf o) := hs.classOf_live o (hr o rfl)
      refine ⟨.prototype (s.classOf o), (hs.target_iff _ _).2 ?_, ?_⟩
      · simp only [effectiveModule, he, Option.getD_none]
        exact if_pos hc
      · simp only [slotTable, he, Option.isSome_none, Bool.false_eq_true, if_false]
        rfl
  | «class» c =>
    cases ho : s.sideOwner? c with
    | some owner =>
      obtain ⟨m, hm⟩ := sideOwner_eigenclass ho
      refine ⟨.singleton (.class owner), (hs.target_iff _ _).2 ?_, ?_⟩
      · simp only [effectiveModule, ho, Option.bind_some, hm, Option.getD_some]
        exact hm
      · simp only [slotTable, ho]
        rfl
    | none =>
      refine ⟨.classBase, (hs.target_iff _ _).2 ?_, ?_⟩
      · simp only [effectiveModule, ho, Option.bind_none, Option.getD_none]
        rfl
      · simp only [slotTable, ho]
        rfl
  | module a =>
    cases he : s.eigenclass? (.module a) with
    | some m =>
      refine ⟨.singleton (.module a), (hs.target_iff _ _).2 ?_, ?_⟩
      · simp only [effectiveModule, he, Option.getD_some]
        exact he
      · have he' : (s.singleton (.module a)).eigenclass = some m := he
        simp only [slotTable, he', Option.isSome_some, if_true]
        rfl
    | none =>
      refine ⟨.moduleBase, (hs.target_iff _ _).2 ?_, ?_⟩
      · simp only [effectiveModule, he, Option.getD_none]
        rfl
      · have he' : (s.singleton (.module a)).eigenclass = none := he
        simp only [slotTable, he', Option.isSome_none, Bool.false_eq_true, if_false]
        rfl

theorem Sound.live_effectiveModule (hs : s.Sound) {r : Receiver} (hr : s.Known r) :
    s.graph.Live (s.effectiveModule r) := by
  obtain ⟨t, ht, -⟩ := hs.target_effectiveModule hr
  exact hs.graph.live_of_target ht

theorem lineOf_congr (hsup : ∀ c, s'.superclass c = s.superclass c)
    (hsize : s'.classes.size = s.classes.size) (c : ClassId) : s'.lineOf c = s.lineOf c := by
  have hline : ∀ budget c, s'.superclassLine budget c = s.superclassLine budget c := by
    intro budget
    induction budget with
    | zero => exact fun _ => rfl
    | succ budget ih =>
      intro c
      unfold superclassLine
      rw [hsup]
      cases s.superclass c with
      | none => rfl
      | some above => simp only [ih]
  rw [lineOf, lineOf, hsize, hline]

theorem effectiveModule_congr (he : ∀ r, s'.eigenclass? r = s.eigenclass? r)
    (hi : ∀ c, s'.instanceModule c = s.instanceModule c)
    (hsup : ∀ c, s'.superclass c = s.superclass c) (hsize : s'.classes.size = s.classes.size)
    {r : Receiver} (hc : ∀ o, r = .object o → s'.classOf o = s.classOf o) :
    s'.effectiveModule r = s.effectiveModule r := by
  cases r with
  | object o =>
    show (s'.eigenclass? (.object o)).getD (s'.instanceModule (s'.classOf o)) =
      (s.eigenclass? (.object o)).getD (s.instanceModule (s.classOf o))
    rw [he, hi, hc o rfl]
  | «class» c =>
    have howner : s'.sideOwner? c = s.sideOwner? c := by
      simp only [sideOwner?, lineOf_congr hsup hsize, he]
    simp only [effectiveModule, howner, he]
  | module a => simp only [effectiveModule, he]

theorem effectiveModule_of_records (hc : s'.classes = s.classes) (ho : s'.objects = s.objects)
    (hm : s'.moduleSides = s.moduleSides) (r : Receiver) :
    s'.effectiveModule r = s.effectiveModule r := by
  refine effectiveModule_congr (fun a => ?_) (fun c => ?_) (fun c => ?_) (by rw [hc]) fun o _ => ?_
  · cases a <;> simp only [eigenclass?, singleton, objectData, classData, hc, ho, hm]
  · simp only [instanceModule, classData, hc]
  · simp only [superclass, classData, hc]
  · simp only [classOf, objectData, ho]

theorem Akin.effectiveModule (h : Akin s s') (r : Receiver) :
    s'.effectiveModule r = s.effectiveModule r :=
  effectiveModule_congr h.eigenclass h.instanceModule h.superclass h.classes fun o _ => h.classOf o

end Image

end Mixin
