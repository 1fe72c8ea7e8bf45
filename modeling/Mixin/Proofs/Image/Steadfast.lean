import Mixin.Dispatch
import Mixin.Proofs.Image.Chains
import Mixin.Proofs.Image.Twin

/-! What a send does to an image once its name has been prepared cannot be told from the image: the
chains that it caches are the ones that would be found without the cache, and neither a name that is
interned nor a description that is begun is seen by any table or chain. -/

namespace Mixin

namespace Image

variable {s s' s'' : Image}

/-- Everybody answers from the same table and finds the same chains. -/
structure Steadfast (s s' : Image) : Prop where
  slot : ∀ r n, s'.slot? r n = s.slot? r n
  chain : ∀ r n, (s'.chainFor r n).1 = (s.chainFor r n).1

theorem Steadfast.refl (s : Image) : Steadfast s s := ⟨fun _ _ => rfl, fun _ _ => rfl⟩

theorem Steadfast.trans (h : Steadfast s s') (h' : Steadfast s' s'') : Steadfast s s'' :=
  ⟨fun r n => (h'.slot r n).trans (h.slot r n), fun r n => (h'.chain r n).trans (h.chain r n)⟩

theorem slotTable_congr (heigen : ∀ a, s'.eigenclass? a = s.eigenclass? a)
    (hslots : ∀ a, (s'.singleton a).slots = (s.singleton a).slots)
    (hproto : ∀ c, (s'.classData c).prototype = (s.classData c).prototype)
    (hclass : ∀ o, s'.classOf o = s.classOf o) (hsuper : ∀ c, s'.superclass c = s.superclass c)
    (hsize : s'.classes.size = s.classes.size) (hc : s'.classBase = s.classBase)
    (hm : s'.moduleBase = s.moduleBase) (a : Receiver) : s'.slotTable a = s.slotTable a := by
  cases a with
  | object o =>
    have heigen := heigen (.object o)
    have hslots := hslots (.object o)
    have hclass := hclass o
    rw [eigenclass?, eigenclass?, singleton, singleton] at heigen
    rw [singleton, singleton] at hslots
    rw [classOf, classOf] at hclass
    simp only [slotTable, heigen, hslots, hproto, hclass]
  | «class» c =>
    have hslots (c : ClassId) : (s'.classData c).side.slots = (s.classData c).side.slots :=
      hslots (.class c)
    have howner : s'.sideOwner? c = s.sideOwner? c := by
      simp only [sideOwner?, lineOf_congr hsuper hsize, heigen]
    simp only [slotTable, howner, hslots, hc]
  | module m =>
    have heigen := heigen (.module m)
    rw [eigenclass?, eigenclass?] at heigen
    simp only [slotTable, heigen, hslots, hm]

section UpdateSingleton

variable (r : Receiver) {f : Singleton → Singleton}

theorem keeps_singleton {α : Type} {g : Singleton → α} (hg : ∀ d, g (f d) = g d) (a : Receiver) :
    g ((s.updateSingleton r f).singleton a) = g (s.singleton a) := by
  by_cases hr : s.HasRecord r
  · rw [singleton_updateSingleton f hr]
    split
    · exact hg _
    · rfl
  · rw [updateSingleton_of_not_hasRecord hr]

variable (he : ∀ d, (f d).eigenclass = d.eigenclass)
include he

theorem slot_updateSingleton (hs : ∀ d, (f d).slots = d.slots) (a : Receiver) (n : Symbol) :
    (s.updateSingleton r f).slot? a n = s.slot? a n := by
  have htable : (s.updateSingleton r f).slotTable a = s.slotTable a :=
    slotTable_congr (keeps_singleton r (g := Singleton.eigenclass) he) (keeps_singleton r hs)
      (fun c => by rw [classData_updateSingleton]) (classOf_updateSingleton r f)
      (superclass_updateSingleton r f) (size_classes_updateSingleton r f) (by cases r <;> rfl)
      (by cases r <;> rfl) a
  rw [slot?, slot?, htable]

theorem lookup_updateSingleton (a : Receiver) (n : Symbol) :
    (s.updateSingleton r f).lookup a n = s.lookup a n := by
  have heffective : (s.updateSingleton r f).effectiveModule a = s.effectiveModule a :=
    effectiveModule_congr (keeps_singleton r (g := Singleton.eigenclass) he)
      (instanceModule_updateSingleton r f) (superclass_updateSingleton r f)
      (size_classes_updateSingleton r f) fun o _ => classOf_updateSingleton r f o
  rw [lookup, heffective, graph_updateSingleton]
  rfl

end UpdateSingleton

/-- The chain that is cached counts if it is up to date. -/
theorem chainFor_fst (s : Image) (r : Receiver) (n : Symbol) : (s.chainFor r n).1 =
    (((s.cached? r n).filter (·.generation = s.graph.generation)).map (·.callees)).getD
      (s.lookup r n) := by
  unfold chainFor cached?
  dsimp only
  cases (s.singleton r).chains[n]?.filter (·.generation = s.graph.generation) <;> rfl

/-- A chain that has been found is found again. -/
theorem steadfast_chainFor (s : Image) (r : Receiver) (n : Symbol) :
    Steadfast s (s.chainFor r n).2 := by
  cases hcached : (s.singleton r).chains[n]?.filter (·.generation = s.graph.generation) with
  | some cached =>
    have hsame : (s.chainFor r n).2 = s := by
      unfold chainFor
      dsimp only
      rw [hcached]
    rw [hsame]
    exact .refl s
  | none =>
    let found : CachedChain := { generation := s.graph.generation, callees := s.lookup r n }
    let f (d : Singleton) : Singleton := { d with chains := d.chains.insert n found }
    have he : ∀ d, (f d).eigenclass = d.eigenclass := fun _ => rfl
    have hchain : (s.chainFor r n).2 = s.updateSingleton r f := by
      unfold chainFor
      dsimp only
      rw [hcached]
      rfl
    rw [hchain]
    refine ⟨slot_updateSingleton r he fun _ => rfl, fun a m => ?_⟩
    by_cases hr : s.HasRecord r
    · rw [chainFor_fst, chainFor_fst, graph_updateSingleton, lookup_updateSingleton r he, cached?,
        singleton_updateSingleton f hr]
      split
      · rename_i ha
        subst ha
        rw [Std.ExtTreeMap.getElem?_insert]
        split
        · rename_i hm
          obtain rfl := Std.LawfulEqCmp.eq_of_compare hm
          rw [cached?, hcached]
          simp [found, Option.filter]
        · rfl
      · rfl
    · rw [updateSingleton_of_not_hasRecord hr]

/-- Of what is not kept for a receiver, a module or a root nothing is seen. -/
theorem Steadfast.of_records (hgraph : s'.graph = s.graph) (hc : s'.classes = s.classes)
    (ho : s'.objects = s.objects) (hm : s'.moduleSides = s.moduleSides)
    (hbase : s'.classBase = s.classBase) (hroot : s'.moduleBase = s.moduleBase) :
    Steadfast s s' := by
  have hsingleton (a : Receiver) : s'.singleton a = s.singleton a := by
    cases a <;> simp only [singleton, objectData, classData, hc, ho, hm]
  have htable (a : Receiver) : s'.slotTable a = s.slotTable a :=
    slotTable_congr (fun a => by rw [eigenclass?, hsingleton, eigenclass?])
      (fun a => by rw [hsingleton]) (fun c => by simp only [classData, hc])
      (fun o => by simp only [classOf, objectData, ho])
      (fun c => by simp only [superclass, classData, hc]) (by rw [hc]) hbase hroot a
  refine ⟨fun r n => by rw [slot?, htable, slot?], fun r n => ?_⟩
  rw [chainFor_fst, chainFor_fst, cached?, cached?, hsingleton, lookup, lookup,
    effectiveModule_of_records hc ho hm, hgraph]

theorem steadfast_intern (s : Image) (text : String) : Steadfast s (s.intern text).2 :=
  .of_records rfl rfl rfl rfl rfl rfl

theorem steadfast_describing (s : Image) (D : List Receiver) :
    Steadfast s { s with describing := D } := .of_records rfl rfl rfl rfl rfl rfl

theorem Steadfast.hasOwnHandler (h : Steadfast s s') (r : Receiver) :
    s'.hasOwnHandler r = s.hasOwnHandler r := by
  rw [Image.hasOwnHandler, Image.hasOwnHandler, h.slot]

theorem Steadfast.missingSlot (h : Steadfast s s') (r : Receiver) :
    s'.missingSlot r = s.missingSlot r := by
  rw [Image.missingSlot, Image.missingSlot, h.slot]

end Image

end Mixin
