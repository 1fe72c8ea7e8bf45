import Mixin.Proofs.FirstSeen
import Mixin.Proofs.SlotPath

/-! The names visible through a module, and their order. The ancestry is gone through from its most
specific module on, and a name is listed where it is seen first, that is with the module whose
definition shadows all others. Within one module names stand in the order of their symbols. -/

namespace Mixin

namespace Graph

variable {g : Graph} {m : ModuleId} {n n' : Symbol} {a a' : ModuleId} {ms : List ModuleId}

/-- Of the modules that an ancestry reports, the most specific one that defines the name. -/
def definer? (g : Graph) (m : ModuleId) (n : Symbol) : Option ModuleId :=
  ((g.ancestors m).filter fun a => (g.node a).methods.contains n).getLast?

theorem mem_ownNames : n ∈ g.ownNames a ↔ n ∈ (g.node a).methods := Std.ExtTreeMap.mem_keys

theorem pairwise_ownNames (g : Graph) (a : ModuleId) :
    (g.ownNames a).Pairwise fun n n' => n.index < n'.index := by
  have h : (g.ownNames a).Pairwise fun n n' => compare n n' = .lt := Std.ExtTreeMap.ordered_keys
  exact h.imp fun hlt => Nat.compare_eq_lt.1 hlt

/-- Where in a list of modules the first one that defines the name stands. -/
def place (g : Graph) (ms : List ModuleId) (n : Symbol) : Nat :=
  ms.findIdx fun a => (g.node a).methods.contains n

theorem place_cons_of_mem (h : n ∈ g.ownNames a) : g.place (a :: ms) n = 0 := by
  have hdefines : (g.node a).methods.contains n = true := mem_ownNames.1 h
  rw [place, List.findIdx_cons, hdefines, cond_true]

theorem place_cons_of_not_mem (h : n ∉ g.ownNames a) : g.place (a :: ms) n = g.place ms n + 1 := by
  have hdefines : (g.node a).methods.contains n = false := Bool.eq_false_iff.2 (mt mem_ownNames.2 h)
  rw [place, List.findIdx_cons, hdefines, cond_false, place]

/-- Of two names, the one that a module nearer to the front defines is seen first; if one module
defines both, the order of the symbols counts. -/
theorem idxOf_flatMap_ownNames (hn : n ∈ ms.flatMap g.ownNames) (hn' : n' ∈ ms.flatMap g.ownNames) :
    (ms.flatMap g.ownNames).idxOf n < (ms.flatMap g.ownNames).idxOf n' ↔
      g.place ms n < g.place ms n' ∨ g.place ms n = g.place ms n' ∧ n.index < n'.index := by
  induction ms with
  | nil => simp at hn
  | cons a ms ih =>
    simp only [List.flatMap_cons, List.mem_append] at hn hn' ⊢
    by_cases h : n ∈ g.ownNames a <;> by_cases h' : n' ∈ g.ownNames a
    · have hown := idxOf_lt_iff_of_pairwise (g.pairwise_ownNames a) (fun _ _ h => by omega) h h'
      rw [List.idxOf_append_of_mem h, List.idxOf_append_of_mem h', hown, place_cons_of_mem h,
        place_cons_of_mem h']
      omega
    · have hlt := List.idxOf_lt_length_of_mem h
      rw [List.idxOf_append_of_mem h, List.idxOf_append_of_notMem h', place_cons_of_mem h,
        place_cons_of_not_mem h']
      omega
    · have hlt := List.idxOf_lt_length_of_mem h'
      rw [List.idxOf_append_of_notMem h, List.idxOf_append_of_mem h', place_cons_of_not_mem h,
        place_cons_of_mem h']
      omega
    · have hrest := ih (hn.resolve_left h) (hn'.resolve_left h')
      rw [List.idxOf_append_of_notMem h, List.idxOf_append_of_notMem h', place_cons_of_not_mem h,
        place_cons_of_not_mem h']
      omega

theorem definer?_eq : g.definer? m n =
    (g.ancestors m).reverse.find? fun a => (g.node a).methods.contains n :=
  List.getLast?_filter

theorem implementation?_eq_bind : g.implementation? m n =
    (g.definer? m n).bind fun a => (g.node a).methods[n]? := by
  rw [implementation?, chain, List.getLast?_filterMap, definer?_eq]
  induction (g.ancestors m).reverse with
  | nil => rfl
  | cons a ms ih =>
    rw [List.findSome?_cons, List.find?_cons, Std.ExtTreeMap.contains_eq_isSome_getElem?]
    cases h : (g.node a).methods[n]? with
    | none => simpa using ih
    | some x => simp [h]

theorem mem_visibleNames_iff_definer : n ∈ g.visibleNames m ↔ ∃ a, g.definer? m n = some a := by
  rw [visibleNames, List.mem_eraseDups, List.mem_flatMap, definer?_eq, ← Option.isSome_iff_exists,
    List.find?_isSome]
  exact exists_congr fun a => and_congr_right fun _ => mem_ownNames

theorem place_of_definer (h : g.definer? m n = some a) :
    g.place (g.ancestors m).reverse n = (g.ancestors m).reverse.idxOf a ∧ a ∈ g.ancestors m := by
  rw [definer?_eq] at h
  exact ⟨findIdx_eq_idxOf h, List.mem_reverse.1 (List.mem_of_find?_eq_some h)⟩

theorem idxOf_visibleNames_lt_iff (h : g.definer? m n = some a) (h' : g.definer? m n' = some a') :
    (g.visibleNames m).idxOf n < (g.visibleNames m).idxOf n' ↔
      (g.ancestors m).idxOf a' < (g.ancestors m).idxOf a ∨ a = a' ∧ n.index < n'.index := by
  have hmem : ∀ {n a}, g.definer? m n = some a → n ∈ (g.ancestors m).reverse.flatMap g.ownNames :=
    fun h => List.mem_eraseDups.1 (mem_visibleNames_iff_definer.2 ⟨_, h⟩)
  obtain ⟨hplace, ha⟩ := place_of_definer h
  obtain ⟨hplace', ha'⟩ := place_of_definer h'
  rw [visibleNames, idxOf_eraseDups_lt_iff (hmem h) (hmem h'),
    idxOf_flatMap_ownNames (hmem h) (hmem h'), hplace, hplace',
    idxOf_reverse_lt_iff (g.ancestors_nodup m) ha ha', List.idxOf_inj (List.mem_reverse.2 ha)]

/-- The names visible through a module are those with an implementation, each listed once. The
implementation is that of the most specific module in the ancestry that defines the name, and of two
names the one that is defined by the more specific module comes first; if one module defines both, it
is the one with the smaller symbol. A module's own names are listed by their symbols. -/
theorem visibleNames_ordered (g : Graph) (m : ModuleId) :
    (g.visibleNames m).Nodup ∧
    (∀ n, n ∈ g.visibleNames m ↔ (g.implementation? m n).isSome) ∧
    (∀ n, g.implementation? m n = (g.definer? m n).bind fun a => (g.node a).methods[n]?) ∧
    (∀ n ∈ g.visibleNames m, ∀ n' ∈ g.visibleNames m, ∃ a a', g.definer? m n = some a ∧
      g.definer? m n' = some a' ∧ ((g.visibleNames m).idxOf n < (g.visibleNames m).idxOf n' ↔
        (g.ancestors m).idxOf a' < (g.ancestors m).idxOf a ∨ a = a' ∧ n.index < n'.index)) ∧
    (∀ n, n ∈ g.ownNames m ↔ n ∈ (g.node m).methods) ∧
    (g.ownNames m).Pairwise fun n n' => n.index < n'.index := by
  refine ⟨nodup_eraseDups _, fun n => ?_, fun n => implementation?_eq_bind, fun n hn n' hn' => ?_,
    fun n => mem_ownNames, g.pairwise_ownNames m⟩
  · rw [mem_visibleNames, implementation?, List.getLast?_isSome]
  · obtain ⟨a, ha⟩ := mem_visibleNames_iff_definer.1 hn
    obtain ⟨a', ha'⟩ := mem_visibleNames_iff_definer.1 hn'
    exact ⟨a, a', ha, ha', idxOf_visibleNames_lt_iff ha ha'⟩

/-- Two modules that include each other. Both define the second name, and the first name is interned
before those that only the nearer module defines. -/
def crossed : Graph :=
  let own (names : List Symbol) : MethodTable := names.foldl (fun t n => t.insert n (.stub n)) ∅
  { nodes := #[{ included := [⟨1⟩], methods := own [.isA, .inspect] },
      { included := [⟨0⟩], methods := own [.initializer, .inspect] }] }

theorem visibleNames_ordered_crossed :
    crossed.visibleNames ⟨0⟩ = [.inspect, .isA, .initializer] ∧
    crossed.definer? ⟨0⟩ .isA = some ⟨0⟩ ∧ crossed.definer? ⟨0⟩ .initializer = some ⟨1⟩ ∧
    ((crossed.visibleNames ⟨0⟩).idxOf .isA < (crossed.visibleNames ⟨0⟩).idxOf .initializer ↔
      (crossed.ancestors ⟨0⟩).idxOf ⟨1⟩ < (crossed.ancestors ⟨0⟩).idxOf ⟨0⟩ ∨
        (⟨0⟩ : ModuleId) = ⟨1⟩ ∧ Symbol.isA.index < Symbol.initializer.index) := by
  obtain ⟨-, -, -, horder, -, -⟩ := crossed.visibleNames_ordered ⟨0⟩
  have hfirst : crossed.definer? ⟨0⟩ .isA = some ⟨0⟩ := by decide +kernel
  have hsecond : crossed.definer? ⟨0⟩ .initializer = some ⟨1⟩ := by decide +kernel
  obtain ⟨a, a', ha, ha', h⟩ := horder .isA (by decide +kernel) .initializer (by decide +kernel)
  obtain rfl := Option.some.inj (hfirst.symm.trans ha)
  obtain rfl := Option.some.inj (hsecond.symm.trans ha')
  exact ⟨by decide +kernel, hfirst, hsecond, h⟩

end Graph

end Mixin
