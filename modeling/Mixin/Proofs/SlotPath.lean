import Mixin.Proofs.Coherence
import Mixin.Proofs.Image.Effective
import Mixin.Proofs.Image.Rooted

/-! Slots and ancestries agree. A receiver's table belongs to the module it answers through, and it
shows the last definition along that module's whole ancestry. The gate comes first there and only the
gate holds stubs, so this is the last visible definition wherever there is one. -/

namespace Mixin

theorem Method.isStub_congr {x y : Method} (h : x.sameBody y = true) : x.isStub = y.isStub := by
  unfold Method.isStub
  rw [of_decide_eq_true h]

theorem Slot.sameBody_of_sameAs {a b : Slot} (h : a.sameAs b = true) :
    a.method.sameBody b.method = true := by
  cases a <;> cases b <;> simp_all [Slot.sameAs, Slot.method]

theorem Slot.isDefined_of_stub {a : Slot} {n : Symbol} (h : a.sameAs (.direct (.stub n)) = true) :
    a.isDefined = false := by
  rw [Slot.isDefined, Method.isStub_congr (Slot.sameBody_of_sameAs h)]
  rfl

namespace Graph

variable {g : Graph} {m : ModuleId} {n : Symbol}

namespace Rooted

variable (h : g.Rooted) {t : Target} (ht : (g.node m).target = some t)
include h ht

theorem linearize_eq : g.linearize m = .gate :: g.ancestors m := by
  obtain ⟨i, hi⟩ := h.descends m t ht id
  obtain ⟨rest, hrest⟩ := hi.linearize_eq h.included_gate
  have hnodup := g.linearize_nodup m
  rw [hrest, List.nodup_cons] at hnodup
  have hgate : (g.node .gate).hidden = true := (h.hidden _).2 rfl
  have hvisible : rest.filter (fun a => !(g.node a).hidden) = rest := by
    refine List.filter_eq_self.2 fun a ha => ?_
    have hne : ¬ (g.node a).hidden = true := fun hh => hnodup.1 ((h.hidden a).1 hh ▸ ha)
    simpa using hne
  rw [ancestors_eq_filter, hrest, List.filter_cons, hvisible, hgate]
  rfl

theorem definition?_eq :
    g.definition? m n = (g.implementation? m n).or (g.node .gate).methods[n]? := by
  unfold definition? implementation? chain
  rw [h.linearize_eq ht, List.filterMap_cons]
  cases (g.node .gate).methods[n]? with
  | none => simp
  | some x =>
    rw [List.getLast?_cons]
    cases ((g.ancestors m).filterMap fun a => (g.node a).methods[n]?).getLast? <;> rfl

theorem isStub_of_mem_chain {x : Method} (hx : x ∈ g.chain m n) : x.isStub = false := by
  obtain ⟨a, ha, hax⟩ := List.mem_filterMap.1 hx
  refine h.real a ?_ n x hax
  rintro rfl
  have hnodup := g.linearize_nodup m
  rw [h.linearize_eq ht, List.nodup_cons] at hnodup
  exact hnodup.1 ha

end Rooted

theorem mem_visibleNames : n ∈ g.visibleNames m ↔ g.chain m n ≠ [] := by
  have hown : ∀ a, n ∈ g.ownNames a ↔ (g.node a).methods[n]? ≠ none := by
    intro a
    rw [ownNames, Std.ExtTreeMap.mem_keys, Std.ExtTreeMap.mem_iff_isSome_getElem?,
      Option.isSome_iff_ne_none]
  rw [visibleNames, List.mem_eraseDups, List.mem_flatMap]
  unfold chain
  rw [Ne, List.filterMap_eq_nil_iff]
  simp only [List.mem_reverse, hown, not_forall, exists_prop]

end Graph

namespace Image

variable {s : Image} {r : Receiver} {n : Symbol}

theorem respondsTo_iff : s.respondsTo r n = true ↔
    ∃ slot, s.slot? r n = some slot ∧ slot.isDefined = true := by
  unfold respondsTo definedSlot?
  rw [Option.isSome_iff_exists]
  simp only [Option.filter_eq_some_iff]

/-- Either the last visible definition is behind an entry of a module's table, or no ancestor defines
the name and at most the gate's stub is. -/
theorem Agrees.entry_cases {m : ModuleId} {t : Target} (h : s.Agrees m t)
    (hrooted : s.graph.Rooted) (ht : (s.graph.node m).target = some t) (n : Symbol) :
    (∃ slot x, (s.table t)[n]? = some slot ∧ s.graph.implementation? m n = some x ∧
      slot.sameAs (.ofMethod x) = true ∧ slot.isDefined = true) ∨
    s.graph.chain m n = [] ∧
      ∀ slot, (s.table t)[n]? = some slot → slot.sameAs (.direct (.stub n)) = true := by
  have hagree := h n
  rw [hrooted.definition?_eq ht] at hagree
  cases himpl : s.graph.implementation? m n with
  | some x =>
    rw [himpl] at hagree
    cases hslot : (s.table t)[n]? with
    | none =>
      rw [hslot] at hagree
      exact hagree.elim
    | some slot =>
      rw [hslot] at hagree
      have hbody := Slot.sameBody_of_sameAs hagree
      rw [Slot.method_ofMethod] at hbody
      have hreal := hrooted.isStub_of_mem_chain ht (List.mem_of_getLast? himpl)
      refine Or.inl ⟨slot, x, rfl, rfl, hagree, ?_⟩
      rw [Slot.isDefined, Method.isStub_congr hbody, hreal]
      rfl
  | none =>
    refine Or.inr ⟨List.getLast?_eq_none_iff.1 himpl, fun slot hslot => ?_⟩
    rw [himpl, hslot] at hagree
    cases hstub : (s.graph.node .gate).methods[n]? with
    | none =>
      rw [hstub] at hagree
      exact hagree.elim
    | some x =>
      rw [hstub] at hagree
      rw [hrooted.stubs n x hstub] at hagree
      exact hagree

section Agreement

variable (hs : s.Sound) (hc : s.Coherent) (hrooted : s.graph.Rooted) (hr : s.Known r)
include hs hc hrooted hr

theorem slot_cases :
    (∃ slot x, s.slot? r n = some slot ∧ s.graph.implementation? (s.effectiveModule r) n = some x ∧
      slot.sameAs (.ofMethod x) = true ∧ slot.isDefined = true) ∨
    s.graph.chain (s.effectiveModule r) n = [] ∧
      ∀ slot, s.slot? r n = some slot → slot.sameAs (.direct (.stub n)) = true := by
  obtain ⟨t, ht, htable⟩ := hs.target_effectiveModule hr
  have hcases := (hc _ t ht id).entry_cases hrooted ht n
  rwa [htable] at hcases

/-- What is behind a real slot is what the ancestry gives, whatever it is compared with. -/
theorem slot_iff_implementation (x : Method) :
    (∃ slot, s.slot? r n = some slot ∧ slot.isDefined = true ∧ slot.method.sameBody x = true) ↔
      ∃ y, s.graph.implementation? (s.effectiveModule r) n = some y ∧ y.sameBody x = true := by
  rcases slot_cases (n := n) hs hc hrooted hr with ⟨slot, y, hslot, himpl, hsame, hdefined⟩ | h
  · have hbody := Slot.sameBody_of_sameAs hsame
    rw [Slot.method_ofMethod] at hbody
    simp only [hslot, himpl, Option.some.injEq, exists_eq_left', hdefined, true_and]
    simp_all [Method.sameBody]
  · obtain ⟨hchain, hgated⟩ := h
    have himpl : s.graph.implementation? (s.effectiveModule r) n = none := by
      rw [Graph.implementation?, hchain]
      rfl
    constructor
    · intro hexists
      obtain ⟨slot, hslot, hdefined, -⟩ := hexists
      rw [Slot.isDefined_of_stub (hgated slot hslot)] at hdefined
      cases hdefined
    · intro hexists
      obtain ⟨y, hy, -⟩ := hexists
      rw [himpl] at hy
      cases hy

theorem respondsTo_iff_chain :
    s.respondsTo r n = true ↔ s.graph.chain (s.effectiveModule r) n ≠ [] := by
  rw [respondsTo_iff]
  rcases slot_cases (n := n) hs hc hrooted hr with ⟨slot, y, hslot, himpl, -, hdefined⟩ | h
  · have hne : s.graph.chain (s.effectiveModule r) n ≠ [] :=
      List.ne_nil_of_mem (List.mem_of_getLast? himpl)
    exact ⟨fun _ => hne, fun _ => ⟨slot, hslot, hdefined⟩⟩
  · obtain ⟨hchain, hgated⟩ := h
    constructor
    · intro hexists
      obtain ⟨slot, hslot, hdefined⟩ := hexists
      rw [Slot.isDefined_of_stub (hgated slot hslot)] at hdefined
      cases hdefined
    · intro hne
      exact absurd hchain hne

/-- A stub is behind a slot only if no visible ancestor defines the name. -/
theorem chain_of_not_isDefined {slot : Slot} (hslot : s.slot? r n = some slot)
    (hstub : slot.isDefined = false) : s.graph.chain (s.effectiveModule r) n = [] := by
  rcases slot_cases (n := n) hs hc hrooted hr with ⟨slot', y, hslot', -, -, hdefined⟩ | h
  · obtain rfl := Option.some.inj (hslot.symm.trans hslot')
    rw [hstub] at hdefined
    cases hdefined
  · exact h.1

end Agreement

end Image

namespace Machine

open Image

variable {ω : Type} {k : Manners} {u : Setup} {m : Machine ω}

theorem Reached.rooted (h : m.Reached k u) (hgate : k.offGate = true)
    (hgenuine : k.genuine = true) : m.world.image.graph.Rooted :=
  h.invariant (I := fun s => s.graph.Rooted) u.rooted_boot fun _ _ hs ha hsafe hr =>
    Edit.rooted hgate hgenuine hs hsafe ha hr

/-- Whatever has been included in whatever, a receiver's slot is backed by the implementation that
its ancestry gives; so it responds to the names that are visible to it, and a stub stands only where
no visible ancestor defines the name. -/
theorem Reached.slot_iff (h : m.Reached k u) (hprompt : k.prompt = true)
    (hgate : k.offGate = true) (hgenuine : k.genuine = true) {r : Receiver}
    (hr : m.world.image.Alive r) (n : Symbol) :
    let s := m.world.image
    let e := s.effectiveModule r
    (∀ x : Method,
      (∃ slot, s.slot? r n = some slot ∧ slot.isDefined = true ∧ slot.method.sameBody x = true) ↔
        ∃ y, s.graph.implementation? e n = some y ∧ y.sameBody x = true) ∧
    (s.respondsTo r n = true ↔ n ∈ s.graph.visibleNames e) ∧
    (s.respondsTo r n = true ↔ s.graph.chain e n ≠ []) ∧
    ∀ slot, s.slot? r n = some slot → slot.isDefined = false →
      ∀ a ∈ s.graph.ancestors e, (s.graph.node a).methods[n]? = none := by
  intro s e
  have hs := h.sane.sound
  have hc := h.coherent hprompt
  have hrooted := h.rooted hgate hgenuine
  have hresponds := respondsTo_iff_chain (n := n) hs hc hrooted hr.known
  refine ⟨fun x => slot_iff_implementation hs hc hrooted hr.known x, ?_, hresponds, ?_⟩
  · rw [hresponds, Graph.mem_visibleNames]
  · intro slot hslot hstub
    have hchain := chain_of_not_isDefined hs hc hrooted hr.known hslot hstub
    exact List.filterMap_eq_nil_iff.1 hchain

/-- With two definitions in the kernel's ancestry, the later one is behind the slot. -/
theorem slot_iff_reopened : reopened.world.image.Alive (.module .kernel) ∧
    (∃ slot, reopened.world.image.slot? (.module .kernel) .inspect = some slot ∧
      slot.isDefined = true ∧ slot.method.sameBody (.program 0 true) = true) ∧
    reopened.world.image.respondsTo (.module .kernel) .inspect = true := by
  have h := reached_reopened { prompt := true, offGate := true, genuine := true }
  have hr : reopened.world.image.Alive (.module .kernel) := h.sane.sound.live_kernel
  obtain ⟨hslot, -, hresponds, -⟩ := h.slot_iff rfl rfl rfl hr .inspect
  refine ⟨hr, (hslot _).2 ⟨.program 0 true, ?_, rfl⟩, hresponds.2 ?_⟩
  · decide +kernel
  · decide +kernel

end Machine

end Mixin
