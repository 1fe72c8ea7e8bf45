import Mixin.Proofs.Image.Chains
import Mixin.Proofs.Image.Covered
import Mixin.Proofs.SlotPath

/-! Watching a name does not show. The gate is hidden, so no ancestry reports what it holds; and the
gate knows of every name that is defined anywhere, so a name that comes under watch is defined nowhere
and all that the tables get for it is stubs. What they hold for other names stays as it is. -/

namespace Mixin

namespace Graph

variable {g g' : Graph}

/-- The same but for what the gate holds. -/
structure Veiled (g g' : Graph) : Prop where
  included : ∀ a, (g'.node a).included = (g.node a).included
  hidden : ∀ a, (g'.node a).hidden = (g.node a).hidden
  methods : ∀ a, a ≠ .gate → (g'.node a).methods = (g.node a).methods

namespace Veiled

variable (h : Veiled g g')
include h

theorem ancestors (a : ModuleId) : g'.ancestors a = g.ancestors a :=
  ancestors_congr (fun x _ => h.included x) fun x _ => h.hidden x

variable (hgate : g.GateHidden)
include hgate

theorem chain (a : ModuleId) (n : Symbol) : g'.chain a n = g.chain a n :=
  chain_congr (fun x _ => h.included x) (fun x _ hx => h.methods x (hgate.ne_gate hx))
    fun x _ => h.hidden x

theorem visibleNames (a : ModuleId) : g'.visibleNames a = g.visibleNames a :=
  visibleNames_congr (fun x _ => h.included x) (fun x _ hx => h.methods x (hgate.ne_gate hx))
    fun x _ => h.hidden x

end Veiled

end Graph

namespace Image

variable {s s' : Image} {r : Receiver} {n name : Symbol}

/-- Everybody has the same real slots, looks up the same implementations and has the same ancestry,
through the same module; every module reports the same names, and all but the gate, through which
nobody answers, have the same names of their own. -/
structure Unseen (s s' : Image) : Prop where
  symbols : s'.symbols = s.symbols
  effectiveModule : ∀ r, s.Alive r →
    s'.effectiveModule r = s.effectiveModule r ∧ s.effectiveModule r ≠ .gate
  definedSlot : ∀ r, s.Alive r → ∀ n, s'.definedSlot? r n = s.definedSlot? r n
  lookup : ∀ r, s.Alive r → ∀ n, s'.lookup r n = s.lookup r n
  ancestorsOf : ∀ r, s.Alive r → s'.ancestorsOf r = s.ancestorsOf r
  chain : ∀ a n, s'.graph.chain a n = s.graph.chain a n
  visibleNames : ∀ a, s'.graph.visibleNames a = s.graph.visibleNames a
  ownNames : ∀ a, a ≠ .gate → s'.graph.ownNames a = s.graph.ownNames a

theorem Sound.effectiveModule_ne_gate (hs : s.Sound) (hr : s.Known r) :
    s.effectiveModule r ≠ .gate := by
  obtain ⟨t, ht, -⟩ := hs.target_effectiveModule hr
  exact hs.ne_gate_of_target ht

theorem Unseen.refl (hs : s.Sound) : Unseen s s where
  symbols := rfl
  effectiveModule _ hr := ⟨rfl, hs.effectiveModule_ne_gate hr.known⟩
  definedSlot _ _ _ := rfl
  lookup _ _ _ := rfl
  ancestorsOf _ _ := rfl
  chain _ _ := rfl
  visibleNames _ := rfl
  ownNames _ _ := rfl

/-- The tables agree about one name with the modules that they belong to. -/
def AgreesAt (s : Image) (n : Symbol) : Prop :=
  ∀ a t, (s.graph.node a).target = some t →
    Slot.Agree (s.table t)[n]? ((s.graph.definition? a n).map Slot.ofMethod)

theorem AgreesAt.foldl_resolveOne (h : s.AgreesAt n) (hs : s.Sound) (ms : List ModuleId)
    (t : Target) : ((ms.foldl resolveOne s).table t)[n]? = (s.table t)[n]? := by
  induction ms generalizing s with
  | nil => rfl
  | cons a ms ih =>
    have hkept : ∀ t, ((s.resolveOne a).table t)[n]? = (s.table t)[n]? := by
      intro t
      rw [table_resolveOne_eq fun _ => hs.hasTable]
      split
      · rename_i ha
        refine SlotTable.sync_of_agree ?_
        rw [Graph.getElem?_freshSlots]
        exact h a t ha
      · rfl
    have hagree : (s.resolveOne a).AgreesAt n := by
      intro b u hb
      rw [graph_resolveOne] at hb ⊢
      rw [hkept u]
      exact h b u hb
    rw [List.foldl_cons, ih hagree ((Akin.resolveOne hs a).sound hs), hkept]

theorem symbols_watchNow (s : Image) (name : Symbol) : (s.watchNow name).symbols = s.symbols := by
  rw [(Twin.of_watchNow s name).symbols, watch]
  split <;> rfl

/-- A name that the gate would begin to watch is not defined anywhere, unless it is the name of one of
the kernel's first methods. -/
theorem Gated.undefined (h : s.Gated) (hadmits : s.gate.admits name = true)
    (hname : name ∉ Native.names) (a : ModuleId) : (s.graph.node a).methods[name]? = none := by
  have hnew := Gate.admits_iff.1 hadmits
  by_contra hsome
  have hmem : name ∈ (s.graph.node a).methods :=
    Std.ExtTreeMap.mem_iff_isSome_getElem?.2 (Option.isSome_iff_ne_none.2 hsome)
  rcases h.known a name hmem id with hn | hn | ⟨-, hn⟩
  · exact hnew.2 hn
  · exact hnew.1 hn
  · exact hname hn

section Sound

variable (hs : s.Sound)
include hs

theorem veiled_watchNow (name : Symbol) : Graph.Veiled s.graph (s.watchNow name).graph := by
  rw [(Twin.of_watchNow s name).graph]
  exact ⟨included_watch hs name, hidden_watch hs name, fun _ => methods_watch hs name⟩

variable (hc : s.Coherent)
include hc

theorem table_watchNow (hne : n ≠ name) (t : Target) :
    ((s.watchNow name).table t)[n]? = (s.table t)[n]? := by
  unfold watchNow
  split
  · have hagree : (s.watch name).AgreesAt n := by
      intro a u ha
      rw [table_watch, Graph.definition?_congr (fun x _ => included_watch hs name x) fun x _ =>
        getElem?_methods_watch hs name hne x]
      exact hc a u (((Akin.watch hs name).target a).symm.trans ha) id n
    have hresolve := hagree.foldl_resolveOne ((Akin.watch hs name).sound hs)
      ((s.watch name).graph.affected .gate) t
    rwa [table_watch] at hresolve
  · rfl

theorem slot_watchNow (hr : s.Alive r) (hne : n ≠ name) :
    (s.watchNow name).slot? r n = s.slot? r n := by
  have hakin := Akin.watchNow hs name
  obtain ⟨t, ht, htable⟩ := hs.target_effectiveModule hr.known
  obtain ⟨t', ht', htable'⟩ :=
    (hakin.sound hs).target_effectiveModule ((hakin.alive r).2 hr).known
  rw [hakin.effectiveModule, hakin.target, ht] at ht'
  obtain rfl := Option.some.inj ht'
  rw [slot?, slot?, ← htable, ← htable', table_watchNow hs hc hne]

variable (hrooted : s.graph.Rooted)
include hrooted

theorem definedSlot_eq_none (hr : s.Alive r) (h : s.graph.chain (s.effectiveModule r) n = []) :
    s.definedSlot? r n = none := by
  have hresponds := respondsTo_iff_chain (n := n) hs hc hrooted hr.known
  rw [respondsTo, Option.isSome_iff_ne_none] at hresponds
  by_contra hsome
  exact hresponds.1 hsome h

omit hc in
theorem rooted_watchNow (name : Symbol) : (s.watchNow name).graph.Rooted := by
  rw [(Twin.of_watchNow s name).graph]
  exact rooted_watch hs hrooted name

theorem definedSlot_watchNow (hr : s.Alive r)
    (hname : ∀ a, (s.graph.node a).methods[name]? = none) (n : Symbol) :
    (s.watchNow name).definedSlot? r n = s.definedSlot? r n := by
  by_cases hne : n = name
  · have hakin := Akin.watchNow hs name
    have hnone : ∀ a, s.graph.chain a n = [] := fun a =>
      List.filterMap_eq_nil_iff.2 fun x _ => hne ▸ hname x
    rw [definedSlot_eq_none hs hc hrooted hr (hnone _)]
    refine definedSlot_eq_none (hakin.sound hs) (hc.watchNow hs name)
      (rooted_watchNow hs hrooted name) ((hakin.alive r).2 hr) ?_
    rw [(veiled_watchNow hs name).chain hrooted.hidden, hnone]
  · rw [definedSlot?, slot_watchNow hs hc hr hne]
    rfl

theorem unseen_watchNow (hg : s.Gated) (hname : name ∉ Native.names) :
    Unseen s (s.watchNow name) := by
  cases hadmits : s.gate.admits name with
  | false =>
    have hsame : s.watchNow name = s := if_neg (by rw [hadmits]; exact Bool.false_ne_true)
    rw [hsame]
    exact .refl hs
  | true =>
    have hakin := Akin.watchNow hs name
    have hveiled := veiled_watchNow hs name
    have hgate : s.graph.GateHidden := hrooted.hidden
    have hentry : (s.watchNow name).ancestorEntry = s.ancestorEntry := by
      funext a
      rw [ancestorEntry, ancestorEntry, hakin.target]
    exact {
      symbols := symbols_watchNow s name
      effectiveModule := fun r hr =>
        ⟨hakin.effectiveModule r, hs.effectiveModule_ne_gate hr.known⟩
      definedSlot := fun r hr =>
        definedSlot_watchNow hs hc hrooted hr (hg.undefined hadmits hname)
      lookup := fun r _ n => by
        rw [Image.lookup, hakin.effectiveModule, hveiled.chain hgate]
        rfl
      ancestorsOf := fun r _ => by
        rw [ancestorsOf, ancestorEntries, hakin.effectiveModule, hentry, hveiled.ancestors]
        rfl
      chain := hveiled.chain hgate
      visibleNames := hveiled.visibleNames hgate
      ownNames := fun a ha => by
        rw [Graph.ownNames, hveiled.methods a ha]
        rfl }

end Sound

end Image

end Mixin
