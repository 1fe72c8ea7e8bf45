import Mixin.Proofs.Ancestry
import Mixin.Proofs.ChainCache
import Mixin.Proofs.Coherence
import Mixin.Proofs.Image.Fields
import Mixin.Proofs.Run.Absorb

/-! Objects that are released. What an object held is gone, and of its eigenclass nothing is left but a
free place: whoever included it, or was included by it, has lost that edge and nothing else. Tables are
resolved again from the modules that had included it, and since whatever was composed of it was composed
of one of these, no table is left behind. -/

namespace Mixin

open Relation

namespace Graph

variable {g : Graph} {m a : ModuleId}

theorem Sound.node_remove_of_ne (hg : g.Sound) (hm : g.Live m) (ha : a ≠ m) :
    (g.remove m).2.node a = { g.node a with
      included := (g.node a).included.filter (· ≠ m)
      dependents := (g.node a).dependents.filter (· ≠ m) } := by
  rw [hg.node_remove hm, if_neg ha]
  rfl

theorem Sound.removed (hg : g.Sound) (hm : g.Live m) :
    (∀ x, m ∉ ((g.remove m).2.node x).included ∧ m ∉ ((g.remove m).2.node x).dependents) ∧
      (g.remove m).2.free.count m = 1 := by
  have hblank : (g.remove m).2.node m = {} := node_remove_self hm.1
  have hfree : m ∈ (g.remove m).2.free := by
    rw [free_remove]
    exact List.mem_cons_self
  exact ⟨(hg.remove hm).unlisted (by rw [hblank]) (by rw [hblank]),
    List.count_eq_one_of_mem (hg.remove hm).free_nodup hfree⟩

theorem Sound.apart_remove (hg : g.Sound) (hm : g.Live m) (hout : ¬ g.Reaches a m) (n : Symbol) :
    (g.remove m).2.definition? a n = g.definition? a n ∧ (g.remove m).2.chain a n = g.chain a n := by
  have hnode : ∀ x, g.Reaches a x → ((g.remove m).2.node x).included = (g.node x).included ∧
      ((g.remove m).2.node x).methods = (g.node x).methods ∧
      ((g.remove m).2.node x).hidden = (g.node x).hidden := by
    intro x hx
    have hne : x ≠ m := by
      rintro rfl
      exact hout hx
    have hin : m ∉ (g.node x).included := fun h => hout (hx.tail h)
    have hkeep : (g.node x).included.filter (· ≠ m) = (g.node x).included :=
      congrArg Node.included (Node.dropIncluded_of_not_mem hin)
    rw [hg.node_remove_of_ne hm hne]
    exact ⟨hkeep, rfl, rfl⟩
  refine ⟨definition?_congr (fun x hx => (hnode x hx).1) fun x hx => ?_,
    chain_congr (fun x hx => (hnode x hx).1) (fun x hx _ => (hnode x hx).2.1)
      fun x hx => (hnode x hx).2.2⟩
  rw [(hnode x hx).2.1]

end Graph

namespace Image

variable {s : Image} {o : ObjectId} {r : Receiver} {e : ModuleId}

theorem effectiveModule_drop (ho : o.index < s.objects.size) (hr : r ≠ .object o) :
    (s.drop o).effectiveModule r = s.effectiveModule r := by
  cases r with
  | object a =>
    have hne : a ≠ o := fun h => hr (h ▸ rfl)
    simp only [effectiveModule, objectData_drop ho, if_neg hne]
    rfl
  | «class» c =>
    have hline : (s.drop o).lineOf c = s.lineOf c :=
      @lineOf_congr s (s.drop o) (fun _ => rfl) rfl c
    simp only [effectiveModule, sideOwner?, hline]
    rfl
  | module m => rfl

section Release

variable (hs : s.Sound) (ho : s.LiveObject o)
include hs ho

theorem objectData_release :
    (s.release o).objectData o = { classId := s.classOf o, released := true } := by
  have hdrop : (s.drop o).objectData o = { classId := s.classOf o, released := true } := by
    rw [objectData_drop ho.1, if_pos rfl]
    rfl
  have hakin := akin_release hs ho
  have hreleased : ((s.drop o).objectData o).released = true := by rw [hdrop]
  have hsingleton := hakin.blank o hreleased (by rw [hdrop])
  have hreleased' := (hakin.released o).trans hreleased
  have hclass : ((s.release o).objectData o).classId = ((s.drop o).objectData o).classId :=
    hakin.classOf o
  have hfields : ((s.release o).objectData o).fields = ((s.drop o).objectData o).fields := by
    rw [release_eq ho.2, (Spares.foldl_resolve _ _).fields]
  rw [hdrop] at hclass hfields
  generalize (s.release o).objectData o = d at *
  obtain ⟨classId, fields, singleton, released⟩ := d
  obtain rfl : classId = s.classOf o := hclass
  obtain rfl : fields = ∅ := hfields
  obtain rfl : singleton = {} := hsingleton
  obtain rfl : released = true := hreleased'
  rfl

theorem effectiveModule_release (hr : r ≠ .object o) :
    (s.release o).effectiveModule r = s.effectiveModule r := by
  rw [(akin_release hs ho).effectiveModule, effectiveModule_drop ho.1 hr]

theorem known_release (hr : s.Alive r) (hne : r ≠ .object o) : (s.release o).Known r := by
  rintro a rfl
  have ha : a ≠ o := fun h => hne (h ▸ rfl)
  exact ((persists_release hs ho).object a hr ha).1

section Eigenclass

variable (he : s.eigenclass? (.object o) = some e)
include he

omit hs in
theorem graph_release : (s.release o).graph = (s.graph.remove e).2 := by
  rw [release_eq ho.2, graph_foldl_resolve]
  unfold drop
  dsimp only
  rw [he]

theorem release_apart (hc : s.Coherent) (hr : s.Alive r) (hne : r ≠ .object o)
    (hout : ¬ s.graph.Reaches (s.effectiveModule r) e) (n : Symbol) :
    Slot.Agree (s.slot? r n) ((s.release o).slot? r n) ∧
      (s.release o).lookup r n = s.lookup r n := by
  have hlive := hs.live_eigenclass he
  obtain ⟨hdefinition, hchain⟩ := hs.graph.apart_remove hlive hout n
  have heff := effectiveModule_release hs ho hne
  have hgraph := graph_release ho he
  obtain ⟨t, ht, htable⟩ := hs.target_effectiveModule hr.known
  obtain ⟨t', ht', htable'⟩ := (hs.release ho).target_effectiveModule (known_release hs ho hr hne)
  have htarget : t' = t := by
    have hself : s.effectiveModule r ≠ e := fun h => hout (h ▸ .refl)
    rw [heff, hgraph, hs.graph.node_remove_of_ne hlive hself] at ht'
    exact Option.some.inj (ht'.symm.trans ht)
  subst htarget
  have hbefore := hc _ t' ht id n
  have hafter := hc.release hs ho _ t' ht' id n
  rw [heff, hgraph, hdefinition] at hafter
  rw [htable] at hbefore
  rw [htable'] at hafter
  refine ⟨hbefore.trans hafter.symm, ?_⟩
  rw [lookup, lookup, heff, hgraph, hchain]

end Eigenclass

end Release

end Image

namespace Machine

open Image

variable {ω : Type} {k : Manners} {u : Setup} {m : Machine ω}

/-- Releasing an object takes its eigenclass out of every list of edges, which are otherwise as they
were, and frees its place. No other module changes. Who did not have it among its ancestors keeps
every slot and every look-up, and every table agrees with what its module is composed of now. What the
object held is gone, and to release it again, as long as its place has not been given away, does
nothing. -/
theorem Reached.release_unlinks (h : m.Reached k u) (hprompt : k.prompt = true) {o : ObjectId}
    (ho : m.world.image.LiveObject o) {e : ModuleId}
    (he : m.world.image.eigenclass? (.object o) = some e) :
    let s := m.world.image
    let s' := s.release o
    ((∀ a, e ∉ (s'.graph.node a).included ∧ e ∉ (s'.graph.node a).dependents) ∧
      s'.graph.free.count e = 1) ∧
    (∀ a, a ≠ e → s'.graph.node a = { s.graph.node a with
      included := (s.graph.node a).included.filter (· ≠ e)
      dependents := (s.graph.node a).dependents.filter (· ≠ e) }) ∧
    (∀ r, s.Alive r → r ≠ .object o → .module e ∉ s.ancestorsOf r →
      ∀ n, Slot.Agree (s.slot? r n) (s'.slot? r n) ∧ s'.lookup r n = s.lookup r n) ∧
    (∀ a t, (s'.graph.node a).target = some t →
      ∀ n : Symbol, Slot.Agree (s'.table t)[n]? (s'.graph.freshSlots a)[n]?) ∧
    s'.objectData o = { classId := s.classOf o, released := true } ∧
    (o ∈ s'.freeObjects ∧ s'.release o = s' ∧
      ∀ m' : Machine ω, m'.Reached k u → o ∈ m'.world.image.freeObjects →
        m'.world.image.release o = m'.world.image) := by
  intro s s'
  have hs : s.Sound := h.sane.sound
  have hc : s.Coherent := h.coherent hprompt
  have hlive := hs.live_eigenclass he
  have hgraph : s'.graph = (s.graph.remove e).2 := graph_release ho he
  have hdata : s'.objectData o = { classId := s.classOf o, released := true } :=
    objectData_release hs ho
  have hreleased : (s'.objectData o).released = true := by rw [hdata]
  refine ⟨?_, fun a ha => ?_, fun r hr hne hmem n => ?_, fun a t ht n => ?_, hdata, ?_,
    release_of_released hreleased, fun m' h' hfree => ?_⟩
  · rw [hgraph]
    exact hs.graph.removed hlive
  · rw [hgraph]
    exact hs.graph.node_remove_of_ne hlive ha
  · refine release_apart hs ho he hc hr hne (fun hreach => hmem ?_) n
    have hentry : s.ancestorEntry e = .module e := by
      rw [ancestorEntry, (hs.target_iff e (.singleton (.object o))).2 he]
    rw [← hentry, mem_ancestorsOf hs h.gateHidden]
    refine ⟨hreach, ?_⟩
    rintro rfl
    exact hs.eigenclass_ne hs.target_gate _ he
  · rw [Graph.getElem?_freshSlots]
    exact hc.release hs ho a t ht id n
  · have hs' := hs.release ho
    refine (hs'.free_iff o).2 ⟨?_, hreleased⟩
    have hsize : s'.objects.size = (s.drop o).objects.size := (akin_release hs ho).objects
    rw [hsize]
    exact (Array.size_modify ..).symm ▸ ho.1
  · exact release_of_released ((h'.sane.sound.free_iff o).1 hfree).2

theorem Reached.absorb {s : Image} {owner : ModuleId} {source : Source} {options : MixOptions}
    {goesOn : Except Fault ModuleId → Program Unit} {op : Option Op}
    (h : ({ current := .finished (.perform (.mixIn owner source options) goesOn)
              { image := s, host := () }
            op } : Machine Unit).Reached k u)
    (hallowed : (Op.mixIn owner source options).Allowed k) (howner : s.graph.Live owner)
    (hmodules : ∀ a ∈ source.modules, s.graph.Live a) (hsilent : s.Silent source.modules) :
    ({ current := .finished (goesOn (.ok owner))
         { image := s.absorb source (.into owner options), host := () }
       op := some (.mixIn owner source options) } : Machine Unit).Reached k u := by
  have hact : (Op.mixIn owner source options).act ({ image := s, host := () } : World Unit) =
      .finished (.ok owner) { image := s.absorb source (.into owner options), host := () } :=
    Effect.mixIn_eq options hsilent
  refine h.step ⟨hallowed, ?_, nofun⟩ (step_perform hact)
  intro r hr
  rcases List.mem_cons.1 hr with rfl | hr
  · exact howner
  · obtain ⟨a, ha, rfl⟩ := List.mem_map.1 hr
    exact hmodules a ha

theorem Reached.mixIn {s : Image} {owner other : ModuleId}
    {goesOn : Except Fault ModuleId → Program Unit} {op : Option Op}
    (h : ({ current := .finished (.perform (.mixIn owner (.module other) {}) goesOn)
              { image := s, host := () }
            op } : Machine Unit).Reached k u) (howner : s.graph.Live owner) (hother : s.graph.Live other)
    (hgate : owner ≠ .gate) (hobservers : s.observers = [])
    (hhooks : (s.graph.node other).hooks = {}) :
    ({ current := .finished (goesOn (.ok owner)) { image := s.link owner other true, host := () }
       op := some (.mixIn owner (.module other) {}) } : Machine Unit).Reached k u :=
  h.absorb ⟨fun _ => rfl, fun _ => hgate, nofun⟩ howner
    (fun _ ha => List.mem_singleton.1 ha ▸ hother)
    ⟨hobservers, fun _ ha => List.mem_singleton.1 ha ▸ hhooks⟩

/-- The class's module includes the eigenclass of an instance twice, and the eigenclass itself. -/
def looped : Image := ((owned.link ⟨4⟩ ⟨5⟩ true).link ⟨4⟩ ⟨5⟩ true).link ⟨5⟩ ⟨5⟩ true

def knotted : Machine Unit where
  current := .finished (.reply (.ok .void))
    { image := looped.define ⟨5⟩ .inspect (.program 0 false) true, host := () }
  op := some (.define ⟨5⟩ .inspect (.program 0 false))

theorem reached_knotted : knotted.Reached k {} := by
  have h₀ := (tidy_owning (k := k) (.perform (.mixIn ⟨4⟩ (.module ⟨5⟩) {}) fun _ =>
    .perform (.mixIn ⟨4⟩ (.module ⟨5⟩) {}) fun _ => .perform (.mixIn ⟨5⟩ (.module ⟨5⟩) {}) fun _ =>
      .perform (.define ⟨5⟩ .inspect (.program 0 false)) fun _ => .reply (.ok .void))).reached
  have h₁ := h₀.mixIn (by decide +kernel) (by decide +kernel) (by decide) rfl (by decide +kernel)
  have h₂ := h₁.mixIn (by decide +kernel) (by decide +kernel) (by decide) rfl (by decide +kernel)
  have h₃ := h₂.mixIn (by decide +kernel) (by decide +kernel) (by decide) rfl (by decide +kernel)
  exact h₃.define (by decide +kernel) (by decide) rfl

/-- Every edge of the knot is gone, and instances of the class are shown by the kernel's method
again. -/
theorem release_unlinks_knotted :
    let s := knotted.world.image
    let s' := s.release ⟨0⟩
    s.eigenclass? (.object ⟨0⟩) = some ⟨5⟩ ∧
    (s.graph.node ⟨4⟩).included = [.kernel, ⟨5⟩, ⟨5⟩] ∧ (s.graph.node ⟨5⟩).included = [⟨4⟩, ⟨5⟩] ∧
    (s.table (.prototype ⟨0⟩))[Symbol.inspect]? = some (.direct (.program 0 false)) ∧
    (∀ a, ⟨5⟩ ∉ (s'.graph.node a).included) ∧ (s'.graph.node ⟨4⟩).included = [.kernel] ∧
    Slot.Agree (s'.table (.prototype ⟨0⟩))[Symbol.inspect]? (some (.direct (.native .inspect))) ∧
    s'.release ⟨0⟩ = s' := by
  intro s s'
  have he : s.eigenclass? (.object ⟨0⟩) = some ⟨5⟩ := by decide +kernel
  have ho : s.LiveObject ⟨0⟩ := by decide +kernel
  have hknot : (s.graph.node ⟨4⟩).included = [.kernel, ⟨5⟩, ⟨5⟩] ∧
      (s.graph.node ⟨5⟩).included = [⟨4⟩, ⟨5⟩] := by decide +kernel
  have hfresh : (s'.graph.freshSlots ⟨4⟩)[Symbol.inspect]? = some (.direct (.native .inspect)) := by
    decide +kernel
  have hmethod : (s.table (.prototype ⟨0⟩))[Symbol.inspect]? =
      some (.direct (.program 0 false)) := by decide +kernel
  have ht : (s'.graph.node ⟨4⟩).target = some (.prototype ⟨0⟩) := by decide +kernel
  have h := (reached_knotted (k := { prompt := true })).release_unlinks rfl ho he
  -- In terms of the two images, so that neither is computed again below.
  change ((∀ a, ⟨5⟩ ∉ (s'.graph.node a).included ∧ ⟨5⟩ ∉ (s'.graph.node a).dependents) ∧ _) ∧
    (∀ a, a ≠ ⟨5⟩ → s'.graph.node a = { s.graph.node a with
      included := (s.graph.node a).included.filter (· ≠ ⟨5⟩)
      dependents := (s.graph.node a).dependents.filter (· ≠ ⟨5⟩) }) ∧ _ ∧
    (∀ a t, (s'.graph.node a).target = some t →
      ∀ n : Symbol, Slot.Agree (s'.table t)[n]? (s'.graph.freshSlots a)[n]?) ∧
    _ ∧ _ ∧ s'.release ⟨0⟩ = s' ∧ _ at h
  clear_value s s'
  obtain ⟨⟨hgone, -⟩, hnode, -, htables, -, -, hagain, -⟩ := h
  have hrest : (s'.graph.node ⟨4⟩).included = (s.graph.node ⟨4⟩).included.filter (· ≠ ⟨5⟩) := by
    rw [hnode ⟨4⟩ (by decide)]
  have htable := htables ⟨4⟩ _ ht .inspect
  rw [hknot.1] at hrest
  rw [hfresh] at htable
  exact ⟨he, hknot.1, hknot.2, hmethod, fun a => (hgone a).1, hrest, htable, hagain⟩

end Machine

end Mixin
