import Mixin.Proofs.Coherence
import Mixin.Proofs.Image.Covered
import Mixin.Proofs.Image.Rooted
import Mixin.Proofs.SlotPath

/-! Real slots for the kernel's first methods, however far tables lag behind. A table is written in two
ways only: a fresh view is put into it, or it is made along with its module and resolved at once. Every
fresh view of a module with a target has real definitions of these names, so a table that has them keeps
them. -/

namespace Mixin

theorem Slot.isDefined_of_agree {slot : Option Slot} {x : Method}
    (h : Slot.Agree slot (some (.ofMethod x))) (hx : x.isStub = false) :
    ∃ y, slot = some y ∧ y.isDefined = true := by
  cases slot with
  | none => exact h.elim
  | some y =>
    have hbody := Slot.sameBody_of_sameAs h
    rw [Slot.method_ofMethod] at hbody
    refine ⟨y, rfl, ?_⟩
    rw [Slot.isDefined, Method.isStub_congr hbody, hx]
    rfl

namespace Graph

/-- Behind everything with a target there are real definitions of the kernel's first names. -/
def Supplies (g : Graph) : Prop :=
  ∀ m t, (g.node m).target = some t → ∀ n ∈ Native.names,
    ∃ x, g.definition? m n = some x ∧ x.isStub = false

/-- The kernel has them, and what the kernel has shows before the gate does. -/
theorem Rooted.supplies {g : Graph} (h : g.Rooted) (hm : g.Moored)
    (hnatives : ∀ n ∈ Native.names, n ∈ (g.node .kernel).methods) : g.Supplies := by
  intro m t ht n hn
  have hvisible : (g.node .kernel).hidden = false := by
    have hne : ¬ (g.node .kernel).hidden = true := fun hh => by
      have hgate := (h.hidden .kernel).1 hh
      cases hgate
    simpa using hne
  have hkernel : .kernel ∈ g.ancestors m := mem_ancestors.2 ⟨(hm.anchored m t ht).reaches, hvisible⟩
  have hchain : g.chain m n ≠ [] :=
    List.ne_nil_of_mem (List.mem_filterMap.2
      ⟨.kernel, hkernel, Std.ExtTreeMap.getElem?_eq_some_getElem (hnatives n hn)⟩)
  have hlast : g.implementation? m n = some ((g.chain m n).getLast hchain) :=
    List.getLast?_eq_some_getLast hchain
  refine ⟨_, ?_, h.isStub_of_mem_chain ht (List.getLast_mem hchain)⟩
  rw [h.definition?_eq ht, hlast]
  rfl

end Graph

namespace Image

variable {s s' : Image} {X Y : Target → Prop} {a : ModuleId}

/-- A table has a real slot for each of the kernel's first names. -/
def Answers (s : Image) (t : Target) : Prop :=
  ∀ n ∈ Native.names, ∃ slot, (s.table t)[n]? = some slot ∧ slot.isDefined = true

def AnswersBut (X : Target → Prop) (s : Image) : Prop :=
  ∀ m t, (s.graph.node m).target = some t → ¬ X t → s.Answers t

def Answering (s : Image) : Prop := s.AnswersBut fun _ => False

theorem Agrees.answers {m : ModuleId} {t : Target} (h : s.Agrees m t)
    (ht : (s.graph.node m).target = some t) (hg : s.graph.Supplies) : s.Answers t := by
  intro n hn
  obtain ⟨x, hx, hreal⟩ := hg m t ht n hn
  have hagree := h n
  rw [hx] at hagree
  exact Slot.isDefined_of_agree hagree hreal

namespace AnswersBut

theorem mono (h : s.AnswersBut X) (hle : ∀ t, X t → Y t) : s.AnswersBut Y :=
  fun m t ht hy => h m t ht fun hx => hy (hle t hx)

/-- It matters only which tables are written. -/
theorem frame (h : s.AnswersBut X)
    (hkeep : ∀ m t, (s'.graph.node m).target = some t → ¬ Y t →
      ¬ X t ∧ s'.table t = s.table t ∧ ∃ m', (s.graph.node m').target = some t) :
    s'.AnswersBut Y := by
  intro m t ht hy n hn
  obtain ⟨hx, htable, m', ht'⟩ := hkeep m t ht hy
  rw [htable]
  exact h m' t ht' hx n hn

theorem akin (h : s.AnswersBut X) (hakin : Akin s s') (htable : ∀ t, s'.table t = s.table t) :
    s'.AnswersBut X :=
  h.frame fun m t ht hx => ⟨hx, htable t, m, (hakin.target m).symm.trans ht⟩

section Resolve

variable (hs : s.Sound) (hg : s.graph.Supplies)
include hs hg

theorem resolve (h : s.AnswersBut X) (a : ModuleId) :
    (s.resolve a).AnswersBut fun t => X t ∧ (s.graph.node a).target ≠ some t := by
  intro m t ht hx
  by_cases hm : s.graph.Reaches m a
  · -- The table has just been brought up to date.
    have hbut : s.CoherentBut fun _ => True := fun _ _ _ hn => absurd trivial hn
    refine (hbut.resolve hs a m t ht fun hn => hn.2 hm).answers ht ?_
    rwa [graph_resolve]
  · rw [graph_resolve] at ht
    intro n hn
    rw [table_resolve hs ht hm]
    refine h m t ht (fun hxt => hx ⟨hxt, fun ha => hm ?_⟩) n hn
    rw [hs.target_inj ht ha]
    exact .refl

theorem foldl_resolve (h : s.Answering) (ms : List ModuleId) :
    (ms.foldl Image.resolve s).Answering := by
  induction ms generalizing s with
  | nil => exact h
  | cons a ms ih =>
    refine ih (hs.resolve a) ?_ ((resolve hs hg h a).mono fun _ hx => hx.1)
    rwa [graph_resolve]

end Resolve

theorem link (h : s.AnswersBut X) (hs : s.Sound) {owner other : ModuleId}
    (hX : ∀ t, X t → (s.graph.node owner).target = some t) (hl : s.graph.Live owner)
    (ho : s.graph.Live other) (hg : (s.link owner other true).graph.Supplies) :
    (s.link owner other true).Answering := by
  have hakin := Akin.link hs hl ho false
  have hsame := h.akin hakin fun t => table_congr rfl rfl rfl rfl rfl t
  rw [link_eq_resolve] at hg ⊢
  rw [graph_resolve] at hg
  refine (hsame.resolve (hakin.sound hs) hg owner).mono fun t hx => hx.2 ?_
  exact (hakin.target owner).trans (hX t hx.1)

end AnswersBut

namespace Answering

variable (h : s.Answering) (hs : s.Sound)
include h hs

theorem define {owner : ModuleId} (hl : s.graph.Live owner) (name : Symbol) (x : Method)
    (resolving : Bool) (hg : (s.define owner name x resolving).graph.Supplies) :
    (s.define owner name x resolving).Answering := by
  have hset := Akin.setMethod hl name x
  have hakin := hset.trans (Akin.watch (hset.sound hs) name)
  have hsame := AnswersBut.akin h hakin fun t =>
    (table_watch name t).trans (table_congr rfl rfl rfl rfl rfl t)
  rw [graph_define] at hg
  have hs₁ := hakin.sound hs
  have howner := (hsame.resolve hs₁ hg owner).mono (Y := fun _ => False) fun _ hx => hx.1
  unfold Image.define
  dsimp only
  split
  · split
    · refine (howner.resolve (hs₁.resolve owner) ?_ .gate).mono fun _ hx => hx.1
      rw [graph_resolve]
      exact hg
    · exact howner
  · exact hsame

theorem watchNow (name : Symbol) (hg : (s.watchNow name).graph.Supplies) :
    (s.watchNow name).Answering := by
  have hakin := Akin.watch hs name
  have hsame := AnswersBut.akin h hakin (table_watch name)
  unfold Image.watchNow at hg ⊢
  split
  · rename_i hadmits
    rw [if_pos hadmits, graph_resolve] at hg
    exact (hsame.resolve (hakin.sound hs) hg .gate).mono fun _ hx => hx.1
  · exact h

theorem materialize {r : Receiver} (hr : s.Alive r) (hn : s.eigenclass? r = none) {p : ModuleId}
    (hp : s.parent? r = some p) (hg : (s.materialize r p).2.graph.Supplies) :
    (s.materialize r p).2.Answering := by
  have hadd : (s.addEigenclass r).2.AnswersBut (· = .singleton r) := by
    refine AnswersBut.frame h fun m t ht hne => ⟨id, table_addEigenclass hr.hasRecord t, m, ?_⟩
    rw [graph_addEigenclass, hs.graph.node_alloc] at ht
    split at ht
    · exact absurd (Option.some.inj ht).symm hne
    · exact ht
  rw [materialize_eq] at hg ⊢
  dsimp only at hg ⊢
  refine hadd.link (hs.addEigenclass hr hn) ?_ ((hs.live_addEigenclass r _).2 (.inl rfl))
    ((hs.live_addEigenclass r p).2 (.inr (hs.live_parent hr hp))) hg
  rintro t rfl
  rw [graph_addEigenclass]
  show ((s.graph.alloc _).2.node (s.graph.alloc _).1).target = _
  rw [hs.graph.node_alloc, if_pos rfl]

theorem makeClass (name : Symbol) {above : Option ClassId}
    (habove : ∀ c, above = some c → s.LiveClass c) (hg : (s.makeClass name above).graph.Supplies) :
    (s.makeClass name above).Answering := by
  have hs₁ := hs.addClass name habove
  have hadd : (s.addClass name above).2.AnswersBut (· = .prototype ⟨s.classes.size⟩) := by
    refine AnswersBut.frame h fun m t ht hne => ?_
    change ((s.graph.alloc _).2.node m).target = some t at ht
    rw [hs.graph.node_alloc] at ht
    split at ht
    · exact absurd (Option.some.inj ht).symm hne
    · exact ⟨id, table_addClass ((hs.target_iff m t).1 ht) name above, m, ht⟩
  refine hadd.link hs₁ ?_ (hs.graph.live_alloc.2 (.inl rfl))
    (hs₁.live_classParent fun c hc => ?_) hg
  · rintro t rfl
    show ((s.graph.alloc _).2.node (s.graph.alloc _).1).target = _
    rw [hs.graph.node_alloc, if_pos rfl]
  · have hper : Persists (fun _ => True) s (s.addClass name above).2 := persists_addClass hs name above
    exact hper.liveClass c (habove c hc)

theorem allocate (c : ClassId) : (s.allocate c).2.Answering := by
  refine AnswersBut.frame h fun m t ht _ => ?_
  rw [(s.allocate_rest c).1] at ht
  exact ⟨id, table_allocate hs c ht, m, ht⟩

theorem release {o : ObjectId} (ho : s.LiveObject o) (hg : (s.release o).graph.Supplies) :
    (s.release o).Answering := by
  rw [release_eq ho.2] at hg ⊢
  rw [graph_foldl_resolve] at hg
  refine AnswersBut.foldl_resolve (hs.drop ho) hg (AnswersBut.frame h fun m t ht _ => ?_) _
  rw [target_drop hs] at ht
  split at ht
  · cases ht
  · rename_i hne
    refine ⟨id, table_drop ho.1 fun he => hne ?_, m, ht⟩
    exact (hs.target_iff m _).1 (he ▸ ht)

end Answering

end Image

namespace Edit

open Image

variable {s : Image} {e : Edit}

/-- Where edits are safe, new eigenclasses are linked to modules that stay. -/
theorem Safe.feasible (h : e.Safe s) (hm : s.Moored) : e.Feasible s := by
  cases e with
  | materialize r p =>
    obtain ⟨hr, -, hp⟩ := h
    refine ⟨hr.hasRecord, ?_⟩
    cases r with
    | object o =>
      rw [← Option.some.inj hp]
      exact hm.lasts_instanceModule (hm.classOf_live o hr.1)
    | «class» c =>
      unfold parent? at hp
      dsimp only at hp
      split at hp
      · exact hm.lasts_of_holder (t := .singleton (.class _)) hp (by simp)
      · rw [← Option.some.inj hp]
        exact hm.lasts_of_holder (t := .classBase) rfl (by simp)
    | module a =>
      rw [← Option.some.inj hp]
      exact hm.lasts_of_holder (t := .moduleBase) rfl (by simp)
  | makeClass name superclass => exact h
  | allocate c => exact h
  | release o => exact h.1
  | _ => trivial

/-- Deferred or not, an edit leaves real slots in place as long as the graph goes on to supply them. -/
theorem answering (hs : s.Sound) (hsafe : e.Safe s) (hg : (e.apply s).graph.Supplies)
    (h : s.Answering) : (e.apply s).Answering := by
  have hsame : ∀ {s' : Image}, Akin s s' → (∀ t, s'.table t = s.table t) → s'.Answering :=
    fun hakin htable => AnswersBut.akin h hakin htable
  cases e with
  | addModule name =>
    refine AnswersBut.frame h fun m t ht _ => ?_
    change ((s.graph.alloc _).2.node m).target = some t at ht
    rw [hs.graph.node_alloc] at ht
    split at ht
    · cases ht
    · exact ⟨id, table_congr rfl rfl rfl rfl rfl t, m, ht⟩
  | define owner name x resolving => exact h.define hs hsafe name x resolving hg
  | link owner other resolving =>
    cases resolving with
    | true => exact AnswersBut.link h hs (fun _ hx => hx.elim) hsafe.1 hsafe.2 hg
    | false =>
      exact hsame (.link hs hsafe.1 hsafe.2 false) fun t => table_congr rfl rfl rfl rfl rfl t
  | materialize r p => exact h.materialize hs hsafe.1 hsafe.2.1 hsafe.2.2 hg
  | resolve a =>
    have hg' : s.graph.Supplies := by
      have hgraph : (s.resolve a).graph.Supplies := hg
      rwa [graph_resolve] at hgraph
    exact (AnswersBut.resolve hs hg' h a).mono fun _ hx => hx.1
  | makeClass name above => exact h.makeClass hs name hsafe hg
  | allocate c => exact h.allocate hs c
  | release o => exact h.release hs hsafe hg
  | watchNow name => exact h.watchNow hs name hg
  | store o name v =>
    exact hsame (Edit.akin (e := .store o name v) hs hsafe trivial)
      (table_updateObject o fun _ => rfl)
  | remember r name =>
    refine hsame (Edit.akin (e := .remember r name) hs hsafe trivial) fun t => ?_
    show (s.chainFor r name).2.table t = _
    unfold Image.chainFor
    dsimp only
    split
    · rfl
    · exact table_updateSingleton (Alive.hasRecord hsafe) rfl t
  | intern text =>
    exact hsame (Edit.akin (e := .intern text) hs hsafe trivial) fun t =>
      table_congr rfl rfl rfl rfl rfl t
  | setDescribing rs =>
    exact hsame (Edit.akin (e := .setDescribing rs) hs hsafe trivial) fun t =>
      table_congr rfl rfl rfl rfl rfl t
  | setHooks m f =>
    exact hsame (Edit.akin (e := .setHooks m f) hs hsafe trivial) fun t =>
      table_congr rfl rfl rfl rfl rfl t
  | observe o =>
    exact hsame (Edit.akin (e := .observe o) hs hsafe trivial) fun t =>
      table_congr rfl rfl rfl rfl rfl t

end Edit

end Mixin
