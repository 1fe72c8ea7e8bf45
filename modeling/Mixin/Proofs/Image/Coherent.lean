import Mixin.Proofs.Graph.View
import Mixin.Proofs.Run.Keeps

/-! Every table agrees with its module's ancestry once an edit is complete. In the middle of an edit
that fails for some modules only, namely those that reach what was changed; resolving a module puts
right all that reach it. -/

namespace Mixin

open Relation

namespace Image

variable {s s' : Image}

/-- A table has, for each name, the slot of the definition that counts for the module, and no slot
where there is none. -/
def Agrees (s : Image) (m : ModuleId) (t : Target) : Prop :=
  ∀ n, Slot.Agree (s.table t)[n]? ((s.graph.definition? m n).map Slot.ofMethod)

/-- Tables agree with their modules, but for these. -/
def CoherentBut (X : ModuleId → Prop) (s : Image) : Prop :=
  ∀ m t, (s.graph.node m).target = some t → ¬ X m → s.Agrees m t

def Coherent (s : Image) : Prop := s.CoherentBut fun _ => False

variable {X Y : ModuleId → Prop}

theorem CoherentBut.mono (h : s.CoherentBut X) (hle : ∀ m, X m → Y m) : s.CoherentBut Y :=
  fun m t ht hm => h m t ht fun hx => hm (hle m hx)

/-- Tables that are left alone go on agreeing with what is left alone of the graph. -/
theorem CoherentBut.frame (h : s.CoherentBut X)
    (hkeep : ∀ m t, (s'.graph.node m).target = some t → ¬ Y m →
      (s.graph.node m).target = some t ∧ ¬ X m ∧ s'.table t = s.table t ∧
        ∀ x, s.graph.Reaches m x → (s'.graph.node x).included = (s.graph.node x).included ∧
          (s'.graph.node x).methods = (s.graph.node x).methods) : s'.CoherentBut Y := by
  intro m t ht hm n
  obtain ⟨ht', hx, htable, hnode⟩ := hkeep m t ht hm
  rw [htable, Graph.definition?_congr (fun x hr => (hnode x hr).1)
    fun x hr => congrArg (·[n]?) (hnode x hr).2]
  exact h m t ht' hx n

theorem table_resolveOne_eq {a : ModuleId}
    (htable : ∀ u, (s.graph.node a).target = some u → s.HasTable u) (t : Target) :
    (s.resolveOne a).table t = if (s.graph.node a).target = some t then
      (SlotTable.sync (s.table t) (s.graph.freshSlots a)).1 else s.table t := by
  unfold Image.resolveOne
  cases ha : (s.graph.node a).target with
  | none => simp
  | some u =>
    show Image.table (s.setTable u _) t = _
    rw [table_setTable _ (htable u ha)]
    by_cases hu : t = u
    · rw [if_pos hu, if_pos (congrArg some hu.symm), hu]
    · rw [if_neg hu, if_neg fun he => hu (Option.some.inj he).symm]

section Resolve

variable (hs : s.Sound)
include hs

theorem table_resolveOne {m : ModuleId} {t : Target} (ht : (s.graph.node m).target = some t)
    (a : ModuleId) : (s.resolveOne a).table t =
      if m = a then (SlotTable.sync (s.table t) (s.graph.freshSlots m)).1 else s.table t := by
  rw [table_resolveOne_eq fun _ => hs.hasTable]
  by_cases hma : m = a
  · subst hma
    rw [if_pos ht, if_pos rfl]
  · rw [if_neg fun ha => hma (hs.target_inj ht ha), if_neg hma]

theorem CoherentBut.resolveOne (h : s.CoherentBut X) (a : ModuleId) :
    (s.resolveOne a).CoherentBut fun m => X m ∧ m ≠ a := by
  intro m t ht hm n
  rw [graph_resolveOne] at ht
  rw [graph_resolveOne, table_resolveOne hs ht]
  split
  · rw [← Graph.getElem?_freshSlots]
    exact SlotTable.agree_sync _ _ n
  · rename_i hne
    exact h m t ht (fun hx => hm ⟨hx, hne⟩) n

theorem CoherentBut.foldl_resolveOne (h : s.CoherentBut X) (ms : List ModuleId) :
    (ms.foldl Image.resolveOne s).CoherentBut fun m => X m ∧ m ∉ ms := by
  induction ms generalizing s X with
  | nil => exact h.mono fun m hx => ⟨hx, List.not_mem_nil⟩
  | cons a ms ih =>
    have hone := h.resolveOne hs a
    refine (ih ((Akin.resolveOne hs a).sound hs) hone).mono fun m hx => ⟨hx.1.1, fun hm => ?_⟩
    rcases List.mem_cons.1 hm with rfl | hm
    · exact hx.1.2 rfl
    · exact hx.2 hm

/-- Resolving a module puts right every module that reaches it. -/
theorem CoherentBut.resolve (h : s.CoherentBut X) (a : ModuleId) :
    (s.resolve a).CoherentBut fun m => X m ∧ ¬ s.graph.Reaches m a :=
  (h.foldl_resolveOne hs (s.graph.affected a)).mono fun _ hx =>
    ⟨hx.1, fun hr => hx.2 (hs.graph.mem_affected.2 hr)⟩

theorem table_resolve {m a : ModuleId} {t : Target} (ht : (s.graph.node m).target = some t)
    (h : ¬ s.graph.Reaches m a) : (s.resolve a).table t = s.table t := by
  have hne : ∀ b ∈ s.graph.affected a, m ≠ b := by
    rintro b hb rfl
    exact h (hs.graph.mem_affected.1 hb)
  unfold Image.resolve
  generalize s.graph.affected a = ms at hne
  induction ms generalizing s with
  | nil => rfl
  | cons b ms ih =>
    have hone := Akin.resolveOne hs b
    have hrest := ih (hone.sound hs) ((hone.target m).trans ht) (by rwa [graph_resolveOne])
      fun c hc => hne c (List.mem_cons_of_mem _ hc)
    rw [List.foldl_cons, hrest, table_resolveOne hs ht, if_neg (hne b List.mem_cons_self)]

theorem CoherentBut.foldl_resolve (h : s.CoherentBut X) (ms : List ModuleId) :
    (ms.foldl Image.resolve s).CoherentBut fun m => X m ∧ ∀ a ∈ ms, ¬ s.graph.Reaches m a := by
  induction ms generalizing s X with
  | nil => exact h.mono fun m hx => ⟨hx, fun a ha => absurd ha List.not_mem_nil⟩
  | cons a ms ih =>
    refine (ih (hs.resolve a) (h.resolve hs a)).mono fun m hx => ⟨hx.1.1, fun b hb => ?_⟩
    rcases List.mem_cons.1 hb with rfl | hb
    · exact hx.1.2
    · have hr := hx.2 b hb
      rwa [graph_resolve] at hr

end Resolve

section Tables

theorem table_updateSingleton {r : Receiver} (hr : s.HasRecord r) {f : Singleton → Singleton}
    (hf : (f (s.singleton r)).slots = (s.singleton r).slots) (t : Target) :
    (s.updateSingleton r f).table t = s.table t := by
  cases t with
  | prototype c => simp only [table, classData_updateSingleton]
  | singleton a =>
    simp only [table, singleton_updateSingleton f hr]
    split
    · rename_i ha
      rw [ha, hf]
    · rfl
  | classBase => cases r <;> rfl
  | moduleBase => cases r <;> rfl

theorem table_congr (hc : s'.classes = s.classes) (ho : s'.objects = s.objects)
    (hm : s'.moduleSides = s.moduleSides) (hcb : s'.classBase = s.classBase)
    (hmb : s'.moduleBase = s.moduleBase) (t : Target) : s'.table t = s.table t := by
  cases t with
  | prototype c => simp only [table, classData, hc]
  | singleton r => cases r <;> simp only [table, singleton, classData, objectData, hc, ho, hm]
  | classBase => exact hcb
  | moduleBase => exact hmb

theorem table_updateObject (o : ObjectId) {f : ObjectData → ObjectData}
    (hf : ∀ d, (f d).singleton = d.singleton) (t : Target) :
    (s.updateObject o f).table t = s.table t := by
  by_cases ho : o.index < s.objects.size
  · cases t with
    | singleton r =>
      cases r with
      | object a =>
        simp only [table, singleton, objectData_updateObject f ho]
        split <;> simp [hf]
      | «class» c => rfl
      | module m => rfl
    | _ => rfl
  · rw [updateObject, modify_of_size_le _ (Nat.le_of_not_lt ho)]

theorem table_addClass {t : Target} {m : ModuleId} (hm : s.holder? t = some m) (a : Symbol)
    (above : Option ClassId) : (s.addClass a above).2.table t = s.table t := by
  cases t with
  | prototype c =>
    have hc : c ≠ ⟨s.classes.size⟩ := by
      rintro rfl
      rw [holder?, if_neg (Nat.lt_irrefl _)] at hm
      cases hm
    simp only [table, classData_addClass, if_neg hc]
  | singleton r =>
    cases r with
    | «class» c =>
      have hc : c ≠ ⟨s.classes.size⟩ := by
        rintro rfl
        exact Nat.lt_irrefl _ (hasRecord_of_eigenclass hm)
      simp only [table, singleton, classData_addClass, if_neg hc]
    | object o => rfl
    | module b => rfl
  | classBase => rfl
  | moduleBase => rfl

theorem table_drop {o : ObjectId} (ho : o.index < s.objects.size) {t : Target}
    (ht : t ≠ .singleton (.object o)) : (s.drop o).table t = s.table t := by
  cases t with
  | singleton r =>
    have hr : r ≠ .object o := fun he => ht (he ▸ rfl)
    simp only [table, singleton_drop ho, if_neg hr]
  | _ => rfl

end Tables

theorem reaches_congr {g g' : Graph} (h : ∀ a, (g'.node a).included = (g.node a).included)
    (a b : ModuleId) : g'.Reaches a b ↔ g.Reaches a b := by
  unfold Graph.Reaches
  simp only [h]

theorem reaches_addEdge {g : Graph} {owner other : ModuleId} (h : g.Live owner)
    (ho : g.Live other) {a b : ModuleId} (hr : g.Reaches a b) :
    (g.addEdge owner other).Reaches a b := by
  refine ReflTransGen.mono (fun x y hy => ?_) a b hr
  rw [Graph.included_addEdge h ho]
  split
  · exact List.mem_append_left _ hy
  · exact hy

/-- The table of a module with this target is left as it was, and so is all that the module reaches. -/
structure Spared (s s' : Image) (m : ModuleId) (t : Target) : Prop where
  target : (s.graph.node m).target = some t
  table : s'.table t = s.table t
  included : ∀ x, s.graph.Reaches m x → (s'.graph.node x).included = (s.graph.node x).included
  methods : ∀ x, s.graph.Reaches m x → (s'.graph.node x).methods = (s.graph.node x).methods
  hidden : ∀ x, s.graph.Reaches m x → (s'.graph.node x).hidden = (s.graph.node x).hidden

namespace Spared

variable {m owner other : ModuleId} {t : Target}

theorem setMethod (hl : s.graph.Live owner) (name : Symbol) (x : Method)
    (ht : ((s.graph.setMethod owner name x).node m).target = some t)
    (hr : ¬ s.graph.Reaches m owner) :
    Spared s { s with graph := s.graph.setMethod owner name x } m t := by
  have hnode : ∀ a, s.graph.Reaches m a →
      (s.graph.setMethod owner name x).node a = s.graph.node a := by
    intro a ha
    rw [Graph.node_setMethod name x hl, if_neg]
    rintro rfl
    exact hr ha
  exact ⟨(Graph.target_setMethod name x hl).symm.trans ht, rfl,
    fun a ha => congrArg Node.included (hnode a ha), fun a ha => congrArg Node.methods (hnode a ha),
    fun a ha => congrArg Node.hidden (hnode a ha)⟩

theorem addEdge (hl : s.graph.Live owner) (ho : s.graph.Live other)
    (ht : ((s.graph.addEdge owner other).node m).target = some t)
    (hr : ¬ s.graph.Reaches m owner) :
    Spared s { s with graph := s.graph.addEdge owner other } m t := by
  refine ⟨(Graph.target_addEdge hl ho).symm.trans ht, rfl, fun a ha => ?_,
    fun _ _ => Graph.methods_addEdge hl ho, fun _ _ => Graph.hidden_addEdge hl ho⟩
  show ((s.graph.addEdge owner other).node a).included = _
  rw [Graph.included_addEdge hl ho, if_neg]
  rintro rfl
  exact hr ha

theorem alloc (hs : s.Sound) {n : Node} (hgraph : s'.graph = (s.graph.alloc n).2)
    (htable : ∀ m t, (s.graph.node m).target = some t → s'.table t = s.table t)
    (ht : (s'.graph.node m).target = some t) (hne : m ≠ (s.graph.alloc n).1) : Spared s s' m t := by
  rw [hgraph, hs.graph.node_alloc, if_neg hne] at ht
  have hnode : ∀ a, s.graph.Reaches m a → s'.graph.node a = s.graph.node a := by
    intro a ha
    rw [hgraph, hs.graph.node_alloc_of_live]
    exact hs.graph.live_of_reaches (hs.graph.live_of_target ht) ha
  exact ⟨ht, htable m t ht, fun a ha => congrArg Node.included (hnode a ha),
    fun a ha => congrArg Node.methods (hnode a ha), fun a ha => congrArg Node.hidden (hnode a ha)⟩

end Spared

theorem CoherentBut.spare (h : s.CoherentBut X)
    (hkeep : ∀ m t, (s'.graph.node m).target = some t → ¬ Y m → ¬ X m ∧ Spared s s' m t) :
    s'.CoherentBut Y :=
  h.frame fun m t ht hm => by
    obtain ⟨hx, hspared⟩ := hkeep m t ht hm
    exact ⟨hspared.target, hx, hspared.table, fun x hr =>
      ⟨hspared.included x hr, hspared.methods x hr⟩⟩

/-- A change to a module's methods concerns the modules that reach it. -/
theorem CoherentBut.setMethod (h : s.CoherentBut X) {owner : ModuleId} (hl : s.graph.Live owner)
    (name : Symbol) (m : Method) :
    ({ s with graph := s.graph.setMethod owner name m } : Image).CoherentBut
      fun x => X x ∨ s.graph.Reaches x owner :=
  h.spare fun _ _ ht hx => ⟨fun h => hx (Or.inl h), .setMethod hl name m ht fun hr => hx (Or.inr hr)⟩

theorem CoherentBut.addEdge (h : s.CoherentBut X) {owner other : ModuleId}
    (hl : s.graph.Live owner) (ho : s.graph.Live other) :
    ({ s with graph := s.graph.addEdge owner other } : Image).CoherentBut
      fun x => X x ∨ s.graph.Reaches x owner :=
  h.spare fun _ _ ht hx => ⟨fun h => hx (Or.inl h), .addEdge hl ho ht fun hr => hx (Or.inr hr)⟩

theorem included_setMethod {g : Graph} {owner : ModuleId} (hl : g.Live owner) (name : Symbol)
    (m : Method) (a : ModuleId) :
    ((g.setMethod owner name m).node a).included = (g.node a).included := by
  rw [Graph.node_setMethod name m hl]
  split <;> rfl

theorem table_watch (name : Symbol) (t : Target) : (s.watch name).table t = s.table t := by
  unfold watch
  split
  · exact table_congr rfl rfl rfl rfl rfl t
  · rfl

/-! Of the graph, watching a name changes what the gate holds under it. -/
section Watch

variable (hs : s.Sound) (name : Symbol)
include hs

theorem node_watch (a : ModuleId) : (s.watch name).graph.node a = s.graph.node a ∨
    a = .gate ∧ (s.watch name).graph.node a = { s.graph.node a with
      methods := (s.graph.node a).methods.insert name (.stub name) } := by
  unfold watch
  split
  · have hnode := Graph.node_setMethod (a := a) name (.stub name) hs.live_gate
    split at hnode
    · rename_i ha
      exact .inr ⟨ha, hnode⟩
    · exact .inl hnode
  · exact .inl rfl

theorem included_watch (a : ModuleId) :
    ((s.watch name).graph.node a).included = (s.graph.node a).included := by
  rcases node_watch hs name a with h | ⟨-, h⟩ <;> rw [h]

theorem hidden_watch (a : ModuleId) :
    ((s.watch name).graph.node a).hidden = (s.graph.node a).hidden := by
  rcases node_watch hs name a with h | ⟨-, h⟩ <;> rw [h]

theorem methods_watch {a : ModuleId} (hne : a ≠ .gate) :
    ((s.watch name).graph.node a).methods = (s.graph.node a).methods := by
  rcases node_watch hs name a with h | ⟨ha, -⟩
  · rw [h]
  · exact absurd ha hne

theorem getElem?_methods_watch {n : Symbol} (hne : n ≠ name) (a : ModuleId) :
    ((s.watch name).graph.node a).methods[n]? = (s.graph.node a).methods[n]? := by
  rcases node_watch hs name a with h | ⟨-, h⟩
  · rw [h]
  · rw [h, Std.ExtTreeMap.getElem?_insert, if_neg]
    exact fun hc => hne (Std.LawfulEqCmp.eq_of_compare hc).symm

end Watch

theorem CoherentBut.watch (h : s.CoherentBut X) (hs : s.Sound) (name : Symbol) :
    (s.watch name).CoherentBut
      fun x => X x ∨ s.gate.admits name = true ∧ s.graph.Reaches x .gate := by
  unfold Image.watch
  split
  · rename_i ha
    have hset := h.setMethod hs.live_gate name (.stub name)
    have hwatch := hset.mono (Y := fun x => X x ∨ s.gate.admits name = true ∧
      s.graph.Reaches x .gate) fun x hx => hx.imp_right fun hr => ⟨ha, hr⟩
    exact hwatch.frame fun m t ht hx =>
      ⟨ht, hx, table_congr rfl rfl rfl rfl rfl t, fun x _ => ⟨rfl, rfl⟩⟩
  · exact h.mono fun x hx => Or.inl hx

namespace Coherent

theorem watchNow (h : s.Coherent) (hs : s.Sound) (name : Symbol) : (s.watchNow name).Coherent := by
  unfold Image.watchNow
  split
  · have hw := (Akin.watch hs name).sound hs
    refine ((CoherentBut.watch h hs name).resolve hw .gate).mono fun x hx => ?_
    rw [reaches_congr (included_watch hs name)] at hx
    exact hx.2 (hx.1.elim False.elim fun hr => hr.2)
  · exact h

theorem define (h : s.Coherent) (hs : s.Sound) {owner : ModuleId} (hl : s.graph.Live owner)
    (name : Symbol) (m : Method) : (s.define owner name m true).Coherent := by
  have hset := Akin.setMethod hl name m
  have hs₁ := hset.sound hs
  have hwatch := Akin.watch hs₁ name
  have hs₂ := hwatch.sound hs₁
  have hin : ∀ a, ((Image.watch { s with graph := s.graph.setMethod owner name m }
      name).graph.node a).included = (s.graph.node a).included := fun a =>
    (included_watch hs₁ name a).trans (included_setMethod hl name m a)
  have hbut := CoherentBut.watch (CoherentBut.setMethod h hl name m) hs₁ name
  have howner := hbut.resolve hs₂ owner
  have hs₃ := hs₂.resolve owner
  unfold Image.define
  dsimp only
  rw [if_pos rfl]
  split
  · refine (howner.resolve hs₃ .gate).mono fun x hx => ?_
    rw [graph_resolve, reaches_congr hin, reaches_congr hin] at hx
    rw [reaches_congr (included_setMethod hl name m)] at hx
    tauto
  · rename_i hfresh
    refine howner.mono fun x hx => ?_
    rw [reaches_congr hin] at hx
    have hfresh' : ¬ (s.gate.admits name = true) := hfresh
    tauto

end Coherent

theorem CoherentBut.link (h : s.CoherentBut X) (hs : s.Sound) {owner other : ModuleId}
    (hX : ∀ x, X x → s.graph.Reaches x owner) (hl : s.graph.Live owner)
    (ho : s.graph.Live other) : (s.link owner other true).Coherent := by
  have hs₁ := (Akin.link hs hl ho false).sound hs
  have hbut := (h.addEdge hl ho).resolve hs₁ owner
  refine hbut.mono fun x hx => hx.2 (reaches_addEdge hl ho ?_)
  exact hx.1.elim (hX x) id

theorem CoherentBut.same (h : s.CoherentBut X)
    (ht : ∀ m, (s'.graph.node m).target = (s.graph.node m).target)
    (hin : ∀ m, (s'.graph.node m).included = (s.graph.node m).included)
    (hm : ∀ m, (s'.graph.node m).methods = (s.graph.node m).methods)
    (htable : ∀ t, s'.table t = s.table t) : s'.CoherentBut X :=
  h.frame fun m t hmt hx => ⟨(ht m).symm.trans hmt, hx, htable t, fun x _ => ⟨hin x, hm x⟩⟩

namespace Coherent

theorem chainFor (h : s.Coherent) {r : Receiver} (hr : s.Alive r) (name : Symbol) :
    (s.chainFor r name).2.Coherent := by
  unfold Image.chainFor
  dsimp only
  split
  · exact h
  · refine CoherentBut.same h ?_ ?_ ?_ ?_
    · simp
    · simp
    · simp
    · exact table_updateSingleton hr.hasRecord rfl

theorem store (h : s.Coherent) (o : ObjectId) {f : ObjectData → ObjectData}
    (hf : ∀ d, (f d).singleton = d.singleton) : (s.updateObject o f).Coherent :=
  CoherentBut.same h (fun _ => rfl) (fun _ => rfl) (fun _ => rfl) (table_updateObject o hf)

theorem setHooks (h : s.Coherent) {m : ModuleId} (hm : s.graph.Live m) (f : Hooks → Hooks) :
    (s.setHooks m f).Coherent := by
  choose hooks hnode using node_setHooks hm f
  exact CoherentBut.same h (fun a => by rw [hnode]) (fun a => by rw [hnode])
    (fun a => by rw [hnode]) fun t => table_congr rfl rfl rfl rfl rfl t

end Coherent

theorem CoherentBut.alloc (h : s.CoherentBut X) (hs : s.Sound) {n : Node}
    (hgraph : s'.graph = (s.graph.alloc n).2)
    (htable : ∀ m t, (s.graph.node m).target = some t → s'.table t = s.table t) :
    s'.CoherentBut fun x => X x ∨ x = (s.graph.alloc n).1 ∧ n.target ≠ none := by
  refine h.spare fun m t ht hx => ⟨fun h => hx (Or.inl h), .alloc hs hgraph htable ht ?_⟩
  rintro rfl
  rw [hgraph, hs.graph.node_alloc, if_pos rfl] at ht
  exact hx (Or.inr ⟨rfl, fun hn => by rw [hn] at ht; cases ht⟩)

theorem table_addEigenclass {r : Receiver} (hr : s.HasRecord r) (t : Target) :
    (s.addEigenclass r).2.table t = s.table t := by
  refine (table_updateSingleton ?_ rfl t).trans (table_congr rfl rfl rfl rfl rfl t)
  cases r <;> exact hr

theorem table_allocate (hs : s.Sound) (c : ClassId) {m : ModuleId} {t : Target}
    (ht : (s.graph.node m).target = some t) : (s.allocate c).2.table t = s.table t := by
  obtain ⟨-, hc, -⟩ := s.allocate_rest c
  have hm := (hs.target_iff m t).1 ht
  cases t with
  | prototype a => simp only [table, classData, hc]
  | singleton r =>
    have hne : r ≠ .object (s.allocate c).1 := by
      rintro rfl
      exact allocate_fresh hs c (hs.liveObject_of_eigenclass hm)
    simp only [table, singleton_allocate hs, if_neg hne]
  | classBase => unfold Image.allocate; split <;> rfl
  | moduleBase => unfold Image.allocate; split <;> rfl

namespace Coherent

theorem addModule (h : s.Coherent) (hs : s.Sound) (a : Symbol) :
    ({ s with graph := (s.graph.alloc { name := some a }).2 } : Image).Coherent := by
  have hgraph : ({ s with graph := (s.graph.alloc { name := some a }).2 } : Image).graph =
      (s.graph.alloc { name := some a }).2 := rfl
  refine (CoherentBut.alloc h hs hgraph fun _ t _ => table_congr rfl rfl rfl rfl rfl t).mono ?_
  rintro x (hx | ⟨-, hx⟩)
  · exact hx
  · exact hx rfl

theorem materialize (h : s.Coherent) (hs : s.Sound) {r : Receiver} (hr : s.Alive r)
    (hn : s.eigenclass? r = none) {p : ModuleId} (hp : s.parent? r = some p) :
    (s.materialize r p).2.Coherent := by
  have hs₁ := hs.addEigenclass hr hn
  have hbut := CoherentBut.alloc h hs (graph_addEigenclass r) fun _ t _ =>
    table_addEigenclass hr.hasRecord t
  have hlive := (hs.live_addEigenclass r p).2 (Or.inr (hs.live_parent hr hp))
  have hnew := (hs.live_addEigenclass r _).2 (Or.inl rfl)
  rw [materialize_eq]
  dsimp only
  refine hbut.link hs₁ (fun x hx => ?_) hnew hlive
  rcases hx with hx | ⟨hx, -⟩
  · exact hx.elim
  · exact hx ▸ .refl

theorem makeClass (h : s.Coherent) (hs : s.Sound) (a : Symbol) {above : Option ClassId}
    (habove : ∀ c, above = some c → s.LiveClass c) : (s.makeClass a above).Coherent := by
  have hs₁ := hs.addClass a habove
  have htable : ∀ m t, (s.graph.node m).target = some t →
      (s.addClass a above).2.table t = s.table t := fun m t ht =>
    table_addClass ((hs.target_iff m t).1 ht) a above
  have hgraph : (s.addClass a above).2.graph = (s.graph.alloc _).2 := rfl
  refine (CoherentBut.alloc h hs hgraph htable).link hs₁ (fun x hx => ?_)
    (hs.graph.live_alloc.2 (Or.inl rfl)) (hs₁.live_classParent fun c hc => ?_)
  · rcases hx with hx | ⟨hx, -⟩
    · exact hx.elim
    · exact hx ▸ .refl
  · have hper : Persists (fun _ => True) s (s.addClass a above).2 := persists_addClass hs a above
    exact hper.liveClass c (habove c hc)

theorem allocate (h : s.Coherent) (hs : s.Sound) (c : ClassId) : (s.allocate c).2.Coherent := by
  obtain ⟨hg, -⟩ := s.allocate_rest c
  refine CoherentBut.frame h fun m t ht _ => ?_
  rw [hg] at ht
  exact ⟨ht, id, table_allocate hs c ht, fun x _ => by rw [hg]; exact ⟨rfl, rfl⟩⟩

end Coherent

theorem reaches_dependent {g : Graph} (hg : g.Sound) {e : ModuleId} (he : g.Live e) {x : ModuleId}
    (h : g.Reaches x e) (hne : x ≠ e) :
    ∃ d ∈ (g.node e).dependents, (g.remove e).2.Reaches x d := by
  induction h using ReflTransGen.head_induction_on with
  | refl => exact absurd rfl hne
  | @head x y hy hr ih =>
    by_cases hye : y = e
    · subst hye
      exact ⟨x, (hg.back x y).1 hy, .refl⟩
    · obtain ⟨d, hd, hr'⟩ := ih hye
      exact ⟨d, hd, .head ((hg.mem_included_remove he).2 ⟨hne, hye, hy⟩) hr'⟩

theorem Coherent.drop (h : s.Coherent) (hs : s.Sound) {o : ObjectId} (ho : s.LiveObject o) :
    (s.drop o).CoherentBut fun x => ∃ d ∈ s.orphans o, (s.drop o).graph.Reaches x d := by
  refine CoherentBut.frame h fun m t ht hx => ?_
  rw [target_drop hs] at ht
  split at ht
  · cases ht
  rename_i hne
  refine ⟨ht, id, ?_, fun x hr => ?_⟩
  · refine table_drop ho.1 fun he => hne ?_
    exact (hs.target_iff m _).1 (he ▸ ht)
  · unfold Image.drop orphans at hx
    unfold Image.drop
    dsimp only at hx ⊢
    cases he : s.eigenclass? (.object o) with
    | none => exact ⟨rfl, rfl⟩
    | some e =>
      rw [he] at hx
      dsimp only at hx ⊢
      have hlive := hs.live_eigenclass he
      have hme : m ≠ e := fun h => hne (h ▸ he)
      -- A module that does not reach the eigenclass keeps all that it reaches.
      have hnot : ¬ s.graph.Reaches m e := fun hre =>
        hx (reaches_dependent hs.graph hlive hre hme)
      have hxe : x ≠ e := by
        rintro rfl
        exact hnot hr
      have hnm : e ∉ (s.graph.node x).included := fun h => hnot (hr.tail h)
      rw [hs.graph.node_remove hlive, if_neg hxe]
      refine ⟨?_, rfl⟩
      rw [Node.dropIncluded_of_not_mem (n := Node.dropDependent e (s.graph.node x)) hnm]
      rfl

theorem Coherent.release (h : s.Coherent) (hs : s.Sound) {o : ObjectId} (ho : s.LiveObject o) :
    (s.release o).Coherent := by
  rw [release_eq ho.2]
  refine ((h.drop hs ho).foldl_resolve (hs.drop ho) (s.orphans o)).mono fun x hx => ?_
  obtain ⟨⟨d, hd, hr⟩, hnone⟩ := hx
  exact hnone d hd hr

end Image

/-- A complete edit leaves every table in agreement, if it is not a deferred one. -/
theorem Edit.coherent {s : Image} {k : Manners} (hk : k.prompt = true) (hs : s.Sound) {e : Edit}
    (h : e.Safe s) (ha : e.Allowed k) (hc : s.Coherent) : (e.apply s).Coherent := by
  cases e with
  | intern text =>
    exact Image.CoherentBut.same hc (fun _ => rfl) (fun _ => rfl) (fun _ => rfl) fun t =>
      Image.table_congr rfl rfl rfl rfl rfl t
  | addModule name => exact hc.addModule hs name
  | define owner name m resolving =>
    obtain rfl := ha.1 hk
    exact hc.define hs h name m
  | link owner other resolving =>
    obtain rfl := ha.1 hk
    exact Image.CoherentBut.link hc hs (fun _ hx => hx.elim) h.1 h.2
  | materialize r p => exact hc.materialize hs h.1 h.2.1 h.2.2
  | resolve m => exact (Image.CoherentBut.resolve hs hc m).mono fun _ hx => hx.1
  | makeClass a above => exact hc.makeClass hs a h
  | allocate c => exact hc.allocate hs c
  | release o => exact hc.release hs h
  | store o a v => exact hc.store o fun _ => rfl
  | watchNow name => exact hc.watchNow hs name
  | remember r name => exact hc.chainFor h name
  | setDescribing rs =>
    exact Image.CoherentBut.same hc (fun _ => rfl) (fun _ => rfl) (fun _ => rfl) fun t =>
      Image.table_congr rfl rfl rfl rfl rfl t
  | setHooks m f => exact hc.setHooks h f
  | observe o =>
    exact Image.CoherentBut.same hc (fun _ => rfl) (fun _ => rfl) (fun _ => rfl) fun t =>
      Image.table_congr rfl rfl rfl rfl rfl t

end Mixin
