import Mixin.Proofs.Image.Coherent
import Mixin.Proofs.Image.Gated

/-! Every table that somebody answers from has an entry for each watched name and for each of the
kernel's first methods: the holder of the table has a hold on the kernel, and so on the gate. A name
that is newly watched is missing from all tables until the gate has been resolved, and a new table is
empty until its holder has been. -/

namespace Mixin

theorem SlotTable.mem_sync (t : SlotTable) {fresh : SlotTable} {n : Symbol} (h : n ∈ fresh) :
    n ∈ (sync t fresh).1 := by
  have hagree := agree_sync t fresh n
  rw [Std.ExtTreeMap.getElem?_eq_some_getElem h] at hagree
  rw [Std.ExtTreeMap.mem_iff_isSome_getElem?]
  cases hn : (sync t fresh).1[n]? with
  | none =>
    rw [hn] at hagree
    exact hagree.elim
  | some x => rfl

theorem Graph.mem_freshSlots {g : Graph} {m a : ModuleId} {n : Symbol} (hr : g.Reaches m a)
    (hn : n ∈ (g.node a).methods) : n ∈ g.freshSlots m := by
  rw [Std.ExtTreeMap.mem_iff_isSome_getElem?, getElem?_freshSlots, Option.isSome_map, definition?,
    List.getLast?_isSome]
  have hx := Std.ExtTreeMap.getElem?_eq_some_getElem hn
  exact List.ne_nil_of_mem (List.mem_filterMap.2 ⟨a, mem_linearize.2 hr, hx⟩)

namespace Image

variable {s s' : Image} {X Y : Target → Prop}

/-- A table has an entry for every name that everybody has. -/
def Covers (s : Image) (t : Target) : Prop :=
  ∀ n, n ∈ s.gate.watched ∨ n ∈ Native.names → n ∈ s.table t

/-- Tables that have a holder have an entry for every such name, but for these. -/
def CoveredBut (X : Target → Prop) (s : Image) : Prop :=
  ∀ t m, s.holder? t = some m → ¬ X t → s.Covers t

def Covered (s : Image) : Prop := s.CoveredBut fun _ => False

theorem Moored.mem_freshSlots (hm : s.Moored) (hg : s.Gated) {m : ModuleId}
    (ha : s.graph.Anchored m) {n : Symbol} (hn : n ∈ s.gate.watched ∨ n ∈ Native.names) :
    n ∈ s.graph.freshSlots m := by
  rcases hn with hn | hn
  · have hstub : n ∈ (s.graph.node .gate).methods := by
      rw [Std.ExtTreeMap.mem_iff_isSome_getElem?, hg.stubs n, if_pos hn]
      rfl
    exact Graph.mem_freshSlots (ha.reaches.tail hm.graph.gate_included) hstub
  · exact Graph.mem_freshSlots ha.reaches (hg.natives n hn)

namespace CoveredBut

theorem mono (h : s.CoveredBut X) (hle : ∀ t, X t → Y t) : s.CoveredBut Y :=
  fun t m hm ht => h t m hm fun hx => ht (hle t hx)

/-- While no name is newly watched it matters only which tables are written. -/
theorem frame (h : s.CoveredBut X) (hg : s'.gate = s.gate)
    (hkeep : ∀ t m, s'.holder? t = some m → ¬ Y t →
      ¬ X t ∧ s'.table t = s.table t ∧ ∃ m', s.holder? t = some m') : s'.CoveredBut Y := by
  intro t m hm ht n hn
  obtain ⟨hx, htable, m', hm'⟩ := hkeep t m hm ht
  rw [htable]
  exact h t m' hm' hx n (hg ▸ hn)

section Resolve

variable (hm : s.Moored) (hg : s.Gated)
include hm hg

theorem resolveOne (h : s.CoveredBut X) (a : ModuleId) :
    (s.resolveOne a).CoveredBut fun t => X t ∧ (s.graph.node a).target ≠ some t := by
  intro t m hholder ht n hn
  have htwin := Twin.of_resolveOne s a
  rw [holder_congr htwin.eigenclass htwin.instanceModule htwin.classes] at hholder
  rw [htwin.gate] at hn
  rw [table_resolveOne_eq (hm.hasTable a)]
  split
  · rename_i ha
    exact SlotTable.mem_sync _ (hm.mem_freshSlots hg (hm.graph.anchored a t ha) hn)
  · rename_i ha
    exact h t m hholder (fun hx => ht ⟨hx, ha⟩) n hn

theorem foldl_resolveOne (h : s.CoveredBut X) (ms : List ModuleId) :
    (ms.foldl Image.resolveOne s).CoveredBut fun t =>
      X t ∧ ∀ a ∈ ms, (s.graph.node a).target ≠ some t := by
  induction ms generalizing s X with
  | nil => exact h.mono fun t hx => ⟨hx, fun a ha => absurd ha List.not_mem_nil⟩
  | cons a ms ih =>
    have htwin := Twin.of_resolveOne s a
    refine (ih (htwin.steady.moored hm) (hg.twin htwin) (h.resolveOne hm hg a)).mono ?_
    intro t hx
    refine ⟨hx.1.1, fun b hb => ?_⟩
    rcases List.mem_cons.1 hb with rfl | hb
    · exact hx.1.2
    · have hne := hx.2 b hb
      rwa [htwin.graph] at hne

theorem resolve (h : s.CoveredBut X) (a : ModuleId) :
    (s.resolve a).CoveredBut fun t => X t ∧ ∀ b ∈ s.graph.affected a, (s.graph.node b).target ≠ some t :=
  h.foldl_resolveOne hm hg _

theorem resolve_gate : (s.resolve .gate).Covered := by
  have hall : s.CoveredBut fun _ => True := fun _ _ _ ht => absurd trivial ht
  intro t m hholder _
  have htwin := Twin.of_resolve s .gate
  have hholder' := hholder
  rw [holder_congr htwin.eigenclass htwin.instanceModule htwin.classes] at hholder'
  refine hall.resolve hm hg .gate t m hholder fun hx => ?_
  exact hx.2 m (hm.graph.affected (hm.anchored_of_holder hholder')) (hm.target_of_holder t m hholder')

theorem foldl_resolve (h : s.Covered) (ms : List ModuleId) : (ms.foldl Image.resolve s).Covered := by
  induction ms generalizing s with
  | nil => exact h
  | cons a ms ih =>
    have htwin := Twin.of_resolve s a
    exact ih (htwin.steady.moored hm) (hg.twin htwin) ((resolve hm hg h a).mono fun _ hx => hx.1)

end Resolve

theorem same (h : s.CoveredBut X) (hg : s'.gate = s.gate) (hs : Steady s s')
    (htable : ∀ t, s'.table t = s.table t) : s'.CoveredBut X :=
  h.frame hg fun t m hm hx => ⟨hx, htable t, m, hs.holder? t ▸ hm⟩

theorem link (h : s.CoveredBut X) {owner other : ModuleId}
    (hX : ∀ t, X t → (s.graph.node owner).target = some t)
    (hm : (s.link owner other true).Moored) (hg : (s.link owner other true).Gated) :
    (s.link owner other true).Covered := by
  have htwin := (Twin.of_link s owner other true).symm
  have hretains : Graph.Retains (fun _ => False) s.graph (s.graph.addEdge owner other) :=
    Graph.retains_addEdge owner other
  have hsame : ({ s with graph := s.graph.addEdge owner other } : Image).CoveredBut X :=
    h.same rfl (.of_records (fun hr => hr.addEdge ..) hretains rfl rfl rfl)
      fun t => table_congr rfl rfl rfl rfl rfl t
  refine (hsame.resolve (htwin.steady.moored hm) (hg.twin htwin) owner).mono fun t hx => ?_
  refine hx.2 owner (Graph.self_mem_affected _ _) ?_
  exact (hretains.node owner id).target.trans (hX t hx.1)

end CoveredBut

namespace Covered

variable (h : s.Covered) (hm : s.Moored) (hg : s.Gated)
include h hm hg

theorem define {owner : ModuleId} (howner : owner ≠ .gate) (name : Symbol) (m : Method) :
    (s.define owner name m true).Covered := by
  have hsteady := (Steady.setMethod (s := s) owner name m).trans (.watch name)
  have hlive : (s.graph.setMethod owner name m).Live .gate :=
    (Graph.live_setMethod ..).2 hm.graph.live_gate
  have hm₁ := hsteady.moored hm
  have hg₁ := (GatedBut.setMethod hg howner name m).watch hlive
  have htwin := Twin.of_resolve (Image.watch { s with graph := s.graph.setMethod owner name m } name)
    owner
  unfold Image.define
  dsimp only
  rw [if_pos rfl]
  split
  · exact CoveredBut.resolve_gate (htwin.steady.moored hm₁) (hg₁.twin htwin)
  · rename_i hold
    have hwatch : Image.watch { s with graph := s.graph.setMethod owner name m } name =
        { s with graph := s.graph.setMethod owner name m } := if_neg hold
    have hsame : ({ s with graph := s.graph.setMethod owner name m } : Image).Covered :=
      CoveredBut.same h rfl (.setMethod ..) fun t => table_congr rfl rfl rfl rfl rfl t
    rw [hwatch] at hm₁ hg₁ ⊢
    exact (hsame.resolve hm₁ hg₁ owner).mono fun _ hx => hx.1

theorem watchNow (name : Symbol) : (s.watchNow name).Covered := by
  unfold Image.watchNow
  split
  · exact CoveredBut.resolve_gate ((Steady.watch name).moored hm)
      (Gated.watch hg hm.graph.live_gate name)
  · exact h

theorem drop {o : ObjectId} (ho : s.LiveObject o) (ms : List ModuleId) :
    (ms.foldl Image.resolve (s.drop o)).Covered := by
  refine CoveredBut.foldl_resolve (hm.drop ho) (hg.unwritten rfl (unwritten_drop hm o)) ?_ ms
  refine CoveredBut.frame h rfl fun t m hm' _ => ?_
  rw [holder_drop ho] at hm'
  split at hm'
  · cases hm'
  · rename_i ht
    exact ⟨id, table_drop ho.1 ht, m, hm'⟩

omit hm hg in
theorem allocate (c : ClassId) : (s.allocate c).2.Covered := by
  obtain ⟨-, hclasses, hsides⟩ := s.allocate_rest c
  refine CoveredBut.frame h (gate_allocate c) fun t m hm' _ => ⟨id, ?_, m, holder_of_allocate hm'⟩
  cases t with
  | prototype a => simp only [table, classData, hclasses]
  | singleton r =>
    cases r with
    | object o =>
      rcases objectData_allocate_cases (s := s) c o with ho | ⟨ho, -⟩
      · simp only [holder?, eigenclass?, singleton, ho] at hm'
        cases hm'
      · simp only [table, singleton, ho]
    | «class» a => simp only [table, singleton, classData, hclasses]
    | module a => simp only [table, singleton, hsides]
  | classBase =>
    unfold Image.allocate
    split <;> rfl
  | moduleBase =>
    unfold Image.allocate
    split <;> rfl

omit hm hg in
theorem chainFor (r : Receiver) (name : Symbol) : (s.chainFor r name).2.Covered := by
  refine CoveredBut.same h (gate_chainFor r name) (.chainFor r name) fun t => ?_
  rcases chainFor_cases (s := s) r name with he | ⟨cached, he⟩
  · rw [he]
  · rw [he]
    by_cases hr : s.HasRecord r
    · exact table_updateSingleton hr rfl t
    · rw [updateSingleton_of_not_hasRecord hr]

end Covered

/-- Every receiver answers from a table that somebody holds. -/
theorem Moored.slotTable_eq (h : s.Moored) {r : Receiver} (hr : s.HasRecord r) :
    ∃ t m, s.holder? t = some m ∧ s.slotTable r = s.table t := by
  have hown : ∀ r, (s.singleton r).eigenclass.isSome → ∃ m, s.holder? (.singleton r) = some m :=
    fun r he => Option.isSome_iff_exists.1 he
  cases r with
  | object o =>
    unfold slotTable
    dsimp only
    split
    · rename_i he
      obtain ⟨m, hm⟩ := hown (.object o) he
      exact ⟨.singleton (.object o), m, hm, rfl⟩
    · exact ⟨.prototype (s.classOf o), _, if_pos (h.classOf_live o hr), rfl⟩
  | «class» c =>
    unfold slotTable
    dsimp only
    split
    · rename_i owner hside
      obtain ⟨m, hm⟩ := sideOwner_eigenclass hside
      exact ⟨.singleton (.class owner), m, hm, rfl⟩
    · exact ⟨.classBase, .classRoot, rfl, rfl⟩
  | module a =>
    unfold slotTable
    dsimp only
    split
    · rename_i he
      obtain ⟨m, hm⟩ := hown (.module a) he
      exact ⟨.singleton (.module a), m, hm, rfl⟩
    · exact ⟨.moduleBase, .moduleRoot, rfl, rfl⟩

/-- Everybody has a slot for a watched name, and for each of the kernel's first methods. -/
theorem Covered.slot (h : s.Covered) (hm : s.Moored) {r : Receiver} (hr : s.HasRecord r)
    {n : Symbol} (hn : n ∈ s.gate.watched ∨ n ∈ Native.names) : ∃ slot, s.slot? r n = some slot := by
  obtain ⟨t, m, hholder, htable⟩ := hm.slotTable_eq hr
  unfold slot?
  rw [htable]
  exact ⟨_, Std.ExtTreeMap.getElem?_eq_some_getElem (h t m hholder id n hn)⟩

end Image

/-- Callers who leave the gate alone and defer nothing leave no table behind. -/
theorem Edit.covered {s : Image} {k : Manners} (hgate : k.offGate = true) (hk : k.prompt = true)
    (hm : s.Moored) (hg : s.Gated) {e : Edit} (ha : e.Allowed k) (hf : e.Feasible s)
    (h : s.Covered) : (e.apply s).Covered := by
  have hm' := Edit.moored hm hf
  have hg' := Edit.gated hgate hm ha hg
  have hsame : ∀ {s' : Image}, s'.gate = s.gate → Image.Steady s s' →
      (∀ t, s'.table t = s.table t) → s'.Covered := fun hg hs htable =>
    Image.CoveredBut.same h hg hs htable
  cases e with
  | intern text =>
    exact hsame rfl (.of_records id (.refl _) rfl rfl rfl) fun t =>
      Image.table_congr rfl rfl rfl rfl rfl t
  | addModule name =>
    refine Image.CoveredBut.frame h rfl fun t m hm _ => ⟨id, ?_, m, hm⟩
    exact Image.table_congr rfl rfl rfl rfl rfl t
  | define owner name m resolving =>
    obtain rfl := ha.1 hk
    exact h.define hm hg (ha.2.1 hgate) name m
  | link owner other resolving =>
    obtain rfl := ha.1 hk
    exact Image.CoveredBut.link h (fun _ hx => hx.elim) hm' hg'
  | materialize r p =>
    have hadd : (s.addEigenclass r).2.CoveredBut (· = .singleton r) := by
      refine Image.CoveredBut.frame h (Image.gate_addEigenclass r) fun t m hm ht => ?_
      rw [Image.holder_addEigenclass hf.1, if_neg ht] at hm
      exact ⟨id, Image.table_addEigenclass hf.1 t, m, hm⟩
    rw [Edit.apply_materialize] at hm' hg' ⊢
    refine hadd.link (fun t ht => ?_) hm' hg'
    rw [ht, Image.graph_addEigenclass]
    show ((s.graph.alloc _).2.node (s.graph.alloc _).1).target = _
    rw [hm.graph.roomy.node_alloc, if_pos rfl]
  | resolve m => exact (Image.CoveredBut.resolve hm hg h m).mono fun _ hx => hx.1
  | makeClass a above =>
    have hadd : (s.addClass a above).2.CoveredBut (· = .prototype ⟨s.classes.size⟩) := by
      refine Image.CoveredBut.frame h rfl fun t m hm ht => ?_
      rw [Image.holder_addClass, if_neg ht] at hm
      exact ⟨id, Image.table_addClass hm a above, m, hm⟩
    rw [Edit.apply_makeClass] at hm' hg' ⊢
    refine hadd.link (fun t ht => ?_) hm' hg'
    rw [ht]
    show ((s.graph.alloc _).2.node (s.graph.alloc _).1).target = _
    rw [hm.graph.roomy.node_alloc, if_pos rfl]
  | allocate c => exact h.allocate c
  | release o =>
    cases hr : (s.objectData o).released with
    | true =>
      have hrelease : s.release o = s := if_pos hr
      rw [Edit.apply, hrelease]
      exact h
    | false =>
      rw [Edit.apply, Image.release_eq hr]
      exact h.drop hm hg ⟨hf, hr⟩ _
  | store o name v =>
    exact hsame rfl (.store o name v) (Image.table_updateObject o fun _ => rfl)
  | watchNow name => exact h.watchNow hm hg name
  | remember r name => exact h.chainFor r name
  | setDescribing rs =>
    exact hsame rfl (.of_records id (.refl _) rfl rfl rfl) fun t =>
      Image.table_congr rfl rfl rfl rfl rfl t
  | setHooks m f => exact hsame rfl (.setHooks m f) fun t => Image.table_congr rfl rfl rfl rfl rfl t
  | observe o =>
    exact hsame rfl (.of_records id (.refl _) rfl rfl rfl) fun t =>
      Image.table_congr rfl rfl rfl rfl rfl t

end Mixin
