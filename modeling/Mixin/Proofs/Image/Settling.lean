import Mixin.Proofs.Image.Coherent

/-! What a resolution makes of the tables, entry by entry. A table that agrees with the fresh view is
not written to, so a second run over the same modules finds nothing to do. Since each table belongs to
one module, it is brought up to date once in a run, whatever else the run resolves and in which
order. -/

namespace Mixin

theorem Graph.affected_nodup (g : Graph) (m : ModuleId) : (g.affected m).Nodup :=
  reached_nodup (fun a ha => by rw [node_of_not_mem_arena ha]) m

namespace SlotTable

variable {t fresh : SlotTable}

theorem foldl_write_of_settled {entries : List (Symbol × Slot)} {state : SlotTable × Nat}
    (h : ∀ e ∈ entries, settled state.1 e.1 e.2 = true) : entries.foldl write state = state := by
  induction entries with
  | nil => rfl
  | cons e entries ih =>
    have hwrite : write state e = state := if_pos (h e List.mem_cons_self)
    rw [List.foldl_cons, hwrite]
    exact ih fun e' he' => h e' (List.mem_cons_of_mem _ he')

theorem sync_of_agrees (h : ∀ n : Symbol, Slot.Agree t[n]? fresh[n]?) : sync t fresh = (t, 0) := by
  have hrestrict : restrict t fresh = t := by
    refine Std.ExtTreeMap.ext_getElem? fun n => ?_
    have hn := h n
    rw [restrict, Std.ExtTreeMap.getElem?_filter', Std.ExtTreeMap.contains_eq_isSome_getElem?]
    cases ht : t[n]? with
    | none => rfl
    | some x =>
      rw [ht] at hn
      cases hfresh : fresh[n]? with
      | none => rw [hfresh] at hn; exact hn.elim
      | some y => rfl
  rw [sync, writeAll, hrestrict]
  refine foldl_write_of_settled ?_
  rintro ⟨n, x⟩ he
  have hn := h n
  rw [Std.ExtTreeMap.mem_toList_iff_getElem?_eq_some.1 he] at hn
  show settled t n x = true
  rw [settled]
  cases ht : t[n]? with
  | none => rw [ht] at hn; exact hn.elim
  | some y => rw [ht] at hn; exact hn

end SlotTable

namespace Image

variable {s : Image} {a b m : ModuleId} {t : Target}

/-- How many entries are written to the table of a module's target. -/
def writesOne (s : Image) (m : ModuleId) : Nat :=
  match (s.graph.node m).target with
  | some t => (SlotTable.sync (s.table t) (s.graph.freshSlots m)).2
  | none => 0

/-- How many entries are written when modules are resolved one after the other. -/
def writesAll (s : Image) : List ModuleId → Nat
  | [] => 0
  | m :: ms => s.writesOne m + (s.resolveOne m).writesAll ms

/-- How many entries resolving a module writes. -/
def writes (s : Image) (a : ModuleId) : Nat := s.writesAll (s.graph.affected a)

/-- Storing a table where it is changes no table, whether or not there is a place for it. -/
theorem table_setTable_self (s : Image) (t u : Target) :
    (s.setTable t (s.table t)).table u = s.table u := by
  by_cases h : s.HasTable t
  · rw [table_setTable _ h]
    split
    · rename_i hu
      rw [hu]
    · rfl
  · have hsame : s.setTable t (s.table t) = s := by
      cases t with
      | prototype c =>
        rw [setTable, updateClass, modify_of_size_le _ (Nat.le_of_not_lt h)]
      | singleton r =>
        cases r with
        | object o =>
          rw [setTable, updateSingleton, updateObject, modify_of_size_le _ (Nat.le_of_not_lt h)]
        | «class» c =>
          rw [setTable, updateSingleton, updateClass, modify_of_size_le _ (Nat.le_of_not_lt h)]
        | module m => exact absurd trivial h
      | classBase => exact absurd trivial h
      | moduleBase => exact absurd trivial h
    rw [hsame]

section Agreeing

theorem sync_agrees (h : s.Agrees m t) :
    SlotTable.sync (s.table t) (s.graph.freshSlots m) = (s.table t, 0) :=
  SlotTable.sync_of_agrees fun n => by rw [Graph.getElem?_freshSlots]; exact h n

theorem writesOne_of_agrees (h : ∀ t, (s.graph.node m).target = some t → s.Agrees m t) :
    s.writesOne m = 0 := by
  unfold writesOne
  split
  · rename_i t ht
    rw [sync_agrees (h t ht)]
  · rfl

theorem table_resolveOne_of_agrees (h : ∀ t, (s.graph.node m).target = some t → s.Agrees m t)
    (u : Target) : (s.resolveOne m).table u = s.table u := by
  unfold resolveOne
  split
  · rename_i t ht
    rw [resolveTarget, sync_agrees (h t ht)]
    exact s.table_setTable_self t u
  · rfl

theorem Agrees.resolveOne {m' : ModuleId} {t' : Target} (h' : s.Agrees m' t')
    (h : ∀ t, (s.graph.node m).target = some t → s.Agrees m t) : (s.resolveOne m).Agrees m' t' := by
  intro n
  rw [graph_resolveOne, table_resolveOne_of_agrees h]
  exact h' n

theorem foldl_resolveOne_of_agrees {ms : List ModuleId}
    (h : ∀ m ∈ ms, ∀ t, (s.graph.node m).target = some t → s.Agrees m t) :
    s.writesAll ms = 0 ∧ ∀ u, (ms.foldl Image.resolveOne s).table u = s.table u := by
  induction ms generalizing s with
  | nil => exact ⟨rfl, fun _ => rfl⟩
  | cons m ms ih =>
    have hm := h m List.mem_cons_self
    obtain ⟨hcount, htable⟩ := ih (s := s.resolveOne m) fun m' hm' t ht => by
      rw [graph_resolveOne] at ht
      exact (h m' (List.mem_cons_of_mem _ hm') t ht).resolveOne hm
    refine ⟨?_, fun u => ?_⟩
    · rw [writesAll, writesOne_of_agrees hm, hcount]
    · rw [List.foldl_cons, htable, table_resolveOne_of_agrees hm]

theorem resolve_of_agrees
    (h : ∀ m ∈ s.graph.affected a, ∀ t, (s.graph.node m).target = some t → s.Agrees m t) :
    s.writes a = 0 ∧ ∀ u, (s.resolve a).table u = s.table u :=
  foldl_resolveOne_of_agrees h

end Agreeing

/-! Each table belongs to one module. -/
section Once

variable (hs : s.Sound)
include hs

theorem table_foldl_resolveOne_of_ne {ms : List ModuleId}
    (h : ∀ m ∈ ms, (s.graph.node m).target ≠ some t) :
    (ms.foldl Image.resolveOne s).table t = s.table t := by
  induction ms generalizing s with
  | nil => rfl
  | cons m ms ih =>
    have hone := Akin.resolveOne hs m
    rw [List.foldl_cons, ih (hone.sound hs) fun b hb => ?_,
      table_resolveOne_eq fun _ => hs.hasTable, if_neg (h m List.mem_cons_self)]
    rw [graph_resolveOne]
    exact h b (List.mem_cons_of_mem _ hb)

/-- A run that lists each module once brings a table up to date once, or not at all. -/
theorem table_foldl_resolveOne (ht : (s.graph.node m).target = some t) {ms : List ModuleId}
    (hms : ms.Nodup) : (ms.foldl Image.resolveOne s).table t =
      if m ∈ ms then (SlotTable.sync (s.table t) (s.graph.freshSlots m)).1 else s.table t := by
  split
  · rename_i hm
    obtain ⟨before, after, rfl⟩ := List.append_of_mem hm
    obtain ⟨-, hafter, hne⟩ := List.nodup_append.1 hms
    have hother : ∀ b, b ≠ m → (s.graph.node b).target ≠ some t := fun b hb htb =>
      hb (hs.target_inj htb ht)
    have hbefore : (before.foldl Image.resolveOne s).table t = s.table t :=
      table_foldl_resolveOne_of_ne hs fun b hb => hother b (hne b hb m List.mem_cons_self)
    have hs₁ := (Akin.foldl_resolveOne hs before).sound hs
    rw [List.foldl_append, List.foldl_cons]
    have hs₂ := (Akin.resolveOne hs₁ m).sound hs₁
    rw [table_foldl_resolveOne_of_ne hs₂ fun b hb => ?_, table_resolveOne_eq fun _ => hs₁.hasTable,
      graph_foldl_resolveOne, if_pos ht, hbefore]
    rw [graph_resolveOne, graph_foldl_resolveOne]
    refine hother b ?_
    rintro rfl
    exact (List.nodup_cons.1 hafter).1 hb
  · rename_i hm
    refine table_foldl_resolveOne_of_ne hs fun b hb htb => hm ?_
    exact hs.target_inj htb ht ▸ hb

theorem table_resolve_of_target (ht : (s.graph.node m).target = some t) (a : ModuleId) :
    (s.resolve a).table t = if m ∈ s.graph.affected a then
      (SlotTable.sync (s.table t) (s.graph.freshSlots m)).1 else s.table t :=
  table_foldl_resolveOne hs ht (s.graph.affected_nodup a)

theorem table_resolve_of_ne (h : ∀ m ∈ s.graph.affected a, (s.graph.node m).target ≠ some t) :
    (s.resolve a).table t = s.table t :=
  table_foldl_resolveOne_of_ne hs h

/-- What a module's edit can affect agrees once the module has been resolved. -/
theorem agrees_resolve (ht : (s.graph.node m).target = some t) (hm : m ∈ s.graph.affected a) :
    (s.resolve a).Agrees m t := by
  intro n
  rw [graph_resolve, table_resolve_of_target hs ht, if_pos hm, ← Graph.getElem?_freshSlots]
  exact SlotTable.agree_sync _ _ n

/-- A module that depends on one that has been resolved is up to date, and so is what depends on it. -/
theorem resolve_again (hb : b ∈ s.graph.affected a) :
    (s.resolve a).writes b = 0 ∧
      ∀ u, ((s.resolve a).resolve b).table u = (s.resolve a).table u := by
  refine resolve_of_agrees fun m hm t ht => ?_
  rw [graph_resolve] at hm ht
  refine agrees_resolve hs ht (hs.graph.mem_affected.2 ?_)
  exact (hs.graph.mem_affected.1 hm).trans (hs.graph.mem_affected.1 hb)

theorem table_resolve_comm (a b : ModuleId) (t : Target) :
    ((s.resolve a).resolve b).table t = ((s.resolve b).resolve a).table t := by
  have hsa := hs.resolve a
  have hsb := hs.resolve b
  by_cases h : ∃ m, (s.graph.node m).target = some t
  · obtain ⟨m, ht⟩ := h
    have hta : ((s.resolve a).graph.node m).target = some t := by rwa [graph_resolve]
    have htb : ((s.resolve b).graph.node m).target = some t := by rwa [graph_resolve]
    rw [table_resolve_of_target hsa hta, table_resolve_of_target hsb htb,
      table_resolve_of_target hs ht, table_resolve_of_target hs ht, graph_resolve, graph_resolve]
    split_ifs <;> rfl
  · have hne : ∀ m, (s.graph.node m).target ≠ some t := fun m ht => h ⟨m, ht⟩
    rw [table_resolve_of_ne hsa fun m _ => by rw [graph_resolve]; exact hne m,
      table_resolve_of_ne hsb fun m _ => by rw [graph_resolve]; exact hne m,
      table_resolve_of_ne hs fun m _ => hne m, table_resolve_of_ne hs fun m _ => hne m]

end Once

end Image

end Mixin
