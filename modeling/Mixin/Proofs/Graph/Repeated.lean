import Mixin.Proofs.Graph.Anchored

/-! Including a module once more. The edge is stored again, at the end of the list, and a walk that
comes to it has entered the module already: either the list had led there before, or the walk started
from the includer and everything it is composed of has been entered by then. Only the second argument
depends on where the walk starts. -/

namespace Mixin

open Relation

namespace Graph

variable {g g' : Graph} {a b x : ModuleId} {ms ms' : List ModuleId} {v w w' : Walk}

/-- The pointers back match the edges. -/
def Symmetric (g : Graph) : Prop := ∀ a b, b ∈ (g.node a).included ↔ a ∈ (g.node b).dependents

/-- The edges are the same, but that the module includes another one at the end. -/
def Appends (g g' : Graph) (a x : ModuleId) : Prop :=
  ∀ b, (g'.node b).included = if b = a then (g.node b).included ++ [x] else (g.node b).included

theorem Trail.append (h : Trail g ms w v) (h' : Trail g ms' v w') : Trail g (ms ++ ms') w w' := by
  induction h with
  | done w => exact h'
  | skip hm _ ih => exact .skip hm (ih h')
  | down hm h₁ _ _ ih₂ => exact .down hm h₁ (ih₂ h')

/-- A walk that has entered the includer before, or comes to the new edge only after an old one, goes
on as it did. -/
theorem Trail.appends (h : Trail g ms w w') (hg : Appends g g' a x)
    (hx : x ∈ (g.node a).included ∨ a ∈ w.entered) : Trail g' ms w w' := by
  induction h with
  | done w => exact .done w
  | skip hm _ ih => exact .skip hm (ih hx)
  | @down m rest w v w' hm h₁ h₂ ih₁ ih₂ =>
    have hwv : m :: w.entered ⊆ v.entered := h₁.entered_subset
    have hbelow := ih₁ (hx.imp_right (List.mem_cons_of_mem _))
    refine .down hm ?_ (ih₂ (hx.imp_right fun ha => hwv (List.mem_cons_of_mem _ ha)))
    rw [hg m]
    split
    · rename_i hma
      subst hma
      have hentered : x ∈ v.entered := h₁.entered_of_mem x (hx.resolve_right hm)
      exact hbelow.append (.skip hentered (.done v))
    · exact hbelow

theorem linearize_again (hg : Appends g g' a x) (hx : x ∈ (g.node a).included) (t : ModuleId) :
    g'.linearize t = g.linearize t := by
  obtain ⟨w, hw, he⟩ := g.trail_linearize t
  obtain ⟨w', hw', he'⟩ := g'.trail_linearize t
  rw [he, he', hw'.unique (hw.appends hg (.inl hx))]

theorem linearize_shortcut (hg : Appends g g' a x) (hx : g.Reaches a x) :
    g'.linearize a = g.linearize a := by
  obtain ⟨w, hw, he⟩ := g.trail_linearize a
  obtain ⟨w', hw', he'⟩ := g'.trail_linearize a
  have hentered : x ∈ w.entered := by
    have hmem := mem_linearize.2 hx
    rw [he, List.mem_reverse, hw.mem_left] at hmem
    exact (hmem.resolve_left List.not_mem_nil).1
  have hagain : Trail g' [a] {} w := by
    cases hw with
    | skip ha _ => exact absurd ha List.not_mem_nil
    | @down _ _ _ v _ ha h₁ h₂ =>
      cases h₂
      refine .down ha ?_ (.done _)
      rw [hg a, if_pos rfl]
      exact (h₁.appends hg (.inr List.mem_cons_self)).append (.skip hentered (.done v))
  rw [he, he', hw'.unique hagain]

section AddEdge

theorem included_addEdge_eq (g : Graph) (a x b : ModuleId) :
    ((g.addEdge a x).node b).included = ((g.update a (Node.addIncluded x)).node b).included :=
  update_rel (R := fun n n' => n'.included = n.included) (fun _ => rfl) fun _ => rfl

theorem hidden_addEdge_eq (g : Graph) (a x b : ModuleId) :
    ((g.addEdge a x).node b).hidden = (g.node b).hidden := by
  have hin : ((g.update a (Node.addIncluded x)).node b).hidden = (g.node b).hidden :=
    update_rel (R := fun n n' => n'.hidden = n.hidden) (fun _ => rfl) fun _ => rfl
  rw [← hin]
  exact update_rel (R := fun n n' => n'.hidden = n.hidden) (fun _ => rfl) fun _ => rfl

theorem appends_addEdge (ha : a.index < g.nodes.size) : Appends g (g.addEdge a x) a x := by
  intro b
  rw [included_addEdge_eq, node_update _ ha]
  split <;> rfl

theorem linearize_addEdge_of_reaches (h : g.Reaches a x) :
    (g.addEdge a x).linearize a = g.linearize a := by
  by_cases ha : a.index < g.nodes.size
  · exact linearize_shortcut (appends_addEdge ha) h
  · -- Outside the arena the edge is not stored.
    have hle : g.nodes.size ≤ a.index := Nat.le_of_not_lt ha
    refine linearize_congr fun b _ => ?_
    rw [included_addEdge_eq]
    by_cases hb : a = b
    · subst hb
      rw [node_of_size_le g hle, node_of_size_le _ (by rwa [size_update])]
    · rw [node_update_of_ne g _ hb]

theorem ancestors_addEdge {t : ModuleId} (h : (g.addEdge a x).linearize t = g.linearize t) :
    (g.addEdge a x).ancestors t = g.ancestors t := by
  rw [ancestors_eq_filter, ancestors_eq_filter, h]
  exact List.filter_congr fun b _ => by rw [hidden_addEdge_eq]

theorem node_addEdge_again (h : a ∈ (g.node x).dependents) (b : ModuleId) :
    (g.addEdge a x).node b = (g.update a (Node.addIncluded x)).node b := by
  have hx : x.index < g.nodes.size := by
    by_contra hx
    rw [node_of_size_le g (Nat.le_of_not_lt hx)] at h
    exact List.not_mem_nil h
  have hback : a ∈ ((g.update a (Node.addIncluded x)).node x).dependents :=
    update_rel (R := fun n n' => a ∈ n.dependents → a ∈ n'.dependents) (fun _ h => h) (fun _ h => h) h
  rw [addEdge, node_bump, node_update _ (by rwa [size_update])]
  split
  · rename_i hb
    subst hb
    rw [Node.addDependent, if_pos hback]
  · rfl

end AddEdge

/-! A module that is included already is included once more. -/
section Again

variable (hg : g.Symmetric) (hx : x ∈ (g.node a).included)
include hg hx

theorem node_again (b : ModuleId) : (g.addEdge a x).node b =
    if b = a then (g.node b).addIncluded x else g.node b := by
  have ha : a.index < g.nodes.size := by
    by_contra ha
    rw [node_of_size_le g (Nat.le_of_not_lt ha)] at hx
    exact List.not_mem_nil hx
  rw [node_addEdge_again ((hg a x).1 hx), node_update _ ha]

theorem linearize_addEdge_again (t : ModuleId) : (g.addEdge a x).linearize t = g.linearize t := by
  refine linearize_again (a := a) (x := x) (fun b => ?_) hx t
  rw [node_again hg hx]
  split <;> rfl

theorem ancestors_addEdge_again (t : ModuleId) : (g.addEdge a x).ancestors t = g.ancestors t :=
  ancestors_addEdge (linearize_addEdge_again hg hx t)

theorem includes_addEdge_again (t y : ModuleId) :
    (g.addEdge a x).includes t y = g.includes t y := by
  rw [Bool.eq_iff_iff, includes_iff, includes_iff, ← mem_linearize, ← mem_linearize,
    linearize_addEdge_again hg hx]

theorem methods_addEdge_again (b : ModuleId) :
    ((g.addEdge a x).node b).methods = (g.node b).methods := by
  rw [node_again hg hx]
  split <;> rfl

theorem target_addEdge_again (b : ModuleId) :
    ((g.addEdge a x).node b).target = (g.node b).target := by
  rw [node_again hg hx]
  split <;> rfl

theorem chain_addEdge_again (t : ModuleId) (n : Symbol) :
    (g.addEdge a x).chain t n = g.chain t n := by
  rw [chain, chain, ancestors_addEdge_again hg hx]
  exact List.filterMap_congr fun b _ => by rw [methods_addEdge_again hg hx]

theorem affected_addEdge_again (t : ModuleId) : (g.addEdge a x).affected t = g.affected t := by
  have hnext : (fun b => ((g.addEdge a x).node b).dependents) = fun b => (g.node b).dependents := by
    funext b
    rw [node_again hg hx]
    split <;> rfl
  have hsize : (g.addEdge a x).nodes.size = g.nodes.size := by simp [addEdge, bump]
  rw [affected, affected, hnext, reached, reached, explorationBudget, explorationBudget, hsize]

theorem definition?_addEdge_again (t : ModuleId) (n : Symbol) :
    (g.addEdge a x).definition? t n = g.definition? t n := by
  rw [definition?, definition?, linearize_addEdge_again hg hx]
  simp only [methods_addEdge_again hg hx]

end Again

end Graph

end Mixin
