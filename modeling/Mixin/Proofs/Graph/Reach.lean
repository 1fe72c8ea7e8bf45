import Mathlib.Algebra.BigOperators.Group.Finset.Basic
import Mathlib.Logic.Relation
import Mixin.Graph.Reach

/-! The queue walk and the search find exactly what can be reached. Both come to an end, because every
module of the arena puts its edges into the queue or onto the stack at most once: `Exploration` and
`Search` say how they go on without a budget. What has been met then leads to nothing new, so it holds
everything that the edges lead to. -/

namespace Mixin

open Relation

namespace Graph

/-- The modules that have a place in the arena. -/
def arena (g : Graph) : Finset ModuleId := ((List.range g.nodes.size).map ModuleId.mk).toFinset

theorem mem_arena {g : Graph} {m : ModuleId} : m ∈ g.arena ↔ m.index < g.nodes.size := by
  simp only [arena, List.mem_toFinset, List.mem_map, List.mem_range]
  exact ⟨fun ⟨_, hi, he⟩ => he ▸ hi, fun h => ⟨m.index, h, rfl⟩⟩

theorem node_of_not_mem_arena {g : Graph} {m : ModuleId} (h : m ∉ g.arena) : g.node m = {} :=
  g.node_of_size_le (Nat.le_of_not_lt fun hlt => h (mem_arena.2 hlt))

/-- `b` is `a` or part of what `a` is composed of, over any number of edges. -/
def Reaches (g : Graph) : ModuleId → ModuleId → Prop :=
  ReflTransGen fun a b => b ∈ (g.node a).included

section Explore

variable {next : ModuleId → List ModuleId}

/-- The edges that the modules of an arena have not put into the queue yet. -/
def unqueued (next : ModuleId → List ModuleId) (arena : Finset ModuleId) (met : List ModuleId) : ℕ :=
  ∑ a ∈ arena \ met.toFinset, (next a).length

theorem unqueued_cons {arena : Finset ModuleId} {met : List ModuleId} {m : ModuleId}
    (hm : m ∉ met) (hout : ∀ a ∉ arena, next a = []) :
    (next m).length + unqueued next arena (m :: met) = unqueued next arena met := by
  have herase : arena \ (m :: met).toFinset = (arena \ met.toFinset).erase m := by
    ext a
    simp only [List.toFinset_cons, Finset.mem_sdiff, Finset.mem_insert, Finset.mem_erase, not_or]
    tauto
  unfold unqueued
  rw [herase]
  by_cases ha : m ∈ arena
  · exact Finset.add_sum_erase _ (fun a => (next a).length) (by simp [ha, hm])
  · rw [Finset.erase_eq_of_notMem (by simp [ha]), hout m ha, List.length_nil, Nat.zero_add]

/-- How an exploration goes on with a queue, and what it has met in the end. -/
inductive Exploration (next : ModuleId → List ModuleId) :
    (queue met out : List ModuleId) → Prop where
  | done (met : List ModuleId) : Exploration next [] met met
  | skip {m : ModuleId} {queue met out : List ModuleId} :
      m ∈ met → Exploration next queue met out → Exploration next (m :: queue) met out
  | meet {m : ModuleId} {queue met out : List ModuleId} :
      m ∉ met → Exploration next (queue ++ next m) (m :: met) out →
        Exploration next (m :: queue) met out

namespace Exploration

variable {queue met out : List ModuleId}

theorem met_suffix (h : Exploration next queue met out) : met <:+ out := by
  induction h with
  | done met => exact List.suffix_refl _
  | skip _ _ ih => exact ih
  | meet _ _ ih => exact (List.suffix_cons _ _).trans ih

theorem nodup (h : Exploration next queue met out) (hmet : met.Nodup) : out.Nodup := by
  induction h with
  | done met => exact hmet
  | skip _ _ ih => exact ih hmet
  | meet hm _ ih => exact ih (List.nodup_cons.2 ⟨hm, hmet⟩)

theorem sound (h : Exploration next queue met out) {x : ModuleId} (hx : x ∈ out) :
    x ∈ met ∨ ∃ q ∈ queue, ReflTransGen (fun a b => b ∈ next a) q x := by
  induction h with
  | done met => exact Or.inl hx
  | skip _ _ ih =>
    rcases ih hx with h | ⟨q, hq, hr⟩
    · exact Or.inl h
    · exact Or.inr ⟨q, List.mem_cons_of_mem _ hq, hr⟩
  | @meet m queue met out _ _ ih =>
    rcases ih hx with h | ⟨q, hq, hr⟩
    · rcases List.mem_cons.1 h with rfl | h
      · exact Or.inr ⟨x, List.mem_cons_self, .refl⟩
      · exact Or.inl h
    · rcases List.mem_append.1 hq with hq | hq
      · exact Or.inr ⟨q, List.mem_cons_of_mem _ hq, hr⟩
      · exact Or.inr ⟨m, List.mem_cons_self, .head hq hr⟩

theorem queue_subset (h : Exploration next queue met out) : queue ⊆ out := by
  induction h with
  | done met => exact List.nil_subset _
  | skip hm h ih => exact List.cons_subset.2 ⟨h.met_suffix.subset hm, ih⟩
  | meet _ h ih =>
    exact List.cons_subset.2 ⟨h.met_suffix.subset List.mem_cons_self,
      List.Subset.trans (List.subset_append_left _ _) ih⟩

theorem closed (h : Exploration next queue met out)
    (hmet : ∀ a ∈ met, ∀ b ∈ next a, b ∈ met ∨ b ∈ queue) :
    ∀ a ∈ out, ∀ b ∈ next a, b ∈ out := by
  induction h with
  | done met => exact fun a ha b hb => (hmet a ha b hb).resolve_right List.not_mem_nil
  | skip hm _ ih =>
    refine ih fun a ha b hb => ?_
    rcases hmet a ha b hb with h | h
    · exact Or.inl h
    · rcases List.mem_cons.1 h with rfl | h
      · exact Or.inl hm
      · exact Or.inr h
  | meet _ _ ih =>
    refine ih fun a ha b hb => ?_
    rcases List.mem_cons.1 ha with rfl | ha
    · exact Or.inr (List.mem_append_right _ hb)
    · rcases hmet a ha b hb with h | h
      · exact Or.inl (List.mem_cons_of_mem _ h)
      · rcases List.mem_cons.1 h with rfl | h
        · exact Or.inl List.mem_cons_self
        · exact Or.inr (List.mem_append_left _ h)

end Exploration

/-- A budget for every edge still to come is never used up. -/
theorem exploration_explore {arena : Finset ModuleId} (hout : ∀ a ∉ arena, next a = [])
    (budget : ℕ) (queue met : List ModuleId)
    (hbudget : queue.length + unqueued next arena met < budget) :
    Exploration next queue met (explore next budget queue met) := by
  induction budget generalizing queue met with
  | zero => omega
  | succ budget ih =>
    cases queue with
    | nil => exact .done met
    | cons m queue =>
      rw [List.length_cons] at hbudget
      unfold explore
      split
      · rename_i hm
        exact .skip hm (ih queue met (by omega))
      · rename_i hm
        have hsum := unqueued_cons hm hout
        exact .meet hm (ih _ _ (by rw [List.length_append]; omega))

variable {g : Graph} {m x : ModuleId}

theorem unqueued_nil (g : Graph) (next : ModuleId → List ModuleId) :
    unqueued next g.arena [] + 2 = g.explorationBudget next := by
  have hnodup : ((List.range g.nodes.size).map ModuleId.mk).Nodup :=
    List.Nodup.map (fun a b h => congrArg ModuleId.index h) List.nodup_range
  simp only [unqueued, List.toFinset_nil, Finset.sdiff_empty, arena, explorationBudget,
    List.length_flatMap, List.sum_toFinset _ hnodup, List.map_map, Function.comp_def]

section Reached

variable (hout : ∀ a ∉ g.arena, next a = [])
include hout

theorem exploration_reached (m : ModuleId) :
    ∃ out, Exploration next [m] [] out ∧ g.reached next m = out.reverse := by
  refine ⟨_, exploration_explore hout (g.explorationBudget next) [m] [] ?_, rfl⟩
  rw [← g.unqueued_nil next, List.length_singleton]
  omega

/-- The queue walk finds what the edges lead to, and nothing else. -/
theorem mem_reached : x ∈ g.reached next m ↔ ReflTransGen (fun a b => b ∈ next a) m x := by
  obtain ⟨out, hrun, he⟩ := exploration_reached hout m
  rw [he, List.mem_reverse]
  constructor
  · intro hx
    rcases hrun.sound hx with h | ⟨q, hm, hr⟩
    · exact absurd h List.not_mem_nil
    · exact List.mem_singleton.1 hm ▸ hr
  · intro h
    induction h with
    | refl => exact hrun.queue_subset List.mem_cons_self
    | tail _ hb ih =>
      exact hrun.closed (fun a ha => absurd ha List.not_mem_nil) _ ih _ hb

theorem reached_nodup (m : ModuleId) : (g.reached next m).Nodup := by
  obtain ⟨out, hrun, he⟩ := exploration_reached hout m
  rw [he, List.nodup_reverse]
  exact hrun.nodup List.nodup_nil

theorem reached_eq_cons (m : ModuleId) : ∃ rest, g.reached next m = m :: rest := by
  obtain ⟨out, hrun, he⟩ := exploration_reached hout m
  cases hrun with
  | skip hm _ => exact absurd hm List.not_mem_nil
  | meet _ h =>
    obtain ⟨front, rfl⟩ := h.met_suffix
    exact ⟨front.reverse, by rw [he, List.reverse_append]; rfl⟩

end Reached

end Explore

/-- How a search goes on with a stack, and what it answers. -/
inductive Search (g : Graph) (other : ModuleId) : (stack met : List ModuleId) → Bool → Prop where
  | found (stack met : List ModuleId) : Search g other (other :: stack) met true
  | exhausted (met : List ModuleId) : Search g other [] met false
  | skip {m : ModuleId} {stack met : List ModuleId} {r : Bool} :
      m ≠ other → m ∈ met → Search g other stack met r → Search g other (m :: stack) met r
  | down {m : ModuleId} {stack met : List ModuleId} {r : Bool} :
      m ≠ other → m ∉ met →
        Search g other ((g.node m).included.reverse ++ stack) (m :: met) r →
          Search g other (m :: stack) met r

section Search

variable {g : Graph} {other : ModuleId} {stack met : List ModuleId}

/-- What has been met leads on to `other` only through the stack. -/
theorem exists_stack_of_met (hother : other ∉ met)
    (hmet : ∀ a ∈ met, ∀ b ∈ (g.node a).included, b ∈ met ∨ b ∈ stack) {a : ModuleId}
    (h : g.Reaches a other) (ha : a ∈ met) : ∃ q ∈ stack, g.Reaches q other := by
  induction h using ReflTransGen.head_induction_on with
  | refl => exact absurd ha hother
  | head hb hr ih =>
    rcases hmet _ ha _ hb with h | h
    · exact ih h
    · exact ⟨_, h, hr⟩

/-- A search finds what the modules on its stack lead to. -/
theorem Search.eq_true_iff {r : Bool} (h : Search g other stack met r) (hother : other ∉ met)
    (hmet : ∀ a ∈ met, ∀ b ∈ (g.node a).included, b ∈ met ∨ b ∈ stack) :
    r = true ↔ ∃ q ∈ stack, g.Reaches q other := by
  induction h with
  | found stack met => exact ⟨fun _ => ⟨other, List.mem_cons_self, .refl⟩, fun _ => rfl⟩
  | exhausted met => simp
  | @skip m stack met r hne hm _ ih =>
    have hmet' : ∀ a ∈ met, ∀ b ∈ (g.node a).included, b ∈ met ∨ b ∈ stack := by
      intro a ha b hb
      rcases hmet a ha b hb with h | h
      · exact Or.inl h
      · rcases List.mem_cons.1 h with rfl | h
        · exact Or.inl hm
        · exact Or.inr h
    rw [ih hother hmet']
    constructor
    · rintro ⟨q, hq, hr⟩
      exact ⟨q, List.mem_cons_of_mem _ hq, hr⟩
    · rintro ⟨q, hq, hr⟩
      rcases List.mem_cons.1 hq with rfl | hq
      · exact exists_stack_of_met hother hmet' hr hm
      · exact ⟨q, hq, hr⟩
  | @down m stack met r hne hm _ ih =>
    rw [ih (by simp [Ne.symm hne, hother]) ?_]
    · simp only [List.mem_append, List.mem_reverse]
      constructor
      · rintro ⟨q, hq | hq, hr⟩
        · exact ⟨m, List.mem_cons_self, .head hq hr⟩
        · exact ⟨q, List.mem_cons_of_mem _ hq, hr⟩
      · rintro ⟨q, hq, hr⟩
        rcases List.mem_cons.1 hq with rfl | hq
        · rcases ReflTransGen.cases_head hr with rfl | ⟨b, hb, hr⟩
          · exact absurd rfl hne
          · exact ⟨b, Or.inl hb, hr⟩
        · exact ⟨q, Or.inr hq, hr⟩
    · intro a ha b hb
      simp only [List.mem_cons, List.mem_append, List.mem_reverse] at ha ⊢
      rcases ha with rfl | ha
      · exact Or.inr (Or.inl hb)
      · rcases hmet a ha b hb with h | h
        · exact Or.inl (Or.inr h)
        · rcases List.mem_cons.1 h with rfl | h
          · exact Or.inl (Or.inl rfl)
          · exact Or.inr (Or.inr h)

theorem search_search (budget : ℕ) (stack met : List ModuleId)
    (hbudget : stack.length + unqueued (fun a => (g.node a).included) g.arena met < budget) :
    Search g other stack met (g.search other budget stack met) := by
  induction budget generalizing stack met with
  | zero => omega
  | succ budget ih =>
    cases stack with
    | nil => exact .exhausted met
    | cons m stack =>
      rw [List.length_cons] at hbudget
      unfold search
      split_ifs with hother hm
      · exact hother ▸ .found stack met
      · exact .skip hother hm (ih stack met (by omega))
      · have hout : ∀ a ∉ g.arena, (g.node a).included = [] := fun a ha => by
          rw [node_of_not_mem_arena ha]
        have hsum := unqueued_cons hm hout
        refine .down hother hm (ih _ _ ?_)
        rw [List.length_append, List.length_reverse]
        omega

theorem search_includes (g : Graph) (a b : ModuleId) : Search g b [a] [] (g.includes a b) := by
  refine search_search _ _ _ ?_
  rw [← g.unqueued_nil, List.length_singleton]
  omega

theorem includes_iff {a b : ModuleId} : g.includes a b = true ↔ g.Reaches a b := by
  rw [(search_includes g a b).eq_true_iff List.not_mem_nil fun x hx => absurd hx List.not_mem_nil]
  simp

instance (a b : ModuleId) : Decidable (g.Reaches a b) := decidable_of_iff _ includes_iff

end Search

end Graph

end Mixin
