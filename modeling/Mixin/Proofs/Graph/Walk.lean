import Mathlib.Data.Finset.Card
import Mixin.Graph.Ancestry
import Mixin.Proofs.Graph.Reach

/-! The ancestry walk as a relation without a budget. `Trail` says how a walk goes on over a list of
modules; the walk of an ancestry is a trail, because it never goes deeper than there are modules it
has not entered. What an ancestry holds, in which order and on which part of the graph it depends is
read off the trail. -/

namespace Mixin

open Relation

namespace Graph

/-- How a walk goes on when it takes up some modules in turn. -/
inductive Trail (g : Graph) : List ModuleId → Walk → Walk → Prop where
  | done (w : Walk) : Trail g [] w w
  | skip {m : ModuleId} {rest : List ModuleId} {w w' : Walk} :
      m ∈ w.entered → Trail g rest w w' → Trail g (m :: rest) w w'
  | down {m : ModuleId} {rest : List ModuleId} {w v w' : Walk} :
      m ∉ w.entered → Trail g (g.node m).included (w.enter m) v → Trail g rest (v.leave m) w' →
        Trail g (m :: rest) w w'

namespace Trail

variable {g : Graph} {ms : List ModuleId} {w w' : Walk}

theorem unique {w'' : Walk} (h : Trail g ms w w') (h' : Trail g ms w w'') : w' = w'' := by
  induction h generalizing w'' with
  | done w => cases h'; rfl
  | skip hm _ ih =>
    cases h' with
    | skip _ h => exact ih h
    | down hn => exact absurd hm hn
  | down hm _ _ ih₁ ih₂ =>
    cases h' with
    | skip hn => exact absurd hn hm
    | down _ h₁ h₂ =>
      obtain rfl := ih₁ h₁
      exact ih₂ h₂

theorem entered_subset (h : Trail g ms w w') : w.entered ⊆ w'.entered := by
  induction h with
  | done w => exact List.Subset.refl _
  | skip _ _ ih => exact ih
  | down _ _ _ ih₁ ih₂ =>
    exact fun x hx => ih₂ (ih₁ (List.mem_cons_of_mem _ hx))

theorem entered_of_mem (h : Trail g ms w w') : ∀ m ∈ ms, m ∈ w'.entered := by
  induction h with
  | done w => exact fun m hm => absurd hm List.not_mem_nil
  | skip hm h ih =>
    intro m hm'
    rcases List.mem_cons.1 hm' with rfl | hm'
    · exact h.entered_subset hm
    · exact ih m hm'
  | down _ h₁ h₂ _ ih₂ =>
    intro m hm'
    rcases List.mem_cons.1 hm' with rfl | hm'
    · exact h₂.entered_subset (h₁.entered_subset List.mem_cons_self)
    · exact ih₂ m hm'

/-- What a walk has newly entered is reached from what it took up. -/
theorem entered_sound (h : Trail g ms w w') {x : ModuleId} (hx : x ∈ w'.entered) :
    x ∈ w.entered ∨ ∃ m ∈ ms, g.Reaches m x := by
  induction h with
  | done w => exact Or.inl hx
  | skip _ _ ih =>
    rcases ih hx with h | ⟨m, hm, hr⟩
    · exact Or.inl h
    · exact Or.inr ⟨m, List.mem_cons_of_mem _ hm, hr⟩
  | @down m rest w v w' _ _ _ ih₁ ih₂ =>
    rcases ih₂ hx with h | ⟨a, ha, hr⟩
    · rcases ih₁ h with h | ⟨a, ha, hr⟩
      · rcases List.mem_cons.1 h with rfl | h
        · exact Or.inr ⟨x, List.mem_cons_self, .refl⟩
        · exact Or.inl h
      · exact Or.inr ⟨m, List.mem_cons_self, .head ha hr⟩
    · exact Or.inr ⟨a, List.mem_cons_of_mem _ ha, hr⟩

theorem entered_closed (h : Trail g ms w w') {x y : ModuleId} (hx : x ∈ w'.entered)
    (hn : x ∉ w.entered) (hy : y ∈ (g.node x).included) : y ∈ w'.entered := by
  induction h with
  | done w => exact absurd hx hn
  | skip _ _ ih => exact ih hx hn
  | @down m rest w v w' _ h₁ h₂ ih₁ ih₂ =>
    by_cases hv : x ∈ v.entered
    · apply h₂.entered_subset
      by_cases hm : x = m
      · subst hm
        exact h₁.entered_of_mem y hy
      · exact ih₁ hv fun hc => (List.mem_cons.1 hc).elim hm hn
    · exact ih₂ hx hv

/-- A walk leaves what it newly enters, and nothing else. -/
theorem mem_left (h : Trail g ms w w') {x : ModuleId} :
    x ∈ w'.left ↔ x ∈ w.left ∨ x ∈ w'.entered ∧ x ∉ w.entered := by
  induction h with
  | done w => tauto
  | skip _ _ ih => exact ih
  | @down m rest w v w' hm h₁ h₂ ih₁ ih₂ =>
    have hmw : m ∈ w'.entered := h₂.entered_subset (h₁.entered_subset List.mem_cons_self)
    have hvw : x ∈ v.entered → x ∈ w'.entered := fun h => h₂.entered_subset h
    have hwv : x ∈ w.entered → x ∈ v.entered := fun h =>
      h₁.entered_subset (List.mem_cons_of_mem _ h)
    simp only [Walk.leave, Walk.enter, List.mem_cons] at ih₁ ih₂
    by_cases hxm : x = m
    · subst hxm
      simp [ih₂, hm, hmw]
    · grind

theorem left_nodup (h : Trail g ms w w') (hw : w.left.Nodup) (hsub : w.left ⊆ w.entered) :
    w'.left.Nodup := by
  induction h with
  | done w => exact hw
  | skip _ _ ih => exact ih hw hsub
  | @down m rest w v w' hm h₁ h₂ ih₁ ih₂ =>
    have hv : v.left.Nodup := ih₁ hw fun x hx => List.mem_cons_of_mem _ (hsub hx)
    have hsubv : v.left ⊆ v.entered := fun x hx => by
      rcases h₁.mem_left.1 hx with h | h
      · exact h₁.entered_subset (List.mem_cons_of_mem _ (hsub h))
      · exact h.1
    apply ih₂
    · refine List.nodup_cons.2 ⟨fun hx => ?_, hv⟩
      rcases h₁.mem_left.1 hx with h | h
      · exact hm (hsub h)
      · exact h.2 List.mem_cons_self
    · intro x hx
      rcases List.mem_cons.1 hx with rfl | hx
      · exact h₁.entered_subset List.mem_cons_self
      · exact hsubv hx

theorem congr {g' : Graph} (h : Trail g ms w w')
    (hg : ∀ m ∈ ms, ∀ x, g.Reaches m x → (g'.node x).included = (g.node x).included) :
    Trail g' ms w w' := by
  induction h with
  | done w => exact .done w
  | skip hm _ ih => exact .skip hm (ih fun a ha => hg a (List.mem_cons_of_mem _ ha))
  | @down m rest w v w' hm _ _ ih₁ ih₂ =>
    refine .down hm ?_ (ih₂ fun a ha => hg a (List.mem_cons_of_mem _ ha))
    rw [hg m List.mem_cons_self m .refl]
    exact ih₁ fun a ha x hx => hg m List.mem_cons_self x (.head ha hx)

end Trail

def unentered (g : Graph) (w : Walk) : Finset ModuleId := g.arena \ w.entered.toFinset

theorem unentered_card_mono {g : Graph} {w w' : Walk} (h : w.entered ⊆ w'.entered) :
    (g.unentered w').card ≤ (g.unentered w).card := by
  apply Finset.card_le_card
  exact Finset.sdiff_subset_sdiff (Finset.Subset.refl _) fun x hx =>
    List.mem_toFinset.2 (h (List.mem_toFinset.1 hx))

theorem unentered_card_enter {g : Graph} {w : Walk} {m : ModuleId} (hm : m ∉ w.entered)
    (ha : m ∈ g.arena) : (g.unentered (w.enter m)).card < (g.unentered w).card := by
  have hmem : m ∈ g.unentered w := by simp [unentered, ha, hm]
  have herase : g.unentered (w.enter m) = (g.unentered w).erase m := by
    ext x
    simp only [unentered, Walk.enter, List.toFinset_cons, Finset.mem_sdiff, Finset.mem_insert,
      Finset.mem_erase, not_or]
    tauto
  rw [herase]
  exact Finset.card_erase_lt_of_mem hmem

/-- Modules taken up one by one make a trail if each of them does, from wherever the walk has got. -/
theorem trail_foldl {g : Graph} {f : Walk → ModuleId → Walk} (ms : List ModuleId) (w : Walk)
    (hf : ∀ m ∈ ms, ∀ v : Walk, w.entered ⊆ v.entered → Trail g [m] v (f v m)) :
    Trail g ms w (ms.foldl f w) := by
  induction ms generalizing w with
  | nil => exact .done w
  | cons m ms ih =>
    have hm := hf m List.mem_cons_self w (List.Subset.refl _)
    have hrest := ih (f w m) fun a ha v hv =>
      hf a (List.mem_cons_of_mem _ ha) v (List.Subset.trans hm.entered_subset hv)
    rw [List.foldl_cons]
    generalize f w m = w₁ at hm hrest ⊢
    cases hm with
    | skip hs h => cases h; exact .skip hs hrest
    | down hn h₁ h₂ => cases h₂; exact .down hn h₁ hrest

/-- A budget above the number of modules still to enter is never used up. -/
theorem trail_visit {g : Graph} (budget : ℕ) (m : ModuleId) (w : Walk)
    (h : (g.unentered w).card < budget) : Trail g [m] w (g.visit true budget m w) := by
  induction budget generalizing m w with
  | zero => omega
  | succ budget ih =>
    unfold visit
    split
    · rename_i hm
      exact .skip hm (.done w)
    · rename_i hm
      dsimp only
      rw [Bool.true_or, if_pos rfl]
      refine .down hm (trail_foldl _ _ fun a ha v hv => ih a v ?_) (.done _)
      -- A module outside the arena includes nothing, so the walk goes down from the arena only.
      have harena : m ∈ g.arena := by
        by_contra hout
        rw [node_of_not_mem_arena hout] at ha
        exact List.not_mem_nil ha
      have hlt := unentered_card_enter hm harena
      have hle := unentered_card_mono (g := g) hv
      omega

theorem trail_linearize (g : Graph) (m : ModuleId) :
    ∃ w : Walk, Trail g [m] {} w ∧ g.linearize m = w.left.reverse := by
  refine ⟨_, trail_visit (g.nodes.size + 1) m {} ?_, rfl⟩
  have hcard : (g.unentered {}).card ≤ g.nodes.size := by
    refine (Finset.card_le_card Finset.sdiff_subset).trans ?_
    unfold arena
    exact (List.toFinset_card_le _).trans (by simp)
  omega

/-- The walk as it is when hidden modules are left without a note. -/
def visible (g : Graph) (w : Walk) : Walk :=
  { w with left := w.left.filter fun a => !(g.node a).hidden }

theorem visible_leave (g : Graph) (m : ModuleId) (w : Walk) : g.visible (w.leave m) =
    if !(g.node m).hidden then (g.visible w).leave m else g.visible w := by
  unfold visible Walk.leave
  rw [List.filter_cons]
  split <;> rfl

/-- Whether hidden modules are noted has no effect on where a walk goes. -/
theorem visit_visible (g : Graph) (budget : ℕ) (m : ModuleId) (w : Walk) :
    g.visit false budget m (g.visible w) = g.visible (g.visit true budget m w) := by
  induction budget generalizing m w with
  | zero => rfl
  | succ budget ih =>
    have hfold : ∀ v : Walk, (g.node m).included.foldl (fun w inc => g.visit false budget inc w)
        (g.visible v) =
          g.visible ((g.node m).included.foldl (fun w inc => g.visit true budget inc w) v) :=
      fun v => List.foldl_hom g.visible fun w inc => ih inc w
    unfold visit
    have hentered : m ∈ (g.visible w).entered ↔ m ∈ w.entered := Iff.rfl
    by_cases hm : m ∈ w.entered
    · rw [if_pos (hentered.2 hm), if_pos hm]
    · rw [if_neg (mt hentered.1 hm), if_neg hm]
      dsimp only
      rw [Bool.false_or, Bool.true_or, if_pos rfl, visible_leave, ← hfold]
      rfl

theorem ancestors_eq_filter (g : Graph) (m : ModuleId) :
    g.ancestors m = (g.linearize m).filter fun a => !(g.node a).hidden := by
  unfold ancestors linearize
  rw [List.filter_reverse]
  exact congrArg (fun w : Walk => w.left.reverse) (g.visit_visible (g.nodes.size + 1) m {})

/-- An ancestry holds what a module is composed of. -/
theorem mem_linearize {g : Graph} {m x : ModuleId} : x ∈ g.linearize m ↔ g.Reaches m x := by
  obtain ⟨w, hw, he⟩ := g.trail_linearize m
  rw [he, List.mem_reverse, hw.mem_left]
  constructor
  · rintro (h | h)
    · exact absurd h List.not_mem_nil
    · rcases hw.entered_sound h.1 with h' | ⟨a, ha, hr⟩
      · exact absurd h' h.2
      · exact List.mem_singleton.1 ha ▸ hr
  · intro hr
    refine Or.inr ⟨?_, List.not_mem_nil⟩
    induction hr with
    | refl => exact hw.entered_of_mem m (List.mem_singleton_self m)
    | tail _ hb ih => exact hw.entered_closed ih List.not_mem_nil hb

theorem linearize_nodup (g : Graph) (m : ModuleId) : (g.linearize m).Nodup := by
  obtain ⟨w, hw, he⟩ := g.trail_linearize m
  rw [he, List.nodup_reverse]
  exact hw.left_nodup List.nodup_nil (List.Subset.refl _)

theorem linearize_eq_concat (g : Graph) (m : ModuleId) : ∃ rest, g.linearize m = rest ++ [m] := by
  obtain ⟨w, hw, he⟩ := g.trail_linearize m
  cases hw with
  | skip hm _ => exact absurd hm List.not_mem_nil
  | @down _ _ _ v _ _ _ h =>
    cases h
    exact ⟨v.left.reverse, by rw [he, Walk.leave, List.reverse_cons]⟩

theorem linearize_congr {g g' : Graph} {m : ModuleId}
    (h : ∀ x, g.Reaches m x → (g'.node x).included = (g.node x).included) :
    g'.linearize m = g.linearize m := by
  obtain ⟨w, hw, he⟩ := g.trail_linearize m
  obtain ⟨w', hw', he'⟩ := g'.trail_linearize m
  have hc : Trail g' [m] {} w := hw.congr fun a ha x hx => h x (List.mem_singleton.1 ha ▸ hx)
  rw [he, he', hw'.unique hc]

end Graph

end Mixin
