import Mixin.Proofs.Graph.Merge

/-! What a module includes is left before the module itself, unless it leads back. While a walk is
below a module, that module has been entered and not left, and it reaches all that the walk takes up.
So a module that does not reach `a` is never in that state when the walk comes from `a` to it: it has
been left, or it is entered now and left before `a`. -/

namespace Mixin

open Relation

namespace Graph

variable {g : Graph} {root a b : ModuleId}

/-- What has been entered and not left reaches all that the walk takes up. -/
def OpenReaches (g : Graph) (w : Walk) (ms : List ModuleId) : Prop :=
  ∀ x ∈ w.entered, x ∉ w.left → ∀ m ∈ ms, g.Reaches x m

namespace Trail

variable {m : ModuleId} {rest ms : List ModuleId} {w v w' : Walk}

theorem open_down (h : OpenReaches g w (m :: rest)) :
    OpenReaches g (w.enter m) (g.node m).included := by
  intro x hx hleft c hc
  rcases List.mem_cons.1 hx with rfl | hx
  · exact .single hc
  · exact (h x hx hleft m List.mem_cons_self).tail hc

theorem open_rest (h₁ : Trail g (g.node m).included (w.enter m) v)
    (h : OpenReaches g w (m :: rest)) : OpenReaches g (v.leave m) rest := by
  intro x hx hleft c hc
  obtain ⟨hne, hnew⟩ := not_or.1 (mt List.mem_cons.2 hleft)
  have hold := mt h₁.mem_left.2 hnew
  have hxw : x ∈ m :: w.entered := by
    by_contra hxw
    exact hold (Or.inr ⟨hx, hxw⟩)
  have hxm := (List.mem_cons.1 hxw).resolve_left hne
  exact h x hxm (fun hl => hold (Or.inl hl)) c (List.mem_cons_of_mem _ hc)

/-- When a walk leaves a module, what the module includes has been left, but for what leads back. -/
theorem left_of_included (h₁ : Trail g (g.node a).included (w.enter a) v)
    (h : OpenReaches g w (a :: rest)) (hb : b ∈ (g.node a).included) (hback : ¬ g.Reaches b a) :
    b ∈ v.left := by
  have hentered : b ∈ v.entered := h₁.entered_of_mem b hb
  rw [h₁.mem_left]
  by_cases hbw : b ∈ a :: w.entered
  · rcases List.mem_cons.1 hbw with rfl | hbw
    · exact absurd .refl hback
    · refine Or.inl ?_
      by_contra hleft
      exact hback (h b hbw hleft a List.mem_cons_self)
  · exact Or.inr ⟨hentered, hbw⟩

theorem left_sublist (h : Trail g ms w w') (hopen : OpenReaches g w ms)
    (hb : b ∈ (g.node a).included) (hback : ¬ g.Reaches b a) (ha : a ∈ w'.entered)
    (hnew : a ∉ w.entered) : [a, b].Sublist w'.left := by
  induction h with
  | done w => exact absurd ha hnew
  | skip _ _ ih => exact ih (fun x hx hl c hc => hopen x hx hl c (List.mem_cons_of_mem _ hc)) ha hnew
  | @down m rest w v w' _ h₁ h₂ ih₁ ih₂ =>
    obtain ⟨new, hleft, -⟩ := h₂.exists_left
    have hv : (v.leave m).left.Sublist w'.left := hleft ▸ List.sublist_append_right _ _
    by_cases hav : a ∈ v.entered
    · refine List.Sublist.trans ?_ hv
      by_cases ham : a = m
      · subst ham
        have hbv := h₁.left_of_included hopen hb hback
        exact (List.singleton_sublist.2 hbv).cons_cons a
      · have ham' : a ∉ (w.enter m).entered := fun h => (List.mem_cons.1 h).elim ham hnew
        exact (ih₁ (open_down hopen) hav ham').cons m
    · exact ih₂ (h₁.open_rest hopen) ha hav

end Trail

/-- In an ancestry what a module includes comes before the module. -/
theorem sublist_linearize (ha : g.Reaches root a) (hb : b ∈ (g.node a).included)
    (hback : ¬ g.Reaches b a) : [b, a].Sublist (g.linearize root) := by
  obtain ⟨w, hw, he⟩ := g.trail_linearize root
  have hopen : OpenReaches g {} [root] := fun x hx => absurd hx List.not_mem_nil
  have hentered : a ∈ w.entered := by
    have hmem := mem_linearize.2 ha
    rw [he, List.mem_reverse, hw.mem_left] at hmem
    exact (hmem.resolve_left List.not_mem_nil).1
  rw [he]
  exact (hw.left_sublist hopen hb hback hentered List.not_mem_nil).reverse

theorem split_of_sublist {α : Type} {x y : α} {l : List α} (h : [x, y].Sublist l) :
    ∃ above mid below, l = above ++ x :: (mid ++ y :: below) := by
  obtain ⟨front, back, rfl, hx, hy⟩ := List.cons_sublist_iff.1 h
  obtain ⟨above, mid, rfl⟩ := List.append_of_mem hx
  obtain ⟨mid', below, rfl⟩ := List.append_of_mem (List.singleton_sublist.1 hy)
  exact ⟨above, mid ++ mid', below, by simp⟩

/-- A module stands once in an ancestry, behind what it includes, unless that leads back to it. The
ancestry that is reported is the same without the hidden modules, so there, too, the order holds, and
in a chain the module's implementation comes after that of what it includes. -/
theorem linearize_shadows (ha : g.Reaches root a) (hb : b ∈ (g.node a).included)
    (hback : ¬ g.Reaches b a) :
    (g.linearize root).Nodup ∧
    (∃ above mid below, g.linearize root = above ++ b :: (mid ++ a :: below)) ∧
    g.ancestors root = (g.linearize root).filter (fun x => !(g.node x).hidden) ∧
    ((g.node b).hidden = false → (g.node a).hidden = false →
      ∃ above mid below, g.ancestors root = above ++ b :: (mid ++ a :: below) ∧
        ∀ (n : Symbol) (x y : Method),
          (g.node b).methods[n]? = some x → (g.node a).methods[n]? = some y →
            let defined (ms : List ModuleId) := ms.filterMap fun c => (g.node c).methods[n]?
            g.chain root n = defined above ++ x :: (defined mid ++ y :: defined below)) := by
  have horder := sublist_linearize ha hb hback
  refine ⟨g.linearize_nodup root, split_of_sublist horder, g.ancestors_eq_filter root, ?_⟩
  intro hhb hha
  have hvisible : [b, a].Sublist (g.ancestors root) := by
    have hfilter := horder.filter fun x => !(g.node x).hidden
    rw [← g.ancestors_eq_filter] at hfilter
    simpa [hhb, hha] using hfilter
  obtain ⟨above, mid, below, hsplit⟩ := split_of_sublist hvisible
  refine ⟨above, mid, below, hsplit, fun n x y hx hy => ?_⟩
  simp only [chain, hsplit, List.filterMap_append, List.filterMap_cons, hx, hy]

/-- Two modules that include each other; the second, and the one that it includes twice and that
includes itself, define the same name. -/
def knot : Graph :=
  let own (i : Nat) : MethodTable := (∅ : MethodTable).insert .inspect (.program i false)
  { nodes := #[{ included := [⟨1⟩] }, { included := [⟨0⟩, ⟨2⟩, ⟨2⟩], methods := own 1 },
      { included := [⟨2⟩], methods := own 2 }] }

theorem linearize_shadows_knot :
    knot.Reaches ⟨0⟩ ⟨1⟩ ∧ ¬ knot.Reaches ⟨2⟩ ⟨1⟩ ∧
    (∃ above mid below, knot.linearize ⟨0⟩ = above ++ ⟨2⟩ :: (mid ++ ⟨1⟩ :: below)) ∧
    knot.linearize ⟨0⟩ = [⟨2⟩, ⟨1⟩, ⟨0⟩] ∧
    knot.chain ⟨0⟩ .inspect = [.program 2 false, .program 1 false] := by
  have ha : knot.Reaches ⟨0⟩ ⟨1⟩ := by decide +kernel
  have hback : ¬ knot.Reaches ⟨2⟩ ⟨1⟩ := by decide +kernel
  have hb : (⟨2⟩ : ModuleId) ∈ (knot.node ⟨1⟩).included := by decide +kernel
  obtain ⟨-, horder, -, -⟩ := linearize_shadows ha hb hback
  refine ⟨ha, hback, horder, ?_, ?_⟩
  · decide +kernel
  · decide +kernel

end Graph

end Mixin
