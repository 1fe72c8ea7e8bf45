import Mathlib.Data.List.Basic
import Mathlib.Data.List.Induction

/-! Lists kept without repeats. Each element stays where it is seen first, so of two elements the one
that is seen earlier comes earlier. -/

namespace Mixin

variable {α : Type} [DecidableEq α] {l : List α} {x y : α}

/-- Where a list is ordered by a relation, positions say what is related. -/
theorem idxOf_lt_iff_of_pairwise {R : α → α → Prop} (h : l.Pairwise R)
    (hasymm : ∀ x y, R x y → ¬ R y x) (hx : x ∈ l) (hy : y ∈ l) :
    l.idxOf x < l.idxOf y ↔ R x y := by
  have hrel : ∀ {x y}, x ∈ l → y ∈ l → l.idxOf x < l.idxOf y → R x y := by
    intro x y hx hy hlt
    have hget := List.pairwise_iff_getElem.1 h _ _ (List.idxOf_lt_length_of_mem hx)
      (List.idxOf_lt_length_of_mem hy) hlt
    simpa using hget
  refine ⟨hrel hx hy, fun hxy => ?_⟩
  rcases Nat.lt_trichotomy (l.idxOf x) (l.idxOf y) with hlt | heq | hgt
  · exact hlt
  · obtain rfl := (List.idxOf_inj hx).1 heq
    exact absurd hxy (hasymm _ _ hxy)
  · exact absurd hxy (hasymm _ _ (hrel hy hx hgt))

theorem eraseDups_of_nodup (h : l.Nodup) : l.eraseDups = l := by
  induction l with
  | nil => rfl
  | cons a l ih =>
    obtain ⟨ha, hl⟩ := List.nodup_cons.1 h
    rw [List.eraseDups_cons, List.filter_eq_self.2 ?_, ih hl]
    intro b hb
    have hba : b ≠ a := fun he => ha (he ▸ hb)
    simpa using hba

theorem eraseDups_concat (xs : List α) (x : α) :
    (xs ++ [x]).eraseDups = if x ∈ xs then xs.eraseDups else xs.eraseDups ++ [x] := by
  rw [List.eraseDups_append]
  by_cases hx : x ∈ xs <;> simp [List.removeAll, hx, List.eraseDups_cons]

/-- What is left without repeats stands in the order in which it is seen first. -/
theorem pairwise_eraseDups (l : List α) :
    l.eraseDups.Pairwise fun x y => l.idxOf x < l.idxOf y := by
  induction l using List.reverseRecOn with
  | nil => simp
  | append_singleton xs x ih =>
    have hold : ∀ a ∈ xs.eraseDups, (xs ++ [x]).idxOf a = xs.idxOf a := by
      intro a ha
      exact List.idxOf_append_of_mem (List.mem_eraseDups.1 ha)
    have hkept : xs.eraseDups.Pairwise fun a b => (xs ++ [x]).idxOf a < (xs ++ [x]).idxOf b := by
      refine ih.imp_of_mem fun ha hb hab => ?_
      rw [hold _ ha, hold _ hb]
      exact hab
    rw [eraseDups_concat]
    split
    · exact hkept
    · rename_i hx
      refine List.pairwise_append.2 ⟨hkept, List.pairwise_singleton .., fun a ha b hb => ?_⟩
      rw [List.mem_singleton.1 hb, hold a ha, List.idxOf_append_of_notMem hx]
      have hlt := List.idxOf_lt_length_of_mem (List.mem_eraseDups.1 ha)
      omega

theorem nodup_eraseDups (l : List α) : l.eraseDups.Nodup :=
  (pairwise_eraseDups l).imp fun hlt heq => by simp [heq] at hlt

theorem idxOf_eraseDups_lt_iff (hx : x ∈ l) (hy : y ∈ l) :
    l.eraseDups.idxOf x < l.eraseDups.idxOf y ↔ l.idxOf x < l.idxOf y :=
  idxOf_lt_iff_of_pairwise (pairwise_eraseDups l) (fun _ _ h => by omega)
    (List.mem_eraseDups.2 hx) (List.mem_eraseDups.2 hy)

/-- Reversing a list without repeats turns positions round. -/
theorem idxOf_reverse_lt_iff (hl : l.Nodup) (hx : x ∈ l) (hy : y ∈ l) :
    l.reverse.idxOf x < l.reverse.idxOf y ↔ l.idxOf y < l.idxOf x := by
  have hforward : l.Pairwise fun a b => l.idxOf a < l.idxOf b := by
    have h := pairwise_eraseDups l
    rwa [eraseDups_of_nodup hl] at h
  exact idxOf_lt_iff_of_pairwise (R := fun a b => l.idxOf b < l.idxOf a)
    (List.pairwise_reverse.2 hforward) (fun _ _ h => by omega) (List.mem_reverse.2 hx)
    (List.mem_reverse.2 hy)

/-- The first of its kind is not preceded by itself. -/
theorem findIdx_eq_idxOf {p : α → Bool} (h : l.find? p = some x) : l.findIdx p = l.idxOf x := by
  induction l with
  | nil => cases h
  | cons a l ih =>
    rw [List.find?_cons] at h
    rw [List.findIdx_cons, List.idxOf_cons]
    cases ha : p a with
    | true =>
      rw [ha] at h
      obtain rfl := Option.some.inj h
      simp
    | false =>
      rw [ha] at h
      have hne : a ≠ x := by
        rintro rfl
        rw [List.find?_some h] at ha
        cases ha
      rw [ih h, beq_eq_false_iff_ne.2 hne, cond_false]

end Mixin
