import Mixin.Proofs.Graph.Rooted

/-! Hold on the kernel. Callers may go on using modules that have been removed and whose places have
been given away, so edges and pointers back need not match everywhere. Along the first edges of modules
that are in use they do: those are made together and lead through modules that are never removed. -/

namespace Mixin

open Relation

namespace Node

/-- The target is the same, and so are all edges but those to lost modules. -/
structure Retains (lost : ModuleId → Prop) (n n' : Node) : Prop where
  target : n'.target = n.target
  included : ∀ b ∈ n.included, ¬ lost b → b ∈ n'.included
  dependents : ∀ b ∈ n.dependents, ¬ lost b → b ∈ n'.dependents

variable {lost : ModuleId → Prop} {n n' n'' : Node}

theorem Retains.refl (n : Node) : Retains lost n n := ⟨rfl, fun _ hb _ => hb, fun _ hb _ => hb⟩

theorem Retains.trans (h : Retains lost n n') (h' : Retains lost n' n'') : Retains lost n n'' where
  target := h'.target.trans h.target
  included b hb hn := h'.included b (h.included b hb hn) hn
  dependents b hb hn := h'.dependents b (h.dependents b hb hn) hn

theorem retains_addIncluded (other : ModuleId) (n : Node) : Retains lost n (n.addIncluded other) :=
  ⟨rfl, fun _ hb _ => List.mem_append_left _ hb, fun _ hb _ => hb⟩

theorem retains_addDependent (owner : ModuleId) (n : Node) :
    Retains lost n (n.addDependent owner) := by
  refine ⟨rfl, fun _ hb _ => hb, fun b hb _ => ?_⟩
  unfold addDependent
  dsimp only
  split
  · exact hb
  · exact List.mem_append_left _ hb

theorem retains_dropIncluded {m : ModuleId} (hm : lost m) (n : Node) :
    Retains lost n (n.dropIncluded m) := by
  refine ⟨rfl, fun b hb hn => List.mem_filter.2 ⟨hb, ?_⟩, fun _ hb _ => hb⟩
  simpa using fun he : b = m => hn (he ▸ hm)

theorem retains_dropDependent {m : ModuleId} (hm : lost m) (n : Node) :
    Retains lost n (n.dropDependent m) := by
  refine ⟨rfl, fun _ hb _ => hb, fun b hb hn => List.mem_filter.2 ⟨hb, ?_⟩⟩
  simpa using fun he : b = m => hn (he ▸ hm)

end Node

namespace Graph

variable {lost : ModuleId → Prop} {g g' g'' : Graph} {m a b : ModuleId}

theorem update_rel {R : Node → Node → Prop} (hrefl : ∀ n, R n n) {f : Node → Node}
    (hf : ∀ n, R n (f n)) : R (g.node a) ((g.update m f).node a) := by
  by_cases ha : m = a
  · subst ha
    by_cases hm : m.index < g.nodes.size
    · rw [node_update_self g f hm]
      exact hf _
    · have hle := Nat.le_of_not_lt hm
      rw [node_of_size_le g hle, node_of_size_le _ (by simpa using hle)]
      exact hrefl _
  · rw [node_update_of_ne g f ha]
    exact hrefl _

theorem foldl_update_rel {R : Node → Node → Prop} (hrefl : ∀ n, R n n)
    (htrans : ∀ n n' n'', R n n' → R n' n'' → R n n'') {f : Node → Node} (hf : ∀ n, R n (f n))
    (ms : List ModuleId) : R (g.node a) ((ms.foldl (fun g b => g.update b f) g).node a) := by
  induction ms generalizing g with
  | nil => exact hrefl _
  | cons b ms ih => exact htrans _ _ _ (update_rel hrefl hf) ih

/-- Modules that are not lost are there and keep what they have of each other. -/
structure Retains (lost : ModuleId → Prop) (g g' : Graph) : Prop where
  live : ∀ a, ¬ lost a → g.Live a → g'.Live a
  node : ∀ a, ¬ lost a → Node.Retains lost (g.node a) (g'.node a)

namespace Retains

theorem refl (g : Graph) : Retains lost g g := ⟨fun _ _ h => h, fun _ _ => .refl _⟩

theorem trans (h : Retains lost g g') (h' : Retains lost g' g'') : Retains lost g g'' where
  live a ha hl := h'.live a ha (h.live a ha hl)
  node a ha := (h.node a ha).trans (h'.node a ha)

theorem bump (h : Retains lost g g') : Retains lost g g'.bump := ⟨h.live, h.node⟩

end Retains

theorem retains_update {f : Node → Node} (hf : ∀ n, Node.Retains lost n (f n)) :
    Retains lost g (g.update m f) where
  live _ _ h := (live_update f).2 h
  node _ _ := update_rel (fun n => Node.Retains.refl n) hf

theorem retains_setMethod (owner : ModuleId) (name : Symbol) (x : Method) :
    Retains lost g (g.setMethod owner name x) := by
  refine (retains_update fun n => ?_).bump
  exact ⟨rfl, fun _ hb _ => hb, fun _ hb _ => hb⟩

theorem retains_addEdge (owner other : ModuleId) : Retains lost g (g.addEdge owner other) :=
  ((retains_update fun n => n.retains_addIncluded other).trans
    (retains_update fun n => n.retains_addDependent owner)).bump

theorem retains_alloc (n : Node) : Retains (· = (g.alloc n).1) g (g.alloc n).2 := by
  unfold alloc
  split
  · rename_i m rest hfree
    refine ⟨fun a ha hl => ⟨?_, fun hr => hl.2 ?_⟩, fun a ha => ?_⟩
    · simpa [update] using hl.1
    · rw [hfree]
      exact List.mem_cons_of_mem _ hr
    · show Node.Retains _ (g.node a) ((g.update m fun _ => n).node a)
      rw [node_update_of_ne g _ (Ne.symm ha)]
      exact .refl _
  · rename_i hfree
    refine ⟨fun a _ hl => ⟨?_, hl.2⟩, fun a ha => ?_⟩
    · rw [Array.size_push]
      exact Nat.lt_succ_of_lt hl.1
    · have hne : a.index ≠ g.nodes.size := fun he => ha (by cases a; cases he; rfl)
      simp only [Graph.node, Array.getElem?_push, hne, if_false]
      exact .refl _

theorem remove_rel {R : Node → Node → Prop} (hrefl : ∀ n, R n n)
    (htrans : ∀ n n' n'', R n n' → R n' n'' → R n n'') (hi : ∀ n, R n (n.dropIncluded m))
    (hd : ∀ n, R n (n.dropDependent m)) (ha : a ≠ m) :
    R (g.node a) ((g.remove m).2.node a) := by
  have hblank : (g.update m fun _ => {}).node a = g.node a :=
    node_update_of_ne g _ (Ne.symm ha)
  rw [← hblank]
  exact htrans _ _ _ (foldl_update_rel hrefl htrans hd _) (foldl_update_rel hrefl htrans hi _)

theorem node_remove_self (hm : m.index < g.nodes.size) : (g.remove m).2.node m = {} := by
  have hfold : ∀ (f : Node → Node), f {} = {} → ∀ (ms : List ModuleId) (g : Graph),
      g.node m = {} → (ms.foldl (fun g b => g.update b f) g).node m = {} := by
    intro f hf ms
    induction ms with
    | nil => exact fun g hg => hg
    | cons b ms ih =>
      intro g hg
      refine ih _ ?_
      have hrel : g.node m = {} → (g.update b f).node m = {} :=
        update_rel (R := fun n n' => n = {} → n' = {}) (fun _ h => h) fun n hn => by rw [hn, hf]
      exact hrel hg
  have hblank : (g.update m fun _ => {}).node m = {} := node_update_self g _ hm
  exact hfold (Node.dropIncluded m) rfl _ _ (hfold (Node.dropDependent m) rfl _ _ hblank)

theorem retains_remove (m : ModuleId) : Retains (· = m) g (g.remove m).2 where
  live _ ha hl := live_remove.2 ⟨hl, ha⟩
  node _ ha := by
    refine remove_rel (fun n => Node.Retains.refl n) (fun _ _ _ h h' => h.trans h') ?_ ?_ ha
    · intro n
      apply Node.retains_dropIncluded
      rfl
    · intro n
      apply Node.retains_dropDependent
      rfl

/-- Edges and pointers back lead to the kernel, through modules that are never removed. -/
inductive Anchored (g : Graph) : ModuleId → Prop where
  | kernel : g.Live .kernel → Anchored g .kernel
  | step {a b : ModuleId} : g.Live a → b ∈ (g.node a).included → a ∈ (g.node b).dependents →
      ¬ g.Personal b → Anchored g b → Anchored g a

namespace Anchored

theorem live (h : g.Anchored a) : g.Live a := by
  cases h with
  | kernel h => exact h
  | step h => exact h

theorem reaches (h : g.Anchored a) : g.Reaches a .kernel := by
  induction h with
  | kernel => exact .refl
  | step _ hb _ _ _ ih => exact .head hb ih

theorem affected (h : g.Anchored a)
    (hm : ReflTransGen (fun a b => b ∈ (g.node a).dependents) m .kernel) :
    a ∈ g.affected m := by
  refine mem_affected_iff_dependents.2 ?_
  induction h with
  | kernel => exact hm
  | step _ _ hd _ _ ih => exact ih.tail hd

/-- Only what is no longer there, or can go with an object, is lost. -/
theorem retains (h : g.Anchored a) (hg : Retains lost g g')
    (hlost : ∀ b, lost b → ¬ g.Live b ∨ g.Personal b) (ha : ¬ lost a) : g'.Anchored a := by
  induction h with
  | kernel h => exact .kernel (hg.live _ ha h)
  | @step a b hlive hb hd hp h ih =>
    have hnot : ¬ lost b := fun hl => (hlost b hl).elim (fun hn => hn h.live) hp
    have hp' : ¬ g'.Personal b := by
      unfold Personal
      rw [(hg.node b hnot).target]
      exact hp
    exact .step (hg.live a ha hlive) ((hg.node a ha).included b hb hnot)
      ((hg.node b hnot).dependents a hd ha) hp' (ih hnot)

end Anchored

section Attach

variable (hg : g.Roomy) {n : Node} {p : ModuleId}
include hg

theorem anchored_attach (hp : g.Anchored p) (hpersonal : ¬ g.Personal p) :
    ((g.alloc n).2.addEdge (g.alloc n).1 p).Anchored (g.alloc n).1 := by
  have hfresh := g.alloc_fresh n
  have hne : p ≠ (g.alloc n).1 := fun he => hfresh (he ▸ hp.live)
  have hnew : (g.alloc n).2.Live (g.alloc n).1 := hg.live_alloc.2 (.inl rfl)
  have hlive : (g.alloc n).2.Live p := hg.live_alloc.2 (.inr hp.live)
  have hlost : ∀ b, b = (g.alloc n).1 → ¬ g.Live b ∨ g.Personal b := fun b hb =>
    .inl (hb ▸ hfresh)
  have hretains : Retains (· = (g.alloc n).1) g ((g.alloc n).2.addEdge (g.alloc n).1 p) :=
    (retains_alloc n).trans (retains_addEdge ..)
  refine .step (live_addEdge.2 hnew) ?_ ?_ ?_ (hp.retains hretains hlost hne)
  · rw [included_addEdge hnew hlive, if_pos rfl]
    exact List.mem_append_right _ (List.mem_singleton_self p)
  · exact (mem_dependents_addEdge hnew hlive).2 (.inr ⟨rfl, rfl⟩)
  · unfold Personal
    rw [(hretains.node p hne).target]
    exact hpersonal

end Attach

/-- The kernel goes on including the gate, and every module with a target has a hold on the kernel. -/
structure Moored (g : Graph) : Prop where
  roomy : g.Roomy
  live_gate : g.Live .gate
  target_gate : (g.node .gate).target = none
  live_kernel : g.Live .kernel
  target_kernel : (g.node .kernel).target = none
  gate_included : .gate ∈ (g.node .kernel).included
  kernel_dependent : .kernel ∈ (g.node .gate).dependents
  anchored : ∀ m t, (g.node m).target = some t → g.Anchored m

theorem not_personal_of_target (h : (g.node m).target = none) : ¬ g.Personal m := by
  rintro ⟨o, ho⟩
  rw [h] at ho
  cases ho

theorem Moored.affected (h : g.Moored) (ha : g.Anchored m) : m ∈ g.affected .gate :=
  ha.affected (.single h.kernel_dependent)

/-- Modules that were not there, and eigenclasses of objects, may come and go. -/
theorem Moored.of_retains (h : g.Moored) (hroomy : g'.Roomy) (hg : Retains lost g g')
    (hlost : ∀ b, lost b → ¬ g.Live b ∨ g.Personal b)
    (hnew : ∀ m t, lost m → (g'.node m).target = some t → g'.Anchored m) : g'.Moored := by
  have hstays : ∀ m, g.Live m → (g.node m).target = none → ¬ lost m := fun m hm ht hl =>
    (hlost m hl).elim (fun hn => hn hm) (not_personal_of_target ht)
  have hgate := hstays _ h.live_gate h.target_gate
  have hkernel := hstays _ h.live_kernel h.target_kernel
  refine ⟨hroomy, hg.live _ hgate h.live_gate, (hg.node _ hgate).target.trans h.target_gate,
    hg.live _ hkernel h.live_kernel, (hg.node _ hkernel).target.trans h.target_kernel,
    (hg.node _ hkernel).included _ h.gate_included hgate,
    (hg.node _ hgate).dependents _ h.kernel_dependent hkernel, fun m t ht => ?_⟩
  by_cases hm : lost m
  · exact hnew m t hm ht
  · rw [(hg.node m hm).target] at ht
    exact (h.anchored m t ht).retains hg hlost hm

theorem Moored.same (h : g.Moored) (hroomy : g'.Roomy) (hg : Retains (fun _ => False) g g') :
    g'.Moored :=
  h.of_retains hroomy hg (fun _ hb => hb.elim) fun _ _ hm => hm.elim

theorem Moored.alloc (h : g.Moored) {n : Node} (hn : n.target = none) : (g.alloc n).2.Moored := by
  refine h.of_retains h.roomy.alloc (retains_alloc n) ?_ ?_
  · rintro b rfl
    exact .inl (g.alloc_fresh n)
  · rintro m t rfl ht
    rw [h.roomy.node_alloc, if_pos rfl, hn] at ht
    cases ht

theorem Moored.attach (h : g.Moored) {n : Node} {p : ModuleId} (hp : g.Anchored p)
    (hstays : ¬ g.Personal p) : ((g.alloc n).2.addEdge (g.alloc n).1 p).Moored := by
  refine h.of_retains ?_ ((retains_alloc n).trans (retains_addEdge ..)) ?_ ?_
  · exact h.roomy.alloc.addEdge ..
  · rintro b rfl
    exact .inl (g.alloc_fresh n)
  · rintro m t rfl -
    exact anchored_attach h.roomy hp hstays

theorem Moored.remove (h : g.Moored) (hm : g.Live m) (hp : g.Personal m) :
    (g.remove m).2.Moored := by
  refine h.of_retains (h.roomy.remove hm) (retains_remove m) ?_ ?_
  · rintro b rfl
    exact .inr hp
  · rintro a t rfl ht
    rw [node_remove_self hm.1] at ht
    cases ht

end Graph

end Mixin
