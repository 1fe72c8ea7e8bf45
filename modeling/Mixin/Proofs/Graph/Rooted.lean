import Mixin.Image.Basic
import Mixin.Proofs.Graph.Sound
import Mixin.Proofs.Graph.View

/-! Why the gate never shadows anything. The first edge of every module with a target leads on to a
module that cannot be removed, and along first edges one comes to the gate, which includes nothing.
A walk goes down these edges before it leaves any module, so it leaves the gate first. What else is
included, and in what cycles, does not matter. -/

namespace Mixin

namespace Graph

variable {g g' : Graph} {m a b : ModuleId}

/-- The eigenclass of an object, which goes with the object. -/
def Personal (g : Graph) (m : ModuleId) : Prop :=
  ∃ o, (g.node m).target = some (.singleton (.object o))

/-- First edges lead in so many steps to the gate, through modules that stay. -/
inductive Descends (g : Graph) : ℕ → ModuleId → Prop where
  | gate : Descends g 0 .gate
  | step {n : ℕ} {m b : ModuleId} {rest : List ModuleId} :
      (g.node m).included = b :: rest → ¬ g.Personal b → Descends g n b → Descends g (n + 1) m

theorem Descends.unique (hgate : (g.node .gate).included = []) {n n' : ℕ} (h : g.Descends n m)
    (h' : g.Descends n' m) : n = n' := by
  induction h generalizing n' with
  | gate =>
    cases h' with
    | gate => rfl
    | step hin _ _ =>
      rw [hgate] at hin
      cases hin
  | step hin _ _ ih =>
    cases h' with
    | gate =>
      rw [hgate] at hin
      cases hin
    | step hin' _ h' =>
      rw [hin] at hin'
      cases hin'
      rw [ih h']

theorem Trail.left_suffix {ms : List ModuleId} {w w' : Walk} (h : Trail g ms w w') :
    w.left <:+ w'.left := by
  induction h with
  | done w => exact List.suffix_refl _
  | skip _ _ ih => exact ih
  | down _ _ _ ih₁ ih₂ => exact (ih₁.trans (List.suffix_cons _ _)).trans ih₂

/-- A walk that has entered only modules further from the gate leaves the gate first. -/
theorem Descends.left_gate (hgate : (g.node .gate).included = []) {n : ℕ} (h : g.Descends n m)
    {rest : List ModuleId} {w w' : Walk} (ht : Trail g (m :: rest) w w') (hleft : w.left = [])
    (hentered : ∀ x ∈ w.entered, ∃ i, n < i ∧ g.Descends i x) : [.gate] <:+ w'.left := by
  have hnew : ∀ {n m} {w : Walk}, g.Descends n m →
      (∀ x ∈ w.entered, ∃ i, n < i ∧ g.Descends i x) → m ∉ w.entered := by
    intro n m w h hentered hm
    obtain ⟨i, hlt, hi⟩ := hentered m hm
    have heq := h.unique hgate hi
    omega
  induction h generalizing rest w w' with
  | gate =>
    cases ht with
    | skip hm _ => exact absurd hm (hnew .gate hentered)
    | down _ h₁ h₂ =>
      rw [hgate] at h₁
      cases h₁
      have hsuffix := h₂.left_suffix
      simp only [Walk.leave, Walk.enter, hleft] at hsuffix
      exact hsuffix
  | @step n m b below hin hb hd ih =>
    cases ht with
    | skip hm _ => exact absurd hm (hnew (.step hin hb hd) hentered)
    | down _ h₁ h₂ =>
      rw [hin] at h₁
      have hfirst := ih h₁ hleft fun x hx => by
        rcases List.mem_cons.1 hx with rfl | hx
        · exact ⟨n + 1, Nat.lt_succ_self _, .step hin hb hd⟩
        · obtain ⟨i, hlt, hi⟩ := hentered x hx
          exact ⟨i, by omega, hi⟩
      exact (hfirst.trans (List.suffix_cons _ _)).trans h₂.left_suffix

theorem Descends.linearize_eq (hgate : (g.node .gate).included = []) {n : ℕ}
    (h : g.Descends n m) : ∃ rest, g.linearize m = .gate :: rest := by
  obtain ⟨w, hw, he⟩ := g.trail_linearize m
  obtain ⟨above, habove⟩ := h.left_gate hgate hw rfl fun x hx => absurd hx List.not_mem_nil
  refine ⟨above.reverse, ?_⟩
  rw [he, ← habove, List.reverse_append]
  rfl

/-- The gate is hidden and nothing else is. -/
def GateHidden (g : Graph) : Prop := ∀ m, (g.node m).hidden = true ↔ m = .gate

namespace GateHidden

theorem ne_gate (h : g.GateHidden) {m : ModuleId} (hm : (g.node m).hidden = false) : m ≠ .gate :=
  fun he => Bool.false_ne_true (hm.symm.trans ((h m).2 he))

theorem same (h : g.GateHidden) (hh : ∀ m, (g'.node m).hidden = (g.node m).hidden) :
    g'.GateHidden := fun m => by
  rw [hh]
  exact h m

theorem addEdge (h : g.GateHidden) {owner other : ModuleId} (hl : g.Live owner)
    (ho : g.Live other) : (g.addEdge owner other).GateHidden :=
  h.same fun _ => hidden_addEdge hl ho

theorem setMethod (h : g.GateHidden) {owner : ModuleId} (hl : g.Live owner) (name : Symbol)
    (x : Method) : (g.setMethod owner name x).GateHidden := by
  refine h.same fun m => ?_
  rw [node_setMethod name x hl]
  split <;> rfl

theorem alloc (h : g.GateHidden) (hg : g.Sound) (hgate : g.Live .gate) {n : Node}
    (hn : n.hidden = false) : (g.alloc n).2.GateHidden := by
  intro m
  rw [hg.node_alloc]
  split
  · rename_i hnew
    simp only [hn, Bool.false_eq_true, false_iff]
    rintro rfl
    exact g.alloc_fresh n (hnew ▸ hgate)
  · exact h m

theorem remove (h : g.GateHidden) (hg : g.Sound) {e : ModuleId} (he : g.Live e)
    (hne : e ≠ .gate) : (g.remove e).2.GateHidden := by
  intro m
  rw [hg.node_remove he]
  split
  · rename_i hm
    simp only [Bool.false_eq_true, false_iff]
    rintro rfl
    exact hne hm.symm
  · exact h m

end GateHidden

/-- Only the gate is hidden and holds stubs, and all targets, but for these modules, descend to it. -/
structure RootedBut (X : ModuleId → Prop) (g : Graph) : Prop where
  included_gate : (g.node .gate).included = []
  hidden : ∀ m, (g.node m).hidden = true ↔ m = .gate
  stubs : ∀ (n : Symbol) (x : Method), (g.node .gate).methods[n]? = some x → x = .stub n
  real : ∀ m, m ≠ .gate →
    ∀ (n : Symbol) (x : Method), (g.node m).methods[n]? = some x → x.isStub = false
  kernel : ∃ n, g.Descends n .kernel
  descends : ∀ m t, (g.node m).target = some t → ¬ X m → ∃ n, g.Descends n m

def Rooted (g : Graph) : Prop := g.RootedBut fun _ => False

/-- First edges are kept where they lead to modules that are there, other than these. -/
theorem Descends.transfer {X : ModuleId → Prop} {n : ℕ} (h : g.Descends n m)
    (hin : ∀ m b rest, ¬ X m → (g.node m).included = b :: rest → ¬ g.Personal b →
      (∃ rest', (g'.node m).included = b :: rest') ∧ ¬ g'.Personal b ∧ ¬ X b)
    (hm : ¬ X m) : g'.Descends n m := by
  induction h with
  | gate => exact .gate
  | step hrest hb _ ih =>
    obtain ⟨⟨rest', hrest'⟩, hb', hX⟩ := hin _ _ _ hm hrest hb
    exact .step hrest' hb' (ih hX)

theorem Descends.addEdge {owner other : ModuleId} (hl : g.Live owner) (ho : g.Live other) {n : ℕ}
    (h : g.Descends n m) : (g.addEdge owner other).Descends n m := by
  refine h.transfer (X := fun _ => False) (fun m b rest _ hrest hb => ?_) id
  refine ⟨?_, ?_, id⟩
  · rw [included_addEdge hl ho, hrest]
    split
    · exact ⟨rest ++ [other], rfl⟩
    · exact ⟨rest, rfl⟩
  · rintro ⟨o, hob⟩
    exact hb ⟨o, (target_addEdge hl ho).symm.trans hob⟩

theorem Descends.alloc (hg : g.Sound) {x : Node} {n : ℕ} (hlive : g.Live m)
    (h : g.Descends n m) : (g.alloc x).2.Descends n m := by
  refine h.transfer (X := fun m => ¬ g.Live m) (fun m b rest hm hrest hb => ?_) (not_not.2 hlive)
  have hlb : g.Live b := hg.live m b (by rw [hrest]; exact List.mem_cons_self)
  refine ⟨⟨rest, ?_⟩, ?_, not_not.2 hlb⟩
  · rw [hg.node_alloc_of_live (not_not.1 hm)]
    exact hrest
  · rintro ⟨o, ho⟩
    rw [hg.node_alloc_of_live hlb] at ho
    exact hb ⟨o, ho⟩

theorem RootedBut.same {X : ModuleId → Prop} (h : g.RootedBut X)
    (hin : ∀ m, (g'.node m).included = (g.node m).included)
    (ht : ∀ m, (g'.node m).target = (g.node m).target)
    (hh : ∀ m, (g'.node m).hidden = (g.node m).hidden)
    (hstubs : ∀ (n : Symbol) (x : Method), (g'.node .gate).methods[n]? = some x → x = .stub n)
    (hreal : ∀ m, m ≠ .gate →
      ∀ (n : Symbol) (x : Method), (g'.node m).methods[n]? = some x → x.isStub = false) :
    g'.RootedBut X := by
  have hdescends : ∀ {n m}, g.Descends n m → g'.Descends n m := by
    intro n m hd
    refine hd.transfer (X := fun _ => False) (fun m b rest _ hrest hb => ?_) id
    refine ⟨⟨rest, (hin m).trans hrest⟩, ?_, id⟩
    rintro ⟨o, ho⟩
    exact hb ⟨o, (ht b).symm.trans ho⟩
  refine ⟨(hin _).trans h.included_gate, fun m => ?_, hstubs, hreal, ?_, fun m t hmt hX => ?_⟩
  · rw [hh]
    exact h.hidden m
  · obtain ⟨n, hn⟩ := h.kernel
    exact ⟨n, hdescends hn⟩
  · obtain ⟨n, hn⟩ := h.descends m t ((ht m).symm.trans hmt) hX
    exact ⟨n, hdescends hn⟩

section Edits

variable {X : ModuleId → Prop} (h : g.RootedBut X)
include h

theorem RootedBut.setMethod {owner : ModuleId} (hl : g.Live owner) (name : Symbol) {x : Method}
    (hstub : owner = .gate → x = .stub name) (hreal : owner ≠ .gate → x.isStub = false) :
    (g.setMethod owner name x).RootedBut X := by
  have hmethods : ∀ m (n : Symbol) (y : Method),
      ((g.setMethod owner name x).node m).methods[n]? = some y →
        (g.node m).methods[n]? = some y ∨ m = owner ∧ n = name ∧ y = x := by
    intro m n y hy
    rw [node_setMethod name x hl] at hy
    split at hy
    · rename_i hm
      rw [Std.ExtTreeMap.getElem?_insert] at hy
      split at hy
      · rename_i hn
        have hn : name = n := Std.LawfulEqCmp.eq_of_compare hn
        exact Or.inr ⟨hm, hn.symm, (Option.some.inj hy).symm⟩
      · exact Or.inl hy
    · exact Or.inl hy
  refine h.same (fun m => ?_) (fun m => target_setMethod name x hl) (fun m => ?_) ?_ ?_
  · rw [node_setMethod name x hl]
    split <;> rfl
  · rw [node_setMethod name x hl]
    split <;> rfl
  · intro n y hy
    rcases hmethods _ n y hy with hold | ⟨ho, rfl, rfl⟩
    · exact h.stubs n y hold
    · exact hstub ho.symm
  · intro m hm n y hy
    rcases hmethods _ n y hy with hold | ⟨ho, -, rfl⟩
    · exact h.real m hm n y hold
    · exact hreal (ho ▸ hm)

/-- An edge out of a module that is not the gate; it is the first one of a module that had none. -/
theorem RootedBut.addEdge {owner other : ModuleId} (hl : g.Live owner) (ho : g.Live other)
    (hne : owner ≠ .gate) : (g.addEdge owner other).RootedBut X := by
  refine ⟨?_, GateHidden.addEdge h.hidden hl ho, ?_, ?_, ?_, fun m t ht hX => ?_⟩
  · rw [included_addEdge hl ho, if_neg (Ne.symm hne)]
    exact h.included_gate
  · rw [methods_addEdge hl ho]
    exact h.stubs
  · intro m hm
    rw [methods_addEdge hl ho]
    exact h.real m hm
  · obtain ⟨n, hn⟩ := h.kernel
    exact ⟨n, hn.addEdge hl ho⟩
  · rw [target_addEdge hl ho] at ht
    obtain ⟨n, hn⟩ := h.descends m t ht hX
    exact ⟨n, hn.addEdge hl ho⟩

theorem RootedBut.alloc (hg : g.Sound) (hgate : g.Live .gate) (hkernel : g.Live .kernel) {n : Node}
    (hh : n.hidden = false) (hm : n.methods = ∅) :
    (g.alloc n).2.RootedBut fun m => X m ∨ m = (g.alloc n).1 := by
  have hnode := fun a => hg.node_alloc (n := n) (a := a)
  refine ⟨?_, GateHidden.alloc h.hidden hg hgate hh, ?_, fun m hne => ?_, ?_, fun m t ht hX => ?_⟩
  · rw [hg.node_alloc_of_live hgate]
    exact h.included_gate
  · rw [hg.node_alloc_of_live hgate]
    exact h.stubs
  · rw [hnode]
    split
    · intro i x hx
      simp [hm] at hx
    · exact h.real m hne
  · obtain ⟨i, hi⟩ := h.kernel
    exact ⟨i, hi.alloc hg hkernel⟩
  · have hne : m ≠ (g.alloc n).1 := fun hnew => hX (Or.inr hnew)
    rw [hnode, if_neg hne] at ht
    obtain ⟨i, hi⟩ := h.descends m t ht fun hx => hX (Or.inl hx)
    exact ⟨i, hi.alloc hg (hg.live_of_target ht)⟩

theorem RootedBut.remove (hg : g.Sound) {e : ModuleId} (he : g.Live e) (hp : g.Personal e)
    (hgate : (g.node .gate).target = none) (hkernel : (g.node .kernel).target = none) :
    (g.remove e).2.RootedBut X := by
  obtain ⟨o, ho⟩ := hp
  have hne : ∀ m, (g.node m).target = none → m ≠ e := by
    rintro m hm rfl
    rw [ho] at hm
    cases hm
  have hnode := fun a => hg.node_remove he (a := a)
  have hdescends : ∀ {n m}, m ≠ e → g.Descends n m → (g.remove e).2.Descends n m := by
    intro n m hm hd
    refine hd.transfer (X := (· = e)) (fun m b rest hm hrest hb => ?_) hm
    have hbe : b ≠ e := by
      rintro rfl
      exact hb ⟨o, ho⟩
    refine ⟨⟨rest.filter (· ≠ e), ?_⟩, ?_, hbe⟩
    · rw [hnode, if_neg hm]
      simp [Node.dropIncluded, Node.dropDependent, hrest, hbe]
    · rintro ⟨a, ha⟩
      rw [hnode, if_neg hbe] at ha
      exact hb ⟨a, ha⟩
  refine ⟨?_, GateHidden.remove h.hidden hg he (hne _ hgate).symm, ?_, fun m hm => ?_, ?_,
    fun m t ht hX => ?_⟩
  · rw [hnode, if_neg (hne _ hgate)]
    simp [Node.dropIncluded, Node.dropDependent, h.included_gate]
  · rw [hnode, if_neg (hne _ hgate)]
    exact h.stubs
  · rw [hnode]
    split
    · intro i x hx
      simp at hx
    · exact h.real m hm
  · obtain ⟨n, hn⟩ := h.kernel
    exact ⟨n, hdescends (hne _ hkernel) hn⟩
  · rw [hnode] at ht
    split at ht
    · cases ht
    · rename_i hm
      obtain ⟨n, hn⟩ := h.descends m t ht hX
      exact ⟨n, hdescends hm hn⟩

end Edits

theorem RootedBut.link {X : ModuleId → Prop} (h : g.RootedBut fun x => X x ∨ x = m)
    (hl : g.Live m) (ho : g.Live b) (hne : m ≠ .gate) (hin : (g.node m).included = [])
    (hb : ¬ g.Personal b) {n : ℕ} (hd : g.Descends n b) : (g.addEdge m b).RootedBut X := by
  have hlink := h.addEdge hl ho hne
  have hb' : ¬ (g.addEdge m b).Personal b := by
    rintro ⟨o, hob⟩
    exact hb ⟨o, (target_addEdge hl ho).symm.trans hob⟩
  have hfirst : ((g.addEdge m b).node m).included = b :: [] := by
    rw [included_addEdge hl ho, if_pos rfl, hin]
    rfl
  refine { hlink with descends := fun x t ht hX => ?_ }
  by_cases hx : x = m
  · subst hx
    exact ⟨n + 1, .step hfirst hb' (hd.addEdge hl ho)⟩
  · exact hlink.descends x t ht fun h => h.elim hX hx

end Graph

end Mixin
