import Mathlib.Data.List.Nodup
import Mixin.Proofs.Graph.Reach

/-! What every edit keeps of a graph: the pointers back match the edges, edges join modules that are
there, and the places of removed modules are blank. -/

namespace Mixin

open Relation

namespace Node

theorem dropIncluded_of_not_mem {m : ModuleId} {n : Node} (h : m ∉ n.included) :
    n.dropIncluded m = n := by
  have hf : n.included.filter (· ≠ m) = n.included :=
    List.filter_eq_self.2 fun b hb => by simpa using fun he : b = m => h (he ▸ hb)
  rw [dropIncluded, hf]

theorem dropDependent_of_not_mem {m : ModuleId} {n : Node} (h : m ∉ n.dependents) :
    n.dropDependent m = n := by
  have hf : n.dependents.filter (· ≠ m) = n.dependents :=
    List.filter_eq_self.2 fun b hb => by simpa using fun he : b = m => h (he ▸ hb)
  rw [dropDependent, hf]

end Node

namespace Graph

/-- A module that has been allocated and not been removed since. -/
def Live (g : Graph) (m : ModuleId) : Prop := m.index < g.nodes.size ∧ m ∉ g.free

instance (g : Graph) (m : ModuleId) : Decidable (g.Live m) := inferInstanceAs (Decidable (_ ∧ _))

structure Sound (g : Graph) : Prop where
  back : ∀ a b, b ∈ (g.node a).included ↔ a ∈ (g.node b).dependents
  once : ∀ a, (g.node a).dependents.Nodup
  live : ∀ a b, b ∈ (g.node a).included → g.Live b
  free_lt : ∀ m ∈ g.free, m.index < g.nodes.size
  free_nodup : g.free.Nodup
  blank : ∀ m ∈ g.free, g.node m = {}

section Nodes

variable {g : Graph} {m a : ModuleId}

theorem node_update (f : Node → Node) (h : m.index < g.nodes.size) :
    (g.update m f).node a = if a = m then f (g.node a) else g.node a := by
  split
  · rename_i he
    subst he
    exact node_update_self g f h
  · rename_i he
    exact node_update_of_ne g f (Ne.symm he)

@[simp]
theorem live_update (f : Node → Node) : (g.update m f).Live a ↔ g.Live a := by simp [Live, update]

@[simp]
theorem live_bump : g.bump.Live a ↔ g.Live a := Iff.rfl

/-- The same change made to several modules; making it twice is making it once. -/
theorem node_foldl_update {f : Node → Node} (hf : ∀ n, f (f n) = f n) (ms : List ModuleId)
    (hms : ∀ b ∈ ms, b.index < g.nodes.size) :
    (ms.foldl (fun g b => g.update b f) g).node a = if a ∈ ms then f (g.node a) else g.node a := by
  induction ms generalizing g with
  | nil => simp
  | cons b ms ih =>
    rw [List.foldl_cons, ih fun c hc => by simpa using hms c (List.mem_cons_of_mem _ hc),
      node_update f (hms b List.mem_cons_self)]
    by_cases hb : a = b
    · subst hb
      by_cases ha : a ∈ ms <;> simp [ha, hf]
    · simp [hb]

@[simp]
theorem size_foldl_update (f : Node → Node) (ms : List ModuleId) :
    (ms.foldl (fun g b => g.update b f) g).nodes.size = g.nodes.size := by
  induction ms generalizing g with
  | nil => rfl
  | cons b ms ih => rw [List.foldl_cons, ih, size_update]

@[simp]
theorem free_foldl_update (f : Node → Node) (ms : List ModuleId) :
    (ms.foldl (fun g b => g.update b f) g).free = g.free := by
  induction ms generalizing g with
  | nil => rfl
  | cons b ms ih => rw [List.foldl_cons, ih]; rfl

@[simp]
theorem edits_foldl_update (f : Node → Node) (ms : List ModuleId) :
    (ms.foldl (fun g b => g.update b f) g).edits = g.edits := by
  induction ms generalizing g with
  | nil => rfl
  | cons b ms ih => rw [List.foldl_cons, ih]; rfl

theorem node_setMethod (name : Symbol) (x : Method) (h : g.Live m) :
    (g.setMethod m name x).node a =
      if a = m then { g.node a with methods := (g.node a).methods.insert name x } else g.node a :=
  node_update _ h.1

@[simp]
theorem live_setMethod (name : Symbol) (x : Method) : (g.setMethod m name x).Live a ↔ g.Live a := by
  simp [setMethod]

theorem target_setMethod (name : Symbol) (x : Method) (h : g.Live m) :
    ((g.setMethod m name x).node a).target = (g.node a).target := by
  rw [node_setMethod name x h]
  split <;> rfl

theorem node_addEdge {other : ModuleId} (h : g.Live m) (ho : g.Live other) :
    (g.addEdge m other).node a =
      let n := if a = m then Node.addIncluded other (g.node a) else g.node a
      if a = other then Node.addDependent m n else n := by
  show ((g.update m _).update other _).node a = _
  rw [node_update _ (by simpa using ho.1), node_update _ h.1]

@[simp]
theorem live_addEdge {other : ModuleId} : (g.addEdge m other).Live a ↔ g.Live a := by
  simp [addEdge]

section AddEdge

variable {other : ModuleId} (h : g.Live m) (ho : g.Live other)
include h ho

theorem included_addEdge : ((g.addEdge m other).node a).included =
    if a = m then (g.node a).included ++ [other] else (g.node a).included := by
  rw [node_addEdge h ho]
  split_ifs <;> rfl

theorem mem_dependents_addEdge {x : ModuleId} : x ∈ ((g.addEdge m other).node a).dependents ↔
    x ∈ (g.node a).dependents ∨ a = other ∧ x = m := by
  rw [node_addEdge h ho]
  unfold Node.addIncluded Node.addDependent
  dsimp only
  split_ifs <;> grind

theorem dependents_addEdge_nodup (hn : (g.node a).dependents.Nodup) :
    ((g.addEdge m other).node a).dependents.Nodup := by
  rw [node_addEdge h ho]
  unfold Node.addIncluded Node.addDependent
  dsimp only
  split_ifs <;> grind [List.nodup_append]

theorem methods_addEdge : ((g.addEdge m other).node a).methods = (g.node a).methods := by
  rw [node_addEdge h ho]
  split_ifs <;> rfl

theorem target_addEdge : ((g.addEdge m other).node a).target = (g.node a).target := by
  rw [node_addEdge h ho]
  split_ifs <;> rfl

theorem hidden_addEdge : ((g.addEdge m other).node a).hidden = (g.node a).hidden := by
  rw [node_addEdge h ho]
  split_ifs <;> rfl

end AddEdge

end Nodes

theorem mem_affected_iff_dependents {g : Graph} {m a : ModuleId} : a ∈ g.affected m ↔
    ReflTransGen (fun a b => b ∈ (g.node a).dependents) m a := by
  unfold affected
  exact mem_reached fun x hx => by rw [node_of_not_mem_arena hx]

theorem self_mem_affected (g : Graph) (m : ModuleId) : m ∈ g.affected m :=
  mem_affected_iff_dependents.2 .refl

namespace Sound

variable {g : Graph} {m a b : ModuleId}

theorem live_includer (hg : g.Sound) (h : b ∈ (g.node a).included) : g.Live a := by
  refine ⟨Nat.lt_of_not_le fun hle => ?_, fun hf => ?_⟩
  · rw [node_of_size_le g hle] at h
    exact List.not_mem_nil h
  · rw [hg.blank a hf] at h
    exact List.not_mem_nil h

/-- What includes nothing and is included by nothing is in nobody's lists. -/
theorem unlisted (hg : g.Sound) (hin : (g.node a).included = []) (hdep : (g.node a).dependents = [])
    (b : ModuleId) : a ∉ (g.node b).included ∧ a ∉ (g.node b).dependents := by
  constructor
  · intro h
    have hback := (hg.back b a).1 h
    rw [hdep] at hback
    exact List.not_mem_nil hback
  · intro h
    have hback := (hg.back a b).2 h
    rw [hin] at hback
    exact List.not_mem_nil hback

theorem live_of_target (hg : g.Sound) {t : Target} (h : (g.node a).target = some t) : g.Live a := by
  refine ⟨Nat.lt_of_not_le fun hle => ?_, fun hf => ?_⟩
  · rw [node_of_size_le g hle] at h
    cases h
  · rw [hg.blank a hf] at h
    cases h

theorem live_of_reaches (hg : g.Sound) (ha : g.Live a) (h : g.Reaches a b) : g.Live b := by
  cases h with
  | refl => exact ha
  | tail _ hb => exact hg.live _ _ hb

theorem mem_affected (hg : g.Sound) {t : ModuleId} : t ∈ g.affected a ↔ g.Reaches t a := by
  unfold Reaches
  rw [mem_affected_iff_dependents, ← reflTransGen_swap]
  have hswap : (Function.swap fun x y => y ∈ (g.node x).dependents) =
      fun x y => y ∈ (g.node x).included := by
    funext x y
    exact propext (hg.back x y).symm
  rw [hswap]

/-- Edits that leave edges and places alone keep a graph sound. -/
theorem of_edges (hg : g.Sound) {g' : Graph} (hsize : g'.nodes.size = g.nodes.size)
    (hfree : g'.free = g.free) (hin : ∀ a, (g'.node a).included = (g.node a).included)
    (hdep : ∀ a, (g'.node a).dependents = (g.node a).dependents)
    (hblank : ∀ a ∈ g.free, g'.node a = g.node a) : g'.Sound where
  back a b := by rw [hin, hdep]; exact hg.back a b
  once a := by rw [hdep]; exact hg.once a
  live a b h := by
    rw [hin] at h
    have hb := hg.live a b h
    exact ⟨hsize ▸ hb.1, hfree ▸ hb.2⟩
  free_lt m h := by rw [hsize]; exact hg.free_lt m (hfree ▸ h)
  free_nodup := hfree ▸ hg.free_nodup
  blank m h := by
    rw [hfree] at h
    rw [hblank m h, hg.blank m h]

theorem update (hg : g.Sound) (h : g.Live m) {f : Node → Node}
    (hin : ∀ n, (f n).included = n.included) (hdep : ∀ n, (f n).dependents = n.dependents) :
    (g.update m f).Sound := by
  refine hg.of_edges (size_update ..) rfl (fun a => ?_) (fun a => ?_) fun a ha => ?_
  · rw [node_update f h.1]
    split <;> simp [hin]
  · rw [node_update f h.1]
    split <;> simp [hdep]
  · rw [node_update f h.1, if_neg]
    rintro rfl
    exact h.2 ha

theorem bump (hg : g.Sound) : g.bump.Sound :=
  hg.of_edges rfl rfl (fun _ => rfl) (fun _ => rfl) fun _ _ => rfl

theorem setMethod (hg : g.Sound) (h : g.Live m) (name : Symbol) (x : Method) :
    (g.setMethod m name x).Sound := by
  refine (hg.update h ?_ ?_).bump
  · exact fun _ => rfl
  · exact fun _ => rfl

theorem addEdge (hg : g.Sound) (h : g.Live m) (hb : g.Live b) : (g.addEdge m b).Sound where
  back x y := by
    rw [included_addEdge h hb, mem_dependents_addEdge h hb, ← hg.back x y]
    split
    · rename_i hx
      subst hx
      simp
    · rename_i hx
      simp [hx]
  once x := dependents_addEdge_nodup h hb (hg.once x)
  live x y hy := by
    rw [included_addEdge h hb] at hy
    rw [live_addEdge]
    split at hy
    · rcases List.mem_append.1 hy with hy | hy
      · exact hg.live _ _ hy
      · exact List.mem_singleton.1 hy ▸ hb
    · exact hg.live _ _ hy
  free_lt x hx := by
    have hlt := hg.free_lt x hx
    unfold Graph.addEdge Graph.bump
    simpa using hlt
  free_nodup := hg.free_nodup
  blank x hx := by
    have hxm : x ≠ m := fun he => h.2 (he ▸ hx)
    have hxb : x ≠ b := fun he => hb.2 (he ▸ hx)
    rw [node_addEdge h hb]
    simp only [if_neg hxm, if_neg hxb]
    exact hg.blank x hx

end Sound

theorem alloc_fresh (g : Graph) (n : Node) : ¬ g.Live (g.alloc n).1 := by
  unfold alloc
  split
  · rename_i m rest hfree
    exact fun h => h.2 (hfree ▸ List.mem_cons_self)
  · exact fun h => Nat.lt_irrefl _ h.1

section Removed

variable {g : Graph} {m a : ModuleId}

@[simp]
theorem size_remove : (g.remove m).2.nodes.size = g.nodes.size := by simp [remove, bump]

@[simp]
theorem free_remove : (g.remove m).2.free = m :: g.free := by
  simp only [remove, bump, free_foldl_update]
  rfl

@[simp]
theorem edits_remove : (g.remove m).2.edits = g.edits + 1 := by
  simp only [remove, bump, edits_foldl_update]
  rfl

theorem live_remove : (g.remove m).2.Live a ↔ g.Live a ∧ a ≠ m := by
  simp only [Live, size_remove, free_remove, List.mem_cons, not_or]
  tauto

end Removed

/-- Freed places lie in the arena, and each is freed once. -/
structure Roomy (g : Graph) : Prop where
  free_lt : ∀ m ∈ g.free, m.index < g.nodes.size
  free_nodup : g.free.Nodup

namespace Roomy

variable {g : Graph} (hg : g.Roomy) {n : Node} {a : ModuleId}
include hg

theorem node_alloc : (g.alloc n).2.node a = if a = (g.alloc n).1 then n else g.node a := by
  unfold Graph.alloc
  split
  · rename_i m rest hfree
    have hlt := hg.free_lt m (hfree ▸ List.mem_cons_self)
    exact node_update (fun _ => n) hlt
  · by_cases ha : a = ⟨g.nodes.size⟩
    · subst ha
      simp [node]
    · have hne : a.index ≠ g.nodes.size := fun he => ha (by cases a; cases he; rfl)
      simp [node, Array.getElem?_push, hne, ha]

theorem live_alloc : (g.alloc n).2.Live a ↔ a = (g.alloc n).1 ∨ g.Live a := by
  unfold Graph.alloc
  split
  · rename_i m rest hfree
    have hlt := hg.free_lt m (hfree ▸ List.mem_cons_self)
    have hn := hfree ▸ hg.free_nodup
    rw [List.nodup_cons] at hn
    simp only [Live, hfree, List.mem_cons, Graph.update, Array.size_modify]
    grind
  · rename_i hfree
    simp only [Live, Array.size_push, hfree, List.not_mem_nil, not_false_eq_true, and_true]
    constructor
    · intro h
      rcases Nat.lt_succ_iff_lt_or_eq.1 h with h | h
      · exact Or.inr h
      · exact Or.inl (by cases a; cases h; rfl)
    · rintro (rfl | h)
      · exact Nat.lt_succ_self _
      · exact Nat.lt_succ_of_lt h

theorem alloc : (g.alloc n).2.Roomy where
  free_lt x hx := by
    unfold Graph.alloc at hx ⊢
    split at hx
    · rename_i m rest hfree
      simpa [Graph.update] using hg.free_lt x (hfree ▸ List.mem_cons_of_mem _ hx)
    · rename_i hfree
      exact absurd hx (by simp [hfree])
  free_nodup := by
    unfold Graph.alloc
    split
    · rename_i m rest hfree
      exact (List.nodup_cons.1 (hfree ▸ hg.free_nodup)).2
    · exact hg.free_nodup

theorem remove {m : ModuleId} (hm : g.Live m) : (g.remove m).2.Roomy where
  free_lt x hx := by
    rw [free_remove] at hx
    rw [size_remove]
    rcases List.mem_cons.1 hx with rfl | hx
    · exact hm.1
    · exact hg.free_lt x hx
  free_nodup := by
    rw [free_remove]
    exact List.nodup_cons.2 ⟨hm.2, hg.free_nodup⟩

theorem same {g' : Graph} (hsize : g'.nodes.size = g.nodes.size)
    (hfree : g'.free = g.free) : g'.Roomy :=
  ⟨fun m hm => hsize ▸ hg.free_lt m (hfree ▸ hm), hfree ▸ hg.free_nodup⟩

theorem update (m : ModuleId) (f : Node → Node) : (g.update m f).Roomy :=
  hg.same (size_update ..) rfl

theorem addEdge (owner other : ModuleId) : (g.addEdge owner other).Roomy :=
  ((hg.update owner _).update other _).same rfl rfl

end Roomy

theorem Sound.roomy {g : Graph} (hg : g.Sound) : g.Roomy := ⟨hg.free_lt, hg.free_nodup⟩

section Alloc

variable {g : Graph} (hg : g.Sound) {n : Node} {a : ModuleId}
include hg

theorem Sound.node_alloc : (g.alloc n).2.node a = if a = (g.alloc n).1 then n else g.node a :=
  hg.roomy.node_alloc

theorem Sound.node_alloc_of_live (h : g.Live a) : (g.alloc n).2.node a = g.node a := by
  rw [hg.node_alloc, if_neg]
  rintro rfl
  exact g.alloc_fresh n h

theorem Sound.live_alloc : (g.alloc n).2.Live a ↔ a = (g.alloc n).1 ∨ g.Live a :=
  hg.roomy.live_alloc

theorem Sound.alloc (hin : n.included = []) (hdep : n.dependents = []) : (g.alloc n).2.Sound where
  back x y := by
    rw [hg.node_alloc, hg.node_alloc]
    -- A place that is not taken is blank, so no edge leads to or from it.
    have hnew := g.alloc_fresh n
    by_cases hx : x = (g.alloc n).1 <;> by_cases hy : y = (g.alloc n).1 <;>
      simp only [hx, hy, if_true, if_false, hin, hdep, List.not_mem_nil, iff_false, false_iff]
    · exact fun h => hnew (hg.live_includer ((hg.back _ _).2 h))
    · exact fun h => hnew (hg.live _ _ h)
    · exact hg.back x y
  once x := by
    rw [hg.node_alloc]
    split
    · simp [hdep]
    · exact hg.once x
  live x y hy := by
    rw [hg.node_alloc] at hy
    rw [hg.live_alloc]
    split at hy
    · simp [hin] at hy
    · exact Or.inr (hg.live _ _ hy)
  free_lt := hg.roomy.alloc.free_lt
  free_nodup := hg.roomy.alloc.free_nodup
  blank x hx := by
    have hfree : x ∈ g.free := by
      unfold Graph.alloc at hx
      split at hx
      · rename_i m rest hfree
        exact hfree ▸ List.mem_cons_of_mem _ hx
      · exact hx
    have hne : x ≠ (g.alloc n).1 := by
      rintro rfl
      have hl : (g.alloc n).2.Live (g.alloc n).1 := hg.live_alloc.2 (Or.inl rfl)
      exact hl.2 hx
    rw [hg.node_alloc, if_neg hne]
    exact hg.blank x hfree

end Alloc

section Remove

variable {g : Graph} (hg : g.Sound) {m a : ModuleId} (hm : g.Live m)
include hg hm

theorem Sound.node_remove : (g.remove m).2.node a =
    if a = m then {} else Node.dropIncluded m (Node.dropDependent m (g.node a)) := by
  have hin : ∀ b ∈ (g.node m).included, b.index < g.nodes.size := fun b hb => (hg.live _ _ hb).1
  have hdep : ∀ b ∈ (g.node m).dependents, b.index < g.nodes.size := fun b hb =>
    (hg.live_includer ((hg.back b m).2 hb)).1
  show (Graph.node _ a) = _
  unfold remove
  simp only [node_bump]
  show (List.foldl _ _ _ : Graph).node a = _
  rw [node_foldl_update (fun n => by simp [Node.dropIncluded, List.filter_filter]) _
      (by simpa using hdep),
    node_foldl_update (fun n => by simp [Node.dropDependent, List.filter_filter]) _
      (by simpa using hin),
    node_update _ hm.1]
  by_cases ha : a = m
  · subst ha
    simp [Node.dropIncluded, Node.dropDependent]
  · have h₁ : a ∉ (g.node m).dependents → m ∉ (g.node a).included := fun h hi =>
      h ((hg.back a m).1 hi)
    have h₂ : a ∉ (g.node m).included → m ∉ (g.node a).dependents := fun h hd =>
      h ((hg.back m a).2 hd)
    by_cases hi : a ∈ (g.node m).included <;> by_cases hd : a ∈ (g.node m).dependents <;>
      simp only [hi, hd, ha, if_true, if_false]
    · exact (Node.dropIncluded_of_not_mem (n := (g.node a).dropDependent m) (h₁ hd)).symm
    · rw [Node.dropDependent_of_not_mem (h₂ hi)]
    · rw [Node.dropDependent_of_not_mem (h₂ hi), Node.dropIncluded_of_not_mem (h₁ hd)]

theorem Sound.mem_included_remove {x : ModuleId} : x ∈ ((g.remove m).2.node a).included ↔
    a ≠ m ∧ x ≠ m ∧ x ∈ (g.node a).included := by
  rw [hg.node_remove hm]
  by_cases ha : a = m
  · simp [ha]
  · simp [ha, Node.dropIncluded, Node.dropDependent, and_comm]

theorem Sound.mem_dependents_remove {x : ModuleId} : x ∈ ((g.remove m).2.node a).dependents ↔
    a ≠ m ∧ x ≠ m ∧ x ∈ (g.node a).dependents := by
  rw [hg.node_remove hm]
  by_cases ha : a = m
  · simp [ha]
  · simp [ha, Node.dropIncluded, Node.dropDependent, and_comm]

theorem Sound.remove : (g.remove m).2.Sound where
  back x y := by
    rw [hg.mem_included_remove hm, hg.mem_dependents_remove hm, hg.back x y]
    tauto
  once x := by
    rw [hg.node_remove hm]
    split
    · exact List.nodup_nil
    · exact (hg.once x).filter _
  live x y hy := by
    rw [hg.mem_included_remove hm] at hy
    exact live_remove.2 ⟨hg.live _ _ hy.2.2, hy.2.1⟩
  free_lt := (hg.roomy.remove hm).free_lt
  free_nodup := (hg.roomy.remove hm).free_nodup
  blank x hx := by
    rw [free_remove] at hx
    rw [hg.node_remove hm]
    rcases List.mem_cons.1 hx with rfl | hx
    · simp
    · rw [hg.blank x hx]
      simp [Node.dropIncluded, Node.dropDependent]

end Remove

end Graph

end Mixin
