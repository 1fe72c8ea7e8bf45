import Mixin.Proofs.Image.Coherent
import Mixin.Proofs.Run.Steps

/-! Tables agree with ancestries whenever a body, a hook or an observer is about to run and whenever
a program goes on. At the start all targets reach the gate, so the one resolution at the end of
booting settles them; from then on every edit is complete before anything else runs. -/

namespace Mixin

open Relation

namespace Image

variable {s : Image}

theorem included_foldl_watch (hs : s.Sound) (names : List Symbol) (a : ModuleId) :
    ((names.foldl watch s).graph.node a).included = (s.graph.node a).included := by
  induction names generalizing s with
  | nil => rfl
  | cons n names ih =>
    rw [List.foldl_cons, ih ((Akin.watch hs n).sound hs), included_watch hs]

theorem Seeded.reaches_gate (h : s.Seeded) {m : ModuleId} {t : Target}
    (ht : (s.graph.node m).target = some t) : s.graph.Reaches m .gate := by
  obtain ⟨a, b, c, hg⟩ := h.graph
  have hedge : ∀ x y, y ∈ ((Graph.frame a b c).node x).included →
      y ∈ (s.graph.node x).included := by
    intro x y hy
    rw [hg, Graph.included_seed]
    exact hy
  have hroot : s.graph.Reaches .moduleRoot .gate :=
    .head (hedge .moduleRoot .kernel (List.mem_singleton_self _))
      (.single (hedge .kernel .gate (List.mem_singleton_self _)))
  rw [hg, Graph.target_seed, Graph.node_frame] at ht
  rcases m with ⟨_ | _ | _ | _ | i⟩
  · cases ht
  · cases ht
  · exact hroot
  · exact .head (hedge .classRoot .moduleRoot (List.mem_singleton_self _)) hroot
  · cases ht

end Image

theorem Setup.coherent_boot (u : Setup) : u.boot.Coherent := by
  obtain ⟨s, names, hseed, heq⟩ := u.boot_eq
  have hs := hseed.sound
  have hakin := Image.akin_foldl_watch hs names
  have hbut : (names.foldl Image.watch s).CoherentBut
      fun m => (names.foldl Image.watch s).graph.Reaches m .gate := by
    intro m t ht hm
    refine absurd ?_ hm
    show (names.foldl Image.watch s).graph.Reaches m .gate
    rw [Image.reaches_congr (Image.included_foldl_watch hs names)]
    exact hseed.reaches_gate ((hakin.target m).symm.trans ht)
  rw [heq]
  exact (hbut.resolve (hakin.sound hs) .gate).mono fun m hm => hm.2 hm.1

namespace Graph

variable {g : Graph} {m : ModuleId} {n : Symbol}

theorem definition?_of_last {above below : List ModuleId} {a : ModuleId} {x : Method}
    (hsplit : g.linearize m = above ++ a :: below) (ha : (g.node a).methods[n]? = some x)
    (hbelow : ∀ b ∈ below, (g.node b).methods[n]? = none) : g.definition? m n = some x := by
  have hnone : (below.filterMap fun a => (g.node a).methods[n]?) = [] :=
    List.filterMap_eq_nil_iff.2 hbelow
  rw [definition?, hsplit, List.filterMap_append, List.filterMap_cons, hnone]
  simp only [ha, List.getLast?_concat]

theorem definition?_of_none (h : ∀ a ∈ g.linearize m, (g.node a).methods[n]? = none) :
    g.definition? m n = none := by
  rw [definition?, List.filterMap_eq_nil_iff.2 h]
  rfl

end Graph

namespace Machine

variable {ω : Type} {k : Manners} {u : Setup} {m : Machine ω}

theorem Reached.coherent (h : m.Reached k u) (hk : k.prompt = true) : m.world.image.Coherent :=
  h.invariant u.coherent_boot fun _ _ hs ha hsafe hc => Edit.coherent hk hs hsafe ha hc

/-- In every state, the table of a module's target holds for each name the slot of the last
definition along the module's ancestry, and nothing for a name that is not defined there. -/
theorem Reached.table_eq (h : m.Reached k u) (hk : k.prompt = true) {a : ModuleId} {t : Target}
    (ht : (m.world.image.graph.node a).target = some t)
    (n : Symbol) :
    (∀ (above below : List ModuleId) (b : ModuleId) (x : Method),
      m.world.image.graph.linearize a = above ++ b :: below →
      (m.world.image.graph.node b).methods[n]? = some x →
      (∀ c ∈ below, (m.world.image.graph.node c).methods[n]? = none) →
      ∃ slot, (m.world.image.table t)[n]? = some slot ∧ slot.sameAs (.ofMethod x) = true) ∧
    ((∀ b ∈ m.world.image.graph.linearize a, (m.world.image.graph.node b).methods[n]? = none) →
      (m.world.image.table t)[n]? = none) := by
  have hagree := h.coherent hk a t ht id n
  constructor
  · intro above below b x hsplit hb hbelow
    rw [Graph.definition?_of_last hsplit hb hbelow] at hagree
    cases hslot : (m.world.image.table t)[n]? with
    | none => rw [hslot] at hagree; exact hagree.elim
    | some slot =>
      rw [hslot] at hagree
      exact ⟨slot, rfl, hagree⟩
  · intro hnone
    rw [Graph.definition?_of_none hnone] at hagree
    cases hslot : (m.world.image.table t)[n]? with
    | none => rfl
    | some slot => rw [hslot] at hagree; exact hagree.elim

/-- The modules' definition hides the kernel's. -/
theorem table_eq_reopened :
    (reopened.world.image.graph.node .moduleRoot).target = some .moduleBase ∧
    ∃ slot, (reopened.world.image.table .moduleBase)[Symbol.inspect]? = some slot ∧
      slot.sameAs (.chained (.program 0 true)) = true := by
  have h := reached_reopened { prompt := true }
  have ht := (h.sane.sound.target_iff .moduleRoot .moduleBase).2 rfl
  refine ⟨ht, (h.table_eq rfl ht .inspect).1 [.gate, .kernel] [] .moduleRoot (.program 0 true) ?_ ?_
    nofun⟩
  · decide +kernel
  · decide +kernel

end Machine

end Mixin
