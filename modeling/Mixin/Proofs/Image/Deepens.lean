import Mixin.Proofs.Graph.Merge
import Mixin.Proofs.Image.Chains
import Mixin.Proofs.Image.Coherent

/-! Making an eigenclass puts an empty module at the end of what a receiver answers through. What was
there before stays as it was, so ancestries only get longer, and no receiver can tell by what it
answers to. -/

namespace Mixin

namespace Graph

variable {g g' : Graph} {m : ModuleId}

theorem linearize_of_included {p : ModuleId} (hin : (g.node m).included = [p])
    (hp : ¬ g.Reaches p m) : g.linearize m = g.linearize p ++ [m] := by
  have hnodup : (g.linearize p ++ [m]).Nodup := by
    refine List.nodup_append.2 ⟨g.linearize_nodup p, List.nodup_singleton m, ?_⟩
    rintro x hx y hy rfl
    rw [List.mem_singleton.1 hy] at hx
    exact hp (mem_linearize.1 hx)
  rw [linearize_eq_eraseDups (hin ▸ fun b hb => List.mem_singleton.1 hb ▸ hp), hin,
    List.flatMap_cons, List.flatMap_nil, List.append_nil, eraseDups_of_nodup hnodup]

theorem linearize_of_live (hg : g.Sound) (hm : g.Live m)
    (hin : ∀ a, g.Live a → (g'.node a).included = (g.node a).included) :
    g'.linearize m = g.linearize m :=
  linearize_congr fun _ hx => hin _ (hg.live_of_reaches hm hx)

end Graph

namespace Image

variable {s s' s'' : Image}

/-- The module an eigenclass line answers through: the nearest eigenclass on it, or the class root. -/
def lineModule (s : Image) (line : List ClassId) : ModuleId :=
  ((line.find? fun c => (s.eigenclass? (.class c)).isSome).bind fun owner =>
    s.eigenclass? (.class owner)).getD .classRoot

theorem effectiveModule_class (c : ClassId) :
    s.effectiveModule (.class c) = s.lineModule (s.lineOf c) := rfl

theorem lineModule_nil : s.lineModule [] = .classRoot := rfl

theorem lineModule_cons (c : ClassId) (above : List ClassId) :
    s.lineModule (c :: above) = (s.eigenclass? (.class c)).getD (s.lineModule above) := by
  unfold lineModule
  rw [List.find?_cons]
  cases h : s.eigenclass? (.class c) with
  | none => rfl
  | some e =>
    simp only [Option.isSome_some, Option.bind_some, h]
    rfl

/-- The module is an eigenclass that was not there before, and it is empty. -/
structure Added (s s' : Image) (e : ModuleId) : Prop where
  new : ¬ s.graph.Live e
  live : s'.graph.Live e
  target : ∃ r, (s'.graph.node e).target = some (.singleton r)
  methods : (s'.graph.node e).methods = ∅
  hidden : (s'.graph.node e).hidden = false

/-- Modules that were there are as they were, and ancestries have at most got longer by empty
eigenclasses. -/
structure Deepens (s s' : Image) : Prop where
  alive : ∀ r, s.Alive r → s'.Alive r
  included : ∀ m, s.graph.Live m → (s'.graph.node m).included = (s.graph.node m).included
  methods : ∀ m, s.graph.Live m → (s'.graph.node m).methods = (s.graph.node m).methods
  hidden : ∀ m, s.graph.Live m → (s'.graph.node m).hidden = (s.graph.node m).hidden
  target : ∀ m, s.graph.Live m → (s'.graph.node m).target = (s.graph.node m).target
  classes : s'.classes.size = s.classes.size
  instanceModule : ∀ c, s'.instanceModule c = s.instanceModule c
  superclass : ∀ c, s'.superclass c = s.superclass c
  deeper : ∀ r, s.Alive r → ∃ added : List ModuleId,
    s'.graph.linearize (s'.effectiveModule r) = s.graph.linearize (s.effectiveModule r) ++ added ∧
      ∀ e ∈ added, s.Added s' e

namespace Deepens

theorem refl (s : Image) : Deepens s s where
  alive _ hr := hr
  included _ _ := rfl
  methods _ _ := rfl
  hidden _ _ := rfl
  target _ _ := rfl
  classes := rfl
  instanceModule _ := rfl
  superclass _ := rfl
  deeper _ _ := ⟨[], by rw [List.append_nil], fun _ he => absurd he List.not_mem_nil⟩

theorem live (h : Deepens s s') {m : ModuleId} (hm : s.graph.Live m) : s'.graph.Live m :=
  h.alive (.module m) hm

theorem trans (h : Deepens s s') (h' : Deepens s' s'') : Deepens s s'' where
  alive r hr := h'.alive r (h.alive r hr)
  included m hm := (h'.included m (h.live hm)).trans (h.included m hm)
  methods m hm := (h'.methods m (h.live hm)).trans (h.methods m hm)
  hidden m hm := (h'.hidden m (h.live hm)).trans (h.hidden m hm)
  target m hm := (h'.target m (h.live hm)).trans (h.target m hm)
  classes := h'.classes.trans h.classes
  instanceModule c := (h'.instanceModule c).trans (h.instanceModule c)
  superclass c := (h'.superclass c).trans (h.superclass c)
  deeper r hr := by
    obtain ⟨added, hline, hadded⟩ := h.deeper r hr
    obtain ⟨added', hline', hadded'⟩ := h'.deeper r (h.alive r hr)
    refine ⟨added ++ added', by rw [hline', hline, List.append_assoc], fun e he => ?_⟩
    rcases List.mem_append.1 he with he | he
    · obtain ⟨hnew, hlive, ⟨a, ha⟩, hm, hh⟩ := hadded e he
      exact ⟨hnew, h'.live hlive, ⟨a, (h'.target e hlive).trans ha⟩,
        (h'.methods e hlive).trans hm, (h'.hidden e hlive).trans hh⟩
    · obtain ⟨hnew, hlive, ht, hm, hh⟩ := hadded' e he
      exact ⟨fun hold => hnew (h.live hold), hlive, ht, hm, hh⟩

end Deepens

section New

variable (hs : s.Sound) {r : Receiver} (hr : s.Alive r) {p : ModuleId} (hp : s.parent? r = some p)
include hs hr hp

theorem node_materialize_of_live {a : ModuleId} (ha : s.graph.Live a) :
    ∃ dependents, (s.materialize r p).2.graph.node a = { s.graph.node a with dependents } := by
  have hlive := hs.live_addEigenclass r
  have hne : a ≠ (s.addEigenclass r).1 := by
    rintro rfl
    exact s.graph.alloc_fresh _ ha
  have hnode := Graph.node_addEdge (a := a) ((hlive _).2 (.inl rfl))
    ((hlive p).2 (.inr (hs.live_parent hr hp)))
  rw [if_neg hne, graph_addEigenclass, hs.graph.node_alloc_of_live ha] at hnode
  rw [materialize_eq, graph_link, graph_addEigenclass, hnode]
  dsimp only
  split
  · exact ⟨_, rfl⟩
  · exact ⟨_, rfl⟩

theorem node_materialize_new : (s.materialize r p).2.graph.node (s.materialize r p).1 =
    { included := [p], target := some (.singleton r) } := by
  have hlive := hs.live_addEigenclass r
  have hp' := hs.live_parent hr hp
  have hne : (s.addEigenclass r).1 ≠ p := by
    rintro rfl
    exact s.graph.alloc_fresh _ hp'
  have hnode := Graph.node_addEdge (a := (s.addEigenclass r).1) ((hlive _).2 (.inl rfl))
    ((hlive p).2 (.inr hp'))
  rw [if_pos rfl, graph_addEigenclass, hs.graph.node_alloc] at hnode
  rw [materialize_eq, graph_link, graph_addEigenclass, hnode]
  dsimp only
  rw [if_neg hne]
  exact congrArg (Node.addIncluded p) (if_pos rfl)

theorem linearize_materialize :
    (s.materialize r p).2.graph.linearize (s.materialize r p).1 =
      s.graph.linearize p ++ [(s.materialize r p).1] := by
  have hfresh : ¬ s.graph.Live (s.materialize r p).1 := s.graph.alloc_fresh _
  have hlive := hs.live_parent hr hp
  have hold : (s.materialize r p).2.graph.linearize p = s.graph.linearize p := by
    refine Graph.linearize_of_live hs.graph hlive fun a ha => ?_
    obtain ⟨dependents, hnode⟩ := node_materialize_of_live hs hr hp ha
    rw [hnode]
  have hreach : ¬ (s.materialize r p).2.graph.Reaches p (s.materialize r p).1 := by
    intro h
    rw [← Graph.mem_linearize, hold, Graph.mem_linearize] at h
    exact hfresh (hs.graph.live_of_reaches hlive h)
  have hin : ((s.materialize r p).2.graph.node (s.materialize r p).1).included = [p] := by
    rw [node_materialize_new hs hr hp]
  rw [Graph.linearize_of_included hin hreach, hold]

end New

section Materialize

variable (hs : s.Sound) {r : Receiver} (hr : s.Alive r) (hn : s.eigenclass? r = none)
  {p : ModuleId} (hp : s.parent? r = some p)
include hs hr hn hp

theorem size_materialize : (s.materialize r p).2.classes.size = s.classes.size := by
  rw [(akin_materialize hs hr hn hp).classes, addEigenclass, size_classes_updateSingleton]

theorem instanceModule_materialize (c : ClassId) :
    (s.materialize r p).2.instanceModule c = s.instanceModule c := by
  rw [(akin_materialize hs hr hn hp).instanceModule, addEigenclass,
    instanceModule_updateSingleton]
  rfl

/-- On a line of classes only the class itself is moved to its new eigenclass, from the module that
the eigenclass includes. -/
theorem lineModule_materialize {x : Option ClassId} {line : List ClassId} (hl : Line s x line) :
    (s.materialize r p).2.lineModule line = s.lineModule line ∨
      s.lineModule line = p ∧ (s.materialize r p).2.lineModule line = (s.materialize r p).1 := by
  induction hl with
  | root => exact .inl (by rw [lineModule_nil, lineModule_nil])
  | @step c above hc hl ih =>
    rw [lineModule_cons, lineModule_cons, eigenclass_materialize hs hr hn hp]
    by_cases hcr : Receiver.class c = r
    · subst hcr
      refine .inr ⟨?_, by rw [if_pos rfl, Option.getD_some]⟩
      rw [hn, Option.getD_none]
      cases hsup : s.superclass c with
      | none =>
        rw [hsup] at hl
        cases hl
        simp only [parent?, hsup] at hp
        exact Option.some.inj hp
      | some b =>
        rw [hsup] at hl
        cases hl
        simp only [parent?, hsup] at hp
        rw [lineModule_cons, hp]
        rfl
    · rw [if_neg hcr]
      cases s.eigenclass? (.class c) with
      | some e => exact .inl (by rw [Option.getD_some, Option.getD_some])
      | none => rwa [Option.getD_none, Option.getD_none]

/-- A receiver answers through the module it answered through before, or through the new eigenclass
in place of the module that this includes. -/
theorem effectiveModule_materialize {a : Receiver} (ha : s.Alive a) :
    (s.materialize r p).2.effectiveModule a = s.effectiveModule a ∨
      s.effectiveModule a = p ∧
        (s.materialize r p).2.effectiveModule a = (s.materialize r p).1 := by
  have hakin := akin_materialize hs hr hn hp
  have heigen := eigenclass_materialize hs hr hn hp a
  cases a with
  | object o =>
    have hclass : (s.materialize r p).2.classOf o = s.classOf o := by
      rw [hakin.classOf, addEigenclass, classOf_updateSingleton]
      rfl
    have heff : ∀ s : Image, s.effectiveModule (.object o) =
        (s.eigenclass? (.object o)).getD (s.instanceModule (s.classOf o)) := fun _ => rfl
    rw [heff, heff, heigen, hclass, instanceModule_materialize hs hr hn hp]
    by_cases hor : Receiver.object o = r
    · subst hor
      refine .inr ⟨?_, by rw [if_pos rfl, Option.getD_some]⟩
      rw [hn]
      exact Option.some.inj hp
    · rw [if_neg hor]
      exact .inl rfl
  | «class» c =>
    rw [effectiveModule_class, effectiveModule_class,
      lineOf_congr (superclass_materialize hs hr hn hp) (size_materialize hs hr hn hp)]
    exact lineModule_materialize hs hr hn hp (hs.line_lineOf ha)
  | module b =>
    have heff : ∀ s : Image, s.effectiveModule (.module b) =
        (s.eigenclass? (.module b)).getD .moduleRoot := fun _ => rfl
    rw [heff, heff, heigen]
    by_cases hbr : Receiver.module b = r
    · subst hbr
      refine .inr ⟨?_, by rw [if_pos rfl, Option.getD_some]⟩
      rw [hn]
      exact Option.some.inj hp
    · rw [if_neg hbr]
      exact .inl rfl

theorem deepens_materialize : Deepens s (s.materialize r p).2 := by
  have hnode := fun {a} => node_materialize_of_live (a := a) hs hr hp
  have hper := (becomes_materialize hr hn hp).persists (fun _ => True) hs fun e he => by
    cases e <;> trivial
  have hlive : ∀ a, s.graph.Live a → (s.materialize r p).2.graph.Live a := fun a ha =>
    (hper.module a ha fun _ _ => trivial).1
  refine ⟨fun a ha => ?_, fun a ha => ?_, fun a ha => ?_, fun a ha => ?_, fun a ha => ?_,
    size_materialize hs hr hn hp, instanceModule_materialize hs hr hn hp,
    superclass_materialize hs hr hn hp, fun a ha => ?_⟩
  · cases a with
    | object o => exact (hper.object o ha trivial).1
    | «class» c => exact hper.liveClass c ha
    | module m => exact hlive m ha
  · obtain ⟨_, h⟩ := hnode ha
    rw [h]
  · obtain ⟨_, h⟩ := hnode ha
    rw [h]
  · obtain ⟨_, h⟩ := hnode ha
    rw [h]
  · obtain ⟨_, h⟩ := hnode ha
    rw [h]
  · rcases effectiveModule_materialize hs hr hn hp ha with heff | ⟨heff, heff'⟩
    · refine ⟨[], ?_, fun _ he => absurd he List.not_mem_nil⟩
      rw [heff, List.append_nil]
      refine Graph.linearize_of_live hs.graph (hs.live_effectiveModule ha.known) fun b hb => ?_
      obtain ⟨_, h⟩ := hnode hb
      rw [h]
    · refine ⟨[(s.materialize r p).1], ?_, fun e he => ?_⟩
      · rw [heff, heff', linearize_materialize hs hr hp]
      · obtain rfl := List.mem_singleton.1 he
        have hnew := node_materialize_new hs hr hp
        refine ⟨s.graph.alloc_fresh _, ?_, ⟨r, by rw [hnew]⟩, by rw [hnew], by rw [hnew]⟩
        rw [(akin_materialize hs hr hn hp).live, hs.live_addEigenclass]
        exact .inl rfl

end Materialize

/-- Making eigenclasses adds to ancestries and changes nothing else. -/
theorem deepens_of_materializes (hs : s.Sound) (h : Becomes Edit.Materializes s s') :
    Deepens s s' := by
  refine (h.invariant (I := Deepens s) hs (.refl s) fun s₁ e hs₁ he hsafe hdeep => ?_).2
  cases e with
  | materialize r p => exact hdeep.trans (deepens_materialize hs₁ hsafe.1 hsafe.2.1 hsafe.2.2)
  | _ => exact he.elim

theorem lineOf_eq_cons {c : ClassId} (hc : s.LiveClass c) : ∃ above, s.lineOf c = c :: above := by
  have hsize : 0 < s.classes.size := Nat.lt_of_le_of_lt (Nat.zero_le _) hc
  unfold lineOf
  obtain ⟨budget, hbudget⟩ := Nat.exists_eq_succ_of_ne_zero (Nat.ne_of_gt hsize)
  rw [hbudget]
  exact ⟨_, rfl⟩

theorem eigenclass_of_some {a : Receiver} {e : ModuleId} (h : s.eigenclass? a = some e) :
    s.eigenclass a = (e, s) := by
  cases a with
  | object o => simp only [eigenclass, h]
  | «class» c =>
    obtain ⟨above, habove⟩ := lineOf_eq_cons (hasRecord_of_eigenclass h)
    simp only [eigenclass, habove, classEigenclass, h]
  | module m => simp only [eigenclass, h]

def Existing (s : Image) : Ancestor → Prop
  | .class c => s.LiveClass c
  | .module m => s.graph.Live m

theorem Sound.live_moduleOf (hs : s.Sound) {x : Ancestor} (hx : s.Existing x) :
    s.graph.Live (s.moduleOf x) := by
  cases x with
  | «class» c => exact hs.live_instanceModule hx
  | module m => exact hx

theorem Sound.live_of_mem_ancestors (hs : s.Sound) {r : Receiver} (hr : s.Alive r) {a : ModuleId}
    (ha : a ∈ s.graph.ancestors (s.effectiveModule r)) : s.graph.Live a :=
  hs.graph.live_of_reaches (hs.live_effectiveModule hr.known) (Graph.mem_ancestors.1 ha).1

namespace Deepens

variable (h : Deepens s s')
include h

theorem moduleOf (x : Ancestor) : s'.moduleOf x = s.moduleOf x := by
  cases x with
  | «class» c => exact h.instanceModule c
  | module m => rfl

variable (hs : s.Sound) {r : Receiver} (hr : s.Alive r)
include hs hr

/-- What is read off the modules of the ancestry in turn is the same, if the empty ones give nothing. -/
theorem filterMap_eq {α : Type} {f f' : ModuleId → Option α}
    (hf : ∀ a, s.graph.Live a → f' a = f a) (hadded : ∀ e, s.Added s' e → f' e = none) :
    (s'.graph.linearize (s'.effectiveModule r)).filterMap f' =
      (s.graph.linearize (s.effectiveModule r)).filterMap f := by
  obtain ⟨added, hline, hempty⟩ := h.deeper r hr
  rw [hline, List.filterMap_append, List.filterMap_eq_nil_iff.2 fun e he => hadded e (hempty e he),
    List.append_nil]
  refine List.filterMap_congr fun a ha => hf a ?_
  exact hs.graph.live_of_reaches (hs.live_effectiveModule hr.known) (Graph.mem_linearize.1 ha)

theorem definition?_eq (n : Symbol) : s'.graph.definition? (s'.effectiveModule r) n =
    s.graph.definition? (s.effectiveModule r) n := by
  unfold Graph.definition?
  refine congrArg List.getLast? (h.filterMap_eq hs hr (fun a ha => ?_) fun e he => ?_)
  · rw [h.methods a ha]
  · rw [he.methods]
    rfl

theorem agree_slot (hc : s.Coherent) (hs' : s'.Sound) (hc' : s'.Coherent) (n : Symbol) :
    Slot.Agree (s.slot? r n) (s'.slot? r n) := by
  obtain ⟨t, ht, htable⟩ := hs.target_effectiveModule hr.known
  obtain ⟨t', ht', htable'⟩ := hs'.target_effectiveModule (h.alive r hr).known
  have hagree := hc _ t ht id n
  have hagree' := hc' _ t' ht' id n
  rw [h.definition?_eq hs hr] at hagree'
  rw [Image.slot?, Image.slot?, ← htable, ← htable']
  exact hagree.trans hagree'.symm

theorem ancestors_eq : ∃ added : List ModuleId,
    s'.graph.ancestors (s'.effectiveModule r) =
      s.graph.ancestors (s.effectiveModule r) ++ added ∧ ∀ e ∈ added, s.Added s' e := by
  obtain ⟨added, hline, hadded⟩ := h.deeper r hr
  refine ⟨added, ?_, hadded⟩
  rw [Graph.ancestors_eq_filter, Graph.ancestors_eq_filter, hline, List.filter_append,
    List.filter_eq_self (l := added).2 fun e he => by rw [(hadded e he).hidden]; rfl]
  congr 1
  refine List.filter_congr fun a ha => ?_
  rw [h.hidden a]
  exact hs.graph.live_of_reaches (hs.live_effectiveModule hr.known) (Graph.mem_linearize.1 ha)

theorem lookup_eq (n : Symbol) : s'.lookup r n = s.lookup r n := by
  obtain ⟨added, hline, hadded⟩ := h.ancestors_eq hs hr
  unfold lookup Graph.chain
  have hnone : added.filterMap (fun a => (s'.graph.node a).methods[n]?) = [] :=
    List.filterMap_eq_nil_iff.2 fun e he => by rw [(hadded e he).methods]; rfl
  rw [hline, List.filterMap_append, hnone, List.append_nil]
  refine List.filterMap_congr fun a ha => ?_
  rw [h.methods a (hs.live_of_mem_ancestors hr ha)]

theorem ancestorsOf_eq : ∃ added : List ModuleId,
    s'.ancestorsOf r = s.ancestorsOf r ++ added.map .module ∧ ∀ e ∈ added, s.Added s' e := by
  obtain ⟨added, hline, hadded⟩ := h.ancestors_eq hs hr
  refine ⟨added, ?_, hadded⟩
  unfold ancestorsOf ancestorEntries
  rw [hline, List.map_append]
  congr 1
  · refine List.map_congr_left fun a ha => ?_
    rw [ancestorEntry, ancestorEntry, h.target a (hs.live_of_mem_ancestors hr ha)]
  · refine List.map_congr_left fun e he => ?_
    obtain ⟨a, ha⟩ := (hadded e he).target
    rw [ancestorEntry, ha]

theorem isA_eq {x : Ancestor} (hx : s.Existing x) : s'.isA r x = s.isA r x := by
  obtain ⟨added, hline, hadded⟩ := h.deeper r hr
  have hlive := hs.live_moduleOf hx
  rw [Bool.eq_iff_iff, isA, isA, Graph.includes_iff, Graph.includes_iff, h.moduleOf,
    ← Graph.mem_linearize, ← Graph.mem_linearize, hline, List.mem_append]
  exact or_iff_left fun he => (hadded _ he).new hlive

end Deepens

end Image

end Mixin
