import Mixin.Proofs.Coherence
import Mixin.Proofs.Image.Moored
import Mixin.Proofs.Image.Rooted
import Mixin.Proofs.Image.Shown

/-! What a module that stands for something includes first. The module of a class starts with that of
its superclass, an eigenclass with what its receiver would answer through without it, and whatever is
included later comes behind. A release takes edges away, but the eigenclass of an object is nobody's
first. -/

namespace Mixin

theorem Graph.Sound.included_alloc_addEdge {g : Graph} (hg : g.Sound) {n : Node}
    (hn : n.included = []) {p : ModuleId} (hp : g.Live p) (a : ModuleId) :
    (((g.alloc n).2.addEdge (g.alloc n).1 p).node a).included =
      if a = (g.alloc n).1 then [p] else (g.node a).included := by
  rw [included_addEdge (hg.live_alloc.2 (.inl rfl)) (hg.live_alloc.2 (.inr hp)), hg.node_alloc]
  split
  · rw [hn]
    rfl
  · rfl

namespace Image

variable {s s' : Image} {t : Target} {m p : ModuleId}

/-- The module that the holder of a target descends from. -/
def parentOf? (s : Image) : Target → Option ModuleId
  | .prototype c => some (s.classParent (s.superclass c))
  | .singleton r => s.parent? r
  | .classBase => some .moduleRoot
  | .moduleBase => some .kernel

/-- Everything that stands for something includes first what it descends from. So a class with an
eigenclass has a superclass with one. -/
def Descended (s : Image) : Prop :=
  ∀ t m, s.holder? t = some m →
    ∃ p rest, s.parentOf? t = some p ∧ (s.graph.node m).included = p :: rest

def Standing (s : Image) : Target → Prop
  | .prototype c | .singleton (.class c) => s.LiveClass c
  | .singleton (.object o) => s.LiveClass (s.classOf o)
  | .singleton (.module _) | .classBase | .moduleBase => True

theorem Sound.standing_of_alive (hs : s.Sound) {r : Receiver} (hr : s.Alive r) :
    s.Standing (.singleton r) := by
  cases r with
  | object o => exact hs.classOf_live o hr
  | «class» c => exact hr
  | module a => trivial

theorem Sound.standing (hs : s.Sound) (hm : s.holder? t = some m) : s.Standing t := by
  cases t with
  | prototype c => exact liveClass_of_holder hm
  | singleton r =>
    cases r with
    | object o => exact hs.classOf_live o (hs.liveObject_of_eigenclass hm)
    | «class» c => exact hasRecord_of_eigenclass (r := .class c) hm
    | module a => trivial
  | classBase => trivial
  | moduleBase => trivial

/-- A target descends from the same module while classes stay and keep their eigenclasses. -/
theorem Sound.parentOf_mono (hs : s.Sound)
    (hsup : ∀ c, s.LiveClass c → s'.superclass c = s.superclass c)
    (hinstance : ∀ c, s.LiveClass c → s'.instanceModule c = s.instanceModule c)
    (heigen : ∀ c e, s.eigenclass? (.class c) = some e → s'.eigenclass? (.class c) = some e)
    (hclass : ∀ o, t = .singleton (.object o) → s'.classOf o = s.classOf o)
    (ht : s.Standing t) (hp : s.parentOf? t = some p) : s'.parentOf? t = some p := by
  cases t with
  | prototype c =>
    rw [← hp, parentOf?, parentOf?, hsup c ht]
    cases habove : s.superclass c with
    | none => rfl
    | some above => rw [classParent, classParent, hinstance above (hs.superclass_live habove)]
  | singleton r =>
    cases r with
    | object o => rw [← hp, parentOf?, parentOf?, parent?, parent?, hclass o rfl, hinstance _ ht]
    | «class» c =>
      rw [parentOf?, parent?] at hp ⊢
      rw [hsup c ht]
      cases habove : s.superclass c with
      | none => rwa [habove] at hp
      | some above =>
        rw [habove] at hp
        exact heigen above p hp
    | module a => exact hp
  | classBase => exact hp
  | moduleBase => exact hp

theorem Akin.parentOf? (h : Akin s s') (t : Target) : s'.parentOf? t = s.parentOf? t := by
  have hparent : ∀ above, s'.classParent above = s.classParent above := by
    rintro (_ | c)
    · rfl
    · exact h.instanceModule c
  cases t with
  | prototype c => rw [Image.parentOf?, Image.parentOf?, h.superclass, hparent]
  | singleton r =>
    cases r with
    | object o =>
      simp only [Image.parentOf?, parent?, h.classOf, h.instanceModule]
    | «class» c => simp only [Image.parentOf?, parent?, h.superclass, h.eigenclass]
    | module a => rfl
  | classBase => rfl
  | moduleBase => rfl

theorem Sound.parentOf_ne (hs : s.Sound) (ht : s.Standing t) (hp : s.parentOf? t = some p)
    (o : ObjectId) : s.eigenclass? (.object o) ≠ some p := by
  intro ho
  have htarget := (hs.target_iff p (.singleton (.object o))).2 ho
  have honly : ∀ t', s.holder? t' = some p → t' = .singleton (.object o) := fun t' ht' =>
    Option.some.inj (((hs.target_iff p t').2 ht').symm.trans htarget)
  have hkernel : p ≠ .kernel := by
    rintro rfl
    rw [hs.target_kernel] at htarget
    cases htarget
  have hclass : ∀ c, s.LiveClass c → s.instanceModule c ≠ p := by
    rintro c hc rfl
    cases honly (.prototype c) (if_pos hc)
  cases t with
  | prototype c =>
    rw [parentOf?] at hp
    cases habove : s.superclass c with
    | none =>
      rw [habove] at hp
      exact hkernel (Option.some.inj hp).symm
    | some above =>
      rw [habove] at hp
      exact hclass above (hs.superclass_live habove) (Option.some.inj hp)
  | singleton r =>
    cases r with
    | object a => exact hclass _ ht (Option.some.inj hp)
    | «class» c =>
      rw [parentOf?, parent?] at hp
      cases habove : s.superclass c with
      | none =>
        rw [habove] at hp
        cases honly .classBase hp
      | some above =>
        rw [habove] at hp
        cases honly (.singleton (.class above)) hp
    | module a => cases honly .moduleBase hp
  | classBase => cases honly .moduleBase hp
  | moduleBase => exact hkernel (Option.some.inj hp).symm

/-- Where receivers, classes and targets stay, new edges come behind. -/
theorem Descended.akin (h : s.Descended) (ha : Akin s s')
    (hin : ∀ m, (s.graph.node m).included <+: (s'.graph.node m).included) : s'.Descended := by
  intro t m hm
  rw [ha.holder?] at hm
  obtain ⟨p, rest, hp, hfirst⟩ := h t m hm
  obtain ⟨new, hnew⟩ := hin m
  exact ⟨p, rest ++ new, (ha.parentOf? t).trans hp, by rw [← hnew, hfirst, List.cons_append]⟩

theorem Descended.same (h : s.Descended) (ha : Akin s s')
    (hin : ∀ m, (s'.graph.node m).included = (s.graph.node m).included) : s'.Descended :=
  h.akin ha fun m => by rw [hin]

namespace Descended

variable (hs : s.Sound) (h : s.Descended)
include hs h

theorem materialize {r : Receiver} (hr : s.Alive r) (hn : s.eigenclass? r = none)
    (hp : s.parent? r = some p) : (s.materialize r p).2.Descended := by
  have hakin := akin_materialize hs hr hn hp
  have heigen := eigenclass_addEigenclass hr.hasRecord
  have hmono : ∀ t q, s.Standing t → s.parentOf? t = some q →
      (s.addEigenclass r).2.parentOf? t = some q := fun t q =>
    hs.parentOf_mono (fun c _ => superclass_addEigenclass r c)
      (fun c _ => (instanceModule_updateSingleton r _ c).trans rfl)
      (fun c e he => by rw [heigen, if_neg (fun hc => by rw [hc, hn] at he; cases he), he])
      fun o _ => classOf_addEigenclass r o
  have hin := hs.graph.included_alloc_addEdge (n := { target := some (.singleton r) }) rfl
    (hs.live_parent hr hp)
  rw [← graph_addEigenclass, ← graph_link] at hin
  intro t m hm
  rw [hakin.holder?, holder_addEigenclass hr.hasRecord] at hm
  rw [hakin.parentOf?]
  split at hm
  · rename_i ht
    obtain rfl := Option.some.inj hm
    rw [ht]
    exact ⟨p, [], hmono _ p (hs.standing_of_alive hr) hp, (hin _).trans (if_pos rfl)⟩
  · obtain ⟨q, rest, hq, hfirst⟩ := h t m hm
    have hne : m ≠ (s.addEigenclass r).1 := by
      rintro rfl
      exact hs.holder_ne_alloc _ hm
    exact ⟨q, rest, hmono t q (hs.standing hm) hq, ((hin m).trans (if_neg hne)).trans hfirst⟩

theorem makeClass (a : Symbol) {above : Option ClassId}
    (habove : ∀ c, above = some c → s.LiveClass c) : (s.makeClass a above).Descended := by
  have hakin := akin_makeClass hs a habove
  have hdata := fun c => classData_addClass (s := s) a above c
  have hold : ∀ c, s.LiveClass c → (s.addClass a above).2.classData c = s.classData c := by
    intro c hc
    refine (hdata c).trans (if_neg ?_)
    rintro rfl
    exact Nat.lt_irrefl _ hc
  have hin := hs.graph.included_alloc_addEdge
    (n := { name := some a, target := some (.prototype ⟨s.classes.size⟩) }) rfl
    (hs.live_classParent habove)
  intro t m hm
  rw [hakin.holder?, holder_addClass] at hm
  rw [hakin.parentOf?, makeClass_eq, graph_link, classParent_addClass a habove]
  split at hm
  · rename_i ht
    obtain rfl := Option.some.inj hm
    refine ⟨s.classParent above, [], ?_, (hin _).trans (if_pos rfl)⟩
    rw [ht, parentOf?, superclass, hdata, if_pos rfl, classParent_addClass a habove]
  · obtain ⟨q, rest, hq, hfirst⟩ := h t m hm
    have hne : m ≠ (s.addClass a above).1 := by
      rintro rfl
      exact hs.holder_ne_alloc _ hm
    refine ⟨q, rest, ?_, ((hin m).trans (if_neg hne)).trans hfirst⟩
    exact hs.parentOf_mono (fun c hc => congrArg ClassData.superclass (hold c hc))
      (fun c hc => congrArg ClassData.instanceModule (hold c hc))
      (fun c e he => (eigenclass_addClass ..).trans he) (fun _ _ => rfl) (hs.standing hm) hq

theorem allocate (c : ClassId) : (s.allocate c).2.Descended := by
  obtain ⟨hgraph, hclasses, -⟩ := s.allocate_rest c
  intro t m hm
  have hm' := holder_of_allocate hm
  obtain ⟨q, rest, hq, hfirst⟩ := h t m hm'
  refine ⟨q, rest, ?_, by rw [hgraph, hfirst]⟩
  refine hs.parentOf_mono (fun c _ => ?_) (fun c _ => ?_) (fun d e he => ?_) (fun o ho => ?_)
    (hs.standing hm') hq
  · rw [superclass, classData, hclasses]
    rfl
  · rw [instanceModule, classData, hclasses]
    rfl
  · rw [eigenclass_allocate hs, he]
  · have hne : o ≠ (s.allocate c).1 := by
      rintro rfl
      subst ho
      exact allocate_fresh hs c (hs.liveObject_of_eigenclass hm')
    rw [classOf, objectData_allocate hs, if_neg hne]
    rfl

/-- What is first is still there, for it is not what the release takes away. -/
theorem drop {o : ObjectId} (ho : s.LiveObject o) : (s.drop o).Descended := by
  intro t m hm
  rw [holder_drop ho] at hm
  split at hm
  · cases hm
  rename_i hne
  obtain ⟨q, rest, hq, hfirst⟩ := h t m hm
  have hmono : (s.drop o).parentOf? t = some q := by
    refine hs.parentOf_mono (fun _ _ => rfl) (fun _ _ => rfl) (fun _ _ he => he) (fun a ha => ?_)
      (hs.standing hm) hq
    have hao : a ≠ o := fun hao => hne (ha.trans (by rw [hao]))
    rw [classOf, objectData_drop ho.1, if_neg hao]
    rfl
  have hkept := hs.parentOf_ne (hs.standing hm) hq o
  have htarget := (hs.target_iff m t).2 hm
  unfold Image.drop at hmono ⊢
  dsimp only at hmono ⊢
  split
  · rename_i e he
    have hlive := hs.live_eigenclass he
    have hself : m ≠ e := by
      rintro rfl
      rw [(hs.target_iff m (.singleton (.object o))).2 he] at htarget
      exact hne (Option.some.inj htarget).symm
    have hqe : q ≠ e := fun hqe => hkept (hqe ▸ he)
    rw [he] at hmono
    refine ⟨q, rest.filter (· ≠ e), hmono, ?_⟩
    rw [hs.graph.node_remove hlive, if_neg hself]
    show (s.graph.node m).included.filter (· ≠ e) = _
    rw [hfirst, List.filter_cons, if_pos (decide_eq_true hqe)]
  · rename_i he
    rw [he] at hmono
    exact ⟨q, rest, hmono, hfirst⟩

end Descended

end Image

theorem Edit.descended {s : Image} (hs : s.Sound) {e : Edit} (hsafe : e.Safe s)
    (h : s.Descended) : (e.apply s).Descended := by
  cases e with
  | addModule name =>
    intro t m hm
    obtain ⟨p, rest, hp, hfirst⟩ := h t m hm
    refine ⟨p, rest, hp, ?_⟩
    show ((s.graph.alloc { name := some name }).2.node m).included = _
    rw [hs.graph.node_alloc_of_live (hs.live_holder hm), hfirst]
  | materialize r p => exact h.materialize hs hsafe.1 hsafe.2.1 hsafe.2.2
  | makeClass a above => exact h.makeClass hs a hsafe
  | allocate c => exact h.allocate hs c
  | release o =>
    refine (h.drop hs hsafe).same (Image.akin_release hs hsafe) fun m => ?_
    show ((s.release o).graph.node m).included = _
    rw [Image.release_eq hsafe.2, Image.graph_foldl_resolve]
  | define owner name m resolving =>
    exact h.same (.define hs hsafe name m resolving) (Image.included_define hs hsafe name m resolving)
  | link owner other resolving =>
    refine h.akin (.link hs hsafe.1 hsafe.2 resolving) fun m => ?_
    show _ <+: ((s.link owner other resolving).graph.node m).included
    rw [Image.graph_link, Graph.included_addEdge hsafe.1 hsafe.2]
    split
    · exact List.prefix_append _ _
    · exact List.prefix_refl _
  | watchNow name =>
    refine h.same (.watchNow hs name) fun m => ?_
    show ((s.watchNow name).graph.node m).included = _
    unfold Image.watchNow
    split
    · rw [Image.graph_resolve, Image.included_watch hs]
    · rfl
  | setHooks a f =>
    refine h.same (.setHooks hsafe f) fun m => ?_
    obtain ⟨hooks, hnode⟩ := Image.node_setHooks hsafe f m
    exact (congrArg Node.included hnode :)
  | resolve a =>
    exact h.same (.resolve hs a) fun m => by rw [Edit.apply, Image.graph_resolve]
  | remember r name =>
    exact h.same (.chainFor hsafe name) fun m => by rw [Edit.apply, Image.graph_chainFor]
  | intern | store | setDescribing | observe =>
    exact h.same (Edit.akin hs hsafe trivial) fun _ => rfl

theorem Setup.descended_boot (u : Setup) : u.boot.Descended := by
  obtain ⟨s, names, hseed, heq⟩ := u.boot_eq
  have hs := hseed.sound
  have hfold := Image.akin_foldl_watch hs names
  have hroots : s.Descended := by
    obtain ⟨a, b, c, hg⟩ := hseed.graph
    intro t m hm
    rw [hg, Graph.included_seed, Graph.node_frame]
    cases t with
    | prototype c => simp [Image.holder?, hseed.classes] at hm
    | singleton r => simp [Image.holder?, Image.eigenclass?, hseed.singleton_eq] at hm
    | classBase =>
      obtain rfl := Option.some.inj hm
      exact ⟨.moduleRoot, [], rfl, rfl⟩
    | moduleBase =>
      obtain rfl := Option.some.inj hm
      exact ⟨.kernel, [], rfl, rfl⟩
  have hwatched := hroots.same hfold (Image.included_foldl_watch hs names)
  rw [heq]
  exact hwatched.same (.resolve (hfold.sound hs) .gate) fun m => by rw [Image.graph_resolve]

namespace Machine

variable {ω : Type} {k : Manners} {u : Setup} {m : Machine ω}

theorem Reached.descended (h : m.Reached k u) : m.world.image.Descended :=
  h.invariant u.descended_boot fun _ _ hs _ hsafe hd => Edit.descended hs hsafe hd

end Machine

end Mixin
