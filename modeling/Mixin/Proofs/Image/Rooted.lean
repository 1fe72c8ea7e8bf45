import Mixin.Proofs.Graph.Rooted
import Mixin.Proofs.Image.Boot
import Mixin.Proofs.Run.Keeps

/-! Edits keep the gate first, as long as callers leave the gate alone and define no stubs. -/

namespace Mixin

namespace Graph

variable {a b c : Symbol}

theorem not_personal_frame (m : ModuleId) : ¬ (frame a b c).Personal m := by
  rintro ⟨o, ho⟩
  rw [node_frame] at ho
  rcases m with ⟨_ | _ | _ | _ | i⟩ <;> cases ho

theorem rooted_frame : (frame a b c).Rooted := by
  have hkernel : (frame a b c).Descends 1 .kernel := .step rfl (not_personal_frame _) .gate
  have hmodule : (frame a b c).Descends 2 .moduleRoot := .step rfl (not_personal_frame _) hkernel
  have hclass : (frame a b c).Descends 3 .classRoot := .step rfl (not_personal_frame _) hmodule
  have hnone : ∀ (m : ModuleId) (n : Symbol), ((frame a b c).node m).methods[n]? = none := by
    intro m n
    rw [node_frame]
    rcases m with ⟨_ | _ | _ | _ | i⟩ <;> simp
  refine ⟨rfl, ?_, ?_, ?_, ⟨1, hkernel⟩, ?_⟩
  · rintro ⟨_ | _ | _ | _ | i⟩ <;> simp [node_frame, ModuleId.gate]
  · intro n x hx
    rw [hnone] at hx
    cases hx
  · intro m _ n x hx
    rw [hnone] at hx
    cases hx
  · intro m t ht _
    rw [node_frame] at ht
    rcases m with ⟨_ | _ | _ | _ | i⟩
    · cases ht
    · cases ht
    · exact ⟨2, hmodule⟩
    · exact ⟨3, hclass⟩
    · cases ht

theorem rooted_seed : (seed a b c).Rooted := by
  rw [seed_eq]
  have hlive : (frame a b c).Live .kernel := live_frame.2 (by decide)
  have hrooted : (frame a b c).Rooted := rooted_frame
  generalize frame a b c = g at hlive hrooted
  generalize Native.all = entries
  induction entries generalizing g with
  | nil => exact hrooted
  | cons x entries ih =>
    have hset := hrooted.setMethod hlive x.1 (x := .native x.2) nofun fun _ => rfl
    exact ih _ ((live_setMethod ..).2 hlive) hset

end Graph

namespace Image

variable {s : Image}

theorem Sound.not_personal (hs : s.Sound) {t : Target} {m : ModuleId} (h : s.holder? t = some m)
    (ht : ∀ o, t ≠ .singleton (.object o)) : ¬ s.graph.Personal m := by
  rintro ⟨o, ho⟩
  rw [(hs.target_iff m t).2 h] at ho
  exact ht o (Option.some.inj ho)

theorem holder_parent (hs : s.Sound) {r : Receiver} (hr : s.Alive r) {p : ModuleId}
    (hp : s.parent? r = some p) :
    ∃ t, s.holder? t = some p ∧ ∀ o, t ≠ .singleton (.object o) := by
  cases r with
  | object o =>
    have hc : s.holder? (.prototype (s.classOf o)) = some (s.instanceModule (s.classOf o)) :=
      if_pos (hs.classOf_live o hr)
    exact ⟨.prototype (s.classOf o), hc.trans hp, by simp⟩
  | «class» c =>
    cases hc : s.superclass c with
    | none =>
      simp only [parent?, hc] at hp
      exact ⟨.classBase, hp, by simp⟩
    | some above =>
      simp only [parent?, hc] at hp
      exact ⟨.singleton (.class above), hp, by simp⟩
  | module m => exact ⟨.moduleBase, hp, by simp⟩

theorem rooted_watch (hs : s.Sound) (h : s.graph.Rooted) (name : Symbol) :
    (s.watch name).graph.Rooted := by
  unfold watch
  split
  · exact h.setMethod hs.live_gate name (fun _ => rfl) fun hne => absurd rfl hne
  · exact h

theorem rooted_define (hs : s.Sound) (h : s.graph.Rooted) {owner : ModuleId}
    (hl : s.graph.Live owner) (name : Symbol) {m : Method} (resolving : Bool)
    (hne : owner ≠ .gate) (hm : m.isStub = false) :
    (s.define owner name m resolving).graph.Rooted := by
  have hset : (s.graph.setMethod owner name m).Rooted :=
    h.setMethod hl name (fun hgate => absurd hgate hne) fun _ => hm
  rw [graph_define]
  exact rooted_watch ((Akin.setMethod hl name m).sound hs) hset name

theorem rooted_alloc (hs : s.Sound) (h : s.graph.Rooted) {n : Node} (hin : n.included = [])
    (hh : n.hidden = false) (hm : n.methods = ∅) {p : ModuleId}
    (hlive : s.graph.Live p) (hp : ¬ s.graph.Personal p) (hd : ∃ i, s.graph.Descends i p) :
    ((s.graph.alloc n).2.addEdge (s.graph.alloc n).1 p).Rooted := by
  have hg := hs.graph
  have halloc := h.alloc hg hs.live_gate hs.live_kernel hh hm
  have hnew : (s.graph.alloc n).2.Live (s.graph.alloc n).1 := hg.live_alloc.2 (Or.inl rfl)
  have hgate : (s.graph.alloc n).1 ≠ .gate := fun hg => s.graph.alloc_fresh n (hg ▸ hs.live_gate)
  obtain ⟨i, hi⟩ := hd
  refine halloc.link hnew (hg.live_alloc.2 (Or.inr hlive)) hgate ?_ ?_ (hi.alloc hg hlive)
  · rw [hg.node_alloc, if_pos rfl]
    exact hin
  · rintro ⟨o, ho⟩
    rw [hg.node_alloc_of_live hlive] at ho
    exact hp ⟨o, ho⟩

theorem rooted_materialize (hs : s.Sound) (h : s.graph.Rooted) {r : Receiver} (hr : s.Alive r)
    {p : ModuleId} (hp : s.parent? r = some p) : (s.materialize r p).2.graph.Rooted := by
  obtain ⟨t, ht, hne⟩ := holder_parent hs hr hp
  rw [materialize_eq, graph_link, graph_addEigenclass]
  refine rooted_alloc hs h rfl rfl rfl (hs.live_parent hr hp) (hs.not_personal ht hne) ?_
  exact h.descends p t ((hs.target_iff p t).2 ht) id

theorem classParent_addClass (a : Symbol) {above : Option ClassId}
    (habove : ∀ c, above = some c → s.LiveClass c) :
    (s.addClass a above).2.classParent above = s.classParent above := by
  cases above with
  | none => rfl
  | some c =>
    have hne : c ≠ ⟨s.classes.size⟩ := by
      rintro rfl
      exact Nat.lt_irrefl _ (habove _ rfl)
    simp only [classParent, instanceModule, classData_addClass, if_neg hne]

theorem rooted_makeClass (hs : s.Sound) (h : s.graph.Rooted) (a : Symbol) {above : Option ClassId}
    (habove : ∀ c, above = some c → s.LiveClass c) : (s.makeClass a above).graph.Rooted := by
  rw [makeClass_eq, graph_link, classParent_addClass a habove]
  have hlive := hs.live_classParent habove
  cases above with
  | none =>
    refine rooted_alloc hs h rfl rfl rfl hlive ?_ h.kernel
    rintro ⟨o, ho⟩
    rw [classParent, hs.target_kernel] at ho
    cases ho
  | some c =>
    have hc : s.holder? (.prototype c) = some (s.instanceModule c) := if_pos (habove c rfl)
    refine rooted_alloc hs h rfl rfl rfl hlive (hs.not_personal hc (by simp)) ?_
    exact h.descends _ _ ((hs.target_iff _ _).2 hc) id

theorem rooted_drop (hs : s.Sound) (h : s.graph.Rooted) (o : ObjectId) :
    (s.drop o).graph.Rooted := by
  unfold drop
  dsimp only
  split
  · rename_i e he
    exact h.remove hs.graph (hs.live_eigenclass he) ⟨o, (hs.target_iff e _).2 he⟩ hs.target_gate
      hs.target_kernel
  · exact h

end Image

theorem Edit.rooted {s : Image} {k : Manners} (hgate : k.offGate = true)
    (hgenuine : k.genuine = true) (hs : s.Sound) {e : Edit} (hsafe : e.Safe s) (ha : e.Allowed k)
    (h : s.graph.Rooted) : (e.apply s).graph.Rooted := by
  cases e with
  | addModule name =>
    have halloc := h.alloc hs.graph hs.live_gate hs.live_kernel (n := { name := some name }) rfl rfl
    refine { halloc with descends := fun m t ht _ => halloc.descends m t ht ?_ }
    rintro (hx | rfl)
    · exact hx
    · change ((s.graph.alloc { name := some name }).2.node _).target = some t at ht
      rw [hs.graph.node_alloc, if_pos rfl] at ht
      cases ht
  | define owner name m resolving =>
    exact Image.rooted_define hs h hsafe name resolving (ha.2.1 hgate) (ha.2.2 hgenuine)
  | link owner other resolving =>
    show (s.link owner other resolving).graph.Rooted
    rw [Image.graph_link]
    exact h.addEdge hsafe.1 hsafe.2 (ha.2 hgate)
  | materialize r p => exact Image.rooted_materialize hs h hsafe.1 hsafe.2.2
  | makeClass a above => exact Image.rooted_makeClass hs h a hsafe
  | allocate c =>
    show (s.allocate c).2.graph.Rooted
    rw [(s.allocate_rest c).1]
    exact h
  | release o =>
    show (s.release o).graph.Rooted
    rw [Image.release_eq hsafe.2, Image.graph_foldl_resolve]
    exact Image.rooted_drop hs h o
  | watchNow name =>
    show (s.watchNow name).graph.Rooted
    unfold Image.watchNow
    split
    · rw [Image.graph_resolve]
      exact Image.rooted_watch hs h name
    · exact h
  | setHooks m f =>
    show (s.setHooks m f).graph.Rooted
    choose hooks hnode using Image.node_setHooks hsafe f
    refine h.same (fun a => by rw [hnode]) (fun a => by rw [hnode]) (fun a => by rw [hnode]) ?_ ?_
    · rw [hnode]
      exact h.stubs
    · intro a hne
      rw [hnode]
      exact h.real a hne
  | resolve m =>
    show (s.resolve m).graph.Rooted
    rw [Image.graph_resolve]
    exact h
  | remember r name =>
    show (s.chainFor r name).2.graph.Rooted
    rw [Image.graph_chainFor]
    exact h
  | intern | store | setDescribing | observe => exact h

theorem Setup.rooted_boot (u : Setup) : u.boot.graph.Rooted := by
  obtain ⟨s, names, hseed, heq⟩ := u.boot_eq
  obtain ⟨a, b, c, hg⟩ := hseed.graph
  have hs := hseed.sound
  have hrooted : s.graph.Rooted := by
    rw [hg]
    exact Graph.rooted_seed
  rw [heq, Image.graph_resolve]
  clear heq hseed hg
  induction names generalizing s with
  | nil => exact hrooted
  | cons n names ih =>
    exact ih _ ((Image.Akin.watch hs n).sound hs) (Image.rooted_watch hs hrooted n)

end Mixin
