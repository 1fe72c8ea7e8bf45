import Mixin.Proofs.Ancestry
import Mixin.Proofs.Image.Deepens
import Mixin.Proofs.Run.Absorb

/-! Taking sources into one module. Where nobody is told of it, a module takes in a source by edits to
itself and, for names that come under watch, to the gate; what is put onto the receiver that the module
belongs to comes to the same module. Ancestries without the module stay as they were. -/

namespace Mixin

open Relation

/-- Edits to one module only, resolved at once. -/
def Edit.Within (e : ModuleId) : Edit → Prop
  | intern _ => True
  | define owner _ m resolving => owner = e ∧ resolving = true ∧ m.isStub = false
  | link owner _ resolving => owner = e ∧ resolving = true
  | _ => False

namespace Image

variable {s s' s'' : Image} {e : ModuleId}

/-- The same receivers and modules; edges are new at one module only, and visible methods too. -/
structure Confined (e : ModuleId) (s s' : Image) : Prop where
  akin : Akin s s'
  edges : ∀ m, (s.graph.node m).included ⊆ (s'.graph.node m).included
  included : ∀ m, m ≠ e → (s'.graph.node m).included = (s.graph.node m).included
  methods : ∀ m, m ≠ e → m ≠ .gate → (s'.graph.node m).methods = (s.graph.node m).methods
  hidden : ∀ m, (s'.graph.node m).hidden = (s.graph.node m).hidden

namespace Confined

theorem refl (s : Image) : Confined e s s where
  akin := .refl s
  edges _ := List.Subset.refl _
  included _ _ := rfl
  methods _ _ _ := rfl
  hidden _ := rfl

theorem trans (h : Confined e s s') (h' : Confined e s' s'') : Confined e s s'' where
  akin := h.akin.trans h'.akin
  edges m := List.Subset.trans (h.edges m) (h'.edges m)
  included m hm := (h'.included m hm).trans (h.included m hm)
  methods m hm hg := (h'.methods m hm hg).trans (h.methods m hm hg)
  hidden m := (h'.hidden m).trans (h.hidden m)

end Confined

theorem confined_define (hs : s.Sound) (hl : s.graph.Live e) (name : Symbol) (x : Method)
    (resolving : Bool) : Confined e s (s.define e name x resolving) := by
  have hin := included_define hs hl name x resolving
  refine ⟨.define hs hl name x resolving, fun m => ?_, fun m _ => hin m, fun m hm hg => ?_,
    hidden_define hs hl name x resolving⟩
  · rw [hin]
    exact List.Subset.refl _
  · rw [methods_define hs hl name x resolving hg, if_neg hm]

theorem confined_link (hs : s.Sound) (hl : s.graph.Live e) {other : ModuleId}
    (ho : s.graph.Live other) (resolving : Bool) : Confined e s (s.link e other resolving) := by
  refine ⟨.link hs hl ho resolving, fun m => ?_, fun m hm => ?_, fun m _ _ => ?_, fun m => ?_⟩
  · rw [graph_link, Graph.included_addEdge hl ho]
    split
    · exact List.subset_append_left _ _
    · exact List.Subset.refl _
  · rw [graph_link, Graph.included_addEdge hl ho, if_neg hm]
  · rw [graph_link, Graph.methods_addEdge hl ho]
  · rw [graph_link, Graph.hidden_addEdge hl ho]

end Image

namespace Edit.Within

variable {s s' : Image} {e : ModuleId}

theorem confined (hs : s.Sound) {x : Edit} (h : x.Within e) (hsafe : x.Safe s) :
    Image.Confined e s (x.apply s) := by
  cases x with
  | intern text =>
    exact ⟨Edit.akin hs hsafe trivial, fun _ => List.Subset.refl _, fun _ _ => rfl, fun _ _ _ => rfl,
      fun _ => rfl⟩
  | define owner name m resolving =>
    obtain ⟨rfl, -⟩ := h
    exact Image.confined_define hs hsafe name m resolving
  | link owner other resolving =>
    obtain ⟨rfl, -⟩ := h
    exact Image.confined_link hs hsafe.1 hsafe.2 resolving
  | _ => exact h.elim

theorem allowed (hgate : e ≠ .gate) {x : Edit} (h : x.Within e) (k : Manners) : x.Allowed k := by
  cases x with
  | intern text => trivial
  | define owner name m resolving =>
    obtain ⟨rfl, hres, hm⟩ := h
    exact ⟨fun _ => hres, fun _ => hgate, fun _ => hm⟩
  | link owner other resolving =>
    obtain ⟨rfl, hres⟩ := h
    exact ⟨fun _ => hres, fun _ => hgate⟩
  | _ => exact h.elim

theorem confined_of_becomes (hs : s.Sound) (h : Image.Becomes (Edit.Within e) s s') :
    Image.Confined e s s' :=
  (h.invariant (I := Image.Confined e s) hs (.refl s) fun _ _ hs hx hsafe hc =>
    hc.trans (confined hs hx hsafe)).2

end Edit.Within

/-- The module itself, or the receiver that it belongs to. -/
def Place.Within (e : ModuleId) (a : Receiver) : Place → Prop
  | .into owner options => owner = e ∧ options.resolving = true
  | .onto r => r = a

namespace Image

variable {s s' : Image} {e : ModuleId} {a : Receiver}

theorem taker_of_within (h : s.eigenclass? a = some e) {place : Place} (hp : place.Within e a) :
    ∃ options : MixOptions, options.resolving = true ∧ s.taker place = ((e, options), s) := by
  cases place with
  | into owner options =>
    obtain ⟨rfl, hres⟩ := hp
    exact ⟨options, hres, rfl⟩
  | onto r =>
    obtain rfl : r = a := hp
    refine ⟨{ notifyAs := some r.value }, rfl, ?_⟩
    rw [taker, eigenclass_of_some h]

theorem backed_eigenclass (hs : s.Sound) (h : s.eigenclass? a = some e) : s.backed e = a := by
  rw [backed, (hs.target_iff e (.singleton a)).2 h]

/-- What a source needs: its modules are there and its methods are no stubs. -/
def Takes (s : Image) (ms : List ModuleId) (xs : List Method) : Prop :=
  (∀ m ∈ ms, s.graph.Live m) ∧ ∀ x ∈ xs, x.isStub = false

theorem Takes.mono {ms ms' : List ModuleId} {xs xs' : List Method} (h : s.Takes ms xs)
    (hm : ms' ⊆ ms) (hx : xs' ⊆ xs) : s.Takes ms' xs' :=
  ⟨fun m h' => h.1 m (hm h'), fun x h' => h.2 x (hx h')⟩

theorem Confined.carry {ms : List ModuleId} {xs : List Method} (h : Confined e s s')
    (he : s.eigenclass? a = some e) (ht : s.Takes ms xs) :
    s'.eigenclass? a = some e ∧ s'.Takes ms xs :=
  ⟨(h.akin.eigenclass a).trans he, fun m hm => (h.akin.live m).2 (ht.1 m hm), ht.2⟩

theorem within_defineAll (hs : s.Sound) (he : s.eigenclass? a = some e)
    (entries : List (String × Method)) (hx : ∀ x ∈ entries.map Prod.snd, x.isStub = false) :
    Becomes (Edit.Within e) s (s.defineAll e true entries) := by
  induction entries generalizing s with
  | nil => exact .refl s
  | cons entry rest ih =>
    obtain ⟨key, x⟩ := entry
    have hintern : Becomes (Edit.Within e) s (s.intern key).2 :=
      .single (e := .intern key) trivial trivial
    have hlive : (s.intern key).2.graph.Live e := hs.live_eigenclass he
    have hdefine : Becomes (Edit.Within e) (s.intern key).2
        ((s.intern key).2.define e (s.intern key).1 x true) :=
      .single (e := .define e (s.intern key).1 x true) ⟨rfl, rfl, hx x List.mem_cons_self⟩ hlive
    have hb := hintern.trans hdefine
    have hcarry := (Edit.Within.confined_of_becomes hs hb).akin.eigenclass a
    exact hb.trans (ih (hb.sound hs) (hcarry.trans he) fun x hx' =>
      hx x (List.mem_cons_of_mem _ hx'))

mutual

/-- An eigenclass takes in a source by edits to itself, however the source is nested. -/
theorem within_absorb (source : Source) (place : Place) (s : Image) (hs : s.Sound)
    (he : s.eigenclass? a = some e) (hp : place.Within e a)
    (ht : s.Takes source.modules source.methods) :
    Becomes (Edit.Within e) s (s.absorb source place) := by
  obtain ⟨options, hres, htaker⟩ := taker_of_within he hp
  match source with
  | .module other =>
    unfold absorb
    rw [htaker]
    dsimp only
    rw [hres]
    exact .single (e := .link e other true) ⟨rfl, rfl⟩
      ⟨hs.live_eigenclass he, ht.1 other (List.mem_singleton_self _)⟩
  | .record methods mixins extensions =>
    unfold absorb
    rw [htaker]
    dsimp only
    have hmixins := within_absorbAll mixins (.into e options) s hs he ⟨rfl, hres⟩ <| ht.mono
      (List.subset_append_left _ _)
      fun x hx => List.mem_append_left _ (List.mem_append_right _ hx)
    have hs₁ := hmixins.sound hs
    obtain ⟨he₁, ht₁⟩ := (Edit.Within.confined_of_becomes hs hmixins).carry he ht
    rw [backed_eigenclass hs₁ he₁]
    have hextensions := within_absorbAll extensions (.onto a) _ hs₁ he₁ rfl <| ht₁.mono
      (List.subset_append_right _ _) (List.subset_append_right _ _)
    have hs₂ := hextensions.sound hs₁
    obtain ⟨he₂, -⟩ := (Edit.Within.confined_of_becomes hs₁ hextensions).carry he₁ ht₁
    rw [hres]
    exact (hmixins.trans hextensions).trans <| within_defineAll hs₂ he₂ methods fun x hx =>
      ht.2 x (List.mem_append_left _ (List.mem_append_left _ hx))

theorem within_absorbAll (sources : List Source) (place : Place) (s : Image) (hs : s.Sound)
    (he : s.eigenclass? a = some e) (hp : place.Within e a)
    (ht : s.Takes (Source.modulesAll sources) (Source.methodsAll sources)) :
    Becomes (Edit.Within e) s (s.absorbAll sources place) := by
  match sources with
  | [] => exact .refl s
  | source :: rest =>
    have hb := within_absorb source place s hs he hp <| ht.mono
      (List.subset_append_left _ _) (List.subset_append_left _ _)
    obtain ⟨he', ht'⟩ := (Edit.Within.confined_of_becomes hs hb).carry he ht
    exact hb.trans <| within_absorbAll rest place _ (hb.sound hs) he' hp <| ht'.mono
      (List.subset_append_right _ _) (List.subset_append_right _ _)

end

/-- A receiver is given its eigenclass and nothing else is done before that takes the source in. -/
theorem absorb_onto (source : Source) (s : Image) : s.absorb source (.onto a) =
    (s.eigenclass a).2.absorb source
      (.into (s.eigenclass a).1 { notifyAs := some a.value }) := by
  cases source <;> rfl

namespace Confined

variable (h : Confined e s s') {m : ModuleId} (hout : ¬ s'.graph.Reaches m e)
include h hout

theorem ne_of_reaches {x : ModuleId} (hx : s.graph.Reaches m x) : x ≠ e := by
  rintro rfl
  exact hout (ReflTransGen.mono (fun a b hb => h.edges a hb) m x hx)

theorem linearize_eq : s'.graph.linearize m = s.graph.linearize m :=
  Graph.linearize_congr fun _ hx => h.included _ (h.ne_of_reaches hout hx)

theorem chain_eq (hgate : s.graph.GateHidden) (n : Symbol) :
    s'.graph.chain m n = s.graph.chain m n := by
  refine Graph.chain_congr (fun x hx => h.included x (h.ne_of_reaches hout hx)) (fun x hx hv => ?_)
    fun x _ => h.hidden x
  refine h.methods x (h.ne_of_reaches hout hx) fun hg => ?_
  rw [(hgate x).2 hg] at hv
  cases hv

end Confined

end Image

end Mixin
