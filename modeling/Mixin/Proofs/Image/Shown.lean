import Mixin.Proofs.SlotPath

/-! What tables show while edits wait to be resolved. Names that a deferred definition puts under watch
do not come to the tables until something is resolved, so tables lag behind the gate. What they show
besides stubs is right all the same, but for the modules that reach one with deferred edits, and
resolving that one puts those right. -/

namespace Mixin

open Relation

namespace Image

variable {s s' : Image}

/-- Stubs apart, a table has for each name the slot of the implementation that the module's ancestry
reports, and no slot where there is none. -/
def Shows (s : Image) (m : ModuleId) (t : Target) : Prop :=
  ∀ n, Slot.Agree ((s.table t)[n]?.filter Slot.isDefined)
    ((s.graph.implementation? m n).map Slot.ofMethod)

/-- Tables show what is implemented, but for these modules. -/
def ShownBut (X : ModuleId → Prop) (s : Image) : Prop :=
  ∀ m t, (s.graph.node m).target = some t → ¬ X m → s.Shows m t

variable {X Y : ModuleId → Prop}

theorem Agrees.shows {m : ModuleId} {t : Target} (hrooted : s.graph.Rooted)
    (ht : (s.graph.node m).target = some t) (h : s.Agrees m t) : s.Shows m t := by
  intro n
  rcases h.entry_cases hrooted ht n with ⟨slot, x, hslot, himpl, hsame, hdefined⟩ | ⟨hchain, hstub⟩
  · rw [hslot, himpl, Option.filter_some, if_pos hdefined]
    exact hsame
  · rw [Graph.implementation?, hchain]
    cases hslot : (s.table t)[n]? with
    | none => trivial
    | some slot =>
      rw [Option.filter_some, Slot.isDefined_of_stub (hstub slot hslot)]
      trivial

theorem Coherent.shown (h : s.Coherent) (hrooted : s.graph.Rooted) :
    s.ShownBut fun _ => False :=
  fun m t ht hm => (h m t ht hm).shows hrooted ht

theorem ShownBut.definedSlot (h : s.ShownBut X) (hs : s.Sound) {r : Receiver} (hr : s.Known r)
    (hx : ¬ X (s.effectiveModule r)) (n : Symbol) : Slot.Agree (s.definedSlot? r n)
      ((s.graph.implementation? (s.effectiveModule r) n).map Slot.ofMethod) := by
  obtain ⟨t, ht, htable⟩ := hs.target_effectiveModule hr
  rw [definedSlot?, slot?, ← htable]
  exact h _ t ht hx n

theorem ShownBut.agree (h : s.ShownBut X) (h' : s'.ShownBut Y) (hs : s.Sound) (hs' : s'.Sound)
    {r : Receiver} (hr : s.Known r) (hr' : s'.Known r) (hx : ¬ X (s.effectiveModule r))
    (hy : ¬ Y (s'.effectiveModule r)) {n : Symbol}
    (himpl : s'.graph.implementation? (s'.effectiveModule r) n =
      s.graph.implementation? (s.effectiveModule r) n) :
    Slot.Agree (s.definedSlot? r n) (s'.definedSlot? r n) := by
  have hagree' := h'.definedSlot hs' hr' hy n
  rw [himpl] at hagree'
  exact (h.definedSlot hs hr hx n).trans hagree'.symm

theorem ShownBut.mono (h : s.ShownBut X) (hle : ∀ m, X m → Y m) : s.ShownBut Y :=
  fun m t ht hm => h m t ht fun hx => hm (hle m hx)

/-- Tables that are left alone go on showing what is left alone of the graph; what the hidden modules
hold does not matter. -/
theorem ShownBut.frame (h : s.ShownBut X)
    (hkeep : ∀ m t, (s'.graph.node m).target = some t → ¬ Y m →
      (s.graph.node m).target = some t ∧ ¬ X m ∧ s'.table t = s.table t ∧
        ∀ x, s.graph.Reaches m x → (s'.graph.node x).included = (s.graph.node x).included ∧
          (s'.graph.node x).hidden = (s.graph.node x).hidden ∧
          ((s.graph.node x).hidden = false →
            (s'.graph.node x).methods = (s.graph.node x).methods)) : s'.ShownBut Y := by
  intro m t ht hm n
  obtain ⟨ht', hx, htable, hnode⟩ := hkeep m t ht hm
  have hchain : s'.graph.chain m n = s.graph.chain m n :=
    Graph.chain_congr (fun x hr => (hnode x hr).1) (fun x hr => (hnode x hr).2.2)
      fun x hr => (hnode x hr).2.1
  rw [htable, Graph.implementation?, hchain]
  exact h m t ht' hx n

theorem ShownBut.resolve (h : s.ShownBut X) (hs : s.Sound) (hrooted : s.graph.Rooted)
    (a : ModuleId) : (s.resolve a).ShownBut fun m => X m ∧ ¬ s.graph.Reaches m a := by
  intro m t ht hm
  have ht' := ht
  rw [graph_resolve] at ht'
  by_cases hr : s.graph.Reaches m a
  · have hall : s.CoherentBut fun _ => True := fun _ _ _ hx => absurd trivial hx
    refine Agrees.shows ?_ ht (hall.resolve hs a m t ht fun hx => hx.2 hr)
    rw [graph_resolve]
    exact hrooted
  · intro n
    rw [graph_resolve, table_resolve hs ht' hr]
    exact h m t ht' (fun hx => hm ⟨hx, hr⟩) n

theorem ShownBut.spare (h : s.ShownBut X)
    (hkeep : ∀ m t, (s'.graph.node m).target = some t → ¬ Y m → ¬ X m ∧ Spared s s' m t) :
    s'.ShownBut Y :=
  h.frame fun m t ht hm => by
    obtain ⟨hx, hspared⟩ := hkeep m t ht hm
    exact ⟨hspared.target, hx, hspared.table, fun x hr =>
      ⟨hspared.included x hr, hspared.hidden x hr, fun _ => hspared.methods x hr⟩⟩

theorem ShownBut.watch (h : s.ShownBut X) (hs : s.Sound) (hgate : s.graph.GateHidden)
    (name : Symbol) : (s.watch name).ShownBut X :=
  h.frame fun a t ht hx => ⟨((Akin.watch hs name).target a).symm.trans ht, hx, table_watch name t,
    fun x _ => ⟨included_watch hs name x, hidden_watch hs name x, fun hvisible =>
      methods_watch hs name (hgate.ne_gate hvisible)⟩⟩

theorem included_define (hs : s.Sound) {owner : ModuleId} (hl : s.graph.Live owner) (name : Symbol)
    (m : Method) (resolving : Bool) (a : ModuleId) :
    ((s.define owner name m resolving).graph.node a).included = (s.graph.node a).included := by
  rw [graph_define]
  exact (included_watch ((Akin.setMethod hl name m).sound hs) name a).trans
    (included_setMethod hl name m a)

theorem hidden_define (hs : s.Sound) {owner : ModuleId} (hl : s.graph.Live owner) (name : Symbol)
    (m : Method) (resolving : Bool) (a : ModuleId) :
    ((s.define owner name m resolving).graph.node a).hidden = (s.graph.node a).hidden := by
  rw [graph_define, hidden_watch ((Akin.setMethod hl name m).sound hs)]
  show ((s.graph.setMethod owner name m).node a).hidden = _
  rw [Graph.node_setMethod name m hl]
  split <;> rfl

theorem methods_define (hs : s.Sound) {owner : ModuleId} (hl : s.graph.Live owner) (name : Symbol)
    (m : Method) (resolving : Bool) {a : ModuleId} (hne : a ≠ .gate) :
    ((s.define owner name m resolving).graph.node a).methods =
      if a = owner then (s.graph.node a).methods.insert name m else (s.graph.node a).methods := by
  rw [graph_define, methods_watch ((Akin.setMethod hl name m).sound hs) name hne]
  show ((s.graph.setMethod owner name m).node a).methods = _
  rw [Graph.node_setMethod name m hl]
  split <;> rfl

/-- A deferred definition concerns the modules that reach the owner, one that is resolved none. -/
theorem ShownBut.define (h : s.ShownBut X) (hs : s.Sound) (hrooted : s.graph.Rooted)
    {owner : ModuleId} (hl : s.graph.Live owner) (hne : owner ≠ .gate) (name : Symbol) {m : Method}
    (hm : m.isStub = false) (resolving : Bool) : (s.define owner name m resolving).ShownBut
      fun x => X x ∨ resolving = false ∧ s.graph.Reaches x owner := by
  have hs₁ := (Akin.setMethod hl name m).sound hs
  have hs₂ := (Akin.watch hs₁ name).sound hs₁
  have hrooted₁ : (s.graph.setMethod owner name m).Rooted :=
    hrooted.setMethod hl name (fun hgate => absurd hgate hne) fun _ => hm
  have hrooted₂ := rooted_watch hs₁ hrooted₁ name
  have hset : ({ s with graph := s.graph.setMethod owner name m } : Image).ShownBut
      fun x => X x ∨ s.graph.Reaches x owner :=
    h.spare fun _ _ ht hx =>
      ⟨fun h => hx (Or.inl h), .setMethod hl name m ht fun hr => hx (Or.inr hr)⟩
  have hbut := hset.watch hs₁ hrooted₁.hidden name
  have hin : ∀ a, ((Image.watch { s with graph := s.graph.setMethod owner name m }
      name).graph.node a).included = (s.graph.node a).included := fun a =>
    (included_watch hs₁ name a).trans (included_setMethod hl name m a)
  unfold Image.define
  dsimp only
  generalize Image.watch { s with graph := s.graph.setMethod owner name m } name = s₂
    at hs₂ hrooted₂ hbut hin ⊢
  cases resolving with
  | false => exact hbut.mono fun x hx => hx.imp_right fun hr => ⟨rfl, hr⟩
  | true =>
    have howner : (s₂.resolve owner).ShownBut X :=
      (hbut.resolve hs₂ hrooted₂ owner).mono fun x hx => by
        rw [reaches_congr hin] at hx
        exact hx.1.resolve_right hx.2
    rw [if_pos rfl]
    split
    · have hrooted₃ : (s₂.resolve owner).graph.Rooted := by
        rw [graph_resolve]
        exact hrooted₂
      exact (howner.resolve (hs₂.resolve owner) hrooted₃ .gate).mono fun x hx => Or.inl hx.1
    · exact howner.mono fun x hx => Or.inl hx

/-- A deferred link concerns the modules that reach the owner, one that is resolved puts them right. -/
theorem ShownBut.link (h : s.ShownBut X) (hs : s.Sound) {owner other : ModuleId}
    (hl : s.graph.Live owner) (ho : s.graph.Live other)
    (hrooted : (s.graph.addEdge owner other).Rooted) (resolving : Bool) :
    (s.link owner other resolving).ShownBut fun x =>
      if resolving then X x ∧ ¬ s.graph.Reaches x owner else X x ∨ s.graph.Reaches x owner := by
  have hbut : ({ s with graph := s.graph.addEdge owner other } : Image).ShownBut
      fun x => X x ∨ s.graph.Reaches x owner :=
    h.spare fun _ _ ht hx => ⟨fun h => hx (Or.inl h), .addEdge hl ho ht fun hr => hx (Or.inr hr)⟩
  unfold Image.link
  cases resolving with
  | false => exact hbut
  | true =>
    refine (hbut.resolve ((Akin.link hs hl ho false).sound hs) hrooted owner).mono fun x hx => ?_
    have hnot : ¬ s.graph.Reaches x owner := fun hr => hx.2 (reaches_addEdge hl ho hr)
    exact ⟨hx.1.resolve_right hnot, hnot⟩

theorem ShownBut.materialize (h : s.ShownBut X) (hs : s.Sound) (hrooted : s.graph.Rooted)
    {r : Receiver} (hr : s.Alive r) (hn : s.eigenclass? r = none) {p : ModuleId}
    (hp : s.parent? r = some p) : (s.materialize r p).2.ShownBut X := by
  have hbut : (s.addEigenclass r).2.ShownBut fun x => X x ∨ x = (s.addEigenclass r).1 :=
    h.spare fun _ _ ht hx => ⟨fun h => hx (Or.inl h), .alloc hs (graph_addEigenclass r)
      (fun _ t _ => table_addEigenclass hr.hasRecord t) ht fun hnew => hx (Or.inr hnew)⟩
  have hlive := hs.live_addEigenclass r
  have hlink := rooted_materialize hs hrooted hr hp
  rw [materialize_eq] at hlink ⊢
  rw [graph_link] at hlink
  dsimp only
  refine (hbut.link (hs.addEigenclass hr hn) ((hlive _).2 (.inl rfl))
    ((hlive _).2 (.inr (hs.live_parent hr hp))) hlink true).mono fun x hx => ?_
  rw [if_pos rfl] at hx
  exact hx.1.resolve_right fun he => hx.2 (he ▸ .refl)

end Image

/-- What taking in a source comes to: no stub is defined, the gate is left alone, and edits are
deferred for these modules only. -/
def Edit.Absorbs (late : ModuleId → Prop) : Edit → Prop
  | intern _ | materialize _ _ => True
  | define owner _ m resolving =>
    (resolving = false → late owner) ∧ owner ≠ .gate ∧ m.isStub = false
  | link owner _ resolving => (resolving = false → late owner) ∧ owner ≠ .gate
  | _ => False

namespace Image

variable {s : Image} {late : ModuleId → Prop}

/-- The module reaches one that may have edits that are not resolved yet. -/
def Behind (late : ModuleId → Prop) (s : Image) (m : ModuleId) : Prop :=
  ∃ a, late a ∧ s.graph.Reaches m a

end Image

namespace Edit.Absorbs

variable {s : Image} {late : ModuleId → Prop} {e : Edit}

theorem lasting (h : e.Absorbs late) : e.Lasting := by
  cases e <;> trivial

theorem rooted (h : e.Absorbs late) (hs : s.Sound) (hsafe : e.Safe s) (hrooted : s.graph.Rooted) :
    (e.apply s).graph.Rooted := by
  refine Edit.rooted (k := .fair) rfl rfl hs hsafe ?_ hrooted
  cases e with
  | define owner name m resolving => exact ⟨nofun, fun _ => h.2.1, fun _ => h.2.2⟩
  | link owner other resolving => exact ⟨nofun, fun _ => h.2⟩
  | _ => trivial

theorem reaches (h : e.Absorbs late) (hs : s.Sound) (hsafe : e.Safe s) {a b : ModuleId}
    (hr : s.graph.Reaches a b) : (e.apply s).graph.Reaches a b := by
  cases e with
  | intern text => exact hr
  | define owner name m resolving =>
    exact (Image.reaches_congr (Image.included_define hs hsafe name m resolving) a b).2 hr
  | link owner other resolving =>
    show (s.link owner other resolving).graph.Reaches a b
    rw [Image.graph_link]
    exact Image.reaches_addEdge hsafe.1 hsafe.2 hr
  | materialize r p =>
    have hlive := hs.live_addEigenclass r
    rw [apply_materialize, Image.graph_link]
    refine Image.reaches_addEdge ((hlive _).2 (.inl rfl))
      ((hlive _).2 (.inr (hs.live_parent hsafe.1 hsafe.2.2))) ?_
    rw [Image.graph_addEigenclass]
    refine ReflTransGen.mono (fun x y hy => ?_) a b hr
    rw [hs.graph.node_alloc_of_live (hs.graph.live_includer hy)]
    exact hy
  | _ => exact h.elim

theorem shown (h : e.Absorbs late) (hs : s.Sound) (hsafe : e.Safe s) (hrooted : s.graph.Rooted)
    (hshown : s.ShownBut (s.Behind late)) :
    (e.apply s).ShownBut ((e.apply s).Behind late) := by
  have hmono : ∀ x, s.Behind late x → (e.apply s).Behind late x :=
    fun x ⟨a, ha, hr⟩ => ⟨a, ha, h.reaches hs hsafe hr⟩
  cases e with
  | intern text =>
    exact hshown.frame fun m t ht hx => ⟨ht, hx, Image.table_congr rfl rfl rfl rfl rfl t,
      fun x _ => ⟨rfl, rfl, fun _ => rfl⟩⟩
  | define owner name m resolving =>
    refine (hshown.define hs hrooted hsafe h.2.1 name h.2.2 resolving).mono fun x hx => ?_
    rcases hx with hx | ⟨hres, hr⟩
    · exact hmono x hx
    · exact hmono x ⟨owner, h.1 hres, hr⟩
  | link owner other resolving =>
    have hlink := hrooted.addEdge hsafe.1 hsafe.2 h.2
    refine (hshown.link hs hsafe.1 hsafe.2 hlink resolving).mono fun x hx => ?_
    cases resolving with
    | false => exact hx.elim (hmono x) fun hr => hmono x ⟨owner, h.1 rfl, hr⟩
    | true => exact hmono x hx.1
  | materialize r p =>
    exact (hshown.materialize hs hrooted hsafe.1 hsafe.2.1 hsafe.2.2).mono hmono
  | _ => exact h.elim

end Edit.Absorbs

/-- Taking in leaves only those tables behind that the late modules have a part in. -/
theorem Image.Becomes.shown {s s' : Image} {late : ModuleId → Prop}
    (h : Becomes (Edit.Absorbs late) s s') (hs : s.Sound) (hc : s.Coherent)
    (hrooted : s.graph.Rooted) :
    s'.Sound ∧ s'.graph.Rooted ∧ s'.ShownBut (s'.Behind late) := by
  refine h.invariant (I := fun s => s.graph.Rooted ∧ s.ShownBut (s.Behind late)) hs ?_ ?_
  · exact ⟨hrooted, (hc.shown hrooted).mono fun _ hx => hx.elim⟩
  · intro s e hs he hsafe ⟨hrooted, hshown⟩
    exact ⟨he.rooted hs hsafe hrooted, he.shown hs hsafe hrooted hshown⟩

end Mixin
