import Mixin.Proofs.Deepening
import Mixin.Proofs.Image.Confined

/-! Extension concerns those who answer through the extended receiver's eigenclass, and nobody else.
Making the eigenclass only lengthens ancestries; what follows edits the eigenclass alone; and a name
that comes under watch on the way does not show. -/

namespace Mixin

open Relation

namespace Image

variable {s s' s₁ : Image} {e : ModuleId} {a r : Receiver}

/-- A receiver has the same real slots, looks up the same implementations and is the same of what there
was. -/
structure Undisturbed (s s' : Image) (r : Receiver) : Prop where
  slot : ∀ n, Slot.Agree (s.definedSlot? r n) (s'.definedSlot? r n)
  lookup : ∀ n, s'.lookup r n = s.lookup r n
  isA : ∀ x, s.Existing x → s'.isA r x = s.isA r x

def Unmoved (s s' : Image) (t : Target) : Prop :=
  ∀ n : Symbol,
    Slot.Agree ((s.table t)[n]?.filter Slot.isDefined) ((s'.table t)[n]?.filter Slot.isDefined)

theorem Shows.unmoved {m : ModuleId} {t : Target} (h : s.Shows m t) (h' : s'.Shows m t)
    (hchain : ∀ n, s'.graph.chain m n = s.graph.chain m n) : Unmoved s s' t := by
  intro n
  have hagree' := h' n
  rw [Graph.implementation?, hchain] at hagree'
  exact (h n).trans hagree'.symm

section Apart

variable (hd : Deepens s s₁) (hc : Confined e s₁ s')
include hd hc

theorem effectiveModule_apart (hs : s.Sound) (hr : s.Alive r)
    (hgate : s₁.graph.GateHidden) (hout : ¬ s'.graph.Reaches (s'.effectiveModule r) e) :
    (∀ n, s'.lookup r n = s.lookup r n) ∧ ∀ x, s.Existing x → s'.isA r x = s.isA r x := by
  have heff := hc.akin.effectiveModule r
  rw [heff] at hout
  refine ⟨fun n => ?_, fun x hx => ?_⟩
  · rw [Image.lookup, heff, hc.chain_eq hout hgate]
    exact hd.lookup_eq hs hr n
  · have hx' : s'.moduleOf x = s₁.moduleOf x := by
      cases x with
      | «class» c => exact hc.akin.instanceModule c
      | module m => rfl
    rw [← hd.isA_eq hs hr hx, Bool.eq_iff_iff, Image.isA, Image.isA, heff, hx', Graph.includes_iff,
      Graph.includes_iff, ← Graph.mem_linearize, ← Graph.mem_linearize, hc.linearize_eq hout]

theorem undisturbed_apart (hs : s.Sound) (hs' : s'.Sound) (hgate : s₁.graph.GateHidden)
    (hshown : s.ShownBut fun _ => False) (hshown' : s'.ShownBut fun _ => False) (hr : s.Alive r)
    (hout : ¬ s'.graph.Reaches (s'.effectiveModule r) e) : Undisturbed s s' r := by
  obtain ⟨hlookup, hisA⟩ := effectiveModule_apart hd hc hs hr hgate hout
  refine ⟨fun n => ?_, hlookup, hisA⟩
  have hr' : s'.Alive r := (hc.akin.alive r).2 (hd.alive r hr)
  exact hshown.agree hshown' hs hs' hr.known hr'.known id id (congrArg List.getLast? (hlookup n))

theorem unmoved_apart (hs : s.Sound) (hgate : s₁.graph.GateHidden)
    (hshown : s.ShownBut fun _ => False) (hshown' : s'.ShownBut fun _ => False) {m : ModuleId}
    {t : Target} (ht : (s.graph.node m).target = some t) (hout : ¬ s'.graph.Reaches m e) :
    Unmoved s s' t := by
  have hlive := hs.graph.live_of_target ht
  have ht' : (s'.graph.node m).target = some t := by
    rw [hc.akin.target, hd.target m hlive, ht]
  refine (hshown m t ht id).unmoved (hshown' m t ht' id) fun n => ?_
  have hlines : ∀ x, s.graph.Reaches m x → s.graph.Live x := fun x hx =>
    hs.graph.live_of_reaches hlive hx
  rw [hc.chain_eq hout hgate]
  exact Graph.chain_congr (fun x hx => hd.included x (hlines x hx))
    (fun x hx _ => hd.methods x (hlines x hx)) fun x hx => hd.hidden x (hlines x hx)

end Apart

theorem Becomes.settled {P : Edit → Prop} {k : Manners} (hb : Becomes P s s') (hs : s.Sound)
    (hc : s.Coherent) (hrooted : s.graph.Rooted) (hprompt : k.prompt = true)
    (hgate : k.offGate = true) (hgenuine : k.genuine = true) (hP : ∀ x, P x → x.Allowed k) :
    s'.Sound ∧ s'.Coherent ∧ s'.graph.Rooted :=
  hb.invariant (I := fun s => s.Coherent ∧ s.graph.Rooted) hs ⟨hc, hrooted⟩
    fun _ x hs hx hsafe ⟨hc, hrooted⟩ => ⟨Edit.coherent hprompt hs hsafe (hP x hx) hc,
      Edit.rooted hgate hgenuine hs hsafe (hP x hx) hrooted⟩

theorem Sound.mem_lineOf_trans (hs : s.Sound) {b c d : ClassId} (hb : s.LiveClass b)
    (hd : d ∈ s.lineOf b) (hc : c ∈ s.lineOf d) : c ∈ s.lineOf b := by
  have hline := hs.line_lineOf hb
  generalize s.lineOf b = line at hline hd ⊢
  generalize some b = x at hline
  induction hline with
  | root => exact absurd hd List.not_mem_nil
  | @step a above ha hl ih =>
    rcases List.mem_cons.1 hd with rfl | hd
    · rwa [(Line.step ha hl).unique (hs.line_lineOf ha)]
    · exact List.mem_cons_of_mem _ (ih hd)

/-- Only the receiver itself and, of a class, its subclasses answer through an eigenclass at first
hand. -/
theorem Sound.owner_effectiveModule (hs : s.Sound) (hr : s.Alive r)
    (h : s.eigenclass? a = some (s.effectiveModule r)) :
    r = a ∨ ∃ c d, r = .class d ∧ a = .class c ∧ c ∈ s.lineOf d := by
  have hown : ∀ b, s.eigenclass? b = some (s.effectiveModule r) → a = b := by
    intro b hb
    have ht := (hs.target_iff _ (.singleton a)).2 h
    rw [(hs.target_iff _ (.singleton b)).2 hb] at ht
    exact (Target.singleton.inj (Option.some.inj ht)).symm
  have hshared : ∀ t, s.holder? t = some (s.effectiveModule r) → t = .singleton a := by
    intro t ht
    have ht' := (hs.target_iff _ (.singleton a)).2 h
    rw [(hs.target_iff _ t).2 ht] at ht'
    exact Option.some.inj ht'
  cases r with
  | object o =>
    cases he : s.eigenclass? (.object o) with
    | some m =>
      have heff : s.effectiveModule (.object o) = m := congrArg (Option.getD · _) he
      exact .inl (hown _ (heff ▸ he)).symm
    | none =>
      have heff : s.effectiveModule (.object o) = s.instanceModule (s.classOf o) :=
        congrArg (Option.getD · _) he
      have ht := hshared (.prototype (s.classOf o)) (heff ▸ if_pos (hs.classOf_live o hr))
      cases ht
  | «class» d =>
    cases ho : s.sideOwner? d with
    | some owner =>
      obtain ⟨m, hm⟩ := sideOwner_eigenclass ho
      have heff : s.effectiveModule (.class d) = m := by
        simp only [effectiveModule, ho, Option.bind_some, hm, Option.getD_some]
      exact .inr ⟨owner, d, rfl, hown _ (heff ▸ hm), List.mem_of_find?_eq_some ho⟩
    | none =>
      have heff : s.effectiveModule (.class d) = .classRoot := by
        simp only [effectiveModule, ho, Option.bind_none, Option.getD_none]
      have ht := hshared .classBase (heff ▸ rfl)
      cases ht
  | module b =>
    cases he : s.eigenclass? (.module b) with
    | some m =>
      have heff : s.effectiveModule (.module b) = m := by
        simp only [effectiveModule, he, Option.getD_some]
      exact .inl (hown _ (heff ▸ he)).symm
    | none =>
      have heff : s.effectiveModule (.module b) = .moduleRoot := by
        simp only [effectiveModule, he, Option.getD_none]
      have ht := hshared .moduleBase (heff ▸ rfl)
      cases ht

/-- One receiver has been extended, and only what is composed of its eigenclass can have changed. -/
structure Isolates (a : Receiver) (e : ModuleId) (s s' : Image) : Prop where
  sound : s'.Sound
  gateHidden : s'.graph.GateHidden
  eigenclass : s'.eigenclass? a = some e
  alive : ∀ r, s.Alive r → s'.Alive r
  target : ∀ t x, s.holder? t = some x → (s'.graph.node x).target = some t
  lineOf : ∀ c, s'.lineOf c = s.lineOf c
  receiver : ∀ r, s.Alive r → ¬ s'.graph.Reaches (s'.effectiveModule r) e → Undisturbed s s' r
  table : ∀ t x, s.holder? t = some x → ¬ s'.graph.Reaches x e → Unmoved s s' t

namespace Isolates

variable (h : Isolates a e s s')
include h

theorem of_not_mem_ancestorsOf (hr : s.Alive r) (hmem : .module e ∉ s'.ancestorsOf r) :
    Undisturbed s s' r := by
  refine h.receiver r hr fun hreach => hmem ?_
  have ht := (h.sound.target_iff e (.singleton a)).2 h.eigenclass
  have hentry : s'.ancestorEntry e = .module e := by
    rw [ancestorEntry, ht]
  rw [← hentry, mem_ancestorsOf h.sound h.gateHidden]
  refine ⟨hreach, ?_⟩
  rintro rfl
  exact h.sound.eigenclass_ne h.sound.target_gate a h.eigenclass

/-- While nothing includes the eigenclass, it is the receiver's alone, if that is no class. -/
theorem siblings {o : ObjectId} (ho : a = .object o)
    (hapart : ∀ x, e ∉ (s'.graph.node x).included) :
    (∀ r, s.Alive r → r ≠ .object o → Undisturbed s s' r) ∧
      ∀ t x, s.holder? t = some x → t ≠ .singleton (.object o) → Unmoved s s' t := by
  subst ho
  have honly : ∀ x, s'.graph.Reaches x e → x = e := by
    intro x hx
    rcases ReflTransGen.cases_tail hx with rfl | ⟨y, -, hy⟩
    · rfl
    · exact absurd hy (hapart y)
  refine ⟨fun r hr hne => h.receiver r hr fun hreach => ?_,
    fun t x hx hne => h.table t x hx fun hreach => hne ?_⟩
  · have heff := honly _ hreach
    rcases h.sound.owner_effectiveModule (h.alive r hr) (heff ▸ h.eigenclass) with
      rfl | ⟨c, d, -, hcd, -⟩
    · exact hne rfl
    · cases hcd
  · have ht := h.target t x hx
    rw [honly x hreach, (h.sound.target_iff e (.singleton (.object o))).2 h.eigenclass] at ht
    exact (Option.some.inj ht).symm

/-- While only eigenclasses of subclasses are composed of it, it is theirs alone. -/
theorem subclasses (hs : s.Sound) {c : ClassId}
    (hbelow : ∀ x, s'.graph.Reaches x e →
      ∃ d, c ∈ s.lineOf d ∧ s'.eigenclass? (.class d) = some x) :
    (∀ r, s.Alive r → (∀ d, r = .class d → c ∉ s.lineOf d) → Undisturbed s s' r) ∧
      ∀ t x, s.holder? t = some x → (∀ d, t = .singleton (.class d) → c ∉ s.lineOf d) →
        Unmoved s s' t := by
  refine ⟨fun r hr hne => h.receiver r hr fun hreach => ?_,
    fun t x hx hne => h.table t x hx fun hreach => ?_⟩
  · obtain ⟨d, hcd, hd⟩ := hbelow _ hreach
    rcases h.sound.owner_effectiveModule (h.alive r hr) hd with rfl | ⟨d', b, rfl, hdd, hb⟩
    · exact hne d rfl hcd
    · obtain rfl := Receiver.class.inj hdd
      rw [h.lineOf] at hb
      exact hne b rfl (hs.mem_lineOf_trans hr hb hcd)
  · obtain ⟨d, hcd, hd⟩ := hbelow x hreach
    have ht := h.target t x hx
    rw [(h.sound.target_iff x (.singleton (.class d))).2 hd] at ht
    exact hne d (Option.some.inj ht).symm hcd

end Isolates

/-- An extension without anybody to tell of it: the eigenclass is made, and takes the source in. -/
theorem isolates_absorb {k : Manners} (hs : s.Sound) (hc : s.Coherent) (hrooted : s.graph.Rooted)
    (hprompt : k.prompt = true) (hgate : k.offGate = true) (hgenuine : k.genuine = true)
    (ha : s.Alive a) (source : Source) (ht : s.Takes source.modules source.methods) :
    ∃ e, Isolates a e s (s.absorb source (.onto a)) := by
  obtain ⟨hb, hown⟩ := eigenclass_becomes hs (.inl ha)
  have hd := deepens_of_materializes hs hb
  obtain ⟨hs₁, hc₁, hrooted₁⟩ :=
    hb.settled hs hc hrooted hprompt hgate hgenuine fun _ hx => hx.usual.1
  rw [absorb_onto]
  generalize (s.eigenclass a).1 = e at hown ⊢
  generalize (s.eigenclass a).2 = s₁ at hown hd hs₁ hc₁ hrooted₁ ⊢
  have hne : e ≠ .gate := by
    rintro rfl
    exact hs₁.eigenclass_ne hs₁.target_gate a hown
  have hw := within_absorb source (.into e { notifyAs := some a.value }) s₁ hs₁ hown ⟨rfl, rfl⟩
    ⟨fun x hx => hd.live (ht.1 x hx), ht.2⟩
  have hconf := Edit.Within.confined_of_becomes hs₁ hw
  obtain ⟨hs', hc', hrooted'⟩ := hw.settled hs₁ hc₁ hrooted₁ hprompt hgate hgenuine fun _ hx =>
    hx.allowed hne k
  have hshown := hc.shown hrooted
  have hshown' := hc'.shown hrooted'
  refine ⟨e, hs', hrooted'.hidden, (hconf.akin.eigenclass a).trans hown, fun r hr => ?_,
    fun t x hx => ?_, fun c => ?_, fun r hr hout => ?_, fun t x hx hout => ?_⟩
  · exact (hconf.akin.alive r).2 (hd.alive r hr)
  · have hx' := (hs.target_iff x t).2 hx
    rw [hconf.akin.target, hd.target x (hs.graph.live_of_target hx'), hx']
  · exact lineOf_congr (fun c => (hconf.akin.superclass c).trans (hd.superclass c))
      (hconf.akin.classes.trans hd.classes) c
  · exact undisturbed_apart hd hconf hs hs' hrooted₁.hidden hshown hshown' hr hout
  · exact unmoved_apart hd hconf hs hrooted₁.hidden hshown hshown' ((hs.target_iff x t).2 hx) hout

end Image

namespace Machine

open Effect Image

variable {ω : Type} {k : Manners} {u : Setup} {m : Machine ω}

/-- Where there are no hooks and no observers, extending a receiver with a source disturbs no receiver
that does not have the eigenclass among its ancestors afterwards, and moves no table of a module that
is not composed of it. So while no module includes the eigenclass, extending an object moves no table
but the object's own; and while only the eigenclasses of a class and its subclasses are composed of
it, extending the class disturbs nothing but these classes as receivers. -/
theorem Reached.extend_isolated (h : m.Reached k u) (hprompt : k.prompt = true)
    (hgate : k.offGate = true) (hgenuine : k.genuine = true) {a : Receiver} {source : Source}
    (ha : m.world.image.Alive a) (hmodules : ∀ x ∈ source.modules, m.world.image.graph.Live x)
    (hmethods : ∀ x ∈ source.methods, x.isStub = false)
    (hhooks : ∀ x ∈ source.modules, (m.world.image.graph.node x).hooks = {})
    (hobservers : m.world.image.observers = []) :
    ∃ (w : World ω) (e : ModuleId), extend a source m.world = .finished (.ok a) w ∧
      w.image.eigenclass? a = some e ∧
      let s := m.world.image
      let s' := w.image
      (∀ r, s.Alive r → s'.Alive r ∧ (.module e ∉ s'.ancestorsOf r → Undisturbed s s' r)) ∧
      (∀ t x, s.holder? t = some x → ¬ s'.graph.Reaches x e → Unmoved s s' t) ∧
      (∀ o, a = .object o → (∀ x, e ∉ (s'.graph.node x).included) →
        (∀ r, s.Alive r → r ≠ .object o → Undisturbed s s' r) ∧
        ∀ t x, s.holder? t = some x → t ≠ .singleton (.object o) → Unmoved s s' t) ∧
      ∀ c, a = .class c →
        (∀ x, s'.graph.Reaches x e → ∃ d, c ∈ s.lineOf d ∧ s'.eigenclass? (.class d) = some x) →
        (∀ r, s.Alive r → (∀ d, r = .class d → c ∉ s.lineOf d) → Undisturbed s s' r) ∧
        ∀ t x, s.holder? t = some x → (∀ d, t = .singleton (.class d) → c ∉ s.lineOf d) →
          Unmoved s s' t := by
  have hs := h.sane.sound
  obtain ⟨e, he⟩ := isolates_absorb hs (h.coherent hprompt) (h.rooted hgate hgenuine) hprompt hgate
    hgenuine ha source ⟨hmodules, hmethods⟩
  refine ⟨{ m.world with image := _ }, e, extend_eq ⟨hobservers, hhooks⟩, he.eigenclass,
    fun r hr => ?_, he.table, ?_, ?_⟩
  · exact ⟨he.alive r hr, he.of_not_mem_ancestorsOf hr⟩
  · exact fun o ho hapart => he.siblings ho hapart
  · exact fun c _ hbelow => he.subclasses hs hbelow

/-- A record with a method, which includes a root and puts a record onto its taker. -/
def kit : Source :=
  .record [("greet", .program 0 false)] [.module .moduleRoot]
    [.record [("make", .program 1 true)] [.module .classRoot] []]

/-- The superclass of the extended class is not disturbed, though it gets an eigenclass too. -/
theorem extend_isolated_derived :
    let s' := derived.absorb kit (.onto (.class ⟨1⟩))
    let greet := (s'.intern "greet").1
    extend (.class ⟨1⟩) kit { image := derived, host := () } =
      .finished (.ok (.class ⟨1⟩)) ({ image := s', host := () } : World Unit) ∧
    s'.eigenclass? (.class ⟨0⟩) = some ⟨6⟩ ∧ s'.eigenclass? (.class ⟨1⟩) = some ⟨7⟩ ∧
    s'.respondsTo (.class ⟨1⟩) greet = true ∧ s'.respondsTo (.class ⟨0⟩) greet = false ∧
    Undisturbed derived s' (.class ⟨0⟩) := by
  intro s' greet
  have h := reached_derived (k := { prompt := true, offGate := true, genuine := true })
    (.reply (.ok .void))
  have ha : derived.Alive (.class ⟨1⟩) := by decide +kernel
  have hr : derived.Alive (.class ⟨0⟩) := by decide +kernel
  have hmodules : ∀ x ∈ kit.modules, derived.graph.Live x := by decide +kernel
  have hmethods : ∀ x ∈ kit.methods, x.isStub = false := by decide +kernel
  have hhooks : ∀ x ∈ kit.modules, (derived.graph.node x).hooks = {} := by decide +kernel
  obtain ⟨w, e, hextend, hown, hall, -⟩ :=
    h.extend_isolated rfl rfl rfl ha hmodules hmethods hhooks rfl
  have hextend' : extend (.class ⟨1⟩) kit ({ image := derived, host := () } : World Unit) =
      .finished (.ok (.class ⟨1⟩)) { image := s', host := () } := extend_eq ⟨rfl, hhooks⟩
  obtain rfl : w = { image := s', host := () } := (Run.finished.inj (hextend.symm.trans hextend')).2
  have he : s'.eigenclass? (.class ⟨1⟩) = some ⟨7⟩ := by decide +kernel
  obtain rfl : ⟨7⟩ = e := Option.some.inj (he.symm.trans hown)
  have hmem : .module ⟨7⟩ ∉ s'.ancestorsOf (.class ⟨0⟩) := by decide +kernel
  exact ⟨hextend', by decide +kernel, he, by decide +kernel, by decide +kernel, (hall _ hr).2 hmem⟩

end Machine

end Mixin
