import Mixin.Proofs.ChainCache
import Mixin.Proofs.Inheritance
import Mixin.Proofs.Release

/-! The side of a class that answers messages to the class itself. No class is older than its
superclass, so the two climbs along a superclass line come to an end: the one to the nearest
eigenclass, and the one that makes the eigenclasses that are missing. The second goes from the far end
of the line on, and so no eigenclass is there before the one it includes first. -/

namespace Mixin

namespace Image

open Relation

variable {s s' : Image} {c : ClassId}

/-- The climb from a class to the nearest one on its superclass line with an eigenclass. Nothing
bounds the number of its steps. -/
inductive Climb (s : Image) : ClassId → Option ClassId → Prop where
  | own {c : ClassId} {e : ModuleId} : s.eigenclass? (.class c) = some e → Climb s c (some c)
  | up {c d : ClassId} {owner : Option ClassId} : s.eigenclass? (.class c) = none →
      s.superclass c = some d → Climb s d owner → Climb s c owner
  | top {c : ClassId} : s.eigenclass? (.class c) = none → s.superclass c = none → Climb s c none

/-- How the eigenclass of a class comes about by way of its superclass, to any depth: with it goes the
image that there is afterwards. -/
inductive Makes : Image → ClassId → ModuleId × Image → Prop where
  | had {s : Image} {c : ClassId} {e : ModuleId} : s.eigenclass? (.class c) = some e →
      Makes s c (e, s)
  | root {s : Image} {c : ClassId} : s.eigenclass? (.class c) = none → s.superclass c = none →
      Makes s c (s.materialize (.class c) .classRoot)
  | after {s : Image} {c d : ClassId} {made : ModuleId × Image} :
      s.eigenclass? (.class c) = none → s.superclass c = some d → Makes s d made →
      Makes s c (made.2.materialize (.class c) made.1)

theorem Climb.unique {owner owner' : Option ClassId} (h : s.Climb c owner)
    (h' : s.Climb c owner') : owner = owner' := by
  induction h with
  | own he => cases h' <;> simp_all
  | up he hsup _ ih =>
    cases h' with
    | own he' => simp_all
    | up _ hsup' hd =>
      obtain rfl := Option.some.inj (hsup.symm.trans hsup')
      exact ih hd
    | top _ hsup' => simp_all
  | top he hsup => cases h' <;> simp_all

theorem Makes.unique {made made' : ModuleId × Image} (h : Makes s c made) (h' : Makes s c made') :
    made = made' := by
  induction h generalizing made' with
  | had he => cases h' <;> simp_all
  | root he hsup => cases h' <;> simp_all
  | after he hsup _ ih =>
    cases h' with
    | had he' => simp_all
    | root _ hsup' => simp_all
    | after _ hsup' hd =>
      obtain rfl := Option.some.inj (hsup.symm.trans hsup')
      rw [ih hd]

theorem Line.climb {x : Option ClassId} {line : List ClassId} (h : Line s x line) (hx : x = some c) :
    s.Climb c (line.find? fun c => (s.eigenclass? (.class c)).isSome) := by
  induction h generalizing c with
  | root => cases hx
  | @step a above _ hl ih =>
    obtain rfl := Option.some.inj hx
    rw [List.find?_cons]
    cases he : s.eigenclass? (.class a) with
    | some e => exact .own he
    | none =>
      cases hsup : s.superclass a with
      | some d => exact .up he hsup (ih hsup)
      | none =>
        rw [hsup] at hl
        cases hl
        exact .top he hsup

theorem Line.makes {x : Option ClassId} {line : List ClassId} (h : Line s x line) (hx : x = some c) :
    Makes s c (s.classEigenclass line) := by
  induction h generalizing c with
  | root => cases hx
  | @step a above _ hl ih =>
    obtain rfl := Option.some.inj hx
    unfold classEigenclass
    cases he : s.eigenclass? (.class a) with
    | some e => exact .had he
    | none =>
      cases hsup : s.superclass a with
      | some d => exact .after he hsup (ih hsup)
      | none =>
        rw [hsup] at hl
        cases hl
        exact .root he hsup

theorem Sound.climb_iff (hs : s.Sound) (hc : s.LiveClass c) (owner : Option ClassId) :
    s.Climb c owner ↔ owner = s.sideOwner? c := by
  have hclimb := (hs.line_lineOf hc).climb rfl
  exact ⟨fun h => h.unique hclimb, fun h => h ▸ hclimb⟩

theorem Sound.makes_iff (hs : s.Sound) (hc : s.LiveClass c) (made : ModuleId × Image) :
    Makes s c made ↔ made = s.eigenclass (.class c) := by
  have hmakes := (hs.line_lineOf hc).makes rfl
  exact ⟨fun h => h.unique hmakes, fun h => h ▸ hmakes⟩

theorem instanceModule_of_holder {a : ModuleId} (h : s.holder? (.prototype c) = some a) :
    s.instanceModule c = a := by
  rw [holder?] at h
  split at h
  · exact Option.some.inj h
  · cases h

def first? (s : Image) (m : ModuleId) : Option ModuleId := (s.graph.node m).included.head?

theorem Descended.first_instanceModule (h : s.Descended) (hc : s.LiveClass c) :
    s.first? (s.instanceModule c) = some (s.classParent (s.superclass c)) := by
  obtain ⟨p, rest, hp, hin⟩ := h (.prototype c) (s.instanceModule c) (if_pos hc)
  obtain rfl := Option.some.inj hp
  rw [first?, hin]
  rfl

theorem Descended.first_eigenclass (h : s.Descended) {r : Receiver} {e : ModuleId}
    (he : s.eigenclass? r = some e) : ∃ p, s.parent? r = some p ∧ s.first? e = some p := by
  obtain ⟨p, rest, hp, hin⟩ := h (.singleton r) e he
  refine ⟨p, hp, ?_⟩
  rw [first?, hin]
  rfl

theorem Descended.eigenclass_above (h : s.Descended) {d : ClassId}
    (hd : ReflTransGen (fun c d => s.superclass c = some d) c d)
    (hc : (s.eigenclass? (.class c)).isSome) : (s.eigenclass? (.class d)).isSome := by
  induction hd with
  | refl => exact hc
  | tail _ hsup ih =>
    obtain ⟨e, he⟩ := Option.isSome_iff_exists.1 ih
    obtain ⟨p, hp, -⟩ := h.first_eigenclass he
    rw [parent?, hsup] at hp
    exact Option.isSome_iff_exists.2 ⟨p, hp⟩

end Image

theorem Edit.superclass {s : Image} (hs : s.Sound) {e : Edit} (hsafe : e.Safe s) {c : ClassId}
    (hc : s.LiveClass c) : (e.apply s).superclass c = s.superclass c := by
  cases e with
  | addModule name => rfl
  | materialize r p => exact Image.superclass_materialize hs hsafe.1 hsafe.2.1 hsafe.2.2 c
  | makeClass a above =>
    have hne : c ≠ ⟨s.classes.size⟩ := by
      rintro rfl
      exact Nat.lt_irrefl _ hc
    rw [Edit.apply, (Image.akin_makeClass hs a hsafe).superclass, Image.superclass,
      Image.classData_addClass, if_neg hne]
    rfl
  | allocate o =>
    rw [Edit.apply, Image.superclass, Image.classData, (Image.allocate_rest o).2.1]
    rfl
  | release o =>
    rw [Edit.apply, (Image.akin_release hs hsafe).superclass]
    rfl
  | _ => exact (Edit.akin hs hsafe trivial).superclass c

namespace Machine

open Image Relation

variable {ω : Type} {k : Manners} {u : Setup} {m m' : Machine ω}

theorem Moves.superclass {s s' : Image} (h : Moves k s s') (hs : s.Sound) {c : ClassId}
    (hc : s.LiveClass c) : s'.superclass c = s.superclass c := by
  rcases h with hb | ⟨o, ho, rfl⟩
  · refine (hb.invariant (I := fun s' => s'.LiveClass c ∧ s'.superclass c = s.superclass c) hs
      ⟨hc, rfl⟩ fun s₁ e hs₁ he hsafe ih => ⟨?_, ?_⟩).2.2
    · have hper : Persists (fun _ => True) s₁ (e.apply s₁) :=
        Edit.persists_of_lasting hs₁ hsafe he.2
      exact hper.liveClass c ih.1
    · rw [Edit.superclass hs₁ hsafe ih.1, ih.2]
  · exact Edit.superclass (e := .release o) hs ho hc

theorem Moves.persists {s s' : Image} (h : Moves k s s') (hs : s.Sound) {r : Receiver}
    (hr : s'.Alive r) : Persists (fun o => r = .object o) s s' := by
  rcases h with hb | ⟨o, ho, rfl⟩
  · exact hb.persists _ hs fun e he => he.2
  · refine (persists_release hs ho).mono fun a ha hao => ?_
    subst hao
    rw [ha] at hr
    have hreleased := hr.2
    rw [objectData_release hs ho] at hreleased
    cases hreleased

theorem Leads.persists {r : Receiver} (h : Leads k r m m') (hm : m.Reached k u) :
    Persists (fun o => r = .object o) m.world.image m'.world.image ∧
      ∀ c, m.world.image.LiveClass c →
        m'.world.image.superclass c = m.world.image.superclass c := by
  induction h with
  | refl => exact ⟨.refl _, fun _ _ => rfl⟩
  | step hl hp hstep hr ih =>
    have hm' := hl.reached hm
    have hmoves := hm'.moves hp hstep
    refine ⟨ih.1.trans (hmoves.persists hm'.sane.sound hr), fun c hc => ?_⟩
    rw [hmoves.superclass hm'.sane.sound (ih.1.liveClass c hc), ih.2 c hc]

/-- While a receiver is there, its eigenclass goes on including first what it did, and so does the
module of a class. -/
theorem Leads.first {r : Receiver} (h : Leads k r m m') (hm : m.Reached k u) {t : Target}
    {a : ModuleId} (ht : m.world.image.holder? t = some a)
    (hr : ∀ o, t = .singleton (.object o) → r = .object o) :
    m'.world.image.holder? t = some a ∧ m'.world.image.first? a = m.world.image.first? a := by
  obtain ⟨hper, hsup⟩ := h.persists hm
  have hs := hm.sane.sound
  have hs' := (h.reached hm).sane.sound
  -- A module keeps its place and its target, and so stands for the same thing.
  have hheld : ∀ t b, m.world.image.holder? t = some b →
      (∀ o, t = .singleton (.object o) → r = .object o) → m'.world.image.holder? t = some b := by
    intro t b hb hr
    have htarget := (hs.target_iff b t).2 hb
    have hstay := hper.module b (hs.live_holder hb) fun o ho =>
      hr o (Option.some.inj (htarget.symm.trans ho))
    exact (hs'.target_iff b t).1 (hstay.2.trans htarget)
  have hinstance : ∀ c, m.world.image.LiveClass c →
      m'.world.image.instanceModule c = m.world.image.instanceModule c := fun c hc =>
    instanceModule_of_holder (hheld (.prototype c) _ (if_pos hc) nofun)
  have hclass : ∀ o, t = .singleton (.object o) →
      m'.world.image.classOf o = m.world.image.classOf o := by
    rintro o rfl
    exact (hper.object o (hs.liveObject_of_eigenclass ht) (hr o rfl)).2
  have ht' := hheld t a ht hr
  refine ⟨ht', ?_⟩
  obtain ⟨p, rest, hp, hin⟩ := hm.descended t a ht
  obtain ⟨p', rest', hp', hin'⟩ := (h.reached hm).descended t a ht'
  have hkeep := hs.parentOf_mono hsup hinstance
    (fun c e he => hheld (.singleton (.class c)) e he nofun) hclass (hs.standing ht) hp
  obtain rfl := Option.some.inj (hkeep.symm.trans hp')
  rw [first?, first?, hin, hin']
  rfl

/-- In every reached state the superclass of a class is older than the class, the climbs along
superclass lines end, and a class with an eigenclass has only superclasses with one. Instance modules
and eigenclasses include first what they descend from, and go on doing so for as long as what they
belong to is there. -/
theorem Reached.class_sides (h : m.Reached k u) :
    let s := m.world.image
    (∀ c d, s.superclass c = some d → d.index < c.index) ∧
    (∀ c, s.LiveClass c → (∀ owner, s.Climb c owner ↔ owner = s.sideOwner? c) ∧
      ∀ made, Makes s c made ↔ made = s.eigenclass (.class c)) ∧
    (∀ c d, ReflTransGen (fun c d => s.superclass c = some d) c d →
      (s.eigenclass? (.class c)).isSome → (s.eigenclass? (.class d)).isSome) ∧
    (∀ c, s.LiveClass c → s.first? (s.instanceModule c) =
      match s.superclass c with
      | some d => some (s.instanceModule d)
      | none => some .kernel) ∧
    (∀ c e, s.eigenclass? (.class c) = some e → s.first? e =
      match s.superclass c with
      | some d => s.eigenclass? (.class d)
      | none => some .classRoot) ∧
    (∀ o e, s.eigenclass? (.object o) = some e →
      s.first? e = some (s.instanceModule (s.classOf o))) ∧
    (∀ a e, s.eigenclass? (.module a) = some e → s.first? e = some .moduleRoot) ∧
    (∀ r m', Leads k r m m' →
      let s' := m'.world.image
      (∀ e, s.eigenclass? r = some e → s'.eigenclass? r = some e ∧ s'.first? e = s.first? e) ∧
      ∀ c, s.LiveClass c → s'.superclass c = s.superclass c ∧
        s'.instanceModule c = s.instanceModule c ∧
        s'.first? (s'.instanceModule c) = s.first? (s.instanceModule c)) := by
  intro s
  have hs := h.sane.sound
  have hd := h.descended
  have hfirst : ∀ r e, s.eigenclass? r = some e → s.first? e = s.parent? r := by
    intro r e he
    obtain ⟨p, hp, hin⟩ := hd.first_eigenclass he
    rw [hin, hp]
  refine ⟨hs.superclass_lt, fun c hc => ⟨hs.climb_iff hc, hs.makes_iff hc⟩,
    fun c d hup hc => hd.eigenclass_above hup hc, fun c hc => ?_, fun c => hfirst (.class c),
    fun o => hfirst (.object o), fun a => hfirst (.module a), fun r m' hl => ⟨fun e he => ?_, ?_⟩⟩
  · rw [hd.first_instanceModule hc]
    cases s.superclass c with
    | none => rfl
    | some d => rfl
  · refine hl.first h (t := .singleton r) he fun o ho => ?_
    cases ho
    rfl
  · intro c hc
    obtain ⟨hheld, hin⟩ := hl.first h (t := .prototype c) (if_pos hc) nofun
    have hinstance := instanceModule_of_holder hheld
    exact ⟨(hl.persists h).2 c hc, hinstance, hinstance.symm ▸ hin⟩

/-- Where a class, its superclass and an object of the class all have eigenclasses, the object is about
to be released. -/
def parting : Machine Unit where
  current := .finished (.perform (.release ⟨0⟩) fun _ => .reply (.ok .void))
    { image := descending, host := () }
  op := some (.eigenclass (.class ⟨1⟩))

/-- The superclass has an eigenclass since the class was given one, and the release of the object
leaves both where they are. -/
theorem class_sides_parting :
    let s := parting.world.image
    s.superclass ⟨1⟩ = some ⟨0⟩ ∧ (⟨0⟩ : ClassId).index < (⟨1⟩ : ClassId).index ∧
    s.Climb ⟨1⟩ (some ⟨1⟩) ∧ s.eigenclass? (.class ⟨1⟩) = some ⟨8⟩ ∧
    (s.eigenclass? (.class ⟨0⟩)).isSome ∧ s.first? ⟨8⟩ = s.eigenclass? (.class ⟨0⟩) ∧
    s.first? ⟨6⟩ = some (s.instanceModule ⟨1⟩) ∧
    (s.release ⟨0⟩).first? ⟨8⟩ = s.first? ⟨8⟩ ∧
    (s.release ⟨0⟩).first? ((s.release ⟨0⟩).instanceModule ⟨1⟩) = s.first? (s.instanceModule ⟨1⟩) := by
  intro s
  obtain ⟨hlt, hclimb, habove, -, hside, hobject, -, hlater⟩ :=
    Reached.class_sides (m := parting) (reached_descending (k := {}) _)
  have hsup : s.superclass ⟨1⟩ = some ⟨0⟩ := by decide +kernel
  have hclass : s.eigenclass? (.class ⟨1⟩) = some ⟨8⟩ := by decide +kernel
  have hlive : s.LiveClass ⟨1⟩ := by decide +kernel
  have hline : s.first? ⟨8⟩ = match s.superclass ⟨1⟩ with
      | some d => s.eigenclass? (.class d)
      | none => some .classRoot := hside ⟨1⟩ ⟨8⟩ hclass
  rw [hsup] at hline
  have hl : Leads {} (.class ⟨1⟩) parting {
      current := .finished (.reply (.ok .void)) { image := s.release ⟨0⟩, host := () }
      op := some (.release ⟨0⟩) } :=
    .step (.refl parting hlive) ⟨trivial, by decide +kernel, fun _ _ ⟨_, hr, _⟩ => nomatch hr⟩
      (step_perform (Op.act_release ..)) (by decide +kernel)
  obtain ⟨hkept, hmodule⟩ := hlater _ _ hl
  exact ⟨hsup, hlt ⟨1⟩ ⟨0⟩ hsup, ((hclimb ⟨1⟩ hlive).1 _).2 (by decide +kernel), hclass,
    habove ⟨1⟩ ⟨0⟩ (.single hsup) (Option.isSome_iff_exists.2 ⟨_, hclass⟩), hline,
    hobject ⟨0⟩ ⟨6⟩ (by decide +kernel), (hkept ⟨8⟩ hclass).2, (hmodule ⟨1⟩ hlive).2.2⟩

end Machine

end Mixin
