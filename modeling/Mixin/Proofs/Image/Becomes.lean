import Mathlib.Logic.Relation
import Mixin.Proofs.Image.Edit

/-! Edits in sequence, and what stays while they are made. Only a release takes anything away: the
object, and its eigenclass with it. So an operation can rely on its receivers and modules as long as
nobody releases the objects that they belong to. -/

namespace Mixin

open Relation

namespace Image

variable {s s' s'' : Image}

/-- The receiver is the object or its eigenclass. -/
def Belongs (s : Image) (o : ObjectId) : Receiver → Prop
  | .object a => a = o
  | .class _ => False
  | .module m => s.eigenclass? (.object o) = some m

/-- What stays if no object in `held` is released. -/
structure Persists (held : ObjectId → Prop) (s s' : Image) : Prop where
  module : ∀ m, s.graph.Live m →
    (∀ o, (s.graph.node m).target = some (.singleton (.object o)) → held o) →
    s'.graph.Live m ∧ (s'.graph.node m).target = (s.graph.node m).target
  object : ∀ o, s.LiveObject o → held o → s'.LiveObject o ∧ s'.classOf o = s.classOf o
  liveClass : ∀ c, s.LiveClass c → s'.LiveClass c

/-- The receiver is there and stays if no object in `held` is released. -/
def Kept (held : ObjectId → Prop) (s : Image) (r : Receiver) : Prop :=
  s.Alive r ∧ ∀ o, s.Belongs o r → held o

namespace Persists

variable {held held' : ObjectId → Prop}

theorem refl (s : Image) : Persists held s s where
  module _ hm _ := ⟨hm, rfl⟩
  object _ ho _ := ⟨ho, rfl⟩
  liveClass _ hc := hc

theorem trans (h : Persists held s s') (h' : Persists held s' s'') : Persists held s s'' where
  module m hm hheld := by
    obtain ⟨hm', ht⟩ := h.module m hm hheld
    obtain ⟨hm'', ht'⟩ := h'.module m hm' fun o ho => hheld o (ht ▸ ho)
    exact ⟨hm'', ht'.trans ht⟩
  object o ho hheld := by
    obtain ⟨ho', hc⟩ := h.object o ho hheld
    obtain ⟨ho'', hc'⟩ := h'.object o ho' hheld
    exact ⟨ho'', hc'.trans hc⟩
  liveClass c hc := h'.liveClass c (h.liveClass c hc)

theorem mono (h : Persists held s s') (hle : ∀ o, held' o → held o) : Persists held' s s' where
  module m hm hheld := h.module m hm fun o ho => hle o (hheld o ho)
  object o ho hheld := h.object o ho (hle o hheld)
  liveClass := h.liveClass

theorem eigenclass (h : Persists held s s') (hs : s.Sound) (hs' : s'.Sound) {r : Receiver}
    {m : ModuleId} (hm : s.eigenclass? r = some m) (hheld : ∀ o, r = .object o → held o) :
    s'.eigenclass? r = some m := by
  have ht := (hs.target_iff m (.singleton r)).2 hm
  have hstay := h.module m (hs.live_eigenclass hm) fun o ho => by
    rw [ht] at ho
    cases ho
    exact hheld o rfl
  exact (hs'.target_iff m (.singleton r)).1 (hstay.2.trans ht)

theorem belongs (h : Persists held s s') (hs : s.Sound) (hs' : s'.Sound) {o : ObjectId}
    (ho : held o) {r : Receiver} (hr : s.Belongs o r) : s'.Belongs o r := by
  cases r with
  | object a => exact hr
  | «class» c => exact hr
  | module m =>
    refine h.eigenclass hs hs' hr fun a ha => ?_
    cases ha
    exact ho

theorem kept (h : Persists held s s') (hs : s.Sound) (hs' : s'.Sound) {r : Receiver}
    (hr : s.Kept held r) : s'.Kept held r := by
  obtain ⟨ha, hb⟩ := hr
  cases r with
  | object o =>
    have ho : held o := hb o rfl
    refine ⟨(h.object o ha ho).1, fun a hoa => ?_⟩
    have hoa' : o = a := hoa
    exact hoa' ▸ ho
  | «class» c => exact ⟨h.liveClass c ha, fun o ho => ho.elim⟩
  | module m =>
    have howner : ∀ o, (s.graph.node m).target = some (.singleton (.object o)) → held o :=
      fun o ho => hb o ((hs.target_iff m (.singleton (.object o))).1 ho)
    obtain ⟨hm, ht⟩ := h.module m ha howner
    refine ⟨hm, fun o ho => howner o ?_⟩
    rw [← ht]
    exact (hs'.target_iff m (.singleton (.object o))).2 ho

end Persists

theorem Akin.persists {held : ObjectId → Prop} (h : Akin s s') : Persists held s s' where
  module m hm _ := ⟨(h.live m).2 hm, h.target m⟩
  object o ho _ := ⟨(h.liveObject o).2 ho, h.classOf o⟩
  liveClass c hc := (h.liveClass c).2 hc

theorem persists_alloc {held : ObjectId → Prop} (hs : s.Sound) {n : Node}
    (hgraph : s'.graph = (s.graph.alloc n).2)
    (hobj : ∀ o, s.LiveObject o → s'.LiveObject o ∧ s'.classOf o = s.classOf o)
    (hcls : ∀ c, s.LiveClass c → s'.LiveClass c) : Persists held s s' where
  module m hm _ := by
    rw [hgraph, hs.graph.node_alloc_of_live hm]
    exact ⟨hs.graph.live_alloc.2 (Or.inr hm), rfl⟩
  object o ho _ := hobj o ho
  liveClass := hcls

theorem persists_addEigenclass {held : ObjectId → Prop} (hs : s.Sound) (r : Receiver) :
    Persists held s (s.addEigenclass r).2 := by
  refine persists_alloc hs (graph_addEigenclass r) (fun o ho => ⟨?_, ?_⟩) fun c hc => ?_
  · rw [LiveObject, released_addEigenclass]
    simpa [addEigenclass, LiveObject] using ho
  · simp only [addEigenclass, classOf_updateSingleton]
    rfl
  · simpa [addEigenclass, LiveClass] using hc

theorem persists_addClass {held : ObjectId → Prop} (hs : s.Sound) (a : Symbol)
    (above : Option ClassId) : Persists held s (s.addClass a above).2 := by
  refine persists_alloc hs rfl (fun o ho => ⟨ho, rfl⟩) fun c hc => ?_
  show c.index < (s.classes.push _).size
  rw [Array.size_push]
  exact Nat.lt_succ_of_lt hc

theorem persists_allocate {held : ObjectId → Prop} (hs : s.Sound) (c : ClassId) :
    Persists held s (s.allocate c).2 where
  module m hm _ := by
    rw [(s.allocate_rest c).1]
    exact ⟨hm, rfl⟩
  object o ho _ := by
    have hne : o ≠ (s.allocate c).1 := fun h => allocate_fresh hs c (h ▸ ho)
    rw [LiveObject, size_allocate hs, classOf, objectData_allocate hs, if_neg hne]
    exact ⟨⟨Or.inl ho.1, ho.2⟩, rfl⟩
  liveClass a ha := by
    rw [LiveClass, (s.allocate_rest c).2.1]
    exact ha

theorem persists_drop (hs : s.Sound) {o : ObjectId} (ho : s.LiveObject o) :
    Persists (· ≠ o) s (s.drop o) where
  module m hm hheld := by
    have hne : s.eigenclass? (.object o) ≠ some m := fun h =>
      hheld o ((hs.target_iff m _).2 h) rfl
    rw [live_drop, target_drop hs, if_neg hne]
    exact ⟨⟨hm, hne⟩, rfl⟩
  object a ha hne := by
    rw [LiveObject, classOf, objectData_drop ho.1, if_neg hne]
    have hsize : (s.drop o).objects.size = s.objects.size := Array.size_modify ..
    exact ⟨⟨hsize ▸ ha.1, ha.2⟩, rfl⟩
  liveClass _ hc := hc

theorem persists_release (hs : s.Sound) {o : ObjectId} (ho : s.LiveObject o) :
    Persists (· ≠ o) s (s.release o) :=
  (persists_drop hs ho).trans (akin_release hs ho).persists

end Image

namespace Edit

variable {s : Image}

theorem persists_of_lasting {held : ObjectId → Prop} (hs : s.Sound) {e : Edit} (h : e.Safe s)
    (hl : e.Lasting) : Image.Persists held s (e.apply s) := by
  cases e with
  | addModule name => exact Image.persists_alloc hs rfl (fun o ho => ⟨ho, rfl⟩) fun _ hc => hc
  | materialize r p =>
    obtain ⟨hr, hn, hp⟩ := h
    exact (Image.persists_addEigenclass hs r).trans (Image.akin_materialize hs hr hn hp).persists
  | makeClass a above =>
    exact (Image.persists_addClass hs a above).trans (Image.akin_makeClass hs a h).persists
  | allocate c => exact Image.persists_allocate hs c
  | release o => exact hl.elim
  | _ => exact (akin hs h trivial).persists

end Edit

namespace Image

variable {P P' : Edit → Prop} {s s' s'' : Image}

/-- One image becomes another over safe edits of some kind. -/
def Becomes (P : Edit → Prop) : Image → Image → Prop :=
  ReflTransGen fun s s' => ∃ e : Edit, P e ∧ e.Safe s ∧ s' = e.apply s

namespace Becomes

theorem refl (s : Image) : Becomes P s s := ReflTransGen.refl

theorem trans (h : Becomes P s s') (h' : Becomes P s' s'') : Becomes P s s'' :=
  ReflTransGen.trans h h'

theorem single {e : Edit} (hP : P e) (h : e.Safe s) : Becomes P s (e.apply s) :=
  ReflTransGen.single ⟨e, hP, h, rfl⟩

theorem mono (h : Becomes P s s') (hle : ∀ e, P e → P' e) : Becomes P' s s' :=
  ReflTransGen.mono (fun _ _ ⟨e, hP, hsafe, he⟩ => ⟨e, hle e hP, hsafe, he⟩) s s' h

theorem invariant {I : Image → Prop} (h : Becomes P s s') (hs : s.Sound) (hI : I s)
    (hstep : ∀ (s : Image) (e : Edit), s.Sound → P e → e.Safe s → I s → I (e.apply s)) :
    s'.Sound ∧ I s' := by
  induction h with
  | refl => exact ⟨hs, hI⟩
  | tail _ hstep' ih =>
    obtain ⟨e, hP, hsafe, rfl⟩ := hstep'
    exact ⟨Edit.sound ih.1 hsafe, hstep _ e ih.1 hP hsafe ih.2⟩

theorem sound (h : Becomes P s s') (hs : s.Sound) : s'.Sound :=
  (h.invariant (I := fun _ => True) hs trivial fun _ _ _ _ _ _ => trivial).1

theorem persists (held : ObjectId → Prop) (h : Becomes P s s') (hs : s.Sound)
    (hP : ∀ e, P e → e.Lasting) : Persists held s s' :=
  (h.invariant (I := Persists held s) hs (.refl s) fun _ e hs hp hsafe hper =>
    hper.trans (Edit.persists_of_lasting hs hsafe (hP e hp))).2

end Becomes

end Image

end Mixin
