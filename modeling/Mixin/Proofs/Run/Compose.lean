import Mixin.Proofs.Run.Dispatch

/-! Inclusion and extension as runs of usual edits. Hooks and observers run in the middle of them, so
the taker of a source and the modules it is made of have to stay meanwhile; a receiver that has been
given its eigenclass can still take more. -/

namespace Mixin

namespace Image

variable {s s' : Image} {k : Manners} {held : ObjectId → Prop}

/-- The receiver can be extended: it is there, or its eigenclass is. -/
def Able (held : ObjectId → Prop) (s : Image) (r : Receiver) : Prop :=
  s.Kept held r ∨ ∃ m, s.eigenclass? r = some m ∧ s.Kept held (.module m)

theorem Able.alive_or {r : Receiver} (h : s.Able held r) :
    s.Alive r ∨ ∃ m, s.eigenclass? r = some m := by
  rcases h with h | ⟨m, hm, -⟩
  · exact Or.inl h.1
  · exact Or.inr ⟨m, hm⟩

theorem Able.isHeld {o : ObjectId} (h : s.Able held (.object o)) : held o := by
  rcases h with h | ⟨m, hm, hk⟩
  · exact h.2 o rfl
  · exact hk.2 o hm

theorem Able.persists {r : Receiver} (h : s.Able held r) (hs : s.Sound) (hs' : s'.Sound)
    (hp : Persists held s s') : s'.Able held r := by
  have hheld : ∀ o, r = .object o → held o := by
    rintro o rfl
    exact h.isHeld
  rcases h with h | ⟨m, hm, hk⟩
  · exact Or.inl (hp.kept hs hs' h)
  · exact Or.inr ⟨m, hp.eigenclass hs hs' hm hheld, hp.kept hs hs' hk⟩

theorem kept_eigenclass (hs : s.Sound) {r : Receiver} {m : ModuleId} (hm : s.eigenclass? r = some m)
    (hheld : ∀ o, r = .object o → held o) : s.Kept held (.module m) := by
  refine ⟨hs.live_eigenclass hm, fun o ho => hheld o ?_⟩
  have ht := (hs.target_iff m (.singleton r)).2 hm
  have ht' := (hs.target_iff m (.singleton (.object o))).2 ho
  rw [ht] at ht'
  cases ht'
  rfl

theorem able_backed (hs : s.Sound) {m : ModuleId} (h : s.Kept held (.module m)) :
    s.Able held (s.backed m) := by
  unfold backed
  split
  · rename_i c ht
    have hm := (hs.target_iff m _).1 ht
    exact Or.inl ⟨liveClass_of_holder hm, fun o ho => ho.elim⟩
  · rename_i r ht
    exact Or.inr ⟨m, (hs.target_iff m _).1 ht, h⟩
  all_goals exact Or.inl h

theorem becomes_eigenclass (hs : s.Sound) {r : Receiver} (h : s.Able held r) :
    Becomes (Edit.Usual k) s (s.eigenclass r).2 ∧
      (s.eigenclass r).2.Kept held (.module (s.eigenclass r).1) ∧
      (s.eigenclass r).1 ≠ .gate := by
  obtain ⟨hb, hm⟩ := eigenclass_becomes hs h.alive_or
  have hs' := hb.sound hs
  refine ⟨hb.mono fun e he => he.usual, kept_eigenclass hs' hm ?_,
    hs'.ne_gate_of_holder (t := .singleton r) hm⟩
  rintro o rfl
  exact h.isHeld

theorem becomes_define {owner : ModuleId} (h : s.graph.Live owner) (name : Symbol) {m : Method}
    {resolving : Bool} (hp : k.prompt → resolving = true) (hg : k.offGate → owner ≠ .gate)
    (hm : k.genuine → m.isStub = false) :
    Becomes (Edit.Usual k) s (s.define owner name m resolving) :=
  becomes_edit (.define owner name m resolving) h ⟨hp, hg, hm⟩ trivial

end Image

namespace Place

/-- What takes a source in at this place is there and stays. -/
def Ready (k : Manners) (held : ObjectId → Prop) (s : Image) : Place → Prop
  | .into owner options =>
    s.Kept held (.module owner) ∧ (k.prompt → options.resolving = true) ∧
      (k.offGate → owner ≠ .gate)
  | .onto r => s.Able held r

variable {k : Manners} {held : ObjectId → Prop} {place : Place} {s s' : Image}

theorem Ready.persists (h : place.Ready k held s) (hs : s.Sound) (hs' : s'.Sound)
    (hp : Image.Persists held s s') : place.Ready k held s' := by
  cases place with
  | into owner options => exact ⟨hp.kept hs hs' h.1, h.2⟩
  | onto r => exact Image.Able.persists h hs hs' hp

theorem Ready.taker (h : place.Ready k held s) (hs : s.Sound) :
    Place.Ready k held (s.taker place).2 (.into (s.taker place).1.1 (s.taker place).1.2) := by
  cases place with
  | into owner options => exact h
  | onto r =>
    obtain ⟨-, hk, hne⟩ := Image.becomes_eigenclass (k := k) hs h
    exact ⟨hk, fun _ => rfl, fun _ => hne⟩

end Place

theorem Image.becomes_taker {k : Manners} {held : ObjectId → Prop} {place : Place} {s : Image}
    (hs : s.Sound) (h : place.Ready k held s) : Becomes (Edit.Usual k) s (s.taker place).2 := by
  cases place with
  | into owner options => exact .refl s
  | onto r => exact (becomes_eigenclass hs h).1

namespace Source

/-- The modules that are put somewhere are there and stay. -/
def Ready (k : Manners) (held : ObjectId → Prop) (s : Image) (ms : List ModuleId)
    (xs : List Method) : Prop :=
  (∀ m ∈ ms, s.Kept held (.module m)) ∧ (k.genuine → ∀ x ∈ xs, x.isStub = false)

variable {k : Manners} {held : ObjectId → Prop} {s s' : Image} {ms ms' : List ModuleId}
  {xs xs' : List Method}

theorem Ready.persists (h : Ready k held s ms xs) (hs : s.Sound) (hs' : s'.Sound)
    (hp : Image.Persists held s s') : Ready k held s' ms xs :=
  ⟨fun m hm => hp.kept hs hs' (h.1 m hm), h.2⟩

theorem Ready.mono (h : Ready k held s ms xs) (hm : ms' ⊆ ms) (hx : xs' ⊆ xs) :
    Ready k held s ms' xs' :=
  ⟨fun m h' => h.1 m (hm h'), fun hg x h' => h.2 hg x (hx h')⟩

end Source

namespace Effect

open Image

variable {ω : Type} {k : Manners} {held : ObjectId → Prop} {w : World ω}

theorem keeps_taker {place : Place} (hs : w.image.Sound) (hp : place.Ready k held w.image) :
    Keeps k held (fun taken s => Place.Ready k held s (.into taken.1 taken.2)) w
      (edit (·.taker place)) :=
  keeps_edit (becomes_taker hs hp) (hp.taker hs)

theorem keeps_notifyAdded (hs : w.image.Sound) (name : Symbol) (v : Value)
    (observers : List ObserverId) :
    Keeps k held (fun _ _ => True) w (notifyAdded name v observers) := by
  induction observers generalizing w with
  | nil => exact keeps_pure trivial
  | cons o rest ih =>
    exact Keeps.bind hs (keeps_invoke fun r hr => absurd hr List.not_mem_nil)
      fun _ w' hs' _ _ => ih hs'

theorem keeps_defineAll {owner : ModuleId} {options : MixOptions} (hs : w.image.Sound)
    (hp : Place.Ready k held w.image (.into owner options)) (notify : Value)
    (entries : List (String × Method))
    (hx : k.genuine → ∀ x ∈ entries.map Prod.snd, x.isStub = false) :
    Keeps k held (fun _ _ => True) w (defineAll owner notify options.resolving entries) := by
  induction entries generalizing w with
  | nil => exact keeps_pure trivial
  | cons entry rest ih =>
    obtain ⟨key, m⟩ := entry
    refine Keeps.bind (Q := fun _ _ => True) hs (keeps_edit (becomes_intern key) trivial)
      fun name w₁ hs₁ h₁ _ => ?_
    have hp₁ := hp.persists hs hs₁ h₁
    refine Keeps.bind (Q := fun _ _ => True) hs₁ ?_ fun _ w₂ hs₂ h₂ _ => ?_
    · refine keeps_change (becomes_define hp₁.1.1 name hp₁.2.1 hp₁.2.2 fun hg => ?_) trivial
      exact hx hg m List.mem_cons_self
    have hp₂ := hp₁.persists hs₁ hs₂ h₂
    refine Keeps.bind (Q := fun _ _ => True) hs₂ (keeps_read trivial) fun observers w₃ hs₃ h₃ _ => ?_
    refine Keeps.bind hs₃ (keeps_notifyAdded hs₃ name notify observers) fun _ w₄ hs₄ h₄ _ => ?_
    refine ih hs₄ (hp₂.persists hs₂ hs₄ (h₃.trans h₄)) fun hg x hx' => ?_
    exact hx hg x (List.mem_cons_of_mem _ hx')

theorem keeps_runHook (hs : w.image.Sound) (h : Option HookId) (v : Value) :
    Keeps k held (fun _ _ => True) w (runHook h v) := by
  unfold runHook
  split
  · exact Keeps.bind hs (keeps_invoke fun r hr => absurd hr List.not_mem_nil)
      fun _ w' _ _ _ => keeps_pure trivial
  · exact keeps_pure trivial

mutual

theorem keeps_put (source : Source) (place : Place) (w : World ω) (hs : w.image.Sound)
    (hp : place.Ready k held w.image)
    (hsrc : Source.Ready k held w.image source.modules source.methods) :
    Keeps k held (fun _ _ => True) w (put source place) := by
  match source with
  | .module other =>
    rw [put]
    refine Keeps.bind hs (keeps_taker hs hp) fun taken w₁ hs₁ h₁ ht₁ => ?_
    have hother := (hsrc.persists hs hs₁ h₁).1 other (List.mem_singleton_self _)
    refine Keeps.bind (Q := fun _ _ => True) hs₁ ?_ fun _ w₂ hs₂ h₂ _ => ?_
    · exact keeps_change (becomes_edit (.link taken.1 other taken.2.resolving)
        ⟨ht₁.1.1, hother.1⟩ ht₁.2 trivial) trivial
    refine Keeps.bind (Q := fun _ _ => True) hs₂ (keeps_read trivial) fun hook w₃ hs₃ _ _ => ?_
    refine Keeps.bind (Q := fun _ _ => True) hs₃ (keeps_read trivial) fun v w₄ hs₄ _ _ => ?_
    exact Keeps.bind hs₄ (keeps_runHook hs₄ hook v) fun _ _ _ _ _ => keeps_pure trivial
  | .record methods mixins extensions =>
    rw [put]
    refine Keeps.bind hs (keeps_taker hs hp) fun taken w₁ hs₁ h₁ ht₁ => ?_
    have hsrc₁ := hsrc.persists hs hs₁ h₁
    refine Keeps.attempt hs₁ (keeps_putAll mixins (.into taken.1 taken.2) w₁ hs₁ ht₁
      (hsrc₁.mono ?_ ?_)) fun _ w₂ hs₂ h₂ => ?_
    · exact List.subset_append_left _ _
    · exact fun x hx => List.mem_append_left _ (List.mem_append_right _ hx)
    have ht₂ := ht₁.persists hs₁ hs₂ h₂
    have hsrc₂ := hsrc₁.persists hs₁ hs₂ h₂
    refine Keeps.bind (Q := fun r s => s.Able held r ∧ Place.Ready k held s (.into taken.1 taken.2) ∧
      Source.Ready k held s (Source.modulesAll extensions) (Source.methodsAll extensions)) hs₂
      (keeps_read ⟨able_backed hs₂ ht₂.1, ht₂, hsrc₂.mono ?_ ?_⟩) fun r w₃ hs₃ h₃ hr => ?_
    · exact List.subset_append_right _ _
    · exact List.subset_append_right _ _
    refine Keeps.attempt hs₃ (keeps_putAll extensions (.onto r) w₃ hs₃ hr.1 hr.2.2)
      fun _ w₄ hs₄ h₄ => ?_
    have ht₄ := hr.2.1.persists hs₃ hs₄ h₄
    refine Keeps.bind (Q := fun _ _ => True) hs₄ (keeps_read trivial) fun notify w₅ hs₅ h₅ _ => ?_
    refine Keeps.bind hs₅ (keeps_defineAll hs₅ (ht₄.persists hs₄ hs₅ h₅) notify methods
      fun hg x hx => ?_) fun _ _ _ _ _ => keeps_pure trivial
    exact hsrc.2 hg x (List.mem_append_left _ (List.mem_append_left _ hx))

theorem keeps_putAll (sources : List Source) (place : Place) (w : World ω) (hs : w.image.Sound)
    (hp : place.Ready k held w.image)
    (hsrc : Source.Ready k held w.image (Source.modulesAll sources) (Source.methodsAll sources)) :
    Keeps k held (fun _ _ => True) w (putAll sources place) := by
  match sources with
  | [] => exact keeps_pure trivial
  | source :: rest =>
    rw [putAll]
    refine Keeps.attempt hs (keeps_put source place w hs hp (hsrc.mono ?_ ?_)) fun _ w' hs' h' => ?_
    · exact List.subset_append_left _ _
    · exact List.subset_append_left _ _
    refine keeps_putAll rest place w' hs' (hp.persists hs hs' h') ((hsrc.persists hs hs' h').mono ?_ ?_)
    · exact List.subset_append_right _ _
    · exact List.subset_append_right _ _

end

theorem keeps_instantiate {c : ClassId} (hs : w.image.Sound) (hc : w.image.LiveClass c)
    (args : List Value) : Keeps k held (fun _ _ => True) w (instantiate c args) := by
  refine Keeps.bind (Q := fun o s => s.LiveObject o) hs ?_ fun o w₁ hs₁ _ ho₁ => ?_
  · refine keeps_edit (becomes_edit (.allocate c) hc trivial trivial) ?_
    rw [LiveObject, size_allocate hs, objectData_allocate hs, if_pos rfl]
    exact ⟨Or.inr rfl, rfl⟩
  refine Keeps.bind (Q := fun _ s => s.LiveObject o) hs₁ (keeps_read ho₁) fun b w₂ hs₂ _ ho₂ => ?_
  split
  · exact Keeps.attempt hs₂ (keeps_send hs₂ (r := .object o) ho₂ _ _) fun _ _ _ _ =>
      keeps_pure trivial
  · exact keeps_pure trivial

theorem keeps_defineUnique {owner : ModuleId} {name : Symbol} {m : Method} (hs : w.image.Sound)
    (h : w.image.graph.Live owner) (hg : k.offGate → owner ≠ .gate)
    (hm : k.genuine → m.isStub = false) :
    Keeps k held (fun _ _ => True) w (defineUnique owner name m) := by
  refine Keeps.bind (Q := fun _ s => s.graph.Live owner) hs (keeps_read h) fun b w₁ hs₁ _ h₁ => ?_
  split
  · exact Keeps.bind (Q := fun _ _ => True) hs₁ (keeps_read trivial) fun _ _ _ _ _ =>
      keeps_pure trivial
  · refine Keeps.bind (Q := fun _ _ => True) hs₁ ?_ fun _ _ _ _ _ => keeps_pure trivial
    exact keeps_change (becomes_define h₁ name (fun _ => rfl) hg hm) trivial

end Effect

namespace Image

variable {s : Image} {k : Manners}

theorem becomes_defineModule (name : String) :
    Becomes (Edit.Usual k) s (s.defineModule name).2 :=
  (becomes_intern name).trans (becomes_edit (.addModule _) trivial trivial trivial)

theorem becomes_defineClass (name : String) {above : Option ClassId}
    (h : ∀ c, above = some c → s.LiveClass c) :
    Becomes (Edit.Usual k) s (s.defineClass name above).2 := by
  have hsafe : (Edit.makeClass (s.intern name).1 above).Safe (s.intern name).2 := h
  have hmake := becomes_edit (k := k) _ hsafe trivial trivial
  rw [defineClass_eq]
  dsimp only
  exact (becomes_intern name).trans hmake

theorem instanceModule_ne_gate (hs : s.Sound) {c : ClassId} (h : s.LiveClass c) :
    s.instanceModule c ≠ .gate :=
  hs.ne_gate_of_holder (t := .prototype c) (if_pos h)

theorem becomes_defineInstanceMethod (hs : s.Sound) {c : ClassId} (h : s.LiveClass c)
    (name : String) {m : Method} (hm : k.genuine → m.isStub = false) :
    Becomes (Edit.Usual k) s (s.defineInstanceMethod c name m) := by
  refine (becomes_intern name).trans ?_
  exact becomes_define (s := (s.intern name).2) (hs.live_instanceModule h) _ (fun _ => rfl)
    (fun _ => instanceModule_ne_gate hs h) hm

theorem becomes_defineClassMethod (hs : s.Sound) {c : ClassId} (h : s.LiveClass c)
    (name : String) {m : Method} (hm : k.genuine → m.isStub = false) :
    Becomes (Edit.Usual k) s (s.defineClassMethod c name m) := by
  have hi : Becomes (Edit.Usual k) s (s.intern name).2 := becomes_intern name
  have hs₁ := hi.sound hs
  have hable : (s.intern name).2.Able (fun _ => True) (.class c) := Or.inl ⟨h, fun _ _ => trivial⟩
  obtain ⟨hb, hkept, hne⟩ := becomes_eigenclass (k := k) hs₁ hable
  have hdefine := becomes_define hkept.1 (s.intern name).1 (fun _ => rfl) (fun _ => hne) hm
  exact (hi.trans hb).trans hdefine

theorem becomes_setField {o : ObjectId} (h : s.LiveObject o) (name : String) (v : Value) :
    Becomes (Edit.Usual k) s (s.setField o name v) :=
  (becomes_intern name).trans (becomes_edit (.store o _ v) h trivial trivial)

end Image

namespace Op

open Image Effect

variable {ω : Type} {k : Manners} {w : World ω}

/-- Every operation but a release is a run of usual edits, while the objects that it works on are
there. -/
theorem keeps_act {op : Op} (hs : w.image.Sound) (hr : ∀ r ∈ op.subjects, w.image.Alive r)
    (ha : op.Allowed k) (hn : ∀ o, op ≠ .release o) :
    Keeps k (fun o => ∃ r ∈ op.subjects, w.image.Belongs o r) (fun _ _ => True) w op.act := by
  have hkept : ∀ r ∈ op.subjects,
      w.image.Kept (fun o => ∃ r ∈ op.subjects, w.image.Belongs o r) r :=
    fun r h => ⟨hr r h, fun o ho => ⟨r, h, ho⟩⟩
  cases op with
  | intern text =>
    unfold act
    apply keeps_editing
    exact becomes_intern text
  | defineModule name =>
    unfold act
    apply keeps_editing
    exact becomes_defineModule name
  | define owner name m =>
    unfold act
    apply keeps_changing
    exact becomes_define (hr _ (List.mem_singleton_self _)) name (fun _ => rfl) ha.1 ha.2
  | defineUnique owner name m =>
    exact keeps_defineUnique hs (hr _ (List.mem_singleton_self _)) ha.1 ha.2
  | mixIn owner source options =>
    refine Keeps.attempt hs (keeps_put source (.into owner options) w hs ?_
      ⟨fun m hm => ?_, ha.2.2⟩) fun _ _ _ _ => keeps_pure trivial
    · exact ⟨hkept _ List.mem_cons_self, ha.1, ha.2.1⟩
    · exact hkept _ (List.mem_cons_of_mem _ (List.mem_map_of_mem hm))
  | extend r source =>
    refine Keeps.attempt hs (keeps_put source (.onto r) w hs ?_ ⟨fun m hm => ?_, ha⟩)
      fun _ _ _ _ => keeps_pure trivial
    · exact Or.inl (hkept _ List.mem_cons_self)
    · exact hkept _ (List.mem_cons_of_mem _ (List.mem_map_of_mem hm))
  | eigenclass r =>
    unfold act
    apply keeps_editing
    exact (becomes_eigenclass hs (Or.inl (hkept _ (List.mem_singleton_self _)))).1
  | resolve m =>
    unfold act
    apply keeps_changing
    exact becomes_edit (.resolve m) trivial trivial trivial
  | defineClass name superclass =>
    unfold act
    apply keeps_editing
    refine becomes_defineClass name fun c hc => ?_
    exact hr (.class c) (by simp [subjects, hc])
  | defineInstanceMethod c name m =>
    unfold act
    apply keeps_changing
    exact becomes_defineInstanceMethod hs (hr _ (List.mem_singleton_self _)) name ha
  | defineClassMethod c name m =>
    unfold act
    apply keeps_changing
    exact becomes_defineClassMethod hs (hr _ (List.mem_singleton_self _)) name ha
  | instantiate c args => exact keeps_instantiate hs (hr _ (List.mem_singleton_self _)) args
  | release o => exact absurd rfl (hn o)
  | setField o name v =>
    unfold act
    apply keeps_changing
    exact becomes_setField (hr _ (List.mem_singleton_self _)) name v
  | send r name args => exact keeps_send hs (hr _ (List.mem_singleton_self _)) name args
  | describe r => exact keeps_describe hs (hr _ (List.mem_singleton_self _))
  | next call args => exact keeps_next hs (hr _ (List.mem_singleton_self _)) args
  | bind r name => exact keeps_bindMethod hs (hr _ (List.mem_singleton_self _)) name
  | callBound b args => exact keeps_enter hs (hr _ (List.mem_singleton_self _)) _ _ _

end Op

end Mixin
