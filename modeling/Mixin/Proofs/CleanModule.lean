import Mixin.Proofs.Run.Steps

/-! What a new module is like. Its node is blank but for the name, whichever place it is put into. As
a receiver it has nothing of its own either, unless the place was that of an eigenclass that had an
eigenclass itself: a release takes an object's eigenclass out of the graph and leaves what was kept
for it as a receiver, and that then passes to the new module. -/

namespace Mixin

namespace Image

variable {s s' : Image}

theorem Sound.node_defineModule (hs : s.Sound) (name : String) :
    ¬ s.graph.Live (s.defineModule name).1 ∧
      (s.defineModule name).2.graph.Live (s.defineModule name).1 ∧
      (s.defineModule name).2.graph.node (s.defineModule name).1 =
        { name := some (s.intern name).1 } :=
  ⟨Graph.alloc_fresh s.graph _, hs.graph.live_alloc.2 (Or.inl rfl),
    hs.graph.node_alloc.trans (if_pos rfl)⟩

theorem eigenclass_defineModule (name : String) (r : Receiver) :
    (s.defineModule name).2.eigenclass? r = s.eigenclass? r := rfl

/-- Only modules that are there have eigenclasses. -/
def Housed (s : Image) : Prop := ∀ a, s.eigenclass? (.module a) ≠ none → s.graph.Live a

/-- The eigenclass of the object, if there is one, has no eigenclass itself. -/
def Bare (s : Image) (o : ObjectId) : Prop :=
  ∀ e, s.eigenclass? (.object o) = some e → s.eigenclass? (.module e) = none

theorem Akin.housed (h : Akin s s') (hh : s.Housed) : s'.Housed := fun a ha => by
  rw [h.eigenclass] at ha
  exact (h.live a).2 (hh a ha)

theorem Housed.addEigenclass (hs : s.Sound) (hh : s.Housed) {r : Receiver} (hr : s.Alive r) :
    (s.addEigenclass r).2.Housed := by
  intro a ha
  rw [hs.live_addEigenclass]
  rw [eigenclass_addEigenclass hr.hasRecord] at ha
  split at ha
  · rename_i har
    subst har
    exact Or.inr hr
  · exact Or.inr (hh a ha)

theorem Housed.drop (hh : s.Housed) {o : ObjectId} (ho : s.LiveObject o) (hb : s.Bare o) :
    (s.drop o).Housed := by
  intro a ha
  rw [eigenclass_module_drop ho.1] at ha
  exact (live_drop a).2 ⟨hh a ha, fun he => ha (hb a he)⟩

/-- A release leaves what was kept for the eigenclass that it takes away, and the next module defined
takes both its place and that. -/
theorem eigenclass_reused (hs : s.Sound) {o : ObjectId} {e d : ModuleId}
    (he : s.eigenclass? (.object o) = some e) (hd : s.eigenclass? (.module e) = some d)
    (name : String) :
    ((s.release o).defineModule name).1 = e ∧
      ((s.release o).defineModule name).2.eigenclass? (.module e) = some d := by
  have ho := hs.liveObject_of_eigenclass he
  have hgraph : (s.release o).graph = (s.graph.remove e).2 := by
    rw [release_eq ho.2, graph_foldl_resolve, drop]
    dsimp only
    rw [he]
  constructor
  · show ((s.release o).graph.alloc _).1 = e
    rw [hgraph, Graph.alloc, Graph.free_remove]
  · rw [eigenclass_defineModule, (akin_release hs ho).eigenclass, eigenclass_module_drop ho.1]
    exact hd

end Image

namespace Edit

open Image

variable {s : Image}

theorem housed (hs : s.Sound) {e : Edit} (h : e.Safe s) (hb : ∀ o, e = .release o → s.Bare o)
    (hh : s.Housed) : (e.apply s).Housed := by
  cases e with
  | addModule name => exact fun a ha => hs.graph.live_alloc.2 (Or.inr (hh a ha))
  | materialize r p =>
    obtain ⟨hr, hn, hp⟩ := h
    exact (akin_materialize hs hr hn hp).housed (hh.addEigenclass hs hr)
  | makeClass a above =>
    refine (akin_makeClass hs a h).housed fun m hm => hs.graph.live_alloc.2 (Or.inr (hh m ?_))
    rwa [eigenclass_addClass] at hm
  | allocate c =>
    intro m hm
    rw [apply, eigenclass_allocate hs] at hm
    rw [apply, (s.allocate_rest c).1]
    exact hh m hm
  | release o => exact (akin_release hs h).housed (hh.drop h (hb o rfl))
  | _ => exact (akin hs h trivial).housed hh

end Edit

namespace Machine

open Image

variable {ω : Type} {k : Manners} {u : Setup} {m : Machine ω}

/-- The states that machines come to without releasing an object whose eigenclass has an eigenclass
itself. -/
inductive Tidy (k : Manners) (u : Setup) : Machine ω → Prop where
  | start (p : Program ω) (code : Code ω) (host : ω) :
      Tidy k u (Machine.start p { image := u.boot, code, host })
  | step {m m' : Machine ω} : Tidy k u m → m.Permitted k →
      (∀ o, m.Releases o → m.world.image.Bare o) → m.step = .inr m' → Tidy k u m'

theorem Tidy.reached (h : m.Tidy k u) : m.Reached k u := by
  induction h with
  | start p code host => exact .start p code host
  | step _ hp _ hstep ih => exact .step ih hp hstep

theorem Tidy.housed (h : m.Tidy k u) : m.world.image.Housed := by
  induction h with
  | start p code host => exact fun a ha => absurd (u.eigenclass_boot _) ha
  | @step m m' hm hp hb hstep ih =>
    have hs := hm.reached.sane
    rcases (sane_step hs hp hstep).1 with hmoves | ⟨o, hrel, ho, he⟩
    · refine (hmoves.invariant hs.sound ih fun s e hs hu hsafe hh => ?_).2
      refine Edit.housed hs hsafe (fun o he => ?_) hh
      rw [he] at hu
      exact hu.2.elim
    · rw [he]
      exact Edit.housed (e := .release o) hs.sound ho (fun _ he => Edit.release.inj he ▸ hb o hrel) ih

/-- Whatever place a new module is put into, it is not one that was there, it has a name and no methods,
edges or hooks, and no other module includes it or is included by it. -/
theorem Reached.defineModule_blank (h : m.Reached k u) (name : String) :
    let s := m.world.image
    let a := (s.defineModule name).1
    let s' := (s.defineModule name).2
    ¬ s.graph.Live a ∧ s'.graph.Live a ∧ s'.graph.node a = { name := some (s.intern name).1 } ∧
      ∀ b, a ∉ (s'.graph.node b).included ∧ a ∉ (s'.graph.node b).dependents := by
  intro s a s'
  have hs := h.sane.sound
  obtain ⟨hnew, hlive, hnode⟩ := hs.node_defineModule name
  have hgraph : s'.graph.Sound := hs.graph.alloc rfl rfl
  exact ⟨hnew, hlive, hnode, hgraph.unlisted (by rw [hnode]) (by rw [hnode])⟩

/-- As long as no object was released whose eigenclass had an eigenclass, a new module answers as
modules at large do and is only what they are. -/
theorem Tidy.defineModule_clean (h : m.Tidy k u) (name : String) :
    let s := m.world.image
    let a := (s.defineModule name).1
    let s' := (s.defineModule name).2
    ¬ s.graph.Live a ∧ s'.graph.Live a ∧ s'.graph.node a = { name := some (s.intern name).1 } ∧
      s'.eigenclass? (.module a) = none ∧
      (∀ n, s'.slot? (.module a) n = s'.moduleBase[n]?) ∧
      ∀ x, s'.isA (.module a) x = s'.graph.includes .moduleRoot (s'.moduleOf x) := by
  intro s a s'
  obtain ⟨hnew, hlive, hnode, -⟩ := h.reached.defineModule_blank name
  have hnone : s'.eigenclass? (.module a) = none := by
    by_contra hsome
    exact hnew (h.housed a hsome)
  refine ⟨hnew, hlive, hnode, hnone, fun n => ?_, fun x => ?_⟩
  · have hown : ¬ (s'.singleton (.module a)).eigenclass.isSome := by
      rw [show (s'.singleton (.module a)).eigenclass = none from hnone]
      exact Bool.false_ne_true
    rw [slot?, slotTable, if_neg hown]
  · rw [isA, effectiveModule, hnone]
    rfl

def owning (goesOn : Program Unit) : Program Unit :=
  .perform (.defineClass "K" none) fun _ => .perform (.instantiate ⟨0⟩ []) fun _ =>
    .perform (.eigenclass (.object ⟨0⟩)) fun _ => goesOn

def classed : Image := (({} : Setup).boot.defineClass "K" none).2

def owned : Image := ((classed.allocate ⟨0⟩).2.eigenclass (.object ⟨0⟩)).2

theorem tidy_owning (goesOn : Program Unit) :
    ({ current := .finished goesOn { image := owned, host := () }
       op := some (.eigenclass (.object ⟨0⟩)) } : Machine Unit).Tidy k {} := by
  have h₀ : Tidy k {} _ := .start (owning goesOn) {} ()
  have h₁ := h₀.step ⟨trivial, nofun, nofun⟩ nofun (step_perform (Op.act_defineClass ..))
  have h₂ := h₁.step ⟨trivial, by decide +kernel, nofun⟩ nofun
    (step_perform (Op.act_instantiate [] (by decide +kernel)))
  have h₃ := h₂.step ⟨trivial, by decide +kernel, nofun⟩ nofun
    (step_perform (Op.act_eigenclass ..))
  exact h₃

def recycled : Machine Unit where
  current := .finished (.reply (.ok .void)) { image := owned.release ⟨0⟩, host := () }
  op := some (.release ⟨0⟩)

theorem bare_owned : owned.Bare ⟨0⟩ := by
  intro e he
  have he' : owned.eigenclass? (.object ⟨0⟩) = some ⟨5⟩ := by decide +kernel
  obtain rfl := Option.some.inj (he'.symm.trans he)
  decide +kernel

theorem tidy_recycled : recycled.Tidy k {} := by
  refine .step (tidy_owning (.perform (.release ⟨0⟩) fun _ => .reply (.ok .void)))
    ⟨trivial, by decide +kernel, fun o _ ⟨r, hr, _⟩ => absurd hr List.not_mem_nil⟩ ?_
    (step_perform (Op.act_release ..))
  rintro o ⟨next, w, hcur⟩
  cases hcur
  exact bare_owned

/-- A module in the place of the object's eigenclass is like any other. -/
theorem defineModule_recycled :
    let s := recycled.world.image
    let a := (s.defineModule "M").1
    let s' := (s.defineModule "M").2
    owned.eigenclass? (.object ⟨0⟩) = some a ∧ s'.eigenclass? (.module a) = none ∧
      ∀ n, s'.slot? (.module a) n = s'.moduleBase[n]? := by
  obtain ⟨-, -, -, hnone, hslot, -⟩ := (tidy_recycled (k := {})).defineModule_clean "M"
  exact ⟨by decide +kernel, hnone, hslot⟩

/-- The object's eigenclass has an eigenclass, and that a method. -/
def layered : Image :=
  (owned.eigenclass (.module ⟨5⟩)).2.define ⟨6⟩ .inspect (.program 0 false) true

theorem tidy_layered (goesOn : Program Unit) :
    ({ current := .finished goesOn { image := layered, host := () }
       op := some (.define ⟨6⟩ .inspect (.program 0 false)) } : Machine Unit).Tidy k {} := by
  have h₀ := tidy_owning (k := k) (.perform (.eigenclass (.module ⟨5⟩)) fun _ =>
    .perform (.define ⟨6⟩ .inspect (.program 0 false)) fun _ => goesOn)
  have h₁ := h₀.step ⟨trivial, by decide +kernel, nofun⟩ nofun
    (step_perform (Op.act_eigenclass ..))
  have h₂ := h₁.step ⟨⟨fun _ => by decide, fun _ => rfl⟩, by decide +kernel, nofun⟩ nofun
    (step_perform (Op.act_define ..))
  exact h₂

def collapsed : Machine Unit where
  current := .finished (.reply (.ok .void)) { image := layered.release ⟨0⟩, host := () }
  op := some (.release ⟨0⟩)

theorem reached_collapsed : collapsed.Reached k {} :=
  .step (tidy_layered (.perform (.release ⟨0⟩) fun _ => .reply (.ok .void))).reached
    ⟨trivial, by decide +kernel, fun o _ ⟨r, hr, _⟩ => absurd hr List.not_mem_nil⟩
    (step_perform (Op.act_release ..))

/-- The next module is in the place of the object's eigenclass, answers to the method and counts the
forgotten eigenclass among what it is. -/
theorem defineModule_collapsed :
    let s := collapsed.world.image
    let a := (s.defineModule "M").1
    let s' := (s.defineModule "M").2
    collapsed.Reached {} {} ∧ s'.eigenclass? (.module a) = some ⟨6⟩ ∧
      s'.slot? (.module a) .inspect ≠ s'.moduleBase[Symbol.inspect]? ∧
      s'.isA (.module a) (.module ⟨6⟩) ≠ s'.graph.includes .moduleRoot ⟨6⟩ := by
  intro s a s'
  have hs := (tidy_layered (k := {}) (.reply (.ok .void))).reached.sane.sound
  have he : layered.eigenclass? (.object ⟨0⟩) = some ⟨5⟩ := by decide +kernel
  have hd : layered.eigenclass? (.module ⟨5⟩) = some ⟨6⟩ := by decide +kernel
  obtain ⟨hplace, hown⟩ := eigenclass_reused hs he hd "M"
  refine ⟨reached_collapsed, ?_, ?_, ?_⟩
  · show s'.eigenclass? (.module a) = some ⟨6⟩
    rwa [← hplace] at hown
  · decide +kernel
  · decide +kernel

end Machine

end Mixin
