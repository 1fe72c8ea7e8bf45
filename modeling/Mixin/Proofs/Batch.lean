import Mixin.Proofs.CleanModule
import Mixin.Proofs.Run.Absorb

/-! Inclusion in a batch. Sources can be included without being resolved, all but what they extend the
module with, and the module be resolved in the end. In between tables lag behind, and new eigenclasses
are made and resolved from a graph that is ahead of them; but all that lags reaches the module, so the
last resolution makes up for it. The outcome is that of resolving each inclusion at once. -/

namespace Mixin

namespace Image

variable {s s' : Image}

/-- Where nothing lags, twins answer to the same. -/
theorem Twin.agree (h : Twin s s') (hs : s.Sound) (hs' : s'.Sound)
    (hshown : s.ShownBut fun _ => False) (hshown' : s'.ShownBut fun _ => False) {r : Receiver}
    (hr : s.Alive r) (n : Symbol) : Slot.Agree (s.definedSlot? r n) (s'.definedSlot? r n) :=
  hshown.agree hshown' hs hs' hr.known ((h.alive r).2 hr).known id id
    (by rw [h.graph, h.effectiveModule])

end Image

namespace Effect

variable {ω : Type}

open Image

theorem mapM_mixIn (owner : ModuleId) (options : MixOptions) (sources : List Source)
    {ms : List ModuleId} {w : World ω} (hsil : w.image.Silent ms)
    (hms : Source.modulesAll sources ⊆ ms) :
    (sources.mapM fun source => mixIn owner source options) w =
      .finished (sources.map fun _ => .ok owner)
        { w with image := w.image.absorbAll sources (.into owner options) } := by
  induction sources generalizing w with
  | nil => rfl
  | cons source rest ih =>
    obtain ⟨hput, hsil₁⟩ := put_eq source (.into owner options) w ms hsil fun m hm =>
      hms (List.mem_append_left _ hm)
    have hmixIn : mixIn owner source options w = .finished (.ok owner) _ := attempt_of_finished hput
    have hrest := @ih { w with image := _ } hsil₁ fun m hm => hms (List.mem_append_right _ hm)
    rw [List.mapM_cons, bind_of_finished hmixIn, bind_of_finished hrest]
    rfl

end Effect

namespace Machine

open Effect Image

variable {ω : Type} {k : Manners} {u : Setup} {m : Machine ω}

/-- Where there are no hooks and no observers, sources included one after the other without being
resolved, and the module resolved in the end, come to the same as sources that are resolved each at
once: the same graph and eigenclasses, and the same real slots or none. -/
theorem Reached.mixIn_deferred (h : m.Reached k u) (hprompt : k.prompt = true)
    (hgate : k.offGate = true) (hgenuine : k.genuine = true) {owner : ModuleId}
    {sources : List Source} (hlive : m.world.image.graph.Live owner) (hne : owner ≠ .gate)
    (hmodules : ∀ a ∈ Source.modulesAll sources, m.world.image.graph.Live a)
    (hmethods : ∀ x ∈ Source.methodsAll sources, x.isStub = false)
    (hhooks : ∀ a ∈ Source.modulesAll sources, (m.world.image.graph.node a).hooks = {})
    (hobservers : m.world.image.observers = []) :
    ∃ w w' : World ω,
      (do let answers ← sources.mapM fun source => mixIn owner source .deferred
          change (·.resolve owner)
          pure answers) m.world = .finished (sources.map fun _ => .ok owner) w ∧
      (sources.mapM fun source => mixIn owner source {}) m.world =
        .finished (sources.map fun _ => .ok owner) w' ∧
      w'.image.graph = w.image.graph ∧
      (∀ r, w'.image.eigenclass? r = w.image.eigenclass? r) ∧
      ∀ r, w.image.Alive r →
        w'.image.Alive r ∧
        ∀ n, Slot.Agree (w.image.definedSlot? r n) (w'.image.definedSlot? r n) := by
  have hs := h.sane.sound
  have hc := h.coherent hprompt
  have hrooted := h.rooted hgate hgenuine
  have hsilent : m.world.image.Silent (Source.modulesAll sources) := ⟨hobservers, hhooks⟩
  have hready : ∀ options : MixOptions,
      Place.Ready .fair (fun _ => True) m.world.image (.into owner options) := fun _ =>
    ⟨⟨hlive, fun _ _ => trivial⟩, nofun, fun _ => hne⟩
  have hsrc : Source.Ready .fair (fun _ => True) m.world.image (Source.modulesAll sources)
      (Source.methodsAll sources) :=
    ⟨fun a ha => ⟨hmodules a ha, fun _ _ => trivial⟩, fun _ => hmethods⟩
  have hlate : Place.Timely (· = owner) (.into owner .deferred) := fun _ => rfl
  have hnever : Place.Timely (fun _ => False) (.into owner {}) := nofun
  have hmixIn := fun options => mapM_mixIn owner options sources hsilent (List.Subset.refl _)
  obtain ⟨hs₁, hrooted₁, hshown₁⟩ :=
    (absorbs_absorbAll sources _ _ hs (hready _) hlate hsrc).shown hs hc hrooted
  obtain ⟨hs₂, -, hshown₂⟩ :=
    (absorbs_absorbAll sources _ _ hs (hready _) hnever hsrc).shown hs hc hrooted
  -- All that lags reaches the module, and nothing does where each inclusion is resolved.
  have hshown₁' := (hshown₁.resolve hs₁ hrooted₁ owner).mono (Y := fun _ => False) <| by
    rintro x ⟨⟨a, rfl, hr⟩, hnot⟩
    exact hnot hr
  have hshown₂' := hshown₂.mono (Y := fun _ => False) fun x ⟨a, ha, _⟩ => ha
  have htwin := (Twin.of_resolve _ owner).symm.trans
    (Twin.absorbAll sources (.into owner .deferred {}) (.refl m.world.image))
  refine ⟨{ m.world with image := _ }, { m.world with image := _ }, ?_, hmixIn {}, htwin.graph,
    htwin.eigenclass, fun r hr => ⟨(htwin.alive r).2 hr, fun n => ?_⟩⟩
  · rw [bind_of_finished (hmixIn .deferred)]
    rfl
  · exact htwin.agree (hs₁.resolve owner) hs₂ hshown₁' hshown₂' hr n

/-- For the module of a class: a record that includes a root and extends the class with a record, and
then the eigenclass of an instance, which includes the class's module. -/
def mixture : List Source :=
  [.record [("greet", .program 0 false)] [.module .classRoot]
      [.record [("make", .program 1 true)] [.module .moduleRoot] []],
    .module ⟨5⟩]

/-- Before the class's module is resolved the instance does not answer to the record's method, and
afterwards it does, as it does where nothing is put off. -/
theorem mixIn_deferred_owned : ∃ lagging w w' : World Unit,
    (mixture.mapM fun source => mixIn ⟨4⟩ source .deferred) { image := owned, host := () } =
      .finished [.ok ⟨4⟩, .ok ⟨4⟩] lagging ∧
    (do let answers ← mixture.mapM fun source => mixIn ⟨4⟩ source .deferred
        change (·.resolve ⟨4⟩)
        pure answers) { image := owned, host := () } = .finished [.ok ⟨4⟩, .ok ⟨4⟩] w ∧
    (mixture.mapM fun source => mixIn ⟨4⟩ source {}) { image := owned, host := () } =
      .finished [.ok ⟨4⟩, .ok ⟨4⟩] w' ∧
    w'.image.graph = w.image.graph ∧
    (∀ r, w.image.Alive r → ∀ n, Slot.Agree (w.image.definedSlot? r n) (w'.image.definedSlot? r n)) ∧
    ∃ greet, w.image.symbols.find? "greet" = some greet ∧
      lagging.image.definedSlot? (.object ⟨0⟩) greet = none ∧
      w.image.definedSlot? (.object ⟨0⟩) greet = some (.direct (.program 0 false)) ∧
      w'.image.definedSlot? (.object ⟨0⟩) greet = some (.direct (.program 0 false)) := by
  have h := (tidy_owning (k := { prompt := true, offGate := true, genuine := true })
    (.reply (.ok .void))).reached
  have hlive : owned.graph.Live ⟨4⟩ := by decide +kernel
  have hmodules : ∀ a ∈ Source.modulesAll mixture, owned.graph.Live a := by decide +kernel
  have hmethods : ∀ x ∈ Source.methodsAll mixture, x.isStub = false := by decide +kernel
  have hhooks : ∀ a ∈ Source.modulesAll mixture, (owned.graph.node a).hooks = {} := by
    decide +kernel
  have hmixIn := fun options => mapM_mixIn (w := ({ image := owned, host := () } : World Unit)) ⟨4⟩
    options mixture ⟨rfl, hhooks⟩ (List.Subset.refl _)
  obtain ⟨w, w', hw, hw', hgraph, -, hagree⟩ :=
    h.mixIn_deferred rfl rfl rfl hlive (by decide) hmodules hmethods hhooks rfl
  have hresolved : w = { image := (owned.absorbAll mixture (.into ⟨4⟩ .deferred)).resolve ⟨4⟩
                         host := () } :=
    (Run.finished.inj (hw.symm.trans (bind_of_finished (hmixIn .deferred)))).2
  have hprompt : w' = { image := owned.absorbAll mixture (.into ⟨4⟩ {}), host := () } :=
    (Run.finished.inj (hw'.symm.trans (hmixIn {}))).2
  refine ⟨_, w, w', hmixIn .deferred, hw, hw', hgraph, fun r hr => (hagree r hr).2, ?_⟩
  rw [hresolved, hprompt]
  exact ⟨((owned.absorbAll mixture (.into ⟨4⟩ .deferred)).intern "greet").1, by decide +kernel,
    by decide +kernel, by decide +kernel, by decide +kernel⟩

end Machine

end Mixin
