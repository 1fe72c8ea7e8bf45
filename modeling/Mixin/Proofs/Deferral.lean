import Mixin.Proofs.Resolution
import Mixin.Proofs.Run.Withheld

/-! Deferred inclusion as receivers see it. A source without extensions shows in nobody's slots until
the module is resolved. An extension list is not put off with the rest: what it leads to shows at once to
those who answer through the eigenclass, and where a name comes under watch by it, the gate is resolved,
which lets everybody see what had been put off by then. Who has no part in either module sees nothing
of all this. -/

namespace Mixin

namespace Image

variable {s s' : Image} {owner : ModuleId} {r a : Receiver} {opened known : Prop}
  {ps : List Piece}

theorem Withholds.slotTable (h : Withholds owner r opened known ps s s') (hs : s.Sound)
    (ha : s.Alive a) (hout : opened → known ∧ s'.effectiveModule a = s.effectiveModule a ∧
      ∀ e, s'.eigenclass? r = some e → ¬ s'.graph.Reaches (s'.effectiveModule a) e) :
    s'.slotTable a = s.slotTable a := by
  have heff : s'.effectiveModule a = s.effectiveModule a := by
    by_cases hopened : opened
    · exact (hout hopened).2.1
    · exact (h.akin hopened).effectiveModule a
  obtain ⟨t, ht, htable⟩ := hs.target_effectiveModule ha.known
  obtain ⟨t', ht', htable'⟩ := h.sound.target_effectiveModule (h.alive a ha).known
  rw [heff] at ht' hout
  have htarget := h.target _ (hs.live_effectiveModule ha.known)
  obtain rfl : t' = t := Option.some.inj (ht'.symm.trans (htarget.trans ht))
  rw [← htable, ← htable', h.table _ t' ht fun hopened => ⟨(hout hopened).1, (hout hopened).2.2⟩]

/-- Who is apart has the same real slots as where nothing was pending, whatever has been resolved on the
way. -/
theorem Withholds.agree (h : Withholds owner r opened known ps s s') (hs : s.Sound)
    (hc : s.Coherent) (hrooted : s.graph.Rooted) (hshown : s'.ShownBut (s'.Behind (· = owner)))
    (ha : s.Alive a) (hapart : s'.Apart owner r a) (n : Symbol) :
    Slot.Agree (s.definedSlot? a n) (s'.definedSlot? a n) := by
  have hlookup := h.bypasses.lookup hrooted.hidden a ha hapart n
  refine (hc.shown hrooted).agree hshown hs h.sound ha.known (h.alive a ha).known id ?_
    (congrArg List.getLast? hlookup)
  rintro ⟨b, rfl, hreach⟩
  exact hapart.1 hreach

theorem definedSlot_of_slotTable (h : s'.slotTable a = s.slotTable a) (n : Symbol) :
    s'.respondsTo a n = s.respondsTo a n ∧ s'.definedSlot? a n = s.definedSlot? a n := by
  have hslot : s'.definedSlot? a n = s.definedSlot? a n := by
    rw [definedSlot?, definedSlot?, slot?, slot?, h]
  exact ⟨congrArg Option.isSome hslot, hslot⟩

end Image

namespace Machine

open Image

variable {ω : Type} {k : Manners} {u : Setup} {m : Machine ω}

/-- Where there are no hooks and no observers, a deferred inclusion ends with all of the source in the
graph, and every receiver responds to the same names from the same slots as before. If the source
extends something, that is so as long as no name comes under watch by it, for whoever answers through
the module that he answered through before, unless that is composed of the opened eigenclass. Whoever
is apart from the module and from that eigenclass keeps his slots whatever comes under watch, provided
that no edits were pending. -/
theorem Reached.mixIn_withheld (h : m.Reached k u) {owner : ModuleId} {source : Source}
    (hlive : m.world.image.graph.Live owner)
    (hmodules : ∀ x ∈ source.modules, m.world.image.graph.Live x)
    (hhooks : ∀ x ∈ source.modules, (m.world.image.graph.node x).hooks = {})
    (hobservers : m.world.image.observers = []) :
    ∃ w : World ω, Effect.mixIn owner source .deferred m.world = .finished (.ok owner) w ∧
      let s := m.world.image
      let s' := w.image
      Gathers owner (fun _ => True) (source.pieces false) s s' ∧
      ∀ a, s.Alive a → s'.Alive a ∧
        ((source.extends? = true → s.Acquainted (source.pieces false) ∧
            s'.effectiveModule a = s.effectiveModule a ∧
            ∀ e, s'.eigenclass? (s.backed owner) = some e →
              ¬ s'.graph.Reaches (s'.effectiveModule a) e) →
          ∀ n, s'.respondsTo a n = s.respondsTo a n ∧
            s'.definedSlot? a n = s.definedSlot? a n) ∧
        (k.prompt = true → k.offGate = true → k.genuine = true → owner ≠ .gate →
          (∀ x ∈ source.methods, x.isStub = false) → s'.Apart owner (s.backed owner) a →
          ∀ n, s'.respondsTo a n = s.respondsTo a n ∧
            Slot.Agree (s.definedSlot? a n) (s'.definedSlot? a n)) := by
  have hs := h.sane.sound
  have hstage : m.world.image.Stage owner (m.world.image.backed owner) [] source.modules :=
    ⟨hs, hlive, rfl, hobservers, fun x hx => ⟨hmodules x hx, hhooks x hx⟩⟩
  have hw : Withholds owner (m.world.image.backed owner) (source.extends? = true)
      (m.world.image.Acquainted (source.pieces false)) (source.pieces false) m.world.image
      (m.world.image.absorb source (.into owner .deferred)) :=
    withholds_absorb source false (.into owner .deferred) _ hstage ⟨rfl, rfl⟩
      nofun (fun h => h.resolve_left nofun) id
  refine ⟨{ m.world with image := _ }, Effect.mixIn_eq .deferred ⟨hobservers, hhooks⟩,
    hw.toGathers, fun a ha => ⟨hw.alive a ha, fun hout n => ?_, ?_⟩⟩
  · exact definedSlot_of_slotTable (hw.slotTable hs ha hout) n
  · intro hprompt hgate hgenuine hne hmethods hapart n
    have hc := h.coherent hprompt
    have hrooted := h.rooted hgate hgenuine
    have hready : Place.Ready .fair (fun _ => True) m.world.image (.into owner .deferred) :=
      ⟨⟨hlive, fun _ _ => trivial⟩, nofun, fun _ => hne⟩
    have hlate : Place.Timely (· = owner) (.into owner .deferred) := fun _ => rfl
    have hb := absorbs_absorb source _ _ hs hready hlate
      ⟨fun x hx => ⟨hmodules x hx, fun _ _ => trivial⟩, fun _ => hmethods⟩
    obtain ⟨-, -, hshown⟩ := hb.shown hs hc hrooted
    have hagree := hw.agree hs hc hrooted hshown ha hapart n
    exact ⟨hagree.isSome, hagree⟩

/-- For the module of a class: a record with a method, which puts an initializer onto the class. -/
def reticent : Source :=
  .record [("greet", .program 0 false)] [] [.record [("initialize", .program 1 false)] [] []]

/-- For the module of a class: a record that includes one method, and puts another onto the class. -/
def forthcoming : Source := .record [] [parcel] [.record [("make", .program 1 false)] [] []]

/-- The instance does not respond to the record's method yet, whether the class has been extended or
not, though the graph has the method; the class has its initializer at once. The kernel responds to what
it did, even where a name comes under watch. -/
theorem mixIn_withheld_owned :
    let opened := owned.absorb reticent (.into ⟨4⟩ .deferred)
    let shown := owned.absorb forthcoming (.into ⟨4⟩ .deferred)
    let greet := (postponed.intern "greet").1
    postponed.graph.chain (postponed.effectiveModule (.object ⟨0⟩)) greet = [.program 0 false] ∧
    (∀ n, postponed.respondsTo (.object ⟨0⟩) n = owned.respondsTo (.object ⟨0⟩) n) ∧
    opened.graph.chain (opened.effectiveModule (.object ⟨0⟩)) greet = [.program 0 false] ∧
    (∀ n, opened.respondsTo (.object ⟨0⟩) n = owned.respondsTo (.object ⟨0⟩) n) ∧
    owned.respondsTo (.class ⟨0⟩) .initializer = false ∧
    opened.respondsTo (.class ⟨0⟩) .initializer = true ∧
    shown.gate.watched ≠ owned.gate.watched ∧
    ∀ n, shown.respondsTo (.module .kernel) n = owned.respondsTo (.module .kernel) n := by
  intro opened shown greet
  have h := (tidy_owning (k := { prompt := true, offGate := true, genuine := true })
    (.reply (.ok .void))).reached
  have hlive : owned.graph.Live ⟨4⟩ := by decide +kernel
  have ha : owned.Alive (.object ⟨0⟩) := by decide +kernel
  have hkernel : owned.Alive (.module .kernel) := by decide +kernel
  have hmixIn : ∀ source : Source, source.modules = [] →
      Effect.mixIn ⟨4⟩ source .deferred ({ image := owned, host := () } : World Unit) =
        .finished (.ok ⟨4⟩) { image := owned.absorb source (.into ⟨4⟩ .deferred), host := () } :=
    fun source hnone => Effect.mixIn_eq .deferred ⟨rfl, by rw [hnone]; exact nofun⟩
  have hsame : ∀ source : Source, source.modules = [] →
      let s' := owned.absorb source (.into ⟨4⟩ .deferred)
      (source.extends? = true → owned.Acquainted (source.pieces false) ∧
        s'.effectiveModule (.object ⟨0⟩) = owned.effectiveModule (.object ⟨0⟩) ∧
        ∀ e, s'.eigenclass? (owned.backed ⟨4⟩) = some e →
          ¬ s'.graph.Reaches (s'.effectiveModule (.object ⟨0⟩)) e) →
      ∀ n, s'.respondsTo (.object ⟨0⟩) n = owned.respondsTo (.object ⟨0⟩) n := by
    intro source hnone s' hout n
    have hmodules : ∀ x, x ∉ source.modules := fun x hx => by
      rw [hnone] at hx
      cases hx
    obtain ⟨w, hw, -, hall⟩ := h.mixIn_withheld hlive (fun x hx => absurd hx (hmodules x))
      (fun x hx => absurd hx (hmodules x)) rfl
    obtain rfl := (Run.finished.inj (hw.symm.trans (hmixIn source hnone))).2
    exact ((hall _ ha).2.1 hout n).1
  have hopened : opened.eigenclass? (owned.backed ⟨4⟩) = some ⟨6⟩ := by decide +kernel
  have hapart : ¬ opened.graph.Reaches (opened.effectiveModule (.object ⟨0⟩)) ⟨6⟩ := by
    decide +kernel
  have hknown : owned.symbols.find? "initialize" = some .initializer ∧
      owned.gate.admits .initializer = false := by
    decide +kernel
  refine ⟨by decide +kernel, hsame parcel rfl nofun, by decide +kernel,
    hsame reticent rfl fun _ => ⟨?_, by decide +kernel, fun e he hreach => ?_⟩, by decide +kernel,
    by decide +kernel, by decide +kernel, ?_⟩
  · intro key x hp
    have hpieces : reticent.pieces false = [⟨true, .entry "initialize" (.program 1 false)⟩,
      ⟨false, .entry "greet" (.program 0 false)⟩] := rfl
    rw [hpieces] at hp
    obtain ⟨rfl, rfl⟩ : key = "initialize" ∧ x = .program 1 false := by simpa using hp
    exact ⟨_, hknown⟩
  · obtain rfl := Option.some.inj (hopened.symm.trans he)
    exact hapart hreach
  · have hshown : shown.eigenclass? (owned.backed ⟨4⟩) = some ⟨6⟩ := by decide +kernel
    have hclear : ¬ shown.graph.Reaches (shown.effectiveModule (.module .kernel)) ⟨4⟩ ∧
        ¬ shown.graph.Reaches (shown.effectiveModule (.module .kernel)) ⟨6⟩ := by decide +kernel
    have hkernel' : shown.Apart ⟨4⟩ (owned.backed ⟨4⟩) (.module .kernel) := by
      refine ⟨hclear.1, fun e he => ?_⟩
      obtain rfl := Option.some.inj (hshown.symm.trans he)
      exact hclear.2
    have hmodules : ∀ x, x ∉ forthcoming.modules := fun _ => List.not_mem_nil
    obtain ⟨w, hw, -, hall⟩ := h.mixIn_withheld hlive (fun x hx => absurd hx (hmodules x))
      (fun x hx => absurd hx (hmodules x)) rfl
    obtain rfl := (Run.finished.inj (hw.symm.trans (hmixIn forthcoming rfl))).2
    exact fun n => ((hall _ hkernel).2.2 rfl rfl rfl (by decide) (by decide) hkernel' n).1

/-- An extension is not put off with the rest: the class responds to its method at once. And since the
name comes under watch, the instance responds to the included method as well. -/
theorem mixIn_shows_forthcoming :
    let s' := owned.absorb forthcoming (.into ⟨4⟩ .deferred)
    let greet := (s'.intern "greet").1
    let make := (s'.intern "make").1
    (∃ m : Machine Unit, m.Reached { prompt := true, offGate := true, genuine := true } {} ∧
      m.world.image = owned ∧
      Effect.mixIn ⟨4⟩ forthcoming .deferred m.world =
        .finished (.ok ⟨4⟩) { m.world with image := s' }) ∧
    owned.graph.Live ⟨4⟩ ∧ forthcoming.modules = [] ∧ owned.observers = [] ∧
    owned.Alive (.class ⟨0⟩) ∧ owned.Alive (.object ⟨0⟩) ∧
    (owned.respondsTo (.class ⟨0⟩) make = false ∧ s'.respondsTo (.class ⟨0⟩) make = true) ∧
    (owned.respondsTo (.object ⟨0⟩) greet = false ∧ s'.respondsTo (.object ⟨0⟩) greet = true) := by
  intro s' greet make
  have h := (tidy_owning (k := { prompt := true, offGate := true, genuine := true })
    (.reply (.ok .void))).reached
  exact ⟨⟨_, h, rfl, Effect.mixIn_eq .deferred ⟨rfl, nofun⟩⟩, by decide +kernel, rfl, rfl,
    by decide +kernel, by decide +kernel, ⟨by decide +kernel, by decide +kernel⟩, by decide +kernel,
    by decide +kernel⟩

end Machine

end Mixin
