import Mixin.Proofs.Image.Settling
import Mixin.Proofs.Release

/-! What resolving a module does in any state, whatever has been deferred. It touches the tables of
what depends on the module and nothing else, and leaves them as the ancestries have them; what has been
resolved once needs no second run, and two modules can be resolved in either order. -/

namespace Mixin

namespace Machine

open Image

variable {ω : Type} {k : Manners} {u : Setup} {m : Machine ω}

/-- Resolving a module keeps the graph with its count of edits, the gate and the fields of objects. The
targets of all that depends on the module have the tables that the ancestries say, the other tables are
as they were, no entry is written when any of these modules is resolved next, and a second module might
as well have come first. -/
theorem Reached.resolve_settles (h : m.Reached k u) (a b : ModuleId) :
    let s := m.world.image
    let s' := s.resolve a
    (s'.graph = s.graph ∧ s'.gate = s.gate ∧
      ∀ o, (s'.objectData o).fields = (s.objectData o).fields) ∧
    (∀ c ∈ s.graph.affected a, ∀ t, (s.graph.node c).target = some t →
      ∀ n : Symbol, Slot.Agree (s'.table t)[n]? (s.graph.freshSlots c)[n]?) ∧
    (∀ t, (∀ c ∈ s.graph.affected a, (s.graph.node c).target ≠ some t) →
      s'.table t = s.table t) ∧
    (a ∈ s.graph.affected a ∧ ∀ c ∈ s.graph.affected a,
      s'.writes c = 0 ∧ ∀ t, (s'.resolve c).table t = s'.table t) ∧
    ∀ t, (s'.resolve b).table t = ((s.resolve b).resolve a).table t := by
  intro s s'
  have hs : s.Sound := h.sane.sound
  have hgraph : s'.graph = s.graph := graph_resolve a
  refine ⟨⟨hgraph, (Twin.of_resolve s a).gate, (Spares.resolve s a).fields⟩, fun c hc t ht n => ?_,
    fun t ht => table_resolve_of_ne hs ht, ⟨s.graph.self_mem_affected a, fun c hc => ?_⟩,
    table_resolve_comm hs a b⟩
  · have hagrees := agrees_resolve hs ht hc n
    rw [graph_resolve] at hagrees
    rw [Graph.getElem?_freshSlots]
    exact hagrees
  · exact resolve_again hs hc

def parcel : Source := .record [("greet", .program 0 false)] [] []

/-- The class's module takes in the record, and is not resolved yet. -/
def postponed : Image := owned.absorb parcel (.into ⟨4⟩ .deferred)

theorem reached_postponed (hk : k.prompt = false) (p : Program Unit) :
    ({ current := .finished p { image := postponed, host := () }
       op := some (.mixIn ⟨4⟩ parcel .deferred) } : Machine Unit).Reached k {} :=
  (tidy_owning (.perform (.mixIn ⟨4⟩ parcel .deferred) fun _ => p)).reached.absorb
    ⟨fun h => absurd h (by simp [hk]), fun _ => by decide, fun _ => by decide⟩
    (by decide +kernel) nofun ⟨rfl, nofun⟩

/-- What was put off is made up for once, for the instances of the class and for the one that has an
eigenclass. -/
theorem resolve_settles_postponed :
    let s := postponed
    let greet := (s.intern "greet").1
    s.definedSlot? (.object ⟨0⟩) greet = none ∧ s.writes ⟨4⟩ = 2 ∧
    (s.resolve ⟨4⟩).writes ⟨4⟩ = 0 ∧ (s.resolve ⟨4⟩).writes ⟨5⟩ = 0 ∧
    Slot.Agree ((s.resolve ⟨4⟩).table (.singleton (.object ⟨0⟩)))[greet]?
      (some (.direct (.program 0 false))) ∧
    (s.resolve ⟨4⟩).table .moduleBase = s.table .moduleBase ∧
    ((s.resolve ⟨4⟩).resolve .kernel).table (.prototype ⟨0⟩) =
      ((s.resolve .kernel).resolve ⟨4⟩).table (.prototype ⟨0⟩) := by
  intro s greet
  have h := reached_postponed (k := {}) rfl (.reply (.ok .void))
  obtain ⟨-, hagree, hrest, ⟨hself, hagain⟩, hcomm⟩ := h.resolve_settles ⟨4⟩ .kernel
  have hmem : ⟨5⟩ ∈ s.graph.affected ⟨4⟩ := by decide +kernel
  have ht : (s.graph.node ⟨5⟩).target = some (.singleton (.object ⟨0⟩)) := by decide +kernel
  have hfresh : (s.graph.freshSlots ⟨5⟩)[greet]? = some (.direct (.program 0 false)) := by
    decide +kernel
  have hbase : ∀ c ∈ s.graph.affected ⟨4⟩, (s.graph.node c).target ≠ some .moduleBase := by
    decide +kernel
  refine ⟨by decide +kernel, by decide +kernel, (hagain _ hself).1, (hagain _ hmem).1, ?_,
    hrest _ hbase, hcomm _⟩
  rw [← hfresh]
  exact hagree _ hmem _ ht greet

end Machine

end Mixin
