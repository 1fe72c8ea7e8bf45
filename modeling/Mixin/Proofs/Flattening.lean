import Mixin.Proofs.Deepening
import Mixin.Proofs.Run.Tells

/-! Flattening of records. However deep a record is nested, including it ends, unless an observer edits
the image, with every module and method of it where it belongs: with the includer if no extension list
leads to it, and otherwise with the eigenclass of what the includer stands for. Extension lists inside
extensions come to the same eigenclass, so no eigenclass is given an eigenclass. -/

namespace Mixin

namespace Image

variable {s s' : Image} {owner a : ModuleId} {on : Receiver → Prop} {ps : List Piece}

theorem mem_lineage_module {r : Receiver} {m : ModuleId} (h : .module m ∈ s.lineage r) :
    r = .module m := by
  cases r with
  | «class» c =>
    obtain ⟨d, -, hd⟩ := List.mem_map.1 h
    cases hd
  | object o => exact (List.mem_singleton.1 h).symm
  | module b => exact (List.mem_singleton.1 h).symm

theorem backed_module {e : ModuleId} (h : s.backed owner = .module e) :
    (s.graph.node owner).target = some (.singleton (.module e)) ∨
      owner = e ∧ ∀ r, (s.graph.node owner).target ≠ some (.singleton r) := by
  rw [backed] at h
  split at h
  · cases h
  · rename_i ht
    exact .inl (h ▸ ht)
  all_goals
    rename_i ht
    refine .inr ⟨Receiver.module.inj h, fun r hr => ?_⟩
    rw [ht] at hr
    cases hr

namespace Gathers

variable (h : Gathers owner on ps s s') (hl : s.graph.Live owner)
include h hl

theorem others (ha : s.graph.Live a) (hne : a ≠ owner)
    (hside : s'.eigenclass? (s.backed owner) ≠ some a) :
    (s'.graph.node a).included = (s.graph.node a).included ∧
      (a ≠ .gate → (s'.graph.node a).methods = (s.graph.node a).methods) := by
  have hout : ∀ extending, s'.home? owner extending ≠ some a := by
    intro extending
    cases extending with
    | false => exact fun ho => hne (Option.some.inj ho).symm
    | true =>
      show s'.eigenclass? (s'.backed owner) ≠ some a
      rw [h.backed hl]
      exact hside
  obtain ⟨hedges, hentries⟩ := into_of_not_home ps hout
  refine ⟨?_, fun hgate => Std.ExtTreeMap.ext_getElem? fun {n} => ?_⟩
  · rw [h.included a ha, hedges, List.append_nil]
  · rw [h.methods a ha hgate, hentries, List.getLast?_nil, Option.none_or]

theorem eigenclass_module (hs : s.Sound) (hon : ∀ r, on r → r ∈ s.lineage (s.backed owner))
    {r : Receiver} {e : ModuleId} (he : s'.eigenclass? r = some e) :
    s'.eigenclass? (.module e) = s.eigenclass? (.module e) := by
  cases hold : s.eigenclass? (.module e) with
  | some x => exact h.kept _ x hold
  | none =>
    by_contra hnew
    obtain ⟨x, hx⟩ := Option.ne_none_iff_exists'.1 hnew
    have hbacked := mem_lineage_module (hon _ (h.made _ x hold hx).1)
    have htarget := (h.sound.target_iff e (.singleton r)).2 he
    rcases backed_module hbacked with ht | ⟨rfl, ht⟩
    · have hown : s.eigenclass? (.module e) = some owner := (hs.target_iff owner _).1 ht
      rw [hold] at hown
      cases hown
    · rw [h.target owner hl] at htarget
      exact ht r htarget

end Gathers

end Image

namespace Machine

open Image

variable {ω : Type} {k : Manners} {u : Setup} {m : Machine ω}

/-- Including a record of modules without hooks ends with the includer for an answer, whatever the
observers do besides editing the image. Every part of it has then come to where it belongs, in the
order of a depth-first walk, and nothing else to any module but the gate. If some extension list has
something in it, the receiver that the includer stands for has an eigenclass, and others than its
superclasses have not been given one, least of all eigenclasses. Meanwhile each observer has been told
of each definition in turn. -/
theorem Reached.mixIn_record (h : m.Reached k u) {owner : ModuleId}
    (hl : m.world.image.graph.Live owner) (methods : List (String × Method))
    (mixins extensions : List Source) (options : MixOptions)
    (hmodules : ∀ a ∈ (Source.record methods mixins extensions).modules,
      m.world.image.graph.Live a ∧ (m.world.image.graph.node a).hooks = {}) :
    let s := m.world.image
    let source := Source.record methods mixins extensions
    let r := s.backed owner
    ((Op.mixIn owner source options).act m.world).Tells
      (fun answer w' =>
        let s' := w'.image
        answer = .ok owner ∧
        Gathers owner (fun a => source.extends? = true ∧ a ∈ s.lineage r) (source.pieces false)
          s s' ∧
        (source.extends? = true → ∃ e, s'.eigenclass? r = some e) ∧
        (∀ a e, s'.eigenclass? a = some e →
          s'.eigenclass? (.module e) = s.eigenclass? (.module e)) ∧
        ∀ a, s.graph.Live a → a ≠ owner → s'.eigenclass? r ≠ some a →
          (s'.graph.node a).included = (s.graph.node a).included ∧
          (a ≠ .gate → (s'.graph.node a).methods = (s.graph.node a).methods))
      ((source.pieces false).flatMap (Piece.notices s.observers (options.about r))) := by
  intro s source r
  have hs : s.Sound := h.sane.sound
  have hstage : s.Stage owner r s.observers source.modules := ⟨hs, hl, rfl, rfl, hmodules⟩
  have hon : false = true ∨ source.extends? = true → ∀ a ∈ s.lineage r,
      source.extends? = true ∧ a ∈ s.lineage r := fun hex a ha => ⟨hex.resolve_left nofun, ha⟩
  have hput := Effect.tells_put source false (.into owner options) m.world hstage ⟨rfl, rfl⟩ hon
  rw [← List.append_nil (List.flatMap _ _)]
  refine Effect.tells_attempt hput fun _ w' ⟨hg, hopened⟩ =>
    (⟨rfl, hg, fun hex => hopened (.inr hex), ?_, ?_⟩ : _ ∧ _)
  · exact fun a e => hg.eigenclass_module hl hs fun r hr => hr.2
  · exact fun a ha hne hside => hg.others hl ha hne hside

/-- A class with a subclass, and an observer of added methods. -/
def observed : Image := { derived with observers := ⟨0⟩ :: derived.observers }

def observedCode : Code Unit where
  observers := #[fun _ _ => .reply (.ok .void)]

def observing : Machine Unit where
  current := .finished (.reply (.ok .void)) { image := observed, code := observedCode, host := () }

theorem reached_observing : observing.Reached k {} :=
  (reached_derived (.onMethodAdded (fun _ _ => .reply (.ok .void)) (.reply (.ok .void)))).step
    trivial rfl

/-- A record in a mixin list, and one with a mixin of its own in an extension list. -/
def nested : Source :=
  .record [("greet", .program 1 false)]
    [.module .kernel, .record [("greet", .program 0 false)] [] []]
    [.record [("make", .program 2 false)] [.module .moduleRoot] []]

/-- What the record comes to in the subclass's module and in an eigenclass. The outer `greet` comes after
the inner one and counts. -/
structure Unfolded (s : Image) (e : ModuleId) : Prop where
  included : (s.graph.node ⟨5⟩).included = [⟨4⟩, .kernel]
  extended : ∃ above, s.eigenclass? (.class ⟨0⟩) = some above ∧
    (s.graph.node e).included = [above, .moduleRoot]
  greet : ∀ n, s.symbols.find? "greet" = some n →
    (s.graph.node ⟨5⟩).methods[n]? = some (.program 1 false)
  make : ∀ n, s.symbols.find? "make" = some n →
    (s.graph.node e).methods[n]? = some (.program 2 false)

theorem unfolded_of_gathers {on : Receiver → Prop} {s' : Image} {e : ModuleId}
    (h : Gathers ⟨5⟩ on (nested.pieces false) observed s')
    (he : s'.eigenclass? (.class ⟨1⟩) = some e) : Unfolded s' e := by
  have hlive : observed.graph.Live ⟨5⟩ := by decide +kernel
  have hnone : observed.eigenclass? (.class ⟨1⟩) = none := by decide +kernel
  have hin : (observed.graph.node ⟨5⟩).included = [⟨4⟩] := by decide +kernel
  have hbacked : s'.backed ⟨5⟩ = .class ⟨1⟩ := (h.backed hlive).trans (by decide +kernel)
  have hsuper : s'.superclass ⟨1⟩ = some ⟨0⟩ := (h.superclass ⟨1⟩).trans (by decide +kernel)
  obtain ⟨-, hnew, ⟨above, hparent, hfirst⟩, hm⟩ := h.made _ e hnone he
  have hne : e ≠ ⟨5⟩ := fun hc => hnew (hc ▸ hlive)
  have hinto : s'.home? ⟨5⟩ false = some ⟨5⟩ := rfl
  have honto : s'.home? ⟨5⟩ true = some e := by
    rw [home?, hbacked, if_pos rfl, he]
  have hpieces : nested.pieces false = [⟨false, .edge .kernel⟩,
    ⟨false, .entry "greet" (.program 0 false)⟩, ⟨true, .edge .moduleRoot⟩,
    ⟨true, .entry "make" (.program 2 false)⟩, ⟨false, .entry "greet" (.program 1 false)⟩] := rfl
  rw [parent?, hsuper] at hparent
  refine ⟨?_, ⟨above, hparent, ?_⟩, fun n hn => ?_, fun n hn => ?_⟩
  · rw [h.included ⟨5⟩ hlive, hin, hpieces]
    simp [hinto, honto, hne]
  · rw [hfirst, hpieces]
    simp [hinto, honto, hne.symm]
  · rw [h.methods ⟨5⟩ hlive (by decide), hpieces]
    simp [hinto, honto, hn, hne]
  · rw [hm, hpieces]
    simp [hinto, honto, hn, hne.symm]

/-- The subclass gets an eigenclass, and the observer is told of what goes there in the subclass's own
name, but of the rest in the name that is given. -/
theorem mixIn_record_nested :
    ((Op.mixIn ⟨5⟩ nested { notifyAs := some (.str "L") }).act observing.world).Tells
      (fun answer w' => answer = .ok ⟨5⟩ ∧
        ∃ e, w'.image.eigenclass? (.class ⟨1⟩) = some e ∧ Unfolded w'.image e)
      [⟨⟨0⟩, "greet", .str "L"⟩, ⟨⟨0⟩, "make", .class ⟨1⟩⟩, ⟨⟨0⟩, "greet", .str "L"⟩] := by
  have hlive : observed.graph.Live ⟨5⟩ := by decide +kernel
  have hmodules : ∀ a ∈ nested.modules,
      observed.graph.Live a ∧ (observed.graph.node a).hooks = {} := by decide +kernel
  have hbacked : observing.world.image.backed ⟨5⟩ = .class ⟨1⟩ := by decide +kernel
  have hobservers : observing.world.image.observers = [⟨0⟩] := by decide +kernel
  have h := (reached_observing (k := {})).mixIn_record hlive _ _ _
    { notifyAs := some (.str "L") } hmodules
  dsimp only at h
  rw [hbacked, hobservers] at h
  refine h.mono fun _ w' hdone => ?_
  obtain ⟨hanswer, hg, hopened, -, -⟩ := hdone
  obtain ⟨e, he⟩ := hopened rfl
  exact ⟨hanswer, e, he, unfolded_of_gathers hg he⟩

end Machine

end Mixin
