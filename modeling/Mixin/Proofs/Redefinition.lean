import Mixin.Proofs.Ancestry
import Mixin.Proofs.Image.Shown
import Mixin.Proofs.Inheritance

/-! What a definition changes while a program runs. It moves no module and no edge, so everybody is
what they were. In the chains of its name it takes its owner's place, and whoever does not have the
owner among the ancestors sees nothing of it, though the name may come under watch. -/

namespace Mixin

namespace Image

variable {s s' : Image} {owner : ModuleId} {r : Receiver} {n n' : Symbol} {x : Method}

section Define

variable (hs : s.Sound) (hl : s.graph.Live owner) (n x)
include hs hl

theorem same_define (r : Receiver) :
    (s.define owner n x true).ancestorsOf r = s.ancestorsOf r ∧
      ∀ a, (s.define owner n x true).isA r a = s.isA r a := by
  have hakin := Akin.define hs hl n x true
  have hin := included_define hs hl n x true
  have hentry : (s.define owner n x true).ancestorEntry = s.ancestorEntry := by
    funext a
    rw [ancestorEntry, ancestorEntry, hakin.target]
  have hmodule : ∀ a, (s.define owner n x true).moduleOf a = s.moduleOf a := by
    rintro (c | a)
    · exact hakin.instanceModule c
    · rfl
  refine ⟨?_, fun a => ?_⟩
  · rw [ancestorsOf, ancestorsOf, ancestorEntries, ancestorEntries, hakin.effectiveModule, hentry,
      Graph.ancestors_congr (fun a _ => hin a) fun a _ => hidden_define hs hl n x true a]
  · rw [Bool.eq_iff_iff, isA, isA, hakin.effectiveModule, hmodule, Graph.includes_iff,
      Graph.includes_iff, reaches_congr hin]

theorem lookup_define (r : Receiver) (n' : Symbol) : (s.define owner n x true).lookup r n' =
    (s.define owner n x true).graph.defined n' (s.graph.ancestors (s.effectiveModule r)) := by
  rw [lookup, (Akin.define hs hl n x true).effectiveModule, Graph.chain_eq_defined,
    Graph.ancestors_congr (fun a _ => included_define hs hl n x true a) fun a _ =>
      hidden_define hs hl n x true a]

/-- Of what the modules besides the gate hold, a definition changes one entry. -/
theorem defined_define {ms : List ModuleId} (hms : ∀ a ∈ ms, a ≠ .gate)
    (hout : n' ≠ n ∨ owner ∉ ms) :
    (s.define owner n x true).graph.defined n' ms = s.graph.defined n' ms := by
  refine Graph.defined_congr fun a ha => ?_
  rw [methods_define hs hl n x true (hms a ha)]
  split
  · rename_i hao
    have hne : n' ≠ n := hout.resolve_right fun h => h (hao ▸ ha)
    rw [Std.ExtTreeMap.getElem?_insert, if_neg]
    exact fun hc => hne (Std.LawfulEqCmp.eq_of_compare hc).symm
  · rfl

/-- In the chains of its name the method takes its owner's place. -/
theorem defined_define_split {before after : List ModuleId}
    (hms : ∀ a ∈ before ++ owner :: after, a ≠ .gate) (hnodup : (before ++ owner :: after).Nodup) :
    (s.define owner n x true).graph.defined n (before ++ owner :: after) =
      s.graph.defined n before ++ x :: s.graph.defined n after := by
  have hbefore : owner ∉ before := fun h =>
    (List.nodup_append.1 hnodup).2.2 owner h owner List.mem_cons_self rfl
  have hafter : owner ∉ after := (List.nodup_cons.1 (List.nodup_append.1 hnodup).2.1).1
  have hown : ((s.define owner n x true).graph.node owner).methods[n]? = some x := by
    rw [methods_define hs hl n x true (hms owner (by simp)), if_pos rfl,
      Std.ExtTreeMap.getElem?_insert_self]
  rw [Graph.defined_append, Graph.defined_cons, hown,
    defined_define n x hs hl (fun a ha => hms a (by simp [ha])) (.inr hbefore),
    defined_define n x hs hl (fun a ha => hms a (by simp [ha])) (.inr hafter)]
  rfl

end Define

theorem exists_slot_of_last (hs : s.Sound) (hc : s.Coherent) (hrooted : s.graph.Rooted)
    (hr : s.Known r) (hlast : (s.lookup r n).getLast? = some x) :
    ∃ slot, s.slot? r n = some slot ∧ slot.sameAs (.ofMethod x) = true := by
  rcases slot_cases (n := n) hs hc hrooted hr with ⟨slot, y, hslot, himpl, hsame, -⟩ | ⟨hchain, -⟩
  · obtain rfl : y = x := Option.some.inj (himpl.symm.trans hlast)
    exact ⟨slot, hslot, hsame⟩
  · rw [lookup, hchain] at hlast
    cases hlast

end Image

namespace Machine

open Image

variable {ω : Type} {k : Manners} {u : Setup} {m : Machine ω}

/-- A definition changes the chains of its name for those that have the owner among the ancestors, and
nothing else for anybody, stubs apart. There it replaces what the owner had, or is put in at the owner's
place; and the slot is that of the last implementation, which is the new one if no module after the
owner implements the name, and the one of before if some module does. -/
theorem Reached.define_exact (h : m.Reached k u) (hprompt : k.prompt = true)
    (hgate : k.offGate = true) (hgenuine : k.genuine = true) {owner : ModuleId} {n : Symbol}
    {x : Method} (hlive : m.world.image.graph.Live owner) (hne : owner ≠ .gate)
    (hx : x.isStub = false) :
    ∃ w : World ω, (Op.define owner n x).act m.world = .finished () w ∧
      let s := m.world.image
      let s' := w.image
      (∀ r, s'.ancestorsOf r = s.ancestorsOf r ∧ ∀ a, s'.isA r a = s.isA r a) ∧
      ∀ r, s.Alive r → s'.Alive r ∧
        (∀ n', n' ≠ n ∨ owner ∉ s.graph.ancestors (s.effectiveModule r) →
          Slot.Agree (s.definedSlot? r n') (s'.definedSlot? r n') ∧
          s'.lookup r n' = s.lookup r n') ∧
        ∀ before after, s.graph.ancestors (s.effectiveModule r) = before ++ owner :: after →
          let defined := s.graph.defined n
          s.lookup r n =
            defined before ++ ((s.graph.node owner).methods[n]?.toList ++ defined after) ∧
          s'.lookup r n = defined before ++ x :: defined after ∧
          (∃ y slot, (s'.lookup r n).getLast? = some y ∧ s'.slot? r n = some slot ∧
            slot.sameAs (.ofMethod y) = true) ∧
          (defined after = [] →
            ∃ slot, s'.slot? r n = some slot ∧ slot.sameAs (.ofMethod x) = true) ∧
          (defined after ≠ [] → Slot.Agree (s.slot? r n) (s'.slot? r n)) := by
  refine ⟨_, Op.act_define owner n x m.world, ?_⟩
  intro s s'
  have hs : s.Sound := h.sane.sound
  have hc : s.Coherent := h.coherent hprompt
  have hrooted : s.graph.Rooted := h.rooted hgate hgenuine
  have hakin : Akin s s' := .define hs hlive n x true
  have hs' : s'.Sound := hakin.sound hs
  have hc' : s'.Coherent := hc.define hs hlive n x
  have hrooted' : s'.graph.Rooted := rooted_define hs hrooted hlive n true hne hx
  refine ⟨same_define n x hs hlive, fun r hr => ?_⟩
  have hr' : s'.Alive r := (hakin.alive r).2 hr
  have hvisible : ∀ a ∈ s.graph.ancestors (s.effectiveModule r), a ≠ .gate := fun a ha =>
    (Graph.GateHidden.mem_ancestors hrooted.hidden |>.1 ha).2
  have hlookup : ∀ n', s'.lookup r n' = _ := lookup_define n x hs hlive r
  refine ⟨hr', fun n' hout => ?_, fun before after hsplit => ?_⟩
  · have hsame : s'.lookup r n' = s.lookup r n' :=
      (hlookup n').trans (defined_define n x hs hlive hvisible hout)
    have himpl : s'.graph.implementation? (s'.effectiveModule r) n' =
        s.graph.implementation? (s.effectiveModule r) n' := congrArg List.getLast? hsame
    refine ⟨?_, hsame⟩
    exact (hc.shown hrooted).agree (hc'.shown hrooted') hs hs' hr.known hr'.known id id himpl
  · have hold : s.lookup r n = s.graph.defined n before ++
        ((s.graph.node owner).methods[n]?.toList ++ s.graph.defined n after) := by
      rw [lookup, Graph.chain_eq_defined, hsplit, Graph.defined_append, Graph.defined_cons]
    have hnodup := s.graph.ancestors_nodup (s.effectiveModule r)
    have hnew : s'.lookup r n =
        s.graph.defined n before ++ x :: s.graph.defined n after := by
      rw [hsplit] at hvisible hnodup
      rw [hlookup, hsplit]
      exact defined_define_split n x hs hlive hvisible hnodup
    have hslot := fun y => exists_slot_of_last (n := n) (x := y) hs' hc' hrooted' hr'.known
    refine ⟨hold, hnew, ?_, fun hlast => hslot x ?_, fun hlast => ?_⟩
    · have hne : s'.lookup r n ≠ [] := by simp [hnew]
      obtain ⟨y, hy⟩ := Option.isSome_iff_exists.1 (List.getLast?_isSome.2 hne)
      obtain ⟨slot, hslot, hsame⟩ := hslot y hy
      exact ⟨y, slot, hy, hslot, hsame⟩
    · rw [hnew, hlast, List.getLast?_concat]
    · -- Both chains end in the implementations after the owner.
      obtain ⟨y, hy⟩ := Option.isSome_iff_exists.1 (List.getLast?_isSome.2 hlast)
      have hlastOld : (s.lookup r n).getLast? = some y := by
        rw [hold, ← List.append_assoc, List.getLast?_append_of_ne_nil _ hlast, hy]
      have hlastNew : (s'.lookup r n).getLast? = some y := by
        rw [hnew, List.append_cons, List.getLast?_append_of_ne_nil _ hlast, hy]
      obtain ⟨slot, hbefore, hsame⟩ := exists_slot_of_last hs hc hrooted hr.known hlastOld
      obtain ⟨slot', hafter, hsame'⟩ := hslot y hlastNew
      rw [hbefore, hafter]
      exact Slot.sameAs_trans hsame (Slot.sameAs_symm hsame')

/-- A redefinition reaches an object of the class, and leaves the class as a receiver alone. -/
theorem define_exact_descending :
    let x := Method.program 1 true
    let s' := descending.define ⟨5⟩ .inspect x true
    (Op.define ⟨5⟩ .inspect x).act { image := descending, host := () } =
      .finished () ({ image := s', host := () } : World Unit) ∧
    descending.lookup (.object ⟨0⟩) .inspect = [.native .inspect, .program 0 false] ∧
    s'.lookup (.object ⟨0⟩) .inspect = [.native .inspect, x] ∧
    (∃ slot, s'.slot? (.object ⟨0⟩) .inspect = some slot ∧ slot.sameAs (.ofMethod x) = true) ∧
    ∀ n, Slot.Agree (descending.definedSlot? (.class ⟨1⟩) n) (s'.definedSlot? (.class ⟨1⟩) n) := by
  intro x s'
  have h := reached_descending (k := { prompt := true, offGate := true, genuine := true })
    (.reply (.ok .void))
  have hlive : descending.graph.Live ⟨5⟩ := by decide +kernel
  obtain ⟨w, hact, -, hall⟩ :=
    h.define_exact rfl rfl rfl (n := .inspect) (x := x) hlive (by decide) rfl
  obtain rfl : w = { image := s', host := () } := by
    rw [Op.act_define] at hact
    exact (Run.finished.inj hact).2.symm
  have hobject : descending.Alive (.object ⟨0⟩) := by decide +kernel
  have hclass : descending.Alive (.class ⟨1⟩) := by decide +kernel
  have hout : ⟨5⟩ ∉ descending.graph.ancestors (descending.effectiveModule (.class ⟨1⟩)) := by
    decide +kernel
  have hsplit : descending.graph.ancestors (descending.effectiveModule (.object ⟨0⟩)) =
      [.kernel, ⟨4⟩] ++ ⟨5⟩ :: [⟨6⟩] := by decide +kernel
  obtain ⟨-, hnew, -, hslot, -⟩ := (hall _ hobject).2.2 _ _ hsplit
  refine ⟨Op.act_define .., by decide +kernel, hnew.trans ?_, hslot ?_, fun n => ?_⟩
  · decide +kernel
  · decide +kernel
  · exact ((hall _ hclass).2.1 n (.inr hout)).1

end Machine

end Mixin
