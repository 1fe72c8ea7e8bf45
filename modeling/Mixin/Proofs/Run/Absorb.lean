import Mixin.Proofs.Image.Shown
import Mixin.Proofs.Image.Twin
import Mixin.Proofs.Run.Compose

/-! Taking in sources when nobody is told of it. Where there are no observers and the modules have no
hooks, nothing runs in the middle, and an inclusion or extension comes to one change of the image. That
change is a run of edits, of which only those to the module that takes the source in are ever deferred;
and on twins it has the same outcome whether they are deferred or not. -/

namespace Mixin

namespace Image

def defineAll (s : Image) (owner : ModuleId) (resolving : Bool) :
    List (String × Method) → Image
  | [] => s
  | (key, m) :: rest =>
    ((s.intern key).2.define owner (s.intern key).1 m resolving).defineAll owner resolving rest

mutual

/-- Takes in a source at a place, without telling of it. -/
def absorb : Source → Place → Image → Image
  | .module other, place, s =>
    let taken := s.taker place
    taken.2.link taken.1.1 other taken.1.2.resolving
  | .record methods mixins extensions, place, s =>
    let taken := s.taker place
    let s := absorbAll mixins (.into taken.1.1 taken.1.2) taken.2
    let s := absorbAll extensions (.onto (s.backed taken.1.1)) s
    s.defineAll taken.1.1 taken.1.2.resolving methods

def absorbAll : List Source → Place → Image → Image
  | [], _, s => s
  | source :: rest, place, s => absorbAll rest place (absorb source place s)

end

end Image

namespace Graph

variable {g : Graph} {m a : ModuleId}

theorem hooks_update {f : Node → Node} (hf : ∀ n, (f n).hooks = n.hooks) :
    ((g.update m f).node a).hooks = (g.node a).hooks := by
  by_cases ha : m = a
  · subst ha
    by_cases hm : m.index < g.nodes.size
    · rw [node_update_self g f hm, hf]
    · have hle := Nat.le_of_not_lt hm
      rw [node_of_size_le g hle, node_of_size_le _ (by simpa using hle)]
  · rw [node_update_of_ne g f ha]

theorem hooks_setMethod (owner : ModuleId) (name : Symbol) (x : Method) :
    ((g.setMethod owner name x).node a).hooks = (g.node a).hooks := by
  rw [setMethod, node_bump, hooks_update]
  exact fun _ => rfl

theorem hooks_addEdge (owner other : ModuleId) :
    ((g.addEdge owner other).node a).hooks = (g.node a).hooks := by
  rw [addEdge, node_bump, hooks_update, hooks_update]
  · exact fun _ => rfl
  · exact fun _ => rfl

theorem hooks_alloc {n : Node} (hn : n.hooks = {}) (ha : (g.node a).hooks = {}) :
    ((g.alloc n).2.node a).hooks = {} := by
  unfold alloc
  split
  · rename_i m rest hfree
    show ((g.update m fun _ => n).node a).hooks = {}
    by_cases hm : m = a
    · subst hm
      by_cases hlt : m.index < g.nodes.size
      · rw [node_update_self g _ hlt, hn]
      · rw [node_of_size_le _ (by simpa using hlt)]
    · rw [node_update_of_ne g _ hm, ha]
  · simp only [node, Array.getElem?_push]
    split
    · exact hn
    · exact ha

end Graph

namespace Image

variable {s s' : Image} {ms : List ModuleId}

/-- Nobody is told of what these modules are put into. -/
structure Silent (s : Image) (ms : List ModuleId) : Prop where
  observers : s.observers = []
  hooks : ∀ m ∈ ms, (s.graph.node m).hooks = {}

namespace Silent

theorem twin (h : s.Silent ms) (ht : Twin s s') : s'.Silent ms where
  observers := ht.observers.trans h.observers
  hooks m hm := by rw [ht.graph]; exact h.hooks m hm

variable (h : s.Silent ms)
include h

theorem watch (name : Symbol) : (s.watch name).Silent ms := by
  unfold Image.watch
  split
  · exact ⟨h.observers, fun m hm => (Graph.hooks_setMethod ..).trans (h.hooks m hm)⟩
  · exact h

theorem define (owner : ModuleId) (name : Symbol) (x : Method) (resolving : Bool) :
    (s.define owner name x resolving).Silent ms := by
  have hset : ({ s with graph := s.graph.setMethod owner name x } : Image).Silent ms :=
    ⟨h.observers, fun m hm => (Graph.hooks_setMethod ..).trans (h.hooks m hm)⟩
  exact (hset.watch name).twin ((Twin.refl s).define owner name x false resolving)

theorem link (owner other : ModuleId) (resolving : Bool) :
    (s.link owner other resolving).Silent ms := by
  have hedge : ({ s with graph := s.graph.addEdge owner other } : Image).Silent ms :=
    ⟨h.observers, fun m hm => (Graph.hooks_addEdge ..).trans (h.hooks m hm)⟩
  exact hedge.twin ((Twin.refl s).link owner other false resolving)

theorem materialize (r : Receiver) (parent : ModuleId) : (s.materialize r parent).2.Silent ms := by
  have hnew : (s.addEigenclass r).2.Silent ms := by
    refine ⟨?_, fun m hm => ?_⟩
    · cases r <;> exact h.observers
    · rw [graph_addEigenclass]
      exact Graph.hooks_alloc rfl (h.hooks m hm)
  rw [materialize_eq]
  dsimp only
  exact hnew.link _ _ _

theorem classEigenclass (line : List ClassId) : (s.classEigenclass line).2.Silent ms := by
  induction line with
  | nil => exact h
  | cons c above ih =>
    unfold Image.classEigenclass
    cases s.eigenclass? (.class c) with
    | some m => exact h
    | none => exact ih.materialize _ _

theorem taker (place : Place) : (s.taker place).2.Silent ms := by
  cases place with
  | into owner options => exact h
  | onto r =>
    show (s.eigenclass r).2.Silent ms
    unfold Image.eigenclass
    split
    · exact h.classEigenclass _
    · exact h
    · exact h.materialize _ _
    · exact h.materialize _ _

theorem intern (text : String) : (s.intern text).2.Silent ms := ⟨h.observers, h.hooks⟩

end Silent

end Image

namespace Effect

open Image

variable {ω α β : Type} {w w' : World ω}

theorem bind_of_finished {x : Effect ω α} {f : α → Effect ω β} {a : α}
    (h : x w = .finished a w') : (x >>= f) w = f a w' := by
  show (x w).bind f = _
  rw [h]
  rfl

theorem attempt_of_finished {x : Effect ω (Except Fault α)} {f : α → Effect ω (Except Fault β)}
    {a : α} (h : x w = .finished (.ok a) w') : x.attempt f w = f a w' := bind_of_finished h

theorem edit_bind (f : Image → α × Image) (g : α → Effect ω β) : (edit f >>= g) w =
    g (f w.image).1 { w with image := (f w.image).2 } := rfl

theorem change_bind (f : Image → Image) (g : Unit → Effect ω β) : (change f >>= g) w =
    g () { w with image := f w.image } := rfl

theorem read_bind (f : Image → α) (g : α → Effect ω β) : (read f >>= g) w = g (f w.image) w := rfl

theorem defineAll_eq (owner : ModuleId) (notify : Value) (resolving : Bool)
    (entries : List (String × Method)) {ms : List ModuleId} (hsil : w.image.Silent ms) :
    defineAll owner notify resolving entries w =
      .finished () { w with image := w.image.defineAll owner resolving entries } ∧
        (w.image.defineAll owner resolving entries).Silent ms := by
  induction entries generalizing w with
  | nil => exact ⟨rfl, hsil⟩
  | cons entry rest ih =>
    obtain ⟨key, x⟩ := entry
    have hsil₁ := (hsil.intern key).define owner (w.image.intern key).1 x resolving
    obtain ⟨hrest, hsil₂⟩ := @ih { w with image := _ } hsil₁
    refine ⟨?_, hsil₂⟩
    rw [defineAll, edit_bind, change_bind, read_bind]
    dsimp only
    rw [hsil₁.observers]
    exact hrest

mutual

theorem put_eq (source : Source) (place : Place) (w : World ω) (ms : List ModuleId)
    (hsil : w.image.Silent ms) (hms : source.modules ⊆ ms) :
    put source place w = .finished (.ok ()) { w with image := w.image.absorb source place } ∧
      (w.image.absorb source place).Silent ms := by
  match source with
  | .module other =>
    have hsil₁ := hsil.taker place
    rw [put, edit_bind, Image.absorb]
    generalize w.image.taker place = taken at hsil₁ ⊢
    obtain ⟨⟨owner, options⟩, s₁⟩ := taken
    have hsil₂ := hsil₁.link owner other options.resolving
    refine ⟨?_, hsil₂⟩
    have hhooks := hsil₂.hooks other (hms (List.mem_singleton_self _))
    dsimp only
    rw [change_bind, read_bind, read_bind]
    dsimp only
    rw [hhooks]
    cases place <;> rfl
  | .record methods mixins extensions =>
    have hsil₁ := hsil.taker place
    rw [put, edit_bind, Image.absorb]
    generalize w.image.taker place = taken at hsil₁ ⊢
    obtain ⟨⟨owner, options⟩, s₁⟩ := taken
    obtain ⟨hmixins, hsil₂⟩ := putAll_eq mixins (.into owner options) { w with image := s₁ } ms hsil₁
      fun m hm => hms (List.mem_append_left _ hm)
    -- What the module stands for is looked up after the mixins, and again for the methods.
    obtain ⟨hextensions, hsil₃⟩ := putAll_eq extensions (.onto (Image.backed _ owner))
      { w with image := _ } ms hsil₂ fun m hm => hms (List.mem_append_right _ hm)
    obtain ⟨hmethods, hsil₄⟩ := defineAll_eq owner
      (options.notifyAs.getD (Image.backed _ owner).value) options.resolving methods
      (w := { w with image := _ }) hsil₃
    refine ⟨?_, hsil₄⟩
    dsimp only
    rw [attempt_of_finished hmixins, read_bind, attempt_of_finished hextensions, read_bind,
      bind_of_finished hmethods]
    rfl

theorem putAll_eq (sources : List Source) (place : Place) (w : World ω) (ms : List ModuleId)
    (hsil : w.image.Silent ms) (hms : Source.modulesAll sources ⊆ ms) :
    putAll sources place w =
        .finished (.ok ()) { w with image := w.image.absorbAll sources place } ∧
      (w.image.absorbAll sources place).Silent ms := by
  match sources with
  | [] => exact ⟨rfl, hsil⟩
  | source :: rest =>
    obtain ⟨hput, hsil₁⟩ := put_eq source place w ms hsil fun m hm => hms (List.mem_append_left _ hm)
    obtain ⟨hrest, hsil₂⟩ := putAll_eq rest place { w with image := w.image.absorb source place } ms
      hsil₁ fun m hm => hms (List.mem_append_right _ hm)
    refine ⟨?_, hsil₂⟩
    rw [putAll, attempt_of_finished hput]
    exact hrest

end

theorem mixIn_eq {owner : ModuleId} {source : Source} (options : MixOptions)
    (hsil : w.image.Silent source.modules) : mixIn owner source options w =
      .finished (.ok owner) { w with image := w.image.absorb source (.into owner options) } :=
  attempt_of_finished (put_eq source _ w _ hsil (List.Subset.refl _)).1

theorem extend_eq {r : Receiver} {source : Source} (hsil : w.image.Silent source.modules) :
    extend r source w = .finished (.ok r) { w with image := w.image.absorb source (.onto r) } :=
  attempt_of_finished (put_eq source _ w _ hsil (List.Subset.refl _)).1

end Effect

namespace Place

/-- Edits at this place are deferred for these modules only. -/
def Timely (late : ModuleId → Prop) : Place → Prop
  | .into owner options => options.resolving = false → late owner
  | .onto _ => True

/-- The same place, whatever the options are. -/
inductive Alike : Place → Place → Prop where
  | into (owner : ModuleId) (options options' : MixOptions) :
      Alike (.into owner options) (.into owner options')
  | onto (r : Receiver) : Alike (.onto r) (.onto r)

variable {late : ModuleId → Prop} {place : Place} {s : Image}

theorem Timely.taker (h : place.Timely late) :
    Place.Timely late (.into (s.taker place).1.1 (s.taker place).1.2) := by
  cases place with
  | into owner options => exact h
  | onto r => exact nofun

end Place

namespace Image

variable {k : Manners} {held : ObjectId → Prop} {late : ModuleId → Prop} {s s' : Image}

theorem absorbs_taker {place : Place} (hs : s.Sound) (hp : place.Ready k held s) :
    Becomes (Edit.Absorbs late) s (s.taker place).2 := by
  cases place with
  | into owner options => exact .refl s
  | onto r =>
    refine (eigenclass_becomes hs hp.alive_or).1.mono fun e he => ?_
    cases e with
    | materialize r p => trivial
    | _ => exact he.elim

theorem absorbs_defineAll {owner : ModuleId} {options : MixOptions} (hs : s.Sound)
    (hp : Place.Ready .fair held s (.into owner options))
    (ht : Place.Timely late (.into owner options)) (entries : List (String × Method))
    (hx : ∀ x ∈ entries.map Prod.snd, x.isStub = false) :
    Becomes (Edit.Absorbs late) s (s.defineAll owner options.resolving entries) := by
  induction entries generalizing s with
  | nil => exact .refl s
  | cons entry rest ih =>
    obtain ⟨key, x⟩ := entry
    have hx₁ : x.isStub = false := hx x List.mem_cons_self
    have hintern : Becomes (Edit.Absorbs late) s (s.intern key).2 :=
      .single (e := .intern key) trivial trivial
    have hdefine : Becomes (Edit.Absorbs late) (s.intern key).2
        ((s.intern key).2.define owner (s.intern key).1 x options.resolving) :=
      .single (e := .define owner (s.intern key).1 x options.resolving)
        ⟨ht, hp.2.2 rfl, hx₁⟩ hp.1.1
    have hb := hintern.trans hdefine
    have hs' := hb.sound hs
    have hp' := hp.persists hs hs' (hb.persists held hs fun e he => he.lasting)
    exact hb.trans (ih hs' hp' fun x hx' => hx x (List.mem_cons_of_mem _ hx'))

mutual

/-- Only edits to the module that takes a source in can be deferred on the way. -/
theorem absorbs_absorb (source : Source) (place : Place) (s : Image) (hs : s.Sound)
    (hp : place.Ready .fair held s) (ht : place.Timely late)
    (hsrc : Source.Ready .fair held s source.modules source.methods) :
    Becomes (Edit.Absorbs late) s (s.absorb source place) := by
  have htaker : Becomes (Edit.Absorbs late) s (s.taker place).2 := absorbs_taker hs hp
  have hs₁ := htaker.sound hs
  have hp₁ := hp.taker hs
  have ht₁ := ht.taker (s := s)
  have hsrc₁ := hsrc.persists hs hs₁ (htaker.persists held hs fun e he => he.lasting)
  match source with
  | .module other =>
    have hother := hsrc₁.1 other (List.mem_singleton_self _)
    exact htaker.trans (.single (e := .link _ other _) ⟨ht₁, hp₁.2.2 rfl⟩ ⟨hp₁.1.1, hother.1⟩)
  | .record methods mixins extensions =>
    have hmixins := absorbs_absorbAll mixins _ _ hs₁ hp₁ ht₁ <| hsrc₁.mono
      (List.subset_append_left _ _)
      fun x hx => List.mem_append_left _ (List.mem_append_right _ hx)
    have hs₂ := hmixins.sound hs₁
    have hper₂ := hmixins.persists held hs₁ fun e he => he.lasting
    have hp₂ := hp₁.persists hs₁ hs₂ hper₂
    have hsrc₂ := hsrc₁.persists hs₁ hs₂ hper₂
    have hextensions := absorbs_absorbAll extensions (.onto _) _ hs₂ (able_backed hs₂ hp₂.1) trivial <|
      hsrc₂.mono (List.subset_append_right _ _) (List.subset_append_right _ _)
    have hs₃ := hextensions.sound hs₂
    have hp₃ := hp₂.persists hs₂ hs₃ (hextensions.persists held hs₂ fun e he => he.lasting)
    have hmethods := absorbs_defineAll hs₃ hp₃ ht₁ methods fun x hx =>
      hsrc.2 rfl x (List.mem_append_left _ (List.mem_append_left _ hx))
    exact ((htaker.trans hmixins).trans hextensions).trans hmethods

theorem absorbs_absorbAll (sources : List Source) (place : Place) (s : Image) (hs : s.Sound)
    (hp : place.Ready .fair held s) (ht : place.Timely late)
    (hsrc : Source.Ready .fair held s (Source.modulesAll sources) (Source.methodsAll sources)) :
    Becomes (Edit.Absorbs late) s (s.absorbAll sources place) := by
  match sources with
  | [] => exact .refl s
  | source :: rest =>
    have hb := absorbs_absorb source place s hs hp ht <| hsrc.mono
      (List.subset_append_left _ _) (List.subset_append_left _ _)
    have hs' := hb.sound hs
    have hper := hb.persists held hs fun e he => he.lasting
    exact hb.trans <| absorbs_absorbAll rest place _ hs' (hp.persists hs hs' hper) ht <|
      (hsrc.persists hs hs' hper).mono (List.subset_append_right _ _) (List.subset_append_right _ _)

end

namespace Twin

theorem taker (h : Twin s s') {place place' : Place} (hp : place.Alike place') :
    (s'.taker place').1.1 = (s.taker place).1.1 ∧
      Twin (s.taker place).2 (s'.taker place').2 := by
  cases hp with
  | into owner options options' => exact ⟨rfl, h⟩
  | onto r => exact h.giveEigenclass r

theorem defineAll (h : Twin s s') (owner : ModuleId) (resolving resolving' : Bool)
    (entries : List (String × Method)) :
    Twin (s.defineAll owner resolving entries) (s'.defineAll owner resolving' entries) := by
  induction entries generalizing s s' with
  | nil => exact h
  | cons entry rest ih =>
    obtain ⟨hname, hintern⟩ := h.intern entry.1
    unfold Image.defineAll
    rw [hname]
    exact ih (hintern.define owner _ entry.2 resolving resolving')

mutual

theorem absorb (source : Source) {place place' : Place} (hp : place.Alike place') {s s' : Image}
    (h : Twin s s') : Twin (s.absorb source place) (s'.absorb source place') := by
  obtain ⟨howner, htaker⟩ := h.taker hp
  match source with
  | .module other =>
    unfold Image.absorb
    dsimp only
    rw [howner]
    exact htaker.link ..
  | .record methods mixins extensions =>
    unfold Image.absorb
    dsimp only
    rw [howner]
    have hmixins := absorbAll mixins (.into (s.taker place).1.1 (s.taker place).1.2
      (s'.taker place').1.2) htaker
    rw [hmixins.backed]
    exact (absorbAll extensions (.onto _) hmixins).defineAll ..

theorem absorbAll (sources : List Source) {place place' : Place} (hp : place.Alike place')
    {s s' : Image} (h : Twin s s') :
    Twin (s.absorbAll sources place) (s'.absorbAll sources place') := by
  match sources with
  | [] => exact h
  | source :: rest => exact absorbAll rest hp (absorb source hp h)

end

end Twin

end Image

end Mixin
