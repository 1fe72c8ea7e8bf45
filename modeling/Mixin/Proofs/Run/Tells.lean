import Mixin.Proofs.Image.Confined
import Mixin.Proofs.Image.Gathers

/-! Inclusion and extension while observers are told of it. A walk over a source stops only to tell the
observers of a definition, so if they leave the image unedited it runs to its end, and the notices come
in the order of the definitions. -/

namespace Mixin

/-- An observer is told of a method: of the text of its name, and of whom it was added to. -/
structure Notice where
  observer : ObserverId
  text : String
  about : Value

variable {ω α β : Type}

/-- The run gives these notices one after the other and ends as `Q` says, whatever the observers reply
and whatever they do besides editing the image. -/
def Run.Tells (Q : α → World ω → Prop) : List Notice → Run ω α → Prop
  | [], .finished a w => Q a w
  | t :: rest, .calling i w resume =>
    (∃ name, w.image.symbols.find? t.text = some name ∧
      i = .observer t.observer name t.about) ∧
    ∀ reply w', w.image.Unedited w'.image → Tells Q rest (resume reply w')
  | _, _ => False

namespace Run.Tells

variable {told told' : List Notice} {Q Q' : α → World ω → Prop} {x : Run ω α}

theorem mono (h : x.Tells Q told) (hQ : ∀ a w, Q a w → Q' a w) : x.Tells Q' told := by
  induction told generalizing x with
  | nil =>
    cases x with
    | finished a w => exact hQ a w h
    | calling i w resume => exact h.elim
  | cons t rest ih =>
    cases x with
    | finished a w => exact h.elim
    | calling i w resume => exact ⟨h.1, fun reply w' hw' => ih (h.2 reply w' hw')⟩

theorem bind {Q' : β → World ω → Prop} {f : α → World ω → Run ω β} (h : x.Tells Q told)
    (hf : ∀ a w, Q a w → (f a w).Tells Q' told') : (x.bind f).Tells Q' (told ++ told') := by
  induction told generalizing x with
  | nil =>
    cases x with
    | finished a w => exact hf a w h
    | calling i w resume => exact h.elim
  | cons t rest ih =>
    cases x with
    | finished a w => exact h.elim
    | calling i w resume => exact ⟨h.1, fun reply w' hw' => ih (h.2 reply w' hw')⟩

end Run.Tells

/-- There is no fault, but an answer of this kind. -/
def Succeeds (Q : α → World ω → Prop) : Except Fault α → World ω → Prop
  | .ok a, w => Q a w
  | .error _, _ => False

theorem Succeeds.mono {Q Q' : α → World ω → Prop} {a : Except Fault α} {w : World ω}
    (h : Succeeds Q a w) (hQ : ∀ b, Q b w → Q' b w) : Succeeds Q' a w := by
  cases a with
  | ok b => exact hQ b h
  | error e => exact h.elim

def Piece.notices (observers : List ObserverId) (about : Bool → Value) : Piece → List Notice
  | ⟨_, .edge _⟩ => []
  | ⟨extending, .entry key _⟩ => observers.map fun o => ⟨o, key, about extending⟩

/-- Whom a record's methods are said to have been added to, if it is included into the module of this
receiver. What an extension list leads to is added to the receiver. -/
def MixOptions.about (options : MixOptions) (r : Receiver) (extending : Bool) : Value :=
  if extending then r.value else options.notifyAs.getD r.value

theorem Source.notices_record (methods : List (String × Method)) (mixins extensions : List Source)
    (observers : List ObserverId) (about : Bool → Value) (extending : Bool) :
    ((Source.record methods mixins extensions).pieces extending).flatMap
        (Piece.notices observers about) =
      (Source.piecesAll extending mixins).flatMap (Piece.notices observers about) ++
        ((Source.piecesAll true extensions).flatMap (Piece.notices observers about) ++
          methods.flatMap fun e => observers.map fun o => ⟨o, e.1, about extending⟩) := by
  rw [pieces, List.flatMap_append, List.flatMap_append, List.append_assoc, List.flatMap_map]
  rfl

theorem Source.extendsAny_iff {sources : List Source} :
    Source.extendsAny sources = true ↔ ∃ source ∈ sources, source.extends? = true := by
  induction sources with
  | nil => simp [Source.extendsAny]
  | cons source rest ih => simp [Source.extendsAny, ih]

section Record

variable {methods : List (String × Method)} {mixins extensions : List Source} {source : Source}

theorem Source.extends_of_mixin (hsource : source ∈ mixins) (h : source.extends? = true) :
    (Source.record methods mixins extensions).extends? = true := by
  rw [extends?, extendsAny_iff.2 ⟨source, hsource, h⟩, Bool.true_or]

theorem Source.extends_of_extension (hsource : source ∈ extensions) :
    (Source.record methods mixins extensions).extends? = true := by
  cases extensions with
  | nil => cases hsource
  | cons _ _ => exact Bool.or_true _

end Record

namespace Image

variable {s s' : Image} {owner : ModuleId} {on : Receiver → Prop} {ps : List Piece}
  {r : Receiver} {observers : List ObserverId} {ms ms' : List ModuleId}

/-- A walk into this module can go on from here with sources of these modules. -/
structure Stage (owner : ModuleId) (r : Receiver) (observers : List ObserverId) (ms : List ModuleId)
    (s : Image) : Prop where
  sound : s.Sound
  live : s.graph.Live owner
  backed : s.backed owner = r
  observers : s.observers = observers
  modules : ∀ a ∈ ms, s.graph.Live a ∧ (s.graph.node a).hooks = {}

namespace Stage

theorem gathers (h : s.Stage owner r observers ms) (hg : Gathers owner on ps s s') :
    s'.Stage owner r observers ms where
  sound := hg.sound
  live := hg.live owner h.live
  backed := (hg.backed h.live).trans h.backed
  observers := hg.observers.trans h.observers
  modules a ha :=
    ⟨hg.live a (h.modules a ha).1, (hg.hooks a (h.modules a ha).1).trans (h.modules a ha).2⟩

variable (h : s.Stage owner r observers ms)
include h

theorem mono (hms : ms' ⊆ ms) : s.Stage owner r observers ms' :=
  { h with modules := fun a ha => h.modules a (hms ha) }

theorem able : s.Alive r ∨ ∃ e, s.eigenclass? r = some e := by
  have hkept : s.Kept (fun _ => True) (.module owner) := ⟨h.live, fun _ _ => trivial⟩
  exact h.backed ▸ (able_backed h.sound hkept).alive_or

theorem home_eq (extending : Bool) : s.home? owner extending =
    if extending then s.eigenclass? r else some owner := by
  rw [home?, h.backed]

theorem backed_home {extending : Bool} {b : ModuleId} (hb : s.home? owner extending = some b) :
    s.backed b = r := by
  rw [h.home_eq] at hb
  cases extending with
  | false => exact Option.some.inj hb ▸ h.backed
  | true => exact backed_eigenclass h.sound hb

end Stage

end Image

/-- What is put at this place belongs there by the kind of list that leads to it. -/
def Place.Leads (owner : ModuleId) (r : Receiver) (about : Value) (extending : Bool) (s : Image) :
    Place → Prop
  | .into b options => s.home? owner extending = some b ∧ options.notifyAs.getD r.value = about
  | .onto a => a = r ∧ extending = true ∧ r.value = about

theorem Place.Leads.onward {owner : ModuleId} {r : Receiver} {about : Value} {extending : Bool}
    {s s' : Image} {place : Place} (h : place.Leads owner r about extending s)
    (ho : Image.Onward owner s s') : place.Leads owner r about extending s' := by
  cases place with
  | into b options => exact ⟨ho.home _ b h.1, h.2⟩
  | onto a => exact h

namespace Effect

open Image

variable {w : World ω} {owner : ModuleId} {on : Receiver → Prop} {r : Receiver}
  {observers : List ObserverId} {options : MixOptions} {extending : Bool}

theorem tells_bind {x : Effect ω α} {f : α → Effect ω β} {Q : α → World ω → Prop}
    {Q' : β → World ω → Prop} {told told' : List Notice} (hx : (x w).Tells Q told)
    (hf : ∀ a w', Q a w' → (f a w').Tells Q' told') : ((x >>= f) w).Tells Q' (told ++ told') :=
  Run.Tells.bind hx hf

theorem tells_attempt {x : Effect ω (Except Fault α)} {f : α → Effect ω (Except Fault β)}
    {Q : α → World ω → Prop} {Q' : Except Fault β → World ω → Prop} {told told' : List Notice}
    (hx : (x w).Tells (Succeeds Q) told) (hf : ∀ a w', Q a w' → (f a w').Tells Q' told') :
    (x.attempt f w).Tells Q' (told ++ told') := by
  refine tells_bind hx fun a w' h => ?_
  cases a with
  | ok a => exact hf a w' h
  | error e => exact h.elim

theorem tells_notifyAdded {text : String} {name : Symbol} {about : Value}
    {Q : Unit → World ω → Prop} (hname : w.image.symbols.find? text = some name)
    (hQ : ∀ w', w.image.Unedited w'.image → Q () w') :
    (notifyAdded name about observers w).Tells Q (observers.map fun o => ⟨o, text, about⟩) := by
  induction observers generalizing w with
  | nil => exact hQ w (.refl w.image)
  | cons o rest ih =>
    refine ⟨⟨name, hname, rfl⟩, fun reply w' hw' => ?_⟩
    exact ih (hw'.symbols text name hname) fun w'' hw'' => hQ w'' (hw'.trans hw'')

theorem tells_defineAll (on : Receiver → Prop) {ms : List ModuleId}
    (hw : w.image.Stage owner r observers ms) {b : ModuleId}
    (hb : w.image.home? owner extending = some b) (about : Value) (resolving : Bool)
    (entries : List (String × Method)) :
    (defineAll b about resolving entries w).Tells
      (fun _ w' => Gathers owner on (entries.map fun e => ⟨extending, .entry e.1 e.2⟩)
        w.image w'.image)
      (entries.flatMap fun e => observers.map fun o => ⟨o, e.1, about⟩) := by
  induction entries generalizing w with
  | nil => exact (Unedited.refl w.image).gathers hw.sound
  | cons entry rest ih =>
    obtain ⟨key, x⟩ := entry
    have hintern := Unedited.intern w.image key
    have h₁ : Gathers owner on [] w.image (w.image.intern key).2 := hintern.gathers hw.sound
    have hw₁ := hw.gathers h₁
    have hb₁ := (h₁.onward hw.live).home _ b hb
    have hname := find?_intern w.image key
    have hdefine : Gathers owner on [⟨extending, .entry key x⟩] (w.image.intern key).2 _ :=
      gathers_define hw₁.sound hw₁.live hb₁ hname x resolving
    have h₂ := h₁.trans hdefine hw.live
    have hw₂ := hw₁.gathers hdefine
    rw [defineAll, edit_bind, change_bind, read_bind]
    dsimp only
    rw [hw₂.observers]
    refine tells_bind (Q := fun _ w' => Gathers owner on [⟨extending, .entry key x⟩] w.image
      w'.image) (tells_notifyAdded (hdefine.symbols key _ hname) fun w' hw' => ?_) fun _ w' h => ?_
    · exact h₂.trans (hw'.gathers hw₂.sound) hw.live
    · refine (ih (hw.gathers h) ((h.onward hw.live).home _ b hb)).mono fun _ w'' h' => ?_
      exact h.trans h' hw.live

theorem gathers_taker {place : Place} {about : Value} {ms : List ModuleId} {s : Image}
    (hs : s.Stage owner r observers ms) (hp : place.Leads owner r about extending s)
    (hon : extending = true → ∀ a ∈ s.lineage r, on a) :
    ∃ b options s₁, s.taker place = ((b, options), s₁) ∧ Gathers owner on [] s s₁ ∧
      s₁.home? owner extending = some b ∧ options.notifyAs.getD r.value = about := by
  cases place with
  | into b options =>
    exact ⟨b, options, s, rfl, (Unedited.refl s).gathers hs.sound, hp.1, hp.2⟩
  | onto a =>
    obtain ⟨rfl, rfl, rfl⟩ := hp
    have hg : Gathers owner on [] s (s.eigenclass a).2 :=
      gathers_eigenclass hs.sound hs.live hs.able (hon rfl)
    have hmade := (eigenclass_becomes hs.sound hs.able).2
    exact ⟨_, _, _, rfl, hg, ((hs.gathers hg).home_eq true).trans hmade, rfl⟩

mutual

/-- Putting a source somewhere tells of its methods in the order of the walk, and every part of it
comes to the module that it belongs into. -/
theorem tells_put (source : Source) (extending : Bool) (place : Place) (w : World ω)
    (hw : w.image.Stage owner r observers source.modules)
    (hp : place.Leads owner r (options.about r extending) extending w.image)
    (hon : extending = true ∨ source.extends? = true → ∀ a ∈ w.image.lineage r, on a) :
    (put source place w).Tells
      (Succeeds fun _ w' => Gathers owner on (source.pieces extending) w.image w'.image ∧
        (extending = true ∨ source.extends? = true → ∃ e, w'.image.eigenclass? r = some e))
      ((source.pieces extending).flatMap (Piece.notices observers (options.about r))) := by
  obtain ⟨b, given, s₁, htaker, h₁, hb₁, habout⟩ := gathers_taker hw hp fun h => hon (.inl h)
  have hw₁ := hw.gathers h₁
  have hopen : extending = true → ∃ e, s₁.eigenclass? r = some e := fun h => by
    rw [hw₁.home_eq, h] at hb₁
    exact ⟨b, hb₁⟩
  match source with
  | .module other =>
    have hother := (hw₁.modules other (List.mem_singleton_self _)).1
    have h₂ : Gathers owner on [⟨extending, .edge other⟩] s₁ _ :=
      gathers_link hw₁.sound hw₁.live hb₁ hother given.resolving
    have hhooks := ((hw₁.gathers h₂).modules other (List.mem_singleton_self _)).2
    rw [put, edit_bind, htaker]
    dsimp only
    rw [change_bind, read_bind, read_bind]
    dsimp only
    rw [hhooks]
    have hopened : extending = true ∨ (Source.module other).extends? = true →
        ∃ e, (s₁.link b other given.resolving).eigenclass? r = some e := by
      rintro (h | h)
      · obtain ⟨e, he⟩ := hopen h
        exact ⟨e, h₂.kept r e he⟩
      · cases h
    cases place <;> exact ⟨h₁.trans h₂ hw.live, hopened⟩
  | .record methods mixins extensions =>
    have hon₁ : extending = true ∨ (Source.record methods mixins extensions).extends? = true →
        ∀ a ∈ s₁.lineage r, on a := fun h => by
      rw [h₁.lineage]
      exact hon h
    have hmixins := tells_putAll mixins extending (.into b given) { w with image := s₁ }
      (hw₁.mono (List.subset_append_left _ _)) ⟨hb₁, habout⟩ fun source hsource h =>
        hon₁ (h.imp_right (Source.extends_of_mixin hsource))
    rw [put, edit_bind, htaker, Source.notices_record]
    refine tells_attempt hmixins fun _ w₂ ⟨h₂, hopened₂⟩ => ?_
    have hw₂ := hw₁.gathers h₂
    have hb₂ := (h₂.onward hw₁.live).home _ b hb₁
    rw [read_bind, hw₂.backed_home hb₂]
    have hextensions := tells_putAll extensions true (.onto r) w₂
      (hw₂.mono (List.subset_append_right _ _)) ⟨rfl, rfl, rfl⟩ fun source hsource _ => by
        rw [h₂.lineage]
        exact hon₁ (.inr (Source.extends_of_extension hsource))
    refine tells_attempt hextensions fun _ w₃ ⟨h₃, hopened₃⟩ => ?_
    have hw₃ := hw₂.gathers h₃
    have hb₃ := (h₃.onward hw₂.live).home _ b hb₂
    rw [read_bind, hw₃.backed_home hb₃, habout]
    rw [← List.append_nil (methods.flatMap _)]
    refine tells_bind (tells_defineAll on hw₃ hb₃ _ given.resolving methods) fun _ w₄ h₄ =>
      (⟨?_, ?_⟩ : _ ∧ _)
    · exact ((h₁.trans h₂ hw.live).trans h₃ hw.live).trans h₄ hw.live
    rintro (h | h)
    · obtain ⟨e, he⟩ := hopen h
      exact ⟨e, h₄.kept r e (h₃.kept r e (h₂.kept r e he))⟩
    · rw [Source.extends?, Bool.or_eq_true] at h
      rcases h with h | h
      · obtain ⟨source, hsource, h⟩ := Source.extendsAny_iff.1 h
        obtain ⟨e, he⟩ := hopened₂ source hsource (.inr h)
        exact ⟨e, h₄.kept r e (h₃.kept r e he)⟩
      · cases extensions with
        | nil => cases h
        | cons source rest =>
          obtain ⟨e, he⟩ := hopened₃ source List.mem_cons_self (.inl rfl)
          exact ⟨e, h₄.kept r e he⟩

theorem tells_putAll (sources : List Source) (extending : Bool) (place : Place) (w : World ω)
    (hw : w.image.Stage owner r observers (Source.modulesAll sources))
    (hp : place.Leads owner r (options.about r extending) extending w.image)
    (hon : ∀ source ∈ sources, extending = true ∨ source.extends? = true →
      ∀ a ∈ w.image.lineage r, on a) :
    (putAll sources place w).Tells
      (Succeeds fun _ w' => Gathers owner on (Source.piecesAll extending sources) w.image w'.image ∧
        ∀ source ∈ sources, extending = true ∨ source.extends? = true →
          ∃ e, w'.image.eigenclass? r = some e)
      ((Source.piecesAll extending sources).flatMap
        (Piece.notices observers (options.about r))) := by
  match sources with
  | [] => exact ⟨(Unedited.refl w.image).gathers hw.sound, fun _ h => absurd h List.not_mem_nil⟩
  | source :: rest =>
    have hsource := tells_put source extending place w (hw.mono (List.subset_append_left _ _)) hp
      (hon source List.mem_cons_self)
    rw [putAll, Source.piecesAll, List.flatMap_append]
    refine tells_attempt hsource fun _ w₁ ⟨h₁, hopened₁⟩ => ?_
    have hw₁ := hw.gathers h₁
    have hrest := tells_putAll rest extending place w₁ (hw₁.mono (List.subset_append_right _ _))
      (hp.onward (h₁.onward hw.live)) fun other hother h => by
        rw [h₁.lineage]
        exact hon other (List.mem_cons_of_mem _ hother) h
    refine hrest.mono fun _ w₂ h => h.mono fun _ ⟨h₂, hopened₂⟩ =>
      ⟨h₁.trans h₂ hw.live, fun other hother h => ?_⟩
    rcases List.mem_cons.1 hother with rfl | hother
    · obtain ⟨e, he⟩ := hopened₁ h
      exact ⟨e, h₂.kept r e he⟩
    · exact hopened₂ other hother h

end

end Effect

end Mixin
