import Mixin.Proofs.Image.Deepens
import Mixin.Proofs.Image.Descended
import Mixin.Proofs.Interning
import Mixin.Proofs.Run.Absorb

/-! What a source comes to in the graph. A walk over it meets modules and methods one after the other.
What no extension list leads to belongs into the module that takes the source in, the rest into the
eigenclass of what that module stands for. Two images are apart by such a walk if every module has
gathered what belongs into it and has otherwise stayed as it was, but for the gate's stubs; and if what
is new besides are eigenclasses. -/

namespace Mixin

/-- A module to be included, or a method to be defined under a key. -/
inductive Part where
  | edge (m : ModuleId)
  | entry (key : String) (x : Method)

/-- A part of a source, and whether some extension list leads to it. -/
structure Piece where
  extending : Bool
  part : Part

namespace Source

mutual

/-- The parts of a source as a depth-first walk meets them: of a record those of its mixins, then those
of its extensions, then the methods it lists itself. -/
def pieces (extending : Bool) : Source → List Piece
  | .module m => [⟨extending, .edge m⟩]
  | .record methods mixins extensions =>
    piecesAll extending mixins ++ piecesAll true extensions ++
      methods.map fun e => ⟨extending, .entry e.1 e.2⟩

def piecesAll (extending : Bool) : List Source → List Piece
  | [] => []
  | source :: rest => pieces extending source ++ piecesAll extending rest

end

mutual

/-- Some extension list in it has something in it. -/
def extends? : Source → Bool
  | .module _ => false
  | .record _ mixins extensions => extendsAny mixins || !extensions.isEmpty

def extendsAny : List Source → Bool
  | [] => false
  | source :: rest => extends? source || extendsAny rest

end

end Source

namespace Image

variable {s s' s'' : Image} {owner a : ModuleId} {ps qs : List Piece} {on on' : Receiver → Prop}

/-- The receivers whose eigenclasses the receiver's own cannot be without: a class and its superclasses,
or the receiver alone. -/
def lineage (s : Image) : Receiver → List Receiver
  | .class c => (s.lineOf c).map .class
  | r => [r]

/-- The module that a part belongs into. -/
def home? (s : Image) (owner : ModuleId) (extending : Bool) : Option ModuleId :=
  if extending then s.eigenclass? (s.backed owner) else some owner

/-- The modules that belong into `a`, in the order in which they are met. -/
def edgesInto (s : Image) (owner a : ModuleId) (ps : List Piece) : List ModuleId :=
  ps.filterMap fun
    | ⟨extending, .edge m⟩ => if s.home? owner extending = some a then some m else none
    | ⟨_, .entry _ _⟩ => none

/-- The methods of this name that belong into `a`, in the order in which they are met. -/
def entriesInto (s : Image) (owner a : ModuleId) (n : Symbol) (ps : List Piece) : List Method :=
  ps.filterMap fun
    | ⟨_, .edge _⟩ => none
    | ⟨extending, .entry key x⟩ =>
      if s.home? owner extending = some a ∧ s.symbols.find? key = some n then some x else none

section Into

variable (s : Image) (owner a : ModuleId) (n : Symbol) (ps qs : List Piece) (extending : Bool)

@[simp]
theorem edgesInto_nil : s.edgesInto owner a [] = [] := rfl

@[simp]
theorem entriesInto_nil : s.entriesInto owner a n [] = [] := rfl

@[simp]
theorem edgesInto_edge (m : ModuleId) : s.edgesInto owner a (⟨extending, .edge m⟩ :: ps) =
    (if s.home? owner extending = some a then [m] else []) ++ s.edgesInto owner a ps := by
  by_cases h : s.home? owner extending = some a
  · simp [edgesInto, h]
  · simp [edgesInto, h]

@[simp]
theorem edgesInto_entry (key : String) (x : Method) :
    s.edgesInto owner a (⟨extending, .entry key x⟩ :: ps) = s.edgesInto owner a ps := rfl

@[simp]
theorem entriesInto_edge (m : ModuleId) :
    s.entriesInto owner a n (⟨extending, .edge m⟩ :: ps) = s.entriesInto owner a n ps := rfl

@[simp]
theorem entriesInto_entry (key : String) (x : Method) :
    s.entriesInto owner a n (⟨extending, .entry key x⟩ :: ps) =
      (if s.home? owner extending = some a ∧ s.symbols.find? key = some n then [x] else []) ++
        s.entriesInto owner a n ps := by
  by_cases h : s.home? owner extending = some a ∧ s.symbols.find? key = some n
  · simp [entriesInto, h]
  · rw [if_neg h]
    exact List.filterMap_cons_none (if_neg h)

theorem edgesInto_append : s.edgesInto owner a (ps ++ qs) =
    s.edgesInto owner a ps ++ s.edgesInto owner a qs := List.filterMap_append

theorem entriesInto_append : s.entriesInto owner a n (ps ++ qs) =
    s.entriesInto owner a n ps ++ s.entriesInto owner a n qs := List.filterMap_append

theorem into_of_not_home {s : Image} {owner a : ModuleId}
    (h : ∀ extending, s.home? owner extending ≠ some a) :
    s.edgesInto owner a ps = [] ∧ ∀ n, s.entriesInto owner a n ps = [] := by
  induction ps with
  | nil => exact ⟨rfl, fun _ => rfl⟩
  | cons p ps ih =>
    obtain ⟨extending, m | ⟨key, x⟩⟩ := p
    · rw [edgesInto_edge, if_neg (h extending)]
      exact ih
    · refine ⟨ih.1, fun n => ?_⟩
      rw [entriesInto_entry, if_neg fun hc => h extending hc.1]
      exact ih.2 n

end Into

/-- The part has a place to be in, and a name if it is a method. -/
def Settled (s : Image) (owner : ModuleId) : Piece → Prop
  | ⟨extending, .edge _⟩ => (s.home? owner extending).isSome
  | ⟨extending, .entry key _⟩ => (s.home? owner extending).isSome ∧ (s.symbols.find? key).isSome

structure Onward (owner : ModuleId) (s s' : Image) : Prop where
  home : ∀ extending a, s.home? owner extending = some a → s'.home? owner extending = some a
  symbols : ∀ text n, s.symbols.find? text = some n → s'.symbols.find? text = some n

namespace Onward

variable (h : Onward owner s s')
include h

theorem settled {p : Piece} (hp : s.Settled owner p) : s'.Settled owner p := by
  obtain ⟨extending, m | ⟨key, x⟩⟩ := p
  · obtain ⟨b, hb⟩ := Option.isSome_iff_exists.1 hp
    exact Option.isSome_iff_exists.2 ⟨b, h.home _ b hb⟩
  · obtain ⟨b, hb⟩ := Option.isSome_iff_exists.1 hp.1
    obtain ⟨n, hn⟩ := Option.isSome_iff_exists.1 hp.2
    exact ⟨Option.isSome_iff_exists.2 ⟨b, h.home _ b hb⟩,
      Option.isSome_iff_exists.2 ⟨n, h.symbols _ n hn⟩⟩

theorem edgesInto (hps : ∀ p ∈ ps, s.Settled owner p) :
    s'.edgesInto owner a ps = s.edgesInto owner a ps := by
  refine List.filterMap_congr ?_
  rintro ⟨extending, m | ⟨key, x⟩⟩ hp
  · obtain ⟨b, hb⟩ := Option.isSome_iff_exists.1 (hps _ hp)
    simp only [hb, h.home _ b hb]
  · rfl

theorem entriesInto (hps : ∀ p ∈ ps, s.Settled owner p) (n : Symbol) :
    s'.entriesInto owner a n ps = s.entriesInto owner a n ps := by
  refine List.filterMap_congr ?_
  rintro ⟨extending, m | ⟨key, x⟩⟩ hp
  · rfl
  · obtain ⟨b, hb⟩ := Option.isSome_iff_exists.1 (hps _ hp).1
    obtain ⟨c, hc⟩ := Option.isSome_iff_exists.1 (hps _ hp).2
    simp only [hb, h.home _ b hb, hc, h.symbols _ c hc]

end Onward

theorem Sound.live_home (hs : s.Sound) (hl : s.graph.Live owner) {extending : Bool}
    (h : s.home? owner extending = some a) : s.graph.Live a := by
  cases extending with
  | false => exact Option.some.inj h ▸ hl
  | true => exact hs.live_eigenclass h

/-- From one image to the other the modules have gathered these pieces, and eigenclasses have been made
on such receivers only. -/
structure Gathers (owner : ModuleId) (on : Receiver → Prop) (ps : List Piece) (s s' : Image) :
    Prop where
  sound : s'.Sound
  settled : ∀ p ∈ ps, s'.Settled owner p
  live : ∀ a, s.graph.Live a → s'.graph.Live a
  target : ∀ a, s.graph.Live a → (s'.graph.node a).target = (s.graph.node a).target
  hooks : ∀ a, s.graph.Live a → (s'.graph.node a).hooks = (s.graph.node a).hooks
  included : ∀ a, s.graph.Live a →
    (s'.graph.node a).included = (s.graph.node a).included ++ s'.edgesInto owner a ps
  /-- The last definition of a name counts. -/
  methods : ∀ a, s.graph.Live a → a ≠ .gate → ∀ n, (s'.graph.node a).methods[n]? =
    (s'.entriesInto owner a n ps).getLast?.or (s.graph.node a).methods[n]?
  kept : ∀ r e, s.eigenclass? r = some e → s'.eigenclass? r = some e
  made : ∀ r e, s.eigenclass? r = none → s'.eigenclass? r = some e →
    on r ∧ ¬ s.graph.Live e ∧
      (∃ p, s'.parent? r = some p ∧
        (s'.graph.node e).included = p :: s'.edgesInto owner e ps) ∧
      ∀ n, (s'.graph.node e).methods[n]? = (s'.entriesInto owner e n ps).getLast?
  /-- There are no other new modules. -/
  new : ∀ a, s'.graph.Live a →
    s.graph.Live a ∨ ∃ r, s.eigenclass? r = none ∧ s'.eigenclass? r = some a
  parent : ∀ r e p, s.eigenclass? r = some e → s.parent? r = some p → s'.parent? r = some p
  classes : s'.classes.size = s.classes.size
  superclass : ∀ c, s'.superclass c = s.superclass c
  observers : s'.observers = s.observers
  symbols : ∀ text n, s.symbols.find? text = some n → s'.symbols.find? text = some n

namespace Gathers

theorem backed (h : Gathers owner on ps s s') (ha : s.graph.Live a) :
    s'.backed a = s.backed a := by
  rw [Image.backed, Image.backed, h.target a ha]

theorem lineage (h : Gathers owner on ps s s') (r : Receiver) : s'.lineage r = s.lineage r := by
  cases r with
  | «class» c => exact congrArg (List.map Receiver.class) (lineOf_congr h.superclass h.classes c)
  | object o => rfl
  | module m => rfl

theorem onward (h : Gathers owner on ps s s') (hl : s.graph.Live owner) : Onward owner s s' := by
  refine ⟨fun extending a ha => ?_, h.symbols⟩
  cases extending with
  | false => exact ha
  | true =>
    show s'.eigenclass? (s'.backed owner) = some a
    rw [h.backed hl]
    exact h.kept _ a ha

theorem mono (h : Gathers owner on ps s s') (hon : ∀ r, on r → on' r) :
    Gathers owner on' ps s s' :=
  { h with made := fun r e hr he => ⟨hon r (h.made r e hr he).1, (h.made r e hr he).2⟩ }

theorem trans (h : Gathers owner on ps s s') (h' : Gathers owner on qs s' s'')
    (hl : s.graph.Live owner) : Gathers owner on (ps ++ qs) s s'' := by
  have honward := h'.onward (h.live owner hl)
  have hedges : ∀ a, s''.edgesInto owner a (ps ++ qs) =
      s'.edgesInto owner a ps ++ s''.edgesInto owner a qs := fun a => by
    rw [edgesInto_append, honward.edgesInto h.settled]
  have hentries : ∀ a n, s''.entriesInto owner a n (ps ++ qs) =
      s'.entriesInto owner a n ps ++ s''.entriesInto owner a n qs := fun a n => by
    rw [entriesInto_append, honward.entriesInto h.settled]
  refine ⟨h'.sound, fun p hp => ?_, fun a ha => h'.live a (h.live a ha), fun a ha => ?_,
    fun a ha => ?_, fun a ha => ?_, fun a ha hne n => ?_,
    fun r e he => h'.kept r e (h.kept r e he), fun r e hr he => ?_, fun a ha => ?_,
    fun r e p he hp => h'.parent r e p (h.kept r e he) (h.parent r e p he hp),
    h'.classes.trans h.classes, fun c => (h'.superclass c).trans (h.superclass c),
    h'.observers.trans h.observers,
    fun text n hn => h'.symbols text n (h.symbols text n hn)⟩
  · rcases List.mem_append.1 hp with hp | hp
    · exact honward.settled (h.settled p hp)
    · exact h'.settled p hp
  · exact (h'.target a (h.live a ha)).trans (h.target a ha)
  · exact (h'.hooks a (h.live a ha)).trans (h.hooks a ha)
  · rw [h'.included a (h.live a ha), h.included a ha, hedges, List.append_assoc]
  · rw [h'.methods a (h.live a ha) hne, h.methods a ha hne, hentries, List.getLast?_append,
      Option.or_assoc]
  · cases hr' : s'.eigenclass? r with
    | some e' =>
      -- Made in the first stretch, it gathers in the second like any other module.
      obtain rfl : e' = e := Option.some.inj ((h'.kept r e' hr').symm.trans he)
      obtain ⟨hon, hnew, ⟨p, hp, hin⟩, hm⟩ := h.made r e' hr hr'
      have hlive : s'.graph.Live e' := h.sound.live_eigenclass hr'
      have hne : e' ≠ .gate := h.sound.ne_gate_of_holder (t := .singleton r) hr'
      refine ⟨hon, hnew, ⟨p, h'.parent r e' p hr' hp, ?_⟩, fun n => ?_⟩
      · rw [h'.included e' hlive, hin, hedges, List.cons_append]
      · rw [h'.methods e' hlive hne, hm, hentries, List.getLast?_append]
    | none =>
      obtain ⟨hon, hnew, ⟨p, hp, hin⟩, hm⟩ := h'.made r e hr' he
      have hbefore := into_of_not_home ps fun extending (hc : s'.home? owner extending = some e) =>
        hnew (h.sound.live_home (h.live owner hl) hc)
      refine ⟨hon, fun hlive => hnew (h.live e hlive), ⟨p, hp, ?_⟩, fun n => ?_⟩
      · rw [hin, hedges, hbefore.1, List.nil_append]
      · rw [hm, hentries, hbefore.2, List.nil_append]
  · rcases h'.new a ha with ha | ⟨r, hr, he⟩
    · rcases h.new a ha with ha | ⟨r, hr, he⟩
      · exact .inl ha
      · exact .inr ⟨r, hr, h'.kept r a he⟩
    · refine .inr ⟨r, ?_, he⟩
      cases hr' : s.eigenclass? r with
      | none => rfl
      | some e =>
        rw [h.kept r e hr'] at hr
        cases hr

end Gathers

/-- Nothing has been made, included, defined or registered; only the gate may hold more, and more texts
may have names. -/
structure Unedited (s s' : Image) : Prop where
  akin : Akin s s'
  hooks : ∀ a, (s'.graph.node a).hooks = (s.graph.node a).hooks
  included : ∀ a, (s'.graph.node a).included = (s.graph.node a).included
  methods : ∀ a, a ≠ .gate → (s'.graph.node a).methods = (s.graph.node a).methods
  observers : s'.observers = s.observers
  symbols : ∀ text n, s.symbols.find? text = some n → s'.symbols.find? text = some n

namespace Unedited

theorem refl (s : Image) : Unedited s s :=
  ⟨.refl s, fun _ => rfl, fun _ => rfl, fun _ _ => rfl, rfl, fun _ _ h => h⟩

theorem trans (h : Unedited s s') (h' : Unedited s' s'') : Unedited s s'' where
  akin := h.akin.trans h'.akin
  hooks a := (h'.hooks a).trans (h.hooks a)
  included a := (h'.included a).trans (h.included a)
  methods a ha := (h'.methods a ha).trans (h.methods a ha)
  observers := h'.observers.trans h.observers
  symbols text n hn := h'.symbols text n (h.symbols text n hn)

theorem intern (s : Image) (text : String) : Unedited s (s.intern text).2 where
  akin := .of_records (fun hg => hg) (fun _ => Iff.rfl) (fun _ => rfl) rfl rfl rfl rfl
  hooks _ := rfl
  included _ := rfl
  methods _ _ := rfl
  observers := rfl
  symbols other n hn := by
    show (s.symbols.intern text).2.find? other = some n
    unfold SymbolTable.intern
    split
    · exact hn
    · exact SymbolTable.find?_add_of_find? hn text

end Unedited

theorem find?_intern (s : Image) (text : String) :
    (s.intern text).2.symbols.find? text = some (s.intern text).1 := by
  show (s.symbols.intern text).2.find? text = some (s.symbols.intern text).1
  unfold SymbolTable.intern
  split
  · assumption
  · rename_i h
    exact SymbolTable.find?_add_self h

theorem Akin.home? (h : Akin s s') (owner : ModuleId) (extending : Bool) :
    s'.home? owner extending = s.home? owner extending := by
  rw [Image.home?, Image.home?, h.eigenclass, backed, backed, h.target]

/-- Among images with the same receivers and modules it is what the modules hold that matters. -/
theorem Akin.gathers (h : Akin s s') (hs : s.Sound) (hsettled : ∀ p ∈ ps, s'.Settled owner p)
    (hhooks : ∀ a, (s'.graph.node a).hooks = (s.graph.node a).hooks)
    (hin : ∀ a, (s'.graph.node a).included =
      (s.graph.node a).included ++ s'.edgesInto owner a ps)
    (hm : ∀ a, a ≠ .gate → ∀ n, (s'.graph.node a).methods[n]? =
      (s'.entriesInto owner a n ps).getLast?.or (s.graph.node a).methods[n]?)
    (hobs : s'.observers = s.observers)
    (hsym : ∀ text n, s.symbols.find? text = some n → s'.symbols.find? text = some n) :
    Gathers owner on ps s s' where
  sound := h.sound hs
  settled := hsettled
  live a := (h.live a).2
  target a _ := h.target a
  hooks a _ := hhooks a
  included a _ := hin a
  methods a _ := hm a
  kept r e he := (h.eigenclass r).trans he
  made r e hr he := by
    rw [h.eigenclass, hr] at he
    cases he
  new a ha := .inl ((h.live a).1 ha)
  parent r e p _ hp := (h.parentOf? (.singleton r)).trans hp
  classes := h.classes
  superclass := h.superclass
  observers := hobs
  symbols := hsym

theorem Unedited.gathers (h : Unedited s s') (hs : s.Sound) : Gathers owner on [] s s' :=
  h.akin.gathers hs (fun _ hp => absurd hp List.not_mem_nil) h.hooks
    (fun a => by rw [h.included, edgesInto_nil, List.append_nil])
    (fun a ha n => by rw [h.methods a ha]; rfl) h.observers h.symbols

section Piece

variable (hs : s.Sound) (hl : s.graph.Live owner) {extending : Bool} {b : ModuleId}
  (hb : s.home? owner extending = some b)
include hs hl hb

theorem gathers_link {m : ModuleId} (hm : s.graph.Live m) (resolving : Bool) :
    Gathers owner on [⟨extending, .edge m⟩] s (s.link b m resolving) := by
  have hlive : s.graph.Live b := hs.live_home hl hb
  have hakin : Akin s (s.link b m resolving) := .link hs hlive hm resolving
  have hb' : (s.link b m resolving).home? owner extending = some b :=
    (hakin.home? owner extending).trans hb
  have htwin := Twin.of_link s b m resolving
  refine hakin.gathers hs (fun p hp => ?_) (fun a => ?_) (fun a => ?_) (fun a _ n => ?_)
    htwin.observers fun text n hn => ?_
  · obtain rfl := List.mem_singleton.1 hp
    exact Option.isSome_iff_exists.2 ⟨b, hb'⟩
  · rw [graph_link, Graph.hooks_addEdge]
  · rw [graph_link, Graph.included_addEdge hlive hm, edgesInto_edge, edgesInto_nil]
    by_cases ha : a = b
    · simp [ha, hb']
    · simp [ha, hb', Ne.symm ha]
  · rw [graph_link, Graph.methods_addEdge hlive hm]
    rfl
  · rw [htwin.symbols]
    exact hn

theorem gathers_define {key : String} {name : Symbol} (hname : s.symbols.find? key = some name)
    (x : Method) (resolving : Bool) :
    Gathers owner on [⟨extending, .entry key x⟩] s (s.define b name x resolving) := by
  have hlive : s.graph.Live b := hs.live_home hl hb
  have hakin : Akin s (s.define b name x resolving) := .define hs hlive name x resolving
  have hb' : (s.define b name x resolving).home? owner extending = some b :=
    (hakin.home? owner extending).trans hb
  have htwin := Twin.of_define s b name x resolving
  have hsymbols : (s.define b name x resolving).symbols = s.symbols := by
    rw [htwin.symbols, watch]
    split <;> rfl
  have hname' : (s.define b name x resolving).symbols.find? key = some name := by
    rw [hsymbols, hname]
  refine hakin.gathers hs (fun p hp => ?_) (fun a => ?_) (fun a => ?_) (fun a ha n => ?_) ?_
    fun text n hn => ?_
  · obtain rfl := List.mem_singleton.1 hp
    exact ⟨Option.isSome_iff_exists.2 ⟨b, hb'⟩, Option.isSome_iff_exists.2 ⟨name, hname'⟩⟩
  · rw [graph_define, watch]
    split
    · rw [Graph.hooks_setMethod, Graph.hooks_setMethod]
    · rw [Graph.hooks_setMethod]
  · rw [included_define hs hlive]
    exact (List.append_nil _).symm
  · rw [methods_define hs hlive name x resolving ha, entriesInto_entry, entriesInto_nil]
    by_cases hab : a = b
    · subst hab
      by_cases hn : name = n
      · subst hn
        simp [hb', hname']
      · simp [hn, hb', hname', Std.ExtTreeMap.getElem?_insert]
    · simp [hab, hb', Ne.symm hab]
  · rw [htwin.observers, watch]
    split <;> rfl
  · rw [hsymbols, hn]

end Piece

section Make

variable (hs : s.Sound)
include hs

theorem gathers_materialize {r : Receiver} (hr : s.Alive r) (hn : s.eigenclass? r = none)
    {p : ModuleId} (hp : s.parent? r = some p) :
    Gathers owner (fun _ => True) [] s (s.materialize r p).2 := by
  have hakin := akin_materialize hs hr hn hp
  have hdeepens := deepens_materialize hs hr hn hp
  have heigen := eigenclass_materialize hs hr hn hp
  have hnew := node_materialize_new hs hr hp
  have htwin := Twin.of_link (s.addEigenclass r).2 (s.addEigenclass r).1 p true
  have hkept : ∀ a e, s.eigenclass? a = some e → (s.materialize r p).2.eigenclass? a = some e :=
    fun a e he => by
      rw [heigen, if_neg, he]
      rintro rfl
      rw [hn] at he
      cases he
  have hclassOf : ∀ o, (s.materialize r p).2.classOf o = s.classOf o := fun o =>
    (hakin.classOf o).trans (classOf_addEigenclass r o)
  have hparent : ∀ t q, s.Standing t → s.parentOf? t = some q →
      (s.materialize r p).2.parentOf? t = some q := fun t q =>
    hs.parentOf_mono (fun c _ => hdeepens.superclass c) (fun c _ => hdeepens.instanceModule c)
      (fun c => hkept (.class c)) fun o _ => hclassOf o
  refine ⟨hakin.sound (hs.addEigenclass hr hn), fun _ h => absurd h List.not_mem_nil,
    fun _ => hdeepens.live, hdeepens.target, fun a ha => ?_,
    fun a ha => (hdeepens.included a ha).trans (List.append_nil _).symm,
    fun a ha _ n => by rw [hdeepens.methods a ha]; rfl, hkept, fun a e ha he => ?_, fun a ha => ?_,
    fun a e q he => hparent (.singleton a) q (hs.standing (t := .singleton a) he),
    hdeepens.classes, hdeepens.superclass, ?_, fun text n hn => ?_⟩
  · obtain ⟨dependents, hnode⟩ := node_materialize_of_live hs hr hp ha
    rw [hnode]
  · rw [heigen] at he
    split at he
    · rename_i har
      subst har
      obtain rfl := Option.some.inj he
      refine ⟨trivial, s.graph.alloc_fresh _,
        ⟨p, hparent (.singleton a) p (hs.standing_of_alive hr) hp, by rw [hnew]; rfl⟩, fun n => ?_⟩
      rw [hnew]
      exact Std.ExtTreeMap.getElem?_empty
    · rw [ha] at he
      cases he
  · rw [hakin.live, hs.live_addEigenclass] at ha
    rcases ha with rfl | ha
    · exact .inr ⟨r, hn, (heigen r).trans (if_pos rfl)⟩
    · exact .inl ha
  · refine htwin.observers.trans ?_
    cases r <;> rfl
  · refine (congrArg (SymbolTable.find? · text) (htwin.symbols.trans ?_)).trans hn
    cases r <;> rfl

theorem eigenclass_of_not_mem_lineage {a r : Receiver}
    (ha : s.Alive a ∨ ∃ m, s.eigenclass? a = some m) (hr : r ∉ s.lineage a) :
    (s.eigenclass a).2.eigenclass? r = s.eigenclass? r := by
  cases hm : s.eigenclass? a with
  | some m => rw [eigenclass_of_some hm]
  | none =>
    have halive : s.Alive a := ha.resolve_right fun ⟨m, h⟩ => by rw [hm] at h; cases h
    cases a with
    | «class» c =>
      refine (lined_classEigenclass hs (hs.line_lineOf halive)).others r fun d hd he => hr ?_
      exact he ▸ List.mem_map_of_mem hd
    | object o =>
      have hmake : s.eigenclass (.object o) =
          s.materialize (.object o) (s.instanceModule (s.classOf o)) := by
        simp only [eigenclass, hm]
      rw [hmake, eigenclass_materialize hs halive hm rfl, if_neg]
      exact fun h => hr (List.mem_singleton.2 h)
    | module b =>
      have hmake : s.eigenclass (.module b) = s.materialize (.module b) .moduleRoot := by
        simp only [eigenclass, hm]
      rw [hmake, eigenclass_materialize hs halive hm rfl, if_neg]
      exact fun h => hr (List.mem_singleton.2 h)

theorem gathers_eigenclass (hl : s.graph.Live owner) {a : Receiver}
    (ha : s.Alive a ∨ ∃ m, s.eigenclass? a = some m) (hon : ∀ r ∈ s.lineage a, on r) :
    Gathers owner on [] s (s.eigenclass a).2 := by
  have hall : Gathers owner (fun _ => True) [] s (s.eigenclass a).2 := by
    refine ((eigenclass_becomes hs ha).1.invariant
      (I := Gathers owner (fun _ => True) [] s) hs ((Unedited.refl s).gathers hs) ?_).2
    intro s₁ e hs₁ he hsafe h
    cases e with
    | materialize r p => exact h.trans (gathers_materialize hs₁ hsafe.1 hsafe.2.1 hsafe.2.2) hl
    | _ => exact he.elim
  refine { hall with made := fun r e hr he => ⟨hon r ?_, (hall.made r e hr he).2⟩ }
  by_contra hout
  rw [eigenclass_of_not_mem_lineage hs ha hout, hr] at he
  cases he

end Make

end Image

end Mixin
