import Mixin.Proofs.Image.Gated
import Mixin.Proofs.Image.Settling
import Mixin.Proofs.Run.Tells

/-! Deferred inclusion. The graph takes a source in at once, while the tables are left as they are: what
goes into the module itself is not resolved. What the source's extension lists lead to is, in the
eigenclass of what the module stands for. So tables of what is composed of that eigenclass can move,
but no others, unless a name comes under watch on the way and every table is resolved. -/

namespace Mixin

/-- Nothing that goes into the module itself is resolved at this place. -/
def Place.Deferred (extending : Bool) : Place → Prop
  | .into _ options => options.resolving = true → extending = true
  | .onto _ => True

namespace Image

variable {s s' s'' : Image} {owner a b m : ModuleId} {r : Receiver}
  {opened known : Prop} {ps qs : List Piece} {extending : Bool}

theorem Later.admits (h : Later s s') {n : Symbol} (hn : s.gate.admits n = false) :
    s'.gate.admits n = false := by
  rw [← Bool.not_eq_true, Gate.admits_iff] at hn ⊢
  rintro ⟨hreserved, hwatched⟩
  exact hn ⟨h.reserved ▸ hreserved, fun hold => hwatched (h.watched hold)⟩

/-- Among the methods that extension lists lead to there is none whose name would come under watch. -/
def Acquainted (s : Image) (ps : List Piece) : Prop :=
  ∀ key x, ⟨true, .entry key x⟩ ∈ ps →
    ∃ n, s.symbols.find? key = some n ∧ s.gate.admits n = false

theorem Acquainted.mono (h : s.Acquainted ps) (hqs : qs ⊆ ps) : s.Acquainted qs :=
  fun key x hp => h key x (hqs hp)

/-- Neither the module nor the receiver's eigenclass is behind what `a` answers through. -/
def Apart (owner : ModuleId) (r : Receiver) (s : Image) (a : Receiver) : Prop :=
  ¬ s.graph.Reaches (s.effectiveModule a) owner ∧
    ∀ e, s.eigenclass? r = some e → ¬ s.graph.Reaches (s.effectiveModule a) e

/-- Ancestries have only grown, and who is apart from the module and the receiver's eigenclass looks up
the same implementations. -/
structure Bypasses (owner : ModuleId) (r : Receiver) (s s' : Image) : Prop where
  reaches : ∀ a m, s.Alive a → s.graph.Reaches (s.effectiveModule a) m →
    s'.graph.Reaches (s'.effectiveModule a) m
  gateHidden : s.graph.GateHidden → s'.graph.GateHidden
  lookup : s.graph.GateHidden → ∀ a, s.Alive a → s'.Apart owner r a →
    ∀ n, s'.lookup a n = s.lookup a n

namespace Bypasses

theorem trans (h : Bypasses owner r s s') (h' : Bypasses owner r s' s'')
    (halive : ∀ a, s.Alive a → s'.Alive a)
    (hkept : ∀ e, s'.eigenclass? r = some e → s''.eigenclass? r = some e) :
    Bypasses owner r s s'' where
  reaches a m ha hm := h'.reaches a m (halive a ha) (h.reaches a m ha hm)
  gateHidden hgate := h'.gateHidden (h.gateHidden hgate)
  lookup hgate a ha hapart n := by
    have hapart' : s'.Apart owner r a :=
      ⟨fun hr => hapart.1 (h'.reaches a owner (halive a ha) hr),
        fun e he hr => hapart.2 e (hkept e he) (h'.reaches a e (halive a ha) hr)⟩
    rw [h'.lookup (h.gateHidden hgate) a (halive a ha) hapart n, h.lookup hgate a ha hapart' n]

theorem of_confined (h : Confined b s s') (hb : b = owner ∨ s.eigenclass? r = some b) :
    Bypasses owner r s s' where
  reaches a m _ hm := by
    rw [h.akin.effectiveModule]
    exact Relation.ReflTransGen.mono (fun x y hy => h.edges x hy) _ _ hm
  gateHidden hgate m := by
    rw [h.hidden]
    exact hgate m
  lookup hgate a _ hapart n := by
    have hout : ¬ s'.graph.Reaches (s'.effectiveModule a) b := by
      rcases hb with rfl | hb
      · exact hapart.1
      · exact hapart.2 b ((h.akin.eigenclass r).trans hb)
    rw [h.akin.effectiveModule] at hout
    rw [Image.lookup, h.akin.effectiveModule]
    exact h.chain_eq hout hgate n

theorem of_deepens (h : Deepens s s') (hs : s.Sound)
    (hgate : s.graph.GateHidden → s'.graph.GateHidden) : Bypasses owner r s s' where
  reaches a m ha hm := by
    obtain ⟨added, hline, -⟩ := h.deeper a ha
    rw [← Graph.mem_linearize, hline]
    exact List.mem_append_left _ (Graph.mem_linearize.2 hm)
  gateHidden := hgate
  lookup _ a ha _ n := h.lookup_eq hs ha n

end Bypasses

/-- The module has gathered these pieces, and tables are as they were. Where the receiver's eigenclass has
been opened, that is so if the names are known, of the tables that are not composed of it. -/
structure Withholds (owner : ModuleId) (r : Receiver) (opened known : Prop) (ps : List Piece)
    (s s' : Image) : Prop extends Gathers owner (fun _ => True) ps s s' where
  later : Later s s'
  alive : ∀ a, s.Alive a → s'.Alive a
  akin : ¬ opened → Akin s s'
  bypasses : Bypasses owner r s s'
  table : ∀ m t, (s.graph.node m).target = some t →
    (opened → known ∧ ∀ e, s'.eigenclass? r = some e → ¬ s'.graph.Reaches m e) →
      s'.table t = s.table t

theorem Gathers.reaches {on : Receiver → Prop} (h : Gathers owner on ps s s') (hs : s.Sound)
    (ha : s.graph.Live a) (hr : s.graph.Reaches a b) : s'.graph.Reaches a b := by
  induction hr with
  | refl => exact .refl
  | tail hr hb ih =>
    refine ih.tail ?_
    rw [h.included _ (hs.graph.live_of_reaches ha hr)]
    exact List.mem_append_left _ hb

namespace Withholds

theorem acquainted (h : Withholds owner r opened known ps s s') (hqs : s.Acquainted qs) :
    s'.Acquainted qs := fun key x hp => by
  obtain ⟨n, hn, hadmits⟩ := hqs key x hp
  exact ⟨n, h.symbols key n hn, h.later.admits hadmits⟩

theorem refl (hs : s.Sound) : Withholds owner r opened known [] s s :=
  { (Unedited.refl s).gathers hs with
    later := .refl s
    alive := fun _ ha => ha
    akin := fun _ => .refl s
    bypasses := .of_confined (.refl s) (.inl rfl)
    table := fun _ _ _ _ => rfl }

theorem trans (h : Withholds owner r opened known ps s s')
    (h' : Withholds owner r opened known qs s' s'') (hs : s.Sound) (hl : s.graph.Live owner) :
    Withholds owner r opened known (ps ++ qs) s s'' :=
  { h.toGathers.trans h'.toGathers hl with
    later := h.later.trans h'.later
    alive := fun a ha => h'.alive a (h.alive a ha)
    akin := fun hclosed => (h.akin hclosed).trans (h'.akin hclosed)
    bypasses := h.bypasses.trans h'.bypasses h.alive (h'.kept r)
    table := fun m t ht hout => by
      have hlive := hs.graph.live_of_target ht
      rw [h'.table m t ((h.target m hlive).trans ht) hout]
      refine h.table m t ht fun hopened => ⟨(hout hopened).1, fun e he hreach => ?_⟩
      exact (hout hopened).2 e (h'.kept r e he) (h'.reaches h.sound (h.live m hlive) hreach) }

section Plain

variable (hg : Gathers owner (fun _ => True) ps s s') (hconfined : Confined b s s')
  (hb : b = owner ∨ s.eigenclass? r = some b) (hlater : Later s s')
include hg hconfined hb hlater

theorem of_confined (htable : ∀ t, s'.table t = s.table t) : Withholds owner r opened known ps s s' :=
  { hg with
    later := hlater
    alive := fun a ha => (hconfined.akin.alive a).2 ha
    akin := fun _ => hconfined.akin
    bypasses := .of_confined hconfined hb
    table := fun _ t _ _ => htable t }

/-- A resolution of the eigenclass moves no table but those of what is composed of it. -/
theorem of_resolve {s₁ : Image} (hakin₁ : Akin s s₁) (h : known → s₁.resolve b = s') (hs : s.Sound)
    (htable : ∀ t, s₁.table t = s.table t) (hopened : opened) (hown : s.eigenclass? r = some b) :
    Withholds owner r opened known ps s s' :=
  { hg with
    later := hlater
    alive := fun a ha => (hconfined.akin.alive a).2 ha
    akin := fun _ => hconfined.akin
    bypasses := .of_confined hconfined hb
    table := fun m t ht hout => by
      obtain ⟨hknown, hapart⟩ := hout hopened
      obtain rfl := h hknown
      have hs₁ := hakin₁.sound hs
      replace hapart := hapart b ((hconfined.akin.eigenclass r).trans hown)
      rw [graph_resolve] at hapart
      rw [table_resolve_of_target hs₁ ((hakin₁.target m).trans ht),
        if_neg fun hm => hapart (hs₁.graph.mem_affected.1 hm), htable] }

end Plain

end Withholds

theorem Stage.owner_or_eigenclass {ms : List ModuleId} {observers : List ObserverId}
    (hs : s.Stage owner r observers ms) (hb : s.home? owner extending = some b) :
    b = owner ∨ s.eigenclass? r = some b := by
  rw [hs.home_eq] at hb
  cases extending with
  | false => exact .inl (Option.some.inj hb).symm
  | true => exact .inr hb

section Pieces

variable {ms : List ModuleId} {observers : List ObserverId}
  (hs : s.Stage owner r observers ms)
include hs

theorem withholds_intern (text : String) :
    Withholds owner r opened known [] s (s.intern text).2 :=
  have hconfined : Confined owner s (s.intern text).2 :=
    Edit.Within.confined (x := .intern text) hs.sound trivial trivial
  .of_confined ((Unedited.intern s text).gathers hs.sound) hconfined (.inl rfl)
    (Edit.later s (.intern text)) fun _ => rfl

section Home

variable {resolving : Bool} (hb : s.home? owner extending = some b)
  (hresolving : resolving = true → extending = true) (hopened : extending = true → opened)
include hb hresolving hopened

theorem withholds_link (hm : s.graph.Live m) :
    Withholds owner r opened known [⟨extending, .edge m⟩] s (s.link b m resolving) := by
  have hlive := hs.sound.live_home hs.live hb
  have hg : Gathers owner (fun _ => True) [⟨extending, .edge m⟩] s (s.link b m resolving) :=
    gathers_link hs.sound hs.live hb hm resolving
  have hconfined := confined_link hs.sound hlive hm
  cases resolving with
  | false =>
    exact .of_confined hg (hconfined false) (hs.owner_or_eigenclass hb) (.link b m false) fun _ => rfl
  | true =>
    obtain rfl := hresolving rfl
    exact .of_resolve hg (hconfined true) (hs.owner_or_eigenclass hb) (.link b m true)
      (hconfined false).akin (fun _ => (link_eq_resolve b m).symm) hs.sound (fun _ => rfl)
      (hopened rfl) (by rwa [hs.home_eq] at hb)

theorem withholds_define {key : String} {name : Symbol} (hname : s.symbols.find? key = some name)
    (hadmits : extending = true → known → s.gate.admits name = false) (x : Method) :
    Withholds owner r opened known [⟨extending, .entry key x⟩] s (s.define b name x resolving) := by
  have hlive := hs.sound.live_home hs.live hb
  have hg : Gathers owner (fun _ => True) [⟨extending, .entry key x⟩] s
      (s.define b name x resolving) := gathers_define hs.sound hs.live hb hname x resolving
  have hconfined := confined_define hs.sound hlive name x
  have hlater := fun resolving => Edit.later s (.define b name x resolving)
  have htable : ∀ t, (s.define b name x false).table t = s.table t := table_watch name
  cases resolving with
  | false =>
    exact .of_confined hg (hconfined false) (hs.owner_or_eigenclass hb) (hlater false) htable
  | true =>
    obtain rfl := hresolving rfl
    have honce : known → (s.define b name x false).resolve b = s.define b name x true := fun h => by
      simp only [define, hadmits rfl h, if_true, Bool.false_eq_true, if_false]
    exact .of_resolve hg (hconfined true) (hs.owner_or_eigenclass hb) (hlater true)
      (hconfined false).akin honce hs.sound htable (hopened rfl) (by rwa [hs.home_eq] at hb)

end Home

end Pieces

section Make

variable (hs : s.Sound)
include hs

section Materialize

variable {a : Receiver} (ha : s.Alive a) (hn : s.eigenclass? a = none) {p : ModuleId}
  (hp : s.parent? a = some p)
include ha hn hp

theorem not_reaches_materialize (hm : s.graph.Live m) :
    ¬ (s.materialize a p).2.graph.Reaches m (s.addEigenclass a).1 := fun hreach => by
  rw [← Graph.mem_linearize,
    Graph.linearize_of_live hs.graph hm (deepens_materialize hs ha hn hp).included,
    Graph.mem_linearize] at hreach
  exact s.graph.alloc_fresh _ (hs.graph.live_of_reaches hm hreach)

theorem withholds_materialize (hopened : opened) :
    Withholds owner r opened known [] s (s.materialize a p).2 := by
  have hdeepens := deepens_materialize hs ha hn hp
  have hg : Gathers owner (fun _ => True) [] s (s.materialize a p).2 :=
    gathers_materialize hs ha hn hp
  have hlater : Later s (s.materialize a p).2 := Edit.later s (.materialize a p)
  refine { hg with
    later := hlater
    alive := hdeepens.alive
    akin := fun hclosed => absurd hopened hclosed
    bypasses := .of_deepens hdeepens hs fun hgate => gateHidden_materialize hs hgate ha hp
    table := fun m t ht _ => ?_ }
  have hlive := hs.graph.live_of_target ht
  have hapart := not_reaches_materialize hs ha hn hp hlive
  have ht₂ := (hdeepens.target m hlive).trans ht
  have hs₁ := hs.addEigenclass ha hn
  have hs₂ := (Akin.link hs₁ ((hs.live_addEigenclass a _).2 (.inl rfl))
    ((hs.live_addEigenclass a p).2 (.inr (hs.live_parent ha hp))) false).sound hs₁
  have hmake : (s.materialize a p).2 = ((s.addEigenclass a).2.link (s.addEigenclass a).1 p
      false).resolve (s.addEigenclass a).1 := by
    rw [materialize_eq, link_eq_resolve]
  rw [hmake, graph_resolve] at hapart ht₂
  rw [hmake, table_resolve_of_target hs₂ ht₂,
    if_neg fun hm => hapart (hs₂.graph.mem_affected.1 hm)]
  exact table_addEigenclass ha.hasRecord t

end Materialize

theorem withholds_eigenclass (hl : s.graph.Live owner) (hopened : opened) {a : Receiver}
    (ha : s.Alive a ∨ ∃ e, s.eigenclass? a = some e) :
    Withholds owner r opened known [] s (s.eigenclass a).2 := by
  refine ((eigenclass_becomes hs ha).1.invariant (I := Withholds owner r opened known [] s) hs
    (.refl hs) ?_).2
  intro s₁ e hs₁ he hsafe h
  cases e with
  | materialize a p =>
    exact h.trans (withholds_materialize hs₁ hsafe.1 hsafe.2.1 hsafe.2.2 hopened) hs hl
  | _ => exact he.elim

end Make

section Absorb

variable {ms : List ModuleId} {observers : List ObserverId}

theorem withholds_defineAll {resolving : Bool} (hresolving : resolving = true → extending = true)
    (hopened : extending = true → opened) (entries : List (String × Method))
    (hs : s.Stage owner r observers ms) (hb : s.home? owner extending = some b)
    (hnames : known → s.Acquainted (entries.map fun e => ⟨extending, .entry e.1 e.2⟩)) :
    Withholds owner r opened known (entries.map fun e => ⟨extending, .entry e.1 e.2⟩) s
      (s.defineAll b resolving entries) := by
  induction entries generalizing s with
  | nil => exact .refl hs.sound
  | cons entry rest ih =>
    obtain ⟨key, x⟩ := entry
    have h₁ : Withholds owner r opened known [] s (s.intern key).2 := withholds_intern hs key
    have hs₁ := hs.gathers h₁.toGathers
    have hb₁ := (h₁.onward hs.live).home _ b hb
    have hname := find?_intern s key
    have hadmits : extending = true → known →
        (s.intern key).2.gate.admits (s.intern key).1 = false := by
      rintro rfl h
      obtain ⟨n, hn, hadmits⟩ := hnames h key x List.mem_cons_self
      obtain rfl := Option.some.inj ((h₁.symbols key n hn).symm.trans hname)
      exact h₁.later.admits hadmits
    have h₂ := h₁.trans (withholds_define hs₁ hb₁ hresolving hopened hname hadmits x) hs.sound
      hs.live
    refine h₂.trans (ih (hs.gathers h₂.toGathers) ((h₂.onward hs.live).home _ b hb) fun h => ?_)
      hs.sound hs.live
    exact h₂.acquainted ((hnames h).mono (List.subset_cons_self _ _))

theorem withholds_taker (known : Prop) {place : Place} {about : Value}
    (hs : s.Stage owner r observers ms) (hp : place.Leads owner r about extending s)
    (hdeferred : place.Deferred extending) (hopened : extending = true → opened) :
    ∃ b given s₁, s.taker place = ((b, given), s₁) ∧ Withholds owner r opened known [] s s₁ ∧
      s₁.home? owner extending = some b ∧ given.notifyAs.getD r.value = about ∧
      (given.resolving = true → extending = true) := by
  cases place with
  | into b given => exact ⟨b, given, s, rfl, .refl hs.sound, hp.1, hp.2, hdeferred⟩
  | onto a =>
    obtain ⟨rfl, rfl, rfl⟩ := hp
    have h : Withholds owner a opened known [] s (s.eigenclass a).2 :=
      withholds_eigenclass hs.sound hs.live (hopened rfl) hs.able
    have hmade := (eigenclass_becomes hs.sound hs.able).2
    exact ⟨_, _, _, rfl, h, ((hs.gathers h.toGathers).home_eq true).trans hmade, rfl, fun _ => rfl⟩

mutual

/-- However a source is nested, a module takes it in without moving a table, but for those of what is
composed of the eigenclass. -/
theorem withholds_absorb (source : Source) (extending : Bool) (place : Place) {about : Value}
    (s : Image) (hs : s.Stage owner r observers source.modules)
    (hp : place.Leads owner r about extending s) (hdeferred : place.Deferred extending)
    (hopened : extending = true ∨ source.extends? = true → opened)
    (hnames : known → s.Acquainted (source.pieces extending)) :
    Withholds owner r opened known (source.pieces extending) s (s.absorb source place) := by
  obtain ⟨b, given, s₁, htaker, h₁, hb₁, habout, hresolving⟩ :=
    withholds_taker known hs hp hdeferred fun h => hopened (.inl h)
  have hs₁ := hs.gathers h₁.toGathers
  have hnames₁ := fun h => h₁.acquainted (hnames h)
  match source with
  | .module other =>
    have hother := (hs₁.modules other (List.mem_singleton_self _)).1
    unfold absorb
    rw [htaker]
    exact h₁.trans (withholds_link hs₁ hb₁ hresolving (fun h => hopened (.inl h)) hother) hs.sound
      hs.live
  | .record methods mixins extensions =>
    unfold absorb
    rw [htaker]
    rw [Source.pieces] at hnames₁ ⊢
    dsimp only
    have hmixins := withholds_absorbAll mixins extending (.into b given) s₁
      (hs₁.mono (List.subset_append_left _ _)) ⟨hb₁, habout⟩ hresolving
      (fun source hsource h => hopened (h.imp_right (Source.extends_of_mixin hsource)))
      fun h => (hnames₁ h).mono (by simp)
    have hs₂ := hs₁.gathers hmixins.toGathers
    have hb₂ := (hmixins.onward hs₁.live).home _ b hb₁
    have hnames₂ := fun h => hmixins.acquainted (hnames₁ h)
    rw [hs₂.backed_home hb₂]
    have hextensions := withholds_absorbAll extensions true (.onto r) _
      (hs₂.mono (List.subset_append_right _ _)) ⟨rfl, rfl, rfl⟩ trivial
      (fun source hsource _ => hopened (.inr (Source.extends_of_extension hsource)))
      fun h => (hnames₂ h).mono (by simp)
    have hs₃ := hs₂.gathers hextensions.toGathers
    have hmethods := withholds_defineAll hresolving (fun h => hopened (.inl h)) methods hs₃
      ((hextensions.onward hs₂.live).home _ b hb₂)
      fun h => (hextensions.acquainted (hnames₂ h)).mono (List.subset_append_right _ _)
    exact ((h₁.trans hmixins hs.sound hs.live).trans hextensions hs.sound hs.live).trans hmethods
      hs.sound hs.live

theorem withholds_absorbAll (sources : List Source) (extending : Bool) (place : Place)
    {about : Value} (s : Image) (hs : s.Stage owner r observers (Source.modulesAll sources))
    (hp : place.Leads owner r about extending s) (hdeferred : place.Deferred extending)
    (hopened : ∀ source ∈ sources, extending = true ∨ source.extends? = true → opened)
    (hnames : known → s.Acquainted (Source.piecesAll extending sources)) :
    Withholds owner r opened known (Source.piecesAll extending sources) s
      (s.absorbAll sources place) := by
  match sources with
  | [] => exact .refl hs.sound
  | source :: rest =>
    have h₁ := withholds_absorb source extending place s (hs.mono (List.subset_append_left _ _)) hp
      hdeferred (hopened source List.mem_cons_self) fun h =>
        (hnames h).mono (List.subset_append_left _ _)
    have hs₁ := hs.gathers h₁.toGathers
    refine h₁.trans (withholds_absorbAll rest extending place _
      (hs₁.mono (List.subset_append_right _ _)) (hp.onward (h₁.onward hs.live)) hdeferred
      (fun other hother => hopened other (List.mem_cons_of_mem _ hother)) fun h => ?_) hs.sound hs.live
    exact h₁.acquainted ((hnames h).mono (List.subset_append_right _ _))

end

end Absorb

end Image

end Mixin
