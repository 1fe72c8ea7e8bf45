import Mixin.Proofs.Image.Becomes
import Mixin.Proofs.Image.Effective

/-! Cached chains. An edit that can change what a receiver looks up is counted by the graph, so a
chain that was cached at the present count is the chain of the present graph. -/

namespace Mixin

namespace Image

variable {s s' s'' : Image}

/-- The chain of a name for a receiver, by the graph as it is. -/
def lookup (s : Image) (r : Receiver) (name : Symbol) : List Method :=
  s.graph.chain (s.effectiveModule r) name

/-- What the receiver has cached for a name. -/
def cached? (s : Image) (r : Receiver) (name : Symbol) : Option CachedChain :=
  (s.singleton r).chains[name]?

/-- No edit is counted, and receivers look up what they looked up before. -/
structure Quiet (s s' : Image) : Prop where
  edits : s'.graph.edits = s.graph.edits
  lookup : ∀ r, s.Known r → s'.Known r → ∀ name, s'.lookup r name = s.lookup r name

namespace Quiet

theorem of_akin (h : Akin s s') (hedits : s'.graph.edits = s.graph.edits)
    (hin : ∀ m, (s'.graph.node m).included = (s.graph.node m).included)
    (hm : ∀ m, (s'.graph.node m).methods = (s.graph.node m).methods)
    (hh : ∀ m, (s'.graph.node m).hidden = (s.graph.node m).hidden) : Quiet s s' where
  edits := hedits
  lookup r _ _ name := by
    unfold Image.lookup
    rw [h.effectiveModule, Graph.chain_congr (fun x _ => hin x) (fun x _ _ => hm x) fun x _ => hh x]

theorem of_graph (h : Akin s s') (hgraph : s'.graph = s.graph) : Quiet s s' :=
  of_akin h (by rw [hgraph]) (fun _ => by rw [hgraph]) (fun _ => by rw [hgraph])
    fun _ => by rw [hgraph]

end Quiet

section Edits

theorem edits_watch (name : Symbol) : s.graph.edits ≤ (s.watch name).graph.edits := by
  unfold watch
  split
  · exact Nat.le_succ _
  · exact Nat.le_refl _

theorem edits_define (owner : ModuleId) (name : Symbol) (m : Method) (resolving : Bool) :
    s.graph.edits < (s.define owner name m resolving).graph.edits := by
  have hwatch := edits_watch (s := { s with graph := s.graph.setMethod owner name m }) name
  rw [graph_define]
  exact Nat.lt_of_lt_of_le (Nat.lt_succ_self _) hwatch

theorem edits_link (owner other : ModuleId) (resolving : Bool) :
    (s.link owner other resolving).graph.edits = s.graph.edits + 1 := by
  rw [graph_link]
  rfl

theorem edits_alloc (g : Graph) (n : Node) : (g.alloc n).2.edits = g.edits := by
  unfold Graph.alloc
  split <;> rfl

end Edits

section Quiet

variable (hs : s.Sound)
include hs

theorem quiet_addModule (a : Symbol) :
    Quiet s { s with graph := (s.graph.alloc { name := some a }).2 } where
  edits := edits_alloc _ _
  lookup r hr _ name := by
    have heff : ({ s with graph := (s.graph.alloc { name := some a }).2 } : Image).effectiveModule r =
        s.effectiveModule r := by
      refine effectiveModule_of_records ?_ ?_ ?_ r <;> rfl
    have hnode : ∀ x, s.graph.Reaches (s.effectiveModule r) x →
        (s.graph.alloc { name := some a }).2.node x = s.graph.node x := fun x hx =>
      hs.graph.node_alloc_of_live (hs.graph.live_of_reaches (hs.live_effectiveModule hr) hx)
    unfold lookup
    rw [heff]
    exact Graph.chain_congr (fun x hx => by rw [hnode x hx]) (fun x hx _ => by rw [hnode x hx])
      fun x hx => by rw [hnode x hx]

theorem quiet_allocate (c : ClassId) : Quiet s (s.allocate c).2 where
  edits := by rw [(s.allocate_rest c).1]
  lookup r hr _ name := by
    obtain ⟨hg, hc, -⟩ := s.allocate_rest c
    unfold lookup
    rw [hg, effectiveModule_congr (eigenclass_allocate hs c) ?_ ?_ (by rw [hc]) ?_]
    · intro a
      rw [instanceModule, classData, hc]
      rfl
    · intro a
      rw [superclass, classData, hc]
      rfl
    · intro o ho
      have hne : o ≠ (s.allocate c).1 := fun h => allocate_fresh hs c (h ▸ hr o ho)
      rw [classOf, objectData_allocate hs, if_neg hne]
      rfl

omit hs in
theorem quiet_drop {o : ObjectId} (ho : s.LiveObject o) (hn : s.eigenclass? (.object o) = none) :
    Quiet s (s.drop o) := by
  have hg : (s.drop o).graph = s.graph := by
    unfold drop
    rw [hn]
  have he : ∀ r, (s.drop o).eigenclass? r = s.eigenclass? r := by
    intro r
    rw [eigenclass_drop ho.1]
    split
    · rename_i hr
      rw [hr, hn]
    · rfl
  refine ⟨by rw [hg], fun r hr hr' name => ?_⟩
  unfold lookup
  have hsame : (s.drop o).effectiveModule r = s.effectiveModule r := by
    refine effectiveModule_congr he (fun _ => rfl) (fun _ => rfl) rfl fun a _ => ?_
    rw [classOf, objectData_drop ho.1]
    split <;> rfl
  rw [hg, hsame]

end Quiet

end Image

theorem Edit.counted_or_quiet {s : Image} (hs : s.Sound) {e : Edit} (h : e.Safe s) :
    s.graph.edits < (e.apply s).graph.edits ∨ Image.Quiet s (e.apply s) := by
  cases e with
  | addModule name => exact Or.inr (Image.quiet_addModule hs name)
  | define owner name m resolving => exact Or.inl (Image.edits_define owner name m resolving)
  | link owner other resolving =>
    refine Or.inl ?_
    show _ < (s.link owner other resolving).graph.edits
    rw [Image.edits_link]
    exact Nat.lt_succ_self _
  | materialize r p =>
    rw [Edit.apply_materialize, Image.edits_link, Image.graph_addEigenclass, Image.edits_alloc]
    exact Or.inl (Nat.lt_succ_self _)
  | makeClass a above =>
    have hedits : (s.addClass a above).2.graph.edits = s.graph.edits := Image.edits_alloc _ _
    rw [Edit.apply_makeClass, Image.edits_link, hedits]
    exact Or.inl (Nat.lt_succ_self _)
  | allocate c => exact Or.inr (Image.quiet_allocate hs c)
  | release o =>
    show _ < (s.release o).graph.edits ∨ Image.Quiet s (s.release o)
    rw [Image.release_eq h.2]
    cases he : s.eigenclass? (.object o) with
    | some m =>
      refine Or.inl ?_
      rw [Image.graph_foldl_resolve]
      unfold Image.drop
      simp only [he, Graph.edits_remove]
      exact Nat.lt_succ_self _
    | none =>
      have hnone : s.orphans o = [] := by
        unfold Image.orphans
        rw [he]
      rw [hnone]
      exact Or.inr (Image.quiet_drop h he)
  | watchNow name =>
    show _ < (s.watchNow name).graph.edits ∨ Image.Quiet s (s.watchNow name)
    unfold Image.watchNow Image.watch
    split
    · refine Or.inl ?_
      rw [Image.graph_resolve]
      exact Nat.lt_succ_self _
    · exact Or.inr (.of_graph (.refl s) rfl)
  | setHooks m f =>
    choose hooks hnode using Image.node_setHooks h f
    have hquiet : Image.Quiet s (s.setHooks m f) := .of_akin (.setHooks h f) rfl
      (fun a => by rw [hnode]) (fun a => by rw [hnode]) fun a => by rw [hnode]
    exact Or.inr hquiet
  | remember r name =>
    exact Or.inr (.of_graph (Edit.akin hs h trivial) (Image.graph_chainFor r name))
  | resolve m => exact Or.inr (.of_graph (Edit.akin hs h trivial) (Image.graph_resolve m))
  | intern | store | setDescribing | observe => exact Or.inr (.of_graph (Edit.akin hs h trivial) rfl)

namespace Image

variable {s s' : Image}

section Cached

theorem cached_of_records (hc : s'.classes = s.classes) (ho : s'.objects = s.objects)
    (hm : s'.moduleSides = s.moduleSides) (r : Receiver) (name : Symbol) :
    s'.cached? r name = s.cached? r name := by
  cases r <;> simp only [cached?, singleton, objectData, classData, hc, ho, hm]

theorem cached_updateSingleton {a : Receiver} (ha : s.HasRecord a) {f : Singleton → Singleton}
    (hf : (f (s.singleton a)).chains = (s.singleton a).chains) (r : Receiver) (name : Symbol) :
    (s.updateSingleton a f).cached? r name = s.cached? r name := by
  unfold cached?
  rw [singleton_updateSingleton f ha]
  split
  · rename_i hr
    rw [hr, hf]
  · rfl

theorem cached_resolveOne (hs : s.Sound) (m : ModuleId) (r : Receiver) (name : Symbol) :
    (s.resolveOne m).cached? r name = s.cached? r name := by
  unfold resolveOne
  split
  · rename_i t ht
    have htable := hs.hasTable ht
    cases t with
    | prototype c =>
      cases r with
      | «class» a =>
        simp only [cached?, singleton, resolveTarget, setTable, classData_updateClass _ htable]
        split <;> rfl
      | object o => rfl
      | module a => rfl
    | singleton a => exact cached_updateSingleton htable rfl r name
    | classBase => exact cached_of_records rfl rfl rfl r name
    | moduleBase => exact cached_of_records rfl rfl rfl r name
  · rfl

theorem cached_resolve (hs : s.Sound) (m : ModuleId) (r : Receiver) (name : Symbol) :
    (s.resolve m).cached? r name = s.cached? r name := by
  unfold resolve
  generalize s.graph.affected m = ms
  induction ms generalizing s with
  | nil => rfl
  | cons a ms ih =>
    rw [List.foldl_cons, ih ((Akin.resolveOne hs a).sound hs), cached_resolveOne hs]

theorem cached_link (hs : s.Sound) {owner other : ModuleId} (hl : s.graph.Live owner)
    (ho : s.graph.Live other) (resolving : Bool) (r : Receiver) (name : Symbol) :
    (s.link owner other resolving).cached? r name = s.cached? r name := by
  have hs₁ := (Akin.link hs hl ho false).sound hs
  unfold link
  dsimp only
  split
  · exact (cached_resolve hs₁ owner r name).trans (cached_of_records rfl rfl rfl r name)
  · exact cached_of_records rfl rfl rfl r name

theorem cached_watch (a : Symbol) (r : Receiver) (name : Symbol) :
    (s.watch a).cached? r name = s.cached? r name := by
  unfold watch
  split
  · exact cached_of_records rfl rfl rfl r name
  · rfl

theorem cached_define (hs : s.Sound) {owner : ModuleId} (hl : s.graph.Live owner) (a : Symbol)
    (m : Method) (resolving : Bool) (r : Receiver) (name : Symbol) :
    (s.define owner a m resolving).cached? r name = s.cached? r name := by
  have hs₁ := (Akin.setMethod hl a m).sound hs
  have hs₂ := (Akin.watch hs₁ a).sound hs₁
  have hwatch : (Image.watch { s with graph := s.graph.setMethod owner a m } a).cached? r name =
      s.cached? r name :=
    (cached_watch a r name).trans (cached_of_records rfl rfl rfl r name)
  unfold define
  dsimp only
  split
  · split
    · rw [cached_resolve (hs₂.resolve owner), cached_resolve hs₂, hwatch]
    · rw [cached_resolve hs₂, hwatch]
  · exact hwatch

theorem cached_foldl_resolve (hs : s.Sound) (ms : List ModuleId) (r : Receiver) (name : Symbol) :
    (ms.foldl resolve s).cached? r name = s.cached? r name := by
  induction ms generalizing s with
  | nil => rfl
  | cons m ms ih => rw [List.foldl_cons, ih (hs.resolve m), cached_resolve hs]

theorem cached_of_blank {r : Receiver} (h : s.singleton r = {}) (name : Symbol) :
    s.cached? r name = none := by
  rw [cached?, h]
  exact Std.ExtTreeMap.getElem?_empty

theorem cached_addEigenclass {a : Receiver} (ha : s.Alive a) (r : Receiver) (name : Symbol) :
    (s.addEigenclass a).2.cached? r name = s.cached? r name := by
  unfold cached?
  rw [singleton_addEigenclass ha.hasRecord]
  split <;> rfl

theorem cached_addClass (a : Symbol) (above : Option ClassId) (r : Receiver) (name : Symbol) :
    (s.addClass a above).2.cached? r name = s.cached? r name := by
  cases r with
  | «class» c =>
    by_cases hc : c = ⟨s.classes.size⟩
    · have hnew : s.singleton (.class c) = {} :=
        singleton_of_not_hasRecord fun hlt => Nat.lt_irrefl _ (hc ▸ hlt : _ < _)
      rw [cached_of_blank hnew, cached_of_blank]
      rw [singleton, classData_addClass, if_pos hc]
    · simp only [cached?, singleton, classData_addClass, if_neg hc]
  | object o => rfl
  | module m => rfl

theorem cached_allocate (hs : s.Sound) (c : ClassId) {r : Receiver} {name : Symbol}
    {x : CachedChain} (h : (s.allocate c).2.cached? r name = some x) :
    s.cached? r name = some x := by
  unfold cached? at h ⊢
  rw [singleton_allocate hs] at h
  split at h
  · simp at h
  · exact h

theorem cached_release (hs : s.Sound) {o : ObjectId} (ho : s.LiveObject o) {r : Receiver}
    {name : Symbol} {x : CachedChain} (h : (s.release o).cached? r name = some x) :
    s.cached? r name = some x := by
  rw [release_eq ho.2, cached_foldl_resolve (hs.drop ho), cached?, singleton_drop ho.1] at h
  split at h
  · simp at h
  · exact h

theorem cached_store {o : ObjectId} (ho : s.LiveObject o) {f : ObjectData → ObjectData}
    (hf : ∀ d, (f d).singleton = d.singleton) (r : Receiver) (name : Symbol) :
    (s.updateObject o f).cached? r name = s.cached? r name := by
  cases r with
  | object a =>
    simp only [cached?, singleton, objectData_updateObject f ho.1]
    split <;> simp [hf]
  | «class» c => rfl
  | module m => rfl

theorem cached_chainFor {a : Receiver} (ha : s.Alive a) (n : Symbol) {r : Receiver} {name : Symbol}
    {x : CachedChain} (h : (s.chainFor a n).2.cached? r name = some x) :
    s.cached? r name = some x ∨
      (s.chainFor a n).2.graph = s.graph ∧ r = a ∧ name = n ∧
        x = { generation := s.graph.generation, callees := s.lookup a n } := by
  unfold chainFor at h ⊢
  dsimp only at h ⊢
  split
  · rename_i hcached
    rw [hcached] at h
    exact Or.inl h
  · rename_i hcached
    rw [hcached] at h
    simp only [cached?] at h
    rw [singleton_updateSingleton _ ha.hasRecord] at h
    split at h
    · rename_i hr
      rw [Std.ExtTreeMap.getElem?_insert] at h
      split at h
      · rename_i hn
        have hn' := Std.LawfulEqCmp.eq_of_compare hn
        refine Or.inr ⟨graph_updateSingleton _ _, hr, hn'.symm, ?_⟩
        exact (Option.some.inj h).symm
      · exact Or.inl (hr ▸ h)
    · exact Or.inl h

end Cached

end Image

/-- What is cached after an edit was cached before it, or is the present chain cached just now. -/
theorem Edit.cached {s : Image} (hs : s.Sound) {e : Edit} (h : e.Safe s) {r : Receiver}
    {name : Symbol} {c : CachedChain} (hc : (e.apply s).cached? r name = some c) :
    s.cached? r name = some c ∨
      c = { generation := (e.apply s).graph.generation, callees := (e.apply s).lookup r name } := by
  cases e with
  | addModule a => exact Or.inl ((Image.cached_of_records rfl rfl rfl r name).symm.trans hc)
  | define owner a m resolving =>
    exact Or.inl ((Image.cached_define hs h a m resolving r name).symm.trans hc)
  | link owner other resolving =>
    exact Or.inl ((Image.cached_link hs h.1 h.2 resolving r name).symm.trans hc)
  | materialize a p =>
    obtain ⟨ha, hn, hp⟩ := h
    have hlive := hs.live_parent ha hp
    have hs₁ := hs.addEigenclass ha hn
    rw [Edit.apply_materialize, Image.cached_link hs₁, Image.cached_addEigenclass ha] at hc
    · exact Or.inl hc
    · exact (hs.live_addEigenclass a _).2 (Or.inl rfl)
    · exact (hs.live_addEigenclass a p).2 (Or.inr hlive)
  | resolve m => exact Or.inl ((Image.cached_resolve hs m r name).symm.trans hc)
  | makeClass a above =>
    have hs₁ := hs.addClass a h
    rw [Edit.apply_makeClass, Image.cached_link hs₁, Image.cached_addClass] at hc
    · exact Or.inl hc
    · exact hs.graph.live_alloc.2 (Or.inl rfl)
    · have hper : Image.Persists (fun _ => True) s (s.addClass a above).2 :=
        Image.persists_addClass hs a above
      exact hs₁.live_classParent fun c hc => hper.liveClass c (h c hc)
  | allocate c => exact Or.inl (Image.cached_allocate hs c hc)
  | release o => exact Or.inl (Image.cached_release hs h hc)
  | store o a v =>
    have hstore := Image.cached_store h
      (f := fun d => { d with fields := d.fields.insert a v }) (fun _ => rfl) r name
    exact Or.inl (hstore.symm.trans hc)
  | watchNow a =>
    have hs₁ := (Image.Akin.watch hs a).sound hs
    refine Or.inl ?_
    change (s.watchNow a).cached? r name = _ at hc
    unfold Image.watchNow at hc
    split at hc
    · rw [Image.cached_resolve hs₁, Image.cached_watch] at hc
      exact hc
    · exact hc
  | remember a n =>
    rcases Image.cached_chainFor h n hc with hold | ⟨hg, rfl, rfl, rfl⟩
    · exact Or.inl hold
    · have hlookup : (s.chainFor r name).2.lookup r name = s.lookup r name := by
        rw [Image.lookup, hg, (Image.Akin.chainFor h name).effectiveModule]
        rfl
      refine Or.inr ?_
      show _ = CachedChain.mk (s.chainFor r name).2.graph.generation
        ((s.chainFor r name).2.lookup r name)
      rw [hlookup, hg]
  | intern | setDescribing | setHooks | observe =>
    exact Or.inl ((Image.cached_of_records rfl rfl rfl r name).symm.trans hc)

namespace Image

variable {s : Image} {base : Nat}

theorem known_of_cached (hs : s.Sound) {r : Receiver} {name : Symbol} {c : CachedChain}
    (hc : s.cached? r name = some c) : s.Known r := by
  rintro o rfl
  constructor
  · by_contra hlt
    rw [cached_of_blank (singleton_of_not_hasRecord (r := .object o) hlt)] at hc
    cases hc
  · by_contra hr
    rw [Bool.not_eq_false] at hr
    rw [cached_of_blank (r := .object o) (hs.released o hr)] at hc
    cases hc

/-- Each cached chain carries the count at which it was cached, counting from `base`; where that is
the present count, the chain is the present one. -/
structure Remembers (base : Nat) (s : Image) : Prop where
  base_le : base ≤ s.graph.edits
  cached : ∀ r name c, s.cached? r name = some c → ∃ e, base ≤ e ∧ e ≤ s.graph.edits ∧
    c.generation = .ofNat e ∧ (e = s.graph.edits → c.callees = s.lookup r name)

/-- Counts that are less than a full turn apart are told apart by their generation. -/
theorem generation_inj {a b : Nat} (ha : base ≤ a) (hab : a ≤ b) (hb : b < base + 2 ^ 64)
    (h : UInt64.ofNat a = UInt64.ofNat b) : a = b := by
  have hmod : a % 2 ^ 64 = b % 2 ^ 64 := by
    have := congrArg UInt64.toNat h
    simpa using this
  omega

/-- A look-up through the cache gives the present chain. -/
theorem Remembers.chainFor_fresh (h : s.Remembers base) (hb : s.graph.edits < base + 2 ^ 64)
    (r : Receiver) (name : Symbol) : (s.chainFor r name).1 = s.lookup r name := by
  unfold chainFor
  dsimp only
  split
  · rename_i c hc
    obtain ⟨hc, hgen⟩ := Option.filter_eq_some_iff.1 hc
    obtain ⟨e, hbase, hle, he, hcallees⟩ := h.cached r name c hc
    refine hcallees (generation_inj hbase hle hb ?_)
    rw [← he]
    exact of_decide_eq_true hgen
  · rfl

end Image

theorem Edit.edits_le {s : Image} (hs : s.Sound) {e : Edit} (h : e.Safe s) :
    s.graph.edits ≤ (e.apply s).graph.edits := by
  rcases Edit.counted_or_quiet hs h with hlt | hquiet
  · exact Nat.le_of_lt hlt
  · exact Nat.le_of_eq hquiet.edits.symm

theorem Edit.remembers {s : Image} {base : Nat} (hs : s.Sound) {e : Edit} (h : e.Safe s)
    (hr : s.Remembers base) : (e.apply s).Remembers base where
  base_le := Nat.le_trans hr.base_le (Edit.edits_le hs h)
  cached r name c hc := by
    have hle := Edit.edits_le hs h
    rcases Edit.cached hs h hc with hold | rfl
    · obtain ⟨i, hbase, hi, hgen, hcallees⟩ := hr.cached r name c hold
      refine ⟨i, hbase, Nat.le_trans hi hle, hgen, fun hnow => ?_⟩
      rcases Edit.counted_or_quiet hs h with hlt | hquiet
      · omega
      · have hknown := Image.known_of_cached hs hold
        have hknown' := Image.known_of_cached (Edit.sound hs h) hc
        rw [hquiet.lookup r hknown hknown' name]
        exact hcallees (hnow.trans hquiet.edits)
    · exact ⟨_, Nat.le_trans hr.base_le hle, Nat.le_refl _, rfl, fun _ => rfl⟩

end Mixin
