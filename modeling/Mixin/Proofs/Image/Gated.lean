import Mixin.Proofs.Image.Moored
import Mixin.Proofs.Run.Keeps

/-! The names that the gate knows. The gate's own table is a copy of the list of watched names, with a
stub for each and nothing else, and whatever modules define under a name of their own is watched as
well, but for reserved names and the kernel's first methods. In the middle of a definition that fails
for the name just defined. -/

namespace Mixin

theorem Gate.admits_iff {g : Gate} {n : Symbol} :
    g.admits n = true ↔ n ∉ g.reserved ∧ n ∉ g.watched := by
  simp [admits, isReserved, isWatched]

def Native.names : List Symbol := Native.all.map Prod.fst

namespace Graph

variable {g g' g'' : Graph} {m a : ModuleId} {n : Symbol}

theorem mem_methods_setMethod {owner : ModuleId} {name : Symbol} {x : Method}
    (h : n ∈ ((g.setMethod owner name x).node a).methods) :
    n ∈ (g.node a).methods ∨ a = owner ∧ n = name := by
  by_cases ha : a = owner
  · subst ha
    by_cases hlt : a.index < g.nodes.size
    · have hnode : (g.setMethod a name x).node a = _ := node_update_self g _ hlt
      rw [hnode, Std.ExtTreeMap.mem_insert] at h
      refine h.symm.imp_right fun he => ⟨rfl, ?_⟩
      exact (Std.LawfulEqCmp.eq_of_compare he).symm
    · rw [setMethod, node_bump, node_of_size_le _ (by simpa using Nat.le_of_not_lt hlt)] at h
      exact absurd h Std.ExtTreeMap.not_mem_empty
  · have hnode : (g.setMethod owner name x).node a = g.node a := node_update_of_ne g _ (Ne.symm ha)
    exact .inl (hnode ▸ h)

theorem mem_setMethod_of_mem {owner : ModuleId} (name : Symbol) (x : Method)
    (h : n ∈ (g.node a).methods) : n ∈ ((g.setMethod owner name x).node a).methods := by
  refine update_rel (R := fun b b' => n ∈ b.methods → n ∈ b'.methods) (fun _ hb => hb) ?_ h
  exact fun b hb => Std.ExtTreeMap.mem_insert.2 (.inr hb)

/-- No module gets a method, and the gate and the kernel keep theirs. -/
structure Unwritten (g g' : Graph) : Prop where
  gate : (g'.node .gate).methods = (g.node .gate).methods
  kernel : (g'.node .kernel).methods = (g.node .kernel).methods
  mem : ∀ a n, n ∈ (g'.node a).methods → n ∈ (g.node a).methods

namespace Unwritten

theorem of_same (h : ∀ a, (g'.node a).methods = (g.node a).methods) : Unwritten g g' :=
  ⟨h _, h _, fun a n hn => by rwa [h] at hn⟩

theorem refl (g : Graph) : Unwritten g g := of_same fun _ => rfl

theorem trans (h : Unwritten g g') (h' : Unwritten g' g'') : Unwritten g g'' :=
  ⟨h'.gate.trans h.gate, h'.kernel.trans h.kernel, fun a n hn => h.mem a n (h'.mem a n hn)⟩

theorem update {f : Node → Node} (hf : ∀ n, (f n).methods = n.methods) :
    Unwritten g (g.update m f) :=
  of_same fun _ => update_rel (R := fun b b' => b'.methods = b.methods) (fun _ => rfl) hf

theorem addEdge (owner other : ModuleId) : Unwritten g (g.addEdge owner other) := by
  have hin : Unwritten g (g.update owner (Node.addIncluded other)) := update fun _ => rfl
  have hdep : Unwritten (g.update owner (Node.addIncluded other)) (g.addEdge owner other) := by
    have h : Unwritten (g.update owner (Node.addIncluded other)) ((g.update owner
        (Node.addIncluded other)).update other (Node.addDependent owner)) := update fun _ => rfl
    exact ⟨h.gate, h.kernel, h.mem⟩
  exact hin.trans hdep

theorem alloc (hg : g.Moored) {n : Node} (hn : n.methods = ∅) : Unwritten g (g.alloc n).2 := by
  have hne : ∀ a, g.Live a → a ≠ (g.alloc n).1 := fun a ha he => g.alloc_fresh n (he ▸ ha)
  refine ⟨?_, ?_, fun a name hname => ?_⟩
  · rw [hg.roomy.node_alloc, if_neg (hne _ hg.live_gate)]
  · rw [hg.roomy.node_alloc, if_neg (hne _ hg.live_kernel)]
  · rw [hg.roomy.node_alloc] at hname
    split at hname
    · rw [hn] at hname
      exact absurd hname Std.ExtTreeMap.not_mem_empty
    · exact hname

theorem remove (hg : g.Moored) (hm : g.Live m) (hp : g.Personal m) : Unwritten g (g.remove m).2 := by
  have hsame : ∀ a, a ≠ m → ((g.remove m).2.node a).methods = (g.node a).methods := fun a ha =>
    remove_rel (R := fun b b' => b'.methods = b.methods) (fun _ => rfl)
      (fun _ _ _ h h' => h'.trans h) (fun _ => rfl) (fun _ => rfl) ha
  have hne : ∀ a, (g.node a).target = none → a ≠ m := fun a ht he =>
    not_personal_of_target ht (he ▸ hp)
  refine ⟨hsame _ (hne _ hg.target_gate), hsame _ (hne _ hg.target_kernel), fun a n hn => ?_⟩
  by_cases ha : a = m
  · rw [ha, node_remove_self hm.1] at hn
    exact absurd hn Std.ExtTreeMap.not_mem_empty
  · rwa [hsame a ha] at hn

end Unwritten

end Graph

namespace Image

variable {s s' : Image} {X : Symbol → Prop}

structure GatedBut (X : Symbol → Prop) (s : Image) : Prop where
  methodMissing : .methodMissing ∈ s.gate.reserved
  initializer : .initializer ∈ s.gate.reserved
  apart : ∀ n ∈ s.gate.watched, n ∉ s.gate.reserved
  stubs : ∀ n, (s.graph.node .gate).methods[n]? =
    if n ∈ s.gate.watched then some (.stub n) else none
  known : ∀ a n, n ∈ (s.graph.node a).methods → ¬ X n →
    n ∈ s.gate.watched ∨ n ∈ s.gate.reserved ∨ a = .kernel ∧ n ∈ Native.names
  natives : ∀ n ∈ Native.names, n ∈ (s.graph.node .kernel).methods

def Gated (s : Image) : Prop := s.GatedBut fun _ => False

namespace GatedBut

variable (h : s.GatedBut X)
include h

theorem unwritten (hgate : s'.gate = s.gate) (hw : Graph.Unwritten s.graph s'.graph) :
    s'.GatedBut X where
  methodMissing := hgate ▸ h.methodMissing
  initializer := hgate ▸ h.initializer
  apart := hgate ▸ h.apart
  stubs n := by rw [hw.gate, hgate]; exact h.stubs n
  known a n hn := by rw [hgate]; exact h.known a n (hw.mem a n hn)
  natives n hn := by rw [hw.kernel]; exact h.natives n hn

theorem twin (ht : Twin s s') : s'.GatedBut X :=
  h.unwritten ht.gate (ht.graph ▸ .refl _)

/-- Until the defined name is watched the gate need not know of it. -/
theorem setMethod {owner : ModuleId} (howner : owner ≠ .gate) (name : Symbol) (x : Method) :
    ({ s with graph := s.graph.setMethod owner name x } : Image).GatedBut
      fun n => X n ∨ n = name where
  methodMissing := h.methodMissing
  initializer := h.initializer
  apart := h.apart
  stubs n := by
    have hnode : (s.graph.setMethod owner name x).node .gate = s.graph.node .gate :=
      Graph.node_update_of_ne _ _ howner
    rw [hnode]
    exact h.stubs n
  known a n hn hx := by
    rcases Graph.mem_methods_setMethod hn with hn | ⟨-, he⟩
    · exact h.known a n hn fun hX => hx (.inl hX)
    · exact absurd (.inr he) hx
  natives n hn := Graph.mem_setMethod_of_mem name x (h.natives n hn)

end GatedBut

theorem GatedBut.watch {name : Symbol} (h : s.GatedBut fun n => X n ∨ n = name)
    (hlive : s.graph.Live .gate) : (s.watch name).GatedBut X := by
  unfold Image.watch
  cases hadmits : s.gate.admits name with
  | false =>
    have hknown : name ∈ s.gate.watched ∨ name ∈ s.gate.reserved := by
      by_contra hnew
      rw [not_or] at hnew
      exact Bool.false_ne_true (hadmits.symm.trans (Gate.admits_iff.2 hnew.symm))
    refine { h with known := fun a n hn hx => ?_ }
    by_cases he : n = name
    · rw [he]
      exact hknown.imp_right .inl
    · exact h.known a n hn fun hX => hX.elim hx he
  | true =>
    have hnew := Gate.admits_iff.1 hadmits
    refine ⟨h.methodMissing, h.initializer, fun n hn => ?_, fun n => ?_, fun a n hn hx => ?_,
      fun n hn => Graph.mem_setMethod_of_mem name _ (h.natives n hn)⟩
    · rcases List.mem_cons.1 hn with rfl | hn
      · exact hnew.1
      · exact h.apart n hn
    · have hnode := Graph.node_setMethod (a := .gate) name (.stub name) hlive
      rw [if_pos rfl] at hnode
      show ((s.graph.setMethod .gate name (.stub name)).node .gate).methods[n]? = _
      rw [hnode, Std.ExtTreeMap.getElem?_insert, h.stubs n]
      by_cases he : name = n
      · subst he
        simp
      · have hne : compare name n ≠ .eq := fun hc => he (Std.LawfulEqCmp.eq_of_compare hc)
        simp [hne, Ne.symm he]
    · rcases Graph.mem_methods_setMethod hn with hn | ⟨-, rfl⟩
      · by_cases he : n = name
        · exact .inl (he ▸ List.mem_cons_self)
        · exact (h.known a n hn fun hX => hX.elim hx he).imp_left (List.mem_cons_of_mem _)
      · exact .inl List.mem_cons_self

theorem Gated.watch (h : s.Gated) (hlive : s.graph.Live .gate) (name : Symbol) :
    (s.watch name).Gated := by
  have hbut : s.GatedBut fun n => False ∨ n = name :=
    { h with known := fun a n hn _ => h.known a n hn id }
  exact hbut.watch hlive

theorem unwritten_drop (h : s.Moored) (o : ObjectId) :
    Graph.Unwritten s.graph (s.drop o).graph := by
  unfold drop
  dsimp only
  cases he : s.eigenclass? (.object o) with
  | none => exact .refl _
  | some e =>
    have ht := h.target_of_holder (.singleton (.object o)) e he
    exact .remove h.graph (h.graph.anchored e _ ht).live ⟨o, ht⟩

theorem gate_updateSingleton (r : Receiver) (f : Singleton → Singleton) :
    (s.updateSingleton r f).gate = s.gate := by cases r <;> rfl

theorem gate_addEigenclass (r : Receiver) : (s.addEigenclass r).2.gate = s.gate := by
  rw [addEigenclass, gate_updateSingleton]

theorem gate_allocate (c : ClassId) : (s.allocate c).2.gate = s.gate := by
  unfold allocate
  split <;> rfl

theorem gate_release (o : ObjectId) : (s.release o).gate = s.gate := by
  cases hr : (s.objectData o).released with
  | true => rw [release, if_pos hr]
  | false =>
    rw [release_eq hr, (Twin.of_foldl_resolve _ _).gate]
    rfl

theorem chainFor_cases (r : Receiver) (name : Symbol) : (s.chainFor r name).2 = s ∨
    ∃ cached, (s.chainFor r name).2 =
      s.updateSingleton r fun d => { d with chains := d.chains.insert name cached } := by
  unfold chainFor
  dsimp only
  split
  · exact .inl rfl
  · exact .inr ⟨_, rfl⟩

theorem gate_chainFor (r : Receiver) (name : Symbol) : (s.chainFor r name).2.gate = s.gate := by
  rcases chainFor_cases (s := s) r name with h | ⟨cached, h⟩
  · rw [h]
  · rw [h, gate_updateSingleton]

end Image

/-- Callers who leave the gate alone leave it in order. -/
theorem Edit.gated {s : Image} {k : Manners} (hk : k.offGate = true) (hm : s.Moored) {e : Edit}
    (ha : e.Allowed k) (h : s.Gated) : (e.apply s).Gated := by
  have hsame : ∀ {s' : Image}, s'.gate = s.gate → s'.graph = s.graph → s'.Gated := fun hgate hg =>
    h.unwritten hgate (hg ▸ .refl _)
  cases e with
  | intern text => exact hsame rfl rfl
  | addModule name => exact h.unwritten rfl (.alloc hm.graph rfl)
  | define owner name m resolving =>
    have hset := Image.GatedBut.setMethod h (ha.2.1 hk) name m
    have hlive : (s.graph.setMethod owner name m).Live .gate :=
      (Graph.live_setMethod ..).2 hm.graph.live_gate
    exact (hset.watch hlive).twin (.of_define ..)
  | link owner other resolving =>
    have htwin := Image.Twin.of_link s owner other resolving
    exact h.unwritten htwin.gate (htwin.graph ▸ .addEdge owner other)
  | materialize r p =>
    have htwin := Image.Twin.of_link (s.addEigenclass r).2 (s.addEigenclass r).1 p true
    refine h.unwritten (htwin.gate.trans (Image.gate_addEigenclass r)) ?_
    rw [Edit.apply_materialize, htwin.graph, Image.graph_addEigenclass]
    exact (Graph.Unwritten.alloc hm.graph rfl).trans (.addEdge ..)
  | resolve m => exact h.twin (.of_resolve s m)
  | makeClass a above =>
    have htwin := Image.Twin.of_link (s.addClass a above).2 (s.addClass a above).1
      ((s.addClass a above).2.classParent above) true
    refine h.unwritten htwin.gate ?_
    rw [Edit.apply_makeClass, htwin.graph]
    exact (Graph.Unwritten.alloc hm.graph rfl).trans (.addEdge ..)
  | allocate c => exact hsame (Image.gate_allocate c) (s.allocate_rest c).1
  | release o =>
    cases hr : (s.objectData o).released with
    | true => exact hsame (Image.gate_release o) (congrArg Image.graph (if_pos hr))
    | false =>
      refine h.unwritten (Image.gate_release o) ?_
      rw [Edit.apply, Image.release_eq hr, (Image.Twin.of_foldl_resolve _ _).graph]
      exact Image.unwritten_drop hm o
  | store o name v => exact hsame rfl rfl
  | watchNow name => exact (h.watch hm.graph.live_gate name).twin (.of_watchNow s name)
  | remember r name => exact hsame (Image.gate_chainFor r name) (Image.graph_chainFor r name)
  | setDescribing rs => exact hsame rfl rfl
  | setHooks m f => exact h.unwritten rfl (.update fun _ => rfl)
  | observe o => exact hsame rfl rfl

namespace Image

variable {s : Image}

theorem Seeded.gated (h : s.Seeded) (hwatched : s.gate.watched = [])
    (hmissing : .methodMissing ∈ s.gate.reserved) (hinit : .initializer ∈ s.gate.reserved) :
    s.Gated := by
  obtain ⟨a, b, c, hg⟩ := h.graph
  have hnames : ∀ n, n ∈ Graph.natives ↔ n ∈ Native.names := fun n => by
    simp only [Graph.natives, Native.names, Native.all, List.foldl_cons, List.foldl_nil,
      List.map_cons, List.map_nil, Std.ExtTreeMap.mem_insert, Std.ExtTreeMap.not_mem_empty,
      Std.LawfulEqOrd.compare_eq_iff_eq, List.mem_cons, List.not_mem_nil]
    grind
  have hframe : ∀ m, ((Graph.frame a b c).node m).methods = ∅ := by
    rintro ⟨_ | _ | _ | _ | i⟩ <;> rfl
  have hmethods : ∀ m, (s.graph.node m).methods = if m = .kernel then Graph.natives else ∅ := by
    intro m
    rw [hg, Graph.node_seed]
    split
    · rfl
    · exact hframe m
  refine ⟨hmissing, hinit, ?_, fun n => ?_, fun m n hn _ => ?_, fun n hn => ?_⟩
  · simp [hwatched]
  · rw [hmethods, if_neg (by decide), hwatched]
    simp
  · rw [hmethods] at hn
    split at hn
    · rename_i hm
      exact .inr (.inr ⟨hm, (hnames n).1 hn⟩)
    · exact absurd hn Std.ExtTreeMap.not_mem_empty
  · rw [hmethods, if_pos rfl]
    exact (hnames n).2 hn

theorem Gated.foldl_watch (h : s.Gated) (hm : s.Moored) (names : List Symbol) :
    (names.foldl Image.watch s).Gated := by
  induction names generalizing s with
  | nil => exact h
  | cons n names ih => exact ih (h.watch hm.graph.live_gate n) ((Steady.watch n).moored hm)

end Image

namespace Image

variable {s s' s'' : Image}

/-- Names go on being watched, the reserved names stay as they are, and classes and objects keep
their places. -/
structure Later (s s' : Image) : Prop where
  watched : s.gate.watched ⊆ s'.gate.watched
  reserved : s'.gate.reserved = s.gate.reserved
  classes : s.classes.size ≤ s'.classes.size
  objects : s.objects.size ≤ s'.objects.size

namespace Later

theorem refl (s : Image) : Later s s :=
  ⟨List.Subset.refl _, rfl, Nat.le_refl _, Nat.le_refl _⟩

theorem trans (h : Later s s') (h' : Later s' s'') : Later s s'' where
  watched := List.Subset.trans h.watched h'.watched
  reserved := h'.reserved.trans h.reserved
  classes := Nat.le_trans h.classes h'.classes
  objects := Nat.le_trans h.objects h'.objects

theorem hasRecord (h : Later s s') {r : Receiver} (hr : s.HasRecord r) : s'.HasRecord r :=
  hr.grown h.classes h.objects

theorem of_gate (hg : s'.gate = s.gate) (hc : s.classes.size ≤ s'.classes.size)
    (ho : s.objects.size ≤ s'.objects.size) : Later s s' :=
  ⟨fun _ hn => hg ▸ hn, by rw [hg], hc, ho⟩

theorem of_twin (h : Twin s s') : Later s s' := of_gate h.gate h.classes.ge h.objects.ge

theorem watch (name : Symbol) : Later s (s.watch name) := by
  unfold Image.watch
  split
  · exact ⟨List.subset_cons_self _ _, rfl, Nat.le_refl _, Nat.le_refl _⟩
  · exact refl s

theorem link (owner other : ModuleId) (resolving : Bool) :
    Later s (s.link owner other resolving) := by
  have hedge : Later s { s with graph := s.graph.addEdge owner other } :=
    of_gate rfl (Nat.le_refl _) (Nat.le_refl _)
  exact hedge.trans (of_twin (Twin.of_link s owner other resolving))

end Later

end Image

theorem Edit.later (s : Image) (e : Edit) : Image.Later s (e.apply s) := by
  have hsame : ∀ {s' : Image}, s'.gate = s.gate → s'.classes = s.classes →
      s'.objects = s.objects → Image.Later s s' := fun hg hc ho =>
    .of_gate hg (by rw [hc]) (by rw [ho])
  cases e with
  | define owner name m resolving =>
    have hset : Image.Later s { s with graph := s.graph.setMethod owner name m } := hsame rfl rfl rfl
    exact (hset.trans (.watch name)).trans (.of_twin (.of_define ..))
  | link owner other resolving => exact .link owner other resolving
  | materialize r p =>
    have hadd : Image.Later s (s.addEigenclass r).2 :=
      .of_gate (Image.gate_addEigenclass r) (Image.size_classes_addEigenclass r).ge
        (Image.size_objects_addEigenclass r).ge
    rw [apply_materialize]
    exact hadd.trans (.link (s.addEigenclass r).1 p true)
  | resolve m => exact .of_twin (.of_resolve s m)
  | makeClass a above =>
    have hadd : Image.Later s (s.addClass a above).2 := by
      refine .of_gate rfl ?_ (Nat.le_refl _)
      show s.classes.size ≤ (s.classes.push _).size
      rw [Array.size_push]
      exact Nat.le_succ _
    rw [apply_makeClass]
    exact hadd.trans (.link (s.addClass a above).1 ((s.addClass a above).2.classParent above) true)
  | allocate c =>
    refine .of_gate (Image.gate_allocate c) ?_ (Image.size_le_allocate c)
    exact Nat.le_of_eq (congrArg Array.size (s.allocate_rest c).2.1).symm
  | release o =>
    cases hr : (s.objectData o).released with
    | true =>
      have hrelease : s.release o = s := if_pos hr
      rw [Edit.apply, hrelease]
      exact .refl s
    | false =>
      have hdrop : Image.Later s (s.drop o) :=
        .of_gate rfl (Nat.le_refl _) (Nat.le_of_eq (Array.size_modify ..).symm)
      rw [Edit.apply, Image.release_eq hr]
      exact hdrop.trans (.of_twin (.of_foldl_resolve _ _))
  | store o name v => exact .of_gate rfl (Nat.le_refl _) (Nat.le_of_eq (Array.size_modify ..).symm)
  | watchNow name => exact (Image.Later.watch name).trans (.of_twin (.of_watchNow s name))
  | remember r name =>
    have hsteady : Image.Steady s (s.chainFor r name).2 := .chainFor r name
    exact .of_gate (Image.gate_chainFor r name) hsteady.classes.ge hsteady.objects.ge
  | intern | addModule | setDescribing | setHooks | observe => exact hsame rfl rfl rfl

end Mixin
