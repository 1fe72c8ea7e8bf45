import Mixin.Dispatch
import Mixin.Proofs.Image.Structure

/-! The changes that operations are made of. Whatever an operation does to an image is one of these
edits after another, so what every edit keeps holds in every image there can be. An edit is safe
where the receivers and modules it works on are there. -/

namespace Mixin

namespace Image

variable {s : Image}

/-- The module that the module of a class with this superclass includes. -/
def classParent (s : Image) : Option ClassId → ModuleId
  | some above => s.instanceModule above
  | none => .kernel

/-- The module that an eigenclass includes, once there is all it needs. -/
def parent? (s : Image) : Receiver → Option ModuleId
  | .object o => some (s.instanceModule (s.classOf o))
  | .class c =>
    match s.superclass c with
    | some above => s.eigenclass? (.class above)
    | none => some .classRoot
  | .module _ => some .moduleRoot

theorem node_setHooks {m : ModuleId} (h : s.graph.Live m) (f : Hooks → Hooks) (a : ModuleId) :
    ∃ hooks, (s.setHooks m f).graph.node a = { s.graph.node a with hooks } := by
  have hnode := Graph.node_update (a := a) (fun n => { n with hooks := f n.hooks }) h.1
  split at hnode
  · exact ⟨_, hnode⟩
  · exact ⟨_, hnode⟩

theorem graph_define (owner : ModuleId) (name : Symbol) (m : Method) (resolving : Bool) :
    (s.define owner name m resolving).graph =
      (watch { s with graph := s.graph.setMethod owner name m } name).graph := by
  unfold define
  dsimp only
  split
  · split
    · rw [graph_resolve, graph_resolve]
    · rw [graph_resolve]
  · rfl

theorem graph_link (owner other : ModuleId) (resolving : Bool) :
    (s.link owner other resolving).graph = s.graph.addEdge owner other := by
  unfold link
  dsimp only
  split
  · exact graph_resolve owner
  · rfl

theorem link_eq_resolve (owner other : ModuleId) :
    s.link owner other true = (s.link owner other false).resolve owner := rfl

theorem graph_chainFor (r : Receiver) (name : Symbol) :
    (s.chainFor r name).2.graph = s.graph := by
  unfold chainFor
  dsimp only
  split
  · rfl
  · exact graph_updateSingleton _ _

namespace Akin

theorem setMethod {owner : ModuleId} (h : s.graph.Live owner) (name : Symbol) (m : Method) :
    Akin s { s with graph := s.graph.setMethod owner name m } :=
  of_records (fun hg => hg.setMethod h name m) (fun _ => Graph.live_setMethod name m)
    (fun _ => Graph.target_setMethod name m h) rfl rfl rfl rfl

section Resolving

variable (hs : s.Sound)
include hs

theorem watch (name : Symbol) : Akin s (s.watch name) := by
  unfold Image.watch
  split
  · exact of_records (fun hg => hg.setMethod hs.live_gate name _)
      (fun _ => Graph.live_setMethod name _) (fun _ => Graph.target_setMethod name _ hs.live_gate)
      rfl rfl rfl rfl
  · exact refl s

theorem watchNow (name : Symbol) : Akin s (s.watchNow name) := by
  unfold Image.watchNow
  split
  · have h := watch hs name
    exact h.trans (resolve (h.sound hs) _)
  · exact refl s

theorem define {owner : ModuleId} (h : s.graph.Live owner) (name : Symbol) (m : Method)
    (resolving : Bool) : Akin s (s.define owner name m resolving) := by
  unfold Image.define
  have h₁ := setMethod h name m
  have h₂ := h₁.trans (watch (h₁.sound hs) name)
  have h₃ := h₂.trans (resolve (h₂.sound hs) owner)
  dsimp only
  split
  · split
    · exact h₃.trans (resolve (h₃.sound hs) _)
    · exact h₃
  · exact h₂

theorem link {owner other : ModuleId} (h : s.graph.Live owner) (ho : s.graph.Live other)
    (resolving : Bool) : Akin s (s.link owner other resolving) := by
  unfold Image.link
  have h₁ : Akin s { s with graph := s.graph.addEdge owner other } :=
    of_records (fun hg => hg.addEdge h ho) (fun _ => Graph.live_addEdge)
      (fun _ => Graph.target_addEdge h ho) rfl rfl rfl rfl
  dsimp only
  split
  · exact h₁.trans (resolve (h₁.sound hs) _)
  · exact h₁

end Resolving

theorem setHooks {m : ModuleId} (h : s.graph.Live m) (f : Hooks → Hooks) :
    Akin s (s.setHooks m f) := by
  refine of_records (fun hg => hg.update h (fun _ => rfl) fun _ => rfl)
    (fun a => Graph.live_update _) (fun a => ?_) rfl rfl rfl rfl
  obtain ⟨hooks, hnode⟩ := node_setHooks h f a
  rw [hnode]

theorem chainFor {r : Receiver} (h : s.Alive r) (name : Symbol) : Akin s (s.chainFor r name).2 := by
  unfold Image.chainFor
  dsimp only
  split
  · exact refl s
  · dsimp only
    refine of_updateSingleton ?_ ?_ fun o ho => ?_
    · exact h.hasRecord
    · rfl
    · subst ho
      exact h.2

theorem setField {o : ObjectId} (h : s.LiveObject o) (f : ObjectData → ObjectData)
    (hc : ∀ d, (f d).classId = d.classId) (hr : ∀ d, (f d).released = d.released)
    (hd : ∀ d, (f d).singleton = d.singleton) : Akin s (s.updateObject o f) where
  graph hg := hg
  live _ := Iff.rfl
  target _ := rfl
  eigenclass r := by
    cases r with
    | object a =>
      simp only [eigenclass?, singleton, objectData_updateObject f h.1]
      split <;> simp [hd]
    | «class» c => rfl
    | module m => rfl
  classes := rfl
  instanceModule _ := rfl
  superclass _ := rfl
  objects := Array.size_modify ..
  classOf a := by
    simp only [Image.classOf, objectData_updateObject f h.1]
    split <;> simp [hc]
  released a := by
    rw [objectData_updateObject f h.1]
    split <;> simp [hr]
  blank a _ hb := by
    rw [objectData_updateObject f h.1]
    split <;> simp [hd, hb]
  free := rfl

end Akin

/-- A new class together with the edge to what it descends from. -/
def makeClass (s : Image) (a : Symbol) (superclass : Option ClassId) : Image :=
  let (m, s) := s.addClass a superclass
  s.link m (s.classParent superclass) true

theorem defineClass_eq (name : String) (superclass : Option ClassId) :
    s.defineClass name superclass =
      (⟨s.classes.size⟩, (s.intern name).2.makeClass (s.intern name).1 superclass) := rfl

theorem makeClass_eq (a : Symbol) (superclass : Option ClassId) :
    s.makeClass a superclass = (s.addClass a superclass).2.link (s.addClass a superclass).1
      ((s.addClass a superclass).2.classParent superclass) true := rfl

theorem materialize_eq (r : Receiver) (parent : ModuleId) : s.materialize r parent =
    ((s.addEigenclass r).1, (s.addEigenclass r).2.link (s.addEigenclass r).1 parent true) := rfl

end Image

inductive Edit where
  | intern (text : String)
  | addModule (name : Symbol)
  | define (owner : ModuleId) (name : Symbol) (m : Method) (resolving : Bool)
  | link (owner other : ModuleId) (resolving : Bool)
  | materialize (r : Receiver) (parent : ModuleId)
  | resolve (m : ModuleId)
  | makeClass (name : Symbol) (superclass : Option ClassId)
  | allocate (c : ClassId)
  | release (o : ObjectId)
  | store (o : ObjectId) (name : Symbol) (v : Value)
  | watchNow (name : Symbol)
  | remember (r : Receiver) (name : Symbol)
  | setDescribing (rs : List Receiver)
  | setHooks (m : ModuleId) (f : Hooks → Hooks)
  | observe (o : ObserverId)

namespace Edit

variable {s s' : Image}

def apply : Edit → Image → Image
  | intern text, s => (s.intern text).2
  | addModule name, s => { s with graph := (s.graph.alloc { name := some name }).2 }
  | define owner name m resolving, s => s.define owner name m resolving
  | link owner other resolving, s => s.link owner other resolving
  | materialize r parent, s => (s.materialize r parent).2
  | resolve m, s => s.resolve m
  | makeClass name superclass, s => s.makeClass name superclass
  | allocate c, s => (s.allocate c).2
  | release o, s => s.release o
  | store o name v, s => s.updateObject o fun d => { d with fields := d.fields.insert name v }
  | watchNow name, s => s.watchNow name
  | remember r name, s => (s.chainFor r name).2
  | setDescribing rs, s => { s with describing := rs }
  | setHooks m f, s => s.setHooks m f
  | observe o, s => { s with observers := o :: s.observers }

theorem apply_materialize (r : Receiver) (parent : ModuleId) (s : Image) :
    (materialize r parent).apply s =
      (s.addEigenclass r).2.link (s.addEigenclass r).1 parent true := by
  rw [apply, Image.materialize_eq]

theorem apply_makeClass (a : Symbol) (superclass : Option ClassId) (s : Image) :
    (makeClass a superclass).apply s = (s.addClass a superclass).2.link (s.addClass a superclass).1
      ((s.addClass a superclass).2.classParent superclass) true := s.makeClass_eq a superclass

/-- What an edit works on is there. -/
def Safe (s : Image) : Edit → Prop
  | define owner _ _ _ => s.graph.Live owner
  | link owner other _ => s.graph.Live owner ∧ s.graph.Live other
  | materialize r parent => s.Alive r ∧ s.eigenclass? r = none ∧ s.parent? r = some parent
  | makeClass _ superclass => ∀ c, superclass = some c → s.LiveClass c
  | allocate c => s.LiveClass c
  | release o | store o _ _ => s.LiveObject o
  | remember r _ => s.Alive r
  | setHooks m _ => s.graph.Live m
  | intern _ | addModule _ | resolve _ | watchNow _ | setDescribing _ | observe _ => True

/-- Nothing is made or taken away. -/
def Plain : Edit → Prop
  | addModule _ | materialize _ _ | makeClass _ _ | allocate _ | release _ => False
  | _ => True

/-- Nothing is taken away. -/
def Lasting : Edit → Prop
  | release _ => False
  | _ => True

theorem akin (hs : s.Sound) {e : Edit} (h : e.Safe s) (hp : e.Plain) : Image.Akin s (e.apply s) := by
  cases e with
  | intern text =>
    exact .of_records (fun hg => hg) (fun _ => Iff.rfl) (fun _ => rfl) rfl rfl rfl rfl
  | define owner name m resolving => exact .define hs h name m resolving
  | link owner other resolving => exact .link hs h.1 h.2 resolving
  | resolve m => exact .resolve hs m
  | store o name v => exact .setField h _ (fun _ => rfl) (fun _ => rfl) fun _ => rfl
  | watchNow name => exact .watchNow hs name
  | remember r name => exact .chainFor h name
  | setDescribing rs =>
    exact .of_records (fun hg => hg) (fun _ => Iff.rfl) (fun _ => rfl) rfl rfl rfl rfl
  | setHooks m f => exact .setHooks h f
  | observe o =>
    exact .of_records (fun hg => hg) (fun _ => Iff.rfl) (fun _ => rfl) rfl rfl rfl rfl
  | addModule | materialize | makeClass | allocate | release => exact hp.elim

end Edit

namespace Image

variable {s s' s'' : Image}

namespace Sound

variable (hs : s.Sound)
include hs

theorem live_parent {r : Receiver} (hr : s.Alive r) {p : ModuleId} (hp : s.parent? r = some p) :
    s.graph.Live p := by
  cases r with
  | object o =>
    rw [← Option.some.inj hp]
    exact hs.live_instanceModule (hs.classOf_live o hr)
  | «class» c =>
    cases hc : s.superclass c with
    | none =>
      simp only [parent?, hc, Option.some.injEq] at hp
      exact hp ▸ hs.live_classRoot
    | some above =>
      simp only [parent?, hc] at hp
      exact hs.live_eigenclass hp
  | module m => exact Option.some.inj hp ▸ hs.live_moduleRoot

theorem live_classParent {above : Option ClassId} (h : ∀ c, above = some c → s.LiveClass c) :
    s.graph.Live (s.classParent above) := by
  cases above with
  | none => exact hs.live_kernel
  | some c => exact hs.live_instanceModule (h c rfl)

end Sound

theorem akin_materialize (hs : s.Sound) {r : Receiver} (hr : s.Alive r)
    (hn : s.eigenclass? r = none) {p : ModuleId} (hp : s.parent? r = some p) :
    Akin (s.addEigenclass r).2 (s.materialize r p).2 := by
  have hlive := hs.live_addEigenclass r
  rw [materialize_eq]
  dsimp only
  exact .link (hs.addEigenclass hr hn) ((hlive _).2 (Or.inl rfl))
    ((hlive _).2 (Or.inr (hs.live_parent hr hp))) true

theorem akin_makeClass (hs : s.Sound) (a : Symbol) {above : Option ClassId}
    (h : ∀ c, above = some c → s.LiveClass c) :
    Akin (s.addClass a above).2 (s.makeClass a above) := by
  have hs' := hs.addClass a h
  refine .link hs' ?_ (hs'.live_classParent fun c hc => ?_) true
  · exact hs.graph.live_alloc.2 (Or.inl rfl)
  · show c.index < (s.classes.push _).size
    rw [Array.size_push]
    exact Nat.lt_succ_of_lt (h c hc)

end Image

theorem Edit.sound {s : Image} (hs : s.Sound) {e : Edit} (h : e.Safe s) : (e.apply s).Sound := by
  cases e with
  | addModule name => exact hs.addModule name
  | materialize r p =>
    obtain ⟨hr, hn, hp⟩ := h
    exact (Image.akin_materialize hs hr hn hp).sound (hs.addEigenclass hr hn)
  | makeClass a above => exact (Image.akin_makeClass hs a h).sound (hs.addClass a h)
  | allocate c => exact hs.allocate h
  | release o => exact hs.release h
  | _ => exact (Edit.akin hs h trivial).sound hs

end Mixin
