import Mixin.Image.Boot
import Mixin.Proofs.Image.Edit

/-! The image at the start. Its graph is four modules in a row; the kernel's methods and the stubs of
watched names are then stored in it, which changes no edge. -/

namespace Mixin

namespace Graph

def frame (kernelName moduleName className : Symbol) : Graph where
  nodes := #[
    { hidden := true, dependents := [.kernel] },
    { name := some kernelName, included := [.gate], dependents := [.moduleRoot] },
    { name := some moduleName, included := [.kernel], dependents := [.classRoot],
      target := some .moduleBase },
    { name := some className, included := [.moduleRoot], target := some .classBase }]
  edits := 3

variable {a b c : Symbol}

theorem seed_eq : seed a b c =
    Native.all.foldl (fun g x => g.setMethod .kernel x.1 (.native x.2)) (frame a b c) := by
  have hframe : (let g : Graph := {}
      let g := (g.alloc { hidden := true }).2
      let g := (g.alloc { name := some a }).2.addEdge .kernel .gate
      let g := (g.alloc { name := some b, target := some .moduleBase }).2.addEdge
        .moduleRoot .kernel
      (g.alloc { name := some c, target := some .classBase }).2.addEdge .classRoot .moduleRoot) =
      frame a b c := by
    simp [alloc, addEdge, update, bump, ModuleId.kernel, ModuleId.gate, ModuleId.moduleRoot,
      ModuleId.classRoot, Node.addIncluded, Node.addDependent, frame]
  rw [← hframe]
  rfl

theorem node_frame (m : ModuleId) : (frame a b c).node m =
    match m.index with
    | 0 => { hidden := true, dependents := [.kernel] }
    | 1 => { name := some a, included := [.gate], dependents := [.moduleRoot] }
    | 2 => { name := some b, included := [.kernel], dependents := [.classRoot],
             target := some .moduleBase }
    | 3 => { name := some c, included := [.moduleRoot], target := some .classBase }
    | _ => {} := by
  rcases m with ⟨_ | _ | _ | _ | i⟩ <;> rfl

theorem live_frame {m : ModuleId} : (frame a b c).Live m ↔ m.index < 4 := by
  simp [Live, frame]

theorem sound_frame : (frame a b c).Sound where
  back := by
    rintro ⟨_ | _ | _ | _ | i⟩ ⟨_ | _ | _ | _ | j⟩ <;>
      simp [node_frame, ModuleId.gate, ModuleId.kernel, ModuleId.moduleRoot, ModuleId.classRoot]
  once := by rintro ⟨_ | _ | _ | _ | i⟩ <;> simp [node_frame]
  live := by
    rintro ⟨_ | _ | _ | _ | i⟩ m h <;>
      simp_all [node_frame, live_frame, ModuleId.gate, ModuleId.kernel, ModuleId.moduleRoot]
  free_lt m h := absurd h List.not_mem_nil
  free_nodup := List.nodup_nil
  blank m h := absurd h List.not_mem_nil

section StoreAll

variable {g : Graph} {owner m : ModuleId} (h : g.Live owner) (entries : List (Symbol × Native))

theorem live_storeAll :
    (entries.foldl (fun g x => g.setMethod owner x.1 (.native x.2)) g).Live m ↔ g.Live m := by
  induction entries generalizing g with
  | nil => exact Iff.rfl
  | cons x entries ih => rw [List.foldl_cons, ih, live_setMethod]

include h

theorem node_storeAll :
    (entries.foldl (fun g x => g.setMethod owner x.1 (.native x.2)) g).node m =
      if m = owner then
        { g.node m with
          methods := entries.foldl (fun t x => t.insert x.1 (.native x.2)) (g.node m).methods }
      else g.node m := by
  induction entries generalizing g with
  | nil => simp
  | cons x entries ih =>
    rw [List.foldl_cons, ih ((live_setMethod ..).2 h), node_setMethod _ _ h]
    by_cases hm : m = owner <;> simp [hm]

theorem sound_storeAll (hg : g.Sound) :
    (entries.foldl (fun g x => g.setMethod owner x.1 (.native x.2)) g).Sound := by
  induction entries generalizing g with
  | nil => exact hg
  | cons x entries ih => exact ih ((live_setMethod ..).2 h) (hg.setMethod h _ _)

end StoreAll

def natives : MethodTable := Native.all.foldl (fun t x => t.insert x.1 (.native x.2)) ∅

theorem node_seed (m : ModuleId) : (seed a b c).node m =
    if m = .kernel then { (frame a b c).node m with methods := natives }
    else (frame a b c).node m := by
  have hkernel : (frame a b c).Live .kernel := live_frame.2 (by decide)
  rw [seed_eq, node_storeAll hkernel]
  split
  · rename_i hm
    subst hm
    rfl
  · rfl

theorem live_seed {m : ModuleId} : (seed a b c).Live m ↔ m.index < 4 := by
  rw [seed_eq, live_storeAll, live_frame]

theorem sound_seed : (seed a b c).Sound := by
  rw [seed_eq]
  exact sound_storeAll (live_frame.2 (by decide)) _ sound_frame

theorem included_seed (m : ModuleId) :
    ((seed a b c).node m).included = ((frame a b c).node m).included := by
  rw [node_seed]
  split <;> rfl

theorem target_seed (m : ModuleId) :
    ((seed a b c).node m).target = ((frame a b c).node m).target := by
  rw [node_seed]
  split <;> rfl

end Graph

namespace Image

/-- The four modules, and no class or object yet. -/
structure Seeded (s : Image) : Prop where
  graph : ∃ a b c, s.graph = .seed a b c
  classes : s.classes = #[]
  objects : s.objects = #[]
  moduleSides : s.moduleSides = ∅
  freeObjects : s.freeObjects = []

variable {s : Image}

namespace Seeded

variable (h : s.Seeded)
include h

theorem singleton_eq (r : Receiver) : s.singleton r = {} := by
  cases r with
  | object o => simp [singleton, objectData, h.objects]; rfl
  | «class» c => simp [singleton, classData, h.classes]; rfl
  | module m => simp [singleton, h.moduleSides]

theorem target_iff (m : ModuleId) (t : Target) :
    (s.graph.node m).target = some t ↔ s.holder? t = some m := by
  obtain ⟨a, b, c, hg⟩ := h.graph
  have hholder : s.holder? t = match t with
      | .classBase => some .classRoot
      | .moduleBase => some .moduleRoot
      | _ => none := by
    cases t with
    | prototype c => simp [holder?, h.classes]
    | singleton r => simp [holder?, eigenclass?, h.singleton_eq]
    | classBase => rfl
    | moduleBase => rfl
  rw [hholder, hg, Graph.target_seed, Graph.node_frame]
  rcases m with ⟨_ | _ | _ | _ | i⟩ <;> cases t <;>
    simp [ModuleId.classRoot, ModuleId.moduleRoot]

theorem sound : s.Sound := by
  have htarget := h.target_iff
  obtain ⟨a, b, c, hg⟩ := h.graph
  have hnone : ∀ o, ¬ s.LiveObject o := fun o ho => by
    have hlt := ho.1
    rw [h.objects] at hlt
    exact Nat.not_lt_zero _ hlt
  refine ⟨hg ▸ Graph.sound_seed, htarget, ?_, ?_, ?_, ?_, fun c d hd => ?_, fun o ho => ?_,
    fun o => ?_, ?_, fun o _ => h.singleton_eq (.object o)⟩
  · rw [hg, Graph.live_seed]
    decide
  · rw [hg, Graph.target_seed]
    rfl
  · rw [hg, Graph.live_seed]
    decide
  · rw [hg, Graph.target_seed]
    rfl
  · simp [superclass, classData, h.classes] at hd
  · exact absurd ho (hnone o)
  · simp [h.freeObjects, h.objects]
  · rw [h.freeObjects]
    exact List.nodup_nil

end Seeded

theorem akin_foldl_watch (hs : s.Sound) (names : List Symbol) :
    Akin s (names.foldl watch s) := by
  induction names generalizing s with
  | nil => exact .refl s
  | cons a names ih =>
    have h := Akin.watch hs a
    exact h.trans (ih (h.sound hs))

end Image

namespace Setup

/-- An image starts with the four modules, then watches names and resolves once. Nothing is watched
before that, and what is reserved includes `method_missing` and `initialize`. -/
theorem boot_eq_gate (u : Setup) : ∃ (s : Image) (names : List Symbol), s.Seeded ∧
    (s.gate.watched = [] ∧ .methodMissing ∈ s.gate.reserved ∧ .initializer ∈ s.gate.reserved) ∧
    u.boot = (names.foldl Image.watch s).resolve .gate := by
  unfold boot
  obtain ⟨-, symbols⟩ := SymbolTable.base.internAll u.interned
  dsimp only
  obtain ⟨kernelName, symbols⟩ := symbols.intern "Kernel"
  dsimp only
  obtain ⟨moduleName, symbols⟩ := symbols.intern "Module"
  dsimp only
  obtain ⟨className, symbols⟩ := symbols.intern "Class"
  dsimp only
  obtain ⟨reserved, symbols⟩ := symbols.internAll u.reserved
  dsimp only
  obtain ⟨watched, symbols⟩ := symbols.internAll u.watched
  refine ⟨_, watched, ?_, ?_, rfl⟩
  · exact ⟨⟨kernelName, moduleName, className, rfl⟩, rfl, rfl, rfl, rfl⟩
  · simp

theorem boot_eq (u : Setup) : ∃ (s : Image) (names : List Symbol), s.Seeded ∧
    u.boot = (names.foldl Image.watch s).resolve .gate := by
  obtain ⟨s, names, hseed, -, heq⟩ := u.boot_eq_gate
  exact ⟨s, names, hseed, heq⟩

theorem sound_boot (u : Setup) : u.boot.Sound := by
  obtain ⟨s, names, hseed, heq⟩ := u.boot_eq
  have hs := hseed.sound
  rw [heq]
  exact ((Image.akin_foldl_watch hs names).sound hs).resolve _

theorem eigenclass_boot (u : Setup) (r : Receiver) : u.boot.eigenclass? r = none := by
  obtain ⟨s, names, hseed, heq⟩ := u.boot_eq
  have hakin := Image.akin_foldl_watch hseed.sound names
  rw [heq, (Image.Akin.resolve (hakin.sound hseed.sound) _).eigenclass, hakin.eigenclass,
    Image.eigenclass?, hseed.singleton_eq]

end Setup

end Mixin
