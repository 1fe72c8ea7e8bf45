import Mixin.Proofs.Image.Becomes

/-! Asking for an eigenclass makes those that are missing and nothing else. For a class that is every
missing one on its superclass line, from the far end on, so each finds what it is to include. -/

namespace Mixin

namespace Edit

def Materializes : Edit → Prop
  | materialize _ _ => True
  | _ => False

end Edit

namespace Image

variable {s : Image}

/-- A class and its superclasses up to the last, or no class at all. -/
inductive Line (s : Image) : Option ClassId → List ClassId → Prop where
  | root : Line s none []
  | step {c : ClassId} {above : List ClassId} :
      s.LiveClass c → Line s (s.superclass c) above → Line s (some c) (c :: above)

theorem Line.index_le (hs : s.Sound) {x : Option ClassId} {line : List ClassId} (h : Line s x line)
    {c : ClassId} (hx : x = some c) : ∀ d ∈ line, d.index ≤ c.index := by
  induction h generalizing c with
  | root => cases hx
  | @step a above _ hl ih =>
    cases hx
    intro d hd
    rcases List.mem_cons.1 hd with rfl | hd
    · exact Nat.le_refl _
    · cases hsup : s.superclass a with
      | none =>
        rw [hsup] at hl
        cases hl
        exact absurd hd List.not_mem_nil
      | some b =>
        have hlt := hs.superclass_lt a b hsup
        exact Nat.le_of_lt (Nat.lt_of_le_of_lt (ih hsup d hd) hlt)

theorem Line.not_mem (hs : s.Sound) {c : ClassId} {above : List ClassId}
    (h : Line s (s.superclass c) above) : c ∉ above := by
  intro hc
  cases hsup : s.superclass c with
  | none =>
    rw [hsup] at h
    cases h
    exact List.not_mem_nil hc
  | some b =>
    have hle := h.index_le hs hsup c hc
    have hlt := hs.superclass_lt c b hsup
    omega

theorem Line.unique {x : Option ClassId} {line line' : List ClassId} (h : Line s x line)
    (h' : Line s x line') : line = line' := by
  induction h generalizing line' with
  | root =>
    cases h'
    rfl
  | step _ _ ih =>
    cases h' with
    | step _ h' => rw [ih h']

theorem line_superclassLine (hs : s.Sound) (budget : Nat) {c : ClassId} (hc : s.LiveClass c)
    (h : c.index < budget) : Line s (some c) (s.superclassLine budget c) := by
  induction budget generalizing c with
  | zero => omega
  | succ budget ih =>
    unfold superclassLine
    refine .step hc ?_
    cases hsup : s.superclass c with
    | none => exact .root
    | some b =>
      have hlt := hs.superclass_lt c b hsup
      exact ih (hs.superclass_live hsup) (by omega)

theorem Sound.line_lineOf (hs : s.Sound) {c : ClassId} (hc : s.LiveClass c) :
    Line s (some c) (s.lineOf c) :=
  line_superclassLine hs _ hc hc

theorem Sound.lineOf_eq (hs : s.Sound) {c : ClassId} (hc : s.LiveClass c) :
    s.lineOf c = c :: ((s.superclass c).map s.lineOf).getD [] := by
  refine (hs.line_lineOf hc).unique (.step hc ?_)
  cases hsup : s.superclass c with
  | none => exact .root
  | some above => exact hs.line_lineOf (hs.superclass_live hsup)

section Materialize

variable (hs : s.Sound) {r : Receiver} (hr : s.Alive r) (hn : s.eigenclass? r = none)
  {p : ModuleId} (hp : s.parent? r = some p)
include hs hr hn hp

theorem eigenclass_materialize (a : Receiver) : (s.materialize r p).2.eigenclass? a =
    if a = r then some (s.materialize r p).1 else s.eigenclass? a := by
  rw [(akin_materialize hs hr hn hp).eigenclass, eigenclass_addEigenclass hr.hasRecord]
  rfl

theorem superclass_materialize (c : ClassId) :
    (s.materialize r p).2.superclass c = s.superclass c := by
  rw [(akin_materialize hs hr hn hp).superclass]
  simp only [addEigenclass, superclass_updateSingleton]
  rfl

omit hs in
theorem becomes_materialize : Becomes Edit.Materializes s (s.materialize r p).2 :=
  Becomes.single (e := .materialize r p) trivial ⟨hr, hn, hp⟩

end Materialize

/-- What making the eigenclasses of a line comes to. -/
structure Lined (s : Image) (x : Option ClassId) (line : List ClassId) (m : ModuleId) (s' : Image) :
    Prop where
  becomes : Becomes Edit.Materializes s s'
  others : ∀ r, (∀ c ∈ line, r ≠ .class c) → s'.eigenclass? r = s.eigenclass? r
  superclass : ∀ c, s'.superclass c = s.superclass c
  liveClass : ∀ c, s.LiveClass c → s'.LiveClass c
  made : match x with
    | none => m = .classRoot
    | some c => s'.eigenclass? (.class c) = some m

theorem lined_classEigenclass (hs : s.Sound) {x : Option ClassId} {line : List ClassId}
    (h : Line s x line) : Lined s x line (s.classEigenclass line).1 (s.classEigenclass line).2 := by
  induction h with
  | root => exact ⟨.refl s, fun _ _ => rfl, fun _ => rfl, fun _ hc => hc, rfl⟩
  | @step c above hc hl ih =>
    unfold classEigenclass
    cases hm : s.eigenclass? (.class c) with
    | some m => exact ⟨.refl s, fun _ _ => rfl, fun _ => rfl, fun _ hc => hc, hm⟩
    | none =>
      dsimp only
      generalize (s.classEigenclass above).1 = p at ih ⊢
      generalize (s.classEigenclass above).2 = s₁ at ih ⊢
      have hs₁ := ih.becomes.sound hs
      have hr : s₁.Alive (.class c) := ih.liveClass c hc
      have hn : s₁.eigenclass? (.class c) = none := by
        rw [ih.others _ fun d hd he => ?_, hm]
        cases he
        exact hl.not_mem hs hd
      have hp : s₁.parent? (.class c) = some p := by
        have hmade := ih.made
        cases hsup : s.superclass c with
        | none =>
          rw [hsup] at hmade
          simp only [parent?, ih.superclass, hsup]
          exact congrArg some hmade.symm
        | some b =>
          rw [hsup] at hmade
          simp only [parent?, ih.superclass, hsup]
          exact hmade
      refine ⟨ih.becomes.trans (becomes_materialize hr hn hp), fun r hne => ?_, fun d => ?_,
        fun d hd => ?_, ?_⟩
      · rw [eigenclass_materialize hs₁ hr hn hp, if_neg (hne c List.mem_cons_self)]
        exact ih.others r fun d hd => hne d (List.mem_cons_of_mem _ hd)
      · rw [superclass_materialize hs₁ hr hn hp, ih.superclass]
      · have hper := (becomes_materialize hr hn hp).persists (fun _ => True) hs₁
          fun e he => by cases e <;> trivial
        exact hper.liveClass d (ih.liveClass d hd)
      · show (s₁.materialize (.class c) p).2.eigenclass? _ = _
        rw [eigenclass_materialize hs₁ hr hn hp, if_pos rfl]

theorem eigenclass_becomes (hs : s.Sound) {r : Receiver}
    (hr : s.Alive r ∨ ∃ m, s.eigenclass? r = some m) :
    Becomes Edit.Materializes s (s.eigenclass r).2 ∧
      (s.eigenclass r).2.eigenclass? r = some (s.eigenclass r).1 := by
  have hsome : ∀ m, s.eigenclass? r = some m → (∀ c, r ≠ .class c) → s.eigenclass r = (m, s) := by
    intro m hm hne
    cases r with
    | «class» c => exact absurd rfl (hne c)
    | object o => simp only [eigenclass, hm]
    | module a => simp only [eigenclass, hm]
  have hmake : s.eigenclass? r = none → ∀ p, s.parent? r = some p →
      s.eigenclass r = s.materialize r p → Becomes Edit.Materializes s (s.eigenclass r).2 ∧
        (s.eigenclass r).2.eigenclass? r = some (s.eigenclass r).1 := by
    intro hn p hp he
    have halive : s.Alive r := hr.resolve_right fun ⟨m, hm⟩ => by rw [hn] at hm; cases hm
    rw [he, eigenclass_materialize hs halive hn hp, if_pos rfl]
    exact ⟨becomes_materialize halive hn hp, rfl⟩
  cases r with
  | «class» c =>
    have hc : s.LiveClass c := hr.elim id fun ⟨m, hm⟩ => hasRecord_of_eigenclass hm
    have hlined := lined_classEigenclass hs (hs.line_lineOf hc)
    exact ⟨hlined.becomes, hlined.made⟩
  | object o =>
    cases hm : s.eigenclass? (.object o) with
    | some m => rw [hsome m hm nofun]; exact ⟨.refl s, hm⟩
    | none => exact hmake hm _ rfl (by simp only [eigenclass, hm])
  | module a =>
    cases hm : s.eigenclass? (.module a) with
    | some m => rw [hsome m hm nofun]; exact ⟨.refl s, hm⟩
    | none => exact hmake hm _ rfl (by simp only [eigenclass, hm])

end Image

end Mixin
