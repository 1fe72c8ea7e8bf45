import Mixin.Proofs.Run.Keeps

/-! Sends, super calls and descriptions are runs of usual edits. All that they need is the receiver,
and only up to the first invocation. -/

namespace Mixin

namespace Image

variable {s : Image} {k : Manners}

theorem becomes_edit (e : Edit) (h : e.Safe s) (ha : e.Allowed k) (hl : e.Lasting) :
    Becomes (Edit.Usual k) s (e.apply s) := Becomes.single ⟨ha, hl⟩ h

theorem becomes_intern (text : String) : Becomes (Edit.Usual k) s (s.intern text).2 :=
  becomes_edit (.intern text) trivial trivial trivial

theorem becomes_prepare (r : Receiver) (name : Symbol) :
    Becomes (Edit.Usual k) s (s.prepare r name) := by
  unfold prepare
  split
  · exact .refl s
  · exact becomes_edit (.watchNow name) trivial trivial trivial

theorem becomes_chainFor {r : Receiver} (h : s.Alive r) (name : Symbol) :
    Becomes (Edit.Usual k) s (s.chainFor r name).2 :=
  becomes_edit (.remember r name) h trivial trivial

theorem becomes_beginDescribing (r : Receiver) :
    Becomes (Edit.Usual k) s (s.beginDescribing r).2 := by
  unfold beginDescribing
  split
  · exact .refl s
  · exact becomes_edit (.setDescribing _) trivial trivial trivial

theorem becomes_endDescribing (r : Receiver) : Becomes (Edit.Usual k) s (s.endDescribing r) :=
  becomes_edit (.setDescribing _) trivial trivial trivial

theorem alive_prepare (hs : s.Sound) (r a : Receiver) (name : Symbol) :
    (s.prepare a name).Alive r ↔ s.Alive r := by
  unfold prepare
  split
  · exact Iff.rfl
  · exact (Akin.watchNow hs name).alive r

theorem alive_beginDescribing (r a : Receiver) :
    (s.beginDescribing a).2.Alive r ↔ s.Alive r := by
  unfold beginDescribing
  split
  · exact Iff.rfl
  · cases r <;> exact Iff.rfl

end Image

namespace Effect

open Image

variable {ω : Type} {k : Manners} {held : ObjectId → Prop} {w : World ω} {r : Receiver}

section Receiver

variable (hs : w.image.Sound) (hr : w.image.Alive r)
include hs hr

theorem keeps_enter (name : Symbol) (slot : Slot) (args : List Value) :
    Keeps k held (fun _ _ => True) w (enter r name slot args) := by
  cases slot with
  | direct m => exact keeps_invoke fun a ha => List.mem_singleton.1 ha ▸ hr
  | chained m =>
    refine Keeps.bind (Q := fun _ s => s.Alive r) hs ?_ fun callees w' _ _ hr' => ?_
    · exact keeps_edit (becomes_chainFor hr name) (((Akin.chainFor hr name).alive r).2 hr)
    · exact keeps_invoke fun a ha => List.mem_singleton.1 ha ▸ hr'

theorem keeps_reportMissing (name : Symbol) (args : List Value) :
    Keeps k held (fun _ _ => True) w (reportMissing r name args) := by
  refine Keeps.bind (Q := fun _ s => s.Alive r) hs (keeps_read hr) fun text w₁ hs₁ _ hr₁ => ?_
  refine Keeps.bind (Q := fun _ s => s.Alive r) hs₁ (keeps_read hr₁) fun slot w₂ hs₂ _ hr₂ => ?_
  exact keeps_enter hs₂ hr₂ _ _ _

theorem keeps_send (name : Symbol) (args : List Value) :
    Keeps k held (fun _ _ => True) w (send r name args) := by
  refine Keeps.bind (Q := fun _ s => s.Alive r) hs ?_ fun _ w₁ hs₁ _ hr₁ => ?_
  · exact keeps_change (becomes_prepare r name) ((alive_prepare hs r r name).2 hr)
  refine Keeps.bind (Q := fun _ s => s.Alive r) hs₁ (keeps_read hr₁) fun slot w₂ hs₂ _ hr₂ => ?_
  cases slot with
  | some slot => exact keeps_enter hs₂ hr₂ _ _ _
  | none => exact keeps_reportMissing hs₂ hr₂ _ _

theorem keeps_describe : Keeps k held (fun _ _ => True) w (describe r) := by
  refine Keeps.bind (Q := fun _ s => s.Alive r) hs ?_ fun first w₁ hs₁ _ hr₁ => ?_
  · exact keeps_edit (becomes_beginDescribing r) ((alive_beginDescribing r r).2 hr)
  split
  · refine Keeps.bind hs₁ (keeps_send hs₁ hr₁ _ _) fun reply w₂ hs₂ _ _ => ?_
    refine Keeps.bind (Q := fun _ _ => True) hs₂ ?_ fun _ w₃ hs₃ _ _ => ?_
    · exact keeps_change (becomes_endDescribing r) trivial
    · split
      · exact keeps_pure trivial
      · exact keeps_read trivial
  · exact keeps_read trivial

theorem keeps_exhausted (name : Symbol) (args : List Value) :
    Keeps k held (fun _ _ => True) w (exhausted r name args) := by
  refine Keeps.bind (Q := fun _ s => s.Alive r) hs (keeps_read hr) fun own w₁ hs₁ _ hr₁ => ?_
  cases own with
  | true => exact keeps_reportMissing hs₁ hr₁ _ _
  | false =>
    refine Keeps.bind (Q := fun _ s => s.Alive r) hs₁ (keeps_read hr₁) fun text w₂ hs₂ _ hr₂ => ?_
    exact Keeps.bind hs₂ (keeps_describe hs₂ hr₂) fun who w₃ _ _ _ => keeps_pure trivial

theorem keeps_bindMethod (name : Symbol) :
    Keeps k held (fun _ _ => True) w (bindMethod r name) := by
  refine Keeps.bind (Q := fun _ s => s.Alive r) hs (keeps_read hr) fun slot w₁ hs₁ _ hr₁ => ?_
  cases slot with
  | some slot => exact keeps_pure trivial
  | none =>
    refine Keeps.bind (Q := fun _ s => s.Alive r) hs₁ (keeps_read hr₁) fun text w₂ hs₂ _ hr₂ => ?_
    exact Keeps.bind hs₂ (keeps_describe hs₂ hr₂) fun who w₃ _ _ _ => keeps_pure trivial

end Receiver

section Next

variable {call : Call} (hs : w.image.Sound) (hr : w.image.Alive call.receiver)
include hs hr

theorem keeps_below (cursor : Cursor) (args : List Value) :
    Keeps k held (fun _ _ => True) w
      (match cursor.below? with
      | some (m, cursor) => invoke (.method m { call with args, cursor := some cursor })
      | none => exhausted call.receiver call.name args) := by
  cases cursor.below? with
  | some below => exact keeps_invoke fun a ha => List.mem_singleton.1 ha ▸ hr
  | none => exact keeps_exhausted hs hr _ _

theorem keeps_next (overrides : List Value) :
    Keeps k held (fun _ _ => True) w (next call overrides) := by
  unfold next
  dsimp only
  split
  · refine Keeps.bind (Q := fun _ s => s.Alive call.receiver) hs (keeps_pure hr) ?_
    exact fun cursor w' hs' _ hr' => keeps_below hs' hr' cursor _
  · refine Keeps.bind (Q := fun _ s => s.Alive call.receiver) hs (.map hs ?_) ?_
    · exact keeps_edit (becomes_chainFor hr _) (((Akin.chainFor hr _).alive _).2 hr)
    · exact fun cursor w' hs' _ hr' => keeps_below hs' hr' cursor _

end Next

end Effect

namespace Native

open Effect

variable {ω : Type} {k : Manners} {held : ObjectId → Prop} {w : World ω}

theorem keeps_act {call : Call} (hs : w.image.Sound) (hr : w.image.Alive call.receiver)
    (n : Native) : Keeps k held (fun _ _ => True) w (n.act call) := by
  cases n with
  | methodMissing =>
    unfold act
    dsimp only
    split
    · exact Keeps.bind hs (keeps_describe hs hr) fun _ _ _ _ _ => keeps_pure trivial
    · exact keeps_pure trivial
  | inspect =>
    exact Keeps.bind (Q := fun _ _ => True) hs (keeps_read trivial) fun _ _ _ _ _ =>
      keeps_pure trivial
  | respondTo =>
    unfold act
    dsimp only
    split
    · refine Keeps.bind (Q := fun _ _ => True) hs ?_ fun _ _ hs' _ _ => ?_
      · exact keeps_edit (Image.becomes_intern _) trivial
      · exact Keeps.bind (Q := fun _ _ => True) hs' (keeps_read trivial) fun _ _ _ _ _ =>
          keeps_pure trivial
    · exact keeps_pure trivial
    · exact keeps_pure trivial
  | isA =>
    unfold act
    dsimp only
    split
    · split
      · exact Keeps.bind (Q := fun _ _ => True) hs (keeps_read trivial) fun _ _ _ _ _ =>
          keeps_pure trivial
      · exact keeps_pure trivial
    · exact keeps_pure trivial

end Native

namespace Invocation

open Effect

variable {ω : Type} {k : Manners} {held : ObjectId → Prop} {w : World ω}

theorem keeps_start {i : Invocation} (hs : w.image.Sound)
    (hr : ∀ r ∈ i.receivers, w.image.Alive r) :
    Keeps k held (fun _ _ => True) w (i.start) := by
  cases i with
  | method m call =>
    have hcall : w.image.Alive call.receiver := hr _ (List.mem_singleton_self _)
    unfold start
    dsimp only
    split
    · exact Keeps.bind hs (Native.keeps_act hs hcall _) fun _ _ _ _ _ => keeps_pure trivial
    · exact Keeps.bind hs (keeps_reportMissing hs hcall _ _) fun _ _ _ _ _ => keeps_pure trivial
    · exact ⟨.refl _, trivial⟩
  | hook h v => exact ⟨.refl _, trivial⟩
  | observer o name v => exact ⟨.refl _, trivial⟩

end Invocation

end Mixin
