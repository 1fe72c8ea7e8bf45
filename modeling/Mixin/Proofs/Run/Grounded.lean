import Mixin.Proofs.Image.Steadfast
import Mixin.Proofs.Run.Ends
import Mixin.Proofs.Run.Restores

/-! What a send comes to while bodies do no more than make super calls. A message goes down the chain of
its name, from the end of that to the receiver's handlers, and down these; describing the receiver for an
error starts over once and no more. All of that halts if the handlers do. -/

namespace Mixin

variable {ω : Type}

/-- Asks nothing of the runtime but super calls of these frames, though it may look at it. -/
inductive Program.Modest (own : Call → Prop) : Program ω → Prop where
  | reply (r : Reply) : Modest own (.reply r)
  | read {next : Image → Program ω} : (∀ s, Modest own (next s)) → Modest own (.read next)
  | load {next : ω → Program ω} : (∀ a, Modest own (next a)) → Modest own (.load next)
  | alter {f : ω → ω} {next : Program ω} : Modest own next → Modest own (.alter f next)
  | superCall {call : Call} {overrides : List Value} {goesOn : Reply → Program ω} : own call →
      (∀ reply, Modest own (goesOn reply)) → Modest own (.perform (.next call overrides) goesOn)

/-- All that the bodies do with the runtime is to make super calls of their own frames. -/
def Code.Meek (code : Code ω) : Prop := ∀ body ∈ code.bodies, ∀ call, (body call).Modest (· = call)

/-- Running the method makes no super call. -/
def Method.Calm (code : Code ω) (x : Method) : Prop :=
  match x.body with
  | .native _ => True
  | .stub _ => False
  | .program i => ∀ body, code.bodies[i]? = some body → ∀ call, (body call).Modest fun _ => False

/-- Where a super call of the frame starts from: the place it was given, or the top of the chain. -/
def Call.place (call : Call) (s : Image) : Cursor :=
  call.cursor.getD (.top (s.chainFor call.receiver call.name).1)

/-- A super call of this frame goes to the handler that the frame belongs to, or one above it. -/
structure Call.PassedBack (call : Call) (s : Image) : Prop where
  handler : call.name = .methodMissing
  lowest : (call.place s).below? = none
  own : s.hasOwnHandler call.receiver = true

/-- What a message that the receiver does not understand is handed to, and before that, what super
calls then come to. -/
def Image.handlers (s : Image) (r : Receiver) : List Method :=
  (s.chainFor r .methodMissing).1.dropLast ++ [(s.missingSlot r).method]

open Effect

namespace World

/-- Nothing has changed that a send to anybody goes by, and these are under description. -/
structure Like (code : Code ω) (s : Image) (D : List Receiver) (w : World ω) : Prop where
  code : w.code = code
  steadfast : s.Steadfast w.image
  describing : w.image.describing = D

variable {code : Code ω} {s : Image} {D : List Receiver} {w : World ω}

theorem Like.edit (h : w.Like code s D) {image : Image} (hi : w.image.Steadfast image)
    (hd : image.describing = w.image.describing) : Like code s D { w with image } :=
  ⟨h.code, h.steadfast.trans hi, hd.trans h.describing⟩

theorem Like.chainFor (h : w.Like code s D) (r : Receiver) (n : Symbol) :
    Like code s D { w with image := (w.image.chainFor r n).2 } :=
  h.edit (Image.steadfast_chainFor _ r n) (Image.describing_chainFor r n)

theorem Like.describe (h : w.Like code s D) (D' : List Receiver) :
    Like code s D' { w with image := { w.image with describing := D' } } :=
  ⟨h.code, h.steadfast.trans (Image.steadfast_describing _ D'), rfl⟩

end World

namespace Machine

/-- About to make a super call of a kind that is followed no further. -/
def Supers (lost : Call → Image → Prop) (m : Machine ω) : Prop :=
  ∃ call overrides goesOn w,
    m.current = .finished (.perform (.next call overrides) goesOn) w ∧ lost call w.image

end Machine

/-- Super calls of the frame halt, or are followed no further. -/
def Call.Goes (lost : Call → Image → Prop) (P : World ω → Prop) (call : Call) : Prop :=
  ∀ w, P w → lost call w.image ∨
    ∀ overrides, (next call overrides w).Halts (Machine.Supers lost) P

section Sends

variable {code : Code ω} {s : Image} {D : List Receiver} {w : World ω} {r : Receiver}
  {lost : Call → Image → Prop}

theorem Program.Modest.ends {own : Call → Prop} {P : World ω → Prop} {p : Program ω}
    (hp : p.Modest own) (halter : ∀ w (f : ω → ω), P w → P { w with host := f w.host })
    (hnext : ∀ call, own call → call.Goes lost P) (hw : P w) :
    (Run.finished p w).Ends (Machine.Supers lost) fun _ => P := by
  induction hp generalizing w with
  | reply reply => exact Run.ends_reply hw
  | read _ ih => exact (ih w.image hw).of_step fun _ _ => ⟨_, rfl⟩
  | load _ ih => exact (ih w.host hw).of_step fun _ _ => ⟨_, rfl⟩
  | alter _ ih => exact (ih (halter w _ hw)).of_step fun _ _ => ⟨_, rfl⟩
  | @superCall call overrides goesOn hown _ ih =>
    rcases hnext call hown w hw with hlost | hhalts
    · exact Run.reaches_of_lost fun m hm => ⟨call, overrides, goesOn, w, hm, hlost⟩
    · have hends := (hhalts overrides).reaches (f := fun a w => .finished (goesOn a) w) ih
      exact hends.of_step fun _ _ => ⟨_, rfl⟩

theorem Native.halts_act {call : Call} {L : Machine ω → Prop} (n : Native)
    (hdescribe : (describe call.receiver).Halts L (World.Like code s D)) :
    (n.act call).Halts L (World.Like code s D) := by
  cases n with
  | methodMissing =>
    unfold Native.act
    dsimp only
    split
    · exact hdescribe.bind fun _ => halts_pure _
    · exact halts_pure _
  | inspect => exact .bind (halts_read _) fun _ => halts_pure _
  | respondTo =>
    unfold Native.act
    dsimp only
    split
    · refine .bind (halts_edit fun w hw => hw.edit (Image.steadfast_intern ..) rfl) fun _ => ?_
      exact .bind (halts_read _) fun _ => halts_pure _
    · exact halts_pure _
    · exact halts_pure _
  | isA =>
    unfold Native.act
    dsimp only
    split
    · split
      · exact .bind (halts_read _) fun _ => halts_pure _
      · exact halts_pure _
    · exact halts_pure _

theorem Invocation.finishes_method {x : Method} {call : Call} (hmeek : code.Meek)
    (hdescribe : (describe call.receiver).Halts (Machine.Supers lost) (World.Like code s D))
    (hstub : x.isStub = true → ∀ n, (reportMissing call.receiver n call.args).Halts
      (Machine.Supers lost) (World.Like code s D))
    (hnext : ¬ x.Calm code → call.Goes lost (World.Like code s D)) :
    (Invocation.method x call).Finishes (Machine.Supers lost) (World.Like code s D) := by
  intro w hw
  have halter : ∀ (w : World ω) (f : ω → ω), w.Like code s D →
      World.Like code s D { w with host := f w.host } := fun w f hw => ⟨hw.1, hw.2, hw.3⟩
  obtain ⟨body, callsNext⟩ := x
  cases body with
  | native n => exact (Native.halts_act n hdescribe).ends _ hw
  | stub n => exact (hstub rfl n).ends _ hw
  | program i =>
    show (Run.finished ((w.code.bodies[i]?.map fun body => body call).getD
      (.reply (.ok .void))) w).Ends _ _
    rw [hw.code]
    cases hbody : code.bodies[i]? with
    | none => exact Run.ends_reply hw
    | some body =>
      by_cases hcalm : Method.Calm code ⟨.program i, callsNext⟩
      · exact (hcalm body hbody call).ends halter nofun hw
      · refine (hmeek body (Array.mem_of_getElem? hbody) call).ends halter ?_ hw
        rintro _ rfl
        exact hnext hcalm

theorem place_steadfast {s' : Image} (h : s.Steadfast s') (call : Call) :
    call.place s' = call.place s := by
  rw [Call.place, Call.place, h.chain]

theorem exists_next_eq (hw : w.Like code s D) (call : Call) (overrides : List Value) :
    ∃ w', w'.Like code s D ∧ next call overrides w =
      next { call with cursor := some (call.place s) } overrides w' := by
  obtain ⟨r, n, args, cursor⟩ := call
  cases cursor with
  | some cursor => exact ⟨w, hw, rfl⟩
  | none =>
    refine ⟨_, hw.chainFor r n, ?_⟩
    rw [next_of_cursorless rfl, hw.steadfast.chain]
    rfl

theorem goes_below {call : Call} {C : List Method} {i : ℕ} {x : Method}
    (hplace : call.place s = ⟨C, i + 1⟩) (hx : C[i]? = some x)
    (hfinishes : ∀ args, (Invocation.method x { call with args, cursor := some ⟨C, i⟩ }).Finishes
      (Machine.Supers lost) (World.Like code s D)) :
    call.Goes lost (World.Like code s D) := by
  refine fun w hw => .inr fun overrides => ?_
  obtain ⟨w', hw', hnext⟩ := exists_next_eq hw call overrides
  rw [hnext, next_of_below (congrArg some hplace) hx]
  exact (halts_invoke (hfinishes _)).run w' hw'

theorem goes_lowest {call : Call} (hplace : (call.place s).below? = none)
    (hexhausted : ∀ args, (exhausted call.receiver call.name args).Halts (Machine.Supers lost)
      (World.Like code s D)) : call.Goes lost (World.Like code s D) := by
  refine fun w hw => .inr fun overrides => ?_
  obtain ⟨w', hw', hnext⟩ := exists_next_eq hw call overrides
  rw [hnext, next_of_bottom rfl hplace]
  exact (hexhausted _).run w' hw'

theorem halts_enter {n : Symbol} {slot : Slot} {args : List Value}
    (hfinishes : ∀ call : Call, call.receiver = r → call.name = n →
      call.place s = .top (s.chainFor r n).1 →
      (Invocation.method slot.method call).Finishes (Machine.Supers lost) (World.Like code s D)) :
    (enter r n slot args).Halts (Machine.Supers lost) (World.Like code s D) := by
  refine ⟨fun w hw => ?_⟩
  cases slot with
  | direct x => exact (halts_invoke (hfinishes ⟨r, n, args, none⟩ rfl rfl rfl)).run w hw
  | chained x =>
    rw [enter_chained, hw.steadfast.chain]
    exact (halts_invoke (hfinishes ⟨r, n, args, some _⟩ rfl rfl rfl)).run _ (hw.chainFor ..)

/-- A super call that is passed back is one more message that the receiver does not understand. -/
theorem Call.PassedBack.next_eq {call : Call} (h : call.PassedBack w.image) (overrides : List Value) :
    ∃ w', w'.Like w.code w.image w.image.describing ∧ next call overrides w =
      reportMissing call.receiver .methodMissing (call.overlay overrides) w' := by
  have hw : w.Like w.code w.image w.image.describing := ⟨rfl, .refl _, rfl⟩
  obtain ⟨w', hw', hnext⟩ := exists_next_eq hw call overrides
  refine ⟨w', hw', ?_⟩
  rw [hnext, next_of_bottom rfl h.lowest, exhausted_eq, hw'.steadfast.hasOwnHandler, if_pos h.own,
    h.handler]
  rfl

/-- What a receiver is asked for is there, its handlers are real, and one of them makes no super call or
those that the lowest of them makes are followed no further. -/
structure Grounded (code : Code ω) (s : Image) (lost : Call → Image → Prop) (r : Receiver) : Prop where
  meek : code.Meek
  real : ∀ x ∈ s.handlers r, x.isStub = false
  inspects : ∃ slot, s.slot? r .inspect = some slot
  bottom : (∃ x ∈ s.handlers r, x.Calm code) ∨
    ∀ call image, call.receiver = r → call.PassedBack image → lost call image

/-- Super calls go from this place in the chain of the handlers. -/
def HandlersGo (lost : Call → Image → Prop) (P : World ω → Prop) (s : Image) (r : Receiver) (i : ℕ) :
    Prop := ∀ call : Call, call.receiver = r → call.name = .methodMissing →
  call.place s = ⟨(s.chainFor r .methodMissing).1, i⟩ → call.Goes lost P

theorem halts_exhausted {n : Symbol} {args : List Value}
    (hdescribe : (describe r).Halts (Machine.Supers lost) (World.Like code s D))
    (hreport : s.hasOwnHandler r = true → (reportMissing r n args).Halts (Machine.Supers lost)
      (World.Like code s D)) :
    (exhausted r n args).Halts (Machine.Supers lost) (World.Like code s D) := by
  refine ⟨fun w hw => ?_⟩
  rw [exhausted_eq, hw.steadfast.hasOwnHandler]
  split
  · rename_i hown
    exact (hreport hown).run w hw
  · exact (hdescribe.map _).run w hw

namespace Grounded

variable (h : Grounded code s lost r)
  (hdescribe : (describe r).Halts (Machine.Supers lost) (World.Like code s D))
include h hdescribe

theorem handlersGo_succ {i : ℕ} (hi : i + 1 < (s.chainFor r .methodMissing).1.length)
    (hbelow : (∃ x, (s.chainFor r .methodMissing).1[i]? = some x ∧ x.Calm code) ∨
      HandlersGo lost (World.Like code s D) s r i) :
    HandlersGo lost (World.Like code s D) s r (i + 1) := by
  rintro call rfl hname hplace
  obtain ⟨x, hx⟩ : ∃ x, (s.chainFor call.receiver .methodMissing).1[i]? = some x :=
    ⟨_, List.getElem?_eq_getElem (Nat.lt_of_succ_lt hi)⟩
  refine goes_below hplace hx fun args => ?_
  refine Invocation.finishes_method h.meek hdescribe (fun hstub => ?_) fun hcalm => ?_
  · have hmem : x ∈ (s.chainFor call.receiver .methodMissing).1.dropLast := by
      refine List.mem_of_getElem? (i := i) ?_
      rw [List.getElem?_dropLast, if_pos (by omega), hx]
    rw [h.real x (List.mem_append_left _ hmem)] at hstub
    cases hstub
  · rcases hbelow with ⟨y, hy, hycalm⟩ | hgo
    · obtain rfl := Option.some.inj (hx.symm.trans hy)
      exact absurd hycalm hcalm
    · exact hgo _ rfl hname rfl

/-- From one that makes no super call, or from a place they go from, up the chain of the handlers. -/
theorem handlersGo {q i : ℕ} (hi : i < (s.chainFor r .methodMissing).1.length) (hqi : q < i)
    (hq : (∃ x, (s.chainFor r .methodMissing).1[q]? = some x ∧ x.Calm code) ∨
      HandlersGo lost (World.Like code s D) s r q) :
    HandlersGo lost (World.Like code s D) s r i := by
  induction i, hqi using Nat.le_induction with
  | base => exact h.handlersGo_succ hdescribe hi hq
  | succ i hqi ih =>
    exact h.handlersGo_succ hdescribe hi (.inr (ih (Nat.lt_of_succ_lt hi)))

theorem handlersGo_zero
    (hlost : ∀ call image, call.receiver = r → call.PassedBack image → lost call image) :
    HandlersGo lost (World.Like code s D) s r 0 := by
  rintro call rfl hname hplace
  have hlowest : (call.place s).below? = none := by rw [hplace]; rfl
  by_cases hown : s.hasOwnHandler call.receiver = true
  · refine fun w hw => .inl (hlost call _ rfl ⟨hname, ?_, ?_⟩)
    · rw [place_steadfast hw.steadfast]
      exact hlowest
    · rw [hw.steadfast.hasOwnHandler]
      exact hown
  · exact goes_lowest hlowest fun args => halts_exhausted hdescribe fun hown' => absurd hown' hown

theorem handlersGo_top (hcalm : ¬ (s.missingSlot r).method.Calm code) :
    HandlersGo lost (World.Like code s D) s r ((s.chainFor r .methodMissing).1.length - 1) := by
  rcases h.bottom with ⟨x, hx, hxcalm⟩ | hlost
  -- The calm handler stands in the chain below the top, for this one is not calm.
  · rcases List.mem_append.1 hx with hx | hx
    · obtain ⟨q, hq⟩ := List.mem_iff_getElem?.1 hx
      rw [List.getElem?_dropLast] at hq
      split at hq
      · rename_i hlt
        exact h.handlersGo hdescribe (by omega) hlt (.inl ⟨x, hq, hxcalm⟩)
      · cases hq
    · exact absurd (List.mem_singleton.1 hx ▸ hxcalm) hcalm
  · have hzero := h.handlersGo_zero hdescribe hlost
    rcases Nat.eq_zero_or_pos ((s.chainFor r .methodMissing).1.length - 1) with htop | htop
    · rw [htop]
      exact hzero
    · exact h.handlersGo hdescribe (by omega) htop (.inr hzero)

theorem halts_reportMissing (n : Symbol) (args : List Value) :
    (reportMissing r n args).Halts (Machine.Supers lost) (World.Like code s D) := by
  refine ⟨fun w hw => ?_⟩
  have hreport : reportMissing r n args w = enter r .methodMissing (s.missingSlot r)
      [.str (w.image.text n), .list args] w := by
    rw [← hw.steadfast.missingSlot]
    rfl
  rw [hreport]
  refine (halts_enter ?_).run w hw
  rintro call rfl hname hplace
  refine Invocation.finishes_method h.meek hdescribe (fun hstub => ?_) fun hcalm => ?_
  · rw [h.real _ (List.mem_append_right _ (List.mem_singleton_self _))] at hstub
    cases hstub
  · exact h.handlersGo_top hdescribe hcalm call rfl hname hplace

theorem goes {call : Call} (hr : call.receiver = r) : call.Goes lost (World.Like code s D) := by
  subst hr
  have hexhausted (args : List Value) : (exhausted call.receiver call.name args).Halts
      (Machine.Supers lost) (World.Like code s D) :=
    halts_exhausted hdescribe fun _ => h.halts_reportMissing hdescribe ..
  obtain ⟨C, i, hplace⟩ : ∃ C i, call.place s = ⟨C, i⟩ := ⟨_, _, rfl⟩
  -- Each super call goes one place down the chain that the frame was entered with.
  induction i generalizing call with
  | zero => exact goes_lowest (by rw [hplace]; rfl) hexhausted
  | succ i ih =>
    cases hx : C[i]? with
    | none => exact goes_lowest (by rw [hplace]; simp [Cursor.below?, hx]) hexhausted
    | some x =>
      refine goes_below hplace hx fun args => ?_
      exact Invocation.finishes_method h.meek hdescribe
        (fun _ n => h.halts_reportMissing hdescribe n args) fun _ => ih h hdescribe hexhausted rfl

theorem halts_slot (n : Symbol) (slot : Slot) (args : List Value) :
    (enter r n slot args).Halts (Machine.Supers lost) (World.Like code s D) := by
  refine halts_enter ?_
  rintro call rfl - -
  exact Invocation.finishes_method h.meek hdescribe
    (fun _ n => h.halts_reportMissing hdescribe n call.args) fun _ => h.goes hdescribe rfl

end Grounded

/-- Describing the receiver asks it for its `inspect`, and in that is not asked again. -/
theorem Grounded.halts_describe (h : Grounded code s lost r) :
    (describe r).Halts (Machine.Supers lost) (World.Like code s D) := by
  have hknown {D : List Receiver} (hr : r ∈ D) :
      (describe r).Halts (Machine.Supers lost) (World.Like code s D) := by
    refine ⟨fun w hw => ?_⟩
    rw [describe_of_mem (hw.describing.symm ▸ hr)]
    exact hw
  by_cases hr : r ∈ D
  · exact hknown hr
  · refine ⟨fun w hw => ?_⟩
    rw [describe_of_not_mem (hw.describing.symm ▸ hr), hw.describing]
    have hw' := hw.describe (r :: D)
    obtain ⟨slot, hslot⟩ := h.inspects
    -- The receiver is known to whatever its `inspect` runs, so no description is asked for again.
    refine Run.Halts.bind (P := World.Like code s (r :: D)) ?_ fun reply w'' hw'' => ?_
    · show (send r .inspect [] _).Halts _ _
      rw [send_of_slot ((hw'.steadfast.slot r .inspect).trans hslot)]
      exact (h.halts_slot (hknown List.mem_cons_self) ..).run _ hw'
    · have hend := Image.endDescribing_of_head hw''.describing
      have hlike : World.Like code s D { w'' with image := w''.image.endDescribing r } :=
        ⟨hw''.code, hw''.steadfast.trans (Image.steadfast_describing ..), hend⟩
      unfold shown
      show Run.Halts _ _ (Run.bind (.finished () { w'' with image := w''.image.endDescribing r }) _)
      refine Run.Halts.bind (P := World.Like code s D) hlike fun _ w' hw' => ?_
      split <;> exact hw'

theorem Grounded.halts_send {n : Symbol} {w : World ω}
    (h : Grounded w.code (w.image.prepare r n) lost r) (args : List Value) :
    (send r n args w).Halts (Machine.Supers lost)
      (World.Like w.code (w.image.prepare r n) w.image.describing) := by
  have hw : World.Like w.code (w.image.prepare r n) w.image.describing
      { w with image := w.image.prepare r n } := ⟨rfl, .refl _, Image.describing_prepare r n⟩
  rw [send_eq]
  cases (w.image.prepare r n).slot? r n with
  | some slot => exact (h.halts_slot h.halts_describe n slot args).run _ hw
  | none => exact (h.halts_reportMissing h.halts_describe n args).run _ hw

end Sends

end Mixin
