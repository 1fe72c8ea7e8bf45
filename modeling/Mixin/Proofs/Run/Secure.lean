import Mixin.Proofs.Image.Covered
import Mixin.Proofs.Run.Dispatch

/-! Operations on whatever they are given. Callers leave the gate alone; they may name modules that
have been removed, and objects that have been released or given away again, and other code may do so
while an operation waits. All that an operation relies on is that classes and objects keep their
places. -/

namespace Mixin

/-- Callers leave the gate alone, and perhaps defer nothing either. -/
def Manners.discreet (prompt : Bool) : Manners := { prompt, offGate := true }

namespace Image

variable {s s' s'' : Image} {p : Bool}

structure Secure (p : Bool) (s : Image) : Prop where
  moored : s.Moored
  gated : s.Gated
  covered : p = true → s.Covered

/-- The image stays secure and loses no record. -/
structure Fares (p : Bool) (s s' : Image) : Prop where
  secure : s'.Secure p
  later : Later s s'

theorem Fares.refl (h : s.Secure p) : Fares p s s := ⟨h, .refl s⟩

theorem Fares.trans (h : Fares p s s') (h' : Fares p s' s'') : Fares p s s'' :=
  ⟨h'.secure, h.later.trans h'.later⟩

theorem fares_edit (h : s.Secure p) {e : Edit} (ha : e.Allowed (.discreet p))
    (hf : e.Feasible s) : Fares p s (e.apply s) where
  secure := {
    moored := Edit.moored h.moored hf
    gated := Edit.gated rfl h.moored ha h.gated
    covered := fun hp => Edit.covered rfl hp h.moored h.gated ha hf (h.covered hp) }
  later := Edit.later s e

theorem fares_intern (h : s.Secure p) (text : String) : Fares p s (s.intern text).2 :=
  fares_edit (e := .intern text) h trivial trivial

theorem fares_prepare (h : s.Secure p) (r : Receiver) (name : Symbol) :
    Fares p s (s.prepare r name) := by
  unfold prepare
  split
  · exact .refl h
  · exact fares_edit (e := .watchNow name) h trivial trivial

theorem fares_chainFor (h : s.Secure p) (r : Receiver) (name : Symbol) :
    Fares p s (s.chainFor r name).2 :=
  fares_edit (e := .remember r name) h trivial trivial

theorem fares_beginDescribing (h : s.Secure p) (r : Receiver) :
    Fares p s (s.beginDescribing r).2 := by
  unfold beginDescribing
  split
  · exact .refl h
  · exact fares_edit (e := .setDescribing (r :: s.describing)) h trivial trivial

theorem fares_endDescribing (h : s.Secure p) (r : Receiver) : Fares p s (s.endDescribing r) :=
  fares_edit (e := .setDescribing (s.describing.erase r)) h trivial trivial

theorem fares_define (h : s.Secure p) {owner : ModuleId} (hg : owner ≠ .gate) (name : Symbol)
    (m : Method) {resolving : Bool} (hp : p = true → resolving = true) :
    Fares p s (s.define owner name m resolving) :=
  fares_edit (e := .define owner name m resolving) h ⟨hp, fun _ => hg, nofun⟩ trivial

theorem fares_link (h : s.Secure p) {owner : ModuleId} (hg : owner ≠ .gate) (other : ModuleId)
    {resolving : Bool} (hp : p = true → resolving = true) :
    Fares p s (s.link owner other resolving) :=
  fares_edit (e := .link owner other resolving) h ⟨hp, fun _ => hg⟩ trivial

theorem Moored.hasRecord_backed (h : s.Moored) (m : ModuleId) :
    s.HasRecord (s.backed m) := by
  unfold backed
  split
  · rename_i c ht
    exact h.hasTable m _ ht
  · rename_i r ht
    exact h.hasTable m _ ht
  all_goals trivial

theorem holder_materialize {r : Receiver} (hr : s.HasRecord r) (parent : ModuleId) :
    (s.materialize r parent).2.holder? (.singleton r) = some (s.materialize r parent).1 := by
  have htwin := Twin.of_link (s.addEigenclass r).2 (s.addEigenclass r).1 parent true
  have hholder := holder_addEigenclass hr (.singleton r)
  rw [if_pos rfl] at hholder
  rw [materialize_eq]
  dsimp only
  rw [holder_congr htwin.eigenclass htwin.instanceModule htwin.classes]
  exact hholder

theorem fares_materialize (h : s.Secure p) {r : Receiver} (hr : s.HasRecord r) {parent : ModuleId}
    (hp : s.graph.Anchored parent ∧ ¬ s.graph.Personal parent) :
    Fares p s (s.materialize r parent).2 :=
  fares_edit (e := .materialize r parent) h trivial ⟨hr, hp⟩

theorem Moored.live_superclassLine (h : s.Moored) (budget : Nat) {c : ClassId}
    (hc : s.LiveClass c) : ∀ d ∈ s.superclassLine budget c, s.LiveClass d := by
  induction budget generalizing c with
  | zero => simp [superclassLine]
  | succ budget ih =>
    intro d hd
    rcases List.mem_cons.1 hd with rfl | hd
    · exact hc
    · cases hsuper : s.superclass c with
      | none => simp [hsuper] at hd
      | some above =>
        rw [hsuper] at hd
        exact ih (h.superclass_live c above hsuper) d hd

/-- Eigenclasses are made from the far end of the line on, each for a class that is there. -/
theorem fares_classEigenclass (h : s.Secure p) (line : List ClassId)
    (hline : ∀ c ∈ line, s.LiveClass c) : Fares p s (s.classEigenclass line).2 ∧
      ∃ t, (∀ o, t ≠ .singleton (.object o)) ∧
        (s.classEigenclass line).2.holder? t = some (s.classEigenclass line).1 := by
  induction line with
  | nil => exact ⟨.refl h, .classBase, by simp, rfl⟩
  | cons c above ih =>
    unfold classEigenclass
    cases he : s.eigenclass? (.class c) with
    | some m => exact ⟨.refl h, .singleton (.class c), by simp, he⟩
    | none =>
      obtain ⟨habove, t, ht, hholder⟩ := ih fun d hd => hline d (List.mem_cons_of_mem _ hd)
      have hc : (s.classEigenclass above).2.HasRecord (.class c) :=
        habove.later.hasRecord (hline c List.mem_cons_self)
      have hlasts := habove.secure.moored.lasts_of_holder hholder ht
      exact ⟨habove.trans (fares_materialize habove.secure hc hlasts), .singleton (.class c),
        by simp, holder_materialize hc _⟩

theorem fares_eigenclass (h : s.Secure p) {r : Receiver} (hr : s.HasRecord r) :
    Fares p s (s.eigenclass r).2 ∧ (s.eigenclass r).1 ≠ .gate := by
  have hheld : ∀ {s' : Image} {t : Target} {m : ModuleId}, Fares p s s' → s'.holder? t = some m →
      Fares p s s' ∧ m ≠ .gate := fun hf hm => ⟨hf, hf.secure.moored.ne_gate_of_holder hm⟩
  cases r with
  | object o =>
    unfold eigenclass
    cases he : s.eigenclass? (.object o) with
    | some m => exact hheld (t := .singleton (.object o)) (.refl h) he
    | none =>
      have hlasts := h.moored.lasts_instanceModule (h.moored.classOf_live o hr)
      exact hheld (fares_materialize h hr hlasts) (holder_materialize hr _)
  | «class» c =>
    have hline := h.moored.live_superclassLine s.classes.size hr
    obtain ⟨hf, t, -, hholder⟩ := fares_classEigenclass h (s.lineOf c) hline
    exact hheld hf hholder
  | module m =>
    unfold eigenclass
    cases he : s.eigenclass? (.module m) with
    | some a => exact hheld (t := .singleton (.module m)) (.refl h) he
    | none =>
      have hlasts := h.moored.lasts_of_holder (t := .moduleBase) rfl (by simp)
      exact hheld (fares_materialize h hr hlasts) (holder_materialize hr _)

theorem fares_defineModule (h : s.Secure p) (name : String) :
    Fares p s (s.defineModule name).2 := by
  have hintern := fares_intern h name
  exact hintern.trans (fares_edit (e := .addModule (s.intern name).1) hintern.secure trivial trivial)

theorem fares_defineClass (h : s.Secure p) (name : String) {above : Option ClassId}
    (hc : ∀ c, above = some c → s.LiveClass c) : Fares p s (s.defineClass name above).2 := by
  have hintern := fares_intern h name
  have hf : (Edit.makeClass (s.intern name).1 above).Feasible (s.intern name).2 := hc
  have hmake := fares_edit (e := .makeClass _ above) hintern.secure trivial hf
  rw [defineClass_eq]
  dsimp only
  exact hintern.trans hmake

theorem fares_defineInstanceMethod (h : s.Secure p) {c : ClassId} (hc : s.LiveClass c)
    (name : String) (m : Method) : Fares p s (s.defineInstanceMethod c name m) := by
  have hintern := fares_intern h name
  have hholder : (s.intern name).2.holder? (.prototype c) = some (s.instanceModule c) := if_pos hc
  have hgate := hintern.secure.moored.ne_gate_of_holder hholder
  exact hintern.trans (fares_define hintern.secure hgate _ m fun _ => rfl)

theorem fares_defineClassMethod (h : s.Secure p) {c : ClassId} (hc : s.LiveClass c)
    (name : String) (m : Method) : Fares p s (s.defineClassMethod c name m) := by
  have hintern := fares_intern h name
  have hrecord : (s.intern name).2.HasRecord (.class c) := hc
  obtain ⟨heigen, hgate⟩ := fares_eigenclass hintern.secure hrecord
  exact (hintern.trans heigen).trans (fares_define heigen.secure hgate _ m fun _ => rfl)

theorem fares_setField (h : s.Secure p) (o : ObjectId) (name : String) (v : Value) :
    Fares p s (s.setField o name v) := by
  have hintern := fares_intern h name
  exact hintern.trans (fares_edit (e := .store o (s.intern name).1 v) hintern.secure trivial trivial)

end Image

namespace Run

open Image

variable {ω α β : Type} {p : Bool}

/-- Every stretch of a run leaves the image secure, whatever the replies are and whatever is done
meanwhile. -/
def Guards (p : Bool) (Q : α → Image → Prop) : Image → Run ω α → Prop
  | s, finished a w => Fares p s w.image ∧ Q a w.image
  | s, calling _ w resume => Fares p s w.image ∧
      ∀ reply (w' : World ω), Fares p w.image w'.image → Guards p Q w'.image (resume reply w')

theorem Guards.after {Q : α → Image → Prop} {s s' : Image} {x : Run ω α} (h : Fares p s s')
    (hx : x.Guards p Q s') : x.Guards p Q s := by
  cases x with
  | finished a w => exact ⟨h.trans hx.1, hx.2⟩
  | calling i w resume => exact ⟨h.trans hx.1, hx.2⟩

theorem Guards.bind {Q : α → Image → Prop} {R : β → Image → Prop} {s : Image} {x : Run ω α}
    {f : α → World ω → Run ω β} (hx : x.Guards p Q s)
    (hf : ∀ a (w : World ω), Fares p s w.image → Q a w.image → (f a w).Guards p R w.image) :
    (x.bind f).Guards p R s := by
  induction x generalizing s with
  | finished a w => exact .after hx.1 (hf a w hx.1 hx.2)
  | calling i w resume ih =>
    refine ⟨hx.1, fun reply w' hw' => ih reply w' (hx.2 reply w' hw') fun a w'' hw'' hQ => ?_⟩
    exact hf a w'' ((hx.1.trans hw').trans hw'') hQ

end Run

namespace Effect

open Image

variable {ω α β : Type} {p : Bool} {w : World ω}

def Guards (p : Bool) (Q : α → Image → Prop) (w : World ω) (x : Effect ω α) : Prop :=
  (x w).Guards p Q w.image

theorem Guards.bind {Q : α → Image → Prop} {R : β → Image → Prop} {x : Effect ω α}
    {f : α → Effect ω β} (hx : Guards p Q w x)
    (hf : ∀ a (w' : World ω), Fares p w.image w'.image → Q a w'.image → Guards p R w' (f a)) :
    Guards p R w (x >>= f) := Run.Guards.bind hx hf

section Secure

variable (hs : w.image.Secure p)
include hs

theorem guards_pure {Q : α → Image → Prop} {a : α} (h : Q a w.image) : Guards p Q w (pure a) :=
  ⟨.refl hs, h⟩

theorem guards_read {Q : α → Image → Prop} {f : Image → α} (h : Q (f w.image) w.image) :
    Guards p Q w (read f) := ⟨.refl hs, h⟩

omit hs in
theorem Guards.attempt {x : Effect ω (Except Fault α)} {f : α → Effect ω (Except Fault β)}
    (hx : Guards p (fun _ _ => True) w x)
    (hf : ∀ a (w' : World ω), Fares p w.image w'.image → Guards p (fun _ _ => True) w' (f a)) :
    Guards p (fun _ _ => True) w (x.attempt f) := by
  refine Guards.bind hx fun a w' hw' _ => ?_
  cases a with
  | ok a => exact hf a w' hw'
  | error e => exact guards_pure hw'.secure trivial

omit hs in
theorem guards_edit {Q : α → Image → Prop} {f : Image → α × Image}
    (hf : Fares p w.image (f w.image).2) (h : Q (f w.image).1 (f w.image).2) :
    Guards p Q w (edit f) := ⟨hf, h⟩

omit hs in
theorem guards_editing {f : Image → α × Image} (hf : Fares p w.image (f w.image).2) :
    Guards p (fun _ _ => True) w (edit f) := guards_edit hf trivial

omit hs in
theorem guards_change {f : Image → Image} (hf : Fares p w.image (f w.image)) :
    Guards p (fun _ _ => True) w (change f) := ⟨hf, trivial⟩

theorem guards_invoke (i : Invocation) : Guards p (fun _ _ => True) w (invoke i) :=
  ⟨.refl hs, fun _ _ hw => ⟨.refl hw.secure, trivial⟩⟩

theorem guards_enter (r : Receiver) (name : Symbol) (slot : Slot) (args : List Value) :
    Guards p (fun _ _ => True) w (enter r name slot args) := by
  cases slot with
  | direct m => exact guards_invoke hs _
  | chained m =>
    refine Guards.bind (guards_editing (fares_chainFor hs r name)) fun callees w' hw' _ => ?_
    exact guards_invoke hw'.secure _

theorem guards_reportMissing (r : Receiver) (name : Symbol) (args : List Value) :
    Guards p (fun _ _ => True) w (reportMissing r name args) := by
  refine Guards.bind (Q := fun _ _ => True) (guards_read hs trivial) fun text w₁ h₁ _ => ?_
  refine Guards.bind (Q := fun _ _ => True) (guards_read h₁.secure trivial) fun slot w₂ h₂ _ => ?_
  exact guards_enter h₂.secure _ _ _ _

theorem guards_send (r : Receiver) (name : Symbol) (args : List Value) :
    Guards p (fun _ _ => True) w (send r name args) := by
  refine Guards.bind (guards_change (fares_prepare hs r name)) fun _ w₁ h₁ _ => ?_
  refine Guards.bind (Q := fun _ _ => True) (guards_read h₁.secure trivial) fun slot w₂ h₂ _ => ?_
  cases slot with
  | some slot => exact guards_enter h₂.secure _ _ _ _
  | none => exact guards_reportMissing h₂.secure _ _ _

theorem guards_describe (r : Receiver) : Guards p (fun _ _ => True) w (describe r) := by
  refine Guards.bind (guards_editing (fares_beginDescribing hs r)) fun first w₁ h₁ _ => ?_
  split
  · refine Guards.bind (guards_send h₁.secure _ _ _) fun reply w₂ h₂ _ => ?_
    refine Guards.bind (guards_change (fares_endDescribing h₂.secure r)) fun _ w₃ h₃ _ => ?_
    split
    · exact guards_pure h₃.secure trivial
    · exact guards_read h₃.secure trivial
  · exact guards_read h₁.secure trivial

theorem guards_exhausted (r : Receiver) (name : Symbol) (args : List Value) :
    Guards p (fun _ _ => True) w (exhausted r name args) := by
  refine Guards.bind (Q := fun _ _ => True) (guards_read hs trivial) fun own w₁ h₁ _ => ?_
  cases own with
  | true => exact guards_reportMissing h₁.secure _ _ _
  | false =>
    refine Guards.bind (Q := fun _ _ => True) (guards_read h₁.secure trivial) fun text w₂ h₂ _ => ?_
    exact Guards.bind (guards_describe h₂.secure r) fun who w₃ h₃ _ => guards_pure h₃.secure trivial

theorem guards_below (call : Call) (cursor : Cursor) (args : List Value) :
    Guards p (fun _ _ => True) w
      (match cursor.below? with
      | some (m, cursor) => invoke (.method m { call with args, cursor := some cursor })
      | none => exhausted call.receiver call.name args) := by
  cases cursor.below? with
  | some below => exact guards_invoke hs _
  | none => exact guards_exhausted hs _ _ _

theorem guards_next (call : Call) (overrides : List Value) :
    Guards p (fun _ _ => True) w (next call overrides) := by
  unfold next
  dsimp only
  split
  · exact Guards.bind (Q := fun _ _ => True) (guards_pure hs trivial)
      fun cursor w' h' _ => guards_below h'.secure call cursor _
  · refine Guards.bind (Q := fun _ _ => True) (Guards.bind (Q := fun _ _ => True) ?_ ?_)
      fun cursor w' h' _ => guards_below h'.secure call cursor _
    · exact guards_editing (fares_chainFor hs _ _)
    · exact fun callees w' h' _ => guards_pure h'.secure trivial

theorem guards_bindMethod (r : Receiver) (name : Symbol) :
    Guards p (fun _ _ => True) w (bindMethod r name) := by
  refine Guards.bind (Q := fun _ _ => True) (guards_read hs trivial) fun slot w₁ h₁ _ => ?_
  cases slot with
  | some slot => exact guards_pure h₁.secure trivial
  | none =>
    refine Guards.bind (Q := fun _ _ => True) (guards_read h₁.secure trivial) fun text w₂ h₂ _ => ?_
    exact Guards.bind (guards_describe h₂.secure r) fun who w₃ h₃ _ => guards_pure h₃.secure trivial

theorem guards_native (call : Call) (n : Native) :
    Guards p (fun _ _ => True) w (n.act call) := by
  cases n with
  | methodMissing =>
    unfold Native.act
    dsimp only
    split
    · exact Guards.bind (guards_describe hs _) fun _ _ h _ => guards_pure h.secure trivial
    · exact guards_pure hs trivial
  | inspect =>
    exact Guards.bind (Q := fun _ _ => True) (guards_read hs trivial) fun _ _ h _ =>
      guards_pure h.secure trivial
  | respondTo =>
    unfold Native.act
    dsimp only
    split
    · refine Guards.bind (guards_editing (fares_intern hs _)) fun name w₁ h₁ _ => ?_
      exact Guards.bind (Q := fun _ _ => True) (guards_read h₁.secure trivial) fun _ _ h _ =>
        guards_pure h.secure trivial
    · exact guards_pure hs trivial
    · exact guards_pure hs trivial
  | isA =>
    unfold Native.act
    dsimp only
    split
    · split
      · exact Guards.bind (Q := fun _ _ => True) (guards_read hs trivial) fun _ _ h _ =>
          guards_pure h.secure trivial
      · exact guards_pure hs trivial
    · exact guards_pure hs trivial

theorem guards_start (i : Invocation) : Guards p (fun _ _ => True) w i.start := by
  cases i with
  | method m call =>
    unfold Invocation.start
    dsimp only
    split
    · exact Guards.bind (guards_native hs call _) fun _ _ h _ => guards_pure h.secure trivial
    · exact Guards.bind (guards_reportMissing hs _ _ _) fun _ _ h _ => guards_pure h.secure trivial
    · exact ⟨.refl hs, trivial⟩
  | hook h v => exact ⟨.refl hs, trivial⟩
  | observer o name v => exact ⟨.refl hs, trivial⟩

end Secure

end Effect

def Place.Clear (p : Bool) (s : Image) : Place → Prop
  | .into owner options => (p = true → options.resolving = true) ∧ owner ≠ .gate
  | .onto r => s.HasRecord r

theorem Place.Clear.later {p : Bool} {place : Place} {s s' : Image} (h : place.Clear p s)
    (hl : Image.Later s s') : place.Clear p s' := by
  cases place with
  | into owner options => exact h
  | onto r => exact hl.hasRecord h

namespace Effect

open Image

variable {ω : Type} {p : Bool} {w : World ω}

theorem guards_taker (hs : w.image.Secure p) {place : Place} (hplace : place.Clear p w.image) :
    Guards p (fun taken s => Place.Clear p s (.into taken.1 taken.2)) w (edit (·.taker place)) := by
  cases place with
  | into owner options => exact ⟨.refl hs, hplace⟩
  | onto r =>
    obtain ⟨hf, hgate⟩ := fares_eigenclass hs hplace
    exact ⟨hf, fun _ => rfl, hgate⟩

section Secure

variable (hs : w.image.Secure p)
include hs

theorem guards_notifyAdded (name : Symbol) (v : Value) (observers : List ObserverId) :
    Guards p (fun _ _ => True) w (notifyAdded name v observers) := by
  induction observers generalizing w with
  | nil => exact guards_pure hs trivial
  | cons o rest ih => exact Guards.bind (guards_invoke hs _) fun _ w' h' _ => ih h'.secure

theorem guards_defineAll {owner : ModuleId} {resolving : Bool} (hg : owner ≠ .gate)
    (hp : p = true → resolving = true) (notify : Value) (entries : List (String × Method)) :
    Guards p (fun _ _ => True) w (defineAll owner notify resolving entries) := by
  induction entries generalizing w with
  | nil => exact guards_pure hs trivial
  | cons entry rest ih =>
    obtain ⟨key, m⟩ := entry
    refine Guards.bind (guards_editing (fares_intern hs key)) fun name w₁ h₁ _ => ?_
    refine Guards.bind (guards_change (fares_define h₁.secure hg name m hp)) fun _ w₂ h₂ _ => ?_
    refine Guards.bind (Q := fun _ _ => True) (guards_read h₂.secure trivial) ?_
    intro observers w₃ h₃ _
    exact Guards.bind (guards_notifyAdded h₃.secure name notify observers) fun _ w₄ h₄ _ =>
      ih h₄.secure

theorem guards_runHook (h : Option HookId) (v : Value) :
    Guards p (fun _ _ => True) w (runHook h v) := by
  unfold runHook
  split
  · exact Guards.bind (guards_invoke hs _) fun _ _ h _ => guards_pure h.secure trivial
  · exact guards_pure hs trivial

end Secure

mutual

theorem guards_put (source : Source) (place : Place) (w : World ω) (hs : w.image.Secure p)
    (hplace : place.Clear p w.image) : Guards p (fun _ _ => True) w (put source place) := by
  match source with
  | .module other =>
    rw [put]
    refine Guards.bind (guards_taker hs hplace) fun taken w₁ h₁ ht => ?_
    refine Guards.bind (guards_change (fares_link h₁.secure ht.2 other ht.1)) fun _ w₂ h₂ _ => ?_
    refine Guards.bind (Q := fun _ _ => True) (guards_read h₂.secure trivial) fun hook w₃ h₃ _ => ?_
    refine Guards.bind (Q := fun _ _ => True) (guards_read h₃.secure trivial) fun v w₄ h₄ _ => ?_
    exact Guards.bind (guards_runHook h₄.secure hook v) fun _ _ h _ => guards_pure h.secure trivial
  | .record methods mixins extensions =>
    rw [put]
    refine Guards.bind (guards_taker hs hplace) fun taken w₁ h₁ ht => ?_
    refine Guards.attempt (guards_putAll mixins (.into taken.1 taken.2) w₁ h₁.secure ht) ?_
    intro _ w₂ h₂
    have hbacked := h₂.secure.moored.hasRecord_backed taken.1
    refine Guards.bind (Q := fun r s => s.HasRecord r) (guards_read h₂.secure hbacked)
      fun r w₃ h₃ hr => ?_
    refine Guards.attempt (guards_putAll extensions (.onto r) w₃ h₃.secure hr) fun _ w₄ h₄ => ?_
    refine Guards.bind (Q := fun _ _ => True) (guards_read h₄.secure trivial) fun v w₅ h₅ _ => ?_
    exact Guards.bind (guards_defineAll h₅.secure ht.2 ht.1 v methods) fun _ _ h _ =>
      guards_pure h.secure trivial

theorem guards_putAll (sources : List Source) (place : Place) (w : World ω)
    (hs : w.image.Secure p) (hplace : place.Clear p w.image) :
    Guards p (fun _ _ => True) w (putAll sources place) := by
  match sources with
  | [] => exact guards_pure hs trivial
  | source :: rest =>
    rw [putAll]
    refine Guards.attempt (guards_put source place w hs hplace) fun _ w' h' => ?_
    exact guards_putAll rest place w' h'.secure (hplace.later h'.later)

end

section Secure

variable (hs : w.image.Secure p)
include hs

theorem guards_instantiate {c : ClassId} (hc : w.image.LiveClass c) (args : List Value) :
    Guards p (fun _ _ => True) w (instantiate c args) := by
  have hmake : Fares p w.image (w.image.allocate c).2 :=
    fares_edit (e := .allocate c) hs trivial hc
  refine Guards.bind (guards_editing hmake) fun o w₁ h₁ _ => ?_
  refine Guards.bind (Q := fun _ _ => True) (guards_read h₁.secure trivial) fun b w₂ h₂ _ => ?_
  split
  · exact Guards.attempt (guards_send h₂.secure _ _ _) fun _ _ h => guards_pure h.secure trivial
  · exact guards_pure h₂.secure trivial

theorem guards_defineUnique {owner : ModuleId} (hg : owner ≠ .gate) (name : Symbol) (m : Method) :
    Guards p (fun _ _ => True) w (defineUnique owner name m) := by
  refine Guards.bind (Q := fun _ _ => True) (guards_read hs trivial) fun b w₁ h₁ _ => ?_
  split
  · exact Guards.bind (Q := fun _ _ => True) (guards_read h₁.secure trivial) fun _ _ h _ =>
      guards_pure h.secure trivial
  · exact Guards.bind (guards_change (fares_define h₁.secure hg name m fun _ => rfl)) fun _ _ h _ =>
      guards_pure h.secure trivial

/-- Every operation leaves the image secure, whatever has become of the modules and objects that it
is asked to work on. -/
theorem guards_act {k : Manners} (hk : k.offGate = true) (hp : p = k.prompt) {op : Op}
    (ha : op.Allowed k) (hr : ∀ r ∈ op.subjects, w.image.HasRecord r) :
    Guards p (fun _ _ => True) w op.act := by
  cases op with
  | intern text =>
    unfold Op.act
    apply guards_editing
    exact fares_intern hs text
  | defineModule name =>
    unfold Op.act
    apply guards_editing
    exact fares_defineModule hs name
  | define owner name m =>
    unfold Op.act
    apply guards_change
    exact fares_define hs (ha.1 hk) name m fun _ => rfl
  | defineUnique owner name m => exact guards_defineUnique hs (ha.1 hk) name m
  | mixIn owner source options =>
    have hclear : Place.Clear p w.image (.into owner options) := ⟨fun h => ha.1 (hp ▸ h), ha.2.1 hk⟩
    exact Guards.attempt (guards_put source _ w hs hclear) fun _ _ h => guards_pure h.secure trivial
  | extend r source =>
    have hclear : Place.Clear p w.image (.onto r) := hr r List.mem_cons_self
    exact Guards.attempt (guards_put source _ w hs hclear) fun _ _ h => guards_pure h.secure trivial
  | eigenclass r =>
    unfold Op.act
    apply guards_editing
    exact (fares_eigenclass hs (hr r List.mem_cons_self)).1
  | resolve m =>
    unfold Op.act
    apply guards_change
    exact fares_edit (e := .resolve m) hs trivial trivial
  | defineClass name superclass =>
    unfold Op.act
    apply guards_editing
    refine fares_defineClass hs name fun c hc => ?_
    exact hr (.class c) (by simp [Op.subjects, hc])
  | defineInstanceMethod c name m =>
    unfold Op.act
    apply guards_change
    exact fares_defineInstanceMethod hs (hr (.class c) List.mem_cons_self) name m
  | defineClassMethod c name m =>
    unfold Op.act
    apply guards_change
    exact fares_defineClassMethod hs (hr (.class c) List.mem_cons_self) name m
  | instantiate c args => exact guards_instantiate hs (hr (.class c) List.mem_cons_self) args
  | release o =>
    unfold Op.act
    apply guards_change
    exact fares_edit (e := .release o) hs trivial (hr (.object o) List.mem_cons_self)
  | setField o name v =>
    unfold Op.act
    apply guards_change
    exact fares_setField hs o name v
  | send r name args => exact guards_send hs r name args
  | describe r => exact guards_describe hs r
  | next call args => exact guards_next hs call args
  | bind r name => exact guards_bindMethod hs r name
  | callBound b args => exact guards_enter hs _ _ _ _

end Secure

end Effect

end Mixin
