import Mixin.Proofs.Run.Spares
import Mixin.Proofs.Run.Steps

/-! What a field of an object reads. A log of the operations asked for, from the start on, determines it:
what was stored last in the object since it was made, by whatever code, and void if nothing was. Whoever
had the object's place before is of no account, and nor is anything else in the log. -/

namespace Mixin

open Image

/-- An operation asked for, and the image that it found. -/
structure Asked where
  op : Op
  image : Image

namespace Asked

def makes (a : Asked) : Option ObjectId :=
  match a.op with
  | .instantiate c _ => some (a.image.allocate c).1
  | _ => none

def stores? (a : Asked) (o : ObjectId) (f : String) : Option Value :=
  match a.op with
  | .setField o' f' v => if o' = o ∧ f' = f then some v else none
  | _ => none

end Asked

section OnObjects

variable {s : Image} {o : ObjectId} {op : Op}

theorem Op.keyed_onObjects (op : Op) (hk : s.Keyed) : (op.onObjects s).Keyed := by
  cases op with
  | instantiate c args => exact keyed_allocate c hk
  | release o => exact keyed_release hk o
  | setField o f v => exact keyed_setField o f v hk
  | _ => exact hk

theorem Op.live_onObjects (h : (op.onObjects s).LiveObject o) :
    Asked.makes ⟨op, s⟩ = some o ∨ s.LiveObject o := by
  cases op with
  | instantiate c args =>
    by_cases ho : o = (s.allocate c).1
    · exact .inl (congrArg some ho.symm)
    · exact .inr ((live_allocate_of_ne c ho).1 h)
  | release a => exact .inr (live_release h).2
  | setField a f v => exact .inr ((live_setField a f v).1 h)
  | _ => exact .inr h

/-- The object made by an operation has no field yet, and of the others those fields change that it
stores in. -/
theorem Op.field_onObjects (hk : s.Keyed) (h : (op.onObjects s).LiveObject o) (f : String) :
    (op.onObjects s).field o f = if Asked.makes ⟨op, s⟩ = some o then .void
      else (Asked.stores? ⟨op, s⟩ o f).getD (s.field o f) := by
  cases op with
  | instantiate c args =>
    by_cases ho : o = (s.allocate c).1
    · subst ho
      exact (field_allocate_self c h f).trans (if_pos rfl).symm
    · have hmakes : Asked.makes ⟨.instantiate c args, s⟩ ≠ some o := fun he =>
        ho (Option.some.inj he).symm
      rw [if_neg hmakes]
      exact field_allocate_of_ne c ho f
  | release a => exact field_release hk (live_release h).1 f
  | setField a f' v =>
    have hlive := (live_setField a f' v).1 h
    refine (field_setField a f' v hk hlive.1 f).trans ?_
    show _ = (if a = o ∧ f' = f then some v else none).getD (s.field o f)
    split <;> rfl
  | _ => rfl

end OnObjects

/-- The log tells when the object was made that is there now, and what its fields read: the value
stored last since then. The newest entries stand first. -/
def Recalls (log : List Asked) (s : Image) (o : ObjectId) : Prop :=
  ∃ since call before, log = since ++ call :: before ∧ call.makes = some o ∧
    (∀ a ∈ since, a.makes ≠ some o) ∧
    ∀ f, s.field o f = (since.findSome? fun a => a.stores? o f).getD .void

section Recalls

variable {log : List Asked} {s s' : Image} {o : ObjectId} {a : Asked}

theorem recalls_made (hmakes : a.makes = some o) (hfield : ∀ f, s.field o f = .void) :
    Recalls (a :: log) s o :=
  ⟨[], a, log, rfl, hmakes, fun _ hb => absurd hb List.not_mem_nil, hfield⟩

theorem Recalls.cons (h : Recalls log s o) (hmakes : a.makes ≠ some o)
    (hfield : ∀ f, s'.field o f = (a.stores? o f).getD (s.field o f)) :
    Recalls (a :: log) s' o := by
  obtain ⟨since, call, before, rfl, hcall, hsince, hread⟩ := h
  refine ⟨a :: since, call, before, rfl, hcall, fun b hb => ?_, fun f => ?_⟩
  · rcases List.mem_cons.1 hb with rfl | hb
    · exact hmakes
    · exact hsince b hb
  · rw [hfield, hread, List.findSome?_cons]
    cases a.stores? o f <;> rfl

theorem Recalls.spares (h : Recalls log s o) (hk : s.Keyed) (hspares : Spares s s') :
    Recalls log s' o := by
  obtain ⟨since, call, before, hlog, hcall, hsince, hread⟩ := h
  refine ⟨since, call, before, hlog, hcall, hsince, fun f => ?_⟩
  rw [hspares.field hk, hread]

theorem Op.recalls_onObjects {op : Op} (hk : s.Keyed) (h : ∀ o, s.LiveObject o → Recalls log s o)
    (ho : (op.onObjects s).LiveObject o) : Recalls (⟨op, s⟩ :: log) (op.onObjects s) o := by
  have hfield := Op.field_onObjects hk ho
  by_cases hmakes : Asked.makes ⟨op, s⟩ = some o
  · simp only [if_pos hmakes] at hfield
    exact recalls_made hmakes hfield
  · simp only [if_neg hmakes] at hfield
    exact (h o ((Op.live_onObjects ho).resolve_left hmakes)).cons hmakes hfield

end Recalls

namespace Machine

variable {ω : Type} {u : Setup} {m m' : Machine ω} {log : List Asked}

/-- The operation that the machine is about to begin. -/
def asks (m : Machine ω) : Option Asked :=
  match m.current with
  | .finished (.perform op _) w => some ⟨op, w.image⟩
  | _ => none

/-- The states that machines come to from the start, with the operations asked for on the way, newest
first. Nothing is asked of the callers. -/
inductive Recorded (u : Setup) : List Asked → Machine ω → Prop where
  | start (p : Program ω) (code : Code ω) (host : ω) :
      Recorded u [] (Machine.start p { image := u.boot, code, host })
  | step {log : List Asked} {m m' : Machine ω} : Recorded u log m → m.step = .inr m' →
      Recorded u (m.asks.toList ++ log) m'

theorem Started.recorded (h : m.Started u) : ∃ log, m.Recorded u log := by
  refine h.invariant (I := fun m => ∃ log, m.Recorded u log)
    (fun p code host => ⟨[], .start p code host⟩) ?_
  rintro m m' ⟨log, hlog⟩ hstep
  exact ⟨_, hlog.step hstep⟩

/-- Whatever is under way spares the objects from now on. -/
structure Sparing (m : Machine ω) : Prop where
  waiting : ∀ q ∈ m.waiting, ∀ reply (w : World ω), (q.resume reply w).Spares w.image
  current : ∀ i w resume, m.current = .calling i w resume →
    ∀ reply (w' : World ω), (resume reply w').Spares w'.image

theorem sparing_of_spares {s : Image} {x : Run ω (Program ω)} (op : Option Op)
    {waiting : List (Pending ω)}
    (hw : ∀ q ∈ waiting, ∀ reply (w : World ω), (q.resume reply w).Spares w.image)
    (hx : x.Spares s) : Sparing { current := x, op, waiting } ∧
      Spares s (Machine.world { current := x, op, waiting }).image := by
  cases x with
  | finished a w =>
    refine ⟨⟨hw, ?_⟩, hx⟩
    rintro i w' resume he
    cases he
  | calling i w resume =>
    refine ⟨⟨hw, ?_⟩, hx.1⟩
    rintro i' w' resume' he
    cases he
    exact hx.2

/-- What a step does to objects is what the operation does that it begins, if it begins one. -/
theorem Sparing.step (h : m.Sparing) (hstep : m.step = .inr m') : m'.Sparing ∧
    (m.asks = none ∧ Spares m.world.image m'.world.image ∨
      ∃ op, m.asks = some ⟨op, m.world.image⟩ ∧
        Spares (op.onObjects m.world.image) m'.world.image) := by
  obtain ⟨current, op, waiting⟩ := m
  obtain ⟨hw, hcurrent⟩ := h
  -- Going on with a program, in a world where objects are as they were.
  have hgo : ∀ {p : Program ω} {w w' : World ω} {op : Option Op} {P : Prop},
      Spares w.image w'.image → Sparing { current := .finished p w', op, waiting } ∧
        (none = (none : Option Asked) ∧ Spares w.image w'.image ∨ P) := fun hs =>
    (sparing_of_spares (x := .finished _ _) _ hw hs).imp_right fun hs => .inl ⟨rfl, hs⟩
  cases current with
  | calling i w resume =>
    cases hstep
    have hwaiting : ∀ q ∈ ({ op, invocation := i, resume } :: waiting : List (Pending ω)),
        ∀ reply (w : World ω), (q.resume reply w).Spares w.image := by
      intro q hq
      rcases List.mem_cons.1 hq with rfl | hq
      · exact hcurrent i w resume rfl
      · exact hw q hq
    exact (sparing_of_spares none hwaiting ((Effect.spares_start i).run w)).imp_right
      fun hs => .inl ⟨rfl, hs⟩
  | finished p w =>
    cases p with
    | reply r =>
      cases waiting with
      | nil => cases hstep
      | cons q rest =>
        cases hstep
        exact (sparing_of_spares q.op (fun q hq => hw q (List.mem_cons_of_mem _ hq))
          (hw q List.mem_cons_self r w)).imp_right fun hs => .inl ⟨rfl, hs⟩
    | perform op next =>
      cases hstep
      have hrun : ((next <$> op.act : Effect ω (Program ω)) w).Spares (op.onObjects w.image) :=
        (op.spares_act w).bind fun _ w' => .refl w'.image
      exact (sparing_of_spares (some op) hw hrun).imp_right fun hs => .inr ⟨op, rfl, hs⟩
    | read next => cases hstep; exact hgo (.refl w.image)
    | load next => cases hstep; exact hgo (.refl w.image)
    | alter f next => cases hstep; exact hgo (.refl w.image)
    | makeMethod callsNext body next => cases hstep; exact hgo (.of_objects rfl rfl)
    | onIncluded a hook next => cases hstep; exact hgo (.of_objects rfl rfl)
    | onExtended a hook next => cases hstep; exact hgo (.of_objects rfl rfl)
    | onMethodAdded observer next => cases hstep; exact hgo (.of_objects rfl rfl)

namespace Recorded

theorem recalls (h : m.Recorded u log) : m.Sparing ∧ m.world.image.Keyed ∧
    ∀ o, m.world.image.LiveObject o → Recalls log m.world.image o := by
  induction h with
  | start p code host =>
    refine ⟨⟨fun q hq => absurd hq List.not_mem_nil, fun i w resume he => ?_⟩, u.keyed_boot,
      fun o ho => ?_⟩
    · cases he
    · have hboot : u.boot.LiveObject o := ho
      exact absurd hboot.1 (Nat.not_lt.2 (u.objects_boot o))
  | step _ hstep ih =>
    obtain ⟨hsparing, hk, hrecalls⟩ := ih
    obtain ⟨hsparing', ⟨ha, hspares⟩ | ⟨op, ha, hspares⟩⟩ := hsparing.step hstep
    · rw [ha]
      exact ⟨hsparing', hspares.keyed hk, fun o ho =>
        (hrecalls o (hspares.live.1 ho)).spares hk hspares⟩
    · rw [ha]
      have hk' := op.keyed_onObjects hk
      exact ⟨hsparing', hspares.keyed hk', fun o ho =>
        (Op.recalls_onObjects hk hrecalls (hspares.live.1 ho)).spares hk' hspares⟩

theorem field_step (h : m.Recorded u log) (hstep : m.step = .inr m') {o : ObjectId} {f : String}
    (ho : m'.world.image.LiveObject o)
    (hother : ∀ a, m.asks = some a → a.makes ≠ some o ∧ a.stores? o f = none) :
    m'.world.image.field o f = m.world.image.field o f := by
  obtain ⟨hsparing, hk, -⟩ := h.recalls
  obtain ⟨-, ⟨-, hspares⟩ | ⟨op, ha, hspares⟩⟩ := hsparing.step hstep
  · exact hspares.field hk o f
  · obtain ⟨hmakes, hstores⟩ := hother _ ha
    rw [hspares.field (op.keyed_onObjects hk), Op.field_onObjects hk (hspares.live.1 ho),
      if_neg hmakes, hstores]
    rfl

/-- Every object that is there was made by an instantiation that the log holds, and each of its fields
reads what was stored in it last since that one began, or void. No other step changes it. The object
that an instantiation makes is the one that it answers, and a read leaves the world as it is; that of a
field, too, makes no new name, and a text that is no name yet reads as void. -/
theorem field_eq (h : m.Recorded u log) :
    (∀ o, m.world.image.LiveObject o → ∃ since call before, log = since ++ call :: before ∧
      call.makes = some o ∧ (∀ a ∈ since, a.makes ≠ some o) ∧
      ∀ f, m.world.image.field o f = (since.findSome? fun a => a.stores? o f).getD .void) ∧
    (∀ m' o f, m.step = .inr m' → m'.world.image.LiveObject o →
      (∀ a, m.asks = some a → a.makes ≠ some o ∧ a.stores? o f = none) →
      m'.world.image.field o f = m.world.image.field o f) ∧
    (∀ c args (w : World ω), ((Op.instantiate c args).act w).Answers fun a =>
      ∀ o, a = .ok o → Asked.makes ⟨.instantiate c args, w.image⟩ = some o) ∧
    (∀ next w, m.current = .finished (.read next) w →
      ∃ m', m.step = .inr m' ∧ m'.world = m.world ∧ m.asks = none) ∧
    (∀ o f (goesOn : Value → Program ω) w,
      m.current = .finished (.read fun s => goesOn (s.field o f)) w →
      ∃ m', m.step = .inr m' ∧ m'.current = .finished (goesOn (m.world.image.field o f)) w ∧
        m'.world.image.symbols = m.world.image.symbols) ∧
    (∀ o f, m.world.image.symbols.find? f = none → m.world.image.field o f = .void) := by
  refine ⟨h.recalls.2.2, fun m' o f hstep ho hother => h.field_step hstep ho hother,
    fun c args w => ?_, fun next w hcurrent => ?_, fun o f goesOn w hcurrent => ?_,
    fun o f hf => field_of_unknown hf o⟩
  · refine (Effect.answers_instantiate c args w).mono fun a ha o ho => ?_
    exact congrArg some (ha o ho).symm
  · obtain ⟨current, op, waiting⟩ := m
    obtain rfl : current = _ := hcurrent
    exact ⟨_, rfl, rfl, rfl⟩
  · obtain ⟨current, op, waiting⟩ := m
    obtain rfl : current = _ := hcurrent
    exact ⟨_, rfl, rfl, rfl⟩

end Recorded

/-- An object with two fields, and after it another one with one field in its place. -/
def reused : Image :=
  let first := ((({} : Setup).boot.defineClass "Pair" none).2.allocate ⟨0⟩).2
  let filled := (first.setField ⟨0⟩ "left" (.int 1)).setField ⟨0⟩ "right" (.int 2)
  ((filled.release ⟨0⟩).allocate ⟨0⟩).2.setField ⟨0⟩ "left" (.int 3)

def reusing : Machine Unit where
  current := .finished (.reply (.ok .void)) { image := reused, host := () }
  op := some (.setField ⟨0⟩ "left" (.int 3))

theorem recorded_reusing : ∃ log, reusing.Recorded {} log ∧ log.map Asked.op =
    [.setField ⟨0⟩ "left" (.int 3), .instantiate ⟨0⟩ [], .release ⟨0⟩,
      .setField ⟨0⟩ "right" (.int 2), .setField ⟨0⟩ "left" (.int 1), .instantiate ⟨0⟩ [],
      .defineClass "Pair" none] := by
  have h₀ : Recorded {} [] _ := .start (.perform (.defineClass "Pair" none) fun _ =>
    .perform (.instantiate ⟨0⟩ []) fun _ => .perform (.setField ⟨0⟩ "left" (.int 1)) fun _ =>
    .perform (.setField ⟨0⟩ "right" (.int 2)) fun _ => .perform (.release ⟨0⟩) fun _ =>
    .perform (.instantiate ⟨0⟩ []) fun _ => .perform (.setField ⟨0⟩ "left" (.int 3)) fun _ =>
    .reply (.ok .void)) {} ()
  have h₁ := h₀.step (step_perform (Op.act_defineClass ..))
  have h₂ := h₁.step (step_perform (Op.act_instantiate [] (by decide +kernel)))
  have h₃ := h₂.step (step_perform (Op.act_setField ..))
  have h₄ := h₃.step (step_perform (Op.act_setField ..))
  have h₅ := h₄.step (step_perform (Op.act_release ..))
  have h₆ := h₅.step (step_perform (Op.act_instantiate [] (by decide +kernel)))
  exact ⟨_, h₆.step (step_perform (Op.act_setField ..)), rfl⟩

/-- The second object has nothing of the first. -/
theorem field_eq_reusing : ∃ (log since : List Asked) (call : Asked) (before : List Asked),
    reusing.Recorded {} log ∧ log = since ++ call :: before ∧ call.makes = some ⟨0⟩ ∧
    (∀ a ∈ since, a.makes ≠ some ⟨0⟩) ∧
    (∀ f, reused.field ⟨0⟩ f = (since.findSome? fun a => a.stores? ⟨0⟩ f).getD .void) ∧
    reused.field ⟨0⟩ "left" = .int 3 ∧ reused.field ⟨0⟩ "right" = .void ∧
    reused.field ⟨0⟩ "middle" = .void := by
  obtain ⟨log, h, -⟩ := recorded_reusing
  obtain ⟨hrecalls, -, -, -, -, hunknown⟩ := h.field_eq
  obtain ⟨since, call, before, hlog, hcall, hsince, hread⟩ := hrecalls ⟨0⟩ (by decide +kernel)
  exact ⟨log, since, call, before, h, hlog, hcall, hsince, hread, by decide +kernel,
    by decide +kernel, hunknown ⟨0⟩ "middle" (by decide +kernel)⟩

end Machine

end Mixin
