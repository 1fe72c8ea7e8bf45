import Mixin.Machine
import Mixin.Proofs.Image.Boot
import Mixin.Proofs.Run.Compose
import Mixin.Proofs.Run.Ends

/-! The states a machine comes to, whatever callers do, and those among them that it comes to while
callers keep to the terms: they name what is there, and they release no object that an operation still
running works on. Every such state has a sound image, and every step changes it by usual edits or by
one release. -/

namespace Mixin

open Image

variable {ω : Type} {k : Manners} {s s' : Image}

namespace Pending

/-- What the waiting operation works on, but for what it has invoked. -/
def subjects (p : Pending ω) : List Receiver := (p.op.map Op.subjects).getD []

/-- What must not be released while the operations wait. -/
def busy (waiting : List (Pending ω)) : List Receiver :=
  waiting.flatMap fun p => p.subjects ++ p.invocation.receivers

theorem busy_cons (p : Pending ω) (rest : List (Pending ω)) :
    busy (p :: rest) = p.subjects ++ p.invocation.receivers ++ busy rest := by
  rw [busy, List.flatMap_cons, busy]

def Holds (s : Image) (rs : List Receiver) (o : ObjectId) : Prop := ∃ r ∈ rs, s.Belongs o r

/-- An operation can be resumed with any reply, while what it works on is there. -/
def Sane (k : Manners) (s : Image) (rs : List Receiver) (p : Pending ω) : Prop :=
  ∃ held : ObjectId → Prop, (∀ o, held o → Holds s rs o) ∧
    ∀ reply (w : World ω), w.image.Sound → Persists held s w.image →
      (p.resume reply w).Keeps k held (fun _ _ => True) w.image

/-- All waiting operations can be resumed, in turn. -/
def AllSane (k : Manners) (s : Image) : List (Pending ω) → Prop
  | [] => True
  | p :: rest => p.Sane k s (p.subjects ++ busy rest) ∧ AllSane k s rest

theorem Sane.persists {p : Pending ω} {rs : List Receiver} (h : p.Sane k s rs) (hs : s.Sound)
    (hs' : s'.Sound) (hp : Persists (Holds s rs) s s') : p.Sane k s' rs := by
  obtain ⟨held, hheld, hresume⟩ := h
  refine ⟨held, fun o ho => ?_, fun reply w hw hper => ?_⟩
  · obtain ⟨r, hr, hb⟩ := hheld o ho
    exact ⟨r, hr, hp.belongs hs hs' ⟨r, hr, hb⟩ hb⟩
  · exact hresume reply w hw ((hp.mono hheld).trans hper)

theorem AllSane.persists {waiting : List (Pending ω)} (h : AllSane k s waiting) (hs : s.Sound)
    (hs' : s'.Sound) (hp : Persists (Holds s (busy waiting)) s s') : AllSane k s' waiting := by
  induction waiting with
  | nil => trivial
  | cons p rest ih =>
    refine ⟨h.1.persists hs hs' (hp.mono fun o ho => ?_), ih h.2 (hp.mono fun o ho => ?_)⟩
    · obtain ⟨r, hr, hb⟩ := ho
      refine ⟨r, ?_, hb⟩
      rw [busy_cons]
      rcases List.mem_append.1 hr with hr | hr
      · exact List.mem_append_left _ (List.mem_append_left _ hr)
      · exact List.mem_append_right _ hr
    · obtain ⟨r, hr, hb⟩ := ho
      exact ⟨r, by rw [busy_cons]; exact List.mem_append_right _ hr, hb⟩

end Pending

namespace Machine

open Pending

/-- The step about to be made keeps to the terms. -/
def Permitted (k : Manners) (m : Machine ω) : Prop :=
  match m.current with
  | .finished (.perform op _) w =>
    op.Allowed k ∧ (∀ r ∈ op.subjects, w.image.Alive r) ∧
      ∀ o, op = .release o → ¬ Holds w.image (busy m.waiting) o
  | .finished (.onIncluded a _ _) w | .finished (.onExtended a _ _) w => w.image.graph.Live a
  | _ => True

/-- The states that machines come to from the start. Nothing is asked of the callers. -/
def Started (u : Setup) (m : Machine ω) : Prop :=
  ∃ (p : Program ω) (code : Code ω) (host : ω),
    Comes (Machine.start p { image := u.boot, code, host }) m

theorem Started.invariant {I : Machine ω → Prop} {u : Setup} {m : Machine ω} (h : m.Started u)
    (hstart : ∀ (p : Program ω) (code : Code ω) (host : ω),
      I (Machine.start p { image := u.boot, code, host }))
    (hstep : ∀ m m', I m → m.step = .inr m' → I m') : I m := by
  obtain ⟨p, code, host, hcomes⟩ := h
  exact hcomes.invariant (hstart p code host) hstep

/-- The states that machines come to while callers keep to the terms. -/
inductive Reached (k : Manners) (u : Setup) : Machine ω → Prop where
  | start (p : Program ω) (code : Code ω) (host : ω) :
      Reached k u (Machine.start p { image := u.boot, code, host })
  | step {m m' : Machine ω} : Reached k u m → m.Permitted k → m.step = .inr m' → Reached k u m'

theorem Reached.started {u : Setup} {m : Machine ω} (h : m.Reached k u) : m.Started u := by
  induction h with
  | start p code host => exact ⟨p, code, host, .refl⟩
  | step _ _ hstep ih =>
    obtain ⟨p, code, host, hcomes⟩ := ih
    exact ⟨p, code, host, hcomes.tail hstep⟩

def Releases (m : Machine ω) (o : ObjectId) : Prop :=
  ∃ next w, m.current = .finished (.perform (.release o) next) w

/-- How an image changes in one step. -/
inductive Moves (k : Manners) (s s' : Image) : Prop where
  | usual : Becomes (Edit.Usual k) s s' → Moves k s s'
  | release (o : ObjectId) : s.LiveObject o → s' = s.release o → Moves k s s'

structure Sane (k : Manners) (m : Machine ω) : Prop where
  sound : m.world.image.Sound
  waiting : AllSane k m.world.image m.waiting
  current : ∀ i w resume, m.current = .calling i w resume →
    (∀ r ∈ i.receivers, w.image.Alive r) ∧
      Pending.Sane k w.image (({ op := m.op, invocation := i, resume } : Pending ω).subjects ++
        busy m.waiting) { op := m.op, invocation := i, resume }

/-- A run that makes usual edits can be what a machine goes on with. -/
theorem sane_of_keeps {held : ObjectId → Prop} {x : Run ω (Program ω)} (op : Option Op)
    {waiting : List (Pending ω)} (hs : s.Sound) (hw : AllSane k s waiting)
    (hx : x.Keeps k held (fun _ _ => True) s)
    (hheld : ∀ o, held o → Holds s ((op.map Op.subjects).getD [] ++ busy waiting) o) :
    Becomes (Edit.Usual k) s (Machine.world { current := x, op, waiting }).image ∧
      Sane k { current := x, op, waiting } := by
  have hb : Becomes (Edit.Usual k) s (Machine.world { current := x, op, waiting }).image := by
    cases x with
    | finished p w => exact hx.1
    | calling i w resume => exact hx.1
  have hs' := hb.sound hs
  have hper := fun held => hb.persists held hs fun e he => he.2
  refine ⟨hb, hs', hw.persists hs hs' (hper _), ?_⟩
  rintro i w resume rfl
  refine ⟨hx.2.1, held, fun o ho => ?_, hx.2.2⟩
  obtain ⟨r, hr, hbel⟩ := hheld o ho
  exact ⟨r, hr, (hper held).belongs hs hs' ho hbel⟩

theorem becomes_addHook {w : World ω} {a : ModuleId} (h : w.image.graph.Live a)
    (hook : Value → Program ω) (place : HookId → Hooks → Hooks) :
    Becomes (Edit.Usual k) w.image (w.addHook a hook place).image :=
  becomes_edit (.setHooks a (place ⟨w.code.hooks.size⟩)) h trivial trivial

theorem sane_finished {p : Program ω} {w : World ω} {op : Option Op} {waiting : List (Pending ω)}
    (hs : w.image.Sound) (hw : AllSane k w.image waiting) :
    Sane k { current := .finished p w, op, waiting } := by
  refine ⟨hs, hw, ?_⟩
  intro i w' resume h
  cases h

theorem sane_of_becomes {p : Program ω} {w : World ω} {op : Option Op}
    {waiting : List (Pending ω)} {P : Prop} (hs : s.Sound) (hw : AllSane k s waiting)
    (hb : Becomes (Edit.Usual k) s w.image) :
    (Becomes (Edit.Usual k) s w.image ∨ P) ∧
      Sane k { current := .finished p w, op, waiting } := by
  have hkeeps : Run.Keeps k (fun _ => False) (fun _ _ => True) s (.finished p w) := ⟨hb, trivial⟩
  exact ⟨.inl hb, (sane_of_keeps op hs hw hkeeps fun _ ho => ho.elim).2⟩

theorem sane_step {m m' : Machine ω} (h : m.Sane k) (hp : m.Permitted k) (hstep : m.step = .inr m') :
    (Becomes (Edit.Usual k) m.world.image m'.world.image ∨
      ∃ o, m.Releases o ∧ m.world.image.LiveObject o ∧
        m'.world.image = m.world.image.release o) ∧ m'.Sane k := by
  obtain ⟨current, op, waiting⟩ := m
  obtain ⟨hs, hw, hcurrent⟩ := h
  cases current with
  | calling i w resume =>
    cases hstep
    obtain ⟨halive, hsane⟩ := hcurrent i w resume rfl
    have hkeeps : Effect.Keeps k (Holds w.image i.receivers) (fun _ _ => True) w i.start :=
      Invocation.keeps_start hs halive
    have hcover : ∀ o, Holds w.image i.receivers o → Holds w.image
        (((none : Option Op).map Op.subjects).getD [] ++
          busy ({ op, invocation := i, resume } :: waiting)) o := by
      rintro o ⟨r, hr, hb⟩
      refine ⟨r, List.mem_append_right _ ?_, hb⟩
      rw [busy_cons]
      exact List.mem_append_left _ (List.mem_append_right _ hr)
    have hwaiting : AllSane k w.image ({ op, invocation := i, resume } :: waiting) := ⟨hsane, hw⟩
    obtain ⟨hb, hm⟩ := sane_of_keeps none hs hwaiting hkeeps hcover
    exact ⟨.inl hb, hm⟩
  | finished p w =>
    cases p with
    | reply r =>
      cases waiting with
      | nil => cases hstep
      | cons p rest =>
        cases hstep
        obtain ⟨⟨held, hheld, hresume⟩, hrest⟩ := hw
        obtain ⟨hb, hm⟩ := sane_of_keeps p.op hs hrest (hresume r w hs (.refl _)) hheld
        exact ⟨.inl hb, hm⟩
    | read next => cases hstep; exact sane_of_becomes hs hw (.refl _)
    | load next => cases hstep; exact sane_of_becomes hs hw (.refl _)
    | alter f next => cases hstep; exact sane_of_becomes hs hw (.refl _)
    | makeMethod callsNext body next => cases hstep; exact sane_of_becomes hs hw (.refl _)
    | onIncluded a hook next =>
      cases hstep
      have hb := becomes_addHook (k := k) hp hook fun h hooks => { hooks with included := some h }
      exact sane_of_becomes hs hw hb
    | onExtended a hook next =>
      cases hstep
      have hb := becomes_addHook (k := k) hp hook fun h hooks => { hooks with extended := some h }
      exact sane_of_becomes hs hw hb
    | onMethodAdded observer next =>
      cases hstep
      exact sane_of_becomes hs hw (becomes_edit (.observe _) trivial trivial trivial)
    | perform op next =>
      cases hstep
      obtain ⟨hallowed, halive, hrelease⟩ := hp
      by_cases hop : ∃ o, op = .release o
      · -- A release spares what the waiting operations work on.
        obtain ⟨o, rfl⟩ := hop
        have ho : w.image.LiveObject o := halive _ (List.mem_singleton_self _)
        have hs' : (w.image.release o).Sound := hs.release ho
        have hper : Persists (Holds w.image (busy waiting)) w.image (w.image.release o) :=
          (persists_release hs ho).mono fun a ha he => hrelease o rfl (he ▸ ha)
        exact ⟨.inr ⟨o, ⟨_, _, rfl⟩, ho, rfl⟩, sane_finished hs' (hw.persists hs hs' hper)⟩
      · have hkeeps := Op.keeps_act hs halive hallowed fun o he => hop ⟨o, he⟩
        have hkeeps' : Effect.Keeps k _ (fun _ _ => True) w (next <$> op.act) := .map hs hkeeps
        obtain ⟨hb, hm⟩ := sane_of_keeps (some op) hs hw hkeeps' fun o ⟨r, hr, hbel⟩ =>
          ⟨r, List.mem_append_left _ hr, hbel⟩
        exact ⟨.inl hb, hm⟩

theorem Reached.sane {u : Setup} {m : Machine ω} (h : Reached k u m) : m.Sane k := by
  induction h with
  | start p code host => exact sane_finished u.sound_boot trivial
  | step _ hp hstep ih => exact (sane_step ih hp hstep).2

theorem Reached.moves {u : Setup} {m m' : Machine ω} (h : Reached k u m) (hp : m.Permitted k)
    (hstep : m.step = .inr m') : Moves k m.world.image m'.world.image := by
  rcases (sane_step h.sane hp hstep).1 with hb | ⟨o, -, ho, he⟩
  · exact .usual hb
  · exact .release o ho he

/-- What holds at the start and is kept by every edit holds in every state. -/
theorem Reached.invariant {I : Image → Prop} {u : Setup} {m : Machine ω} (h : Reached k u m)
    (hboot : I u.boot)
    (hedit : ∀ (s : Image) (e : Edit), s.Sound → e.Allowed k → e.Safe s → I s → I (e.apply s)) :
    I m.world.image := by
  induction h with
  | start p code host => exact hboot
  | @step m m' hm hp hstep ih =>
    rcases hm.moves hp hstep with hb | ⟨o, ho, he⟩
    · exact (hb.invariant hm.sane.sound ih fun s e hs he => hedit s e hs he.1).2
    · rw [he]
      exact hedit _ (.release o) hm.sane.sound trivial ho ih

end Machine

end Mixin
