import Mathlib.Logic.Relation
import Mixin.Proofs.Run.Reached
import Mixin.Proofs.Run.Secure

/-! The states a machine comes to while callers leave the gate alone, and keep to no other terms: they
may go on using modules that have been removed and objects that have been released, and may release
what an operation still running works on. -/

namespace Mixin

open Relation Image

theorem Setup.secure_boot (u : Setup) {p : Bool} : u.boot.Secure p := by
  obtain ⟨s, names, hseed, ⟨hwatched, hmissing, hinit⟩, heq⟩ := u.boot_eq_gate
  have hgated := hseed.gated hwatched hmissing hinit
  have hm := (steady_foldl_watch names).moored hseed.moored
  have hg := Gated.foldl_watch hgated hseed.moored names
  have htwin := Twin.of_resolve (names.foldl Image.watch s) .gate
  rw [heq]
  exact ⟨htwin.steady.moored hm, hg.twin htwin, fun _ => CoveredBut.resolve_gate hm hg⟩

variable {ω : Type} {k : Manners} {p : Bool} {s s' : Image}

/-- A waiting operation can be resumed with any reply, whatever has been done meanwhile. -/
def Pending.Sturdy (p : Bool) (s : Image) (q : Pending ω) : Prop :=
  ∀ reply (w : World ω), Fares p s w.image → (q.resume reply w).Guards p (fun _ _ => True) w.image

theorem Pending.Sturdy.later {q : Pending ω} (h : q.Sturdy p s) (hl : Later s s') :
    q.Sturdy p s' := fun reply w hw => h reply w ⟨hw.secure, hl.trans hw.later⟩

namespace Machine

variable {u : Setup} {m m' : Machine ω}

/-- The step about to be made works on receivers that there have been, and leaves the gate alone if
callers are to. -/
def Ventured (k : Manners) (m : Machine ω) : Prop :=
  match m.current with
  | .finished (.perform op _) w => op.Allowed k ∧ ∀ r ∈ op.subjects, w.image.HasRecord r
  | _ => True

def Roams (k : Manners) : Machine ω → Machine ω → Prop :=
  ReflTransGen fun m m' => m.Ventured k ∧ m.step = .inr m'

/-- The states that such runs come to from the start. -/
def Roamed (k : Manners) (u : Setup) (m : Machine ω) : Prop :=
  ∃ (prog : Program ω) (code : Code ω) (host : ω),
    Roams k (Machine.start prog { image := u.boot, code, host }) m

theorem Roamed.tail (h : m.Roamed k u) (hv : m.Ventured k) (hstep : m.step = .inr m') :
    m'.Roamed k u := by
  obtain ⟨prog, code, host, hr⟩ := h
  exact ⟨prog, code, host, ReflTransGen.tail hr ⟨hv, hstep⟩⟩

theorem Permitted.ventured (h : m.Permitted k) : m.Ventured k := by
  obtain ⟨current, op, waiting⟩ := m
  cases current with
  | calling i w resume => trivial
  | finished prog w =>
    cases prog with
    | perform op next => exact ⟨h.1, fun r hr => (h.2.1 r hr).hasRecord⟩
    | _ => trivial

/-- Where callers name only what is there, they name what there has been. -/
theorem Reached.roamed (h : m.Reached k u) : m.Roamed k u := by
  induction h with
  | start prog code host => exact ⟨prog, code, host, .refl⟩
  | step _ hp hstep ih => exact ih.tail hp.ventured hstep

structure Sturdy (p : Bool) (m : Machine ω) : Prop where
  secure : m.world.image.Secure p
  waiting : ∀ q ∈ m.waiting, q.Sturdy p m.world.image
  current : ∀ i w resume, m.current = .calling i w resume →
    Pending.Sturdy p w.image { op := m.op, invocation := i, resume }

theorem sturdy_of_guards {x : Run ω (Program ω)} (op : Option Op) {waiting : List (Pending ω)}
    (hw : ∀ q ∈ waiting, q.Sturdy p s) (hx : x.Guards p (fun _ _ => True) s) :
    Sturdy p { current := x, op, waiting } ∧
      Later s (Machine.world { current := x, op, waiting }).image := by
  have hf : Fares p s (Machine.world { current := x, op, waiting }).image := by
    cases x with
    | finished a w => exact hx.1
    | calling i w resume => exact hx.1
  refine ⟨⟨hf.secure, fun q hq => (hw q hq).later hf.later, ?_⟩, hf.later⟩
  rintro i w resume rfl
  exact hx.2

theorem fares_addHook {w : World ω} (h : w.image.Secure p) (a : ModuleId)
    (hook : Value → Program ω) (place : HookId → Hooks → Hooks) :
    Fares p w.image (w.addHook a hook place).image :=
  fares_edit (e := .setHooks a (place ⟨w.code.hooks.size⟩)) h trivial trivial

theorem sturdy_step (h : m.Sturdy k.prompt) (hk : k.offGate = true) (hv : m.Ventured k)
    (hstep : m.step = .inr m') :
    m'.Sturdy k.prompt ∧ Later m.world.image m'.world.image := by
  obtain ⟨current, op, waiting⟩ := m
  obtain ⟨hs, hw, hcurrent⟩ := h
  -- Going on with a program, in a world whose image is still secure.
  have hgo : ∀ {prog : Program ω} {w : World ω} {op : Option Op},
      Fares k.prompt (Machine.world { current, op, waiting }).image w.image →
      Sturdy k.prompt { current := .finished prog w, op, waiting } ∧
        Later (Machine.world { current, op, waiting }).image w.image := fun hf =>
    sturdy_of_guards _ hw ⟨hf, trivial⟩
  cases current with
  | calling i w resume =>
    cases hstep
    have hstart : Effect.Guards k.prompt (fun _ _ => True) w i.start := Effect.guards_start hs i
    refine sturdy_of_guards none (fun q hq => ?_) hstart
    rcases List.mem_cons.1 hq with rfl | hq
    · exact hcurrent i w resume rfl
    · exact hw q hq
  | finished prog w =>
    cases prog with
    | reply r =>
      cases waiting with
      | nil => cases hstep
      | cons q rest =>
        cases hstep
        refine sturdy_of_guards q.op (fun q hq => hw q (List.mem_cons_of_mem _ hq)) ?_
        exact hw q List.mem_cons_self r w (.refl hs)
    | read next => cases hstep; exact hgo (.refl hs)
    | load next => cases hstep; exact hgo (.refl hs)
    | alter f next => cases hstep; exact hgo (.refl hs)
    | makeMethod callsNext body next => cases hstep; exact hgo (.refl hs)
    | onIncluded a hook next =>
      cases hstep
      exact hgo (fares_addHook hs a hook fun h hooks => { hooks with included := some h })
    | onExtended a hook next =>
      cases hstep
      exact hgo (fares_addHook hs a hook fun h hooks => { hooks with extended := some h })
    | onMethodAdded observer next =>
      cases hstep
      exact hgo (fares_edit (e := .observe _) hs trivial trivial)
    | perform op next =>
      cases hstep
      have hact : Effect.Guards k.prompt (fun _ _ => True) w op.act :=
        Effect.guards_act hs hk rfl hv.1 hv.2
      refine sturdy_of_guards (some op) hw ?_
      exact Effect.Guards.bind hact fun a w' hw' _ => ⟨.refl hw'.secure, trivial⟩

theorem sturdy_roams (h : m.Sturdy k.prompt) (hk : k.offGate = true) (hr : m.Roams k m') :
    m'.Sturdy k.prompt ∧ Later m.world.image m'.world.image := by
  induction hr with
  | refl => exact ⟨h, .refl _⟩
  | tail _ hstep ih =>
    obtain ⟨hsturdy, hlater⟩ := sturdy_step ih.1 hk hstep.1 hstep.2
    exact ⟨hsturdy, ih.2.trans hlater⟩

theorem Roamed.sturdy (h : m.Roamed k u) (hk : k.offGate = true) : m.Sturdy k.prompt := by
  obtain ⟨prog, code, host, hr⟩ := h
  refine (sturdy_roams ⟨u.secure_boot, ?_, ?_⟩ hk hr).1
  · exact fun q hq => absurd hq List.not_mem_nil
  · intro i w resume he
    cases he

end Machine

end Mixin
