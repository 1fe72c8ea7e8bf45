import Mixin.Proofs.ChainCache

/-! Bound methods. A bound call runs the implementation that was captured, in a frame that counts as
the most specific one of its name. So while the captured implementation is the last of the receiver's
chain, a super call runs the one below it; after something more specific has been defined, a super
call runs the captured implementation again, or one that is above it. -/

namespace Mixin

/-- The chain that the frame of a bound call goes by: that of the call behind a chained slot, that of
the super call behind a direct one. -/
def BoundMethod.chain (b : BoundMethod) (atCall atNext : Image) : List Method :=
  match b.slot with
  | .chained _ => atCall.lookup b.receiver b.name
  | .direct _ => atNext.lookup b.receiver b.name

namespace Effect

variable {ω : Type}

def refresh (b : BoundMethod) : Effect ω Unit :=
  match b.slot with
  | .chained _ => pure ()
  | .direct _ => change fun s => (s.chainFor b.receiver b.name).2

theorem refresh_bind (b : BoundMethod) (w : World ω) :
    ∃ w', ∀ x : Effect ω Reply, (refresh b >>= fun _ => x) w = x w' := by
  unfold refresh
  cases b.slot with
  | chained _ => exact ⟨w, fun _ => rfl⟩
  | direct _ => exact ⟨_, fun _ => rfl⟩

end Effect

namespace Machine

open Effect Image

variable {ω : Type} {k : Manners} {u : Setup} {m : Machine ω}

/-- The frame of a bound call, once it has a place in a chain. -/
def boundFrame (b : BoundMethod) (args : List Value) (L : List Method) : Call :=
  ⟨b.receiver, b.name, args, some (.top L)⟩

theorem Reached.enters_slot (h : m.Reached k u)
    (hb : m.world.image.graph.edits < u.boot.graph.edits + 2 ^ 64) {b : BoundMethod}
    {args : List Value} {goesOn : Reply → Program ω} (hcarries : m.Carries (callBound b args) goesOn) :
    ∃ first : Call, m.Enters (.method b.slot.method first) goesOn ∧
      first.receiver = b.receiver ∧ first.name = b.name ∧ first.args = args ∧
      ∀ (m' : Machine ω) (overrides : List Value), m'.Reached k u →
        m'.world.image.graph.edits < u.boot.graph.edits + 2 ^ 64 →
        next first overrides m'.world = (refresh b >>= fun _ => next
          (boundFrame b args (b.chain m.world.image m'.world.image)) overrides) m'.world := by
  obtain ⟨r, n, slot⟩ := b
  cases slot with
  | chained x =>
    have hchain := h.remembers.chainFor_fresh hb r n
    refine ⟨boundFrame ⟨r, n, .chained x⟩ args (m.world.image.lookup r n), ?_, rfl, rfl, rfl,
      fun m' overrides _ _ => rfl⟩
    refine hcarries.enters (w := { m.world with image := (m.world.image.chainFor r n).2 }) ?_
    rw [boundFrame, ← hchain]
    exact enter_chained
  | direct x =>
    refine ⟨⟨r, n, args, none⟩, hcarries.enters (w := m.world) rfl, rfl, rfl, rfl, ?_⟩
    intro m' overrides hm' hb'
    have hchain := hm'.remembers.chainFor_fresh hb' r n
    rw [next_of_cursorless rfl, hchain]
    rfl

theorem enters_second {b : BoundMethod} {args overrides : List Value} {L : List Method}
    {first : Call} {goesOn : Reply → Program ω} {w : World ω} {i : Nat} {x : Method}
    (hcur : m.current = .finished (.perform (.next first overrides) goesOn) w)
    (hnext : next first overrides m.world =
      (refresh b >>= fun _ => next (boundFrame b args L) overrides) m.world)
    (hi : i + 2 = L.length) (hx : L[i]? = some x) :
    m.Enters (.method x ⟨b.receiver, b.name, overrides ++ args.drop overrides.length,
      some ⟨L, i⟩⟩) goesOn := by
  obtain ⟨w', hrefresh⟩ := refresh_bind b m.world
  have hcursor : (boundFrame b args L).cursor = some ⟨L, i + 1⟩ := by
    rw [boundFrame, Cursor.top, ← hi]
    rfl
  refine (carries_perform hcur).enters (w := w') ?_
  exact hnext.trans ((hrefresh _).trans (next_of_below hcursor hx))

theorem carries_exhausted {b : BoundMethod} {args overrides : List Value} {L : List Method}
    {first : Call} {goesOn : Reply → Program ω} {w : World ω}
    (hcur : m.current = .finished (.perform (.next first overrides) goesOn) w)
    (hnext : next first overrides m.world =
      (refresh b >>= fun _ => next (boundFrame b args L) overrides) m.world)
    (hL : L.length = 1) : m.Carries (refresh b >>= fun _ => exhausted b.receiver b.name
      (overrides ++ args.drop overrides.length)) goesOn := by
  obtain ⟨w', hrefresh⟩ := refresh_bind b m.world
  have hcursor : (boundFrame b args L).cursor = some ⟨L, 0⟩ := by
    rw [boundFrame, Cursor.top, hL]
  have hact := hnext.trans ((hrefresh _).trans (next_of_lowest hcursor))
  refine (carries_perform hcur).congr ?_
  exact congrArg (Run.bind · fun reply w => .finished (goesOn reply) w)
    (hact.trans (hrefresh _).symm)

/-- In a run with fewer than 2^64 edits, a bound call runs the captured implementation. While that is
the last of the receiver's chain a super call of its frame runs the one below it, or is exhausted if
there is none. Once something more specific has been defined, a super call runs the captured
implementation again or one above it. -/
theorem Reached.bound_call (h : m.Reached k u)
    (hb : m.world.image.graph.edits < u.boot.graph.edits + 2 ^ 64) {b : BoundMethod}
    {args : List Value} {goesOn : Reply → Program ω} {w : World ω}
    (hcur : m.current = .finished (.perform (.callBound b args) goesOn) w) :
    ∃ first : Call, m.Enters (.method b.slot.method first) goesOn ∧
      first.receiver = b.receiver ∧ first.name = b.name ∧ first.args = args ∧
      ∀ (m' : Machine ω) (overrides : List Value) (goesOn' : Reply → Program ω) (w' : World ω),
        m'.Reached k u → m'.world.image.graph.edits < u.boot.graph.edits + 2 ^ 64 →
        m'.current = .finished (.perform (.next first overrides) goesOn') w' →
        let L := b.chain w.image w'.image
        let args' := overrides ++ args.drop overrides.length
        ∀ (j : Nat) (x : Method), L[j]? = some x → x.sameBody b.slot.method = true →
          (j + 1 = L.length → ∀ i, j = i + 1 → ∃ y call, L[i]? = some y ∧
            m'.Enters (.method y call) goesOn' ∧ call.receiver = b.receiver ∧
              call.name = b.name ∧ call.args = args') ∧
          (j + 1 = L.length → j = 0 →
            m'.Carries (refresh b >>= fun _ => exhausted b.receiver b.name args') goesOn') ∧
          (j + 1 < L.length → ∃ i y call, j ≤ i ∧ L[i]? = some y ∧
            m'.Enters (.method y call) goesOn') := by
  obtain rfl : m.world = w := world_eq hcur
  obtain ⟨first, henters, hreceiver, hname, hargs, hnext⟩ :=
    h.enters_slot hb (carries_perform hcur)
  refine ⟨first, henters, hreceiver, hname, hargs, ?_⟩
  intro m' overrides goesOn' w' hm' hb' hcur'
  obtain rfl : m'.world = w' := world_eq hcur'
  intro L args' j x hx _
  have hact : next first overrides m'.world =
      (refresh b >>= fun _ => next (boundFrame b args L) overrides) m'.world :=
    hnext m' overrides hm' hb'
  clear_value L
  have hj : j < L.length := (List.getElem?_eq_some_iff.1 hx).1
  refine ⟨?_, ?_, ?_⟩
  · rintro hlast i rfl
    have hy : L[i]? = some L[i] := List.getElem?_eq_getElem (by omega)
    exact ⟨_, _, hy, enters_second hcur' hact hlast hy, rfl, rfl, rfl⟩
  · rintro hlast rfl
    exact carries_exhausted hcur' hact hlast.symm
  · intro hlt
    obtain ⟨i, hi⟩ := Nat.exists_eq_add_of_le' (show 2 ≤ L.length by omega)
    have hy : L[i]? = some L[i] := List.getElem?_eq_getElem (by omega)
    exact ⟨i, _, _, by omega, hy, enters_second hcur' hact hi.symm hy⟩

def boundCode : Code Unit where
  bodies := #[fun call => .perform (.next call []) .reply, fun _ => .reply (.ok .void)]

/-- Binds `inspect` to the kernel after the modules have been given one. -/
def binding (goesOn : BoundMethod → Program Unit) : Program Unit :=
  .perform (.define .moduleRoot .inspect (.program 0 true)) fun _ =>
    .perform (.bind (.module .kernel) .inspect) fun (answer : Except Fault BoundMethod) =>
      match answer with
      | .ok b => goesOn b
      | .error e => .reply (.error e)

def boundInspect : BoundMethod := ⟨.module .kernel, .inspect, .chained (.program 0 true)⟩

def bound : Image := ({} : Setup).boot.define .moduleRoot .inspect (.program 0 true) true

theorem reached_binding (goesOn : BoundMethod → Program Unit) :
    ({ current := .finished (goesOn boundInspect) { image := bound, code := boundCode, host := () }
       op := some (.bind (.module .kernel) .inspect) } : Machine Unit).Reached k {} := by
  have h₀ : Reached k {} _ := .start (binding goesOn) boundCode ()
  have h₁ := h₀.step ⟨⟨fun _ => by decide, fun _ => rfl⟩, by decide +kernel, nofun⟩
    (step_perform (Op.act_define ..))
  have hslot : bound.definedSlot? (.module .kernel) .inspect =
      some (.chained (.program 0 true)) := by decide +kernel
  have h₂ := h₁.step ⟨trivial, by decide +kernel, nofun⟩ (step_perform (Op.act_bind hslot))
  exact h₂

def calling (s : Image) (old : Op) : Machine Unit where
  current := .finished (.perform (.callBound boundInspect []) .reply)
    { image := s, code := boundCode, host := () }
  op := some old

def inspecting (s : Image) : Call :=
  boundFrame boundInspect [] (s.chainFor (.module .kernel) .inspect).1

def superCalling (s : Image) : Machine Unit where
  current := .finished (.perform (.next (inspecting s) []) .reply)
    { image := (s.chainFor (.module .kernel) .inspect).2, code := boundCode, host := () }
  waiting := [{
    op := some (.callBound boundInspect [])
    invocation := .method (.program 0 true) (inspecting s)
    resume := fun reply w => .finished (.reply reply) w }]

theorem enters_calling (s : Image) (old : Op) :
    (calling s old).Enters (.method (.program 0 true) (inspecting s)) .reply := ⟨_, _, rfl⟩

theorem reached_superCalling {s : Image} {old : Op} (h : (calling s old).Reached k u) :
    (superCalling s).Reached k u := by
  have hp : (calling s old).Permitted k := by
    refine ⟨trivial, fun r hr => ?_, nofun⟩
    rw [List.mem_singleton.1 hr]
    exact h.sane.sound.live_kernel
  exact .step (.step h hp rfl) trivial rfl

theorem lookup_bound : bound.lookup (.module .kernel) .inspect =
    [.native .inspect, .program 0 true] := by
  decide +kernel

/-- While the bound implementation is the kernel's last, its super call runs the native one. -/
theorem bound_call_bound :
    (calling bound (.bind (.module .kernel) .inspect)).Enters
      (.method (.program 0 true) (inspecting bound)) .reply ∧
    ∃ call, (superCalling bound).Enters (.method (.native .inspect) call) .reply ∧
      call.receiver = .module .kernel ∧ call.name = .inspect ∧ call.args = [] := by
  have h : (calling bound (.bind (.module .kernel) .inspect)).Reached {} {} :=
    reached_binding fun b => .perform (.callBound b []) .reply
  obtain ⟨first, henters, -, -, -, hnext⟩ := h.bound_call (by decide +kernel) rfl
  obtain rfl := (Invocation.method.inj (henters.unique (enters_calling ..))).2
  have hlength : (bound.lookup (.module .kernel) .inspect).length = 2 := by rw [lookup_bound]; rfl
  have htop : (bound.lookup (.module .kernel) .inspect)[1]? = some (.program 0 true) := by
    rw [lookup_bound]; rfl
  obtain ⟨hbelow, -, -⟩ := hnext (superCalling bound) [] .reply _ (reached_superCalling h)
    (by decide +kernel) rfl 1 (.program 0 true) htop rfl
  obtain ⟨x, call, hx, hcall, hrest⟩ := hbelow hlength.symm 0 rfl
  have hlowest : (bound.lookup (.module .kernel) .inspect)[0]? = some (.native .inspect) := by
    rw [lookup_bound]; rfl
  obtain rfl := Option.some.inj (hx.symm.trans hlowest)
  exact ⟨henters, call, hcall, hrest⟩

/-- The kernel has since been given an `inspect` of its own. -/
def specialized : Image :=
  (bound.eigenclass (.module .kernel)).2.define ⟨4⟩ .inspect (.program 1 false) true

theorem reached_specialized :
    (calling specialized (.define ⟨4⟩ .inspect (.program 1 false))).Reached k {} := by
  have h₀ := reached_binding (k := k) fun b => .perform (.eigenclass (.module .kernel)) fun _ =>
    .perform (.define ⟨4⟩ .inspect (.program 1 false)) fun _ => .perform (.callBound b []) .reply
  have h₁ := h₀.step ⟨trivial, by decide +kernel, nofun⟩ (step_perform (Op.act_eigenclass ..))
  have h₂ := h₁.step ⟨⟨fun _ => by decide, fun _ => rfl⟩, by decide +kernel, nofun⟩
    (step_perform (Op.act_define ..))
  exact h₂

/-- The super call of the bound implementation then runs that implementation once more, and not the
native one below it. -/
theorem bound_call_specialized :
    (calling specialized (.define ⟨4⟩ .inspect (.program 1 false))).Reached
      { prompt := true, offGate := true, genuine := true } {} ∧
    specialized.lookup (.module .kernel) .inspect =
      [.native .inspect, .program 0 true, .program 1 false] ∧
    (calling specialized (.define ⟨4⟩ .inspect (.program 1 false))).Enters
      (.method (.program 0 true) (inspecting specialized)) .reply ∧
    (superCalling specialized).Reached { prompt := true, offGate := true, genuine := true } {} ∧
    (∃ call, (superCalling specialized).Enters (.method (.program 0 true) call) .reply) ∧
    ¬ ∃ call, (superCalling specialized).Enters (.method (.native .inspect) call) .reply := by
  have hchain : (specialized.chainFor (.module .kernel) .inspect).1 =
      [.native .inspect, .program 0 true, .program 1 false] := by
    decide +kernel
  have hcursor : (inspecting specialized).cursor =
      some ⟨[.native .inspect, .program 0 true, .program 1 false], 2⟩ := by
    rw [inspecting, hchain]
    rfl
  have hagain := enters_below (m := superCalling specialized) rfl hcursor rfl
  refine ⟨reached_specialized, by decide +kernel, enters_calling ..,
    reached_superCalling reached_specialized, ⟨_, hagain⟩, ?_⟩
  rintro ⟨call, hnative⟩
  have hsame := (Invocation.method.inj (hagain.unique hnative)).1
  cases hsame

end Machine

end Mixin
