import Mixin.Proofs.Run.Restores

/-! Descriptions are properly nested. Each open one has its own receiver, every operation ends with
those under description that it began with, and so a receiver is asked for its `inspect` unless it is
being asked already. -/

namespace Mixin

open Effect

namespace Machine

variable {ω : Type} {u : Setup} {D D₀ : List Receiver} {base : List (Pending ω)}

/-- The machine comes to another without replying to what waits at the base. -/
inductive Above (base : List (Pending ω)) (m : Machine ω) : Machine ω → Prop where
  | refl : Above base m m
  | step {m' m'' : Machine ω} : Above base m m' →
      (∀ reply w, m'.current = .finished (.reply reply) w → m'.waiting ≠ base) →
      m'.step = .inr m'' → Above base m m''

/-- Who is under description while the innermost of these operations waits, if at first it was `D₀`.
Some of the operations have asked a further receiver for its `inspect`, and each goes on with those
under description that it had before. -/
inductive Nested (D₀ : List Receiver) : List (Pending ω) → List Receiver → Prop where
  | nil : Nested D₀ [] D₀
  | cons {p : Pending ω} {waiting : List (Pending ω)} {D D' : List Receiver} : Nested D₀ waiting D →
      (D' = D ∨ ∃ r ∉ D, D' = r :: D ∧ ∃ w, Asks (ω := ω) r p.invocation w) →
      (∀ reply w, w.image.describing = D' → (p.resume reply w).Restores D) →
      Nested D₀ (p :: waiting) D'

theorem Nested.suffix {waiting : List (Pending ω)} (h : Nested D₀ waiting D) : D₀ <:+ D := by
  induction h with
  | nil => exact List.suffix_rfl
  | cons _ hopened _ ih =>
    rcases hopened with rfl | ⟨r, -, rfl, -⟩
    · exact ih
    · exact ih.trans (List.suffix_cons ..)

theorem Nested.nodup {waiting : List (Pending ω)} (h : Nested D₀ waiting D) (h₀ : D₀.Nodup) :
    D.Nodup := by
  induction h with
  | nil => exact h₀
  | cons _ hopened _ ih =>
    rcases hopened with rfl | ⟨r, hr, rfl, -⟩
    · exact ih
    · exact List.nodup_cons.2 ⟨hr, ih⟩

/-- What the machine is doing above the base goes back to those under description at the base. -/
def Balanced (D₀ : List Receiver) (base : List (Pending ω)) (m : Machine ω) : Prop :=
  ∃ inner D, m.waiting = inner ++ base ∧ Nested D₀ inner D ∧ m.current.Restores D

theorem Balanced.step {m m' : Machine ω} (h : m.Balanced D₀ base)
    (habove : ∀ reply w, m.current = .finished (.reply reply) w → m.waiting ≠ base)
    (hstep : m.step = .inr m') : m'.Balanced D₀ base := by
  obtain ⟨current, op, waiting⟩ := m
  obtain ⟨inner, D, hwaiting, hnested, hcurrent⟩ := h
  dsimp only at hwaiting hcurrent
  cases current with
  | calling i w resume =>
    cases hstep
    refine ⟨{ op, invocation := i, resume } :: inner, w.image.describing, by rw [hwaiting]; rfl,
      hnested.cons ?_ hcurrent.2, (restores_start i).run w⟩
    rcases hcurrent.1 with h | ⟨r, hr, h, hasks⟩
    · exact .inl h
    · exact .inr ⟨r, hr, h, w, hasks⟩
  | finished p w =>
    cases p with
    | reply reply =>
      cases hnested with
      | nil => exact absurd hwaiting (habove reply w rfl)
      | cons hrest hopened hresume =>
        subst hwaiting
        cases hstep
        exact ⟨_, _, rfl, hrest, hresume reply w hcurrent⟩
    | perform op next =>
      cases hstep
      refine ⟨inner, D, hwaiting, hnested, ?_⟩
      have hD : w.image.describing = D := hcurrent
      exact hD ▸ ((restores_act op).map next).run w
    | _ => cases hstep; exact ⟨inner, D, hwaiting, hnested, hcurrent⟩

theorem Above.balanced {m m' : Machine ω} (h : m.Above base m') (hm : m.Balanced D₀ base) :
    m'.Balanced D₀ base := by
  induction h with
  | refl => exact hm
  | step _ habove hstep ih => exact ih.step habove hstep

theorem describing_world {m : Machine ω} (h : m.current.Restores D) :
    D <:+ m.world.image.describing := by
  unfold world
  cases hcurrent : m.current with
  | finished p w =>
    rw [hcurrent] at h
    exact (show w.image.describing = D from h) ▸ List.suffix_rfl
  | calling i w resume =>
    rw [hcurrent] at h
    rcases h.1 with heq | ⟨r, -, heq, -⟩
    · exact heq ▸ List.suffix_rfl
    · exact heq ▸ List.suffix_cons ..

theorem Started.balanced {m : Machine ω} (h : m.Started u) : m.Balanced [] [] := by
  refine h.invariant (fun p code host => ⟨[], [], rfl, .nil, u.describing_boot⟩)
    fun m m' hm hstep => hm.step (fun reply w hcurrent hwaiting => ?_) hstep
  -- A machine that replies when nothing waits makes no step.
  obtain ⟨current, op, waiting⟩ := m
  dsimp only at hcurrent hwaiting
  subst hcurrent hwaiting
  cases hstep

/-- Whatever an operation runs and whatever callers do, its program goes on with those under
description that it had; between the operations of a program that nobody has called there are none, so
each receiver that it describes is asked. From then on, until `inspect` has been answered, the receiver
is under description and is not asked again: to describe it once more shows it in its built-in form at
once, and the operations that are under way have each asked a receiver of their own. -/
theorem Started.describing_restored {m : Machine ω} (h : m.Started u) :
    (∀ op goesOn w, m.current = .finished (.perform op goesOn) w → ∀ m', m.Above m.waiting m' →
      m'.waiting = m.waiting → ∀ p w', m'.current = .finished p w' →
        w'.image.describing = w.image.describing) ∧
    (m.waiting = [] → ∀ p w, m.current = .finished p w → w.image.describing = [] ∧
      ∀ r, describe r w = (send r .inspect [] >>= shown r)
        { w with image := { w.image with describing := [r] } }) ∧
    (∀ r (f : String → Effect ω (Program ω)) w, m.current = (describe r >>= f) w →
      r ∉ w.image.describing → ∃ i w' resume m₁, m.current = .calling i w' resume ∧ Asks r i w' ∧
        m.step = .inr m₁ ∧ ∀ m', m₁.Above m₁.waiting m' →
          r ∈ m'.world.image.describing ∧ ∃ D, r ∈ D ∧ m'.current.Restores D) ∧
    (∀ r (w : World ω), r ∈ w.image.describing →
      describe r w = .finished (w.image.defaultInspect r) w) ∧
    ∃ D, Nested [] m.waiting D ∧ m.current.Restores D ∧ D.Nodup := by
  refine ⟨fun op goesOn w hcur m' habove hwaiting p w' hcur' => ?_, fun hwaiting p w hcur => ?_,
    fun r f w hcur hr => ?_, fun r w => describe_of_mem, ?_⟩
  · have hm : m.Balanced w.image.describing m.waiting :=
      ⟨[], _, rfl, .nil, hcur ▸ (rfl : w.image.describing = _)⟩
    obtain ⟨inner, D, hsplit, hnested, hcurrent⟩ := habove.balanced hm
    obtain rfl : inner = [] := List.append_left_eq_self.1 (hsplit.symm.trans hwaiting)
    cases hnested
    rw [hcur'] at hcurrent
    exact hcurrent
  · obtain ⟨inner, D, hsplit, hnested, hcurrent⟩ := h.balanced
    obtain rfl : inner = [] := by simpa using hsplit.symm.trans hwaiting
    cases hnested
    rw [hcur] at hcurrent
    have hnone : w.image.describing = [] := hcurrent
    refine ⟨hnone, fun r => ?_⟩
    rw [describe_of_not_mem (by rw [hnone]; exact List.not_mem_nil), hnone]
  · obtain ⟨i, w', resume, heq, hasks, hw'⟩ := exists_describe_eq hr f
    rw [heq] at hcur
    refine ⟨i, w', resume,
      { current := i.start w', waiting := { op := m.op, invocation := i, resume } :: m.waiting },
      hcur, hasks, by rw [Machine.step, hcur], fun m' habove => ?_⟩
    have hasked : Balanced w'.image.describing ({ op := m.op, invocation := i, resume } :: m.waiting)
        { current := i.start w', waiting := { op := m.op, invocation := i, resume } :: m.waiting } :=
      ⟨[], _, rfl, .nil, (restores_start i).run w'⟩
    obtain ⟨inner, D, -, hnested, hcurrent⟩ := habove.balanced hasked
    have hmem : r ∈ D := hnested.suffix.subset (hw' ▸ List.mem_cons_self)
    exact ⟨(describing_world hcurrent).subset hmem, D, hmem, hcurrent⟩
  · obtain ⟨inner, D, hsplit, hnested, hcurrent⟩ := h.balanced
    rw [List.append_nil] at hsplit
    exact ⟨D, hsplit ▸ hnested, hcurrent, hnested.nodup List.nodup_nil⟩

/-- The kernel's `inspect` asks how the kernel is shown. -/
def introspectiveCode : Code Unit where
  bodies := #[fun call => .perform (.describe call.receiver) fun text => .reply (.ok (.str text))]

def introspecting : Machine Unit where
  current := .finished
    (.perform (.describe (.module .kernel)) fun text => .reply (.ok (.str text)))
    { image := ({} : Setup).boot.define .moduleRoot .inspect (.program 0 false) true
      code := introspectiveCode
      host := () }
  op := some (.define .moduleRoot .inspect (.program 0 false))

theorem reached_introspecting (k : Manners) : introspecting.Reached k {} :=
  (Reached.start (.perform (.define .moduleRoot .inspect (.program 0 false)) fun _ =>
    .perform (.describe (.module .kernel)) fun text => .reply (.ok (.str text))) introspectiveCode
    ()).define ({} : Setup).sound_boot.live_moduleRoot nofun rfl

/-- The kernel is asked; its `inspect` asks for the kernel in turn and is told the built-in form. -/
theorem describing_restored_introspecting :
    introspecting.world.image.describing = [] ∧
    (describe (.module .kernel) introspecting.world = (send (.module .kernel) .inspect [] >>=
        shown (.module .kernel))
      { introspecting.world with
        image := { introspecting.world.image with describing := [.module .kernel] } }) ∧
    (introspecting.run 10).map Prod.fst = some (.ok (.str "Kernel")) := by
  obtain ⟨-, htop, -⟩ := (reached_introspecting {}).started.describing_restored
  obtain ⟨hnone, hasked⟩ := htop rfl _ _ rfl
  exact ⟨hnone, hasked _, by decide +kernel⟩

end Machine

end Mixin
