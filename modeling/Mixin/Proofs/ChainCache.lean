import Mixin.Proofs.Image.Chains
import Mixin.Proofs.Run.Steps

/-! The chain cache cannot be seen. In every state with fewer than 2^64 edits since the start, a chain
read through the cache is the chain of the present graph, and a step that changes what a receiver
looks up leaves no chain cached before it valid. -/

namespace Mixin

open Image

theorem Setup.cached_boot (u : Setup) (r : Receiver) (name : Symbol) :
    u.boot.cached? r name = none := by
  obtain ⟨s, names, hseed, heq⟩ := u.boot_eq
  have hs := hseed.sound
  have hwatch : (names.foldl Image.watch s).cached? r name = s.cached? r name := by
    clear heq hseed
    induction names generalizing s with
    | nil => rfl
    | cons n names ih =>
      rw [List.foldl_cons, ih _ ((Akin.watch hs n).sound hs), cached_watch]
  rw [heq, cached_resolve ((akin_foldl_watch hs names).sound hs), hwatch,
    cached_of_blank (hseed.singleton_eq r)]

theorem Setup.remembers_boot (u : Setup) : u.boot.Remembers u.boot.graph.edits where
  base_le := Nat.le_refl _
  cached r name c hc := by
    rw [u.cached_boot] at hc
    cases hc

namespace Machine

variable {ω : Type} {k : Manners} {u : Setup}

/-- One machine comes to another while a receiver is there throughout. -/
inductive Leads (k : Manners) (r : Receiver) : Machine ω → Machine ω → Prop where
  | refl (m : Machine ω) : m.world.image.Alive r → Leads k r m m
  | step {m m' m'' : Machine ω} : Leads k r m m' → m'.Permitted k → m'.step = .inr m'' →
      m''.world.image.Alive r → Leads k r m m''

namespace Leads

variable {r : Receiver} {m m' : Machine ω}

theorem reached (h : Leads k r m m') (hm : m.Reached k u) : m'.Reached k u := by
  induction h with
  | refl => exact hm
  | step _ hp hstep _ ih => exact .step ih hp hstep

theorem alive (h : Leads k r m m') : m'.world.image.Alive r := by
  cases h with
  | refl hr => exact hr
  | step _ _ _ hr => exact hr

end Leads

variable {m m' : Machine ω}

theorem Reached.remembers (h : m.Reached k u) :
    m.world.image.Remembers u.boot.graph.edits :=
  h.invariant u.remembers_boot fun _ _ hs _ hsafe hr => Edit.remembers hs hsafe hr

/-- A step that is not counted leaves the look-ups of a receiver alone that is there before it and
after it. -/
theorem Moves.counted_or_same {s s' : Image} (h : Moves k s s') (hs : s.Sound) {r : Receiver}
    (hr : s.Alive r) (hr' : s'.Alive r) (name : Symbol) :
    s.graph.edits < s'.graph.edits ∨
      s'.graph.edits = s.graph.edits ∧ s'.lookup r name = s.lookup r name := by
  rcases h with hb | ⟨o, ho, rfl⟩
  · -- Usual edits take no receiver away, so it is there before and after each of them.
    refine (hb.invariant (I := fun s' => s'.Alive r ∧ (s.graph.edits < s'.graph.edits ∨
      s'.graph.edits = s.graph.edits ∧ s'.lookup r name = s.lookup r name)) hs
      ⟨hr, Or.inr ⟨rfl, rfl⟩⟩ fun s₁ e hs₁ he hsafe ih => ?_).2.2
    have hkept : s₁.Kept (fun _ => True) r := ⟨ih.1, fun _ _ => trivial⟩
    have halive := ((Edit.persists_of_lasting hs₁ hsafe he.2).kept hs₁ (Edit.sound hs₁ hsafe)
      hkept).1
    refine ⟨halive, ?_⟩
    rcases Edit.counted_or_quiet hs₁ hsafe with hlt | hquiet
    · rcases ih.2 with h₁ | ⟨h₁, -⟩ <;> omega
    · rcases ih.2 with h₁ | ⟨h₁, h₂⟩
      · exact Or.inl (hquiet.edits ▸ h₁)
      · refine Or.inr ⟨hquiet.edits.trans h₁, ?_⟩
        rw [hquiet.lookup r ih.1.known halive.known, h₂]
  · rcases Edit.counted_or_quiet (e := .release o) hs ho with hlt | hquiet
    · exact Or.inl hlt
    · exact Or.inr ⟨hquiet.edits, hquiet.lookup r hr.known hr'.known name⟩

theorem Leads.counted_or_same {r : Receiver} (h : Leads k r m m') (hm : m.Reached k u)
    (name : Symbol) : m.world.image.graph.edits < m'.world.image.graph.edits ∨
      m'.world.image.graph.edits = m.world.image.graph.edits ∧
        m'.world.image.lookup r name = m.world.image.lookup r name := by
  induction h with
  | refl => exact Or.inr ⟨rfl, rfl⟩
  | @step m₁ m₂ hl hp hstep hr ih =>
    have hm₁ := hl.reached hm
    have hmoves := hm₁.moves hp hstep
    rcases hmoves.counted_or_same hm₁.sane.sound hl.alive hr name with h₁ | ⟨h₁, h₂⟩
    · rcases ih with h₀ | ⟨h₀, -⟩ <;> omega
    · rcases ih with h₀ | ⟨h₀, h₀'⟩
      · exact Or.inl (h₁ ▸ h₀)
      · exact Or.inr ⟨h₁.trans h₀, h₂.trans h₀'⟩

/-- In a run with fewer than 2^64 edits a chain read through the cache is computed on the present
graph; and once a receiver looks up another chain than before, the graph's generation is not that of
any chain cached before. -/
theorem Reached.chainFor_eq (h : m.Reached k u)
    (hb : m.world.image.graph.edits < u.boot.graph.edits + 2 ^ 64) (r : Receiver)
    (name : Symbol) :
    (m.world.image.chainFor r name).1 =
      m.world.image.graph.chain (m.world.image.effectiveModule r) name ∧
    ∀ m', Leads k r m m' → m'.world.image.graph.edits < u.boot.graph.edits + 2 ^ 64 →
      m'.world.image.graph.chain (m'.world.image.effectiveModule r) name ≠
        m.world.image.graph.chain (m.world.image.effectiveModule r) name →
      ∀ (a : Receiver) (n : Symbol) (c : CachedChain),
        (m.world.image.singleton a).chains[n]? = some c →
        m'.world.image.graph.generation ≠ c.generation := by
  refine ⟨h.remembers.chainFor_fresh hb r name, ?_⟩
  intro m' hlead hb' hne a n c hc hgen
  obtain ⟨e, hbase, hle, hce, -⟩ := h.remembers.cached a n c hc
  have hlt : m.world.image.graph.edits < m'.world.image.graph.edits := by
    rcases hlead.counted_or_same h name with hlt | ⟨-, hsame⟩
    · exact hlt
    · exact absurd hsame hne
  have heq : e = m'.world.image.graph.edits := by
    refine generation_inj hbase (by omega) hb' ?_
    rw [← hce, ← hgen]
    rfl
  omega

/-- The chain that a send has cached is out of date once its body has redefined the method. -/
theorem generation_redefined :
    (entered.world.image.chainFor (.module .kernel) .inspect).1 =
      entered.world.image.graph.chain
        (entered.world.image.effectiveModule (.module .kernel)) .inspect ∧
    ∃ c, (entered.world.image.singleton (.module .kernel)).chains[Symbol.inspect]? = some c ∧
      redefined.world.image.graph.generation ≠ c.generation := by
  have hstarted := (reached_started {}).sane.sound
  have hredefined := (reached_redefined {}).sane.sound
  have hentered : Leads {} (.module .kernel) entered started :=
    .step (.refl entered hstarted.live_kernel) trivial rfl hstarted.live_kernel
  have hleads : Leads {} (.module .kernel) entered redefined :=
    .step hentered (permitted_started {}) rfl hredefined.live_kernel
  obtain ⟨hchain, hgeneration⟩ := (reached_entered {}).chainFor_eq (by decide +kernel)
    (.module .kernel) .inspect
  obtain ⟨c, hc⟩ : ∃ c, (entered.world.image.singleton (.module .kernel)).chains[Symbol.inspect]? =
      some c := Option.isSome_iff_exists.1 (by decide +kernel)
  refine ⟨hchain, c, hc, ?_⟩
  exact hgeneration redefined hleads (by decide +kernel) (by decide +kernel) _ _ c hc

end Machine

end Mixin
