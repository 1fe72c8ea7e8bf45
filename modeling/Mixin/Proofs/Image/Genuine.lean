import Mixin.Proofs.ChainCache
import Mixin.Proofs.SlotPath

/-! Chains hold real methods. The gate is no part of any chain and only the gate has stubs, so no stub
is ever cached either, however old the cached chain is. -/

namespace Mixin

namespace Image

variable {s : Image}

/-- Stubs are in the gate alone, and no cached chain has one. -/
structure Genuine (s : Image) : Prop where
  rooted : s.graph.Rooted
  cached : ∀ r n c, s.cached? r n = some c → ∀ x ∈ c.callees, x.isStub = false

theorem isStub_of_mem_lookup (hs : s.Sound) (hrooted : s.graph.Rooted) {r : Receiver} (hr : s.Known r)
    {n : Symbol} {x : Method} (hx : x ∈ s.lookup r n) : x.isStub = false := by
  obtain ⟨t, ht, -⟩ := hs.target_effectiveModule hr
  exact hrooted.isStub_of_mem_chain ht hx

theorem Genuine.isStub_of_mem_chainFor (h : s.Genuine) (hs : s.Sound) {r : Receiver} (hr : s.Known r)
    {n : Symbol} {x : Method} (hx : x ∈ (s.chainFor r n).1) : x.isStub = false := by
  unfold chainFor at hx
  dsimp only at hx
  split at hx
  · rename_i c hc
    exact h.cached r n c (Option.filter_eq_some_iff.1 hc).1 x hx
  · exact isStub_of_mem_lookup hs h.rooted hr hx

end Image

theorem Setup.genuine_boot (u : Setup) : u.boot.Genuine where
  rooted := u.rooted_boot
  cached r n c hc := by
    rw [u.cached_boot] at hc
    cases hc

theorem Edit.genuine {s : Image} {k : Manners} (hgate : k.offGate = true)
    (hgenuine : k.genuine = true) (hs : s.Sound) {e : Edit} (hsafe : e.Safe s) (ha : e.Allowed k)
    (h : s.Genuine) : (e.apply s).Genuine where
  rooted := Edit.rooted hgate hgenuine hs hsafe ha h.rooted
  cached r n c hc x hx := by
    rcases Edit.cached hs hsafe hc with hold | rfl
    · exact h.cached r n c hold x hx
    · have hknown := Image.known_of_cached (Edit.sound hs hsafe) hc
      exact Image.isStub_of_mem_lookup (Edit.sound hs hsafe)
        (Edit.rooted hgate hgenuine hs hsafe ha h.rooted) hknown hx

theorem Image.Genuine.prepare {s : Image} (h : s.Genuine) (hs : s.Sound) (r : Receiver) (n : Symbol) :
    (s.prepare r n).Genuine := by
  unfold Image.prepare
  split
  · exact h
  · exact Edit.genuine (e := .watchNow n) (k := .fair) rfl rfl hs trivial trivial h

theorem Machine.Reached.genuine {ω : Type} {k : Manners} {u : Setup} {m : Machine ω}
    (h : m.Reached k u) (hgate : k.offGate = true) (hgenuine : k.genuine = true) :
    m.world.image.Genuine :=
  h.invariant u.genuine_boot fun _ _ hs ha hsafe hg => Edit.genuine hgate hgenuine hs hsafe ha hg

end Mixin
