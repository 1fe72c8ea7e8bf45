import Mixin.Image.Resolve
import Mixin.Proofs.Graph.Walk

/-! What resolution computes. The fresh view of a module has, for each name, the definition of the
last module of its ancestry that defines it, and a table brought up to that view agrees with it. -/

namespace Mixin

/-! A fold that writes an entry at its own name and leaves the other names alone. -/
section Writes

variable {τ β γ : Type} {write : τ → Symbol × β → τ} (look : τ → Symbol → γ)
  (hother : ∀ t e n, e.1 ≠ n → look (write t e) n = look t n)
include hother

theorem look_foldl_of_not_mem (entries : List (Symbol × β)) (t : τ) {n : Symbol}
    (h : ∀ e ∈ entries, e.1 ≠ n) : look (entries.foldl write t) n = look t n := by
  induction entries generalizing t with
  | nil => rfl
  | cons e entries ih =>
    rw [List.foldl_cons, ih _ fun e' he' => h e' (List.mem_cons_of_mem _ he')]
    exact hother t e n (h e List.mem_cons_self)

theorem look_foldl_of_mem {P : β → γ → Prop} (hwrite : ∀ t e, P e.2 (look (write t e) e.1))
    (entries : List (Symbol × β)) (t : τ) (hd : entries.Pairwise fun a b => a.1 ≠ b.1)
    {e : Symbol × β} (he : e ∈ entries) : P e.2 (look (entries.foldl write t) e.1) := by
  induction entries generalizing t with
  | nil => exact absurd he List.not_mem_nil
  | cons x entries ih =>
    obtain ⟨hx, hd⟩ := List.pairwise_cons.1 hd
    rw [List.foldl_cons]
    rcases List.mem_cons.1 he with rfl | he
    · rw [look_foldl_of_not_mem look hother entries _ fun e' he' h => hx e' he' h.symm]
      exact hwrite t e
    · exact ih _ hd he

end Writes

theorem toList_pairwise {β : Type} (t : Std.ExtTreeMap Symbol β) :
    t.toList.Pairwise fun a b => a.1 ≠ b.1 :=
  t.distinct_keys_toList.imp fun h he => h (Std.LawfulEqOrd.compare_eq_iff_eq.2 he)

theorem toList_ne {β : Type} {t : Std.ExtTreeMap Symbol β} {n : Symbol} (h : t[n]? = none) :
    ∀ e ∈ t.toList, e.1 ≠ n := by
  rintro ⟨a, x⟩ he rfl
  rw [Std.ExtTreeMap.mem_toList_iff_getElem?_eq_some.1 he] at h
  cases h

/-- Entries stored one by one shadow those that were there. -/
theorem getElem?_foldl_insert (x t : MethodTable) (n : Symbol) :
    (x.foldl (fun t n m => t.insert n m) t)[n]? = x[n]?.or t[n]? := by
  have hother : ∀ (t : MethodTable) (e : Symbol × Method) (n : Symbol), e.1 ≠ n →
      (t.insert e.1 e.2)[n]? = t[n]? := by
    intro t e n hne
    rw [Std.ExtTreeMap.getElem?_insert, if_neg]
    exact fun h => hne (Std.LawfulEqCmp.eq_of_compare h)
  rw [Std.ExtTreeMap.foldl_eq_foldl_toList]
  cases h : x[n]? with
  | none =>
    rw [look_foldl_of_not_mem (fun t n => t[n]?) hother _ _ (toList_ne h)]
    rfl
  | some m =>
    refine look_foldl_of_mem (fun t n => t[n]?) (P := fun m y => y = some m) hother
      (fun t e => Std.ExtTreeMap.getElem?_insert_self) _ _ (toList_pairwise x) (e := (n, m)) ?_
    exact Std.ExtTreeMap.mem_toList_iff_getElem?_eq_some.2 h

namespace Graph

variable {g g' : Graph} {m : ModuleId} {n : Symbol}

/-- The definition of a name by the last module of an ancestry, hidden modules too, that has one. -/
def definition? (g : Graph) (m : ModuleId) (n : Symbol) : Option Method :=
  ((g.linearize m).filterMap fun a => (g.node a).methods[n]?).getLast?

theorem getElem?_view : (g.view m)[n]? = g.definition? m n := by
  have hfold : ∀ (ms : List ModuleId) (t : MethodTable),
      (ms.foldl (fun t a => (g.node a).methods.foldl (fun t n m => t.insert n m) t) t)[n]? =
        (ms.filterMap fun a => (g.node a).methods[n]?).getLast?.or t[n]? := by
    intro ms
    induction ms with
    | nil => intro t; rfl
    | cons a ms ih =>
      intro t
      rw [List.foldl_cons, ih, getElem?_foldl_insert, List.filterMap_cons]
      cases (g.node a).methods[n]? with
      | none => rfl
      | some x =>
        rw [List.getLast?_cons]
        cases (ms.filterMap fun a => (g.node a).methods[n]?).getLast? <;> rfl
  rw [view, hfold, definition?]
  simp

theorem getElem?_freshSlots : (g.freshSlots m)[n]? = (g.definition? m n).map Slot.ofMethod := by
  rw [freshSlots, Std.ExtTreeMap.getElem?_map, getElem?_view]

/-- Only what a module reaches has a say in what it answers to. -/
theorem definition?_congr
    (hin : ∀ x, g.Reaches m x → (g'.node x).included = (g.node x).included)
    (hm : ∀ x, g.Reaches m x → (g'.node x).methods[n]? = (g.node x).methods[n]?) :
    g'.definition? m n = g.definition? m n := by
  rw [definition?, definition?, linearize_congr hin]
  congr 1
  refine List.filterMap_congr fun x hx => ?_
  rw [hm x (mem_linearize.1 hx)]

end Graph

namespace Slot

/-- Two entries for a name stand for the same behaviour. -/
def Agree : Option Slot → Option Slot → Prop
  | none, none => True
  | some a, some b => a.sameAs b = true
  | _, _ => False

theorem Agree.symm {a b : Option Slot} (h : Agree a b) : Agree b a := by
  cases a with
  | none => cases b <;> exact h
  | some x =>
    cases b with
    | none => exact h
    | some y => exact sameAs_symm h

theorem Agree.isSome {a b : Option Slot} (h : Agree a b) : b.isSome = a.isSome := by
  cases a <;> cases b <;> first | rfl | exact h.elim

theorem Agree.trans {a b c : Option Slot} (h : Agree a b) (h' : Agree b c) : Agree a c := by
  cases a with
  | none =>
    cases b with
    | none => exact h'
    | some y => exact h.elim
  | some x =>
    cases b with
    | none => exact h.elim
    | some y =>
      cases c with
      | none => exact h'
      | some z => exact sameAs_trans h h'

end Slot

namespace SlotTable

theorem getElem?_write_of_ne (state : SlotTable × Nat) (e : Symbol × Slot) (n : Symbol)
    (h : e.1 ≠ n) : (write state e).1[n]? = state.1[n]? := by
  unfold write
  split
  · rfl
  · show (state.1.insert e.1 e.2)[n]? = _
    rw [Std.ExtTreeMap.getElem?_insert, if_neg]
    exact fun he => h (Std.LawfulEqCmp.eq_of_compare he)

theorem agree_sync (t fresh : SlotTable) (n : Symbol) :
    Slot.Agree (sync t fresh).1[n]? fresh[n]? := by
  have hwrite : ∀ (state : SlotTable × Nat) (e : Symbol × Slot),
      Slot.Agree (write state e).1[e.1]? (some e.2) := by
    intro state e
    unfold write
    split
    · rename_i hsettled
      unfold settled at hsettled
      cases hx : state.1[e.1]? with
      | none =>
        rw [hx] at hsettled
        cases hsettled
      | some x =>
        rw [hx] at hsettled
        exact hsettled
    · show Slot.Agree (state.1.insert e.1 e.2)[e.1]? _
      rw [Std.ExtTreeMap.getElem?_insert_self]
      exact Slot.sameAs_refl e.2
  unfold sync writeAll
  cases h : fresh[n]? with
  | none =>
    rw [look_foldl_of_not_mem (fun (state : SlotTable × Nat) n => state.1[n]?)
      getElem?_write_of_ne _ _ (toList_ne h)]
    have hcontains : fresh.contains n = false := by
      rw [Std.ExtTreeMap.contains_eq_isSome_getElem?, h]
      rfl
    rw [restrict, Std.ExtTreeMap.getElem?_filter', hcontains]
    cases t[n]? <;> trivial
  | some x =>
    refine look_foldl_of_mem (fun (state : SlotTable × Nat) n => state.1[n]?)
      (P := fun x y => Slot.Agree y (some x)) getElem?_write_of_ne hwrite _ _
      (toList_pairwise fresh) (e := (n, x)) ?_
    exact Std.ExtTreeMap.mem_toList_iff_getElem?_eq_some.2 h

theorem sync_of_agree {t fresh : SlotTable} {n : Symbol} (h : Slot.Agree t[n]? fresh[n]?) :
    (sync t fresh).1[n]? = t[n]? := by
  cases hfresh : fresh[n]? with
  | none =>
    have hsync := agree_sync t fresh n
    rw [hfresh] at h hsync
    cases ht : t[n]? with
    | none =>
      cases hs : (sync t fresh).1[n]? with
      | none => rfl
      | some y => rw [hs] at hsync; exact hsync.elim
    | some x => rw [ht] at h; exact h.elim
  | some x =>
    rw [hfresh] at h
    unfold sync writeAll
    refine List.foldlRecOn (motive := fun state => state.1[n]? = t[n]?) _ write ?_ ?_
    · rw [restrict, Std.ExtTreeMap.getElem?_filter', Std.ExtTreeMap.contains_eq_isSome_getElem?,
        hfresh]
      cases t[n]? <;> rfl
    · intro state hstate e he
      by_cases hn : e.1 = n
      · -- The only entry for the name says what is there already.
        have hx : fresh[e.1]? = some e.2 := Std.ExtTreeMap.mem_toList_iff_getElem?_eq_some.1 he
        rw [hn, hfresh] at hx
        have hsettled : settled state.1 e.1 e.2 = true := by
          rw [settled, hn, hstate, ← Option.some.inj hx]
          cases ht : t[n]? with
          | none => rw [ht] at h; exact h.elim
          | some y => rw [ht] at h; exact h
        rw [write, if_pos hsettled]
        exact hstate
      · rw [getElem?_write_of_ne _ _ _ hn]
        exact hstate

end SlotTable

end Mixin
