import Mixin.Proofs.Image.Settling

/-! What bringing a table to a fresh view writes. Names that the view has no longer are dropped, an entry
that stands for what it should stays, and every other name of the view is written once and counted. No
write concerns a second name, so the order in which the view is gone through does not matter. -/

namespace Mixin

namespace SlotTable

variable {t fresh : SlotTable} {n : Symbol}

/-- The entry that a name is left with: the old one if it stands for the same as the fresh one. -/
def settle (old : Option Slot) (new : Slot) : Slot := (old.filter (·.sameAs new)).getD new

theorem settle_of_sameAs {x y : Slot} (h : x.sameAs y = true) : settle (some x) y = x := by
  simp [settle, Option.filter_some, h]

theorem settle_of_not_sameAs {old : Option Slot} {y : Slot}
    (h : ∀ x, old = some x → x.sameAs y = false) : settle old y = y := by
  cases old with
  | none => rfl
  | some x => simp [settle, Option.filter_some, h x rfl]

theorem sameAs_settle (old : Option Slot) (y : Slot) : (settle old y).sameAs y = true := by
  cases old with
  | none => exact Slot.sameAs_refl y
  | some x =>
    cases h : x.sameAs y with
    | false => simpa [settle, Option.filter_some, h] using Slot.sameAs_refl y
    | true => simp [settle, Option.filter_some, h]

theorem getElem?_write_self (state : SlotTable × Nat) (e : Symbol × Slot) :
    (write state e).1[e.1]? = some (settle state.1[e.1]? e.2) := by
  unfold write settled
  cases hx : state.1[e.1]? with
  | none => simp [settle]
  | some x =>
    cases h : x.sameAs e.2 with
    | false => simp [settle, Option.filter_some, h]
    | true => simp [settle, Option.filter_some, h, hx]

theorem settled_write_of_ne (state : SlotTable × Nat) {e : Symbol × Slot} (h : e.1 ≠ n) (y : Slot) :
    settled (write state e).1 n y = settled state.1 n y := by
  rw [settled, settled, getElem?_write_of_ne _ _ _ h]

theorem count_write (state : SlotTable × Nat) (e : Symbol × Slot) :
    (write state e).2 = state.2 + if settled state.1 e.1 e.2 then 0 else 1 := by
  unfold write
  split <;> rfl

section Entries

variable {entries : List (Symbol × Slot)} (hd : entries.Pairwise fun a b => a.1 ≠ b.1)
include hd

theorem getElem?_foldl_write (state : SlotTable × Nat) {e : Symbol × Slot} (he : e ∈ entries) :
    (entries.foldl write state).1[e.1]? = some (settle state.1[e.1]? e.2) := by
  obtain ⟨before, after, rfl⟩ := List.append_of_mem he
  obtain ⟨-, hafter, hbefore⟩ := List.pairwise_append.1 hd
  have hother := fun ms state => look_foldl_of_not_mem (n := e.1)
    (fun (state : SlotTable × Nat) n => state.1[n]?) getElem?_write_of_ne ms state
  rw [List.foldl_append, List.foldl_cons, hother after, getElem?_write_self, hother before]
  · intro a ha
    exact hbefore a ha e List.mem_cons_self
  · intro a ha
    exact ((List.pairwise_cons.1 hafter).1 a ha).symm

theorem count_foldl_write (state : SlotTable × Nat) : (entries.foldl write state).2 =
    state.2 + entries.countP fun e => !settled state.1 e.1 e.2 := by
  induction entries generalizing state with
  | nil => rfl
  | cons e entries ih =>
    obtain ⟨he, hd⟩ := List.pairwise_cons.1 hd
    -- What the first write settles is settled for its own name only.
    have hsame : entries.countP (fun a => !settled (write state e).1 a.1 a.2) =
        entries.countP fun a => !settled state.1 a.1 a.2 := by
      refine List.countP_congr fun a ha => ?_
      rw [settled_write_of_ne state (he a ha)]
    rw [List.foldl_cons, ih hd, hsame, count_write, List.countP_cons]
    cases settled state.1 e.1 e.2 with
    | false =>
      simp
      omega
    | true => simp

end Entries

section View

theorem getElem?_restrict (h : n ∈ fresh) : (restrict t fresh)[n]? = t[n]? := by
  have hcontains : fresh.contains n = true := h
  rw [restrict, Std.ExtTreeMap.getElem?_filter', hcontains]
  cases t[n]? <;> rfl

variable {entries : List (Symbol × Slot)} (h : entries.Perm fresh.toList)
include h

theorem pairwise_of_perm : entries.Pairwise fun a b => a.1 ≠ b.1 :=
  (h.pairwise_iff Ne.symm).2 (toList_pairwise fresh)

theorem mem_of_mem_entries {e : Symbol × Slot} (he : e ∈ entries) : e.1 ∈ fresh := by
  have hfresh := Std.ExtTreeMap.mem_toList_iff_getElem?_eq_some.1 (h.mem_iff.1 he)
  exact Std.ExtTreeMap.mem_iff_isSome_getElem?.2 (by rw [hfresh]; rfl)

/-- In whatever order the view is gone through, each of its names is left with one entry or the
other, and no other name with any. -/
theorem getElem?_writeAll (n : Symbol) :
    (writeAll (restrict t fresh) entries).1[n]? = fresh[n]?.map (settle t[n]?) := by
  unfold writeAll
  cases hn : fresh[n]? with
  | none =>
    have hcontains : fresh.contains n = false := by
      rw [Std.ExtTreeMap.contains_eq_isSome_getElem?, hn]
      rfl
    rw [look_foldl_of_not_mem (fun (state : SlotTable × Nat) n => state.1[n]?)
      getElem?_write_of_ne _ _ fun e he => toList_ne hn e (h.mem_iff.1 he)]
    rw [restrict, Std.ExtTreeMap.getElem?_filter', hcontains]
    cases t[n]? <;> rfl
  | some y =>
    have he : (n, y) ∈ entries :=
      h.mem_iff.2 (Std.ExtTreeMap.mem_toList_iff_getElem?_eq_some.2 hn)
    rw [getElem?_foldl_write (pairwise_of_perm h) _ he, getElem?_restrict (mem_of_mem_entries h he)]
    rfl

theorem count_writeAll : (writeAll (restrict t fresh) entries).2 =
    fresh.toList.countP fun e => !settled t e.1 e.2 := by
  rw [writeAll, count_foldl_write (pairwise_of_perm h), Nat.zero_add, ← h.countP_eq]
  refine List.countP_congr fun e he => ?_
  rw [settled, settled, getElem?_restrict (mem_of_mem_entries h he)]

theorem writeAll_of_perm : writeAll (restrict t fresh) entries = sync t fresh := by
  refine Prod.ext ?_ ?_
  · refine Std.ExtTreeMap.ext_getElem? fun n => ?_
    rw [sync, getElem?_writeAll h, getElem?_writeAll (List.Perm.refl _)]
  · rw [sync, count_writeAll h, count_writeAll (List.Perm.refl _)]

end View

theorem getElem?_sync (t fresh : SlotTable) (n : Symbol) :
    (sync t fresh).1[n]? = fresh[n]?.map (settle t[n]?) := getElem?_writeAll (List.Perm.refl _) n

/-- A table that is brought to a fresh view has the names of the view, each with an entry that stands
for the same. Entries that did so before are kept as they were and the others are the view's. What is
counted are the names that had no entry of the kind; what is dropped does not count. The view may be
gone through in any order, and once more writes nothing. -/
theorem sync_minimal (t fresh : SlotTable) :
    (∀ n, n ∈ (sync t fresh).1 ↔ n ∈ fresh) ∧
    (∀ (n : Symbol) (x y : Slot), (sync t fresh).1[n]? = some x → fresh[n]? = some y → x.sameAs y = true) ∧
    (∀ (n : Symbol) (x y : Slot), t[n]? = some x → fresh[n]? = some y → x.sameAs y = true →
      (sync t fresh).1[n]? = some x) ∧
    (∀ (n : Symbol) (y : Slot), fresh[n]? = some y → (∀ x, t[n]? = some x → x.sameAs y = false) →
      (sync t fresh).1[n]? = some y) ∧
    (sync t fresh).2 = fresh.toList.countP (fun e => !settled t e.1 e.2) ∧
    (∀ entries : List (Symbol × Slot), entries.Perm fresh.toList →
      writeAll (restrict t fresh) entries = sync t fresh) ∧
    sync (sync t fresh).1 fresh = ((sync t fresh).1, 0) := by
  have hget := getElem?_sync t fresh
  refine ⟨fun n => ?_, fun n x y hx hy => ?_, fun n x y hx hy hsame => ?_, fun n y hy hother => ?_,
    count_writeAll (List.Perm.refl _), fun entries h => writeAll_of_perm h,
    sync_of_agrees (agree_sync t fresh)⟩
  · rw [Std.ExtTreeMap.mem_iff_isSome_getElem?, Std.ExtTreeMap.mem_iff_isSome_getElem?, hget,
      Option.isSome_map]
  · rw [hget, hy] at hx
    exact Option.some.inj hx ▸ sameAs_settle t[n]? y
  · rw [hget, hy, hx, Option.map_some, settle_of_sameAs hsame]
  · rw [hget, hy, Option.map_some, settle_of_not_sameAs hother]

def outdated : SlotTable :=
  .ofList [(⟨1⟩, .direct (.program 1 true)), (⟨2⟩, .direct (.program 2 false)),
    (⟨3⟩, .direct (.program 3 false)), (⟨4⟩, .direct (.program 4 false))] compare

/-- A view with the first body under another mark, the second entered in another way, a new body for
the third name, none for the fourth, and a new name. -/
def renewed : SlotTable :=
  .ofList [(⟨1⟩, .direct (.program 1 false)), (⟨2⟩, .chained (.program 2 false)),
    (⟨3⟩, .direct (.program 7 false)), (⟨5⟩, .chained (.program 5 true))] compare

theorem sync_minimal_outdated :
    (sync outdated renewed).2 = 3 ∧
    (sync outdated renewed).1[(⟨1⟩ : Symbol)]? = some (.direct (.program 1 true)) ∧
    (sync outdated renewed).1[(⟨2⟩ : Symbol)]? = some (.chained (.program 2 false)) ∧
    (⟨4⟩ : Symbol) ∉ (sync outdated renewed).1 ∧
    writeAll (restrict outdated renewed) renewed.toList.reverse = sync outdated renewed := by
  obtain ⟨hnames, -, hkept, hwritten, hcount, horder, -⟩ := sync_minimal outdated renewed
  have hold : outdated[(⟨2⟩ : Symbol)]? = some (.direct (.program 2 false)) := by decide +kernel
  refine ⟨hcount.trans (by decide +kernel), ?_, ?_, ?_, horder _ (List.reverse_perm _)⟩
  · exact hkept ⟨1⟩ _ (.direct (.program 1 false)) (by decide +kernel) (by decide +kernel) rfl
  · refine hwritten ⟨2⟩ _ (by decide +kernel) fun x hx => ?_
    obtain rfl := Option.some.inj (hold.symm.trans hx)
    rfl
  · rw [hnames]
    decide +kernel

end SlotTable

end Mixin
