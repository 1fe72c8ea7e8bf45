import Mixin.Proofs.FirstSeen
import Mixin.Proofs.Graph.View

/-! How an ancestry is put together from others. Of two walks over the same modules, the one that
starts further on leaves what the other leaves, less what it had entered before. So the ancestry of a
module that is on no cycle is that of all it includes, one after the other, with each module kept
where it comes first. -/

namespace Mixin

open Relation

namespace Graph

variable {g : Graph} {a b c m : ModuleId} {ms ms' : List ModuleId}

/-- The second walk has entered what the first has; and whatever else it has entered of what these
modules are composed of, it has done with. -/
structure Ahead (g : Graph) (ms : List ModuleId) (u w : Walk) : Prop where
  entered : u.entered ⊆ w.entered
  closed : ∀ m ∈ ms, ∀ x, g.Reaches m x → x ∈ w.entered → x ∉ u.entered →
    ∀ y ∈ (g.node x).included, y ∈ w.entered

namespace Ahead

variable {u u' v w : Walk}

/-- The first walk may catch up, and take up less. -/
theorem mono (h : Ahead g ms u w) (hu : u.entered ⊆ u'.entered) (hw : u'.entered ⊆ w.entered)
    (hms : ∀ b ∈ ms', ∃ m ∈ ms, g.Reaches m b) : Ahead g ms' u' w where
  entered := hw
  closed b hb x hr hx hn := by
    obtain ⟨m, hm, hmb⟩ := hms b hb
    exact h.closed m hm x (hmb.trans hr) hx fun hxu => hn (hu hxu)

theorem reaches_tail : ∀ b ∈ ms, ∃ x ∈ m :: ms, g.Reaches x b :=
  fun b hb => ⟨b, List.mem_cons_of_mem _ hb, .refl⟩

theorem reaches_included : ∀ b ∈ (g.node m).included, ∃ x ∈ m :: ms, g.Reaches x b :=
  fun _ hb => ⟨m, List.mem_cons_self, .single hb⟩

theorem enter (h : Ahead g (m :: ms) u w) :
    Ahead g (g.node m).included (u.enter m) (w.enter m) where
  entered := List.cons_subset_cons m h.entered
  closed b hb x hr hx hn y hy := by
    rcases List.mem_cons.1 hx with rfl | hx
    · exact absurd List.mem_cons_self hn
    · refine List.mem_cons_of_mem _ (h.closed m List.mem_cons_self x (.head hb hr) hx ?_ y hy)
      exact fun hxu => hn (List.mem_cons_of_mem _ hxu)

theorem below (h : Ahead g (m :: ms) u w) (hmw : m ∈ w.entered) :
    Ahead g (g.node m).included (u.enter m) w :=
  h.mono (List.subset_cons_self _ _) (List.cons_subset.2 ⟨hmw, h.entered⟩) reaches_included

theorem entered_subset (ht : Trail g ms u u') (h : Ahead g ms u w) (hms : ∀ m ∈ ms, m ∈ w.entered) :
    u'.entered ⊆ w.entered := by
  induction ht with
  | done u => exact h.entered
  | skip _ _ ih =>
    exact ih (h.mono (List.Subset.refl _) h.entered reaches_tail) fun b hb =>
      hms b (List.mem_cons_of_mem _ hb)
  | @down m rest u v u' hm h₁ h₂ ih₁ ih₂ =>
    have hmw : m ∈ w.entered := hms m List.mem_cons_self
    have hv : v.entered ⊆ w.entered :=
      ih₁ (h.below hmw) (h.closed m List.mem_cons_self m .refl hmw hm)
    have huv : u.entered ⊆ v.entered :=
      List.Subset.trans (List.subset_cons_self _ _) h₁.entered_subset
    exact ih₂ (h.mono huv hv reaches_tail) fun b hb => hms b (List.mem_cons_of_mem _ hb)

end Ahead

namespace Trail

variable {u u' v v' w w' : Walk}

theorem uncons (h : Trail g (m :: ms) w w') : ∃ v, Trail g [m] w v ∧ Trail g ms v w' := by
  cases h with
  | skip hm h => exact ⟨w, .skip hm (.done w), h⟩
  | down hm h₁ h₂ => exact ⟨_, .down hm h₁ (.done _), h₂⟩

theorem exists_left (h : Trail g ms w w') :
    ∃ new, w'.left = new ++ w.left ∧ ∀ x, x ∈ new ↔ x ∈ w'.entered ∧ x ∉ w.entered := by
  induction h with
  | done w => exact ⟨[], rfl, by simp⟩
  | skip _ _ ih => exact ih
  | @down m rest w v w' hm h₁ h₂ ih₁ ih₂ =>
    obtain ⟨new₁, hleft₁, hnew₁⟩ := ih₁
    obtain ⟨new₂, hleft₂, hnew₂⟩ := ih₂
    have hwv : m :: w.entered ⊆ v.entered := h₁.entered_subset
    have hvw' : v.entered ⊆ w'.entered := h₂.entered_subset
    refine ⟨new₂ ++ m :: new₁, by simp [hleft₂, Walk.leave, hleft₁, Walk.enter], fun x => ?_⟩
    have hx₁ : x = m ∨ x ∈ w.entered → x ∈ v.entered := fun h => hwv (List.mem_cons.2 h)
    have hx₂ : x ∈ v.entered → x ∈ w'.entered := fun h => hvw' h
    have hmw : x = m → x ∉ w.entered := fun h => h ▸ hm
    simp only [Walk.leave, Walk.enter, List.mem_cons, List.mem_append, hnew₁, hnew₂]
    tauto

/-- Where the walk that is ahead has been at a module, it has been everywhere below. -/
theorem ahead_skip (h₁ : Trail g (g.node m).included (u.enter m) v) (h : Ahead g (m :: ms) u w)
    (hm : m ∉ u.entered) (hmw : m ∈ w.entered) : Ahead g ms (v.leave m) w := by
  have hv : v.entered ⊆ w.entered :=
    Ahead.entered_subset h₁ (h.below hmw) (h.closed m List.mem_cons_self m .refl hmw hm)
  have huv : u.entered ⊆ v.entered :=
    List.Subset.trans (List.subset_cons_self _ _) h₁.entered_subset
  exact h.mono huv hv Ahead.reaches_tail

/-- Where both walks have entered a module and all below it, the second is still ahead, and of what
the first has not entered it has entered nothing new. -/
theorem ahead_leave (h₁ : Trail g (g.node m).included (u.enter m) v)
    (h₁' : Trail g (g.node m).included (w.enter m) v') (h : Ahead g (m :: ms) u w)
    {new : List ModuleId} (hnew : v.left = new ++ u.left)
    (hnew' : v'.left = new.filter (· ∉ (w.enter m).entered) ++ w.left) :
    Ahead g ms (v.leave m) (v'.leave m) ∧
      ∀ x, x ∉ v.entered → (x ∈ v'.entered ↔ x ∈ w.entered) := by
  have huv : m :: u.entered ⊆ v.entered := h₁.entered_subset
  have hwv' : m :: w.entered ⊆ v'.entered := h₁'.entered_subset
  obtain ⟨_, hleft, hmem⟩ := h₁.exists_left
  obtain rfl := List.append_cancel_right (hleft.symm.trans hnew)
  obtain ⟨_, hleft', hmem'⟩ := h₁'.exists_left
  obtain rfl := List.append_cancel_right (hleft'.symm.trans hnew')
  have hold : ∀ x, x ∉ v.entered → (x ∈ v'.entered ↔ x ∈ w.entered) := by
    intro x hx
    refine ⟨fun hx' => ?_, fun hxw => hwv' (List.mem_cons_of_mem _ hxw)⟩
    by_contra hxw
    have hne : x ≠ m := fun he => hx (huv (he ▸ List.mem_cons_self))
    have hx'' := (hmem' x).2 ⟨hx', fun h => (List.mem_cons.1 h).elim hne hxw⟩
    exact hx ((hmem x).1 (List.mem_of_mem_filter hx'')).1
  refine ⟨⟨fun x hx => ?_, fun b hb x hr hx hn y hy => ?_⟩, hold⟩
  · by_cases hxw : x ∈ m :: w.entered
    · exact hwv' hxw
    · have hxnew := (hmem x).2 ⟨hx, fun h' => hxw (List.cons_subset_cons m h.entered h')⟩
      exact ((hmem' x).1 (List.mem_filter.2 ⟨hxnew, decide_eq_true hxw⟩)).1
  · have hxw := (hold x hn).1 hx
    have hxu : x ∉ u.entered := fun h' => hn (huv (List.mem_cons_of_mem _ h'))
    exact hwv' (List.mem_cons_of_mem _ (h.closed b (List.mem_cons_of_mem _ hb) x hr hxw hxu y hy))

/-- A walk that is ahead leaves what the other leaves, less what it had entered before. -/
theorem left_filter (h : Trail g ms u u') (h' : Trail g ms w w') (ha : Ahead g ms u w)
    {new : List ModuleId} (hnew : u'.left = new ++ u.left) :
    w'.left = new.filter (· ∉ w.entered) ++ w.left := by
  induction h generalizing w w' new with
  | done u =>
    cases h'
    rw [List.self_eq_append_left.1 hnew]
    rfl
  | @skip m rest u u' hm _ ih =>
    cases h' with
    | skip _ h' => exact ih h' (ha.mono (List.Subset.refl _) ha.entered Ahead.reaches_tail) hnew
    | down hn _ _ => exact absurd (ha.entered hm) hn
  | @down m rest u v u' hm h₁ h₂ ih₁ ih₂ =>
    obtain ⟨new₁, hleft₁, hnew₁⟩ := h₁.exists_left
    obtain ⟨new₂, hleft₂, hnew₂⟩ := h₂.exists_left
    obtain rfl : new₂ ++ m :: new₁ = new := by
      rw [hleft₂] at hnew
      have happend : (new₂ ++ m :: new₁) ++ u.left = new ++ u.left := by
        simpa [Walk.leave, hleft₁, Walk.enter] using hnew
      exact List.append_cancel_right happend
    cases h' with
    | skip hmw h' =>
      have hrest := ahead_skip h₁ ha hm hmw
      have hnone : (m :: new₁).filter (· ∉ w.entered) = [] := by
        refine List.filter_eq_nil_iff.2 fun x hx => ?_
        have hxw : x ∈ w.entered := by
          rcases List.mem_cons.1 hx with rfl | hx
          · exact hmw
          · exact hrest.entered ((hnew₁ x).1 hx).1
        simpa using hxw
      rw [ih₂ h' hrest hleft₂, List.filter_append, hnone, List.append_nil]
    | @down _ _ _ v' _ hmw h₁' h₂' =>
      have hleft₁' := ih₁ h₁' ha.enter hleft₁
      obtain ⟨hrest, hold⟩ := ahead_leave h₁ h₁' ha hleft₁ hleft₁'
      have hfilter₁ : new₁.filter (· ∉ (w.enter m).entered) = new₁.filter (· ∉ w.entered) := by
        refine List.filter_congr fun x hx => ?_
        have hne : x ≠ m := fun he => ((hnew₁ x).1 hx).2 (he ▸ List.mem_cons_self)
        simp [Walk.enter, hne]
      have hfilter₂ : new₂.filter (· ∉ (v'.leave m).entered) = new₂.filter (· ∉ w.entered) := by
        refine List.filter_congr fun x hx => ?_
        have hx' := hold x ((hnew₂ x).1 hx).2
        simp only [Walk.leave, hx']
      have hm' : decide (m ∉ w.entered) = true := decide_eq_true hmw
      rw [hfilter₁] at hleft₁'
      rw [ih₂ h₂' hrest hleft₂, hfilter₂, List.filter_append, List.filter_cons, if_pos hm']
      simp only [Walk.leave, hleft₁', Walk.enter, List.append_assoc, List.cons_append]

theorem left_linearize (h : Trail g [m] w w') (ha : Ahead g [m] {} w) :
    w'.left = ((g.linearize m).filter (· ∉ w.entered)).reverse ++ w.left := by
  obtain ⟨u, hu, he⟩ := g.trail_linearize m
  have hnew : u.left = u.left ++ ({} : Walk).left := (List.append_nil _).symm
  have hleft := hu.left_filter h ha hnew
  rw [hleft, he, List.filter_reverse, List.reverse_reverse]

/-- What a walk leaves of several modules' ancestries: each module where it comes first. -/
theorem left_flatMap (h : Trail g ms w w') (ha : Ahead g ms {} w) :
    w'.left = (((ms.flatMap g.linearize).filter (· ∉ w.entered)).eraseDups).reverse ++ w.left := by
  induction ms generalizing w with
  | nil =>
    cases h
    rfl
  | cons m ms ih =>
    obtain ⟨v, h₁, h₂⟩ := h.uncons
    have hm : Ahead g [m] {} w := ha.mono (List.Subset.refl _) (List.nil_subset _) fun b hb =>
      ⟨m, List.mem_cons_self, List.mem_singleton.1 hb ▸ .refl⟩
    have hleft := h₁.left_linearize hm
    obtain ⟨new, hnew, hmem⟩ := h₁.exists_left
    obtain rfl := List.append_cancel_right (hnew.symm.trans hleft)
    have hv : ∀ x, x ∈ v.entered ↔ x ∈ w.entered ∨ x ∈ g.linearize m := by
      intro x
      have hx := hmem x
      have hsub : x ∈ w.entered → x ∈ v.entered := fun h => h₁.entered_subset h
      rw [List.mem_reverse, List.mem_filter, decide_eq_true_iff] at hx
      tauto
    have hrest : Ahead g ms {} v := by
      refine ⟨List.nil_subset _, fun b hb x hr hx _ y hy => ?_⟩
      by_cases hxw : x ∈ w.entered
      · exact h₁.entered_subset (ha.closed b (List.mem_cons_of_mem _ hb) x hr hxw
          List.not_mem_nil y hy)
      · exact h₁.entered_closed hx hxw hy
    have hfirst := eraseDups_of_nodup ((g.linearize_nodup m).filter (· ∉ w.entered))
    have hrest' : ((ms.flatMap g.linearize).filter (· ∉ w.entered)).removeAll
        ((g.linearize m).filter (· ∉ w.entered)) =
          (ms.flatMap g.linearize).filter (· ∉ v.entered) := by
      rw [List.removeAll, List.filter_filter]
      refine List.filter_congr fun x _ => ?_
      simp only [hv, List.elem_eq_mem, List.mem_filter, decide_not]
      grind
    rw [ih h₂ hrest, hleft, List.flatMap_cons, List.filter_append, List.eraseDups_append, hfirst,
      hrest', List.reverse_append, List.append_assoc]

end Trail

/-- A walk that has entered one module, which is on no cycle, is ahead with what it includes. -/
theorem ahead_included (h : ∀ b ∈ (g.node a).included, ¬ g.Reaches b a) :
    Ahead g (g.node a).included {} (Walk.enter {} a) where
  entered := List.nil_subset _
  closed b hb _ hr hx _ _ _ := absurd (List.mem_singleton.1 hx ▸ hr) (h b hb)

/-- An ancestry goes on from that of the module that is included first, unless that leads back. The
start is marked as entered while the other module is walked, and is not met there. -/
theorem linearize_of_first {rest : List ModuleId} (hin : (g.node a).included = b :: rest)
    (hback : ¬ g.Reaches b a) : g.linearize b <+: g.linearize a := by
  have hahead : Ahead g [b] {} (Walk.enter {} a) := by
    refine ⟨List.nil_subset _, fun m hm x hr hx _ => absurd ?_ hback⟩
    rw [← List.mem_singleton.1 hm, ← List.mem_singleton.1 hx]
    exact hr
  have hself : (g.linearize b).filter (· ∉ (Walk.enter {} a).entered) = g.linearize b := by
    refine List.filter_eq_self.2 fun x hx => decide_eq_true fun hxa => hback ?_
    exact List.mem_singleton.1 hxa ▸ mem_linearize.1 hx
  obtain ⟨w, hw, he⟩ := g.trail_linearize a
  cases hw with
  | skip hm _ => exact absurd hm List.not_mem_nil
  | @down _ _ _ v _ _ h₁ h₂ =>
    cases h₂
    rw [hin] at h₁
    obtain ⟨v₁, hfirst, hrest⟩ := h₁.uncons
    have hleft := hfirst.left_linearize hahead
    rw [hself] at hleft
    obtain ⟨new, hnew, -⟩ := hrest.exists_left
    refine ⟨new.reverse ++ [a], ?_⟩
    rw [he, Walk.leave, List.reverse_cons, hnew, hleft]
    simp [Walk.enter]

theorem getElem?_view_of_split {above below : List ModuleId} {n : Symbol}
    (hsplit : g.linearize a = above ++ c :: below) (hc : (g.node c).methods[n]? ≠ none) :
    (g.view a)[n]? = ((c :: below).filterMap fun x => (g.node x).methods[n]?).getLast? := by
  obtain ⟨x, hx⟩ := Option.ne_none_iff_exists'.1 hc
  rw [getElem?_view, definition?, hsplit, List.filterMap_append,
    List.getLast?_append_of_ne_nil]
  rw [List.filterMap_cons, hx]
  exact List.cons_ne_nil _ _

theorem linearize_eq_eraseDups (h : ∀ b ∈ (g.node a).included, ¬ g.Reaches b a) :
    g.linearize a = ((g.node a).included.flatMap g.linearize ++ [a]).eraseDups := by
  have ha : a ∉ (g.node a).included.flatMap g.linearize := by
    intro ha
    obtain ⟨b, hb, hab⟩ := List.mem_flatMap.1 ha
    exact h b hb (mem_linearize.1 hab)
  have hall : ((g.node a).included.flatMap g.linearize).filter
      (· ∉ (Walk.enter {} a).entered) = (g.node a).included.flatMap g.linearize := by
    refine List.filter_eq_self.2 fun x hx => decide_eq_true fun hxa => ha ?_
    exact List.mem_singleton.1 hxa ▸ hx
  have hlast : [a].removeAll ((g.node a).included.flatMap g.linearize) = [a] := by
    simpa [List.removeAll] using ha
  obtain ⟨w, hw, he⟩ := g.trail_linearize a
  cases hw with
  | skip hm _ => exact absurd hm List.not_mem_nil
  | down _ h₁ h₂ =>
    cases h₂
    have hleft := h₁.left_flatMap (ahead_included h)
    rw [hall] at hleft
    rw [he, List.eraseDups_append, hlast, Walk.leave, List.reverse_cons, hleft,
      List.reverse_append, List.reverse_reverse]
    rfl

/-- What is included first and not again through what was included before has a place of its own
behind all of that. -/
theorem exists_split (h : ∀ b ∈ (g.node a).included, ¬ g.Reaches b a)
    {before after : List ModuleId} (hin : (g.node a).included = before ++ c :: after)
    (hfirst : ∀ x ∈ before, ¬ g.Reaches x c) :
    ∃ above below, g.linearize a = above ++ c :: below ∧ before ⊆ above := by
  have hnew : c ∉ before.flatMap g.linearize := by
    intro hc
    obtain ⟨x, hx, hcx⟩ := List.mem_flatMap.1 hc
    exact hfirst x hx (mem_linearize.1 hcx)
  have hmerge := linearize_eq_eraseDups h
  rw [hin, List.flatMap_append, List.append_assoc, List.eraseDups_append] at hmerge
  have hc : c ∈ (((c :: after).flatMap g.linearize ++ [a]).removeAll
      (before.flatMap g.linearize)).eraseDups := by
    rw [List.mem_eraseDups, List.removeAll, List.mem_filter]
    refine ⟨List.mem_append_left _ (List.mem_flatMap.2 ⟨c, List.mem_cons_self, ?_⟩), ?_⟩
    · exact mem_linearize.2 .refl
    · simpa using hnew
  obtain ⟨above, below, hsplit⟩ := List.append_of_mem hc
  rw [hsplit, ← List.append_assoc] at hmerge
  refine ⟨_, below, hmerge, fun b hb => List.mem_append_left _ (List.mem_eraseDups.2 ?_)⟩
  exact List.mem_flatMap.2 ⟨b, hb, mem_linearize.2 .refl⟩

/-- The ancestry of a module that is on no cycle is that of all it includes, in order, and then the
module, each kept where it comes first. What is included later, and not already through something
included before, comes later and shadows what comes before. -/
theorem linearize_merge (h : ∀ b ∈ (g.node a).included, ¬ g.Reaches b a) :
    g.linearize a = ((g.node a).included.flatMap g.linearize ++ [a]).eraseDups ∧
    ∀ (before after : List ModuleId) (b c : ModuleId),
      (g.node a).included = before ++ c :: after → b ∈ before →
      (∀ x ∈ before, ¬ g.Reaches x c) →
      ∃ above below : List ModuleId, g.linearize a = above ++ c :: below ∧ b ∈ above ∧
        ∀ n : Symbol, (g.node c).methods[n]? ≠ none →
          (g.view a)[n]? =
            ((c :: below).filterMap fun x => (g.node x).methods[n]?).getLast? := by
  refine ⟨linearize_eq_eraseDups h, fun before after b c hin hb hfirst => ?_⟩
  obtain ⟨above, below, hsplit, hsub⟩ := exists_split h hin hfirst
  exact ⟨above, below, hsplit, hsub hb, fun n hn => getElem?_view_of_split hsplit hn⟩

/-- The last module includes two that share a part and define the same name. -/
def diamond : Graph :=
  let side (i : Nat) : Node :=
    { included := [⟨0⟩], methods := (∅ : MethodTable).insert .inspect (.program i false) }
  { nodes := #[{}, side 1, side 2, { included := [⟨1⟩, ⟨2⟩] }] }

theorem linearize_merge_diamond :
    (∀ b ∈ (diamond.node ⟨3⟩).included, ¬ diamond.Reaches b ⟨3⟩) ∧
    diamond.linearize ⟨3⟩ = [⟨0⟩, ⟨1⟩, ⟨2⟩, ⟨3⟩] ∧
    ∃ above below, diamond.linearize ⟨3⟩ = above ++ ⟨2⟩ :: below ∧ ⟨1⟩ ∈ above ∧
      (diamond.view ⟨3⟩)[Symbol.inspect]? =
        ((⟨2⟩ :: below).filterMap fun x => (diamond.node x).methods[Symbol.inspect]?).getLast? := by
  have hcycle : ∀ b ∈ (diamond.node ⟨3⟩).included, ¬ diamond.Reaches b ⟨3⟩ := by decide +kernel
  have hfirst : ∀ x ∈ ([⟨1⟩] : List ModuleId), ¬ diamond.Reaches x ⟨2⟩ := by decide +kernel
  obtain ⟨hmerge, horder⟩ := linearize_merge hcycle
  obtain ⟨above, below, hsplit, hb, hview⟩ :=
    horder [⟨1⟩] [] ⟨1⟩ ⟨2⟩ rfl List.mem_cons_self hfirst
  refine ⟨hcycle, hmerge.trans (by decide +kernel), above, below, hsplit, hb, hview .inspect ?_⟩
  decide +kernel

end Graph

end Mixin
