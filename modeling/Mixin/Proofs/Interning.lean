import Std.Data.HashMap
import Mathlib.Data.List.Basic
import Mathlib.Data.Set.Finite.Basic
import Mathlib.Data.Fintype.EquivFin
import Mixin.Proofs.FirstSeen
import Mixin.Symbol

/-! Names and texts determine each other, whatever a table of names is asked. A table that also keeps an
index of its texts, and so need not search, gives the same answers. -/

namespace Mixin

inductive Request where
  | intern (s : String)
  | tryIntern (s : String)
  | get (s : String)
  | lookup (a : Symbol)
  | len
deriving DecidableEq

/-- A full table refuses a new text. Whoever has not asked whether it would is aborted. -/
inductive Answer where
  | symbol (a : Symbol)
  | refused (fault : InternFault)
  | aborted (message : String)
  | found (a? : Option Symbol)
  | text (s : String)
  | count (n : Nat)
deriving DecidableEq

/-- A way of keeping names. -/
structure Interner (T : Type) where
  intern? : T → String → Except InternFault (Symbol × T)
  find? : T → String → Option Symbol
  text : T → Symbol → String
  size : T → Nat

namespace Interner

variable {T U : Type}

def answer (I : Interner T) (t : T) : Request → Answer × T
  | .intern s =>
    match I.intern? t s with
    | .ok (a, t') => (.symbol a, t')
    | .error fault => (.aborted fault.message, t)
  | .tryIntern s =>
    match I.intern? t s with
    | .ok (a, t') => (.symbol a, t')
    | .error fault => (.refused fault, t)
  | .get s => (.found (I.find? t s), t)
  | .lookup a => (.text (I.text t a), t)
  | .len => (.count (I.size t), t)

def after (I : Interner T) (t : T) : List Request → T
  | [] => t
  | q :: rs => I.after (I.answer t q).2 rs

/-- The requests with their answers. -/
def log (I : Interner T) (t : T) : List Request → List (Request × Answer)
  | [] => []
  | q :: rs => (q, (I.answer t q).1) :: I.log (I.answer t q).2 rs

theorem after_append (I : Interner T) (t : T) (rs rs' : List Request) :
    I.after t (rs ++ rs') = I.after (I.after t rs) rs' := by
  induction rs generalizing t with
  | nil => rfl
  | cons q rs ih => exact ih _

/-- Two ways of keeping names that agree on one request agree on every run. -/
theorem log_eq_of_agree {I : Interner T} {J : Interner U} {R : U → T → Prop}
    (hstep : ∀ l t, R l t → ∀ q, (J.answer l q).1 = (I.answer t q).1 ∧
      R (J.answer l q).2 (I.answer t q).2) {l : U} {t : T} (h : R l t) (rs : List Request) :
    J.log l rs = I.log t rs ∧ R (J.after l rs) (I.after t rs) := by
  induction rs generalizing l t with
  | nil => exact ⟨rfl, h⟩
  | cons q rs ih =>
    obtain ⟨hanswer, hnext⟩ := hstep l t h q
    obtain ⟨hlog, hafter⟩ := ih hnext
    exact ⟨by rw [log, log, hanswer, hlog], hafter⟩

end Interner

/-- The text was interned, and this is its name. -/
def Interned (log : List (Request × Answer)) (s : String) (a : Symbol) : Prop :=
  (.intern s, .symbol a) ∈ log ∨ (.tryIntern s, .symbol a) ∈ log

/-- The name was given for the text, by interning it or on asking for it. -/
def Returned (log : List (Request × Answer)) (s : String) (a : Symbol) : Prop :=
  Interned log s a ∨ (.get s, .found (some a)) ∈ log

def internedText? : Request × Answer → Option String
  | (.intern s, .symbol _) => some s
  | (.tryIntern s, .symbol _) => some s
  | _ => none

namespace SymbolTable

variable {t : SymbolTable} {s : String} {a : Symbol}

def interner : Interner SymbolTable := ⟨intern?, find?, text, size⟩

theorem getElem?_of_find? (h : t.find? s = some a) : t.texts[a.index]? = some s := by
  obtain ⟨i, hi, rfl⟩ := Option.map_eq_some_iff.1 h
  obtain ⟨hlt, heq, -⟩ := Array.findIdx?_eq_some_iff_getElem.1 hi
  rw [Array.getElem?_eq_getElem hlt]
  exact congrArg some (eq_of_beq heq)

theorem find?_of_mem (h : s ∈ t.texts) : ∃ a, t.find? s = some a := by
  cases hfind : t.find? s with
  | none => exact absurd h (find?_eq_none_iff.1 hfind)
  | some a => exact ⟨a, rfl⟩

/-- Where no text stands twice, finding a text and reading a name are inverse. -/
theorem find?_eq_some_iff (hn : t.texts.toList.Nodup) :
    t.find? s = some a ↔ t.texts[a.index]? = some s := by
  refine ⟨getElem?_of_find?, fun h => ?_⟩
  obtain ⟨b, hb⟩ := find?_of_mem (Array.mem_of_getElem? h)
  have hread := getElem?_of_find? hb
  rw [← Array.getElem?_toList] at h hread
  have hlt : b.index < t.texts.toList.length := (List.getElem?_eq_some_iff.1 hread).1
  have hindex : b.index = a.index := (List.getElem?_inj hlt hn).1 (hread.trans h.symm)
  obtain ⟨i⟩ := a
  obtain ⟨j⟩ := b
  obtain rfl : j = i := hindex
  exact hb

theorem text_of_le (h : t.size ≤ a.index) : t.text a = "" := by
  rw [text, Array.getElem?_eq_none h]
  rfl

theorem capacity_eq : capacity = UInt32.size := rfl

/-- Only a full table refuses, and only a text that it does not hold. -/
theorem intern?_eq (t : SymbolTable) (s : String) :
    t.intern? s = if (t.find? s).isSome ∨ t.size < capacity then .ok (t.intern s)
      else .error (.overflow t.size) := by
  unfold intern? intern
  cases t.find? s with
  | some a => rfl
  | none => simp

theorem intern?_of_find? (h : t.find? s = some a) : t.intern? s = .ok (a, t) := by
  rw [intern?, h]

theorem intern?_cases (t : SymbolTable) (s : String) :
    (∃ a, t.find? s = some a ∧ t.intern? s = .ok (a, t)) ∨
    (t.find? s = none ∧ t.size < capacity ∧ t.intern? s = .ok (t.add s)) ∨
    (t.find? s = none ∧ capacity ≤ t.size ∧ t.intern? s = .error (.overflow t.size)) := by
  unfold intern?
  cases t.find? s with
  | some a => exact .inl ⟨a, rfl, rfl⟩
  | none =>
    by_cases hroom : t.size < capacity
    · exact .inr (.inl ⟨rfl, hroom, if_pos hroom⟩)
    · exact .inr (.inr ⟨rfl, Nat.le_of_not_lt hroom, if_neg hroom⟩)

theorem find?_add_of_find? (h : t.find? s = some a) (s' : String) :
    (t.add s').2.find? s = some a := by
  obtain ⟨i, hi, rfl⟩ := Option.map_eq_some_iff.1 h
  have hpush : (t.texts.push s').findIdx? (· == s) = some i := by
    rw [Array.findIdx?_push, hi]
    rfl
  exact congrArg (Option.map Symbol.mk) hpush

theorem find?_add_self (h : t.find? s = none) : (t.add s).2.find? s = some (t.add s).1 := by
  have hpush : (t.texts.push s).findIdx? (· == s) = some t.size := by
    rw [Array.findIdx?_push, Option.map_eq_none_iff.1 h]
    simp [size]
  exact congrArg (Option.map Symbol.mk) hpush

theorem find?_add_of_ne {s' : String} (h : s' ≠ s) : (t.add s).2.find? s' = t.find? s' := by
  have hpush : (t.texts.push s).findIdx? (· == s') = t.texts.findIdx? (· == s') := by
    rw [Array.findIdx?_push]
    simp [h.symm]
  exact congrArg (Option.map Symbol.mk) hpush

theorem toList_add (t : SymbolTable) (s : String) :
    (t.add s).2.texts.toList = t.texts.toList ++ [s] :=
  Array.toList_push ..

inductive Exchange (t : SymbolTable) : Request × Answer → SymbolTable → Prop
  /-- No name is given but one that the table has. -/
  | keeps {e} (interned : ∀ s, internedText? e = some s → s ∈ t.texts)
      (returned : ∀ s a, Returned [e] s a → t.find? s = some a) : Exchange t e t
  /-- A new text finds room. -/
  | adds {e s} (new : t.find? s = none) (room : t.size < capacity) (interned : internedText? e = some s)
      (returned : ∀ s' a, Returned [e] s' a → s' = s ∧ a = (t.add s).1) : Exchange t e (t.add s).2

theorem exchange_interning (t : SymbolTable) {q : Request} (hq : q = .intern s ∨ q = .tryIntern s) :
    t.Exchange (q, (interner.answer t q).1) (interner.answer t q).2 := by
  obtain ⟨a, hfind, hintern⟩ | ⟨hfind, hroom, hintern⟩ | ⟨hfind, -, hintern⟩ := t.intern?_cases s
  · have hmem : s ∈ t.texts := Array.mem_of_getElem? (getElem?_of_find? hfind)
    rcases hq with rfl | rfl <;> simp only [Interner.answer, interner, hintern] <;>
      exact .keeps (by simp [internedText?, hmem]) (by simp [Returned, Interned, hfind])
  · rcases hq with rfl | rfl <;> simp only [Interner.answer, interner, hintern] <;>
      exact .adds hfind hroom rfl (by simp [Returned, Interned])
  · rcases hq with rfl | rfl <;> simp only [Interner.answer, interner, hintern] <;>
      exact .keeps nofun (by simp [Returned, Interned])

theorem exchange_answer (t : SymbolTable) (q : Request) :
    t.Exchange (q, (interner.answer t q).1) (interner.answer t q).2 := by
  cases q with
  | intern s => exact t.exchange_interning (.inl rfl)
  | tryIntern s => exact t.exchange_interning (.inr rfl)
  | get s =>
    refine .keeps nofun fun s' a h => ?_
    obtain ⟨rfl, hfound⟩ : s' = s ∧ some a = t.find? s := by
      simpa [Interner.answer, interner, Returned, Interned] using h
    exact hfound.symm
  | lookup a => exact .keeps nofun (by simp [Interner.answer, Returned, Interned])
  | len => exact .keeps nofun (by simp [Interner.answer, Returned, Interned])

theorem Exchange.find? {t' : SymbolTable} {e : Request × Answer} (h : t.Exchange e t')
    (hfind : t.find? s = some a) : t'.find? s = some a := by
  cases h with
  | keeps => exact hfind
  | adds => exact find?_add_of_find? hfind _

/-- A name is for ever. -/
theorem find?_after (h : t.find? s = some a) (rs : List Request) :
    (interner.after t rs).find? s = some a := by
  induction rs generalizing t with
  | nil => exact h
  | cons q rs ih => exact ih ((t.exchange_answer q).find? h)

structure Faithful (t : SymbolTable) (log : List (Request × Answer)) : Prop where
  nodup : t.texts.toList.Nodup
  bounded : t.size ≤ capacity
  order : t.texts.toList = ("" :: kernelNames ++ log.filterMap internedText?).eraseDups
  returned : ∀ s a, Returned log s a → t.find? s = some a

theorem Faithful.base : base.Faithful [] where
  nodup := by decide +kernel
  bounded := by decide +kernel
  order := by decide +kernel
  returned := by simp [Returned, Interned]

theorem returned_append {log log' : List (Request × Answer)} :
    Returned (log ++ log') s a ↔ Returned log s a ∨ Returned log' s a := by
  simp only [Returned, Interned, List.mem_append]
  tauto

theorem Faithful.step {t' : SymbolTable} {log : List (Request × Answer)} {e : Request × Answer}
    (h : t.Faithful log) (he : t.Exchange e t') : t'.Faithful (log ++ [e]) := by
  cases he with
  | keeps interned returned =>
    refine ⟨h.nodup, h.bounded, ?_, fun s a hr => ?_⟩
    · rw [List.filterMap_append, List.filterMap_cons, List.filterMap_nil]
      cases hi : internedText? e with
      | none => simpa using h.order
      | some s =>
        have hmem := Array.mem_toList_iff.2 (interned s hi)
        rw [h.order, List.mem_eraseDups] at hmem
        rw [h.order, ← List.append_assoc, eraseDups_concat, if_pos hmem]
    · exact (returned_append.1 hr).elim (h.returned s a) (returned s a)
  | @adds new hnone room interned returned =>
    have hnew : new ∉ t.texts.toList := fun hs => find?_eq_none_iff.1 hnone (Array.mem_toList_iff.1 hs)
    refine ⟨?_, ?_, ?_, fun s' a hr => ?_⟩
    · rw [toList_add]
      exact List.nodup_append.2 ⟨h.nodup, List.nodup_singleton new, by
        rintro x hx y hy rfl
        exact hnew (List.mem_singleton.1 hy ▸ hx)⟩
    · simpa [add, size, Nat.succ_le_iff] using room
    · rw [h.order, List.mem_eraseDups] at hnew
      rw [toList_add, List.filterMap_append, List.filterMap_cons, List.filterMap_nil, interned,
        ← List.append_assoc, eraseDups_concat, if_neg hnew, h.order]
    · rcases returned_append.1 hr with hr | hr
      · exact find?_add_of_find? (h.returned s' a hr) new
      · obtain ⟨rfl, rfl⟩ := returned s' a hr
        exact find?_add_self hnone

theorem Faithful.run {log : List (Request × Answer)} (h : t.Faithful log) (rs : List Request) :
    (interner.after t rs).Faithful (log ++ interner.log t rs) := by
  induction rs generalizing t log with
  | nil => simpa [Interner.after, Interner.log] using h
  | cons q rs ih =>
    have hnext := ih (h.step (t.exchange_answer q))
    rwa [List.append_assoc] at hnext

theorem mem_internedTexts {log : List (Request × Answer)} :
    s ∈ log.filterMap internedText? ↔ ∃ a, Interned log s a := by
  rw [List.mem_filterMap]
  constructor
  · rintro ⟨⟨q, x⟩, he, hs⟩
    cases q <;> cases x <;> simp only [internedText?, Option.some.injEq, reduceCtorEq] at hs
    · subst hs
      exact ⟨_, .inl he⟩
    · subst hs
      exact ⟨_, .inr he⟩
  · rintro ⟨a, he | he⟩
    · exact ⟨_, he, rfl⟩
    · exact ⟨_, he, rfl⟩

end SymbolTable

/-- A table with an index of its texts. -/
structure Lexicon where
  index : Std.HashMap String Symbol
  texts : Array String

namespace Lexicon

variable {l : Lexicon} {t : SymbolTable}

/-- Looks the text up again, since somebody else may have added it by now. -/
def insert? (l : Lexicon) (s : String) : Except InternFault (Symbol × Lexicon) :=
  match l.index[s]? with
  | some a => .ok (a, l)
  | none =>
    if l.texts.size < SymbolTable.capacity then
      .ok (⟨l.texts.size⟩, ⟨l.index.insert s ⟨l.texts.size⟩, l.texts.push s⟩)
    else .error (.overflow l.texts.size)

def intern? (l : Lexicon) (s : String) : Except InternFault (Symbol × Lexicon) :=
  match l.index[s]? with
  | some a => .ok (a, l)
  | none => l.insert? s

def interner : Interner Lexicon where
  intern? := intern?
  find? l s := l.index[s]?
  text l a := l.texts[a.index]?.getD ""
  size l := l.texts.size

def blank : Lexicon := ⟨(∅ : Std.HashMap String Symbol).insert "" .empty, #[""]⟩

/-- The empty text is there from the start, and the kernel's names are interned like any other. -/
def base : Lexicon := interner.after blank (SymbolTable.kernelNames.map .intern)

/-- The index says of every text what a search would find. -/
structure Indexes (l : Lexicon) (t : SymbolTable) : Prop where
  texts : l.texts = t.texts
  index : ∀ s, l.index[s]? = t.find? s

theorem intern?_eq_insert? (l : Lexicon) (s : String) : l.intern? s = l.insert? s := by
  unfold intern? insert?
  cases l.index[s]? <;> rfl

theorem Indexes.intern? (h : l.Indexes t) (s : String) :
    (∃ a l' t', l.intern? s = .ok (a, l') ∧ t.intern? s = .ok (a, t') ∧ l'.Indexes t') ∨
    ∃ fault, l.intern? s = .error fault ∧ t.intern? s = .error fault := by
  have hsize : l.texts.size = t.size := congrArg Array.size h.texts
  rw [intern?_eq_insert?]
  unfold insert?
  rw [h.index, hsize]
  obtain ⟨a, hfind, hintern⟩ | ⟨hfind, hroom, hintern⟩ | ⟨hfind, hfull, hintern⟩ := t.intern?_cases s
  · rw [hfind]
    exact .inl ⟨a, l, t, rfl, hintern, h⟩
  · rw [hfind]
    refine .inl ⟨⟨t.size⟩, _, _, if_pos hroom, hintern, congrArg (·.push s) h.texts, fun s' => ?_⟩
    show (l.index.insert s ⟨t.size⟩)[s']? = (t.add s).2.find? s'
    by_cases hs : s' = s
    · subst hs
      rw [SymbolTable.find?_add_self hfind]
      exact Std.HashMap.getElem?_insert_self
    · rw [SymbolTable.find?_add_of_ne hs, ← h.index, Std.HashMap.getElem?_insert, if_neg]
      exact fun heq => hs (eq_of_beq heq).symm
  · rw [hfind]
    exact .inr ⟨_, if_neg (Nat.not_lt.2 hfull), hintern⟩

theorem Indexes.answer (h : l.Indexes t) (q : Request) :
    (interner.answer l q).1 = (SymbolTable.interner.answer t q).1 ∧
      (interner.answer l q).2.Indexes (SymbolTable.interner.answer t q).2 := by
  cases q with
  | intern s | tryIntern s =>
    obtain ⟨a, l', t', hl, ht, h'⟩ | ⟨fault, hl, ht⟩ := h.intern? s
    · simpa only [Interner.answer, interner, SymbolTable.interner, hl, ht, true_and] using h'
    · simpa only [Interner.answer, interner, SymbolTable.interner, hl, ht, true_and] using h
  | get s => exact ⟨congrArg Answer.found (h.index s), h⟩
  | lookup a =>
    exact ⟨congrArg (fun texts : Array String => Answer.text (texts[a.index]?.getD "")) h.texts, h⟩
  | len => exact ⟨congrArg (fun texts : Array String => Answer.count texts.size) h.texts, h⟩

theorem Indexes.run (h : l.Indexes t) (rs : List Request) :
    interner.log l rs = SymbolTable.interner.log t rs ∧
      (interner.after l rs).Indexes (SymbolTable.interner.after t rs) :=
  Interner.log_eq_of_agree (fun _ _ h => h.answer) h rs

theorem Indexes.base : Lexicon.base.Indexes SymbolTable.base := by
  have hblank : blank.Indexes ⟨#[""]⟩ := by
    refine ⟨rfl, fun s => ?_⟩
    show ((∅ : Std.HashMap String Symbol).insert "" .empty)[s]? = _
    rw [Std.HashMap.getElem?_insert]
    by_cases hs : s = ""
    · subst hs
      rw [if_pos (beq_self_eq_true _)]
      decide +kernel
    · have hnone : (⟨#[""]⟩ : SymbolTable).find? s = none :=
        SymbolTable.find?_eq_none_iff.2 (by simpa using hs)
      rw [if_neg fun heq => hs (eq_of_beq heq).symm, hnone]
      exact Std.HashMap.getElem?_empty
  have hnames : SymbolTable.interner.after ⟨#[""]⟩ (SymbolTable.kernelNames.map .intern) = .base := by
    decide +kernel
  rw [← hnames]
  exact (hblank.run _).2

end Lexicon

namespace SymbolTable

/-- Whatever is asked of a table from its start: two texts that were interned have the same name only
if they are the same; every name that was given reads as its text, and is given for it again; a text
has a name if it is empty, one of the kernel's, or was interned; names are numbered in the order in
which their texts came, the empty text's first, and no other number reads as a text; a table changes
only to take a new text, and it refuses one when it is full and not before. A table with an index
answers the same throughout, and its index stays the inverse of its texts. -/
theorem names_biject (rs : List Request) :
    let log := interner.log base rs
    let t := interner.after base rs
    (∀ s a s' b, Interned log s a → Interned log s' b → (a = b ↔ s = s')) ∧
    (∀ s a, Returned log s a → t.find? s = some a ∧ t.text a = s) ∧
    (∀ s, ((t.find? s).isSome ↔ s = "" ∨ s ∈ kernelNames ∨ ∃ a, Interned log s a) ∧
      (∀ a, t.find? s = some a → t.intern? s = .ok (a, t)) ∧
      t.intern? s = if (t.find? s).isSome ∨ t.size < capacity then .ok (t.intern s)
        else .error (.overflow t.size)) ∧
    (t.texts.toList = ("" :: kernelNames ++ log.filterMap internedText?).eraseDups ∧
      (∀ s a, t.find? s = some a ↔ t.texts[a.index]? = some s) ∧
      (∀ a, (∃ s, t.find? s = some a) ↔ a.index < t.size) ∧
      t.find? "" = some .empty ∧ t.size ≤ capacity) ∧
    (∀ a, t.size ≤ a.index → t.text a = "") ∧
    (∀ s a, interner.answer t (.get s) = (.found (t.find? s), t) ∧
      interner.answer t (.lookup a) = (.text (t.text a), t) ∧
      interner.answer t .len = (.count t.size, t) ∧
      (t.find? s = some a → interner.answer t (.intern s) = (.symbol a, t) ∧
        interner.answer t (.tryIntern s) = (.symbol a, t))) ∧
    (∀ s fault t', interner.answer t (.tryIntern s) = (.refused fault, t') ↔
      t.find? s = none ∧ UInt32.size ≤ t.size ∧ fault = .overflow t.size ∧ t' = t) ∧
    (Lexicon.interner.log .base rs = log ∧
      ∀ s (a : Symbol), (Lexicon.interner.after .base rs).index[s]? = some a ↔
        (Lexicon.interner.after .base rs).texts[a.index]? = some s) := by
  intro log t
  have h : t.Faithful log := Faithful.base.run rs
  have hfind (s : String) (a : Symbol) := find?_eq_some_iff (s := s) (a := a) h.nodup
  obtain ⟨hlog, hindexes⟩ := Lexicon.Indexes.base.run rs
  refine ⟨fun s a s' b ha hb => ?_, fun s a ha => ?_,
    fun s => ⟨?_, fun a => intern?_of_find?, t.intern?_eq s⟩,
    ⟨h.order, hfind, fun a => ?_, ?_, h.bounded⟩, fun a => text_of_le, fun s a => ?_,
    fun s fault t' => ?_, hlog, fun s a => ?_⟩
  · have hsa := h.returned s a (.inl ha)
    have hsb := h.returned s' b (.inl hb)
    constructor
    · rintro rfl
      exact (text_of_find? hsa).symm.trans (text_of_find? hsb)
    · rintro rfl
      exact Option.some.inj (hsa.symm.trans hsb)
  · exact ⟨h.returned s a ha, text_of_find? (h.returned s a ha)⟩
  · rw [← mem_internedTexts, ← or_assoc, ← List.mem_cons, ← List.mem_append, ← List.mem_eraseDups,
      ← h.order, Array.mem_toList_iff, Option.isSome_iff_ne_none, ne_eq, find?_eq_none_iff, not_not]
  · simp only [hfind]
    exact ⟨fun ⟨_, hs⟩ => (Array.getElem?_eq_some_iff.1 hs).1,
      fun hlt => ⟨_, Array.getElem?_eq_getElem hlt⟩⟩
  · exact find?_after (by decide +kernel) rs
  · refine ⟨rfl, rfl, rfl, fun ha => ?_⟩
    simp only [Interner.answer, interner, intern?_of_find? ha, and_self]
  · rw [← capacity_eq]
    obtain ⟨a, hs, hintern⟩ | ⟨hs, hroom, hintern⟩ | ⟨hs, hfull, hintern⟩ := t.intern?_cases s <;>
      simp only [Interner.answer, interner, hintern, hs]
    · simp
    · simp [Nat.not_le.2 hroom]
    · simp [hfull, eq_comm]
  · rw [hindexes.index, hindexes.texts]
    exact hfind s a

theorem exists_new (t : SymbolTable) : ∃ s, t.find? s = none := by
  obtain ⟨s, hs⟩ := Infinite.exists_notMem_finset t.texts.toList.toFinset
  rw [List.mem_toFinset, Array.mem_toList_iff] at hs
  exact ⟨s, find?_eq_none_iff.2 hs⟩

theorem exists_size {n : Nat} (hle : base.size ≤ n) (hn : n ≤ capacity) :
    ∃ rs, (interner.after base rs).size = n := by
  induction n, hle using Nat.le_induction with
  | base => exact ⟨[], rfl⟩
  | succ n hle ih =>
    obtain ⟨rs, hrs⟩ := ih (Nat.le_of_succ_le hn)
    generalize ht : interner.after base rs = t at hrs
    obtain ⟨s, hs⟩ := t.exists_new
    have hintern : t.intern? s = .ok (t.add s) := by
      rw [intern?, hs]
      exact if_pos (hrs ▸ hn)
    refine ⟨rs ++ [.tryIntern s], ?_⟩
    rw [Interner.after_append, ht, ← hrs]
    simp only [Interner.after, Interner.answer, interner, hintern]
    exact Array.size_push ..

/-- Tables do become full, and then refuse. -/
theorem exists_refused : ∃ rs s, interner.answer (interner.after base rs) (.tryIntern s) =
    (.refused (.overflow capacity), interner.after base rs) := by
  obtain ⟨rs, hrs⟩ := exists_size (by decide +kernel) (Nat.le_refl _)
  obtain ⟨s, hs⟩ := (interner.after base rs).exists_new
  refine ⟨rs, s, ?_⟩
  generalize interner.after base rs = t at *
  have hintern : t.intern? s = .error (.overflow capacity) := by
    rw [intern?, hs, hrs]
    exact if_neg (Nat.lt_irrefl _)
  simp only [Interner.answer, interner, hintern]

end SymbolTable

end Mixin
