import Std.Data.ExtTreeMap

/-! Names are interned: a symbol is the position of its text in a table that only grows. Two symbols
of one table are equal exactly when their texts are, so tables of methods and fields are keyed by
symbols, and their order is the order in which the texts were first interned. -/

namespace Mixin

structure Symbol where
  index : Nat
deriving DecidableEq

namespace Symbol

instance : Ord Symbol := ⟨fun a b => compare a.index b.index⟩

instance : Std.TransOrd Symbol where
  eq_swap {a b} := @Std.OrientedCmp.eq_swap Nat compare _ a.index b.index
  isLE_trans {a b c} := @Std.TransCmp.isLE_trans Nat compare _ a.index b.index c.index

instance : Std.LawfulEqOrd Symbol where
  compare_self {a} := @Std.ReflCmp.compare_self Nat compare _ a.index
  eq_of_compare {a b} h := by
    cases a; cases b
    exact congrArg Symbol.mk (@Std.LawfulEqCmp.eq_of_compare Nat compare _ _ _ h)

/-- The symbol of the empty text; every table starts with it. -/
def empty : Symbol := ⟨0⟩

instance : Inhabited Symbol := ⟨empty⟩

-- The five symbols that the kernel itself uses follow the empty text in every table.

def methodMissing : Symbol := ⟨1⟩
def initializer : Symbol := ⟨2⟩
def inspect : Symbol := ⟨3⟩
def respondTo : Symbol := ⟨4⟩
def isA : Symbol := ⟨5⟩

def before (a b : Symbol) : Bool := a.index < b.index

def debugText (s : Symbol) : String := "Name(" ++ toString s.index ++ ")"

end Symbol

/-- Why a text could not be interned. -/
inductive InternFault where
  | overflow (count : Nat)
deriving DecidableEq

structure SymbolTable where
  texts : Array String
deriving DecidableEq

namespace SymbolTable

def kernelNames : List String := ["method_missing", "initialize", "inspect", "respond_to", "is_a"]

/-- The table every object system starts from. -/
def base : SymbolTable := ⟨("" :: kernelNames).toArray⟩

instance : Inhabited SymbolTable := ⟨base⟩

/-- Indices are 32-bit words, so a table that already holds this many texts takes no new one. -/
def capacity : Nat := 1 <<< 32

def size (t : SymbolTable) : Nat := t.texts.size

/-- A table is empty while it holds nothing but the empty text. -/
def isEmpty (t : SymbolTable) : Bool := t.size ≤ 1

def find? (t : SymbolTable) (s : String) : Option Symbol :=
  (t.texts.findIdx? (· == s)).map Symbol.mk

/-- A symbol from elsewhere reads as the empty text. -/
def text (t : SymbolTable) (a : Symbol) : String := t.texts[a.index]?.getD ""

def add (t : SymbolTable) (s : String) : Symbol × SymbolTable := (⟨t.size⟩, ⟨t.texts.push s⟩)

/-- Interning a known text changes nothing; a new text is added at the end. -/
def intern (t : SymbolTable) (s : String) : Symbol × SymbolTable :=
  match t.find? s with
  | some a => (a, t)
  | none => t.add s

/-- Like `intern`, but a new text is refused once the table is full. -/
def intern? (t : SymbolTable) (s : String) : Except InternFault (Symbol × SymbolTable) :=
  match t.find? s with
  | some a => .ok (a, t)
  | none => if t.size < capacity then .ok (t.add s) else .error (.overflow t.size)

def internAll (t : SymbolTable) : List String → List Symbol × SymbolTable
  | [] => ([], t)
  | s :: ss =>
    let (a, t) := t.intern s
    let (as, t) := t.internAll ss
    (a :: as, t)

theorem text_of_find? {t : SymbolTable} {s : String} {a : Symbol} (h : t.find? s = some a) :
    t.text a = s := by
  obtain ⟨i, hi, rfl⟩ := Option.map_eq_some_iff.1 h
  obtain ⟨hlt, heq, -⟩ := Array.findIdx?_eq_some_iff_getElem.1 hi
  simp only [text, Array.getElem?_eq_getElem hlt, Option.getD_some]
  exact eq_of_beq heq

theorem find?_eq_none_iff {t : SymbolTable} {s : String} : t.find? s = none ↔ s ∉ t.texts := by
  simp only [find?, Option.map_eq_none_iff, Array.findIdx?_eq_none_iff, beq_eq_false_iff_ne]
  exact ⟨fun h hs => h s hs rfl, fun h x hx he => h (he ▸ hx)⟩

end SymbolTable

def InternFault.message : InternFault → String
  | .overflow count =>
    "interner exceeded capacity: " ++ toString count ++ " strings, max is "
      ++ toString (SymbolTable.capacity - 1)

end Mixin
