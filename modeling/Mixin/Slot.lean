import Mixin.Method

/-! What a receiver answers to: the flattened view of a whole ancestry, kept up to date by replacing
only the entries whose implementation changed. -/

namespace Mixin

/-- A direct slot runs its method as it is, a chained one with its place in the chain prepared. -/
inductive Slot where
  | direct (m : Method)
  | chained (m : Method)
deriving DecidableEq

namespace Slot

def ofMethod (m : Method) : Slot := if m.callsNext then .chained m else .direct m

def method : Slot → Method
  | .direct m => m
  | .chained m => m

/-- Backed by a real definition rather than a stub. -/
def isDefined (s : Slot) : Bool := !s.method.isStub

/-- Entered the same way and running the same body. -/
def sameAs : Slot → Slot → Bool
  | .direct a, .direct b => a.sameBody b
  | .chained a, .chained b => a.sameBody b
  | _, _ => false

theorem method_ofMethod (m : Method) : (ofMethod m).method = m := by
  unfold ofMethod
  split <;> rfl

theorem sameAs_refl (s : Slot) : s.sameAs s = true := by cases s <;> simp [sameAs, Method.sameBody]

theorem sameAs_symm {s t : Slot} (h : s.sameAs t = true) : t.sameAs s = true := by
  cases s <;> cases t <;> simp_all [sameAs, Method.sameBody]

theorem sameAs_trans {s t u : Slot} (h : s.sameAs t = true) (h' : t.sameAs u = true) :
    s.sameAs u = true := by
  cases s <;> cases t <;> cases u <;> simp_all [sameAs, Method.sameBody]

end Slot

abbrev SlotTable := Std.ExtTreeMap Symbol Slot

namespace SlotTable

/-- The entry stands for the same behaviour already. -/
def settled (t : SlotTable) (name : Symbol) (s : Slot) : Bool := t[name]?.any (·.sameAs s)

/-- Writes one fresh entry unless it is settled, and counts the writes. -/
def write (state : SlotTable × Nat) (entry : Symbol × Slot) : SlotTable × Nat :=
  if settled state.1 entry.1 entry.2 then state
  else (state.1.insert entry.1 entry.2, state.2 + 1)

def writeAll (t : SlotTable) (entries : List (Symbol × Slot)) : SlotTable × Nat :=
  entries.foldl write (t, 0)

/-- The part of the table whose names the fresh view still has. -/
def restrict (t fresh : SlotTable) : SlotTable := t.filter fun name _ => fresh.contains name

/-- Brings the table to the fresh view and says how many entries were written. An entry that was
settled stays as it was. -/
def sync (t fresh : SlotTable) : SlotTable × Nat := writeAll (restrict t fresh) fresh.toList

end SlotTable

end Mixin
