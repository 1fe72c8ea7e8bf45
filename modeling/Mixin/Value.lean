import Mixin.Symbol

/-! What methods take and return. Objects, classes and modules are named by their place in the
store that holds them, so a value is plain data and equality of values is decidable. -/

namespace Mixin

structure ModuleId where
  index : Nat
deriving DecidableEq, Inhabited

structure ClassId where
  index : Nat
deriving DecidableEq, Inhabited

structure ObjectId where
  index : Nat
deriving DecidableEq, Inhabited

namespace ModuleId

instance : Ord ModuleId := ⟨fun a b => compare a.index b.index⟩

instance : Std.TransOrd ModuleId where
  eq_swap {a b} := @Std.OrientedCmp.eq_swap Nat compare _ a.index b.index
  isLE_trans {a b c} := @Std.TransCmp.isLE_trans Nat compare _ a.index b.index c.index

instance : Std.LawfulEqOrd ModuleId where
  compare_self {a} := @Std.ReflCmp.compare_self Nat compare _ a.index
  eq_of_compare {a b} h := by
    cases a; cases b
    exact congrArg ModuleId.mk (@Std.LawfulEqCmp.eq_of_compare Nat compare _ _ _ h)

end ModuleId

/-- Anything that can be sent a message. -/
inductive Receiver where
  | object (o : ObjectId)
  | class (c : ClassId)
  | module (m : ModuleId)
deriving DecidableEq

/-- An ancestor as seen from outside: the module of a class stands for the class. -/
inductive Ancestor where
  | class (c : ClassId)
  | module (m : ModuleId)
deriving DecidableEq

inductive Value where
  | void
  | bool (b : Bool)
  | int (n : Int64)
  | str (s : String)
  | list (items : List Value)
  | object (o : ObjectId)
  | class (c : ClassId)
  | module (m : ModuleId)
deriving Inhabited

namespace Value

mutual

def same : Value → Value → Bool
  | .void, .void => true
  | .bool a, .bool b => a == b
  | .int a, .int b => a == b
  | .str a, .str b => a == b
  | .list a, .list b => sameAll a b
  | .object a, .object b => a == b
  | .class a, .class b => a == b
  | .module a, .module b => a == b
  | _, _ => false

def sameAll : List Value → List Value → Bool
  | [], [] => true
  | a :: as, b :: bs => same a b && sameAll as bs
  | _, _ => false

end

mutual

theorem same_iff : ∀ a b : Value, same a b = true ↔ a = b
  | .list a, .list b => by simp [same, sameAll_iff a b]
  | a, b => by cases a <;> cases b <;> simp_all [same, sameAll_iff]

theorem sameAll_iff : ∀ a b : List Value, sameAll a b = true ↔ a = b
  | [], [] => by simp [sameAll]
  | [], _ :: _ => by simp [sameAll]
  | _ :: _, [] => by simp [sameAll]
  | a :: as, b :: bs => by simp [sameAll, same_iff a b, sameAll_iff as bs]

end

instance : DecidableEq Value := fun a b => decidable_of_iff _ (same_iff a b)

def typeName : Value → String
  | .void => "void"
  | .bool _ => "bool"
  | .int _ => "int"
  | .str _ => "str"
  | .list _ => "list"
  | .object _ => "object"
  | .class _ => "class"
  | .module _ => "module"

mutual

/-- The text of a value; strings stand for themselves, also inside lists. -/
def text : Value → String
  | .void => "void"
  | .bool b => if b then "true" else "false"
  | .int n => toString n.toInt
  | .str s => s
  | .list items => "[" ++ String.intercalate ", " (texts items) ++ "]"
  | .object o => "<object " ++ toString o.index ++ ">"
  | .class c => "<class " ++ toString c.index ++ ">"
  | .module m => "<module " ++ toString m.index ++ ">"

def texts : List Value → List String
  | [] => []
  | v :: vs => text v :: texts vs

end

def str? : Value → Option String
  | .str s => some s
  | _ => none

def int? : Value → Option Int64
  | .int n => some n
  | _ => none

def bool? : Value → Option Bool
  | .bool b => some b
  | _ => none

def list? : Value → Option (List Value)
  | .list items => some items
  | _ => none

def receiver? : Value → Option Receiver
  | .object o => some (.object o)
  | .class c => some (.class c)
  | .module m => some (.module m)
  | _ => none

/-- The class or module a value denotes, as something to descend from. -/
def ancestor? : Value → Option Ancestor
  | .class c => some (.class c)
  | .module m => some (.module m)
  | _ => none

end Value

def Receiver.value : Receiver → Value
  | .object o => .object o
  | .class c => .class c
  | .module m => .module m

def Ancestor.value : Ancestor → Value
  | .class c => .class c
  | .module m => .module m

end Mixin
