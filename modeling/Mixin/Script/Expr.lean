import Mixin.Value

/-! A small language of expressions and commands. Expressions are what methods, hooks and observers
are written in; commands are the operations of the library with their operands still to be
evaluated, and an expression may run one. -/

namespace Mixin.Script

mutual

inductive Expr where
  | literal (v : Value)
  | list (items : List Expr)
  /-- The value a handle stands for. -/
  | handle (h : String)
  | arg (i : Nat)
  | args
  | self
  | name
  | next (args : List Expr)
  | send (target : Expr) (name : String) (args : List Expr)
  | get (field : String)
  | set (field : String) (value : Expr)
  /-- The value of the last item. -/
  | seq (items : List Expr)
  /-- The texts of the items, joined. -/
  | cat (items : List Expr)
  | typeName (e : Expr)
  | nth (e : Expr) (i : Nat)
  | eq (a b : Expr)
  | add (a b : Expr)
  | cond (c yes no : Expr)
  | fail (e : Expr)
  /-- The message of the fault, if there is one. -/
  | rescue (e : Expr)
  | log (e : Expr)
  | run (c : Command)
  /-- Something that could not be read; it fails when its turn comes. -/
  | invalid (detail : String)

inductive MethodSpec where
  | handle (h : String)
  | make (body : Expr) (callsNext : Bool) (label : String)

inductive MethodEntry where
  | mk (name : String) (m : MethodSpec)

inductive SourceSpec where
  | module (m : Expr)
  | record (methods : List MethodEntry) (mixins extensions : List SourceSpec)

inductive Command where
  /-- Runs a command and lets a handle stand for the object, class or module it comes to. -/
  | named (h : String) (c : Command)
  | defineModule (name : String)
  | define (owner : Expr) (name : String) (m : MethodSpec)
  | defineUnique (owner : Expr) (name : String) (m : MethodSpec)
  | mixIn (owner : Expr) (source : SourceSpec) (resolving : Bool) (notifyAs : Option Expr)
  | extend (r : Expr) (source : SourceSpec)
  | eigenclass (r : Expr)
  | onIncluded (m body : Expr)
  | onExtended (m body : Expr)
  | onMethodAdded (body : Expr)
  | resolve (m : Expr)
  | defineClass (superclass : Option Expr) (name : String)
  | defineInstanceMethod (c : Expr) (name : String) (m : MethodSpec)
  | defineClassMethod (c : Expr) (name : String) (m : MethodSpec)
  | instantiate (c : Expr) (args : List Expr)
  | release (o : Expr)
  | field (o : Expr) (name : String)
  | setField (o value : Expr) (name : String)
  | instanceModule (c : Expr)
  | superclass (c : Expr)
  | className (c : Expr)
  | classOf (o : Expr)
  | send (r : Expr) (args : List Expr) (name : String)
  | respondsTo (r : Expr) (name : String)
  | describe (r : Expr)
  | defaultInspect (r : Expr)
  | bind (r : Expr) (name h : String)
  | callBound (args : List Expr) (h : String)
  | tap (r body : Expr)
  | isA (r ancestor : Expr)
  | ancestors (r : Expr)
  | ancestorEntries (m : Expr)
  | chain (owner : Expr) (name : String)
  | implementation (owner : Expr) (name : String)
  | ownMethod (owner : Expr) (name : String)
  | visibleNames (owner : Expr) (inherited : Bool)
  | linearize (m : Expr) (hidden : Bool)
  | includes (m other : Expr)
  | affected (m : Expr)
  | node (m : Expr)
  | gate (name : String)
  | stats
  | generation
  | intern (name : String)
  | makeMethod (m : MethodSpec) (h : String)
  | fetchMethod (owner : Expr) (name h : String)
  | fetchOwn (owner : Expr) (name h : String)
  | slot (m : MethodSpec)
  | sameMethod (a b : String)
  | compute (e : Expr)
  /-- Modules named `stem0`, `stem1` and so on, each including the one before. -/
  | tower (stem : String) (count : Nat)
  | loop (count : Nat) (commands : List Command)
  | invalid (detail : String)

end

instance : Inhabited Expr := ⟨.literal .void⟩
instance : Inhabited MethodSpec := ⟨.make default false ""⟩
instance : Inhabited MethodEntry := ⟨.mk "" default⟩
instance : Inhabited SourceSpec := ⟨.module default⟩
instance : Inhabited Command := ⟨.stats⟩

end Mixin.Script
