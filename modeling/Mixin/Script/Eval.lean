import Mixin.Script.Expr
import Mixin.Script.Session

/-! The meaning of expressions and commands. Operands are evaluated from left to right, and the first
fault ends the evaluation. A field of the receiver is asked for before its new value is evaluated; a
super call evaluates its arguments first, and only then needs a frame to call from. -/

namespace Mixin.Script

open Routine

def number (n : Nat) : Value := .int (Int64.ofNat n)

def modules (ms : List ModuleId) : Value := .list (ms.map .module)

def texts (ss : List String) : Value := .list (ss.map .str)

def showSuperclass : Option ClassId → Value
  | some c => .class c
  | none => .void

def showTarget : Option Target → Value
  | none => .void
  | some .classBase => texts ["ClassBase"]
  | some .moduleBase => texts ["ModuleBase"]
  | some (.prototype c) => .list [.str "ClassPrototype", number c.index]
  | some (.singleton (.class c)) => .list [.str "ClassSide", number c.index]
  | some (.singleton (.object o)) => .list [.str "Object", number o.index]
  | some (.singleton (.module m)) => .list [.str "ModuleSide", number m.index]

/-- A module's name, the names of its own methods in text order, its edges and its target. -/
def showNode (s : Image) (m : ModuleId) : Value :=
  let n := s.graph.node m
  .list
    [match n.name with
      | some a => .str (s.text a)
      | none => .void,
      texts ((n.methods.keys.map s.text).mergeSort (· ≤ ·)),
      modules n.included,
      modules n.dependents,
      showTarget n.target]

def showStats (s : Image) : Value :=
  .list
    [number s.graph.liveCount, number s.gate.watchedCount, number s.symbols.size,
      .bool (s.graph.liveCount = 0)]

def showSlot : Slot → Value
  | .direct m => .list [.str "direct", .bool (Slot.direct m).isDefined]
  | .chained m => .list [.str "chained", .bool (Slot.chained m).isDefined]

/-- Builds the modules of a tower from the `i`-th on, above the previous one. -/
def buildTower (stem : String) : (count i : Nat) → (previous : Option ModuleId) → Routine Value
  | 0, _, some m => pure (.module m)
  | 0, _, none => pure .void
  | count + 1, i, previous => do
    let m ← perform (.defineModule (stem ++ toString i))
    if let some below := previous then
      let _ ← lift (← perform (.mixIn m (.module below) {}))
    Routine.name (stem ++ toString i) (.module m)
    buildTower stem count (i + 1) (some m)

def makeMethod (callsNext : Bool) (label : String) (body : Call → Routine Value) : Routine Method :=
  fun k => .makeMethod callsNext (fun call => (body call).body) fun m =>
    .alter (fun s => { s with labels := s.labels.push label }) (k (.ok m))

mutual

def Expr.eval (sc : Scope) : Expr → Routine Value
  | .literal v => do
    spend
    pure v
  | .list items => do
    spend
    pure (.list (← evalAll sc items))
  | .handle h => do
    spend
    Routine.handle h
  | .arg i => do
    spend
    pure (sc.args[i]?.getD .void)
  | .args => do
    spend
    pure (.list sc.args)
  | .self => do
    spend
    pure sc.self
  | .name => do
    spend
    match sc.call with
    | some call => pure (.str (← look (·.text call.name)))
    | none => pure .void
  | .next args => do
    spend
    let args ← evalAll sc args
    match sc.call with
    | some call => lift (← perform (.next call args))
    | none => badInput "next outside a method"
  | .send target name args => do
    spend
    let r ← asReceiver (← target.eval sc)
    let args ← evalAll sc args
    lift (← perform (.send r (← Routine.intern name) args))
  | .get field => do
    spend
    let o ← sc.selfObject
    look (·.field o field)
  | .set field value => do
    spend
    let o ← sc.selfObject
    let v ← value.eval sc
    perform (.setField o field v)
    pure v
  | .seq items => do
    spend
    pure ((← evalAll sc items).getLast?.getD .void)
  | .cat items => do
    spend
    pure (.str (String.join ((← evalAll sc items).map Value.text)))
  | .typeName e => do
    spend
    pure (.str (← e.eval sc).typeName)
  | .nth e i => do
    spend
    match ← e.eval sc with
    | .list items => pure (items[i]?.getD .void)
    | _ => pure .void
  | .eq a b => do
    spend
    let v ← a.eval sc
    let w ← b.eval sc
    pure (.bool (v = w))
  | .add a b => do
    spend
    let v ← a.eval sc
    let w ← b.eval sc
    match v, w with
    | .int m, .int n => pure (.int (m + n))
    | _, _ => badInput "add"
  | .cond c yes no => do
    spend
    if (← c.eval sc) = .bool true then yes.eval sc else no.eval sc
  | .fail e => do
    spend
    throw (.custom (← e.eval sc).text)
  | .rescue e => do
    spend
    tryCatch (e.eval sc) fun fault => pure (.str fault.message)
  | .log e => do
    spend
    let v ← e.eval sc
    alter (·.note v)
    pure v
  | .run c => do
    spend
    c.eval sc
  | .invalid detail => do
    spend
    badInput detail

def evalAll (sc : Scope) : List Expr → Routine (List Value)
  | [] => pure []
  | e :: rest => do
    let v ← e.eval sc
    let vs ← evalAll sc rest
    pure (v :: vs)

def evalOption (sc : Scope) : Option Expr → Routine (Option Value)
  | none => pure none
  | some e => do pure (some (← e.eval sc))

def MethodSpec.eval : MethodSpec → Routine Method
  | .handle h => methodHandle h
  | .make body callsNext label => Script.makeMethod callsNext label fun call => body.eval (.ofCall call)

def MethodEntry.eval : MethodEntry → Routine (String × Method)
  | .mk name m => do pure (name, ← m.eval)

def evalEntries : List MethodEntry → Routine (List (String × Method))
  | [] => pure []
  | entry :: rest => do
    let m ← entry.eval
    let ms ← evalEntries rest
    pure (m :: ms)

def SourceSpec.eval (sc : Scope) : SourceSpec → Routine Source
  | .module m => do pure (.module (← asModule (← m.eval sc)))
  | .record methods mixins extensions => do
    let methods ← evalEntries methods
    let mixins ← evalSources sc mixins
    let extensions ← evalSources sc extensions
    pure (.record methods mixins extensions)

def evalSources (sc : Scope) : List SourceSpec → Routine (List Source)
  | [] => pure []
  | source :: rest => do
    let s ← source.eval sc
    let ss ← evalSources sc rest
    pure (s :: ss)

def Command.eval (sc : Scope) : Command → Routine Value
  | .named h c => do
    let v ← c.eval sc
    Routine.name h v
    pure v
  | .defineModule name => do pure (.module (← perform (.defineModule name)))
  | .define owner name m => do
    let owner ← asModule (← owner.eval sc)
    let name ← Routine.intern name
    perform (.define owner name (← m.eval))
    pure .void
  | .defineUnique owner name m => do
    let owner ← asModule (← owner.eval sc)
    let name ← Routine.intern name
    lift (← perform (.defineUnique owner name (← m.eval)))
    pure .void
  | .mixIn owner source resolving notifyAs => do
    let owner ← asModule (← owner.eval sc)
    let source ← source.eval sc
    let notifyAs ← evalOption sc notifyAs
    pure (.module (← lift (← perform (.mixIn owner source { notifyAs, resolving }))))
  | .extend r source => do
    let r ← asReceiver (← r.eval sc)
    pure (← lift (← perform (.extend r (← source.eval sc)))).value
  | .eigenclass r => do
    let r ← asReceiver (← r.eval sc)
    pure (.module (← perform (.eigenclass r)))
  | .onIncluded m body => do
    let m ← asModule (← m.eval sc)
    fun k => .onIncluded m (fun v => (body.eval { args := [v] }).hook) (k (.ok .void))
  | .onExtended m body => do
    let m ← asModule (← m.eval sc)
    fun k => .onExtended m (fun v => (body.eval { args := [v] }).hook) (k (.ok .void))
  | .onMethodAdded body =>
    fun k => .onMethodAdded
      (fun name v => .read fun s => (body.eval { args := [.str (s.text name), v] }).hook)
      (k (.ok .void))
  | .resolve m => do
    perform (.resolve (← asModule (← m.eval sc)))
    pure .void
  | .defineClass superclass name => do
    let superclass ← match ← evalOption sc superclass with
      | some v => some <$> asClass v
      | none => pure none
    pure (.class (← perform (.defineClass name superclass)))
  | .defineInstanceMethod c name m => do
    let c ← asClass (← c.eval sc)
    perform (.defineInstanceMethod c name (← m.eval))
    pure .void
  | .defineClassMethod c name m => do
    let c ← asClass (← c.eval sc)
    perform (.defineClassMethod c name (← m.eval))
    pure .void
  | .instantiate c args => do
    let c ← asClass (← c.eval sc)
    let args ← evalAll sc args
    pure (.object (← lift (← perform (.instantiate c args))))
  | .release o => do
    perform (.release (← asObject (← o.eval sc)))
    pure .void
  | .field o name => do
    let o ← asObject (← o.eval sc)
    look (·.field o name)
  | .setField o value name => do
    let o ← asObject (← o.eval sc)
    perform (.setField o name (← value.eval sc))
    pure .void
  | .instanceModule c => do
    let c ← asClass (← c.eval sc)
    pure (.module (← look (·.instanceModule c)))
  | .superclass c => do
    let c ← asClass (← c.eval sc)
    pure (showSuperclass (← look (·.superclass c)))
  | .className c => do
    let c ← asClass (← c.eval sc)
    pure (.str (← look (·.className c)))
  | .classOf o => do
    let o ← asObject (← o.eval sc)
    pure (.class (← look (·.classOf o)))
  | .send r args name => do
    let r ← asReceiver (← r.eval sc)
    let args ← evalAll sc args
    lift (← perform (.send r (← Routine.intern name) args))
  | .respondsTo r name => do
    let r ← asReceiver (← r.eval sc)
    let name ← Routine.intern name
    pure (.bool (← look (·.respondsTo r name)))
  | .describe r => do
    let r ← asReceiver (← r.eval sc)
    pure (.str (← perform (.describe r)))
  | .defaultInspect r => do
    let r ← asReceiver (← r.eval sc)
    pure (.str (← look (·.defaultInspect r)))
  | .bind r name h => do
    let r ← asReceiver (← r.eval sc)
    let name ← Routine.intern name
    let b ← lift (← perform (.bind r name))
    alter fun s => { s with bounds := s.bounds.insert h b }
    pure (.list [b.receiver.value, .str (← look (·.text b.name))])
  | .callBound args h => do
    let args ← evalAll sc args
    match ← load (·.bounds[h]?) with
    | some b => lift (← perform (.callBound b args))
    | none => badInput "unknown bound method"
  | .tap r body => do
    let r ← asReceiver (← r.eval sc)
    let _ ← body.eval { args := [r.value] }
    pure r.value
  | .isA r ancestor => do
    let r ← asReceiver (← r.eval sc)
    let a ← asAncestor (← ancestor.eval sc)
    pure (.bool (← look (·.isA r a)))
  | .ancestors r => do
    let r ← asReceiver (← r.eval sc)
    pure (.list ((← look (·.ancestorsOf r)).map Ancestor.value))
  | .ancestorEntries m => do
    let m ← asModule (← m.eval sc)
    pure (.list ((← look (·.ancestorEntries m)).map Ancestor.value))
  | .chain owner name => do
    let owner ← asModule (← owner.eval sc)
    let name ← Routine.intern name
    showMethods (← look (·.graph.chain owner name))
  | .implementation owner name => do
    let owner ← asModule (← owner.eval sc)
    let name ← Routine.intern name
    showMethod? (← look (·.graph.implementation? owner name))
  | .ownMethod owner name => do
    let owner ← asModule (← owner.eval sc)
    let name ← Routine.intern name
    showMethod? (← look fun s => (s.graph.node owner).methods[name]?)
  | .visibleNames owner inherited => do
    let owner ← asModule (← owner.eval sc)
    look fun s => texts <| (if inherited then s.graph.visibleNames owner
      else s.graph.ownNames owner).map s.text
  | .linearize m hidden => do
    let m ← asModule (← m.eval sc)
    look fun s => modules (if hidden then s.graph.linearize m else s.graph.ancestors m)
  | .includes m other => do
    let m ← asModule (← m.eval sc)
    let other ← asModule (← other.eval sc)
    look fun s => .bool (s.graph.includes m other)
  | .affected m => do
    let m ← asModule (← m.eval sc)
    look fun s => modules (s.graph.affected m)
  | .node m => do
    let m ← asModule (← m.eval sc)
    look fun s => showNode s m
  | .gate name => do
    let name ← Routine.intern name
    look fun s => .list [.bool (s.gate.isWatched name), .bool (s.gate.isReserved name)]
  | .stats => look showStats
  | .generation => look fun s => .int s.graph.generation.toInt64
  | .intern name => do pure (number (← Routine.intern name).index)
  | .makeMethod m h => do
    keep h (some (← m.eval))
    pure .void
  | .fetchMethod owner name h => do
    let owner ← asModule (← owner.eval sc)
    let name ← Routine.intern name
    let m ← look (·.graph.implementation? owner name)
    keep h m
    showMethod? m
  | .fetchOwn owner name h => do
    let owner ← asModule (← owner.eval sc)
    let name ← Routine.intern name
    let m ← look fun s => (s.graph.node owner).methods[name]?
    keep h m
    showMethod? m
  | .slot m => do pure (showSlot (.ofMethod (← m.eval)))
  | .sameMethod a b => do
    let a ← methodHandle a
    let b ← methodHandle b
    pure (.list [.bool (a.sameBody b), .bool ((Slot.ofMethod a).sameAs (.ofMethod b))])
  | .compute e => e.eval sc
  | .tower stem count => buildTower stem count 0 none
  | .loop count commands => times (evalCommands sc commands .void) count .void
  | .invalid detail => badInput detail

def evalCommands (sc : Scope) : List Command → (last : Value) → Routine Value
  | [], last => pure last
  | c :: rest, _ => do evalCommands sc rest (← c.eval sc)

end

end Mixin.Script
