import Mixin.Script.Eval

/-! Running commands one after the other. Each is reported with its reply and with what was logged
while it ran; a failing command does not stop the next. -/

namespace Mixin.Script

structure Report where
  reply : Reply
  log : List Value

/-- Commands that take more steps than this are given up. -/
def stepLimit : Nat := 1 <<< 40

def start (image : Image) : World Session := { image, host := .initial }

namespace Command

def program (c : Command) : Program Session := (c.eval {}).body

def run (c : Command) (w : World Session) : Report × World Session :=
  match (Machine.start c.program { w with host := { w.host with log := [] } }).run stepLimit with
  | some (reply, w) => ({ reply, log := w.host.log.reverse }, w)
  | none => ({ reply := .error (.custom "step limit"), log := [] }, w)

def runAll : List Command → World Session → List Report
  | [], _ => []
  | c :: rest, w =>
    let (report, w) := c.run w
    report :: runAll rest w

end Command

end Mixin.Script
