import Smtdv.Apb.Observed
import Smtdv.Apb.SlaveAgent

/-! The bench of one master agent and two slave agents, wired as in `dut_1m2s`. A step is an edge of the
clock, the time after a rising one, something from outside, or one process going on in zero time. -/
namespace Smtdv.Apb
open Lib

variable {aw dw : Nat}

structure Env (aw dw : Nat) where
  master : Driver aw dw
  slaves : Fin 2 → SlaveAgent aw dw
  /- the monitor of the master -/
  mon : Monitor aw dw := {}
  clk : Bool := false
  /- what a run leaves behind: what the monitor has sampled at the falling edges -/
  seen : List (Sample aw dw) := []

inductive EnvAction (aw dw : Nat)
  | posedge (opt : Fin 2 → Bool)
  | negedge (order : Bool) (choice : Fin 2 → Choice)
  | leave
  | arrive (item : Item aw dw)
  | configure (hasBlock blockPsel blockPenable : Bool)
  | wake
  | slave (i : Fin 2) (a : SlaveAction)

namespace Env

/-- The slave whose response is that of the bus. -/
def responder (psel : BitVec 16) : Fin 2 := if psel = 1 then 0 else if psel = 2 then 1 else 0

def response (e : Env aw dw) : SlaveVif dw := (e.slaves (responder e.master.vif.psel)).drv.vif

def now (e : Env aw dw) : Sample aw dw :=
  e.master.vif.sampled e.response.pready e.response.prdata e.response.pslverr

/-- The bus at the interface of a slave, with its own bit of `psel` and its own response. -/
def view (e : Env aw dw) (i : Fin 2) : Sample aw dw :=
  {e.master.vif.sampled (e.slaves i).drv.vif.pready (e.slaves i).drv.vif.prdata (e.slaves i).drv.vif.pslverr with
    psel := e.master.vif.psel &&& 1#16 <<< i.val}

def runnable (e : Env aw dw) : Bool :=
  e.master.runnable || (e.slaves 0).runnable || (e.slaves 1).runnable

def posedge (e : Env aw dw) (opt : Fin 2 → Bool) : Env aw dw :=
  {e with
    clk := true
    master := e.master.step (.posedge e.response.pready e.response.prdata e.response.pslverr)
    slaves := fun i => (e.slaves i).posedge (e.view i) (opt i)}

def negedge (e : Env aw dw) (order : Bool) (choice : Fin 2 → Choice) : Env aw dw :=
  {e with
    clk := false
    mon := e.mon.step (e.now,order)
    seen := e.seen ++ [e.now]
    master := e.master.step .negedge
    slaves := fun i => (e.slaves i).negedge (e.view i) (choice i)}

def leave (e : Env aw dw) : Env aw dw :=
  {e with master := e.master.step .leave, slaves := fun i => (e.slaves i).leave}

/-- Time does not pass while a process can go on, and the edges of the clock take turns. -/
def step (e : Env aw dw) : EnvAction aw dw → Env aw dw
  | .posedge opt => if e.runnable || e.clk then e else e.posedge opt
  | .negedge order choice => if e.runnable || !e.clk then e else e.negedge order choice
  | .leave => if e.runnable then e else e.leave
  | .arrive item => {e with master := e.master.step (.arrive item)}
  | .configure hasBlock blockPsel blockPenable =>
    {e with master := e.master.step (.configure hasBlock blockPsel blockPenable)}
  | .wake => {e with master := e.master.step .wake}
  | .slave i a => {e with slaves := Function.update e.slaves i ((e.slaves i).step a)}

def initial (mapCfgs : List MapCfg) (hasBlock blockPsel blockPenable : Bool) (config : Fin 2 → Bool × Bool) :
    Env aw dw where
  master := Driver.initial mapCfgs hasBlock blockPsel blockPenable
  slaves := fun i => SlaveAgent.initial (config i).1 (config i).2

end Env

end Smtdv.Apb
