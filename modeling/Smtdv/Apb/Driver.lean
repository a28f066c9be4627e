import Smtdv.Apb.Monitor
import Smtdv.Common.Backdoor
import Smtdv.Lib.TwinQueue

/-! `apb_master_driver` with its one thread, as a step function. A step is a clock edge, the
time that passes after one, something from outside, or the thread going on in zero time. -/
namespace Smtdv.Apb
open Lib

variable {aw dw : Nat}

/-- The `apb_sequence_item` as the driver reads it. -/
structure Item (aw dw : Nat) where
  trsT : TrsType
  addr : BitVec aw
  dataBeat : List (Beat dw) := []
  prio : Int := 0
  bgCyc : Int := 0
  pselL2H : Int := 0
  penableL2H : Int := 0
  deriving DecidableEq

/-- `vif.master`, after `reset_inf`. -/
structure Vif (aw dw : Nat) where
  paddr : BitVec aw := 0
  prwd : Bool := false
  pwdata : BitVec dw := 0
  psel : BitVec 16 := 0
  penable : Bool := false
  deriving DecidableEq

def Vif.sampled (vif : Vif aw dw) (pready : Bool) (prdata : BitVec dw) (pslverr : Bool) : Sample aw dw where
  psel := vif.psel
  penable := vif.penable
  prwd := vif.prwd
  paddr := vif.paddr
  pwdata := vif.pwdata
  prdata := prdata
  pready := pready
  pslverr := pslverr

/-- Where the thread waits; in a `repeat` it has so many edges still to see after the next one. -/
inductive Thread (aw dw : Nat)
  | block
  | get
  | cyc (item : Item aw dw)
  | psel (item : Item aw dw) (n : Nat)
  | setup (item : Item aw dw)
  | penable (item : Item aw dw) (n : Nat)
  | access (item : Item aw dw)
  deriving DecidableEq

structure Driver (aw dw : Nat) where
  mapCfgs : List MapCfg
  hasBlock : Bool
  blockPsel : Bool
  blockPenable : Bool
  mbox : List (Item aw dw) := []
  cyc : Int := 0
  atEdge : Bool := false
  thread : Thread aw dw := .block
  vif : Vif aw dw := {}
  /- the drives made since the last edge, which wait for the next one -/
  pending : List (Vif aw dw → Vif aw dw) := []
  /- what a run leaves behind: the items pushed, the items driven to the end and what was
  sampled at the rising edges -/
  arrived : List (Item aw dw) := []
  driven : List (Item aw dw) := []
  cycles : List (Sample aw dw) := []

inductive Action (aw dw : Nat)
  | posedge (pready : Bool) (prdata : BitVec dw) (pslverr : Bool)
  | negedge
  | leave
  | arrive (item : Item aw dw)
  | configure (hasBlock blockPsel blockPenable : Bool)
  | wake

/-- `1 << find_slave(addr)`, cut to the 16 bits of `psel`; a shift by `-1` leaves nothing. -/
def sel (mapCfgs : List MapCfg) (addr : BitVec aw) : BitVec 16 :=
  match findSlave mapCfgs (addr.toNat % 2^32) with
  | some id => 1#16 <<< id
  | none => 0

def populateSetupWriteItem (mapCfgs : List MapCfg) (item : Item aw dw) (vif : Vif aw dw) : Vif aw dw :=
  {vif with
    paddr := item.addr
    prwd := true
    psel := sel mapCfgs item.addr
    pwdata := unpackData (item.dataBeat.getD 0 default)}

def populateSetupReadItem (mapCfgs : List MapCfg) (item : Item aw dw) (vif : Vif aw dw) : Vif aw dw :=
  {vif with
    paddr := item.addr
    prwd := false
    psel := sel mapCfgs item.addr}

def populateSetupItem (mapCfgs : List MapCfg) (item : Item aw dw) : Vif aw dw → Vif aw dw :=
  match item.trsT with
  | .wr => populateSetupWriteItem mapCfgs item
  | _ => populateSetupReadItem mapCfgs item

/-- `populate_access_write_item` and `populate_access_read_item`. -/
def populateAccessItem (vif : Vif aw dw) : Vif aw dw := {vif with penable := true}

/-- `populate_end_write_item` and `populate_end_read_item`. -/
def populateEndItem (vif : Vif aw dw) : Vif aw dw := {vif with psel := 0, penable := false}

def Thread.item : Thread aw dw → Option (Item aw dw)
  | .block | .get => none
  | .cyc item | .psel item _ | .setup item | .penable item _ | .access item => some item

namespace Driver

/-- A drive of the clocking block: at an edge it takes effect just after it, between two
edges just after the next. -/
def drive (s : Driver aw dw) (f : Vif aw dw → Vif aw dw) : Driver aw dw :=
  if s.atEdge then {s with vif := f s.vif} else {s with pending := s.pending ++ [f]}

/-- `repeat(psel_L2H)` with `n` edges to see, and the setup drive behind it. -/
def repeatPsel (s : Driver aw dw) (item : Item aw dw) : Nat → Driver aw dw
  | 0 => {s.drive (populateSetupItem s.mapCfgs item) with thread := .setup item}
  | n+1 => {s with thread := .psel item n}

def repeatPenable (s : Driver aw dw) (item : Item aw dw) : Nat → Driver aw dw
  | 0 => {s.drive populateAccessItem with thread := .access item}
  | n+1 => {s with thread := .penable item n}

/-- `wait(cyc >= bg_cyc)`; a negative count repeats nothing. -/
def waitCyc (s : Driver aw dw) (item : Item aw dw) : Driver aw dw :=
  if item.bgCyc ≤ s.cyc then s.repeatPsel item (if s.blockPsel then item.pselL2H.toNat else 0)
  else {s with thread := .cyc item}

def runnable (s : Driver aw dw) : Bool :=
  match s.thread with
  | .block => !s.hasBlock
  | .get => !s.mbox.isEmpty
  | _ => false

/-- The thread goes on past `wait(!has_block)`, or takes an item from `mbox`. -/
def wake (s : Driver aw dw) : Driver aw dw :=
  match s.thread with
  | .block => if s.hasBlock then s else {s with thread := .get}
  | .get =>
    match TwinQueue.sort Item.prio s.mbox with
    | [] => s
    | item::rest => {s with mbox := rest}.waitCyc item
  | _ => s

/-- A rising edge samples the outputs before it; those that were waiting for it are after it. -/
def sample (s : Driver aw dw) (pready : Bool) (prdata : BitVec dw) (pslverr : Bool) : Driver aw dw :=
  {s with
    atEdge := true
    cycles := s.cycles ++ [s.vif.sampled pready prdata pslverr]
    vif := s.pending.foldl (fun vif f => f vif) s.vif
    pending := []}

def edge (s : Driver aw dw) (pready : Bool) : Driver aw dw :=
  match s.thread with
  | .psel item n => s.repeatPsel item n
  | .setup item => s.repeatPenable item (if s.blockPenable then item.penableL2H.toNat else 0)
  | .penable item n => s.repeatPenable item n
  | .access item =>
    if pready then {s.drive populateEndItem with thread := .block, driven := s.driven ++ [item]} else s
  | _ => s

def negedge (s : Driver aw dw) : Driver aw dw :=
  let next := {s with atEdge := false, cyc := s.cyc+1}
  match s.thread with
  | .cyc item => next.waitCyc item
  | _ => next

/-- `drive_bus`; an item of another direction is fatal. -/
def driveBus (s : Driver aw dw) (item : Item aw dw) : Driver aw dw :=
  match item.trsT with
  | .rd | .wr => {s with mbox := s.mbox ++ [item], arrived := s.arrived ++ [item]}
  | .rdwr => s

/-- Time does not pass while the thread can go on. -/
def step (s : Driver aw dw) : Action aw dw → Driver aw dw
  | .posedge pready prdata pslverr => if s.runnable then s else (s.sample pready prdata pslverr).edge pready
  | .negedge => if s.runnable then s else s.negedge
  | .leave => if s.runnable then s else {s with atEdge := false}
  | .arrive item => s.driveBus item
  | .configure hasBlock blockPsel blockPenable =>
    {s with hasBlock := hasBlock, blockPsel := blockPsel, blockPenable := blockPenable}
  | .wake => s.wake

def initial (mapCfgs : List MapCfg) (hasBlock blockPsel blockPenable : Bool) : Driver aw dw where
  mapCfgs := mapCfgs
  hasBlock := hasBlock
  blockPsel := blockPsel
  blockPenable := blockPenable

end Driver

end Smtdv.Apb
