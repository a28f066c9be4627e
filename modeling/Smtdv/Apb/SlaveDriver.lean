import Smtdv.Apb.Driver

/-! `apb_slave_driver` with its one thread, as the functions that its agent applies to it at the
edges of the clock and between them. -/
namespace Smtdv.Apb
open Lib

variable {aw dw : Nat}

/-- The `apb_sequence_item` as the slave driver reads it. -/
structure SlaveItem (aw dw : Nat) where
  trsT : TrsType
  addr : BitVec aw
  dataBeat : List (Beat dw) := []
  prio : Int := 0
  bgCyc : Int := 0
  preadyL2H : Int := 0
  deriving DecidableEq

/-- `vif.slave`, after `reset_inf`. -/
structure SlaveVif (dw : Nat) where
  prdata : BitVec dw := 0
  pready : Bool := false
  pslverr : Bool := false
  deriving DecidableEq

/-- Where the thread waits; in the `repeat` it has so many edges still to see after the next one. -/
inductive SlaveThread (aw dw : Nat)
  | get
  | access (item : SlaveItem aw dw)
  | pready (item : SlaveItem aw dw) (n : Nat)
  | cyc (item : SlaveItem aw dw)
  | finish (item : SlaveItem aw dw)
  deriving DecidableEq

def SlaveThread.item : SlaveThread aw dw → Option (SlaveItem aw dw)
  | .get => none
  | .access item | .pready item _ | .cyc item | .finish item => some item

structure SlaveDriver (aw dw : Nat) where
  blockPready : Bool
  hasError : Bool
  mbox : List (SlaveItem aw dw) := []
  cyc : Int := 0
  atEdge : Bool := false
  thread : SlaveThread aw dw := .get
  vif : SlaveVif dw := {}
  /- the drives made since the last edge, which wait for the next one -/
  pending : List (SlaveVif dw → SlaveVif dw) := []

/-- `populate_begin_write_item`. -/
def populateBeginWriteItem (hasError opt : Bool) (vif : SlaveVif dw) : SlaveVif dw :=
  {vif with pready := true, pslverr := hasError && opt}

/-- `populate_begin_read_item`. -/
def populateBeginReadItem (item : SlaveItem aw dw) (hasError opt : Bool) (vif : SlaveVif dw) : SlaveVif dw :=
  {vif with pready := true, prdata := unpackData (item.dataBeat.getD 0 default), pslverr := hasError && opt}

def SlaveItem.populateBegin (item : SlaveItem aw dw) (hasError opt : Bool) : SlaveVif dw → SlaveVif dw :=
  match item.trsT with
  | .wr => populateBeginWriteItem hasError opt
  | _ => populateBeginReadItem item hasError opt

/-- `populate_end_write_item` and `populate_end_read_item`, and `populate_default_item` behind them. -/
def populateDefaultItem (vif : SlaveVif dw) : SlaveVif dw := {vif with pready := false}

namespace SlaveDriver

def drive (s : SlaveDriver aw dw) (f : SlaveVif dw → SlaveVif dw) : SlaveDriver aw dw :=
  if s.atEdge then {s with vif := f s.vif} else {s with pending := s.pending ++ [f]}

/-- `wait(cyc >= bg_cyc)` and the drive behind it; `opt` is what is drawn for the error. -/
def waitCyc (s : SlaveDriver aw dw) (item : SlaveItem aw dw) (opt : Bool) : SlaveDriver aw dw :=
  if item.bgCyc ≤ s.cyc then {s.drive (item.populateBegin s.hasError opt) with thread := .finish item}
  else {s with thread := .cyc item}

/-- `repeat(pready_L2H)` with `n` edges to see; a negative count repeats nothing. -/
def repeatPready (s : SlaveDriver aw dw) (item : SlaveItem aw dw) (opt : Bool) : Nat → SlaveDriver aw dw
  | 0 => s.waitCyc item opt
  | n+1 => {s with thread := .pready item n}

def runnable (s : SlaveDriver aw dw) : Bool :=
  match s.thread with
  | .get => !s.mbox.isEmpty
  | _ => false

def wake (s : SlaveDriver aw dw) : SlaveDriver aw dw :=
  match s.thread with
  | .get =>
    match TwinQueue.sort SlaveItem.prio s.mbox with
    | [] => s
    | item::rest => {s with mbox := rest, thread := .access item}
  | _ => s

def sample (s : SlaveDriver aw dw) : SlaveDriver aw dw :=
  {s with
    atEdge := true
    vif := s.pending.foldl (fun vif f => f vif) s.vif
    pending := []}

def edge (s : SlaveDriver aw dw) (selected penable opt : Bool) : SlaveDriver aw dw :=
  match s.thread with
  | .access item =>
    if selected && penable then s.repeatPready item opt (if s.blockPready then item.preadyL2H.toNat else 0)
    else s
  | .pready item n => s.repeatPready item opt n
  | .finish _ => {s.drive populateDefaultItem with thread := .get}
  | .get | .cyc _ => s

def negedge (s : SlaveDriver aw dw) (opt : Bool) : SlaveDriver aw dw :=
  let next := {s with atEdge := false, cyc := s.cyc+1}
  match s.thread with
  | .cyc item => next.waitCyc item opt
  | _ => next

/-- `drive_bus`; an item of another direction is fatal. -/
def driveBus (s : SlaveDriver aw dw) (item : SlaveItem aw dw) : SlaveDriver aw dw :=
  match item.trsT with
  | .rd | .wr => {s with mbox := s.mbox ++ [item]}
  | .rdwr => s

theorem driveBus_known (s : SlaveDriver aw dw) {item : SlaveItem aw dw} (known : item.trsT ≠ .rdwr) :
    s.driveBus item = {s with mbox := s.mbox ++ [item]} := by
  rw [driveBus]
  split
  · rfl
  · rfl
  next other => exact absurd other known

end SlaveDriver

end Smtdv.Apb
