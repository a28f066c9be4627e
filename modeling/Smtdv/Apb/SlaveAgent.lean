import Smtdv.Apb.SlaveDriver
import Smtdv.Common.ByteMap
import Smtdv.Common.SlaveBaseSeq

/-! The slave agent: its monitor, the `apb_slave_base_seq` on its sequencer with the memory, and its
driver. The sequence shares the item of a collector, which goes on to fill it. -/
namespace Smtdv.Apb
open Lib

variable {aw dw : Nat}

/-- The `apb_sequence_item` of a collector, as the sequence and the driver read it too. -/
structure SlaveObject (aw dw : Nat) extends CollItem aw dw where
  prio : Int := 0
  bgCyc : Int := 0
  preadyL2H : Int := 0
  memComplete : Bool := false

instance : Inhabited (SlaveObject aw dw) := ⟨{addr := 0, addrs := [], trsT := .rd}⟩

/-- `mid_do_read_item` past the wait for the lock. -/
def midDoReadItem (m : Memory aw) (item : SlaveObject aw dw) : Memory aw × SlaveObject aw dw :=
  let loaded := m.lock.memLoadByte (item.addrs.getD 0 0) (dw >>> 3)
  (loaded.1.unlock,{item with
    dataBeat := (fun i => loaded.2.getD i.val 0)::item.dataBeat.tail
    memComplete := true})

/-- `mid_do_write_item` past its waits. -/
def midDoWriteItem (m : Memory aw) (item : SlaveObject aw dw) : Memory aw × SlaveObject aw dw :=
  let m := m.lock
  if item.success then
    ((m.memStoreByte (item.addrs.getD 0 0) (List.ofFn (item.dataBeat.getD 0 default)) item.bgCyc.toNat).unlock,
      {item with memComplete := true})
  else (m.unlock,item)

/-- The copy that `note_to_drv` sends to the driver. -/
def SlaveObject.req (item : SlaveObject aw dw) : SlaveItem aw dw where
  trsT := item.trsT
  addr := item.addr
  dataBeat := item.dataBeat
  prio := item.prio
  bgCyc := item.bgCyc
  preadyL2H := item.preadyL2H

/-- What is open at a falling edge: the order of the collectors, whether `cyc` has been counted, what the
randomization of a write item draws, and the draw of the driver. -/
structure Choice where
  order : Bool
  counted : Bool
  prio : Int
  preadyL2H : Int
  opt : Bool

structure SlaveAgent (aw dw : Nat) where
  drv : SlaveDriver aw dw
  /- the items of the collectors, and for each of the two the one it has -/
  objects : List (SlaveObject aw dw) := []
  item : TrsType → Option Nat := fun _ => none
  base : SlaveBaseSeq.State := {}
  /- the number of items that `note_to_drv` has taken from `mbox`, and the driver in `get_next_item` -/
  noted : Nat := 0
  request : Bool := false
  mem : Memory aw := {}

inductive SlaveAction
  | configure (blockPready hasError : Bool)
  | wake
  | get
  | start
  | store (w : Nat)
  | note

namespace SlaveAgent

def object (s : SlaveAgent aw dw) (r : Nat) : SlaveObject aw dw := s.objects[r]?.getD default

/-- `populate_begin_item`; only that of a write draws values. -/
def beginItem (s : SlaveAgent aw dw) (dir : TrsType) (c : Sample aw dw) (choice : Choice) : SlaveObject aw dw where
  toCollItem := populateBeginItem dir c
  prio := if dir = .wr then choice.prio else 0
  bgCyc := if choice.counted then s.drv.cyc+1 else s.drv.cyc
  preadyL2H := if dir = .wr then choice.preadyL2H else 0

/-- One turn of a collector at a falling edge, as `collect` has it, with the item asserted to the sequence. -/
def collect (s : SlaveAgent aw dw) (choice : Choice) (c : Sample aw dw) (dir : TrsType) : SlaveAgent aw dw :=
  match s.item dir with
  | none =>
    if begins dir c then
      {s with
        objects := s.objects ++ [s.beginItem dir c choice]
        item := Function.update s.item dir (some s.objects.length)
        base := SlaveBaseSeq.step s.base (.deliver dir)}
    else s
  | some r =>
    if c.pready then
      {s with
        objects := s.objects.set r {s.object r with toCollItem := (s.object r).toCollItem.populateEndItem dir c}
        item := Function.update s.item dir none
        base := SlaveBaseSeq.step s.base (.complete r)}
    else s

def negedge (s : SlaveAgent aw dw) (c : Sample aw dw) (choice : Choice) : SlaveAgent aw dw :=
  let s := if choice.order then (s.collect choice c .wr).collect choice c .rd
    else (s.collect choice c .rd).collect choice c .wr
  {s with drv := s.drv.negedge choice.opt}

/-- A rising edge, with the bus as it was before; the driver asks for an item. -/
def posedge (s : SlaveAgent aw dw) (c : Sample aw dw) (opt : Bool) : SlaveAgent aw dw :=
  {s with drv := s.drv.sample.edge (decide (c.psel ≠ 0)) c.penable opt, request := true}

def leave (s : SlaveAgent aw dw) : SlaveAgent aw dw := {s with drv := {s.drv with atEdge := false}}

/-- A turn of `rcv_from_mon`; a read that finds the memory locked blocks it. -/
def get (s : SlaveAgent aw dw) : SlaveAgent aw dw :=
  let base := SlaveBaseSeq.rcvFromMon s.base s.mem.hasLock
  if base.reads = s.base.reads ∨ s.mem.hasLock then {s with base := base}
  else
    let loaded := midDoReadItem s.mem (s.object base.mitem)
    {s with base := base, mem := loaded.1, objects := s.objects.set base.mitem loaded.2}

/-- `mid_do_write_item` of an item that is complete, and the end of its process. -/
def store (s : SlaveAgent aw dw) (w : Nat) : SlaveAgent aw dw :=
  if w ∈ s.base.writers ∧ w ∈ s.base.completed ∧ s.mem.hasLock = false then
    let stored := midDoWriteItem s.mem (s.object w)
    {s with base := SlaveBaseSeq.finishWrite s.base w, mem := stored.1, objects := s.objects.set w stored.2}
  else s

/-- A turn of `note_to_drv`, up to `drive_bus`. -/
def note (s : SlaveAgent aw dw) : SlaveAgent aw dw :=
  match s.request,s.base.mbox[s.noted]? with
  | true,some r => {s with noted := s.noted+1, request := false, drv := s.drv.driveBus (s.object r).req}
  | _,_ => s

def runnable (s : SlaveAgent aw dw) : Bool :=
  s.drv.runnable || decide (s.base.rcv = .get) ||
    decide (s.base.rcv = .blocked ∧ s.base.fetched < s.base.items.length) || decide (0 < s.base.ready) ||
    (s.base.writers.any fun w => decide (w ∈ s.base.completed ∧ s.mem.hasLock = false)) ||
    (s.request && decide (s.noted < s.base.mbox.length))

def step (s : SlaveAgent aw dw) : SlaveAction → SlaveAgent aw dw
  | .configure blockPready hasError => {s with drv := {s.drv with blockPready := blockPready, hasError := hasError}}
  | .wake => {s with drv := s.drv.wake}
  | .get => s.get
  | .start => {s with base := SlaveBaseSeq.start s.base}
  | .store w => s.store w
  | .note => s.note

def initial (blockPready hasError : Bool) : SlaveAgent aw dw where
  drv := {blockPready := blockPready, hasError := hasError}

end SlaveAgent

end Smtdv.Apb
