import Smtdv.Lib.Machine
import Smtdv.Common.Types

/-! `apb_monitor` with its write and read collectors. A step is one falling edge of the clock,
which wakes both collectors in either order. -/
namespace Smtdv.Apb
open Lib

variable {aw dw : Nat}

/-- What the collectors sample at a falling edge; the defaults are those of an idle bus. -/
structure Sample (aw dw : Nat) where
  psel : BitVec 16 := 0
  penable : Bool := false
  prwd : Bool := false
  paddr : BitVec aw := 0
  pwdata : BitVec dw := 0
  prdata : BitVec dw := 0
  pready : Bool := false
  pslverr : Bool := false
  deriving DecidableEq

/-- The `apb_sequence_item` of a collector; without a `rsp` it still has that of its creation. -/
structure CollItem (aw dw : Nat) where
  addr : BitVec aw
  addrs : List (BitVec aw)
  trsT : TrsType
  dataBeat : List (Beat dw) := []
  rsp : Option TrxRsp := none
  success : Bool := false
  addrComplete : Bool := false
  dataComplete : Bool := false
  deriving DecidableEq

/-- Each collector waits for an access phase of its direction, or has the item of one and
waits for `pready`. `collected` are the items that have ended. -/
structure Monitor (aw dw : Nat) where
  wr : Option (CollItem aw dw) := none
  rd : Option (CollItem aw dw) := none
  collected : List (CollItem aw dw) := []
  deriving DecidableEq

/-- The wait at the top of the loop of `run`. -/
def begins (dir : TrsType) (c : Sample aw dw) : Bool :=
  decide (c.psel ≠ 0) && c.penable && (match dir with
    | .wr => c.prwd
    | _ => !c.prwd)

def populateBeginItem (dir : TrsType) (c : Sample aw dw) : CollItem aw dw where
  addr := c.paddr
  addrs := [c.paddr]
  trsT := dir
  addrComplete := true

/-- `pack_data(0, data)`, of an item that has no data yet, and the response. -/
def CollItem.populateEndItem (item : CollItem aw dw) (dir : TrsType) (c : Sample aw dw) : CollItem aw dw :=
  let data := match dir with
    | .wr => c.pwdata
    | _ => c.prdata
  let rsp := if c.pslverr then TrxRsp.error else .okay
  {item with
    dataBeat := [packData data]
    rsp := some rsp
    success := decide (rsp = .okay)
    dataComplete := true}

/-- One turn of `run` at an edge: the item of the collector after it, and the item that ends. -/
def collect (dir : TrsType) (item : Option (CollItem aw dw)) (c : Sample aw dw) :
    Option (CollItem aw dw) × List (CollItem aw dw) :=
  match item with
  | none => (if begins dir c then some (populateBeginItem dir c) else none,[])
  | some item => if c.pready then (none,[item.populateEndItem dir c]) else (some item,[])

namespace Monitor

def writeEdge (m : Monitor aw dw) (c : Sample aw dw) : Monitor aw dw :=
  let next := collect .wr m.wr c
  {m with wr := next.1, collected := m.collected ++ next.2}

def readEdge (m : Monitor aw dw) (c : Sample aw dw) : Monitor aw dw :=
  let next := collect .rd m.rd c
  {m with rd := next.1, collected := m.collected ++ next.2}

def step (m : Monitor aw dw) (c : Sample aw dw × Bool) : Monitor aw dw :=
  if c.2 then (m.writeEdge c.1).readEdge c.1 else (m.readEdge c.1).writeEdge c.1

def after (trace : List (Sample aw dw × Bool)) : Monitor aw dw := Machine.run step {} trace

end Monitor

end Smtdv.Apb
