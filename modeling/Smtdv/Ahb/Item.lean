import Smtdv.Common.Types

/-! `ahb_sequence_item`: what the driver and the monitor read of it. -/
namespace Smtdv.Ahb

/-- `trx_type_t`. -/
inductive HTrans
  | idle | busy | nonseq | seq
  deriving DecidableEq, Repr

/-- `bst_type_t`. -/
inductive BstType
  | single | incr | wrap4 | incr4 | wrap8 | incr8 | wrap16 | incr16
  deriving DecidableEq, Repr

/-- The fields of an item that nobody changes once it is queued. -/
structure Trx (aw dw : Nat) where
  trsT : TrsType
  addrs : List (BitVec aw)
  dataBeat : List (Beat dw)
  bstLen : Nat
  prio : Int
  trxSize : TrxSize := .b32
  bstType : BstType := .single
  trxPrt : BitVec 4 := 0
  hmastlock : BitVec 1 := 0
  deriving DecidableEq

/-- The fields the two threads of the driver write. -/
structure Status where
  addrIdx : Nat := 0
  dataIdx : Nat := 0
  addrComplete : Bool := false
  dataComplete : Bool := false
  memComplete : Bool := false
  fifoComplete : Bool := false
  retry : Bool := false
  split : Bool := false
  error : Bool := false
  busyCnt : Int := 0
  deriving DecidableEq, Inhabited

/-- `clone`: the field macros list neither `trx_prt`, `hmastlock` nor `busy_cnt`. -/
def Trx.clone {aw dw : Nat} (trx : Trx aw dw) : Trx aw dw := {trx with trxPrt := 0, hmastlock := 0}

def Status.clone (status : Status) : Status := {status with busyCnt := 0}

def Status.resetIndex (status : Status) : Status := {status with addrIdx := 0, dataIdx := 0}

def Status.resetStatus (status : Status) : Status :=
  {status with memComplete := false, fifoComplete := false, addrComplete := false, dataComplete := false}

/-- An item in a box: the object's number in the heap of statuses, and its constant part. -/
structure Handle (aw dw : Nat) where
  id : Nat
  trx : Trx aw dw
  deriving DecidableEq

/-- `item.prio`, the key of `async_prio_get`. -/
def Handle.prio {aw dw : Nat} (h : Handle aw dw) : Int := h.trx.prio

end Smtdv.Ahb
