import Smtdv.Lib.Machine
import Smtdv.Ahb.Item

/-! `ahb_monitor` with its address and data collectors. A step is one falling edge of the
clock: it wakes both collectors, in either order, and what they do without a delay is done
before the next. -/
namespace Smtdv.Ahb
open Lib

variable {aw dw : Nat}

/-- What the collectors sample at a falling edge; the defaults are those of an idle bus. -/
structure Sample (aw dw : Nat) where
  hready : Bool := true
  hresp : TrxRsp := .okay
  htrans : HTrans := .idle
  haddr : BitVec aw := 0
  hwrite : Bool := false
  hsize : TrxSize := .b32
  hburst : BstType := .single
  hprot : BitVec 4 := 0
  hmastlock : BitVec 1 := 0
  hwdata : BitVec dw := 0
  hrdata : BitVec dw := 0
  deriving DecidableEq

/-- The `ahb_sequence_item` of a collector; without a `rsp` it still has its random one. -/
structure CollItem (aw dw : Nat) where
  addr : BitVec aw := 0
  trsT : TrsType := .rd
  trxSize : TrxSize := .b32
  bstType : BstType := .single
  trxPrt : BitVec 4 := 0
  hmastlock : BitVec 1 := 0
  bstLen : Nat := 0
  addrIdx : Nat := 0
  dataIdx : Nat := 0
  addrs : List (BitVec aw) := []
  dataBeat : List (Beat dw) := []
  rsp : Option TrxRsp := none
  retry : Bool := false
  split : Bool := false
  error : Bool := false
  success : Bool := false
  addrComplete : Bool := false
  dataComplete : Bool := false
  deriving DecidableEq, Inhabited

/-- `get_bst_len`, of an item with the addresses given. -/
def getBstLen (bstType : BstType) (addrs : List (BitVec aw)) : Nat :=
  match bstType with
  | .single => 0
  | .incr => addrs.length
  | .wrap4 | .incr4 => 3
  | .wrap8 | .incr8 => 7
  | .wrap16 | .incr16 => 15

/-- The address collector is in `listen_nonseq`, or listens on an item; `firsts` are the
responses whose listener has seen the first of its two cycles. -/
inductive AddrColl
  | nonseq
  | listen (h : Nat) (firsts : List TrxRsp)
  deriving DecidableEq

/-- The data collector is in `pbox.get`, or listens on an item; `awake` when `listen_OKAY`
is past its `wait` and at the edge. -/
inductive DataColl
  | get
  | listen (h : Nat) (awake : Bool) (firsts : List TrxRsp)
  deriving DecidableEq

/-- Items are numbered as they are created; `collected` are those written to the port of
the scoreboard. -/
structure Monitor (aw dw : Nat) where
  items : List (CollItem aw dw)
  pbox : List Nat
  addr : AddrColl
  data : DataColl
  collected : List Nat
  deriving DecidableEq

namespace CollItem

/-- `populate_nonseq_item`: `bst_len` is computed before the address is pushed. -/
def populateNonseqItem (c : Sample aw dw) : CollItem aw dw :=
  let item : CollItem aw dw := {
    addr := c.haddr
    trsT := if c.hwrite then .wr else .rd
    trxSize := c.hsize
    bstType := c.hburst
    trxPrt := c.hprot
    hmastlock := c.hmastlock}
  let item := {item with bstLen := getBstLen c.hburst item.addrs}
  {item with addrIdx := item.addrIdx+1, addrs := item.addrs ++ [c.haddr]}

def populateSeqItem (item : CollItem aw dw) (c : Sample aw dw) : CollItem aw dw :=
  {item with addrIdx := item.addrIdx+1, addrs := item.addrs ++ [c.haddr]}

/-- `populate_retry_item`, `populate_split_item` and `populate_error_item` of the address
collector; those of the data collector are empty. -/
def populateResp (item : CollItem aw dw) : TrxRsp → CollItem aw dw
  | .okay => item
  | .retry => if item.retry then item else {item with retry := true, rsp := some .retry}
  | .split => if item.split then item else {item with split := true, rsp := some .split}
  | .error => if item.error then item else {item with error := true, rsp := some .error}

/-- `pack_data` into the beat of an index; the index after the last extends the queue. -/
def packAt (item : CollItem aw dw) (idx : Nat) (data : BitVec dw) : CollItem aw dw :=
  {item with dataBeat :=
    if idx = item.dataBeat.length then item.dataBeat ++ [packData data]
    else item.dataBeat.set idx (packData data)}

def populateDataItem (item : CollItem aw dw) (c : Sample aw dw) : CollItem aw dw :=
  let item := item.packAt item.dataIdx (if item.trsT = .wr then c.hwdata else c.hrdata)
  {item with dataIdx := item.dataIdx+1}

end CollItem

namespace Monitor

def initial : Monitor aw dw := ⟨[],[],.nonseq,.get,[]⟩

def item (m : Monitor aw dw) (h : Nat) : CollItem aw dw := m.items[h]?.getD default

def update (m : Monitor aw dw) (h : Nat) (f : CollItem aw dw → CollItem aw dw) : Monitor aw dw :=
  {m with items := m.items.modify h f}

/-! ### The address collector -/

/-- The loop of `listen_OKAY` up to its next wait, or its end. -/
def addrLoop (m : Monitor aw dw) (h : Nat) (firsts : List TrxRsp) : Monitor aw dw :=
  if (m.item h).addrIdx ≤ (m.item h).bstLen then {m with addr := .listen h firsts}
  else {m.update h fun item => {item with rsp := some .okay, addrComplete := true} with addr := .nonseq}

/-- The second wait of a response: the one of `listen_RETRY` is for a high `hready`, those of
`listen_SPLIT` and `listen_ERROR` are for a low one. -/
def addrSecond (c : Sample aw dw) : Bool :=
  (match c.hresp with
    | .retry => c.hready
    | _ => !c.hready) && decide (c.htrans = .idle)

/-- The four listeners of the address collector at an edge. -/
def addrListen (m : Monitor aw dw) (c : Sample aw dw) (h : Nat) (firsts : List TrxRsp) : Monitor aw dw :=
  if c.hresp = .okay then
    if c.hready then
      (if c.htrans = .seq then m.update h fun item => item.populateSeqItem c else m).addrLoop h firsts
    else m
  else if c.hresp ∈ firsts then
    if addrSecond c then
      {m.update h fun item => {item.populateResp c.hresp with addrComplete := true} with addr := .nonseq}
    else m
  else if c.hready then m
  else {m.update h fun item => item.populateResp c.hresp with addr := .listen h (c.hresp::firsts)}

/-- `listen_nonseq`, and `run` up to its next wait. -/
def addrNonseq (m : Monitor aw dw) (c : Sample aw dw) : Monitor aw dw :=
  if c.hready = true ∧ c.hresp = .okay ∧ c.htrans = .nonseq then
    let h := m.items.length
    {m with items := m.items ++ [CollItem.populateNonseqItem c], pbox := m.pbox ++ [h]}.addrLoop h []
  else m

def addrEdge (m : Monitor aw dw) (c : Sample aw dw) : Monitor aw dw :=
  match m.addr with
  | .nonseq => m.addrNonseq c
  | .listen h firsts => m.addrListen c h firsts

/-! ### The data collector -/

/-- `populate_complete_item`, the write to the port, and the turn of `run` back to `pbox.get`. -/
def dataComplete (m : Monitor aw dw) (h : Nat) : Monitor aw dw :=
  let m := m.update h fun item => {item with dataComplete := true}
  {m with
    data := .get
    collected := if (m.item h).success then m.collected ++ [h] else m.collected}

/-- The loop of `listen_OKAY` up to its `wait`, or its end. -/
def dataLoop (m : Monitor aw dw) (h : Nat) (firsts : List TrxRsp) : Monitor aw dw :=
  if (m.item h).dataIdx ≤ (m.item h).bstLen then {m with data := .listen h false firsts}
  else (m.update h fun item => {item with rsp := some .okay, success := true}).dataComplete h

/-- The four listeners of the data collector at an edge. -/
def dataListen (m : Monitor aw dw) (c : Sample aw dw) (h : Nat) (awake : Bool) (firsts : List TrxRsp) :
    Monitor aw dw :=
  if c.hresp = .okay then
    if c.hready && awake then (m.update h fun item => item.populateDataItem c).dataLoop h firsts
    else m
  else if c.hresp ∈ firsts then
    if c.hready && decide (c.htrans = .idle) then m.dataComplete h else m
  else if c.hready then m
  else {m with data := .listen h awake (c.hresp::firsts)}

def dataEdge (m : Monitor aw dw) (c : Sample aw dw) : Monitor aw dw :=
  match m.data with
  | .get => m
  | .listen h awake firsts => m.dataListen c h awake firsts

/-- `pbox.get`, when there is an item in it. -/
def dataGet (m : Monitor aw dw) : Monitor aw dw :=
  match m.data,m.pbox with
  | .get,h::rest => {m with pbox := rest, data := .listen h false []}
  | _,_ => m

/-- `wait(item.addr_idx > item.data_idx)`. -/
def dataWait (m : Monitor aw dw) : Monitor aw dw :=
  match m.data with
  | .listen h false firsts =>
    {m with data := .listen h (decide ((m.item h).dataIdx < (m.item h).addrIdx)) firsts}
  | _ => m

/-- A falling edge, with the order in which the collectors are woken. -/
def step (m : Monitor aw dw) (c : Sample aw dw × Bool) : Monitor aw dw :=
  (if c.2 then (m.addrEdge c.1).dataEdge c.1 else (m.dataEdge c.1).addrEdge c.1).dataGet.dataWait

def after (trace : List (Sample aw dw × Bool)) : Monitor aw dw := Machine.run step .initial trace

end Monitor

end Smtdv.Ahb
