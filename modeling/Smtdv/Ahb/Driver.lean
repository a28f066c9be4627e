import Mathlib.Data.List.Sort
import Smtdv.Lib.Heap
import Smtdv.Lib.Machine
import Smtdv.Ahb.Item

/-! `ahb_master_driver` with its address and data threads, as one step function. A step is
one wake-up of one process; a clock edge wakes the threads that listen, each of which
runs at its own place among the other processes of the time step. -/
namespace Smtdv.Ahb
open Lib

variable {aw dw : Nat}

/-- What the threads sample at a clock edge. -/
structure Sig where
  hgrant : Bool
  hready : Bool
  hresp : TrxRsp
  deriving DecidableEq

/-- `vif.master`. -/
structure Vif (aw dw : Nat) where
  haddr : BitVec aw
  htrans : HTrans
  hwrite : Bool
  hsize : TrxSize
  hburst : BstType
  hprot : BitVec 4
  hmastlock : BitVec 1
  hwdata : Beat dw

/-- Where `listen_OKAY` of the address thread waits. -/
inductive OkayPhase
  | nonseq | busy | seq
  deriving DecidableEq

/-- The address thread waits for an item or listens; `firsts` are the responses whose
listener has seen the first of its two cycles. -/
inductive AddrThread (aw dw : Nat)
  | wait
  | listen (item : Handle aw dw) (phase : OkayPhase) (firsts : List TrxRsp)

/-- The data thread waits, is between taking an item and looking at it, or listens. -/
inductive DataThread (aw dw : Nat)
  | wait
  | swap (item : Handle aw dw)
  | listen (item : Handle aw dw) (firsts : List TrxRsp)

/-- The two pushes that `drive_bus` or `redrive_bus` forks, while one is still to run. -/
structure Fork (aw dw : Nat) where
  item : Handle aw dw
  front : Bool
  toAddr : Bool := true
  toData : Bool := true

/-- One bus cycle: what the master drove, what was sampled at the edge that ended it, and
the beat whose address phase it showed. -/
structure Cycle (aw dw : Nat) where
  vif : Vif aw dw
  sig : Sig
  beat : Option (Handle aw dw × Nat)

structure Driver (aw dw : Nat) where
  hasBusy : Bool
  heap : Heap Status
  addrbox : List (Handle aw dw)
  databox : List (Handle aw dw)
  forks : List (Fork aw dw)
  addr : AddrThread aw dw
  data : DataThread aw dw
  addrArmed : Bool
  dataArmed : Bool
  sig : Sig
  vif : Vif aw dw
  /- what a run leaves behind: the items from the sequencer and the clones, the items each
  thread took, the bus cycles, the responses charged to items by the address thread and
  the items the data thread closed at a response -/
  taken : List (Handle aw dw)
  clones : List (Handle aw dw × Handle aw dw)
  addrPops : List (Handle aw dw)
  dataPops : List (Handle aw dw)
  cycles : List (Cycle aw dw)
  charged : List (Handle aw dw × TrxRsp)
  closed : List (Handle aw dw × TrxRsp)

inductive Action (aw dw : Nat)
  | posedge (sig : Sig)
  | addrEdge (opt : Bool)
  | dataEdge
  | driveBus (req : Trx aw dw)
  | pushAddr (k : Nat)
  | pushData (k : Nat)
  | addrGet
  | dataGet
  | dataSwap

namespace Driver

/-- The driver after `reset_driver`. -/
def initial (hasBusy : Bool) : Driver aw dw where
  hasBusy := hasBusy
  heap := .empty
  addrbox := []
  databox := []
  forks := []
  addr := .wait
  data := .wait
  addrArmed := false
  dataArmed := false
  sig := ⟨false,false,.okay⟩
  vif := ⟨0,.idle,false,.b8,.single,0,0,default⟩
  taken := []
  clones := []
  addrPops := []
  dataPops := []
  cycles := []
  charged := []
  closed := []

def status (s : Driver aw dw) (item : Handle aw dw) : Status := s.heap.get item.id

def setStatus (s : Driver aw dw) (item : Handle aw dw) (f : Status → Status) : Driver aw dw :=
  {s with heap := s.heap.modify item.id f}

/-- `drive_bus`; an item of another direction is fatal. -/
def driveBus (s : Driver aw dw) (req : Trx aw dw) : Driver aw dw :=
  match req.trsT with
  | .rd | .wr =>
    let item : Handle aw dw := ⟨s.heap.next,req⟩
    {s with
      heap := s.heap.alloc {}
      forks := s.forks ++ [{item := item, front := false}]
      taken := s.taken ++ [item]}
  | .rdwr => s

def redriveBus (s : Driver aw dw) (item : Handle aw dw) : Driver aw dw :=
  let ritem : Handle aw dw := ⟨s.heap.next,{item.trx.clone with prio := -1}⟩
  {s with
    heap := s.heap.alloc (s.status item).clone.resetIndex.resetStatus
    forks := s.forks ++ [{item := ritem, front := true}]
    clones := s.clones ++ [(item,ritem)]}

/-- `async_push_front` or `async_push_back`. -/
def push (box : List (Handle aw dw)) (item : Handle aw dw) (front : Bool) : List (Handle aw dw) :=
  if front then item::box else box ++ [item]

/-- The sort of `async_prio_get`; items of equal `prio` keep their places. -/
def prioSort (box : List (Handle aw dw)) : List (Handle aw dw) :=
  box.insertionSort fun a b => a.prio ≤ b.prio

/-- The forked pushes after one of fork `k` has run; a fork with none left is gone. -/
def pushed (forks : List (Fork aw dw)) (k : Nat) (f : Fork aw dw → Fork aw dw) : List (Fork aw dw) :=
  (forks.modify k f).filter fun fork => fork.toAddr || fork.toData

/-! ### The address thread -/

def populateDefaultItem (s : Driver aw dw) : Driver aw dw :=
  {s with vif := {s.vif with htrans := .idle}}

def populateNonseqItem (s : Driver aw dw) (item : Handle aw dw) : Driver aw dw :=
  {s with vif := {s.vif with
    haddr := item.trx.addrs.getD (s.status item).addrIdx 0
    htrans := .nonseq
    hwrite := item.trx.trsT = .wr
    hsize := item.trx.trxSize
    hburst := item.trx.bstType
    hprot := item.trx.trxPrt
    hmastlock := item.trx.hmastlock}}

def populateSeqItem (s : Driver aw dw) (item : Handle aw dw) : Driver aw dw :=
  {s with vif := {s.vif with
    haddr := item.trx.addrs.getD (s.status item).addrIdx 0
    htrans := .seq}}

def populateBusyItem (s : Driver aw dw) (item : Handle aw dw) : Driver aw dw :=
  let s := {s with vif := {s.vif with
    haddr := item.trx.addrs.getD (s.status item).addrIdx 0
    htrans := .busy}}
  s.setStatus item fun status => {status with busyCnt := status.busyCnt-1}

/-- `populate_complete_item`, and the turn of `run` back to waiting for an item. -/
def addrComplete (s : Driver aw dw) (item : Handle aw dw) : Driver aw dw :=
  let s := s.setStatus item fun status => {status with addrComplete := true}
  {s with addr := .wait}.populateDefaultItem

/-- The loop of `listen_OKAY` up to its next wait. -/
def addrLoop (s : Driver aw dw) (item : Handle aw dw) (firsts : List TrxRsp) (opt : Bool) : Driver aw dw :=
  if item.trx.bstLen < (s.status item).addrIdx then s.addrComplete item
  else if s.hasBusy && !opt then
    {s with addr := .listen item .busy firsts}.populateBusyItem item
  else {s with addr := .listen item .seq firsts}.populateSeqItem item

/-- `populate_error_item`, `populate_retry_item` and `populate_split_item`. -/
def populateResp (s : Driver aw dw) (item : Handle aw dw) : TrxRsp → Driver aw dw
  | .okay => s
  | .error =>
    (s.setStatus item fun status => {status with error := true}).populateDefaultItem
  | .retry =>
    (s.setStatus item fun status => {status with retry := true}).populateDefaultItem.redriveBus item
  | .split =>
    (s.setStatus item fun status => {status with split := true}).populateDefaultItem.redriveBus item

/-- The listeners of the address thread at an edge: at most one of them goes on. -/
def addrListen (s : Driver aw dw) (item : Handle aw dw) (phase : OkayPhase) (firsts : List TrxRsp)
    (opt : Bool) : Driver aw dw :=
  if ¬ s.sig.hgrant then s
  else if s.sig.hresp = .okay then
    if s.sig.hready then
      match phase with
      | .busy => s.addrLoop item firsts opt
      | .nonseq | .seq =>
        (s.setStatus item fun status => {status with addrIdx := status.addrIdx+1}).addrLoop item firsts opt
    else s
  else if s.sig.hresp ∈ firsts then
    if s.sig.hready then s.addrComplete item else s
  else if s.sig.hready then s
  else
    let s := s.populateResp item s.sig.hresp
    {s with
      addr := .listen item phase (s.sig.hresp::firsts)
      charged := s.charged ++ [(item,s.sig.hresp)]}

/-- `async_prio_get` of the address thread, and `run` up to its next wait. -/
def addrTake (s : Driver aw dw) (item : Handle aw dw) (rest : List (Handle aw dw)) : Driver aw dw :=
  let s := {s with addrbox := rest, addrPops := s.addrPops ++ [item]}
  if (s.status item).addrComplete then s
  else {s with addr := .listen item .nonseq []}.populateNonseqItem item

/-! ### The data thread -/

def populateDataItem (s : Driver aw dw) (item : Handle aw dw) : Driver aw dw :=
  let s := if item.trx.trsT = .wr then
      {s with vif := {s.vif with hwdata := item.trx.dataBeat.getD (s.status item).dataIdx default}}
    else s
  s.setStatus item fun status => {status with dataIdx := status.dataIdx+1}

/-- `populate_complete_item`, and the turn of `run` back to waiting for an item. -/
def dataComplete (s : Driver aw dw) (item : Handle aw dw) : Driver aw dw :=
  let s := s.setStatus item fun status => {status with dataComplete := true}
  {s with data := .wait}

/-- The loop of `listen_OKAY` up to its next wait. -/
def dataLoop (s : Driver aw dw) (item : Handle aw dw) (firsts : List TrxRsp) : Driver aw dw :=
  if item.trx.bstLen < (s.status item).dataIdx then s.dataComplete item
  else {s with data := .listen item firsts}

/-- The listeners of the data thread at an edge; `listen_OKAY` does not look at `hgrant`. -/
def dataListen (s : Driver aw dw) (item : Handle aw dw) (firsts : List TrxRsp) : Driver aw dw :=
  if s.sig.hresp = .okay then
    if s.sig.hready then
      if (s.status item).dataIdx < (s.status item).addrIdx then
        (s.populateDataItem item).dataLoop item firsts
      else s.dataLoop item firsts
    else s
  else if ¬ s.sig.hgrant then s
  else if s.sig.hresp ∈ firsts then
    if s.sig.hready then
      {s.dataComplete item with closed := s.closed ++ [(item,s.sig.hresp)]}
    else s
  else if s.sig.hready then s
  else {s with data := .listen item (s.sig.hresp::firsts)}

/-- `run` after its `SMTDV_SWAP`. -/
def dataLook (s : Driver aw dw) (item : Handle aw dw) : Driver aw dw :=
  let status := s.status item
  if status.dataComplete ∨ status.retry ∨ status.split ∨ status.error then {s with data := .wait}
  else s.dataLoop item []

/-! ### Steps -/

/-- Nothing is left to run in the time step, so time may advance to the next edge. -/
def Settled (s : Driver aw dw) : Prop :=
  s.addrArmed = false ∧ s.dataArmed = false ∧ s.forks = [] ∧
    (match s.addr with | .wait => s.addrbox = [] | .listen _ _ _ => True) ∧
    (match s.data with | .wait => s.databox = [] | .swap _ => False | .listen _ _ => True)

instance (s : Driver aw dw) : Decidable s.Settled :=
  have : Decidable (match s.addr with | .wait => s.addrbox = [] | .listen _ _ _ => True) := by
    cases s.addr <;> infer_instance
  have : Decidable (match s.data with | .wait => s.databox = [] | .swap _ => False | .listen _ _ => True) := by
    cases s.data <;> infer_instance
  have : Decidable (s.forks = []) := decidable_of_iff (s.forks.isEmpty = true) List.isEmpty_iff
  inferInstanceAs (Decidable (_ ∧ _ ∧ _ ∧ _ ∧ _))

/-- The beat whose address phase is on the bus. -/
def presented (s : Driver aw dw) : Option (Handle aw dw × Nat) :=
  match s.vif.htrans,s.addr with
  | .nonseq,.listen item _ _ => some (item,(s.status item).addrIdx)
  | .seq,.listen item _ _ => some (item,(s.status item).addrIdx)
  | _,_ => none

def step (s : Driver aw dw) : Action aw dw → Driver aw dw
  | .posedge sig =>
    if s.Settled then
      {s with
        sig := sig
        addrArmed := match s.addr with | .listen _ _ _ => true | .wait => false
        dataArmed := match s.data with | .listen _ _ => true | _ => false
        cycles := s.cycles ++ [⟨s.vif,sig,s.presented⟩]}
    else s
  | .addrEdge opt =>
    match s.addrArmed,s.addr with
    | true,.listen item phase firsts => {s with addrArmed := false}.addrListen item phase firsts opt
    | _,_ => s
  | .dataEdge =>
    match s.dataArmed,s.data with
    | true,.listen item firsts => {s with dataArmed := false}.dataListen item firsts
    | _,_ => s
  | .driveBus req => s.driveBus req
  | .pushAddr k =>
    match s.forks[k]? with
    | some fork =>
      if fork.toAddr then
        {s with
          addrbox := push s.addrbox fork.item fork.front
          forks := pushed s.forks k fun fork => {fork with toAddr := false}}
      else s
    | none => s
  | .pushData k =>
    match s.forks[k]? with
    | some fork =>
      if fork.toData then
        {s with
          databox := push s.databox fork.item fork.front
          forks := pushed s.forks k fun fork => {fork with toData := false}}
      else s
    | none => s
  | .addrGet =>
    match s.addr,prioSort s.addrbox with
    | .wait,item::rest => s.addrTake item rest
    | _,_ => s
  | .dataGet =>
    match s.data,prioSort s.databox with
    | .wait,item::rest => {s with databox := rest, dataPops := s.dataPops ++ [item], data := .swap item}
    | _,_ => s
  | .dataSwap =>
    match s.data with
    | .swap item => s.dataLook item
    | _ => s

def after (hasBusy : Bool) (actions : List (Action aw dw)) : Driver aw dw :=
  Machine.run step (.initial hasBusy) actions

end Driver

end Smtdv.Ahb
