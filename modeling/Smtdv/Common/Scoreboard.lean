import Smtdv.Lib.Heap
import Smtdv.Lib.Machine
import Smtdv.Common.Hash
import Smtdv.Common.SequenceItem

/-! `smtdv_scoreboard`: the address pools of atomic items and the two analysis exports.
Every monitored item is a new object, so a call allocates a new burst cell; the
atomic items of a burst reach its counter through the handle `parent`. -/
namespace Smtdv
open Lib

variable {aw dw : Nat}

/-- A monitored item together with the counter the scoreboard keeps in it. -/
structure Burst (aw dw : Nat) where
  item : SequenceItem aw dw
  checkNumOnScb : Nat := 0
  deriving Inhabited, DecidableEq

def Burst.hasCheckOnScbAll (burst : Burst aw dw) : Bool :=
  burst.checkNumOnScb == burst.item.addrs.length

/-- An item made by `_create_atomic_item`, with the flag the scoreboard keeps in it. -/
structure Atomic (aw dw : Nat) where
  item : SequenceItem aw dw
  parent : Nat
  hasCheckOnScb : Bool := false
  deriving Inhabited, DecidableEq

/-- What a run of the scoreboard reports: the `PUT`/`POP` messages with the place in
the address's queue they concern, and `uvm_error` and `uvm_warning` reports. -/
inductive Event (aw dw : Nat)
  | put (dir : TrsType) (addr : BitVec aw) (pos : Nat) (aitem : Atomic aw dw)
  | pop (dir : TrsType) (addr : BitVec aw) (pos : Nat) (it aitem : Atomic aw dw)
  | error (id : String) (addr : BitVec aw) (it aitem : Atomic aw dw)
  | warning (addr : BitVec aw)
  deriving DecidableEq

abbrev Pool (aw dw : Nat) := Hash (BitVec aw) (List (Atomic aw dw))

/-- `nocheck_scb_get`, which returns the place of the item it finds. -/
def nocheckScbGet (bursts : Heap (Burst aw dw)) (queue : List (Atomic aw dw)) : Option Nat :=
  queue.findIdx? fun bitem => !bitem.hasCheckOnScb || !(bursts.get bitem.parent).hasCheckOnScbAll

/-- `_create_atomic_item`. The fields that `SMTDV_RAND` fills and the scoreboard never
reads keep their defaults. -/
def createAtomicItem (item : SequenceItem aw dw) (i parent : Nat) : Atomic aw dw where
  item := {
    trsT := item.trsT
    addrs := [item.addrs.getD i 0]
    dataBeat := [item.dataBeat.getD i default]
    bytenBeat := if item.bytenBeat.length > 0 then [item.bytenBeat.getD i default] else []
    rsp := item.rsp }
  parent := parent

structure Scoreboard (aw dw : Nat) where
  bursts : Heap (Burst aw dw)
  wrPool : Pool aw dw
  rdPool : Pool aw dw
  rbox : List Nat
  wbox : List Nat
  log : List (Event aw dw)

/-- The scoreboard after `build_phase`. -/
def Scoreboard.initial : Scoreboard aw dw :=
  ⟨.empty,.empty,.empty,[],[],[]⟩

/-- Putting an atomic item into the waiting queue of its address. -/
def putAtomic (dir : TrsType) (pool : Pool aw dw) (addr : BitVec aw) (aitem : Atomic aw dw) :
    Pool aw dw × List (Event aw dw) :=
  let pool := if (pool.get addr).isSome then pool else pool.set addr []
  (pool.update addr (· ++ [aitem]),[.put dir addr ((pool.get addr).getD []).length aitem])

/-- Marking the item at a place of a queue as compared. -/
def markChecked (queue : List (Atomic aw dw)) (pos : Nat) : List (Atomic aw dw) :=
  queue.modify pos fun it => {it with hasCheckOnScb := true}

/-- Comparing an atomic item with the one that waits for its address: the bursts,
the pool and the reports that result. -/
def checkAtomic (dir : TrsType) (id : String) (bursts : Heap (Burst aw dw)) (pool : Pool aw dw)
    (addr : BitVec aw) (aitem : Atomic aw dw) :
    Heap (Burst aw dw) × Pool aw dw × List (Event aw dw) :=
  match pool.get addr with
  | none => (bursts,pool,pool.keys.map .warning)
  | some queue =>
    match nocheckScbGet bursts queue with
    | none => (bursts,pool,[])
    | some pos =>
      let it := queue.getD pos default
      (bursts.modify it.parent fun burst => {burst with checkNumOnScb := burst.checkNumOnScb+1},
        pool.update addr (markChecked · pos),
        (if it.item.compare aitem.item then [] else [.error id addr it aitem]) ++
          [.pop dir addr pos it aitem])

namespace Scoreboard

def doInitorWrCheck (scb : Scoreboard aw dw) (item : SequenceItem aw dw) (i : Nat)
    (aitem : Atomic aw dw) : Scoreboard aw dw :=
  let r := putAtomic .wr scb.wrPool (item.addrs.getD i 0) aitem
  {scb with wrPool := r.1, log := scb.log ++ r.2}

def doInitorRdCheck (scb : Scoreboard aw dw) (item : SequenceItem aw dw) (i : Nat)
    (aitem : Atomic aw dw) : Scoreboard aw dw :=
  let r := checkAtomic .rd "SMTDV_SCB_RD_COMP" scb.bursts scb.rdPool (item.addrs.getD i 0) aitem
  {scb with bursts := r.1, rdPool := r.2.1, log := scb.log ++ r.2.2}

def doTargetRdCheck (scb : Scoreboard aw dw) (item : SequenceItem aw dw) (i : Nat)
    (aitem : Atomic aw dw) : Scoreboard aw dw :=
  let r := putAtomic .rd scb.rdPool (item.addrs.getD i 0) aitem
  {scb with rdPool := r.1, log := scb.log ++ r.2}

def doTargetWrCheck (scb : Scoreboard aw dw) (item : SequenceItem aw dw) (i : Nat)
    (aitem : Atomic aw dw) : Scoreboard aw dw :=
  let r := checkAtomic .wr "SMTDV_SCB_WR_COMP" scb.bursts scb.wrPool (item.addrs.getD i 0) aitem
  {scb with bursts := r.1, wrPool := r.2.1, log := scb.log ++ r.2.2}

/-- The body of the loop of `_write_initor`. -/
def initorBeat (scb : Scoreboard aw dw) (item : SequenceItem aw dw) (self i : Nat) :
    Scoreboard aw dw :=
  let aitem := createAtomicItem item i self
  match item.trsT with
  | .wr => scb.doInitorWrCheck item i aitem
  | .rd => scb.doInitorRdCheck item i aitem
  | .rdwr => scb

/-- The body of the loop of `_write_target`. -/
def targetBeat (scb : Scoreboard aw dw) (item : SequenceItem aw dw) (self i : Nat) :
    Scoreboard aw dw :=
  let aitem := createAtomicItem item i self
  match item.trsT with
  | .wr => scb.doTargetWrCheck item i aitem
  | .rd => scb.doTargetRdCheck item i aitem
  | .rdwr => scb

/-- The object of a monitored item, created before the call that delivers it. -/
def create (scb : Scoreboard aw dw) (item : SequenceItem aw dw) : Scoreboard aw dw :=
  {scb with bursts := scb.bursts.alloc {item := item}}

/-- `write_initor`: slicing into atomic items, then the back-door box of reads. -/
def writeInitor (scb : Scoreboard aw dw) (item : SequenceItem aw dw) : Scoreboard aw dw :=
  let self := scb.bursts.next
  let scb := (List.range item.addrs.length).foldl (fun scb i => scb.initorBeat item self i) (scb.create item)
  if item.success ∧ item.trsT = .rd then {scb with rbox := scb.rbox ++ [self]} else scb

/-- `write_target`: slicing into atomic items, then the back-door box of writes. -/
def writeTarget (scb : Scoreboard aw dw) (item : SequenceItem aw dw) : Scoreboard aw dw :=
  let self := scb.bursts.next
  let scb := (List.range item.addrs.length).foldl (fun scb i => scb.targetBeat item self i) (scb.create item)
  if item.success ∧ item.trsT = .wr then {scb with wbox := scb.wbox ++ [self]} else scb

end Scoreboard

/-- One call of an analysis export, by any of the initiators or targets bound to it. -/
inductive Call (aw dw : Nat)
  | writeInitor (item : SequenceItem aw dw)
  | writeTarget (item : SequenceItem aw dw)
  deriving DecidableEq

def Call.item : Call aw dw → SequenceItem aw dw
  | .writeInitor item => item
  | .writeTarget item => item

def Scoreboard.call (scb : Scoreboard aw dw) : Call aw dw → Scoreboard aw dw
  | .writeInitor item => scb.writeInitor item
  | .writeTarget item => scb.writeTarget item

/-- A scoreboard that has served a sequence of calls. -/
def Scoreboard.after (calls : List (Call aw dw)) : Scoreboard aw dw :=
  Lib.Machine.run Scoreboard.call .initial calls

end Smtdv
