import Smtdv.Ahb.SlaveSeq

/-! The processes of the slave sequence: the loop that takes the items the monitor asserts, the
writes it forks, and the time between them. A step is what one process does without a delay,
in any order, and time goes on when no process can. -/
namespace Smtdv.Ahb
open Lib

variable {aw dw : Nat}

/-- Where `rcv_from_mon` is: before `get`, blocked in it, in the delay of a read, or past it. -/
inductive RcvPc
  | get | blocked | swap | lock
  deriving DecidableEq

structure SlaveRun (aw dw : Nat) where
  /- the items asserted, the number of them that are complete, and the time since the last -/
  items : List (SlaveItem aw dw) := []
  completed : Nat := 0
  age : Nat := 0
  /- the number of items taken by `get`, and the last of them, which is `mitem` -/
  fetched : Nat := 0
  mitem : Nat := 0
  rcv : RcvPc := .get
  /- processes forked since the loop last blocked, those that may start, and those that have -/
  forked : Nat := 0
  ready : Nat := 0
  writers : List Nat := []
  mem : Memory aw := {}
  /- the bytes loaded for each read -/
  loads : List (Nat × List (List (BitVec 8))) := []

inductive SlaveAction (aw dw : Nat)
  | assert (c : Sample aw dw) (bgCyc : Nat)
  | complete (addrs : List (BitVec aw)) (dataBeat : List (Beat dw))
  | get
  | start
  | load
  | store (w : Nat)
  | tick

namespace SlaveRun

def item (s : SlaveRun aw dw) (r : Nat) : SlaveItem aw dw := s.items[r]?.getD default

/-- `item_asserted_port.write`. -/
def assert (s : SlaveRun aw dw) (c : Sample aw dw) (bgCyc : Nat) : SlaveRun aw dw :=
  {s with items := s.items ++ [{CollItem.populateNonseqItem c with bgCyc := bgCyc}], age := 0}

/-- The last data beat of the first item that is not complete. -/
def complete (s : SlaveRun aw dw) (addrs : List (BitVec aw)) (dataBeat : List (Beat dw)) :
    SlaveRun aw dw :=
  {s with
    items := s.items.modify s.completed fun item =>
      {item with
        addrs := addrs, dataBeat := dataBeat, rsp := some .okay, success := true
        addrComplete := true, dataComplete := true}
    completed := s.completed+1}

/-- A blocked process lets those it has forked start. -/
def block (s : SlaveRun aw dw) (rcv : RcvPc) : SlaveRun aw dw :=
  {s with rcv := rcv, ready := s.ready+s.forked, forked := 0}

/-- A turn of the loop of `rcv_from_mon`, up to the delay of a read. -/
def get (s : SlaveRun aw dw) : SlaveRun aw dw :=
  if s.rcv = .get ∨ s.rcv = .blocked then
    match s.items[s.fetched]? with
    | none => s.block .blocked
    | some item =>
      let s := {s with fetched := s.fetched+1, mitem := s.fetched}
      match item.trsT with
      | .rd => s.block .swap
      | .wr => {s with rcv := .get, forked := s.forked+1}
      | .rdwr => s
  else s

/-- A forked `do_write_item(mitem)` starts, and waits for the item. -/
def start (s : SlaveRun aw dw) : SlaveRun aw dw :=
  if 0 < s.ready then {s with ready := s.ready-1, writers := s.writers ++ [s.mitem]} else s

/-- `mid_do_read_item` after its delay. -/
def load (s : SlaveRun aw dw) : SlaveRun aw dw :=
  if s.rcv = .lock ∧ s.mem.hasLock = false then
    let loaded := midDoReadItem s.mem (s.item s.mitem)
    {s with rcv := .get, mem := loaded.1, loads := s.loads ++ [(s.mitem,loaded.2)]}
  else s

/-- The item a write waits for is complete. -/
def ended (s : SlaveRun aw dw) (w : Nat) : Bool := (s.item w).addrComplete && (s.item w).dataComplete

/-- `mid_do_write_item` after its waits. -/
def store (s : SlaveRun aw dw) (w : Nat) : SlaveRun aw dw :=
  if w ∈ s.writers ∧ s.ended w ∧ s.mem.hasLock = false then
    {s with writers := s.writers.erase w, mem := midDoWriteItem s.mem (s.item w)}
  else s

/-- No process can go on before time does. -/
def Quiet (s : SlaveRun aw dw) : Prop :=
  s.ready = 0 ∧
    (s.rcv = .swap ∨ s.rcv = .blocked ∧ s.items.length ≤ s.fetched ∨
      s.rcv = .lock ∧ s.mem.hasLock = true) ∧
    ∀ w ∈ s.writers, s.ended w = false ∨ s.mem.hasLock = true

instance (s : SlaveRun aw dw) : Decidable s.Quiet := inferInstanceAs (Decidable (_ ∧ _ ∧ _))

def tick (s : SlaveRun aw dw) : SlaveRun aw dw :=
  if s.Quiet then {s with age := s.age+1, rcv := if s.rcv = .swap then .lock else s.rcv} else s

def step (s : SlaveRun aw dw) : SlaveAction aw dw → SlaveRun aw dw
  | .assert c bgCyc => s.assert c bgCyc
  | .complete addrs dataBeat => s.complete addrs dataBeat
  | .get => s.get
  | .start => s.start
  | .load => s.load
  | .store w => s.store w
  | .tick => s.tick

def after (actions : List (SlaveAction aw dw)) : SlaveRun aw dw := Machine.run step {} actions

/-- A burst of a fixed length, as the monitor finds it in its first address phase. -/
def LegalItem (c : Sample aw dw) : Prop :=
  c.hburst ≠ .incr ∧
    LegalBurst c.haddr c.hsize.ctorIdx (getBstLen c.hburst ([] : List (BitVec aw))) c.hburst

instance (c : Sample aw dw) : Decidable (LegalItem c) := inferInstanceAs (Decidable (_ ∧ _))

/-- The bus: an item is asserted when its predecessors are complete, or the last of them becomes
so in the same instant; it is complete at some later time than it is asserted. -/
def Timed (s : SlaveRun aw dw) : SlaveAction aw dw → Prop
  | .assert c _ => LegalItem c ∧
    (s.completed = s.items.length ∨ s.completed+1 = s.items.length ∧ 0 < s.age)
  | .complete _ _ => s.completed < s.items.length ∧ (s.completed+1 = s.items.length → 0 < s.age)
  | .tick => s.items.length ≤ s.completed+1
  | _ => True

instance (s : SlaveRun aw dw) (a : SlaveAction aw dw) : Decidable (s.Timed a) :=
  match a with
  | .assert _ _ => inferInstanceAs (Decidable (_ ∧ _))
  | .complete _ _ => inferInstanceAs (Decidable (_ ∧ _))
  | .tick => inferInstanceAs (Decidable (_ ≤ _))
  | .get | .start | .load | .store _ => inferInstanceAs (Decidable True)

/-- No read wraps in the block at the top of the address space. -/
def Spared (_ : SlaveRun aw dw) : SlaveAction aw dw → Prop
  | .assert c _ => c.hwrite = false →
    ¬WrapsAtTop c.haddr c.hsize.ctorIdx (getBstLen c.hburst ([] : List (BitVec aw))) c.hburst
  | _ => True

instance (s : SlaveRun aw dw) (a : SlaveAction aw dw) : Decidable (s.Spared a) :=
  match a with
  | .assert _ _ => inferInstanceAs (Decidable (_ → _))
  | .complete _ _ | .tick | .get | .start | .load | .store _ => inferInstanceAs (Decidable True)

/-- The stores of the writes among the items, oldest first. -/
def writesOf (items : List (SlaveItem aw dw)) : Memory.Writes aw :=
  items.flatMap fun item => if item.trsT = .wr then item.writes else []

/-- For each beat of a read, the latest of these stores that covers each byte. -/
def expected (item : SlaveItem aw dw) (writes : Memory.Writes aw) : List (List (BitVec 8)) :=
  (burstAddrs item.addr item.trxSize.ctorIdx item.bstLen item.bstType).map fun addr =>
    (List.range (dw/8)).map fun j => (Memory.latest writes (addr+BitVec.ofNat aw j)).getD 0

/-- The items that the loop is done with. -/
def served (s : SlaveRun aw dw) : Nat := if s.rcv = .swap ∨ s.rcv = .lock then s.fetched-1 else s.fetched

/-- Each read is served once, with the latest bytes of the writes before it, and no assertion
of the lock has failed. -/
structure ReadsLatest (s : SlaveRun aw dw) : Prop where
  once : s.loads.map Prod.fst = (List.range s.served).filter fun r => (s.item r).trsT = .rd
  latest : ∀ load ∈ s.loads, load.2 = expected (s.item load.1) (writesOf (s.items.take load.1))
  locks : s.mem.failed = false

end SlaveRun

end Smtdv.Ahb
