import Mathlib.Data.List.Sort
import Smtdv.Common.SequenceItem

/-! `smtdv_backdoor`: the contents of a memory read back from its table, and the thread
that compares the reads seen at the initiators with them. -/
namespace Smtdv

variable {aw dw : Nat}

/-- A row of a memory table: one byte stored or loaded. -/
structure MemRow where
  decAddr : Nat
  decRw : TrsType
  decData : BitVec 8
  decEdCyc : Nat
  deriving DecidableEq

/-- The rows of the query `LAST_WR_TRX` for beat `addr_idx`: the latest writes into the
`offset` bytes from its address, rows of one cycle in table order. Sums of addresses wrap
as 32-bit expressions do. -/
def lastWrTrx (table : List MemRow) (item : SequenceItem aw dw) : List MemRow :=
  let first := (item.addrs.getD item.addrIdx 0).toNat
  let stop := (first+item.offset) % 2^(max aw 32)
  let rows := table.filter fun row => row.decRw = .wr ∧ first ≤ row.decAddr ∧ row.decAddr < stop
  (rows.insertionSort fun a b => b.decEdCyc ≤ a.decEdCyc).take item.offset

namespace Backdoor

/-- `purge_item`: unknown bits read as zero in a two-state field. -/
def purgeItem (item : SequenceItem aw dw) : SequenceItem aw dw :=
  {item with dataBeat := item.dataBeat.map fun _ _ => 0}

/-- `populate_item` for the data column of row `r`. -/
def populateItem (item : SequenceItem aw dw) (r : Nat) (data : BitVec 8) : SequenceItem aw dw :=
  {item with dataBeat := item.dataBeat.modify item.dataIdx fun beat i =>
    if i.val = r then beat i ||| data else beat i}

def convert2Item (rows : List MemRow) (item : SequenceItem aw dw) : SequenceItem aw dw :=
  rows.zipIdx.foldl (fun item row => populateItem item row.2 row.1.decData) item

def postItem (table : List MemRow) (item : SequenceItem aw dw) : SequenceItem aw dw :=
  (List.range item.addrs.length).foldl (fun item i =>
    let item := {item with addrIdx := i, dataIdx := i}
    convert2Item (lastWrTrx table item) item) item

/-- The item rebuilt from the table, `ritem` in `compare`. -/
def rebuilt (table : List MemRow) (item : SequenceItem aw dw) : SequenceItem aw dw :=
  postItem table (purgeItem item)

def compare (table : List MemRow) (item : SequenceItem aw dw) : Bool :=
  item.compare (rebuilt table item)

end Backdoor

/-- An entry of `map_cfgs`. -/
structure MapCfg where
  id : Nat
  startAddr : Nat
  endAddr : Nat
  deriving DecidableEq

/-- `find_slave`, with `none` for `-1`. -/
def findSlave (mapCfgs : List MapCfg) (addr : Nat) : Option Nat :=
  match mapCfgs.filter fun cfg => cfg.startAddr ≤ addr ∧ addr < cfg.endAddr with
  | [cfg] => some cfg.id
  | _ => none

/-- What the thread works with: the randomized number of attempts, the address map of the
first initiator, and the table of a slave as it is at attempt `k` for the `j`-th item. -/
structure BkdorRd where
  timeout : Int
  c_timeout : 2 ≤ timeout ∧ timeout ≤ 5
  mapCfgs : List MapCfg
  table : (j k sid : Nat) → List MemRow

inductive BkdorReport
  | noTimeout | noCfg (j : Nat) | cmp (j : Nat)
  deriving DecidableEq

namespace BkdorRd

/-- The loop over the attempts from the `k`-th on, `left` of them. -/
def matched (bk : BkdorRd) (j sid : Nat) (item : SequenceItem aw dw) : (left k : Nat) → Bool
  | 0, _ => false
  | left+1, k => Backdoor.compare (bk.table j k sid) item || bk.matched j sid item left (k+1)

/-- The iterations for the items popped from `rbox`; a fatal report ends the simulation. -/
def loop (bk : BkdorRd) (j : Nat) : List (SequenceItem aw dw) → List BkdorReport
  | [] => []
  | item::rest =>
    match findSlave bk.mapCfgs (item.addr.toNat % 2^32) with
    | none => [.noCfg j]
    | some sid =>
      (if bk.matched j sid item bk.timeout.toNat 0 then [] else [.cmp j]) ++ bk.loop (j+1) rest

/-- `smtdv_mem_bkdor_rd_comp::run`. -/
def run (bk : BkdorRd) (items : List (SequenceItem aw dw)) : List BkdorReport :=
  if bk.timeout < 0 then [.noTimeout] else bk.loop 0 items

end BkdorRd

namespace Backdoor

theorem convert2Item_kept {β : Type*} (field : SequenceItem aw dw → β)
    (kept : ∀ (item : SequenceItem aw dw) beats, field {item with dataBeat := beats} = field item)
    (rows : List MemRow) (item : SequenceItem aw dw) : field (convert2Item rows item) = field item := by
  unfold convert2Item
  induction rows.zipIdx generalizing item with
  | nil => rfl
  | cons row rest ih => exact (ih _).trans (kept _ _)

theorem rebuilt_kept {β : Type*} (field : SequenceItem aw dw → β)
    (kept : ∀ (item : SequenceItem aw dw) beats i k,
      field {item with dataBeat := beats, addrIdx := i, dataIdx := k} = field item)
    (table : List MemRow) (item : SequenceItem aw dw) : field (rebuilt table item) = field item := by
  have data (item : SequenceItem aw dw) (beats : List (Beat dw)) :
      field {item with dataBeat := beats} = field item := kept item beats item.addrIdx item.dataIdx
  have turn (item : SequenceItem aw dw) (i : Nat) :
      field {item with addrIdx := i, dataIdx := i} = field item := kept item item.dataBeat i i
  have posted (indices : List Nat) (item : SequenceItem aw dw) :
      field (indices.foldl (fun item i =>
        let item := {item with addrIdx := i, dataIdx := i}
        convert2Item (lastWrTrx table item) item) item) = field item := by
    induction indices generalizing item with
    | nil => rfl
    | cons i rest ih => exact (ih _).trans ((convert2Item_kept field data _ _).trans (turn item i))
  exact (posted _ _).trans (data item _)

/-- A read agrees with whatever the table holds. -/
theorem compare_rd (table : List MemRow) (item : SequenceItem aw dw) (read : item.trsT = .rd) :
    compare table item = true := by
  have kind := rebuilt_kept SequenceItem.trsT (fun _ _ _ _ => rfl) table item
  have addrs := rebuilt_kept SequenceItem.addrs (fun _ _ _ _ => rfl) table item
  have initorid := rebuilt_kept SequenceItem.initorid (fun _ _ _ _ => rfl) table item
  have targetid := rebuilt_kept SequenceItem.targetid (fun _ _ _ _ => rfl) table item
  exact SequenceItem.compare_rd _ _ read (kind.trans read) addrs.symm
    ⟨.inr (.inr initorid.symm),.inr (.inr targetid.symm)⟩

end Backdoor

/-- The thread reports no item that is a read. -/
theorem BkdorRd.run_rd (bk : BkdorRd) (items : List (SequenceItem aw dw))
    (reads : ∀ item ∈ items, item.trsT = .rd) (j : Nat) : .cmp j ∉ bk.run items := by
  have first (i sid : Nat) (item : SequenceItem aw dw) (read : item.trsT = .rd) :
      bk.matched i sid item bk.timeout.toNat 0 = true := by
    obtain ⟨left,enough⟩ : ∃ left, bk.timeout.toNat = left+1 := ⟨bk.timeout.toNat-1,by have := bk.c_timeout; omega⟩
    rw [enough,matched,Backdoor.compare_rd _ item read,Bool.true_or]
  have loop (items : List (SequenceItem aw dw)) (reads : ∀ item ∈ items, item.trsT = .rd) (i : Nat) :
      .cmp j ∉ bk.loop i items := by
    induction items generalizing i with
    | nil => simp [BkdorRd.loop]
    | cons item rest ih =>
      obtain ⟨read,reads⟩ := List.forall_mem_cons.mp reads
      rw [BkdorRd.loop]
      split
      · simp
      · rw [first i _ item read]
        simpa using ih reads (i+1)
  unfold run
  split
  · simp
  · exact loop items reads 0

end Smtdv
