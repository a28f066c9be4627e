import Smtdv.Ahb.PostAddr
import Smtdv.Common.Memory

/-! `ahb_slave_base_seq`: what its sequence does to the memory for an item of the monitor, once
it is past its waits. -/
namespace Smtdv.Ahb

variable {aw dw : Nat}

/-- An item of the slave monitor, with the cycle it began in. -/
structure SlaveItem (aw dw : Nat) extends CollItem aw dw where
  bgCyc : Nat := 0
  deriving DecidableEq, Inhabited

/-- `mid_do_read_item` after its delay, with the bytes loaded for each beat. -/
def midDoReadItem (m : Memory aw) (item : SlaveItem aw dw) : Memory aw × List (List (BitVec 8)) :=
  let addrs := postAddr dw item.addr item.trxSize.ctorIdx item.bstLen item.bstType
  let loaded := addrs.foldl (fun loaded addr =>
    let next := loaded.1.memLoadByte addr (dw >>> 3)
    (next.1,loaded.2 ++ [next.2])) (m.lock,[])
  (loaded.1.unlock,loaded.2)

/-- `mid_do_write_item` after the item is complete. -/
def midDoWriteItem (m : Memory aw) (item : SlaveItem aw dw) : Memory aw :=
  if item.success then
    let m := item.addrs.zipIdx.foldl (fun m addr =>
      m.memStoreByte addr.1 (List.ofFn (item.dataBeat.getD addr.2 default)) item.bgCyc) m.lock
    m.unlock
  else m

/-- The data beats of a write, each with the address it goes to. -/
def SlaveItem.writes (item : SlaveItem aw dw) : Memory.Writes aw :=
  item.addrs.zipIdx.map fun addr => (addr.1,List.ofFn (item.dataBeat.getD addr.2 default))

/-- A write stores its beats, and takes and gives back a free lock. -/
theorem midDoWriteItem_eq (m : Memory aw) (item : SlaveItem aw dw) (success : item.success = true)
    (free : m.hasLock = false) :
    (∀ other, (midDoWriteItem m item).contents other =
      (Memory.latest item.writes other).getD (m.contents other)) ∧
    (midDoWriteItem m item).hasLock = false ∧ (midDoWriteItem m item).failed = m.failed := by
  have stores : item.addrs.zipIdx.foldl (fun m addr => m.memStoreByte addr.1
      (List.ofFn (item.dataBeat.getD addr.2 default)) item.bgCyc) m.lock =
      item.writes.foldl (fun m write => m.memStoreByte write.1 write.2 item.bgCyc) m.lock := by
    rw [SlaveItem.writes,List.foldl_map]
  obtain ⟨lock,failed⟩ := Memory.writes_lock item.writes m.lock item.bgCyc
  rw [midDoWriteItem,if_pos success]
  simp only [stores]
  refine ⟨?_,rfl,?_⟩
  · intro other
    exact Memory.contents_writes item.writes m.lock item.bgCyc other
  · simp only [Memory.unlock,lock,failed]
    simp [Memory.lock,free]

/-- A read loads the contents at the addresses of `post_addr`. -/
theorem midDoReadItem_eq (m : Memory aw) (item : SlaveItem aw dw) (free : m.hasLock = false) :
    (midDoReadItem m item).2 =
      (postAddr dw item.addr item.trxSize.ctorIdx item.bstLen item.bstType).map (fun addr =>
        (List.range (dw/8)).map fun j => m.contents (addr + BitVec.ofNat aw j)) ∧
    (midDoReadItem m item).1.contents = m.contents ∧
    (midDoReadItem m item).1.hasLock = false ∧ (midDoReadItem m item).1.failed = m.failed := by
  have loads (addrs : List (BitVec aw)) :
      let loaded := addrs.foldl (fun loaded addr =>
        let next := loaded.1.memLoadByte addr (dw >>> 3)
        (next.1,loaded.2 ++ [next.2])) (m.lock,[])
      loaded.2 = addrs.map (fun addr =>
        (List.range (dw/8)).map fun j => m.contents (addr + BitVec.ofNat aw j)) ∧
      loaded.1.contents = m.contents ∧ loaded.1.hasLock = true ∧ loaded.1.failed = m.lock.failed := by
    induction addrs using List.reverseRecOn with
    | nil => exact ⟨rfl,rfl,rfl,rfl⟩
    | append_singleton addrs addr ih =>
      rw [List.foldl_append,List.foldl_cons,List.foldl_nil]
      obtain ⟨bytes,kept,lock,failed⟩ := ih
      generalize addrs.foldl _ (m.lock,([] : List (List (BitVec 8)))) = before at bytes kept lock failed ⊢
      obtain ⟨bytes',kept',lock',failed'⟩ := before.1.memLoadByte_eq addr (dw >>> 3)
      refine ⟨?_,kept'.trans kept,lock'.trans lock,failed'.trans failed⟩
      change before.2 ++ [(before.1.memLoadByte addr (dw >>> 3)).2] = _
      have width : dw >>> 3 = dw/8 := Nat.shiftRight_eq_div_pow dw 3
      rw [bytes,bytes',kept,width,List.map_append]
      rfl
  obtain ⟨bytes,kept,lock,failed⟩ :=
    loads (postAddr dw item.addr item.trxSize.ctorIdx item.bstLen item.bstType)
  refine ⟨bytes,kept,rfl,?_⟩
  simp only [midDoReadItem,Memory.unlock,lock,failed]
  simp [Memory.lock,free]

end Smtdv.Ahb
