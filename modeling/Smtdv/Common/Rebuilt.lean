import Mathlib.Data.List.Induction
import Smtdv.Common.Memory
import Smtdv.Lib.Ranking

/-! What the back-door rebuilds from the table of a memory, compared with what the memory
holds. -/
namespace Smtdv

variable {aw dw : Nat}

/-- Stores of single bytes, oldest first: the address and the cycle of each. -/
abbrev Stores (aw : Nat) := List (BitVec aw × Nat)

namespace Stores

/-- The memory after the stores, the `k`-th one of byte `data k`. -/
def stored (stores : Stores aw) (data : Nat → BitVec 8) : Memory aw :=
  stores.zipIdx.foldl (fun m store => m.storeByte store.1.1 (data store.2) store.1.2) {}

/-- The most recent store to an address. -/
def newest (stores : Stores aw) (addr : BitVec aw) : Option Nat :=
  stores.zipIdx.foldl (fun found store => if store.1.1 = addr then some store.2 else found) none

def addrAt (stores : Stores aw) (k : Nat) : BitVec aw := (stores.getD k (0,0)).1

def cycAt (stores : Stores aw) (k : Nat) : Nat := (stores.getD k (0,0)).2

/-- The order of the rows in the answer to the query: later cycles first. -/
def Before (stores : Stores aw) (k l : Nat) : Prop :=
  stores.cycAt l < stores.cycAt k ∨ stores.cycAt k = stores.cycAt l ∧ k < l

/-- The query for this beat address looks at the row. -/
def InWindow (stores : Stores aw) (offset : Nat) (addr : BitVec aw) (k : Nat) : Prop :=
  k < stores.length ∧ addr.toNat ≤ (stores.addrAt k).toNat ∧
    (stores.addrAt k).toNat < (addr.toNat+offset) % 2^(max aw 32)

/-- The most recent stores to the lanes of a beat come first in the answer, lane by lane. -/
structure InOrder (stores : Stores aw) (offset lanes : Nat) (addr : BitVec aw) : Prop where
  inside : ∀ j < lanes, ∀ k ∈ stores.newest (addr + BitVec.ofNat aw j),
    j < offset ∧ stores.InWindow offset addr k
  ahead : ∀ i j, i < j → j < lanes → ∀ l ∈ stores.newest (addr + BitVec.ofNat aw j),
    ∃ k ∈ stores.newest (addr + BitVec.ofNat aw i), stores.Before k l
  rest : ∀ l, stores.InWindow offset addr l →
    (∀ j < lanes, stores.newest (addr + BitVec.ofNat aw j) ≠ some l) →
    ∀ j < lanes, j < offset → ∃ k ∈ stores.newest (addr + BitVec.ofNat aw j), stores.Before k l

end Stores

/-- The beats that the memory holds at these addresses. -/
def Memory.current (m : Memory aw) (addrs : List (BitVec aw)) : List (Beat dw) :=
  addrs.map fun addr j => m.contents (addr + BitVec.ofNat aw j.val)

/-- Whatever the bytes stored and the data of the item, the rebuilt lanes below `offset` are
the contents, and a write agrees with the table exactly when it agrees with the memory. -/
def Reconstructs (stores : Stores aw) (item : SequenceItem aw dw) : Prop :=
  ∀ (data : Nat → BitVec 8) (beats : List (Beat dw)), beats.length = item.addrs.length →
    let m := stores.stored data
    let item := {item with dataBeat := beats}
    List.Forall₂ (fun addr (beat : Beat dw) =>
        ∀ j, j.val < item.offset → beat j = m.contents (addr + BitVec.ofNat aw j.val))
      item.addrs (Backdoor.rebuilt m.table item).dataBeat ∧
    (item.trsT = .wr → (Backdoor.compare m.table item = true ↔ item.dataBeat = m.current item.addrs))

/-- The lanes that have to be right: all of a write, those below `offset` of a read. -/
def SequenceItem.lanes (item : SequenceItem aw dw) : Nat :=
  if item.trsT = .wr then dw/8 else min item.offset (dw/8)

namespace Stores

/-- The byte that a lane has when this store is taken for it. -/
def byteOf (data : Nat → BitVec 8) (store : Option Nat) : BitVec 8 := (store.map data).getD 0

theorem byteOf_injective {store other : Option Nat}
    (same : ∀ data, byteOf data store = byteOf data other) : store = other := by
  have marked (k : Nat) (o : Option Nat) :
      byteOf (fun l => if l = k then 1 else 0) o = 1 ↔ o = some k := by
    cases o with
    | none => simp [byteOf]
    | some l => simp [byteOf]
  cases store with
  | none =>
    cases other with
    | none => rfl
    | some k => exact (marked k none).mp ((same _).trans ((marked k (some k)).mpr rfl))
  | some k => exact ((marked k other).mp ((same _).symm.trans ((marked k (some k)).mpr rfl))).symm

theorem newest_append (stores : Stores aw) (store : BitVec aw × Nat) (addr : BitVec aw) :
    newest (stores ++ [store]) addr =
      if store.1 = addr then some stores.length else newest stores addr := by
  simp [newest,List.zipIdx_append]

theorem stored_append (stores : Stores aw) (store : BitVec aw × Nat) (data : Nat → BitVec 8) :
    stored (stores ++ [store]) data =
      (stores.stored data).storeByte store.1 (data stores.length) store.2 := by
  simp [stored,List.zipIdx_append]

/-- The memory holds the most recent store of each byte. -/
theorem contents_stored (stores : Stores aw) (data : Nat → BitVec 8) (addr : BitVec aw) :
    (stores.stored data).contents addr = byteOf data (stores.newest addr) := by
  induction stores using List.reverseRecOn with
  | nil => rfl
  | append_singleton stores store ih =>
    rw [stored_append,newest_append,Memory.contents_storeByte]
    by_cases here : store.1 = addr
    · rw [if_pos here.symm,if_pos here]
      rfl
    · rw [if_neg (Ne.symm here),if_neg here]
      exact ih

def row (stores : Stores aw) (data : Nat → BitVec 8) (k : Nat) : MemRow :=
  ⟨(stores.addrAt k).toNat,.wr,data k,stores.cycAt k⟩

theorem table_stored (stores : Stores aw) (data : Nat → BitVec 8) :
    (stores.stored data).table = (List.range stores.length).map (stores.row data) := by
  induction stores using List.reverseRecOn with
  | nil => rfl
  | append_singleton stores store ih =>
    have kept : ∀ k ∈ List.range stores.length, row stores data k = row (stores ++ [store]) data k := by
      intro k member
      have inside := List.mem_range.mp member
      simp [row,addrAt,cycAt,List.getElem?_append_left inside]
    have last : row (stores ++ [store]) data stores.length =
        ⟨store.1.toNat,.wr,data stores.length,store.2⟩ := by
      simp [row,addrAt,cycAt]
    rw [stored_append,List.length_append,List.length_singleton,List.range_succ,List.map_append,
      List.map_singleton,last,← List.map_congr_left kept,← ih]
    rfl

instance (stores : Stores aw) (offset : Nat) (addr : BitVec aw) :
    DecidablePred (stores.InWindow offset addr) := fun _ => inferInstanceAs (Decidable (_ ∧ _))

/-- The stores that the query for a beat address returns, without its limit. -/
def picked (stores : Stores aw) (offset : Nat) (addr : BitVec aw) : List Nat :=
  ((List.range stores.length).filter fun k => stores.InWindow offset addr k).insertionSort
    fun k l => stores.cycAt l ≤ stores.cycAt k

theorem mem_picked {stores : Stores aw} {offset : Nat} {addr : BitVec aw} {k : Nat} :
    k ∈ stores.picked offset addr ↔ stores.InWindow offset addr k := by
  rw [picked,List.mem_insertionSort,List.mem_filter,List.mem_range,decide_eq_true_iff]
  exact ⟨And.right,fun window => ⟨window.1,window⟩⟩

theorem pairwise_picked (stores : Stores aw) (offset : Nat) (addr : BitVec aw) :
    (stores.picked offset addr).Pairwise stores.Before := by
  have ordered := (List.pairwise_lt_range (n := stores.length)).filter
    fun k => decide (stores.InWindow offset addr k)
  have total (k l : Nat) : stores.cycAt l ≤ stores.cycAt k ∨ stores.cycAt k ≤ stores.cycAt l :=
    Nat.le_total _ _
  have sorted := Lib.pairwise_insertionSort_stable total
    (fun _ _ _ first second => Nat.le_trans second first) ordered
  apply sorted.imp
  rintro k l ⟨high,tie⟩
  rcases Nat.lt_or_eq_of_le high with lower | same
  · exact .inl lower
  · exact .inr ⟨same.symm,tie (Nat.le_of_eq same.symm)⟩

theorem lastWrTrx_stored (stores : Stores aw) (data : Nat → BitVec 8) (item : SequenceItem aw dw) :
    lastWrTrx (stores.stored data).table item =
      ((stores.picked item.offset (item.addrs.getD item.addrIdx 0)).take item.offset).map
        (stores.row data) := by
  have window : ((List.range stores.length).filter fun k =>
      stores.InWindow item.offset (item.addrs.getD item.addrIdx 0) k) =
      (List.range stores.length).filter ((fun row : MemRow => decide (row.decRw = .wr ∧
        (item.addrs.getD item.addrIdx 0).toNat ≤ row.decAddr ∧ row.decAddr <
        ((item.addrs.getD item.addrIdx 0).toNat+item.offset) % 2^(max aw 32))) ∘ stores.row data) := by
    apply List.filter_congr
    intro k member
    have inside := List.mem_range.mp member
    simp [InWindow,row,inside]
    rfl
  rw [lastWrTrx,table_stored,List.filter_map,← window,List.map_take,picked,
    List.map_insertionSort _ (fun a b : MemRow => b.decEdCyc ≤ a.decEdCyc)]
  intro k _ l _
  rfl

end Stores

namespace Backdoor

/-- Row `r` of the answer is or-ed into lane `r` of the beat. -/
theorem convert2Item_dataBeat (rows : List MemRow) (item : SequenceItem aw dw) :
    (convert2Item rows item).dataBeat = item.dataBeat.modify item.dataIdx fun beat j =>
      beat j ||| (rows[j.val]?.map MemRow.decData).getD 0 := by
  induction rows using List.reverseRecOn with
  | nil =>
    have zero : (fun (beat : Beat dw) (j : Fin (dw/8)) =>
        beat j ||| (([] : List MemRow)[j.val]?.map MemRow.decData).getD 0) = id := by
      funext beat j
      simp
    rw [zero,List.modify_id]
    rfl
  | append_singleton rows row ih =>
    have turn : convert2Item (rows ++ [row]) item =
        populateItem (convert2Item rows item) rows.length row.decData := by
      simp [convert2Item,List.zipIdx_append]
    have idx := convert2Item_kept SequenceItem.dataIdx (fun _ _ => rfl) rows item
    rw [turn,populateItem]
    simp only
    rw [ih,idx,List.modify_modify_eq]
    congr 1
    funext beat j
    by_cases here : j.val = rows.length
    · simp [here]
    · by_cases early : j.val < rows.length
      · simp [here,List.getElem?_append_left early]
      · have past : (rows ++ [row])[j.val]? = none := List.getElem?_eq_none (by simp; omega)
        have end_ : rows[j.val]? = none := List.getElem?_eq_none (by omega)
        simp [here,past,end_]

/-- Turn `i` of the loop over the addresses fills the beat of address `i`, from the answer for
that address. -/
theorem postItem_dataBeat (table : List MemRow) (item : SequenceItem aw dw) (i : Nat) :
    (postItem table item).dataBeat[i]? =
      if i < item.addrs.length then item.dataBeat[i]?.map fun beat j =>
        beat j ||| ((lastWrTrx table {item with addrIdx := i})[j.val]?.map MemRow.decData).getD 0
      else item.dataBeat[i]? := by
  have turns (n : Nat) :
      let posted := (List.range n).foldl (fun item i =>
        let item := {item with addrIdx := i, dataIdx := i}
        convert2Item (lastWrTrx table item) item) item
      posted.addrs = item.addrs ∧ posted.offset = item.offset ∧
        posted.dataBeat[i]? = if i < n then item.dataBeat[i]?.map fun beat j =>
          beat j ||| ((lastWrTrx table {item with addrIdx := i})[j.val]?.map MemRow.decData).getD 0
          else item.dataBeat[i]? := by
    induction n with
    | zero => exact ⟨rfl,rfl,rfl⟩
    | succ n ih =>
      obtain ⟨addrs,offset,beats⟩ := ih
      rw [List.range_succ,List.foldl_append,List.foldl_cons,List.foldl_nil]
      generalize (List.range n).foldl _ item = before at addrs offset beats ⊢
      refine ⟨?_,?_,?_⟩
      · exact (convert2Item_kept SequenceItem.addrs (fun _ _ => rfl) _ _).trans addrs
      · exact (convert2Item_kept SequenceItem.offset (fun _ _ => rfl) _ _).trans offset
      · simp only [convert2Item_dataBeat]
        by_cases now : n = i
        · subst now
          have same : lastWrTrx table {before with addrIdx := n, dataIdx := n} =
              lastWrTrx table {item with addrIdx := n} := by
            simp only [lastWrTrx,addrs,offset]
          rw [List.getElem?_modify_eq,same,beats,if_neg (Nat.lt_irrefl n),if_pos (Nat.lt_succ_self n)]
          rfl
        · rw [List.getElem?_modify_ne _ _ now,beats]
          congr 1
          rw [eq_iff_iff]
          omega
  exact (turns item.addrs.length).2.2

end Backdoor

namespace Stores

def rebuiltBeat (stores : Stores aw) (data : Nat → BitVec 8) (offset : Nat) (addr : BitVec aw) :
    Beat dw :=
  fun j => byteOf data ((stores.picked offset addr).take offset)[j.val]?

theorem rebuilt_stored (stores : Stores aw) (data : Nat → BitVec 8) (item : SequenceItem aw dw)
    (size : item.dataBeat.length = item.addrs.length) :
    (Backdoor.rebuilt (stores.stored data).table item).dataBeat =
      item.addrs.map (stores.rebuiltBeat data item.offset) := by
  apply List.ext_getElem?
  intro i
  rw [Backdoor.rebuilt,Backdoor.postItem_dataBeat,List.getElem?_map]
  have rows := lastWrTrx_stored stores data {Backdoor.purgeItem item with addrIdx := i}
  simp only [Backdoor.purgeItem,List.getElem?_map] at rows ⊢
  by_cases inside : i < item.addrs.length
  · have beat : i < item.dataBeat.length := by omega
    rw [if_pos inside,rows,List.getD_eq_getElem?_getD,List.getElem?_eq_getElem inside,
      List.getElem?_eq_getElem beat,Option.getD_some]
    simp only [Option.map_some,Option.some.injEq]
    funext j
    rw [List.getElem?_map,Option.map_map]
    exact BitVec.zero_or
  · rw [if_neg inside,List.getElem?_eq_none (by omega),List.getElem?_eq_none (by omega)]
    rfl

theorem before_asymm (stores : Stores aw) (k l : Nat) (order : stores.Before k l) :
    ¬stores.Before l k := by
  rintro (back | back) <;> rcases order with order | order <;> omega

theorem inOrder_iff (stores : Stores aw) (offset lanes : Nat) (addr : BitVec aw) :
    stores.InOrder offset lanes addr ↔ ∀ j < lanes,
      ((stores.picked offset addr).take offset)[j]? = stores.newest (addr + BitVec.ofNat aw j) := by
  rw [Lib.places_iff stores.before_asymm (stores.pairwise_picked offset addr)]
  simp only [mem_picked]
  exact ⟨fun ⟨inside,ahead,rest⟩ => ⟨inside,ahead,rest⟩,fun ⟨inside,ahead,rest⟩ => ⟨inside,ahead,rest⟩⟩

/-- The lanes of a beat are right for all bytes stored when the stores are in order. -/
theorem rebuiltBeat_iff (stores : Stores aw) (offset lanes : Nat) (addr : BitVec aw)
    (fits : lanes ≤ dw/8) :
    stores.InOrder offset lanes addr ↔ ∀ data, ∀ j : Fin (dw/8), j.val < lanes →
      stores.rebuiltBeat data offset addr j =
        (stores.stored data).contents (addr + BitVec.ofNat aw j.val) := by
  rw [inOrder_iff]
  simp only [contents_stored]
  constructor
  · intro places data j small
    rw [rebuiltBeat,places j.val small]
  · intro lanes j small
    exact byteOf_injective fun data => lanes data ⟨j,by omega⟩ small

end Stores

theorem Backdoor.compare_wr (table : List MemRow) (item : SequenceItem aw dw) (write : item.trsT = .wr) :
    Backdoor.compare table item = true ↔ item.dataBeat = (Backdoor.rebuilt table item).dataBeat := by
  have kind := rebuilt_kept SequenceItem.trsT (fun _ _ _ _ => rfl) table item
  have addrs := rebuilt_kept SequenceItem.addrs (fun _ _ _ _ => rfl) table item
  have byten := rebuilt_kept SequenceItem.bytenBeat (fun _ _ _ _ => rfl) table item
  have initorid := rebuilt_kept SequenceItem.initorid (fun _ _ _ _ => rfl) table item
  have targetid := rebuilt_kept SequenceItem.targetid (fun _ _ _ _ => rfl) table item
  rw [Backdoor.compare,SequenceItem.compare_wr _ _ write
    ⟨.inr (.inr initorid.symm),.inr (.inr targetid.symm)⟩]
  exact ⟨fun same => same.2.2.1,fun same => ⟨kind.trans write,addrs.symm,same,byten.symm⟩⟩

/-- Writing the whole word again in a later cycle does no harm. -/
example : Stores.InOrder ([(0,1),(1,1),(2,1),(3,1),(0,2),(1,2),(2,2),(3,2)] : Stores 32) 4 4 0 :=
  (Stores.inOrder_iff _ _ _ _).mpr (by decide +kernel)

end Smtdv
