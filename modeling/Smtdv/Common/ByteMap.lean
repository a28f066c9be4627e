import Mathlib.Data.List.GetD
import Smtdv.Lib.Machine
import Smtdv.Common.Memory

/-! The row interface of `smtdv_generic_memory`, and the memory as a map of bytes. -/
namespace Smtdv
open Lib

variable {aw : Nat}

/-- A row `byte16_t` of a memory of 128 bits. -/
abbrev Byte16 := Fin 16 → BitVec 8

namespace Memory

/-- The bytes of the rows, row after row. -/
def dataByte (data : List Byte16) : List (BitVec 8) :=
  data.flatMap fun tmp16 => (List.finRange 16).map tmp16

def memStore (m : Memory aw) (addr : BitVec aw) (data : List Byte16) (cyc : Nat) : Memory aw :=
  m.memStoreByte addr (dataByte data) cyc

/-- The variables of the loop of `mem_load`. -/
structure Rows where
  data : List Byte16
  tmp16 : Byte16 := fun _ => 0
  byte16Idx : Nat := 0

/-- A turn of the loop, for byte `i` of `size`. -/
def Rows.turn (size : Nat) (rows : Rows) (byte : BitVec 8 × Nat) : Rows :=
  let i := byte.2
  let tmp16 := Function.update rows.tmp16 (Fin.ofNat 16 i) byte.1
  if i%16 = 15 then
    {data := rows.data.set rows.byte16Idx tmp16, tmp16 := tmp16, byte16Idx := rows.byte16Idx+1}
  else if i+1 = size then
    -- the lanes after the last byte are cleared
    let tmp16 := fun j : Fin 16 => if i%16+1 ≤ j.val then 0 else tmp16 j
    {rows with data := rows.data.set rows.byte16Idx tmp16, tmp16 := tmp16}
  else {rows with tmp16 := tmp16}

def byte16Size (bcnt : Nat) : Nat := (bcnt >>> 4) + if bcnt%16 ≠ 0 then 1 else 0

def toRows (bytes : List (BitVec 8)) (byte16Size : Nat) : List Byte16 :=
  (bytes.zipIdx.foldl (Rows.turn bytes.length) {data := List.replicate byte16Size fun _ => 0}).data

def memLoad (m : Memory aw) (addr : BitVec aw) (bcnt : Nat) : Memory aw × List Byte16 :=
  let loaded := m.memLoadByte addr bcnt
  (loaded.1,toRows loaded.2 (byte16Size bcnt))

end Memory

/-- A call of the memory. -/
inductive MemOp (aw : Nat)
  | storeByte (addr : BitVec aw) (data : List (BitVec 8)) (cyc : Nat)
  | loadByte (addr : BitVec aw) (bcnt : Nat)
  | store (addr : BitVec aw) (data : List Byte16) (cyc : Nat)
  | load (addr : BitVec aw) (bcnt : Nat)

/-- What a call hands back. -/
inductive MemAnswer
  | stored
  | bytes (data : List (BitVec 8))
  | rows (data : List Byte16)

def Memory.call (m : Memory aw) : MemOp aw → Memory aw × MemAnswer
  | .storeByte addr data cyc => (m.memStoreByte addr data cyc,.stored)
  | .loadByte addr bcnt => ((m.memLoadByte addr bcnt).1,.bytes (m.memLoadByte addr bcnt).2)
  | .store addr data cyc => (m.memStore addr data cyc,.stored)
  | .load addr bcnt => ((m.memLoad addr bcnt).1,.rows (m.memLoad addr bcnt).2)

/-- A byte for every address. -/
abbrev ByteMap (aw : Nat) := BitVec aw → BitVec 8

namespace ByteMap

/-- The bytes go to the addresses from `addr` on, and nothing else changes. -/
def store (map : ByteMap aw) (addr : BitVec aw) (data : List (BitVec 8)) : ByteMap aw :=
  fun other => data.getD (other-addr).toNat (map other)

def load (map : ByteMap aw) (addr : BitVec aw) (bcnt : Nat) : List (BitVec 8) :=
  (List.range bcnt).map fun i => map (addr + BitVec.ofNat aw i)

/-- Sixteen bytes a row, with zeros after the last one. -/
def loadRows (map : ByteMap aw) (addr : BitVec aw) (bcnt : Nat) : List Byte16 :=
  (List.range ((bcnt+15)/16)).map fun r j =>
    if 16*r+j.val < bcnt then map (addr + BitVec.ofNat aw (16*r+j.val)) else 0

def call (map : ByteMap aw) : MemOp aw → ByteMap aw × MemAnswer
  | .storeByte addr data _ => (map.store addr data,.stored)
  | .loadByte addr bcnt => (map,.bytes (map.load addr bcnt))
  | .store addr data _ => (map.store addr (data.flatMap List.ofFn),.stored)
  | .load addr bcnt => (map,.rows (map.loadRows addr bcnt))

end ByteMap

namespace MemOp

/-- The bytes that a call stores. -/
def written : MemOp aw → Option (BitVec aw × List (BitVec 8))
  | storeByte addr data _ => some (addr,data)
  | store addr data _ => some (addr,data.flatMap List.ofFn)
  | loadByte _ _ | load _ _ => none

/-- The range of a store does not come round to its own start. -/
def Fits : MemOp aw → Prop
  | storeByte _ data _ => data.length ≤ 2^aw
  | store _ data _ => 16*data.length ≤ 2^aw
  | loadByte _ _ | load _ _ => True

end MemOp

namespace Memory

/-- Row `r` of the bytes. -/
def rowOf (bytes : List (BitVec 8)) (r : Nat) : Byte16 := fun j => bytes.getD (16*r+j.val) 0

/-- The loop of `mem_load` after `k` of the bytes. -/
structure Rows.Done (bytes : List (BitVec 8)) (k : Nat) (rows : Rows) : Prop where
  size : rows.data.length = (bytes.length+15)/16
  idx : rows.byte16Idx = k/16
  whole : ∀ r, r < k/16 ∨ (k = bytes.length ∧ r < (bytes.length+15)/16) → rows.data[r]? = some (rowOf bytes r)
  part : k < bytes.length → ∀ j : Fin 16, j.val < k%16 → rows.tmp16 j = rowOf bytes (k/16) j

theorem Rows.done_initial (bytes : List (BitVec 8)) :
    Rows.Done bytes 0 {data := List.replicate ((bytes.length+15)/16) fun _ => 0} := by
  refine ⟨List.length_replicate,rfl,fun r before => ?_,fun _ j before => ?_⟩
  · omega
  · omega

/-- A turn of the loop puts the next byte into its lane, and the row away when it is the last of it. -/
theorem Rows.Done.turn {bytes : List (BitVec 8)} {k : Nat} {rows : Rows} (done : Done bytes k rows)
    (inside : k < bytes.length) : Done bytes (k+1) (rows.turn bytes.length (bytes[k],k)) := by
  obtain ⟨size,idx,whole,part⟩ := done
  have split := Nat.div_add_mod k 16
  have lanes (j : Fin 16) (upto : j.val ≤ k%16) :
      Function.update rows.tmp16 (Fin.ofNat 16 k) bytes[k] j = rowOf bytes (k/16) j := by
    by_cases here : j = Fin.ofNat 16 k
    · rw [here,Function.update_self]
      change bytes[k] = bytes.getD (16*(k/16)+k%16) 0
      rw [split,List.getD_eq_getElem _ _ inside]
    · rw [Function.update_of_ne here]
      have other : j.val ≠ k%16 := fun same => here (Fin.ext same)
      exact part inside j (Nat.lt_of_le_of_ne upto other)
  have away {row : Byte16} (filled : row = rowOf bytes (k/16)) (r : Nat) (upto : r ≤ k/16) :
      (rows.data.set rows.byte16Idx row)[r]? = some (rowOf bytes r) := by
    rw [idx,filled,List.getElem?_set]
    by_cases here : k/16 = r
    · have room : k/16 < rows.data.length := by omega
      rw [if_pos here,if_pos (by omega),here]
    · rw [if_neg here]
      exact whole r (.inl (by omega))
  rw [Rows.turn]
  by_cases full : k%16 = 15
  · rw [if_pos full]
    have row := funext fun j : Fin 16 => lanes j (by omega)
    refine ⟨(List.length_set).trans size,?_,fun r before => away row r (by omega),fun _ j before => ?_⟩
    · change rows.byte16Idx+1 = (k+1)/16
      omega
    · omega
  · rw [if_neg full]
    by_cases last : k+1 = bytes.length
    · rw [if_pos last]
      have row : (fun j : Fin 16 => if k%16+1 ≤ j.val then 0 else
          Function.update rows.tmp16 (Fin.ofNat 16 k) bytes[k] j) = rowOf bytes (k/16) := by
        funext j
        by_cases after : k%16+1 ≤ j.val
        · rw [if_pos after,rowOf,List.getD_eq_default _ _ (by omega)]
        · rw [if_neg after]
          exact lanes j (by omega)
      refine ⟨(List.length_set).trans size,?_,fun r before => away row r (by omega),fun more => ?_⟩
      · change rows.byte16Idx = (k+1)/16
        omega
      · omega
    · rw [if_neg last]
      refine ⟨size,?_,fun r before => whole r (.inl (by omega)),fun more j before => ?_⟩
      · change rows.byte16Idx = (k+1)/16
        omega
      · have same : (k+1)/16 = k/16 := by omega
        rw [same]
        exact lanes j (by omega)

theorem toRows_eq (bytes : List (BitVec 8)) : toRows bytes ((bytes.length+15)/16) =
    (List.range ((bytes.length+15)/16)).map (rowOf bytes) := by
  have turns (rest : List (BitVec 8)) (before : List (BitVec 8)) (rows : Rows) (all : before ++ rest = bytes)
      (done : rows.Done bytes before.length) :
      ((rest.zipIdx before.length).foldl (Rows.turn bytes.length) rows).Done bytes bytes.length := by
    induction rest generalizing before rows with
    | nil =>
      rw [List.append_nil] at all
      rw [← all]
      rw [← all] at done
      exact done
    | cons byte rest ih =>
      have inside : before.length < bytes.length := by simp [← all]
      have here : bytes[before.length] = byte := by simp [← all]
      have next := done.turn inside
      rw [here] at next
      have later := ih (before ++ [byte]) (rows.turn bytes.length (byte,before.length)) (by simp [all])
      rw [List.length_append,List.length_singleton] at later
      rw [List.zipIdx_cons,List.foldl_cons]
      exact later next
  have final := turns bytes [] _ rfl (Rows.done_initial bytes)
  apply List.ext_getElem?
  intro r
  by_cases inside : r < (bytes.length+15)/16
  · rw [List.getElem?_map,List.getElem?_range inside]
    exact final.whole r (.inr ⟨rfl,inside⟩)
  · rw [List.getElem?_eq_none (by rw [toRows]; exact final.size.le.trans (Nat.not_lt.mp inside)),
      List.getElem?_eq_none (by simpa using inside)]

theorem byte16Size_eq (bcnt : Nat) : byte16Size bcnt = (bcnt+15)/16 := by
  rw [byte16Size,Nat.shiftRight_eq_div_pow]
  split <;> omega

theorem dataByte_eq (data : List Byte16) : dataByte data = data.flatMap List.ofFn :=
  congrArg (List.flatMap · data) (funext fun _ => List.ofFn_eq_map.symm)

theorem dataByte_length (data : List Byte16) : (dataByte data).length = 16*data.length := by
  induction data with
  | nil => rfl
  | cons row data ih =>
    rw [dataByte,List.flatMap_cons,← dataByte,List.length_append,ih,List.length_map,List.length_finRange,
      List.length_cons]
    omega

theorem memStoreByte_contents (m : Memory aw) (addr : BitVec aw) (data : List (BitVec 8)) (cyc : Nat)
    (fits : data.length ≤ 2^aw) : (m.memStoreByte addr data cyc).contents = ByteMap.store m.contents addr data := by
  funext other
  rw [contents_memStoreByte,covering_eq addr other data fits,ByteMap.store,List.getD_eq_getElem?_getD]

theorem memLoad_eq (m : Memory aw) (addr : BitVec aw) (bcnt : Nat) :
    (m.memLoad addr bcnt).2 = ByteMap.loadRows m.contents addr bcnt ∧
      (m.memLoad addr bcnt).1.contents = m.contents := by
  obtain ⟨bytes,kept,-,-⟩ := memLoadByte_eq m addr bcnt
  refine ⟨?_,kept⟩
  have size : ((List.range bcnt).map fun i => m.contents (addr + BitVec.ofNat aw i)).length = bcnt := by
    rw [List.length_map,List.length_range]
  have rows := toRows_eq ((List.range bcnt).map fun i => m.contents (addr + BitVec.ofNat aw i))
  rw [size] at rows
  rw [memLoad,bytes,byte16Size_eq,rows,ByteMap.loadRows]
  refine List.map_congr_left fun r _ => funext fun j => ?_
  rw [rowOf]
  by_cases inside : 16*r+j.val < bcnt
  · rw [if_pos inside,List.getD_eq_getElem _ _ (by omega),List.getElem_map,List.getElem_range]
  · rw [if_neg inside,List.getD_eq_default _ _ (by omega)]

/-- Each call answers as the map does, and leaves the contents that the map has then. -/
theorem call_refines (m : Memory aw) (op : MemOp aw) (fits : op.Fits) :
    (m.call op).2 = (ByteMap.call m.contents op).2 ∧ (m.call op).1.contents = (ByteMap.call m.contents op).1 := by
  cases op with
  | storeByte addr data cyc => exact ⟨rfl,memStoreByte_contents m addr data cyc fits⟩
  | store addr data cyc =>
    refine ⟨rfl,?_⟩
    have stored := memStoreByte_contents m addr (dataByte data) cyc ((dataByte_length data).trans_le fits)
    exact stored.trans (congrArg (ByteMap.store m.contents addr) (dataByte_eq data))
  | loadByte addr bcnt =>
    obtain ⟨bytes,kept,-,-⟩ := memLoadByte_eq m addr bcnt
    exact ⟨congrArg MemAnswer.bytes bytes,kept⟩
  | load addr bcnt =>
    obtain ⟨rows,kept⟩ := memLoad_eq m addr bcnt
    exact ⟨congrArg MemAnswer.rows rows,kept⟩

end Memory

namespace ByteMap

theorem call_written (map : ByteMap aw) (op : MemOp aw) (fits : op.Fits) (other : BitVec aw) :
    (map.call op).1 other =
      (op.written.bind fun write => Memory.covering write.1 write.2 other).getD (map other) := by
  cases op with
  | storeByte addr data cyc =>
    change map.store addr data other = (Memory.covering addr data other).getD _
    rw [Memory.covering_eq addr other data fits,store,List.getD_eq_getElem?_getD]
  | store addr data cyc =>
    change map.store addr (data.flatMap List.ofFn) other = (Memory.covering addr (data.flatMap List.ofFn) other).getD _
    have size : (data.flatMap List.ofFn).length ≤ 2^aw := by
      rw [← Memory.dataByte_eq,Memory.dataByte_length]
      exact fits
    rw [Memory.covering_eq addr other _ size,store,List.getD_eq_getElem?_getD]
  | loadByte addr bcnt | load addr bcnt => rfl

/-- After calls in turn the map has the byte of the latest store that covers it. -/
theorem answers_latest (ops : List (MemOp aw)) (fits : ∀ op ∈ ops, op.Fits) (map : ByteMap aw) (other : BitVec aw) :
    (Machine.answers call map ops).1 other = (Memory.latest (ops.filterMap MemOp.written) other).getD (map other) := by
  induction ops using List.reverseRecOn with
  | nil => rfl
  | append_singleton ops op ih =>
    have before := ih fun op inside => fits op (List.mem_append_left _ inside)
    rw [Machine.answers_append,List.filterMap_append,Memory.latest_append]
    change (call (Machine.answers call map ops).1 op).1 other = _
    rw [call_written _ op (fits op (by simp)),before]
    cases written : op.written with
    | none => simp [written]
    | some write =>
      simp only [List.filterMap_cons,List.filterMap_nil,written,Option.bind_some,Memory.latest,List.foldl_cons,
        List.foldl_nil,Option.or_none]
      cases Memory.covering write.1 write.2 other <;> rfl

end ByteMap

namespace Memory

/-- The memory answers all calls as a map of bytes that has zeros at first, and has the contents that the
map has: at every address the byte of the latest store there. -/
theorem answers_byteMap (ops : List (MemOp aw)) (fits : ∀ op ∈ ops, op.Fits) :
    (Machine.answers call {} ops).2 = (Machine.answers ByteMap.call (fun _ => 0) ops).2 ∧
      (Machine.answers call {} ops).1.contents = (Machine.answers ByteMap.call (fun _ => 0) ops).1 ∧
      ∀ other, (Machine.answers ByteMap.call (fun _ => 0) ops).1 other =
        (latest (ops.filterMap MemOp.written) other).getD 0 := by
  have steps (m : Memory aw) (map : ByteMap aw) (op : MemOp aw) (allowed : op.Fits) (same : m.contents = map) :
      (m.call op).2 = (map.call op).2 ∧ (m.call op).1.contents = (map.call op).1 := by
    subst same
    exact call_refines m op allowed
  have refined := Machine.answers_refine steps (s := {}) rfl fits
  exact ⟨refined.1,refined.2,ByteMap.answers_latest ops fits fun _ => 0⟩

/-- A row stored over the top of the addresses, loaded with one byte more, and a byte of it overwritten. -/
def mixed : List (MemOp 8) :=
  [.store 0xF8 [fun j => BitVec.ofNat 8 (j.val+1)] 10,.load 0xF8 17,.storeByte 0xFF [0x55] 11,.loadByte 0xFE 4]

theorem mixed_byteMap : (Machine.answers call {} mixed).2 = (Machine.answers ByteMap.call (fun _ => 0) mixed).2 ∧
    [0xFE,0xFF,0x00,0x08].map (Machine.answers call {} mixed).1.contents = [7,0x55,9,0] := by
  obtain ⟨answers,contents,-⟩ := answers_byteMap mixed (by simp [mixed,MemOp.Fits])
  refine ⟨answers,?_⟩
  rw [contents]
  decide

end Memory

end Smtdv
