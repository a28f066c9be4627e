import Mathlib.Order.Defs.LinearOrder
import Mathlib.Data.Fintype.Pi

/-! Types every part of the library shares: the enumerations, and the packed
byte and byte-enable vectors of one data beat. -/
namespace Smtdv

/-- `trs_type_t`. -/
inductive TrsType
  | rd | wr | rdwr
  deriving DecidableEq, Repr

/-- `trx_rsp_t`. -/
inductive TrxRsp
  | okay | error | retry | split
  deriving DecidableEq, Repr

/-- `trx_size_t`. -/
inductive TrxSize
  | b8 | b16 | b32 | b64 | b128 | b256 | b512 | b1024
  deriving DecidableEq, Repr

/-- `bit [(DATA_WIDTH>>3)-1:0][7:0]`: one beat of `data_beat`. -/
abbrev Beat (dw : Nat) := Fin (dw/8) → BitVec 8

/-- `bit [(DATA_WIDTH>>3)-1:0][0:0]`: one beat of `byten_beat`. -/
abbrev Byten (dw : Nat) := Fin (dw/8) → BitVec 1

instance (dw : Nat) : Inhabited (Beat dw) := ⟨fun _ => 0⟩

instance (dw : Nat) : Inhabited (Byten dw) := ⟨fun _ => 0⟩

/-- `pack_data`: the bytes of a bus word, lowest byte first. -/
def packData {dw : Nat} (idata : BitVec dw) : Beat dw :=
  fun i => idata.extractLsb' (i.val*8) 8

/-- `unpack_data`: the bus word made of the bytes of a beat. -/
def unpackData {dw : Nat} (beat : Beat dw) : BitVec dw :=
  (List.finRange (dw/8)).foldl (fun odata i => odata ||| ((beat i).setWidth dw <<< (i.val*8))) 0

/-- The order in which an associative array indexed by a bit vector is traversed. -/
instance addrOrder (w : Nat) : LinearOrder (BitVec w) where
  le_refl _ := BitVec.le_refl _
  le_trans _ _ _ := BitVec.le_trans
  le_antisymm _ _ := BitVec.le_antisymm
  le_total := BitVec.le_total
  lt_iff_le_not_ge a b := by
    rw [BitVec.lt_def,BitVec.le_def,BitVec.le_def]
    omega
  toDecidableLE := inferInstance

end Smtdv
