import Smtdv.Ahb.BurstForms

/-! The constraints of `ahb_sequence_item` and its `post_randomize`, against the rule that a burst
stays in one block of 1 KB. -/
namespace Smtdv.Ahb

/-- The fields that `post_randomize` reads and fills. -/
structure RandItem (aw dw : Nat) where
  addr : BitVec aw
  trxSize : TrxSize
  bstLen : Nat
  bstType : BstType
  addrs : List (BitVec aw) := []
  dataBeat : List (Beat dw) := []
  bytenBeat : List (Byten dw) := []

namespace RandItem

variable {aw dw : Nat}

/-- The implications of `c_addr`, which `c_wrap_burst` makes again. -/
def StartAligned (addr : BitVec aw) : TrxSize → Prop
  | .b8 => True
  | .b16 => addr.extractLsb' 0 1 = 0
  | .b32 => addr.extractLsb' 0 2 = 0
  | .b64 => addr.extractLsb' 0 3 = 0
  | .b128 => addr.extractLsb' 0 4 = 0
  | .b256 => addr.extractLsb' 0 5 = 0
  | .b512 => addr.extractLsb' 0 6 = 0
  | .b1024 => addr.extractLsb' 0 7 = 0

/-- The implications of `c_bst_len`. -/
def LenOfType (bstLen : Nat) : BstType → Prop
  | .single => bstLen = 0
  | .incr => bstLen ∈ [1,2,4,5,6,8,9,10,11,12,13,14]
  | .wrap4 | .incr4 => bstLen = 3
  | .wrap8 | .incr8 => bstLen = 7
  | .wrap16 | .incr16 => bstLen = 15

/-- What the solver has to meet. -/
structure Constrained (item : RandItem aw dw) : Prop where
  cBstLen : LenOfType item.bstLen item.bstType
  cWrapBurst : item.bstType.wraps → StartAligned item.addr item.trxSize
  cTrxSize : item.trxSize = .b32
  cAddr : StartAligned item.addr item.trxSize

def postData (bstLen : Nat) (rdata : Nat → Beat dw) : List (Beat dw) := (List.range (bstLen+1)).map rdata

/-- `rdata i` is what the i-th randomization of `rdata` gives. -/
def postRandomize (item : RandItem aw dw) (rdata : Nat → Beat dw) : RandItem aw dw :=
  let addrs := postAddr dw item.addr item.trxSize.ctorIdx item.bstLen item.bstType
  let dataBeat := postData item.bstLen rdata
  {item with
    addrs := (List.range (item.bstLen+1)).map fun i => addrs.getD i 0
    dataBeat := (List.range (item.bstLen+1)).map fun i => dataBeat.getD i default
    bytenBeat := []}

end RandItem

def BstType.increments : BstType → Bool
  | .incr | .incr4 | .incr8 | .incr16 => true
  | .single | .wrap4 | .wrap8 | .wrap16 => false

/-- Every address is aligned, and those of an incrementing burst are in one block. -/
structure RandItem.InBlock {aw dw : Nat} (item : RandItem aw dw) : Prop where
  aligned : ∀ a ∈ item.addrs, 2^item.trxSize.ctorIdx ∣ a.toNat
  block : item.bstType.increments → ∀ a ∈ item.addrs, ∀ b ∈ item.addrs, a.toNat/1024 = b.toNat/1024

namespace RandItem

variable {aw dw : Nat}

theorem postRandomize_addrs (item : RandItem aw dw) (rdata : Nat → Beat dw) :
    (item.postRandomize rdata).addrs = postAddr dw item.addr item.trxSize.ctorIdx item.bstLen item.bstType := by
  have size : (postAddr dw item.addr item.trxSize.ctorIdx item.bstLen item.bstType).length = item.bstLen+1 :=
    List.length_iterate ..
  apply List.ext_getElem
  · rw [size]
    simp [postRandomize]
  · intro i _ inside
    simp [postRandomize,List.getD_eq_getElem?_getD,List.getElem?_eq_getElem inside]

theorem startAligned_dvd {addr : BitVec aw} {trxSize : TrxSize} (start : StartAligned addr trxSize) :
    2^trxSize.ctorIdx ∣ addr.toNat := by
  have low (k : Nat) (zero : addr.extractLsb' 0 k = 0) : 2^k ∣ addr.toNat := by
    have value := congrArg BitVec.toNat zero
    rw [BitVec.extractLsb'_toNat,Nat.shiftRight_zero] at value
    exact Nat.dvd_of_mod_eq_zero value
  cases trxSize with
  | b8 => exact Nat.one_dvd _
  | b16 => exact low 1 start
  | b32 => exact low 2 start
  | b64 => exact low 3 start
  | b128 => exact low 4 start
  | b256 => exact low 5 start
  | b512 => exact low 6 start
  | b1024 => exact low 7 start

end RandItem

/-- A multiple of a power of two stays one when it is cut to an address. -/
theorem dvd_mod_pow {k x : Nat} (w : Nat) (whole : 2^k ∣ x) : 2^k ∣ x % 2^w := by
  by_cases small : k ≤ w
  · exact (Nat.dvd_mod_iff (Nat.pow_dvd_pow 2 small)).mpr whole
  · have zero : x % 2^w = 0 := Nat.mod_eq_zero_of_dvd ((Nat.pow_dvd_pow 2 (Nat.le_of_not_le small)).trans whole)
    rw [zero]
    exact Nat.dvd_zero _

section

variable {aw trxSize bstLen : Nat} {addr : BitVec aw} {bstType : BstType}

/-- From an aligned address to an aligned one, wrapping or not. -/
theorem nextAddr_aligned (dw : Nat) (start : 2^trxSize ∣ addr.toNat) {other : BitVec aw}
    (aligned : 2^trxSize ∣ other.toNat) : 2^trxSize ∣ (nextAddr dw addr trxSize bstLen bstType other).toNat := by
  rw [nextAddr]
  simp only [Nat.one_shiftLeft,aligned_eq start,if_true]
  split
  · rw [BitVec.toNat_ofNat]
    exact dvd_mod_pow aw (Nat.dvd_mul_left_of_dvd (Nat.dvd_mul_right _ _) _)
  · rw [BitVec.toNat_ofNat]
    exact dvd_mod_pow aw (Nat.dvd_add aligned (Nat.dvd_refl _))

theorem iterate_dvd (dw : Nat) (start : 2^trxSize ∣ addr.toNat) (i : Nat) :
    2^trxSize ∣ ((nextAddr dw addr trxSize bstLen bstType)^[i] addr).toNat := by
  induction i with
  | zero => exact start
  | succ i ih =>
    rw [Function.iterate_succ_apply']
    exact nextAddr_aligned dw start ih

theorem postAddr_aligned (dw : Nat) (start : 2^trxSize ∣ addr.toNat) :
    ∀ a ∈ postAddr dw addr trxSize bstLen bstType, 2^trxSize ∣ a.toNat := by
  intro a inside
  obtain ⟨i,-,rfl⟩ := List.mem_iterate.mp inside
  exact iterate_dvd dw start i

/-- The transfers of a short burst are all in the block of the first if the last one is, or if the
address space is no larger than a block. -/
theorem sameBlock_iff {numBytes : Nat} (short : bstLen*numBytes < 1024) :
    (∀ i ≤ bstLen, (BitVec.ofNat aw (addr.toNat+i*numBytes)).toNat/1024 = addr.toNat/1024) ↔
      aw ≤ 10 ∨ addr.toNat % 1024 + bstLen*numBytes < 1024 := by
  have top := addr.isLt
  constructor
  · intro same
    by_contra out
    obtain ⟨wide,past⟩ := not_or.mp out
    obtain ⟨m,blocks⟩ : 2^11 ∣ 2^aw := Nat.pow_dvd_pow 2 (by omega)
    have last := same bstLen (Nat.le_refl _)
    rw [BitVec.toNat_ofNat] at last
    by_cases below : addr.toNat+bstLen*numBytes < 2^aw
    · rw [Nat.mod_eq_of_lt below] at last
      omega
    · -- past the top of the address space, back in its first block
      rw [Nat.mod_eq_sub_mod (Nat.not_lt.mp below),Nat.mod_eq_of_lt (by omega)] at last
      omega
  · rintro inside i upto
    have before : i*numBytes ≤ bstLen*numBytes := Nat.mul_le_mul_right _ upto
    by_cases small : aw ≤ 10
    · have cut : 2^aw ≤ 1024 := Nat.pow_le_pow_right (by decide) small
      rw [Nat.div_eq_of_lt ((BitVec.isLt _).trans_le cut),Nat.div_eq_of_lt (top.trans_le cut)]
    · obtain ⟨m,blocks⟩ : 2^10 ∣ 2^aw := Nat.pow_dvd_pow 2 (by omega)
      have inside := inside.resolve_left small
      rw [BitVec.toNat_ofNat,Nat.mod_eq_of_lt (by omega)]
      omega

end

namespace RandItem

variable {aw dw : Nat}

theorem lenOfType_le {bstLen : Nat} {bstType : BstType} (len : LenOfType bstLen bstType) : bstLen ≤ 15 := by
  cases bstType with
  | incr =>
    have all : ∀ n ∈ [1,2,4,5,6,8,9,10,11,12,13,14], n ≤ 15 := by decide
    exact all bstLen len
  | single | wrap4 | incr4 | wrap8 | incr8 | wrap16 | incr16 =>
    rw [LenOfType] at len
    omega

theorem mem_addrs (item : RandItem aw dw) (rdata : Nat → Beat dw) (constrained : item.Constrained)
    (increments : item.bstType.increments) (a : BitVec aw) : a ∈ (item.postRandomize rdata).addrs ↔
      ∃ i ≤ item.bstLen, a = BitVec.ofNat aw (item.addr.toNat+i*2^item.trxSize.ctorIdx) := by
  have noWrap : item.bstType.wraps = false := by
    cases type : item.bstType with
    | wrap4 | wrap8 | wrap16 => rw [type] at increments; contradiction
    | single | incr | incr4 | incr8 | incr16 => rfl
  have beats := iterate_aligned dw item.bstLen noWrap (startAligned_dvd constrained.cAddr)
  rw [postRandomize_addrs,postAddr,List.mem_iterate]
  refine exists_congr fun i => ?_
  rw [beats i,Nat.lt_succ_iff]

/-- The addresses of a constrained item are aligned, and an incrementing burst is in one block exactly
when its last beat is in the block of its first, or the address space has no other. -/
theorem inBlock_iff (item : RandItem aw dw) (rdata : Nat → Beat dw) (constrained : item.Constrained) :
    (item.postRandomize rdata).InBlock ↔
      (item.bstType.increments → aw ≤ 10 ∨ item.addr.toNat % 1024 + item.bstLen*4 < 1024) := by
  have start := startAligned_dvd constrained.cAddr
  have short : item.bstLen*2^item.trxSize.ctorIdx < 1024 := by
    have len := lenOfType_le constrained.cBstLen
    rw [constrained.cTrxSize]
    change item.bstLen*4 < 1024
    omega
  have four : item.bstLen*2^item.trxSize.ctorIdx = item.bstLen*4 := by rw [constrained.cTrxSize]; rfl
  rw [← four]
  constructor
  · intro held increments
    refine (sameBlock_iff short).mp fun i upto => ?_
    have here := mem_addrs item rdata constrained increments
    have first := (here item.addr).mpr ⟨0,Nat.zero_le _,by simp⟩
    exact held.block increments _ ((here _).mpr ⟨i,upto,rfl⟩) _ first
  · intro inside
    refine ⟨fun a member => ?_,fun increments => ?_⟩
    · rw [postRandomize_addrs] at member
      exact postAddr_aligned dw start a member
    · have same := (sameBlock_iff short).mpr (inside increments)
      have block (a : BitVec aw) (member : a ∈ (item.postRandomize rdata).addrs) :
          a.toNat/1024 = item.addr.toNat/1024 := by
        obtain ⟨i,upto,rfl⟩ := (mem_addrs item rdata constrained increments a).mp member
        exact same i upto
      exact fun a first b second => (block a first).trans (block b second).symm

/-- A burst of the last four words of a block. -/
def lastFour : RandItem 32 32 := {addr := 0x3F0, trxSize := .b32, bstLen := 3, bstType := .incr4}

theorem lastFour_inBlock : (lastFour.postRandomize fun _ => default).InBlock := by
  have start : StartAligned lastFour.addr lastFour.trxSize := by
    change (0x3F0 : BitVec 32).extractLsb' 0 2 = 0
    decide
  exact (inBlock_iff lastFour _ ⟨rfl,fun _ => start,rfl,start⟩).mpr fun _ => .inr (by decide)

/-- A burst of four words from the last two words of a block. -/
def crossing : RandItem 32 32 := {addr := 0x3F8, trxSize := .b32, bstLen := 3, bstType := .incr4}

theorem crossing_not_inBlock : crossing.Constrained ∧ ¬(crossing.postRandomize fun _ => default).InBlock := by
  have start : StartAligned crossing.addr crossing.trxSize := by
    change (0x3F8 : BitVec 32).extractLsb' 0 2 = 0
    decide
  refine ⟨⟨rfl,fun _ => start,rfl,start⟩,fun held => ?_⟩
  have block := held.block rfl
  rw [postRandomize_addrs] at block
  exact absurd (block 0x3F8 (by decide) 0x400 (by decide)) (by decide)

end RandItem

end Smtdv.Ahb
