import Mathlib.Data.List.Iterate
import Smtdv.Ahb.Bus

/-! `post_addr` of `ahb_sequence_item`, against the addresses that a burst has on the bus. -/
namespace Smtdv.Ahb

variable {aw : Nat}

/-- `inside {WRAP4, WRAP8, WRAP16}`. -/
def BstType.wraps : BstType → Bool
  | .wrap4 | .wrap8 | .wrap16 => true
  | .single | .incr | .incr4 | .incr8 | .incr16 => false

/-- `data_bus_bytes`; the parameter `DATA_WIDTH` is an `int`. -/
def dataBusBytes (dw : Nat) : Nat := (dw % 2^32) >>> 3

/-- What a turn of the loop of `post_addr`, called with the address `start`, makes of `addr`.
An expression with an address in it is unsigned and has the width of an `int` at least, so
that the byte lanes, which are `int`s, are extended by zeros. -/
def nextAddr (dw : Nat) (start : BitVec aw) (trxSize bstLen : Nat) (bstType : BstType)
    (addr : BitVec aw) : BitVec aw :=
  let numBytes := 1 <<< trxSize
  let alignedAddr := BitVec.ofNat aw (start.toNat/numBytes*numBytes)
  let dtsize := numBytes*(bstLen+1)
  let lowerWrapBoundary := BitVec.ofNat aw (start.toNat/dtsize*dtsize)
  let upperWrapBoundary := BitVec.ofNat aw (lowerWrapBoundary.toNat+dtsize)
  if alignedAddr = start then
    let addr := BitVec.ofNat aw (addr.toNat+numBytes)
    if bstType.wraps ∧ upperWrapBoundary.toNat ≤ addr.toNat then lowerWrapBoundary else addr
  else
    let width := max aw 32
    let bus := BitVec.ofNat width (addr.toNat/dataBusBytes dw*dataBusBytes dw)
    let lowerByteLane := (addr.setWidth width-bus).setWidth 32
    let upperByteLane := (alignedAddr.setWidth width+BitVec.ofNat width numBytes-1-bus).setWidth 32
    (addr.setWidth width+(upperByteLane.setWidth width-lowerByteLane.setWidth width+1)).setWidth aw

def postAddr (dw : Nat) (addr : BitVec aw) (trxSize bstLen : Nat) (bstType : BstType) :
    List (BitVec aw) :=
  List.iterate (nextAddr dw addr trxSize bstLen bstType) addr (bstLen+1)

/-- The address of beat `i` of a burst on the bus. -/
def beatAddr (addr : BitVec aw) (trxSize bstLen : Nat) (bstType : BstType) (i : Nat) : BitVec aw :=
  let block := 2^trxSize*(bstLen+1)
  if bstType.wraps then
    BitVec.ofNat aw (addr.toNat/block*block+(addr.toNat+i*2^trxSize) % block)
  else addr+BitVec.ofNat aw (i*2^trxSize)

def burstAddrs (addr : BitVec aw) (trxSize bstLen : Nat) (bstType : BstType) : List (BitVec aw) :=
  (List.range (bstLen+1)).map (beatAddr addr trxSize bstLen bstType)

/-- An aligned burst of a length its type has, which does not run around the address space. -/
structure LegalBurst (addr : BitVec aw) (trxSize bstLen : Nat) (bstType : BstType) : Prop where
  aligned : 2^trxSize ∣ addr.toNat
  beats : ∀ n, bstType.beats = some n → bstLen+1 = n
  fits : 2^trxSize*(bstLen+1) ≤ 2^aw

instance (addr : BitVec aw) (trxSize bstLen : Nat) (bstType : BstType) :
    Decidable (LegalBurst addr trxSize bstLen bstType) :=
  decidable_of_iff (2^trxSize ∣ addr.toNat ∧ (∀ n ∈ bstType.beats, bstLen+1 = n) ∧
      2^trxSize*(bstLen+1) ≤ 2^aw)
    ⟨fun ⟨aligned,beats,fits⟩ => ⟨aligned,beats,fits⟩,fun ⟨aligned,beats,fits⟩ => ⟨aligned,beats,fits⟩⟩

/-- The burst wraps in the block that ends where the address space does. -/
def WrapsAtTop (addr : BitVec aw) (trxSize bstLen : Nat) (bstType : BstType) : Prop :=
  let block := 2^trxSize*(bstLen+1)
  bstType.wraps ∧ addr.toNat/block*block+block = 2^aw

instance (addr : BitVec aw) (trxSize bstLen : Nat) (bstType : BstType) :
    Decidable (WrapsAtTop addr trxSize bstLen bstType) := inferInstanceAs (Decidable (_ ∧ _))

section

variable {addr : BitVec aw} {trxSize bstLen : Nat} {bstType : BstType}

theorem LegalBurst.block_le (legal : LegalBurst addr trxSize bstLen bstType) (wraps : bstType.wraps) :
    addr.toNat/(2^trxSize*(bstLen+1))*(2^trxSize*(bstLen+1))+2^trxSize*(bstLen+1) ≤ 2^aw := by
  obtain ⟨k,len⟩ : ∃ k, bstLen+1 = 2^k := by
    cases bstType with
    | wrap4 => exact ⟨2,legal.beats 4 rfl⟩
    | wrap8 => exact ⟨3,legal.beats 8 rfl⟩
    | wrap16 => exact ⟨4,legal.beats 16 rfl⟩
    | single | incr | incr4 | incr8 | incr16 => simp [BstType.wraps] at wraps
  have fits := legal.fits
  rw [len,← Nat.pow_add] at fits ⊢
  obtain ⟨blocks,whole⟩ : 2^(trxSize+k) ∣ 2^aw :=
    Nat.pow_dvd_pow 2 ((Nat.pow_le_pow_iff_right (by decide)).mp fits)
  have below : addr.toNat/2^(trxSize+k) < blocks := by
    apply Nat.div_lt_of_lt_mul
    rw [← whole]
    exact addr.isLt
  calc addr.toNat/2^(trxSize+k)*2^(trxSize+k)+2^(trxSize+k)
      = (addr.toNat/2^(trxSize+k)+1)*2^(trxSize+k) := by rw [Nat.succ_mul]
    _ ≤ blocks*2^(trxSize+k) := Nat.mul_le_mul_right _ below
    _ = 2^aw := by rw [whole,Nat.mul_comm]

theorem LegalBurst.long (legal : LegalBurst addr trxSize bstLen bstType) (wraps : bstType.wraps) :
    3 ≤ bstLen := by
  cases bstType with
  | wrap4 => have := legal.beats 4 rfl; omega
  | wrap8 => have := legal.beats 8 rfl; omega
  | wrap16 => have := legal.beats 16 rfl; omega
  | single | incr | incr4 | incr8 | incr16 => simp [BstType.wraps] at wraps

theorem aligned_eq (aligned : 2^trxSize ∣ addr.toNat) :
    BitVec.ofNat aw (addr.toNat/2^trxSize*2^trxSize) = addr := by
  rw [Nat.div_mul_cancel aligned,BitVec.ofNat_toNat,BitVec.setWidth_eq]

theorem beatAddr_zero (addr : BitVec aw) (trxSize bstLen : Nat) (bstType : BstType) :
    beatAddr addr trxSize bstLen bstType 0 = addr := by
  unfold beatAddr
  split
  · simp only [Nat.zero_mul,Nat.add_zero,Nat.div_add_mod',BitVec.ofNat_toNat,BitVec.setWidth_eq]
  · simp

/-- The offsets of the beats of a wrapping burst in its block. -/
theorem wrapped_step (bstLen : Nat) (aligned : 2^trxSize ∣ addr.toNat) (i : Nat) :
    let block := 2^trxSize*(bstLen+1)
    let offset := (addr.toNat+i*2^trxSize) % block
    offset+2^trxSize ≤ block ∧
      (addr.toNat+(i+1)*2^trxSize) % block = if offset+2^trxSize = block then 0 else offset+2^trxSize := by
  intro block offset
  have positive : 0 < 2^trxSize := Nat.two_pow_pos _
  have room : 0 < block := Nat.mul_pos positive (by omega)
  have whole : 2^trxSize ∣ block := Nat.dvd_mul_right _ _
  have inside : offset < block := Nat.mod_lt _ room
  have multiple : 2^trxSize ∣ offset :=
    (Nat.dvd_mod_iff whole).mpr (Nat.dvd_add aligned (Nat.dvd_mul_left _ _))
  have fits : offset+2^trxSize ≤ block := by
    obtain ⟨m,offsetEq⟩ := multiple
    obtain ⟨n,blockEq⟩ := whole
    rw [offsetEq,blockEq] at inside ⊢
    have below : m < n := Nat.lt_of_mul_lt_mul_left inside
    calc 2^trxSize*m+2^trxSize = 2^trxSize*(m+1) := (Nat.mul_succ _ _).symm
      _ ≤ 2^trxSize*n := Nat.mul_le_mul_left _ below
  refine ⟨fits,?_⟩
  rw [Nat.succ_mul,← Nat.add_assoc,Nat.add_mod]
  change (offset+2^trxSize % block) % block = _
  split
  · rename_i last
    rw [Nat.add_mod_mod,last,Nat.mod_self]
  · rw [Nat.add_mod_mod,Nat.mod_eq_of_lt (by omega)]

/-- In a block below the top of the address space, the loop goes from beat to beat. -/
theorem nextAddr_beatAddr (dw : Nat) (legal : LegalBurst addr trxSize bstLen bstType)
    (below : ¬WrapsAtTop addr trxSize bstLen bstType) (i : Nat) :
    nextAddr dw addr trxSize bstLen bstType (beatAddr addr trxSize bstLen bstType i) =
      beatAddr addr trxSize bstLen bstType (i+1) := by
  unfold nextAddr beatAddr
  simp only [Nat.one_shiftLeft,aligned_eq legal.aligned,if_true]
  by_cases wraps : bstType.wraps
  · obtain ⟨fits,next⟩ := wrapped_step bstLen legal.aligned i
    have high := legal.block_le wraps
    have top : addr.toNat/(2^trxSize*(bstLen+1))*(2^trxSize*(bstLen+1))+2^trxSize*(bstLen+1) ≠ 2^aw :=
      fun top => below ⟨wraps,top⟩
    simp only [wraps,if_true,true_and] at next ⊢
    rw [next]
    generalize addr.toNat/(2^trxSize*(bstLen+1))*(2^trxSize*(bstLen+1)) = base at *
    generalize (addr.toNat+i*2^trxSize) % (2^trxSize*(bstLen+1)) = offset at *
    generalize 2^trxSize*(bstLen+1) = block at *
    have positive : 0 < 2^trxSize := Nat.two_pow_pos _
    simp only [BitVec.toNat_ofNat]
    rw [Nat.mod_eq_of_lt (show base < 2^aw by omega),
      Nat.mod_eq_of_lt (show base+block < 2^aw by omega),
      Nat.mod_eq_of_lt (show base+offset < 2^aw by omega),
      Nat.mod_eq_of_lt (show base+offset+2^trxSize < 2^aw by omega)]
    by_cases last : offset+2^trxSize = block
    · rw [if_pos (by omega),if_pos last,Nat.add_zero]
    · rw [if_neg (by omega),if_neg last,Nat.add_assoc]
  · simp only [wraps,Bool.false_eq_true,if_false,false_and]
    rw [BitVec.ofNat_add,BitVec.ofNat_toNat,BitVec.setWidth_eq,BitVec.add_assoc,← BitVec.ofNat_add,
      Nat.succ_mul]

/-- The addresses are those of the bus, unless the block ends where the address space does. -/
theorem postAddr_eq (dw : Nat) (legal : LegalBurst addr trxSize bstLen bstType)
    (below : ¬WrapsAtTop addr trxSize bstLen bstType) :
    postAddr dw addr trxSize bstLen bstType = burstAddrs addr trxSize bstLen bstType := by
  rw [postAddr,burstAddrs,← List.range_map_iterate]
  congr 1
  funext i
  induction i with
  | zero => exact (beatAddr_zero _ _ _ _).symm
  | succ i ih => rw [Function.iterate_succ_apply',ih,nextAddr_beatAddr dw legal below]

/-- When the upper boundary overflows to 0, every address is past it. -/
theorem nextAddr_overflow (dw : Nat) (aligned : 2^trxSize ∣ addr.toNat) (wraps : bstType.wraps)
    (past : 2^aw ∣ addr.toNat/(2^trxSize*(bstLen+1))*(2^trxSize*(bstLen+1))+2^trxSize*(bstLen+1))
    (other : BitVec aw) :
    nextAddr dw addr trxSize bstLen bstType other =
      BitVec.ofNat aw (addr.toNat/(2^trxSize*(bstLen+1))*(2^trxSize*(bstLen+1))) := by
  unfold nextAddr
  simp only [Nat.one_shiftLeft,aligned_eq aligned,if_true,wraps,true_and]
  generalize addr.toNat/(2^trxSize*(bstLen+1))*(2^trxSize*(bstLen+1)) = base at *
  generalize 2^trxSize*(bstLen+1) = block at *
  have upper : (BitVec.ofNat aw ((BitVec.ofNat aw base).toNat+block)).toNat = 0 := by
    rw [BitVec.toNat_ofNat,BitVec.toNat_ofNat,Nat.mod_add_mod,Nat.mod_eq_zero_of_dvd past]
  rw [upper,if_pos (Nat.zero_le _)]

/-- So every beat but the first goes to the lower boundary. -/
theorem postAddr_overflow (dw : Nat) (aligned : 2^trxSize ∣ addr.toNat) (wraps : bstType.wraps)
    (past : 2^aw ∣ addr.toNat/(2^trxSize*(bstLen+1))*(2^trxSize*(bstLen+1))+2^trxSize*(bstLen+1))
    (i : Nat) (small : i < bstLen) :
    (postAddr dw addr trxSize bstLen bstType)[i+1]? =
      some (BitVec.ofNat aw (addr.toNat/(2^trxSize*(bstLen+1))*(2^trxSize*(bstLen+1)))) := by
  rw [postAddr,List.getElem?_iterate _ _ _ _ (by omega),Function.iterate_succ_apply',
    nextAddr_overflow dw aligned wraps past]

theorem postAddr_top (dw : Nat) (legal : LegalBurst addr trxSize bstLen bstType)
    (top : WrapsAtTop addr trxSize bstLen bstType) (i : Nat) (small : i < bstLen) :
    (postAddr dw addr trxSize bstLen bstType)[i+1]? =
      some (BitVec.ofNat aw (addr.toNat/(2^trxSize*(bstLen+1))*(2^trxSize*(bstLen+1)))) :=
  postAddr_overflow dw legal.aligned top.1 (by rw [top.2]) i small

end

end Smtdv.Ahb
