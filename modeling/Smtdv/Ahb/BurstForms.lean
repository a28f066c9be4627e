import Mathlib.Data.List.Perm.Basic
import Mathlib.Data.List.Rotate
import Smtdv.Ahb.PostAddr

/-! The addresses of `post_addr` in closed form: round a wrap window, and up from an address
that need not be aligned. -/
namespace Smtdv.Ahb

variable {aw dw trxSize bstLen : Nat} {addr : BitVec aw} {bstType : BstType}

/-- The slots of a window of `len` transfers. -/
def windowSlots (lower numBytes len : Nat) : List Nat := (List.range len).map fun j => lower+j*numBytes

/-- The beats go round the wrap window from the start address, through each of its slots once. -/
def WrapsRound (dw : Nat) (addr : BitVec aw) (trxSize bstLen : Nat) (bstType : BstType) : Prop :=
  let numBytes := 2^trxSize
  let window := numBytes*(bstLen+1)
  let lower := addr.toNat/window*window
  let addrs := (postAddr dw addr trxSize bstLen bstType).map BitVec.toNat
  (∀ i ≤ bstLen, addrs[i]? = some (lower+(addr.toNat-lower+i*numBytes) % window)) ∧
    addrs.Perm (windowSlots lower numBytes (bstLen+1))

/-- Beat 0 is at the start address, and beat `i` at `i` transfers above the start address
rounded down. -/
def Increments (dw : Nat) (addr : BitVec aw) (trxSize bstLen : Nat) (bstType : BstType) : Prop :=
  ∀ i ≤ bstLen, (postAddr dw addr trxSize bstLen bstType)[i]? =
    some (if i = 0 then addr else BitVec.ofNat aw (addr.toNat/2^trxSize*2^trxSize+i*2^trxSize))

theorem windowSlots_nodup (lower len : Nat) {numBytes : Nat} (positive : 0 < numBytes) :
    (windowSlots lower numBytes len).Nodup := by
  apply List.nodup_range.map
  intro i j same
  have same : i*numBytes = j*numBytes := Nat.add_left_cancel same
  exact Nat.eq_of_mul_eq_mul_right positive same

/-- Counting up modulo the length of a list is a rotation of it. -/
theorem map_mod_perm (k len : Nat) :
    ((List.range len).map fun i => (i+k) % len).Perm (List.range len) := by
  have rotated : (List.range len).map (fun i => (i+k) % len) = (List.range len).rotate k := by
    apply List.ext_getElem
    · simp
    · intro i left right
      simp [List.getElem_rotate]
  rw [rotated]
  exact List.rotate_perm _ _

/-- An aligned start address is in a slot of its window. -/
theorem slot_of_aligned (aligned : 2^trxSize ∣ addr.toNat) (bstLen : Nat) :
    ∃ k, addr.toNat-addr.toNat/(2^trxSize*(bstLen+1))*(2^trxSize*(bstLen+1)) = 2^trxSize*k := by
  have lower : 2^trxSize ∣ addr.toNat/(2^trxSize*(bstLen+1))*(2^trxSize*(bstLen+1)) :=
    Nat.dvd_mul_left_of_dvd (Nat.dvd_mul_right _ _) _
  exact Nat.dvd_sub aligned lower

/-- Going round a window from any slot visits every slot once. -/
theorem round_perm (lower numBytes k len : Nat) :
    ((List.range len).map fun i => lower+(numBytes*k+i*numBytes) % (numBytes*len)).Perm
      (windowSlots lower numBytes len) := by
  have slots := (map_mod_perm k len).map fun j => lower+j*numBytes
  rw [List.map_map] at slots
  unfold windowSlots
  convert slots using 2
  funext i
  rw [Function.comp_apply,Nat.mul_comm i numBytes,← Nat.mul_add,Nat.mul_mod_mul_left,Nat.add_comm k i,
    Nat.mul_comm]

/-- The window of a wrapping burst is a power of two. -/
theorem window_pow (trxSize : Nat) (wraps : bstType.wraps) (beats : bstType.beats = some (bstLen+1)) :
    ∃ k, 1 < k ∧ 2^trxSize*(bstLen+1) = 2^(trxSize+k) := by
  obtain ⟨k,long,len⟩ : ∃ k, 1 < k ∧ bstLen+1 = 2^k := by
    cases bstType with
    | wrap4 => exact ⟨2,by decide,(Option.some.inj beats).symm⟩
    | wrap8 => exact ⟨3,by decide,(Option.some.inj beats).symm⟩
    | wrap16 => exact ⟨4,by decide,(Option.some.inj beats).symm⟩
    | single | incr | incr4 | incr8 | incr16 => simp [BstType.wraps] at wraps
  exact ⟨k,long,by rw [len,Nat.pow_add]⟩

/-- A window that does not end below the top of the address space ends at a multiple of its size. -/
theorem window_over (wraps : bstType.wraps) (beats : bstType.beats = some (bstLen+1))
    (aligned : 2^trxSize ∣ addr.toNat)
    (high : 2^aw ≤ addr.toNat/(2^trxSize*(bstLen+1))*(2^trxSize*(bstLen+1))+2^trxSize*(bstLen+1)) :
    2^aw ∣ addr.toNat/(2^trxSize*(bstLen+1))*(2^trxSize*(bstLen+1))+2^trxSize*(bstLen+1) := by
  by_cases fits : 2^trxSize*(bstLen+1) ≤ 2^aw
  · have legal : LegalBurst addr trxSize bstLen bstType :=
      ⟨aligned,fun n known => Option.some.inj (beats.symm.trans known),fits⟩
    rw [Nat.le_antisymm (legal.block_le wraps) high]
  · obtain ⟨k,-,size⟩ := window_pow trxSize wraps beats
    have whole : 2^aw ∣ 2^trxSize*(bstLen+1) := by
      rw [size] at fits ⊢
      apply Nat.pow_dvd_pow
      by_contra small
      exact fits (Nat.pow_le_pow_right (by decide) (by omega))
    exact Nat.dvd_add (Nat.dvd_mul_left_of_dvd whole _) whole

theorem beatAddr_round (legal : LegalBurst addr trxSize bstLen bstType) (wraps : bstType.wraps) (i : Nat) :
    (beatAddr addr trxSize bstLen bstType i).toNat =
      addr.toNat/(2^trxSize*(bstLen+1))*(2^trxSize*(bstLen+1))+
        (addr.toNat-addr.toNat/(2^trxSize*(bstLen+1))*(2^trxSize*(bstLen+1))+i*2^trxSize) %
          (2^trxSize*(bstLen+1)) := by
  have high := legal.block_le wraps
  have start : addr.toNat/(2^trxSize*(bstLen+1))*(2^trxSize*(bstLen+1)) ≤ addr.toNat := Nat.div_mul_le_self _ _
  have positive : 0 < 2^trxSize*(bstLen+1) := Nat.mul_pos (Nat.two_pow_pos _) (by omega)
  have inside := Nat.mod_lt (addr.toNat+i*2^trxSize) positive
  have offset : (addr.toNat-addr.toNat/(2^trxSize*(bstLen+1))*(2^trxSize*(bstLen+1))+i*2^trxSize) %
      (2^trxSize*(bstLen+1)) = (addr.toNat+i*2^trxSize) % (2^trxSize*(bstLen+1)) := by
    conv_rhs => rw [← Nat.sub_add_cancel start,Nat.add_right_comm,Nat.add_mul_mod_self_right]
  rw [offset,beatAddr,if_pos wraps,BitVec.toNat_ofNat,Nat.mod_eq_of_lt (by omega)]

/-- The beats of a wrapping burst go round its window unless the window ends at the top of the
address space, or is larger than it. -/
theorem wrapsRound_iff (dw : Nat) (addr : BitVec aw) (trxSize : TrxSize) (bstLen : Nat) (bstType : BstType)
    (wraps : bstType.wraps) (beats : bstType.beats = some (bstLen+1))
    (aligned : 2^trxSize.ctorIdx ∣ addr.toNat) :
    WrapsRound dw addr trxSize.ctorIdx bstLen bstType ↔
      addr.toNat/(2^trxSize.ctorIdx*(bstLen+1))*(2^trxSize.ctorIdx*(bstLen+1))+
        2^trxSize.ctorIdx*(bstLen+1) < 2^aw := by
  generalize trxSize.ctorIdx = trxSize at *
  constructor
  · rintro ⟨-,slots⟩
    by_contra high
    have long : 2 ≤ bstLen := by
      cases bstType <;> simp [BstType.wraps,BstType.beats] at wraps beats <;> omega
    have past := window_over wraps beats aligned (Nat.le_of_not_lt high)
    have apart := (slots.nodup_iff.mpr (windowSlots_nodup _ _ (Nat.two_pow_pos _))).of_map
    have second := postAddr_overflow dw aligned wraps past 0 (by omega)
    have third := postAddr_overflow dw aligned wraps past 1 (by omega)
    have size : 1+1 < (postAddr dw addr trxSize bstLen bstType).length := by
      rw [postAddr,List.length_iterate]
      omega
    have same := (List.getElem?_inj size apart).mp (third.trans second.symm)
    exact absurd same (by decide)
  · intro below
    have legal : LegalBurst addr trxSize bstLen bstType :=
      ⟨aligned,fun n known => Option.some.inj (beats.symm.trans known),by omega⟩
    have addrs : (postAddr dw addr trxSize bstLen bstType).map BitVec.toNat =
        (List.range (bstLen+1)).map fun i =>
          addr.toNat/(2^trxSize*(bstLen+1))*(2^trxSize*(bstLen+1))+
            (addr.toNat-addr.toNat/(2^trxSize*(bstLen+1))*(2^trxSize*(bstLen+1))+i*2^trxSize) %
              (2^trxSize*(bstLen+1)) := by
      rw [postAddr_eq dw legal fun top => absurd top.2 (by omega),burstAddrs,List.map_map]
      apply List.map_congr_left
      intro i _
      exact beatAddr_round legal wraps i
    refine ⟨fun i small => ?_,?_⟩
    · rw [addrs,List.getElem?_map,List.getElem?_range (by omega)]
      rfl
    · rw [addrs]
      obtain ⟨k,slot⟩ := slot_of_aligned aligned bstLen
      rw [slot]
      exact round_perm _ _ _ _

theorem wrapsRound_iff_wrap4 : WrapsRound 32 (8 : BitVec 32) TrxSize.b32.ctorIdx 3 .wrap4 ↔
    (8 : BitVec 32).toNat/(2^TrxSize.b32.ctorIdx*4)*(2^TrxSize.b32.ctorIdx*4)+
      2^TrxSize.b32.ctorIdx*4 < 2^32 :=
  wrapsRound_iff 32 8 .b32 3 .wrap4 rfl rfl (by decide)

/-- In the window at the top of the address space the beats from the second on are all at the
lower boundary. -/
theorem not_wrapsRound_top : ¬WrapsRound 32 (0xFFFFFFF4 : BitVec 32) TrxSize.b32.ctorIdx 3 .wrap4 := by
  intro right
  have second := right.1 1 (by decide)
  revert second
  decide

theorem ofNat_sub_ofNat_le (w : Nat) {a b : Nat} (le : b ≤ a) :
    BitVec.ofNat w a-BitVec.ofNat w b = BitVec.ofNat w (a-b) := by
  conv_lhs => rw [← Nat.sub_add_cancel le,BitVec.ofNat_add,BitVec.add_sub_cancel]

theorem setWidth_sub_le {v w : Nat} (x y : BitVec w) (le : v ≤ w) :
    (x-y).setWidth v = x.setWidth v-y.setWidth v := by
  rw [BitVec.sub_eq_add_neg,BitVec.setWidth_add _ _ le,BitVec.setWidth_neg_of_le le,← BitVec.sub_eq_add_neg]

theorem aligned_ne (unaligned : ¬2^trxSize ∣ addr.toNat) :
    BitVec.ofNat aw (addr.toNat/2^trxSize*2^trxSize) ≠ addr := by
  intro same
  have values := congrArg BitVec.toNat same
  have low : addr.toNat/2^trxSize*2^trxSize ≤ addr.toNat := Nat.div_mul_le_self _ _
  rw [BitVec.toNat_ofNat,Nat.mod_eq_of_lt (by have := addr.isLt; omega)] at values
  exact unaligned ⟨_,by rw [Nat.mul_comm,values]⟩

/-- From an address that is not aligned, the first turn goes to the next aligned address. -/
theorem nextAddr_unaligned (narrow : 2^trxSize ≤ dataBusBytes dw) (bstLen : Nat) (bstType : BstType)
    (unaligned : ¬2^trxSize ∣ addr.toNat) :
    nextAddr dw addr trxSize bstLen bstType addr =
      BitVec.ofNat aw (addr.toNat/2^trxSize*2^trxSize+2^trxSize) := by
  have small : dataBusBytes dw < 2^29 := by
    rw [dataBusBytes,Nat.shiftRight_eq_div_pow]
    omega
  have low : addr.toNat/2^trxSize*2^trxSize ≤ addr.toNat := Nat.div_mul_le_self _ _
  have high : addr.toNat < addr.toNat/2^trxSize*2^trxSize+2^trxSize := Nat.lt_div_mul_add (Nat.two_pow_pos _)
  have bus : addr.toNat/dataBusBytes dw*dataBusBytes dw ≤ addr.toNat := Nat.div_mul_le_self _ _
  have lane : addr.toNat < addr.toNat/dataBusBytes dw*dataBusBytes dw+dataBusBytes dw :=
    Nat.lt_div_mul_add (Nat.lt_of_lt_of_le (Nat.two_pow_pos _) narrow)
  have wide : addr.toNat = (addr.setWidth (max aw 32)).toNat :=
    (BitVec.toNat_setWidth_of_le (Nat.le_max_left _ _)).symm
  have start : addr.setWidth (max aw 32) = BitVec.ofNat (max aw 32) addr.toNat := by
    rw [wide,BitVec.ofNat_toNat,BitVec.setWidth_eq]
  have extended {x : Nat} (int : x < 2^32) :
      (BitVec.ofNat 32 x).setWidth (max aw 32) = BitVec.ofNat (max aw 32) x :=
    BitVec.setWidth_ofNat_of_le_of_lt (Nat.le_max_right _ _) int
  have one : (1 : BitVec (max aw 32)) = BitVec.ofNat (max aw 32) 1 := rfl
  unfold nextAddr
  simp only [Nat.one_shiftLeft,aligned_ne unaligned,if_false]
  rw [BitVec.setWidth_ofNat_of_le_of_lt (Nat.le_max_left _ _) (by have := addr.isLt; omega),start]
  generalize addr.toNat/2^trxSize*2^trxSize = base at *
  generalize addr.toNat/dataBusBytes dw*dataBusBytes dw = bus at *
  generalize 2^trxSize = numBytes at *
  generalize addr.toNat = first at *
  rw [one,← BitVec.ofNat_add,ofNat_sub_ofNat_le _ bus,ofNat_sub_ofNat_le _ (by omega),ofNat_sub_ofNat_le _ (by omega),
    BitVec.setWidth_ofNat_of_le (Nat.le_max_right _ _),BitVec.setWidth_ofNat_of_le (Nat.le_max_right _ _),
    extended (by omega),extended (by omega),ofNat_sub_ofNat_le _ (by omega),← BitVec.ofNat_add,← BitVec.ofNat_add,
    BitVec.setWidth_ofNat_of_le (Nat.le_max_left _ _)]
  congr 1
  omega

/-- Every turn leaves the low bits of that address, whatever address it is at. -/
theorem nextAddr_low (dw bstLen : Nat) (bstType : BstType) (unaligned : ¬2^trxSize ∣ addr.toNat)
    (other : BitVec aw) : (nextAddr dw addr trxSize bstLen bstType other).setWidth (min aw 32) =
      BitVec.ofNat (min aw 32) (addr.toNat/2^trxSize*2^trxSize+2^trxSize) := by
  have address : min aw 32 ≤ aw := Nat.min_le_left _ _
  have int : min aw 32 ≤ 32 := Nat.min_le_right _ _
  have wide : min aw 32 ≤ max aw 32 := Nat.le_trans int (Nat.le_max_right _ _)
  unfold nextAddr
  simp only [Nat.one_shiftLeft,aligned_ne unaligned,if_false]
  generalize addr.toNat/2^trxSize*2^trxSize = base
  generalize _/dataBusBytes dw*dataBusBytes dw = bus
  simp only [BitVec.setWidth_setWidth_of_le _ address,BitVec.setWidth_setWidth_of_le _ wide,
    BitVec.setWidth_setWidth_of_le _ int,
    BitVec.setWidth_add _ _ wide,setWidth_sub_le _ _ wide,BitVec.setWidth_ofNat_of_le wide,
    BitVec.setWidth_ofNat_of_le address,BitVec.ofNat_add]
  grind

theorem postAddr_get {i : Nat} (small : i ≤ bstLen) :
    (postAddr dw addr trxSize bstLen bstType)[i]? =
      some ((nextAddr dw addr trxSize bstLen bstType)^[i] addr) :=
  List.getElem?_iterate _ _ _ _ (by omega)

/-- The beats after an aligned start address. -/
theorem iterate_aligned (dw bstLen : Nat) (incr : bstType.wraps = false) (aligned : 2^trxSize ∣ addr.toNat)
    (i : Nat) :
    (nextAddr dw addr trxSize bstLen bstType)^[i] addr = BitVec.ofNat aw (addr.toNat+i*2^trxSize) := by
  induction i with
  | zero => simp
  | succ i ih =>
    rw [Function.iterate_succ_apply',ih,nextAddr]
    simp only [Nat.one_shiftLeft,aligned_eq aligned,if_true,incr,Bool.false_eq_true,false_and,if_false,
      BitVec.toNat_ofNat]
    apply BitVec.eq_of_toNat_eq
    rw [BitVec.toNat_ofNat,BitVec.toNat_ofNat,Nat.mod_add_mod,Nat.succ_mul,Nat.add_assoc]

/-- Where one transfer covers the address space, every later beat is at address 0. -/
theorem iterate_covering (dw bstLen : Nat) (bstType : BstType) (small : aw ≤ 32)
    (unaligned : ¬2^trxSize ∣ addr.toNat) (i : Nat) :
    (nextAddr dw addr trxSize bstLen bstType)^[i+1] addr =
      BitVec.ofNat aw (addr.toNat/2^trxSize*2^trxSize+2^trxSize) := by
  have low := nextAddr_low dw bstLen bstType unaligned ((nextAddr dw addr trxSize bstLen bstType)^[i] addr)
  rw [Nat.min_eq_left small,BitVec.setWidth_eq] at low
  rw [Function.iterate_succ_apply',low]

/-- The beats of an incrementing burst are where they belong exactly when its start address is
aligned or it has at most two beats, or when one transfer covers the address space. -/
theorem increments_iff (dw : Nat) (addr : BitVec aw) (trxSize : TrxSize) (bstLen : Nat) (bstType : BstType)
    (incr : bstType = .incr ∨ bstType = .incr4 ∨ bstType = .incr8 ∨ bstType = .incr16)
    (narrow : 2^trxSize.ctorIdx ≤ dataBusBytes dw) :
    Increments dw addr trxSize.ctorIdx bstLen bstType ↔
      2^trxSize.ctorIdx ∣ addr.toNat ∨ bstLen ≤ 1 ∨ aw ≤ trxSize.ctorIdx := by
  have noWrap : bstType.wraps = false := by
    rcases incr with rfl | rfl | rfl | rfl <;> rfl
  generalize trxSize.ctorIdx = trxSize at *
  by_cases aligned : 2^trxSize ∣ addr.toNat
  · refine iff_of_true (fun i small => ?_) (Or.inl aligned)
    rw [postAddr_get small,iterate_aligned dw bstLen noWrap aligned,Nat.div_mul_cancel aligned]
    split
    next zero => rw [zero,Nat.zero_mul,Nat.add_zero,BitVec.ofNat_toNat,BitVec.setWidth_eq]
    next => rfl
  have first := nextAddr_unaligned narrow bstLen bstType aligned
  have small : 2^trxSize < 2^29 := by
    rw [dataBusBytes,Nat.shiftRight_eq_div_pow] at narrow
    omega
  have bounded : trxSize < 29 := (Nat.pow_lt_pow_iff_right (by decide)).mp small
  constructor
  · intro right
    by_contra long
    simp only [not_or,Nat.not_le] at long
    obtain ⟨-,long,wide⟩ := long
    have long : 2 ≤ bstLen := long
    have third := right 2 long
    have stuck := nextAddr_low dw bstLen bstType aligned
      (BitVec.ofNat aw (addr.toNat/2^trxSize*2^trxSize+2^trxSize))
    rw [postAddr_get long,Function.iterate_succ_apply',Function.iterate_one,first,Option.some.injEq,
      if_neg (by decide)] at third
    rw [third,BitVec.setWidth_ofNat_of_le (Nat.min_le_left _ _),Nat.two_mul,← Nat.add_assoc,BitVec.ofNat_add] at stuck
    -- so the low bits of a transfer's size would be 0
    have none : BitVec.ofNat (min aw 32) (2^trxSize) = 0 := by simpa using stuck
    have values := congrArg BitVec.toNat none
    have short : trxSize < min aw 32 := by omega
    rw [BitVec.toNat_ofNat,Nat.mod_eq_of_lt (Nat.pow_lt_pow_right (by decide) short)] at values
    exact absurd values (Nat.two_pow_pos _).ne'
  · intro spared i small
    rw [postAddr_get small]
    rcases spared with aligned' | short | covers
    · exact absurd aligned' aligned
    · obtain rfl | rfl : i = 0 ∨ i = 1 := by omega
      · rfl
      · rw [Function.iterate_one,first,if_neg (by decide),Nat.one_mul]
    · cases i with
      | zero => rfl
      | succ i =>
        rw [iterate_covering dw bstLen bstType (by omega) aligned,if_neg (Nat.succ_ne_zero _),Option.some.injEq]
        apply BitVec.eq_of_toNat_eq
        have whole : 2^aw ∣ 2^trxSize := Nat.pow_dvd_pow 2 covers
        have zero (k : Nat) : (addr.toNat/2^trxSize*2^trxSize+k*2^trxSize) % 2^aw = 0 :=
          Nat.mod_eq_zero_of_dvd (Nat.dvd_add (Nat.dvd_mul_left_of_dvd whole _) (Nat.dvd_mul_left_of_dvd whole _))
        rw [BitVec.toNat_ofNat,BitVec.toNat_ofNat,zero (i+1)]
        simpa using zero 1

theorem increments_iff_incr : Increments 32 (6 : BitVec 32) TrxSize.b32.ctorIdx 1 .incr ↔
    2^TrxSize.b32.ctorIdx ∣ (6 : BitVec 32).toNat ∨ 1 ≤ 1 ∨ 32 ≤ TrxSize.b32.ctorIdx :=
  increments_iff 32 6 .b32 1 .incr (Or.inl rfl) (by decide)

/-- After an unaligned start the third beat is at the address of the second. -/
theorem not_increments_unaligned : ¬Increments 32 (6 : BitVec 32) TrxSize.b32.ctorIdx 3 .incr4 := by
  intro right
  have third := right 2 (by decide)
  revert third
  decide

end Smtdv.Ahb
