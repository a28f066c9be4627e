import Smtdv.Ahb.SlaveSeq

/-! The slave memory under transfers narrower than the bus: which lanes are stored and loaded,
against the lanes that the bus assigns to an address. -/
namespace Smtdv.Ahb
open Memory

variable {aw dw : Nat}

/-- A byte lane of a beat; there is none past the width of the bus. -/
def laneByte (beat : Beat dw) (lane : Nat) : BitVec 8 := if inside : lane < dw/8 then beat ⟨lane,inside⟩ else 0

/-- The byte of a transfer that belongs at an address: one of the `2^trxSize` bytes from the
address of the beat, in the lane of that address. -/
def ahbByte (trxSize : Nat) (addr : BitVec aw) (beat : Beat dw) (other : BitVec aw) : Option (BitVec 8) :=
  if (other-addr).toNat < 2^trxSize then
    some (laneByte beat (addr.toNat % (dw/8)+(other-addr).toNat))
  else none

/-- The last of the beats that has a byte for an address. -/
def ahbLatest (trxSize : Nat) (beats : List (BitVec aw × Beat dw)) (other : BitVec aw) : Option (BitVec 8) :=
  beats.foldl (fun found beat => (ahbByte trxSize beat.1 beat.2 other).or found) none

/-- The write changes the bytes of its beats, each from its lane, and no others. -/
def StoresLanes (m : Memory aw) (item : SlaveItem aw dw) : Prop :=
  ∀ other, (midDoWriteItem m item).contents other =
    (ahbLatest item.trxSize.ctorIdx (item.addrs.zip item.dataBeat) other).getD (m.contents other)

/-- The read loads the bytes of its beats, each in its lane. -/
def LoadsLanes (m : Memory aw) (item : SlaveItem aw dw) : Prop :=
  List.Forall₂ (fun addr loaded => ∀ k < 2^item.trxSize.ctorIdx,
      loaded[addr.toNat % (dw/8)+k]? = some (m.contents (addr+BitVec.ofNat aw k)))
    item.addrs (midDoReadItem m item).2

/-- Writes and reads of this burst are right, whatever the data and the memory. -/
def NarrowBurst (dw : Nat) (addr : BitVec aw) (trxSize : TrxSize) (bstLen : Nat) (bstType : BstType) : Prop :=
  ∀ item : SlaveItem aw dw, item.addr = addr → item.trxSize = trxSize → item.bstLen = bstLen →
    item.bstType = bstType → item.addrs = burstAddrs addr trxSize.ctorIdx bstLen bstType →
    ∀ m : Memory aw, m.hasLock = false →
      (item.success = true → item.dataBeat.length = item.addrs.length → StoresLanes m item) ∧
      LoadsLanes m item

section

variable {addr : BitVec aw} {trxSize bstLen : Nat} {bstType : BstType}

theorem aligned_beatAddr (legal : LegalBurst addr trxSize bstLen bstType) (i : Nat) :
    2^trxSize ∣ (beatAddr addr trxSize bstLen bstType i).toNat := by
  have size : 2^trxSize ∣ 2^aw := by
    apply Nat.pow_dvd_pow
    apply (Nat.pow_le_pow_iff_right (a := 2) (by decide)).mp
    exact Nat.le_trans (Nat.le_mul_of_pos_right _ (by omega)) legal.fits
  have block : 2^trxSize ∣ 2^trxSize*(bstLen+1) := Nat.dvd_mul_right _ _
  unfold beatAddr
  split
  · rw [BitVec.toNat_ofNat,Nat.dvd_mod_iff size]
    apply Nat.dvd_add (Nat.dvd_mul_left_of_dvd block _)
    exact (Nat.dvd_mod_iff block).mpr (Nat.dvd_add legal.aligned (Nat.dvd_mul_left _ _))
  · rw [BitVec.toNat_add,BitVec.toNat_ofNat,Nat.add_mod_mod,Nat.dvd_mod_iff size]
    exact Nat.dvd_add legal.aligned (Nat.dvd_mul_left _ _)

theorem aligned_burstAddrs (legal : LegalBurst addr trxSize bstLen bstType) :
    ∀ beat ∈ burstAddrs addr trxSize bstLen bstType, 2^trxSize ∣ beat.toNat := by
  intro beat member
  obtain ⟨i,-,rfl⟩ := List.mem_map.mp member
  exact aligned_beatAddr legal i

/-- A transfer as wide as the bus uses all its lanes. -/
theorem covering_wide (wide : 2^trxSize = dw/8) (fits : 2^trxSize ≤ 2^aw)
    (aligned : 2^trxSize ∣ addr.toNat) (beat : Beat dw) (other : BitVec aw) :
    covering addr (List.ofFn beat) other = ahbByte trxSize addr beat other := by
  rw [covering_eq addr other _ (by rw [List.length_ofFn]; omega),ahbByte,List.getElem?_ofFn,wide]
  rw [wide] at aligned
  by_cases inside : (other-addr).toNat < dw/8
  · rw [dif_pos inside,if_pos inside,Nat.mod_eq_zero_of_dvd aligned,Nat.zero_add,laneByte,dif_pos inside]
  · rw [dif_neg inside,if_neg inside]

/-- A transfer narrower than the bus stores the byte after its last. -/
theorem covering_past (narrow : 2^trxSize < dw/8) (addr : BitVec aw) :
    covering addr (List.ofFn fun j : Fin (dw/8) => if 2^trxSize ≤ j.val then (1 : BitVec 8) else 0)
      (addr+BitVec.ofNat aw (2^trxSize)) = some 1 := by
  rcases coveringFrom_spec addr (addr+BitVec.ofNat aw (2^trxSize))
      (List.ofFn fun j : Fin (dw/8) => if 2^trxSize ≤ j.val then (1 : BitVec 8) else 0) 0
    with ⟨-,missed⟩ | ⟨j,byte,found,covered,-,last⟩
  · exact absurd (by rw [Nat.zero_add]) (missed (2^trxSize) (by rwa [List.length_ofFn]))
  · have past : 2^trxSize ≤ j := last _ (by rwa [List.length_ofFn]) (by rw [Nat.zero_add])
    rw [covering,covered]
    obtain ⟨inside,value⟩ := List.getElem?_eq_some_iff.mp found
    rw [List.getElem_ofFn,if_pos past] at value
    rw [value]

/-- Nothing but zeros is left at an address when every beat has a zero or nothing for it. -/
theorem ahbLatest_zero {beats : List (BitVec aw × Beat dw)} {other : BitVec aw}
    (zeros : ∀ beat ∈ beats, (ahbByte trxSize beat.1 beat.2 other).getD 0 = 0) :
    (ahbLatest trxSize beats other).getD 0 = 0 := by
  induction beats using List.reverseRecOn with
  | nil => rfl
  | append_singleton beats beat ih =>
    have last := zeros beat (by simp)
    have before := ih fun beat member => zeros beat (by simp [member])
    rw [ahbLatest,List.foldl_append,List.foldl_cons,List.foldl_nil]
    change ((ahbByte trxSize beat.1 beat.2 other).or (ahbLatest trxSize beats other)).getD 0 = 0
    cases found : ahbByte trxSize beat.1 beat.2 other with
    | none => exact before
    | some byte =>
      rw [found] at last
      exact last

theorem writes_eq (item : SlaveItem aw dw) (size : item.dataBeat.length = item.addrs.length) :
    item.writes = (item.addrs.zip item.dataBeat).map fun beat => (beat.1,List.ofFn beat.2) := by
  apply List.ext_getElem
  · simp [SlaveItem.writes,size]
  · intro i left right
    have inside : i < item.addrs.length := by simpa [SlaveItem.writes] using left
    have beat : i < item.dataBeat.length := by omega
    simp [SlaveItem.writes,List.getElem?_eq_getElem beat]

theorem latest_wide (wide : 2^trxSize = dw/8) (fits : 2^trxSize ≤ 2^aw)
    (beats : List (BitVec aw × Beat dw)) (aligned : ∀ beat ∈ beats, 2^trxSize ∣ beat.1.toNat)
    (other : BitVec aw) :
    latest (beats.map fun beat => (beat.1,List.ofFn beat.2)) other = ahbLatest trxSize beats other := by
  induction beats using List.reverseRecOn with
  | nil => rfl
  | append_singleton beats beat ih =>
    have before := ih fun beat member => aligned beat (by simp [member])
    have last := covering_wide wide fits (aligned beat (by simp)) beat.2 other
    simp only [latest,ahbLatest,List.map_append,List.foldl_append,List.map_cons,List.map_nil,
      List.foldl_cons,List.foldl_nil] at before ⊢
    rw [before,last]

/-- A write narrower than the bus overwrites the byte after the last of its burst. -/
theorem not_storesLanes (legal : LegalBurst addr trxSize bstLen bstType) (narrow : 2^trxSize < dw/8)
    (item : SlaveItem aw dw) (kind : item.trxSize.ctorIdx = trxSize)
    (addrs : item.addrs = burstAddrs addr trxSize bstLen bstType)
    (beats : item.dataBeat = List.replicate bstLen (fun _ => 0) ++
      [fun j => if 2^trxSize ≤ j.val then 1 else 0])
    (success : item.success = true) : ¬StoresLanes {} item := by
  intro stores
  have size : item.dataBeat.length = item.addrs.length := by simp [beats,addrs,burstAddrs]
  let last := beatAddr addr trxSize bstLen bstType bstLen
  have zip : item.addrs.zip item.dataBeat =
      ((List.range bstLen).map (beatAddr addr trxSize bstLen bstType)).zip
        (List.replicate bstLen (fun _ => 0)) ++ [(last,fun j => if 2^trxSize ≤ j.val then 1 else 0)] := by
    rw [addrs,beats,burstAddrs,List.range_succ,List.map_append,List.zip_append (by simp)]
    rfl
  have stored := stores (last+BitVec.ofNat aw (2^trxSize))
  have after := (midDoWriteItem_eq {} item success rfl).1 (last+BitVec.ofNat aw (2^trxSize))
  rw [writes_eq item size,zip,List.map_append,latest_append] at after
  have past := covering_past narrow last
  have one : latest [(last,List.ofFn fun j : Fin (dw/8) => if 2^trxSize ≤ j.val then (1 : BitVec 8) else 0)]
      (last+BitVec.ofNat aw (2^trxSize)) = some 1 := by
    rw [latest,List.foldl_cons,List.foldl_nil,past]
    rfl
  simp only [List.map_cons,List.map_nil] at after
  rw [one] at after
  have zero : (ahbLatest trxSize (item.addrs.zip item.dataBeat)
      (last+BitVec.ofNat aw (2^trxSize))).getD 0 = 0 := by
    apply ahbLatest_zero
    rw [zip]
    intro beat member
    rcases List.mem_append.mp member with early | final
    · have zeros := List.eq_of_mem_replicate (List.of_mem_zip early).2
      rw [ahbByte,zeros]
      split
      · simp [laneByte]
      · rfl
    · obtain rfl := List.mem_singleton.mp final
      rw [ahbByte]
      split
      · rename_i inside
        -- the burst would have to fill the address space with its one beat, at address 0
        have distance : (last+BitVec.ofNat aw (2^trxSize)-last).toNat = 2^trxSize % 2^aw := by
          rw [BitVec.add_comm,BitVec.add_sub_cancel,BitVec.toNat_ofNat]
        have room : 2^trxSize ≤ 2^aw :=
          Nat.le_trans (Nat.le_mul_of_pos_right _ (by omega)) legal.fits
        have whole : 2^trxSize = 2^aw := by
          by_contra apart
          rw [distance,Nat.mod_eq_of_lt (by omega)] at inside
          omega
        have bottom : last.toNat = 0 :=
          Nat.eq_zero_of_dvd_of_lt (aligned_beatAddr legal bstLen) (by rw [whole]; exact last.isLt)
        have positive : 0 < 2^trxSize := Nat.two_pow_pos _
        simp only [distance,bottom]
        rw [whole,Nat.mod_self,Nat.zero_mod]
        simp [laneByte]
      · rfl
  rw [kind,after] at stored
  have same : (1 : BitVec 8) = 0 := stored.trans zero
  exact absurd same (by decide)

/-- The bytes of a bus word, lowest address first. -/
def word (dw : Nat) (m : Memory aw) (addr : BitVec aw) : List (BitVec 8) :=
  (List.range (dw/8)).map fun j => m.contents (addr+BitVec.ofNat aw j)

theorem getElem?_word {m : Memory aw} {k : Nat} (inside : k < dw/8) (addr : BitVec aw) :
    (word dw m addr)[k]? = some (m.contents (addr+BitVec.ofNat aw k)) := by
  rw [word,List.getElem?_map,List.getElem?_range inside]
  rfl

/-- Words loaded are in the lanes of aligned addresses when they are the words there. -/
theorem lanes_iff {m : Memory aw} {addrs loaded : List (BitVec aw)}
    (aligned : ∀ addr ∈ addrs, dw/8 ∣ addr.toNat) :
    List.Forall₂ (fun addr bytes => ∀ k < dw/8,
        bytes[addr.toNat % (dw/8)+k]? = some (m.contents (addr+BitVec.ofNat aw k)))
      addrs (loaded.map (word dw m)) ↔ loaded.map (word dw m) = addrs.map (word dw m) := by
  induction addrs generalizing loaded with
  | nil => cases loaded <;> simp
  | cons addr addrs ih =>
    cases loaded with
    | nil => simp
    | cons load loaded =>
      obtain ⟨first,aligned⟩ := List.forall_mem_cons.mp aligned
      rw [List.map_cons,List.map_cons,List.forall₂_cons,List.cons.injEq,ih aligned]
      apply and_congr_left'
      rw [Nat.mod_eq_zero_of_dvd first]
      constructor
      · intro bytes
        apply List.ext_getElem?
        intro k
        by_cases inside : k < dw/8
        · rw [getElem?_word inside addr,← bytes k inside,Nat.zero_add]
        · rw [List.getElem?_eq_none (by simp [word]; omega),List.getElem?_eq_none (by simp [word]; omega)]
      · intro same k inside
        rw [same,Nat.zero_add,getElem?_word inside]

/-- A read as wide as the bus is right when `post_addr` leads to the words of its beats. -/
theorem loadsLanes_wide {m : Memory aw} {item : SlaveItem aw dw} (free : m.hasLock = false)
    (wide : 2^item.trxSize.ctorIdx = dw/8) (aligned : ∀ beat ∈ item.addrs, dw/8 ∣ beat.toNat) :
    LoadsLanes m item ↔
      (postAddr dw item.addr item.trxSize.ctorIdx item.bstLen item.bstType).map (word dw m) =
        item.addrs.map (word dw m) := by
  rw [LoadsLanes,(midDoReadItem_eq m item free).1,wide]
  exact lanes_iff aligned

theorem getElem?_burstAddrs {i : Nat} (small : i ≤ bstLen) :
    (burstAddrs addr trxSize bstLen bstType)[i]? = some (beatAddr addr trxSize bstLen bstType i) := by
  rw [burstAddrs,List.getElem?_map,List.getElem?_range (by omega)]
  rfl

theorem beatAddr_apart (legal : LegalBurst addr trxSize bstLen bstType) (wraps : bstType.wraps) :
    beatAddr addr trxSize bstLen bstType 1 ≠ beatAddr addr trxSize bstLen bstType 2 := by
  have long := legal.long wraps
  have positive : 0 < 2^trxSize := Nat.two_pow_pos _
  have size : 2^trxSize*4 ≤ 2^trxSize*(bstLen+1) := Nat.mul_le_mul_left _ (by omega)
  have high := legal.block_le wraps
  obtain ⟨fits,next⟩ := wrapped_step bstLen legal.aligned 1
  intro same
  simp only [beatAddr,wraps,if_true] at same
  rw [next] at same
  generalize addr.toNat/(2^trxSize*(bstLen+1))*(2^trxSize*(bstLen+1)) = base at *
  generalize (addr.toNat+1*2^trxSize) % (2^trxSize*(bstLen+1)) = offset at *
  generalize 2^trxSize*(bstLen+1) = block at *
  have values := congrArg BitVec.toNat same
  rw [BitVec.toNat_ofNat,BitVec.toNat_ofNat,Nat.mod_eq_of_lt (by omega),Nat.mod_eq_of_lt (by split <;> omega)]
    at values
  split at values <;> omega

/-- Reads go to the lower boundary from the second beat on when the block is at the top. -/
theorem not_loads_top (legal : LegalBurst addr trxSize bstLen bstType) (width : 0 < dw/8)
    (top : WrapsAtTop addr trxSize bstLen bstType) :
    ¬∀ m : Memory aw, m.hasLock = false →
      (postAddr dw addr trxSize bstLen bstType).map (word dw m) =
        (burstAddrs addr trxSize bstLen bstType).map (word dw m) := by
  intro loads
  have long := legal.long top.1
  let lower := BitVec.ofNat aw (addr.toNat/(2^trxSize*(bstLen+1))*(2^trxSize*(bstLen+1)))
  let m : Memory aw := {memory := fun other => if other = lower then some 1 else none}
  have marked (other : BitVec aw) : m.contents other = 1 ↔ other = lower := by
    by_cases same : other = lower <;> simp [contents,m,same]
  have beat (i : Nat) (small : i < bstLen) : beatAddr addr trxSize bstLen bstType (i+1) = lower := by
    have same := congrArg (·[i+1]?) (loads m rfl)
    simp only [List.getElem?_map] at same
    rw [postAddr_top dw legal top i small,getElem?_burstAddrs small,Option.map_some,Option.map_some,
      Option.some.injEq] at same
    have bytes := congrArg (·[0]?) same
    simp only [getElem?_word width,Option.some.injEq,BitVec.add_zero] at bytes
    exact (marked _).mp (bytes.symm.trans ((marked lower).mpr rfl))
  exact beatAddr_apart legal top.1 ((beat 0 (by omega)).trans (beat 1 (by omega)).symm)

end

/-- Transfers of a burst use the lanes of the bus exactly when they are as wide as the bus, and
do not wrap in the block at the top of the address space. -/
theorem narrowBurst_iff (dw : Nat) (addr : BitVec aw) (trxSize : TrxSize) (bstLen : Nat) (bstType : BstType)
    (legal : LegalBurst addr trxSize.ctorIdx bstLen bstType) (fits : 2^trxSize.ctorIdx ≤ dw/8) :
    NarrowBurst dw addr trxSize bstLen bstType ↔
      2^trxSize.ctorIdx = dw/8 ∧ ¬WrapsAtTop addr trxSize.ctorIdx bstLen bstType := by
  have positive : 0 < 2^trxSize.ctorIdx := Nat.two_pow_pos _
  have room : 2^trxSize.ctorIdx ≤ 2^aw :=
    Nat.le_trans (Nat.le_mul_of_pos_right _ (by omega)) legal.fits
  constructor
  · intro right
    have wide : 2^trxSize.ctorIdx = dw/8 := by
      by_contra narrow
      let item : SlaveItem aw dw :=
        { addr := addr, trxSize := trxSize, bstLen := bstLen, bstType := bstType, success := true
          addrs := burstAddrs addr trxSize.ctorIdx bstLen bstType
          dataBeat := List.replicate bstLen (fun _ => 0) ++
            [fun j => if 2^trxSize.ctorIdx ≤ j.val then 1 else 0] }
      apply not_storesLanes legal (by omega) item rfl rfl rfl rfl
      exact (right item rfl rfl rfl rfl rfl {} rfl).1 rfl (by simp [item,burstAddrs])
    refine ⟨wide,?_⟩
    intro top
    have width : 0 < dw/8 := by omega
    apply not_loads_top legal width top
    intro m free
    let item : SlaveItem aw dw :=
      { addr := addr, trxSize := trxSize, bstLen := bstLen, bstType := bstType
        addrs := burstAddrs addr trxSize.ctorIdx bstLen bstType }
    have aligned : ∀ beat ∈ item.addrs, dw/8 ∣ beat.toNat := by
      rw [← wide]
      exact aligned_burstAddrs legal
    have loads := (right item rfl rfl rfl rfl rfl m free).2
    rwa [loadsLanes_wide free wide aligned] at loads
  · rintro ⟨wide,below⟩ item rfl rfl rfl rfl addrs m free
    have aligned : ∀ beat ∈ item.addrs, 2^item.trxSize.ctorIdx ∣ beat.toNat := by
      rw [addrs]
      exact aligned_burstAddrs legal
    refine ⟨?_,?_⟩
    · intro success size other
      rw [(midDoWriteItem_eq m item success free).1 other,writes_eq item size,latest_wide wide room]
      intro beat member
      exact aligned beat.1 (List.of_mem_zip member).1
    · rw [loadsLanes_wide free wide (by rwa [← wide]),postAddr_eq dw legal below,addrs]

theorem narrowBurst_iff_wrap4 :
    NarrowBurst 32 (8 : BitVec 32) .b32 3 .wrap4 ↔
      2^TrxSize.b32.ctorIdx = 32/8 ∧ ¬WrapsAtTop (8 : BitVec 32) TrxSize.b32.ctorIdx 3 .wrap4 :=
  narrowBurst_iff 32 8 .b32 3 .wrap4
    ⟨by decide,by intro n beats; simpa [BstType.beats] using beats,by decide⟩ (by decide)

/-- A byte written at address 1 of a 32-bit bus takes the byte of lane 0, and its neighbour is
overwritten. -/
theorem not_narrowBurst_byte : ¬NarrowBurst 32 (1 : BitVec 32) .b8 0 .single := by
  intro right
  let item : SlaveItem 32 32 :=
    { addr := 1, trxSize := .b8, addrs := [1], dataBeat := [fun j => BitVec.ofNat 8 (j.val+1)]
      success := true }
  have stores := (right item rfl rfl rfl rfl (by decide) {} rfl).1 rfl rfl
  have lane : (midDoWriteItem {} item).contents 1 = 1 ∧ (midDoWriteItem {} item).contents 2 = 2 := by
    decide
  have neighbour := stores 2
  rw [lane.2] at neighbour
  revert neighbour
  decide

end Smtdv.Ahb
