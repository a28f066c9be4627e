import Smtdv.Ahb.StlSeq

/-! The items of `ahb_master_stl_seq` against the lines that they are made of. -/
namespace Smtdv.Ahb
open Lib Stl

variable {aw dw : Nat}

/-- The address of beat `i` of a burst of `k` beats from `start`: up from the start address rounded
down, and round the wrap window. -/
def transferAddr (aw trxSize k : Nat) (bstType : BstType) (start i : Nat) : Nat :=
  let numBytes := 2^trxSize
  let window := numBytes*k
  let aligned := start/numBytes*numBytes
  let lower := start/window*window
  if i = 0 then start
  else if bstType.wraps then (lower+(aligned-lower+i*numBytes) % window) % 2^aw
  else (aligned+i*numBytes) % 2^aw

section

variable {trxSize bstLen : Nat} {addr : BitVec aw} {bstType : BstType}

theorem lower_le (start trxSize k : Nat) : start/(2^trxSize*k)*(2^trxSize*k) ≤ start/2^trxSize*2^trxSize := by
  have low : start/(2^trxSize*k)*(2^trxSize*k) ≤ start := Nat.div_mul_le_self _ _
  have whole : 2^trxSize ∣ start/(2^trxSize*k)*(2^trxSize*k) := Nat.dvd_mul_left_of_dvd (Nat.dvd_mul_right _ _) _
  obtain ⟨m,multiple⟩ := whole
  rw [multiple] at low ⊢
  rw [Nat.mul_comm]
  exact Nat.mul_le_mul_right _ ((Nat.le_div_iff_mul_le (Nat.two_pow_pos _)).mpr (by rwa [Nat.mul_comm] at low))

/-- Up to multiples of two transfers, beat `i` is `i` transfers up, wrapping or not. -/
theorem transferAddr_mod (wide : trxSize < aw) (beats : bstType.beats = some (bstLen+1)) (start : Nat) {i : Nat}
    (later : i ≠ 0) : transferAddr aw trxSize (bstLen+1) bstType start i % 2^(trxSize+1) =
      (start/2^trxSize*2^trxSize+i*2^trxSize) % 2^(trxSize+1) := by
  have cut : 2^(trxSize+1) ∣ 2^aw := Nat.pow_dvd_pow 2 wide
  rw [transferAddr]
  simp only [if_neg later]
  split
  · next wraps =>
    obtain ⟨k,long,size⟩ := window_pow trxSize wraps beats
    have window : 2^(trxSize+1) ∣ 2^trxSize*(bstLen+1) := by
      rw [size]
      exact Nat.pow_dvd_pow 2 (by omega)
    have low := lower_le start trxSize (bstLen+1)
    rw [Nat.mod_mod_of_dvd _ cut,Nat.add_mod,Nat.mod_mod_of_dvd _ window,← Nat.add_mod]
    congr 1
    omega
  · exact Nat.mod_mod_of_dvd _ cut

theorem transferAddr_apart (wide : trxSize < aw) (beats : bstType.beats = some (bstLen+1)) (start : Nat) :
    transferAddr aw trxSize (bstLen+1) bstType start 1 % 2^(trxSize+1) ≠
      transferAddr aw trxSize (bstLen+1) bstType start 2 % 2^(trxSize+1) := by
  rw [transferAddr_mod wide beats start Nat.one_ne_zero,transferAddr_mod wide beats start (by decide : 2 ≠ 0),
    ← Nat.add_mul,← Nat.add_mul,Nat.pow_succ',Nat.mul_mod_mul_right,Nat.mul_mod_mul_right]
  intro same
  have parity := Nat.eq_of_mul_eq_mul_right (Nat.two_pow_pos trxSize) same
  omega

theorem postAddr_beats (dw : Nat) : (postAddr dw addr trxSize bstLen bstType).map BitVec.toNat =
      (List.range (bstLen+1)).map (transferAddr aw trxSize (bstLen+1) bstType addr.toNat) ↔
    ∀ i ≤ bstLen, ((nextAddr dw addr trxSize bstLen bstType)^[i] addr).toNat =
      transferAddr aw trxSize (bstLen+1) bstType addr.toNat i := by
  rw [postAddr,← List.range_map_iterate,List.map_map,List.map_inj_left]
  refine forall_congr' fun i => ?_
  rw [List.mem_range,Nat.lt_succ_iff]
  rfl

theorem stuck_apart (dw : Nat) (wide : trxSize < aw) (beats : bstType.beats = some (bstLen+1)) (long : 2 ≤ bstLen)
    (stuck : ((nextAddr dw addr trxSize bstLen bstType)^[1] addr).toNat % 2^(trxSize+1) =
      ((nextAddr dw addr trxSize bstLen bstType)^[2] addr).toNat % 2^(trxSize+1)) :
    ¬∀ i ≤ bstLen, ((nextAddr dw addr trxSize bstLen bstType)^[i] addr).toNat =
      transferAddr aw trxSize (bstLen+1) bstType addr.toNat i := by
  intro right
  rw [right 1 (by omega),right 2 long] at stuck
  exact transferAddr_apart wide beats addr.toNat stuck

theorem unaligned_stuck (dw : Nat) (wide : trxSize < aw) (small : trxSize < 32) (unaligned : ¬2^trxSize ∣ addr.toNat) :
    ((nextAddr dw addr trxSize bstLen bstType)^[1] addr).toNat % 2^(trxSize+1) =
      ((nextAddr dw addr trxSize bstLen bstType)^[2] addr).toNat % 2^(trxSize+1) := by
  have low (other : BitVec aw) : (nextAddr dw addr trxSize bstLen bstType other).toNat % 2^(trxSize+1) =
      (addr.toNat/2^trxSize*2^trxSize+2^trxSize) % 2^(trxSize+1) := by
    have bits := congrArg BitVec.toNat (nextAddr_low dw bstLen bstType unaligned other)
    rw [BitVec.toNat_setWidth,BitVec.toNat_ofNat] at bits
    have cut : 2^(trxSize+1) ∣ 2^(min aw 32) := Nat.pow_dvd_pow 2 (by omega)
    rw [← Nat.mod_mod_of_dvd _ cut,bits,Nat.mod_mod_of_dvd _ cut]
  rw [Function.iterate_succ_apply' _ 0,Function.iterate_succ_apply' _ 1,low,low]

/-- Where one transfer covers the address space, every beat after the first is at address 0. -/
theorem covering_right (dw : Nat) (covers : aw ≤ trxSize) (small : trxSize < 32) (i : Nat) :
    ((nextAddr dw addr trxSize bstLen bstType)^[i] addr).toNat =
      transferAddr aw trxSize (bstLen+1) bstType addr.toNat i := by
  have whole : 2^aw ∣ 2^trxSize := Nat.pow_dvd_pow 2 covers
  have zero {x : Nat} (multiple : 2^trxSize ∣ x) : x % 2^aw = 0 := Nat.mod_eq_zero_of_dvd (whole.trans multiple)
  cases i with
  | zero => rfl
  | succ i =>
    have expected : transferAddr aw trxSize (bstLen+1) bstType addr.toNat (i+1) = 0 := by
      have aligned : 2^trxSize ∣ addr.toNat/2^trxSize*2^trxSize := Nat.dvd_mul_left _ _
      have lower : 2^trxSize ∣ addr.toNat/(2^trxSize*(bstLen+1))*(2^trxSize*(bstLen+1)) :=
        Nat.dvd_mul_left_of_dvd (Nat.dvd_mul_right _ _) _
      have up : 2^trxSize ∣ (i+1)*2^trxSize := Nat.dvd_mul_left _ _
      rw [transferAddr]
      simp only [if_neg (Nat.succ_ne_zero i)]
      split
      · refine zero (Nat.dvd_add lower ?_)
        exact (Nat.dvd_mod_iff (Nat.dvd_mul_right _ _)).mpr (Nat.dvd_add (Nat.dvd_sub aligned lower) up)
      · exact zero (Nat.dvd_add aligned up)
    rw [expected]
    by_cases aligned : 2^trxSize ∣ addr.toNat
    · have multiple : 2^trxSize ∣ ((nextAddr dw addr trxSize bstLen bstType)^[i+1] addr).toNat :=
        iterate_dvd dw aligned (i+1)
      exact Nat.eq_zero_of_dvd_of_lt multiple ((BitVec.isLt _).trans_le (Nat.pow_le_pow_right (by decide) covers))
    · rw [iterate_covering dw bstLen bstType (by omega) aligned,BitVec.toNat_ofNat]
      exact zero (Nat.dvd_add (Nat.dvd_mul_left _ _) (Nat.dvd_refl _))

/-- The window of a burst ends below the top of the address space if it wraps. -/
def WindowBelow (aw trxSize k : Nat) (bstType : BstType) (start : Nat) : Prop :=
  bstType.wraps → start/(2^trxSize*k)*(2^trxSize*k)+2^trxSize*k < 2^aw

theorem aligned_right (dw : Nat) (beats : bstType.beats = some (bstLen+1)) (aligned : 2^trxSize ∣ addr.toNat)
    (below : WindowBelow aw trxSize (bstLen+1) bstType addr.toNat) :
    (postAddr dw addr trxSize bstLen bstType).map BitVec.toNat =
      (List.range (bstLen+1)).map (transferAddr aw trxSize (bstLen+1) bstType addr.toNat) := by
  have start : addr.toNat/2^trxSize*2^trxSize = addr.toNat := Nat.div_mul_cancel aligned
  by_cases wraps : bstType.wraps
  · have below := below wraps
    have legal : LegalBurst addr trxSize bstLen bstType :=
      ⟨aligned,fun n known => Option.some.inj (beats.symm.trans known),by omega⟩
    rw [postAddr_eq dw legal fun top => absurd top.2 (by omega),burstAddrs,List.map_map]
    refine List.map_congr_left fun i _ => ?_
    have round := beatAddr_round legal wraps i
    rw [Function.comp_apply,round,transferAddr]
    simp only [start,if_pos wraps]
    have low : addr.toNat/(2^trxSize*(bstLen+1))*(2^trxSize*(bstLen+1)) ≤ addr.toNat := Nat.div_mul_le_self _ _
    have positive : 0 < 2^trxSize*(bstLen+1) := Nat.mul_pos (Nat.two_pow_pos _) (by omega)
    have high : addr.toNat < addr.toNat/(2^trxSize*(bstLen+1))*(2^trxSize*(bstLen+1))+2^trxSize*(bstLen+1) :=
      Nat.lt_div_mul_add positive
    split
    · next zero =>
      rw [zero,Nat.zero_mul,Nat.add_zero,Nat.mod_eq_of_lt (by omega)]
      omega
    · have inside := Nat.mod_lt (addr.toNat-addr.toNat/(2^trxSize*(bstLen+1))*(2^trxSize*(bstLen+1))+i*2^trxSize)
        positive
      exact (Nat.mod_eq_of_lt (by omega)).symm
  · have noWrap : bstType.wraps = false := by simpa using wraps
    rw [postAddr_beats]
    intro i _
    rw [iterate_aligned dw bstLen noWrap aligned,BitVec.toNat_ofNat,transferAddr]
    simp only [start,if_neg wraps]
    split
    · next zero => rw [zero,Nat.zero_mul,Nat.add_zero,Nat.mod_eq_of_lt addr.isLt]
    · rfl

/-- The addresses of a burst of a fixed length are right exactly when it has one beat, when one transfer
covers the address space, or when it is aligned and does not wrap at the top of the address space. -/
theorem postAddr_transfer_iff (dw : Nat) (addr : BitVec aw) (small : trxSize < 32) (beats : bstType.beats = some (bstLen+1)) :
    (postAddr dw addr trxSize bstLen bstType).map BitVec.toNat =
        (List.range (bstLen+1)).map (transferAddr aw trxSize (bstLen+1) bstType addr.toNat) ↔
      bstLen = 0 ∨ aw ≤ trxSize ∨
        (2^trxSize ∣ addr.toNat ∧ WindowBelow aw trxSize (bstLen+1) bstType addr.toNat) := by
  constructor
  · intro right
    rw [postAddr_beats] at right
    by_contra wrong
    obtain ⟨long,wrong⟩ := not_or.mp wrong
    obtain ⟨wide,wrong⟩ := not_or.mp wrong
    have wide : trxSize < aw := Nat.lt_of_not_le wide
    have long : 2 ≤ bstLen := by
      cases bstType <;> simp [BstType.beats] at beats <;> omega
    refine stuck_apart dw wide beats long ?_ right
    by_cases aligned : 2^trxSize ∣ addr.toNat
    · have above : ¬WindowBelow aw trxSize (bstLen+1) bstType addr.toNat := fun below => wrong ⟨aligned,below⟩
      rw [WindowBelow,Classical.not_imp] at above
      obtain ⟨wraps,high⟩ := above
      have past := window_over wraps beats aligned (Nat.le_of_not_lt high)
      rw [Function.iterate_succ_apply' _ 0,Function.iterate_succ_apply' _ 1,
        nextAddr_overflow dw aligned wraps past,nextAddr_overflow dw aligned wraps past]
    · exact unaligned_stuck dw wide small aligned
  · rintro (rfl | covers | ⟨aligned,below⟩)
    · rfl
    · exact (postAddr_beats dw).mpr fun i _ => covering_right dw covers small i
    · exact aligned_right dw beats aligned below

end

/-- The burst type and the transfer size of a line. -/
def lineBstType (body : SubBodyStmt) : BstType := bstTypeOf body.transfer.getBstType

def lineTrxSize (body : SubBodyStmt) : Nat := (trxSizeOf body.transfer.getTrxSize).ctorIdx

/-- A line has as many data columns as its burst type has beats. -/
def Counted (body : SubBodyStmt) : Prop := ∀ n, (lineBstType body).beats = some n → body.columns.length = n

instance (body : SubBodyStmt) : Decidable (Counted body) :=
  inferInstanceAs (Decidable (∀ n ∈ (lineBstType body).beats, body.columns.length = n))

/-- The item has the beats of the line: its columns, at the addresses of its burst. -/
structure StlItem.Plays (item : StlItem aw dw) (body : SubBodyStmt) : Prop where
  data : item.dataBeat.map beatValue = body.columns.map TIdentifier.value
  addrs : item.addrs.map BitVec.toNat = (List.range body.columns.length).map
    (transferAddr aw (lineTrxSize body) body.columns.length (lineBstType body) body.addr.value)

/-- The lines that the sequence plays: of `INCR` only those with one column. -/
structure Playable (aw dw : Nat) (body : SubBodyStmt) : Prop where
  beats : lineBstType body = .incr → body.columns.length = 1
  byte : dw/8 ≠ 0
  addr : FitsBits aw body.addr.value
  data : ∀ column ∈ body.columns, FitsBits (dw/8*8) column.value
  burst : body.columns.length = 1 ∨ aw ≤ lineTrxSize body ∨ (2^lineTrxSize body ∣ body.addr.value ∧
    WindowBelow aw (lineTrxSize body) body.columns.length (lineBstType body) body.addr.value)

theorem columns_pos (body : SubBodyStmt) : 0 < body.columns.length := by
  have plain (data : DataNoByten) : 0 < data.columns.length := by cases data <;> simp [DataNoByten.columns]
  cases body with
  | ahb body => exact plain body.data
  | apb body => exact plain body.data
  | xbus body =>
    rw [SubBodyStmt.columns,List.length_map]
    cases body.data <;> simp [DataHasByten.columns]

theorem lineTrxSize_lt (body : SubBodyStmt) : lineTrxSize body < 32 := by
  have all (trxSize : TrxSize) : trxSize.ctorIdx < 32 := by cases trxSize <;> decide
  exact all _

theorem beatValue_column (column : TIdentifier) :
    beatValue (packData ((dpiHexstr2Longint column.text).signExtend dw)) = column.value ↔
      FitsBits (dw/8*8) column.value := by
  have bytes : 256^(dw/8) = 2^(dw/8*8) := by rw [Nat.mul_comm,Nat.pow_mul]
  rw [beatValue_packData,bytes]
  exact signExtend_value (Nat.div_mul_le_self dw 8) column.text

theorem start_value (column : TIdentifier) :
    ((dpiHexstr2Longint column.text).signExtend aw).toNat = column.value ↔ FitsBits aw column.value := by
  have value := signExtend_value (Nat.le_refl aw) column.text
  rwa [Nat.mod_eq_of_lt (BitVec.isLt _)] at value

/-- The beats that `bst_len` counts are those of the line, save for an `INCR` of several. -/
theorem getBstLen_line (aw : Nat) {body : SubBodyStmt} (counted : Counted body) :
    getBstLen (lineBstType body) ([] : List (BitVec aw)) < body.columns.length ∧
      (getBstLen (lineBstType body) ([] : List (BitVec aw))+1 = body.columns.length ↔
        (lineBstType body = .incr → body.columns.length = 1)) := by
  have filled := columns_pos body
  cases fixed : (lineBstType body).beats with
  | some n =>
    have len : getBstLen (lineBstType body) ([] : List (BitVec aw))+1 = body.columns.length :=
      (getBstLen_beats fixed).trans (counted n fixed).symm
    refine ⟨by omega,fun _ incr => ?_,fun _ => len⟩
    rw [incr] at fixed
    contradiction
  | none =>
    have incr : lineBstType body = .incr := BstType.beats_eq_none.mp fixed
    have len : getBstLen (lineBstType body) ([] : List (BitVec aw)) = 0 := by rw [incr]; rfl
    rw [len]
    exact ⟨filled,fun one _ => one.symm,fun one => (one incr).symm⟩

theorem data_iff {columns : List TIdentifier} (filled : columns ≠ []) :
    (if dw/8 = 0 then [] else columns.map fun column => packData ((dpiHexstr2Longint column.text).signExtend dw) :
        List (Beat dw)).map beatValue = columns.map TIdentifier.value ↔
      dw/8 ≠ 0 ∧ ∀ column ∈ columns, FitsBits (dw/8*8) column.value := by
  by_cases none : dw/8 = 0
  · rw [if_pos none,List.map_nil]
    refine iff_of_false (fun same => filled ?_) fun both => both.1 none
    exact List.map_eq_nil_iff.mp same.symm
  · rw [if_neg none,List.map_map,List.map_inj_left]
    simp only [Function.comp_apply,beatValue_column]
    exact ⟨fun fits => ⟨none,fits⟩,fun both => both.2⟩

theorem addrs_iff (dw : Nat) {body : SubBodyStmt} (counted : Counted body) {start : BitVec aw} {bstLen : Nat}
    (size : bstLen+1 = body.columns.length) (value : start.toNat = body.addr.value)
    (one : lineBstType body = .incr → body.columns.length = 1) :
    (postAddr dw start (lineTrxSize body) bstLen (lineBstType body)).map BitVec.toNat =
        (List.range body.columns.length).map
          (transferAddr aw (lineTrxSize body) body.columns.length (lineBstType body) body.addr.value) ↔
      body.columns.length = 1 ∨ aw ≤ lineTrxSize body ∨ (2^lineTrxSize body ∣ body.addr.value ∧
        WindowBelow aw (lineTrxSize body) body.columns.length (lineBstType body) body.addr.value) := by
  cases fixed : (lineBstType body).beats with
  | some n =>
    have beats : (lineBstType body).beats = some (bstLen+1) := by rw [fixed,← counted n fixed,size]
    have right := postAddr_transfer_iff dw start (lineTrxSize_lt body) beats
    rw [size,value] at right
    have single : bstLen = 0 ↔ body.columns.length = 1 := by omega
    rw [right,single]
  | none =>
    have incr : lineBstType body = .incr := BstType.beats_eq_none.mp fixed
    have none : bstLen = 0 := by
      have one := one incr
      omega
    refine iff_of_true ?_ (.inl (one incr))
    rw [one incr,none,← value]
    rfl

theorem first_addr (dw : Nat) {body : SubBodyStmt} {start : BitVec aw} {bstLen : Nat}
    (addrs : (postAddr dw start (lineTrxSize body) bstLen (lineBstType body)).map BitVec.toNat =
      (List.range body.columns.length).map
        (transferAddr aw (lineTrxSize body) body.columns.length (lineBstType body) body.addr.value)) :
    bstLen+1 = body.columns.length ∧ start.toNat = body.addr.value := by
  have size := congrArg List.length addrs
  have first := congrArg (fun values => values[0]?) addrs
  rw [List.length_map,postAddr,List.length_iterate,List.length_map,List.length_range] at size
  simp only [List.getElem?_map,postAddr_get (Nat.zero_le bstLen)] at first
  rw [List.getElem?_range (by omega),Option.map_some,Option.map_some] at first
  exact ⟨size,Option.some.inj first⟩

theorem plays_iff (aw dw : Nat) {body : SubBodyStmt} (counted : Counted body) : ∃ item : StlItem aw dw,
    StlItem.build body.transfer = some item ∧ (item.Plays body ↔ Playable aw dw body) := by
  obtain ⟨short,whole⟩ := getBstLen_line aw counted
  obtain ⟨item,built,addrs,data⟩ := StlItem.build_line dw body short
  refine ⟨item,built,?_⟩
  have filled : body.columns ≠ [] := List.ne_nil_of_length_pos (columns_pos body)
  constructor
  · intro plays
    have right := plays.addrs
    rw [addrs] at right
    obtain ⟨size,value⟩ := first_addr dw right
    have one := whole.mp size
    have fits := plays.data
    rw [data,size,List.take_length,data_iff filled] at fits
    exact ⟨one,fits.1,(start_value body.addr).mp value,fits.2,(addrs_iff dw counted size value one).mp right⟩
  · intro playable
    have size := whole.mpr playable.beats
    have value := (start_value body.addr).mpr playable.addr
    refine ⟨?_,?_⟩
    · rw [data]
      change (if dw/8 = 0 then [] else (body.columns.take
        (getBstLen (lineBstType body) ([] : List (BitVec aw))+1)).map _ : List (Beat dw)).map beatValue = _
      rw [size,List.take_length,data_iff filled]
      exact ⟨playable.byte,playable.data⟩
    · rw [addrs]
      exact (addrs_iff dw counted size value playable.beats).mpr playable.burst

theorem mapM_get {α β : Type*} {f : α → Option β} {xs : List α} (all : ∀ x ∈ xs, (f x).isSome) :
    ∃ ys : List β, xs.mapM f = some ys ∧ ∀ (n : Nat) (x : α), xs[n]? = some x → ys[n]? = f x := by
  induction xs with
  | nil => exact ⟨[],rfl,fun n x here => by simp at here⟩
  | cons x xs ih =>
    obtain ⟨first,rest⟩ := List.forall_mem_cons.mp all
    obtain ⟨y,head⟩ := Option.isSome_iff_exists.mp first
    obtain ⟨ys,tail,later⟩ := ih rest
    refine ⟨y::ys,by simp [List.mapM_cons,head,tail],fun n z here => ?_⟩
    cases n with
    | zero =>
      obtain rfl := Option.some.inj here
      exact head.symm
    | succ n => exact later n z here

/-- Of a file whose lines all have the columns of their burst types, the item of a line has the beats of
the line exactly when the sequence can play it. -/
theorem preBody_plays_iff (program : Program) (counted : ∀ body ∈ program.bodies, Counted body) {n : Nat}
    {body : SubBodyStmt} (line : program.bodies[n]? = some body) : ∃ (pool : List (StlItem aw dw)) (item : StlItem aw dw),
      StlItem.preBody aw dw program = some pool ∧ pool[n]? = some item ∧ (item.Plays body ↔ Playable aw dw body) := by
  have lines : program.bodies ≠ [] := List.ne_nil_of_mem (List.mem_of_getElem? line)
  have all (other : SubBodyStmt) (inside : other ∈ program.bodies) :
      (StlItem.build other.transfer : Option (StlItem aw dw)).isSome := by
    obtain ⟨item,built,-⟩ := plays_iff aw dw (counted other inside)
    exact Option.isSome_of_eq_some built
  obtain ⟨pool,built_all,at_line⟩ := mapM_get all
  obtain ⟨item,built,plays⟩ := plays_iff aw dw (counted body (List.mem_of_getElem? line))
  refine ⟨pool,item,?_,?_,plays⟩
  · rw [StlItem.preBody_eq program lines]
    exact built_all
  · rw [at_line n body line,built]

def hexWord (text : List Char) (hex : text ≠ [] ∧ text.all isTChar) : TIdentifier := ⟨text,hex.1,hex.2⟩

def plainWord (text : List Char) (plain : text ≠ [] ∧ text.all isSChar ∧ text.all isTChar = false ∧
    ∀ word ∈ Keyword.all, text ≠ word.text.toList) : SIdentifier :=
  ⟨text,plain.1,plain.2.1,plain.2.2.1,plain.2.2.2⟩

/-- A line of words at address 10. -/
def wordLine (bstType : SIdentifier) (data : DataNoByten) : SubBodyStmt := .ahb
  { beginCycle := hexWord ['2'] (by decide)
    endCycle := hexWord ['4'] (by decide)
    beginTime := hexWord ['1','9'] (by decide)
    endTime := hexWord ['2','d'] (by decide)
    id := hexWord ['0'] (by decide)
    rw := plainWord ['w'] (by decide)
    bstType := bstType
    trxSize := plainWord ['B','3','2'] (by decide)
    trxPrt := plainWord ['U','S','E','R','_','A','C','C','E','S','S'] (by decide)
    lock := hexWord ['1'] (by decide)
    resp := plainWord ['O','K','A','Y'] (by decide)
    addr := hexWord ['1','0'] (by decide)
    data := data }

def oneLine (body : SubBodyStmt) : Program := ⟨plainWord ['m'] (by decide),[.header .ahb,.body body]⟩

/-- A burst of a fixed length. -/
def incr4Line : SubBodyStmt := wordLine (plainWord ['I','N','C','R','4'] (by decide))
  (.more (.more (.more (.single (hexWord ['1','1'] (by decide))) (hexWord ['2','2'] (by decide)))
    (hexWord ['3','3'] (by decide))) (hexWord ['4','4'] (by decide)))

theorem incr4Line_plays : ∃ (pool : List (StlItem 32 32)) (item : StlItem 32 32),
    StlItem.preBody 32 32 (oneLine incr4Line) = some pool ∧ pool[0]? = some item ∧ item.Plays incr4Line := by
  obtain ⟨pool,item,filled,here,plays⟩ := preBody_plays_iff (oneLine incr4Line) (by decide) (n := 0) rfl
  refine ⟨pool,item,filled,here,plays.mpr ⟨by decide,by decide,by decide,by decide,.inr (.inr ⟨by decide,?_⟩)⟩⟩
  exact fun wraps => absurd wraps (by decide)

/-- An undefined-length burst of two beats. -/
def incrLine : SubBodyStmt := wordLine (plainWord ['I','N','C','R'] (by decide))
  (.more (.single (hexWord ['1','1'] (by decide))) (hexWord ['2','2'] (by decide)))

/-- Its item has one beat. -/
theorem incrLine_not_plays : (∀ body ∈ (oneLine incrLine).bodies, Counted body) ∧
    ¬∃ (pool : List (StlItem 32 32)) (item : StlItem 32 32),
      StlItem.preBody 32 32 (oneLine incrLine) = some pool ∧ pool[0]? = some item ∧ item.Plays incrLine := by
  refine ⟨by decide,?_⟩
  rintro ⟨pool,item,filled,here,plays⟩
  have counted : Counted incrLine := by decide
  obtain ⟨made,built,right⟩ := plays_iff 32 32 counted
  have lines : (oneLine incrLine).bodies = [incrLine] := rfl
  rw [StlItem.preBody_eq _ (by decide),lines,List.mapM_cons,built,List.mapM_nil] at filled
  obtain rfl := Option.some.inj filled
  obtain rfl := Option.some.inj here
  exact absurd ((right.mp plays).beats (by decide)) (by decide)

end Smtdv.Ahb
