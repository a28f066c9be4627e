import Smtdv.Uart.Frame

/-! The item that the monitor collects from the frame of an item. -/
namespace Smtdv.Uart
open Lib

variable {dw : Nat}

def payload (cfg : UartCfg) (item : UartItem dw) : List Bool := (List.range cfg.charLenVal).map item.unpackData

def goodParity (cfg : UartCfg) (item : UartItem dw) : Bool := parityOfMode cfg.parityMode (parity (payload cfg item))

/-- The bits that `calc_parity` reduces besides the payload. -/
def unsentBits (cfg : UartCfg) (item : UartItem dw) : List Bool :=
  (List.range (parityLanes dw cfg.charLenVal)).flatMap fun idx =>
    (bitsOf (item.lane idx)).drop (if idx < cfg.charLenVal then 1 else 0)

/-- What was collected is the item that was driven, and nothing is left of its frame. -/
structure Decoded (cfg : UartCfg) (item : UartItem dw) (s : Collecting dw) (rest : List Bool) : Prop where
  payload : payload cfg s.item = payload cfg item
  parity : cfg.parityEn = 1 → s.item.parity = goodParity cfg item
  stops : ∀ i < cfg.stopBitVal, s.item.stopBits.getLsbD i = item.stopBits.getLsbD i
  noError : s.errors = 0
  bits : rest = []

/-- The frame of the item, on a line that was idle, is decoded. -/
def RoundTrip (cfg : UartCfg) (item : UartItem dw) : Prop :=
  ∃ s rest, collect dw cfg (levels true (frame cfg item)) = some (s,rest) ∧ Decoded cfg item s rest

theorem charLenVal_bounds (cfg : UartCfg) : 5 ≤ cfg.charLenVal ∧ cfg.charLenVal ≤ 8 := by
  unfold UartCfg.charLenVal
  split <;> decide

theorem bit_cases : ∀ b : BitVec 1, b = 0 ∨ b = 1 := by decide

theorem levels_append (level : Bool) (sent : List Bool) (rest : List (Option Bool)) :
    levels level (sent.map some ++ rest) = sent ++ levels (sent.getLastD level) rest := by
  induction sent generalizing level with
  | nil => rfl
  | cons bit sent ih => rw [List.map_cons,List.cons_append,levels,Option.getD_some,ih,List.cons_append,List.getLastD_cons]

theorem driveItem_data (cfg : UartCfg) (item : UartItem dw) (turns d r : Nat) (size : r+d = cfg.charLenVal) :
    driveItem cfg item (turns+d) (r+1) =
      ((List.range' r d).map item.unpackData).map some ++ driveItem cfg item turns (1+cfg.charLenVal) := by
  induction d generalizing r with
  | zero =>
    obtain rfl : r = cfg.charLenVal := size
    rw [Nat.add_comm 1]
    rfl
  | succ d ih =>
    rw [← Nat.add_assoc,driveItem,if_pos (by omega),if_neg (by omega)]
    simp only [if_neg (Nat.succ_ne_zero r),if_pos (show r+1 < 1+cfg.charLenVal by omega),Nat.add_sub_cancel]
    rw [ih (r+1) (by omega),List.range'_succ]
    rfl

def trailer (cfg : UartCfg) (item : UartItem dw) : List (Option Bool) :=
  (if cfg.parityEn = 1 then [some (item.calcParity cfg.charLenVal cfg.parityMode)] else []) ++
    [if cfg.nbstop = 1 then some (if item.errorBits.getLsbD 0 then false else item.stopBits.getLsbD 0) else none]

theorem driveItem_trailer (cfg : UartCfg) (item : UartItem dw) :
    driveItem cfg item (1+cfg.parityEn.toNat+cfg.nbstop.toNat) (1+cfg.charLenVal) = trailer cfg item := by
  have positive : cfg.charLenVal ≠ 0 := by have := charLenVal_bounds cfg; omega
  have past : ¬1+cfg.charLenVal+1 ≤ 1+cfg.charLenVal := by omega
  have room : 1+cfg.charLenVal ≤ 1+cfg.charLenVal+1+1 := by omega
  rcases bit_cases cfg.parityEn with noParity | parity <;> rcases bit_cases cfg.nbstop with noStop | stop <;>
    simp [*,trailer,driveItem]

theorem frame_eq (cfg : UartCfg) (item : UartItem dw) :
    frame cfg item = (item.startBit::payload cfg item).map some ++ trailer cfg item := by
  have turns : 2+cfg.charLenVal+cfg.parityEn.toNat+cfg.nbstop.toNat =
      1+cfg.parityEn.toNat+cfg.nbstop.toNat+cfg.charLenVal+1 := by omega
  rw [frame,turns,driveItem,if_pos (Nat.zero_le _),if_neg (by omega)]
  simp only [if_true]
  rw [driveItem_data cfg item _ _ 0 (Nat.zero_add _),driveItem_trailer,payload,List.range_eq_range']
  rfl

def received (item : UartItem dw) (r : Nat) : UartItem dw :=
  {dataBeat := if r = 0 then [] else [fun i => if i.val < r then (BitVec.ofBool (item.unpackData i)).setWidth 8 else 0]}

theorem received_lane (item : UartItem dw) (r idx : Nat) :
    (received item r).lane idx = if idx < r then (BitVec.ofBool (item.unpackData idx)).setWidth 8 else 0 := by
  unfold UartItem.lane UartItem.beat received
  by_cases inside : idx < dw/8
  · rw [dif_pos inside]
    by_cases none : r = 0
    · simp only [none,if_true,List.headD_nil,Nat.not_lt_zero,if_false]
      rfl
    · simp only [none,if_false,List.headD_cons]
  · rw [dif_neg inside]
    have past : item.unpackData idx = false := by rw [UartItem.unpackData,UartItem.lane,dif_neg inside]; rfl
    rw [past]
    split <;> rfl

theorem received_unpackData (item : UartItem dw) (r idx : Nat) :
    (received item r).unpackData idx = (decide (idx < r) && item.unpackData idx) := by
  rw [UartItem.unpackData,received_lane]
  by_cases inside : idx < r
  · rw [if_pos inside,decide_eq_true inside]
    cases item.unpackData idx <;> rfl
  · rw [if_neg inside,decide_eq_false inside]
    rfl

theorem received_packData (item : UartItem dw) (r : Nat) :
    (received item r).packData r (item.unpackData r) = received item (r+1) := by
  have beats : (received item r).dataBeat.tail = [] := by
    unfold received
    split <;> rfl
  have old (i : Fin (dw/8)) : (received item r).beat i =
      if i.val < r then (BitVec.ofBool (item.unpackData i)).setWidth 8 else 0 := by
    rw [← received_lane item r i,UartItem.lane,dif_pos i.isLt]
  simp only [UartItem.packData,beats,old]
  rw [received,received,if_neg (Nat.succ_ne_zero r)]
  congr 2
  funext i
  by_cases last : i.val = r
  · rw [if_pos last,if_pos (by omega),last]
  · rw [if_neg last]
    by_cases before : i.val < r
    · rw [if_pos before,if_pos (by omega)]
    · rw [if_neg before,if_neg (by omega)]

theorem collectItem_data (cfg : UartCfg) (item : UartItem dw) (turns d r : Nat) (size : r+d = cfg.charLenVal)
    (rest : List Bool) :
    collectItem cfg (turns+d) {rcvd := r, item := received item r} ((List.range' r d).map item.unpackData ++ rest) =
      collectItem cfg turns {rcvd := cfg.charLenVal, item := received item cfg.charLenVal} rest := by
  induction d generalizing r with
  | zero =>
    obtain rfl : r = cfg.charLenVal := size
    rfl
  | succ d ih =>
    have bit : Collecting.bit cfg {rcvd := r, item := received item r} (item.unpackData r) =
        {rcvd := r+1, item := received item (r+1)} := by
      simp only [Collecting.bit,if_pos (show r+1 ≤ cfg.charLenVal by omega),Nat.add_sub_cancel,received_packData]
      rw [if_neg (by omega)]
    rw [← Nat.add_assoc,List.range'_succ,List.map_cons,List.cons_append,collectItem,if_pos (by simp only; omega)]
    simp only [bit]
    rw [if_neg (by omega)]
    exact ih (r+1) (by omega)

theorem calcParity_good (cfg : UartCfg) (item : UartItem dw) (good : item.parityType = .good) :
    item.calcParity cfg.charLenVal cfg.parityMode =
      parityOfMode cfg.parityMode (xor (parity (payload cfg item)) (parity (unsentBits cfg item))) := by
  have lanes (idx : Nat) : parity (bitsOf (item.lane idx)) =
      xor (decide (idx < cfg.charLenVal) && item.unpackData idx)
        (parity ((bitsOf (item.lane idx)).drop (if idx < cfg.charLenVal then 1 else 0))) := by
    by_cases inside : idx < cfg.charLenVal
    · rw [decide_eq_true inside,if_pos inside]
      rfl
    · rw [decide_eq_false inside,if_neg inside]
      simp
  have sent : parity ((List.range (parityLanes dw cfg.charLenVal)).map fun idx =>
      decide (idx < cfg.charLenVal) && item.unpackData idx) = parity (payload cfg item) := by
    rw [payload]
    trans parity ((List.range cfg.charLenVal).map fun idx => decide (idx < cfg.charLenVal) && item.unpackData idx)
    · apply parity_range_eq
      intro idx past
      by_cases inside : idx < cfg.charLenVal
      · have outside : ¬idx < dw/8 := by
          unfold parityLanes at past
          split_ifs at past <;> omega
        have none : item.unpackData idx = false := by
          rw [UartItem.unpackData,UartItem.lane,dif_neg outside]
          rfl
        rw [none,Bool.and_false]
      · rw [decide_eq_false inside,Bool.false_and]
    · congr 1
      apply List.map_congr_left
      intro idx inside
      rw [decide_eq_true (List.mem_range.mp inside),Bool.true_and]
  simp only [UartItem.calcParity,good]
  rw [parity_flatMap,unsentBits,parity_flatMap]
  simp only [lanes]
  rw [parity_map_xor,sent]

theorem received_payload (cfg : UartCfg) (item : UartItem dw) :
    payload cfg (received item cfg.charLenVal) = payload cfg item := by
  apply List.map_congr_left
  intro idx inside
  rw [received_unpackData,decide_eq_true (List.mem_range.mp inside),Bool.true_and]

theorem received_unsent (cfg : UartCfg) (item : UartItem dw) :
    parity (unsentBits cfg (received item cfg.charLenVal)) = false := by
  apply parity_false
  intro bit inside
  obtain ⟨idx,-,here⟩ := List.mem_flatMap.mp inside
  clear inside
  rw [received_lane] at here
  split at here
  · revert bit
    generalize item.unpackData idx = sent
    revert sent
    decide
  · revert bit
    decide

theorem received_calcParity (cfg : UartCfg) (item : UartItem dw) :
    (received item cfg.charLenVal).calcParity cfg.charLenVal cfg.parityMode = goodParity cfg item := by
  rw [calcParity_good cfg _ rfl,received_payload,received_unsent,Bool.xor_false]
  rfl

def collected (cfg : UartCfg) (item : UartItem dw) : Collecting dw :=
  { rcvd := 1+cfg.charLenVal+cfg.parityEn.toNat+cfg.nbstop.toNat
    item :=
      {received item cfg.charLenVal with
        parity := decide (cfg.parityEn = 1) && item.calcParity cfg.charLenVal cfg.parityMode
        stopBits := if cfg.nbstop = 1 then (BitVec.ofBool (item.stopBits.getLsbD 0)).setWidth 2 else 0}
    errors := if cfg.parityEn = 1 ∧ item.calcParity cfg.charLenVal cfg.parityMode ≠ goodParity cfg item then 1 else 0 }

theorem collectItem_trailer (cfg : UartCfg) (item : UartItem dw) (clean : item.errorBits = 0) (level : Bool) :
    collectItem cfg (2+cfg.parityEn.toNat+cfg.nbstop.toNat) {rcvd := cfg.charLenVal, item := received item cfg.charLenVal}
      (levels level (trailer cfg item)) = some (collected cfg item,[]) := by
  have expected := received_calcParity cfg item
  have noData : ¬1+cfg.charLenVal ≤ cfg.charLenVal := by omega
  have noMoreData : ¬1+cfg.charLenVal+1 ≤ cfg.charLenVal := by omega
  have one : cfg.charLenVal < 1+cfg.charLenVal+1 := by omega
  have two : cfg.charLenVal < 1+cfg.charLenVal+1+1 := by omega
  have three : 1+cfg.charLenVal < 1+cfg.charLenVal+1+1 := by omega
  have next : cfg.charLenVal+1 = 1+cfg.charLenVal := by omega
  have parityUnset : (received item cfg.charLenVal).parity = false := rfl
  have stopsUnset : (received item cfg.charLenVal).stopBits = 0 := rfl
  have stopBit : ∀ level : Bool, (if level = true then BitVec.twoPow 2 0 else 0#2) = (BitVec.ofBool level).setWidth 2 := by
    decide
  rcases bit_cases cfg.parityEn with noParity | parity <;> rcases bit_cases cfg.nbstop with noStop | stop <;>
    simp [*,trailer,levels,collectItem,Collecting.bit,Collecting.stops,collected]

theorem collect_frame (cfg : UartCfg) (item : UartItem dw) (start : item.startBit = false)
    (clean : item.errorBits = 0) :
    collect dw cfg (levels true (frame cfg item)) = some (collected cfg item,[]) := by
  have turns : 2+cfg.charLenVal+cfg.parityEn.toNat+cfg.nbstop.toNat =
      2+cfg.parityEn.toNat+cfg.nbstop.toNat+cfg.charLenVal := by omega
  rw [frame_eq,levels_append,start,List.cons_append,collect,waitForSop,if_pos (by simp),Option.bind_some,turns,
    payload,List.range_eq_range']
  exact (collectItem_data cfg item _ _ 0 (Nat.zero_add _) _).trans (collectItem_trailer cfg item clean _)

theorem parityOfMode_xor_iff : ∀ (parityMode : BitVec 2) (sent unsent : Bool),
    parityOfMode parityMode (xor sent unsent) = parityOfMode parityMode sent ↔
      (parityMode.getLsbD 1 = false → unsent = false) := by decide

theorem calcParity_iff (cfg : UartCfg) (item : UartItem dw) (good : item.parityType = .good) :
    item.calcParity cfg.charLenVal cfg.parityMode = goodParity cfg item ↔
      (cfg.parityMode.getLsbD 1 = false → parity (unsentBits cfg item) = false) := by
  rw [calcParity_good cfg item good]
  exact parityOfMode_xor_iff _ _ _

/-- Of the stop bits of an item, the line carries one less than the configuration has. -/
theorem stops_iff (cfg : UartCfg) (item : UartItem dw) :
    (∀ i < cfg.stopBitVal, (collected cfg item).item.stopBits.getLsbD i = item.stopBits.getLsbD i) ↔
      item.stopBits.getLsbD cfg.nbstop.toNat = false := by
  simp only [collected,UartCfg.stopBitVal]
  generalize item.stopBits = stopBits
  revert stopBits
  generalize cfg.nbstop = nbstop
  revert nbstop
  decide

theorem decoded_iff (cfg : UartCfg) (item : UartItem dw) (good : item.parityType = .good) :
    Decoded cfg item (collected cfg item) [] ↔
      (cfg.parityEn = 1 → cfg.parityMode.getLsbD 1 = false → parity (unsentBits cfg item) = false) ∧
        item.stopBits.getLsbD cfg.nbstop.toNat = false := by
  constructor
  · intro decoded
    refine ⟨fun parityEn => (calcParity_iff cfg item good).mp ?_,(stops_iff cfg item).mp decoded.stops⟩
    rw [← decoded.parity parityEn,collected]
    simp only [parityEn,decide_true,Bool.true_and]
  · intro ⟨parityBit,stops⟩
    have sent (parityEn : cfg.parityEn = 1) := (calcParity_iff cfg item good).mpr (parityBit parityEn)
    constructor
    case payload => exact received_payload cfg item
    case parity =>
      intro parityEn
      rw [← sent parityEn,collected]
      simp only [parityEn,decide_true,Bool.true_and]
    case stops => exact (stops_iff cfg item).mpr stops
    case noError =>
      apply if_neg
      intro ⟨parityEn,wrong⟩
      exact wrong (sent parityEn)
    case bits => rfl

theorem roundTrip_iff (cfg : UartCfg) (item : UartItem dw) (good : item.parityType = .good)
    (start : item.startBit = false) (clean : item.errorBits = 0) :
    RoundTrip cfg item ↔
      (cfg.parityEn = 1 → cfg.parityMode.getLsbD 1 = false → parity (unsentBits cfg item) = false) ∧
        item.stopBits.getLsbD cfg.nbstop.toNat = false := by
  rw [← decoded_iff cfg item good]
  constructor
  · intro ⟨s,rest,collects,decoded⟩
    rw [collect_frame cfg item start clean] at collects
    cases collects
    exact decoded
  · intro decoded
    exact ⟨_,_,collect_frame cfg item start clean,decoded⟩

def aByte (byte : BitVec 8) (stopBits : BitVec 2) : UartItem 64 :=
  {dataBeat := [fun i => if i.val = 0 then byte else 0], stopBits := stopBits}

theorem roundTrip_iff_aByte : RoundTrip ⟨0,0,1,0⟩ (aByte 1 2) ↔
    ((1 : BitVec 1) = 1 → (0 : BitVec 2).getLsbD 1 = false → parity (unsentBits ⟨0,0,1,0⟩ (aByte 1 2)) = false) ∧
      (2 : BitVec 2).getLsbD 0 = false :=
  roundTrip_iff ⟨0,0,1,0⟩ (aByte 1 2) rfl rfl rfl

/-- Five bits of which one is set, with odd parity. The other bit of the byte counts in the parity
that the driver sends, and the stop bit is not sent. -/
theorem not_roundTrip_aByte : ¬RoundTrip ⟨0,0,1,0⟩ (aByte 3 3) ∧
    (collect 64 ⟨0,0,1,0⟩ (levels true (frame ⟨0,0,1,0⟩ (aByte 3 3)))).map (fun s => s.1.errors) = some 1 := by
  have collects : (collect 64 ⟨0,0,1,0⟩ (levels true (frame ⟨0,0,1,0⟩ (aByte 3 3)))).map
      (fun s => (s.1.errors,s.1.item.stopBits)) = some (1,0) := by decide +kernel
  constructor
  · intro ⟨s,rest,collected,decoded⟩
    rw [collected] at collects
    cases (Prod.mk.inj (Option.some.inj collects)).1.symm.trans decoded.noError
  · obtain ⟨s,collected,pair⟩ := Option.map_eq_some_iff.mp collects
    rw [collected]
    exact congrArg some (congrArg Prod.fst pair)

end Smtdv.Uart
