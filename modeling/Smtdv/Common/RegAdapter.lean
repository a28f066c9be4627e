import Smtdv.Common.Types

/-! `apb_reg_adapter` and `ahb_reg_adapter`. Their item types have the default widths, whatever the
widths of the adapter are. -/
namespace Smtdv

theorem getLsbD_foldl_or {α : Type*} {w : Nat} (xs : List α) (part : α → BitVec w) (odata : BitVec w) (j : Nat) :
    (xs.foldl (fun odata i => odata ||| part i) odata).getLsbD j =
      (odata.getLsbD j || xs.any fun i => (part i).getLsbD j) := by
  induction xs generalizing odata with
  | nil => simp
  | cons i xs ih => rw [List.foldl_cons,ih,BitVec.getLsbD_or,List.any_cons,Bool.or_assoc]

/-- A word of whole bytes is unpacked as it was packed. -/
theorem unpackData_packData {dw : Nat} (bytes : 8 ∣ dw) (idata : BitVec dw) : unpackData (packData idata) = idata := by
  apply BitVec.eq_of_getLsbD_eq
  intro j inside
  have start : (0 : BitVec dw).getLsbD j = false := BitVec.getLsbD_zero
  rw [unpackData,getLsbD_foldl_or,start,Bool.false_or,Bool.eq_iff_iff,List.any_eq_true]
  have bit (i : Fin (dw/8)) : ((packData idata i).setWidth dw <<< (i.val*8)).getLsbD j = true ↔
      i.val = j/8 ∧ idata.getLsbD j = true := by
    rw [BitVec.getLsbD_shiftLeft,BitVec.getLsbD_setWidth,packData,BitVec.getLsbD_extractLsb']
    simp only [Bool.and_eq_true,Bool.not_eq_true',decide_eq_true_eq,decide_eq_false_iff_not]
    constructor
    · rintro ⟨⟨-,low⟩,-,high,set⟩
      rw [show i.val*8+(j-i.val*8) = j by omega] at set
      exact ⟨by omega,set⟩
    · rintro ⟨place,set⟩
      refine ⟨⟨inside,by omega⟩,by omega,by omega,?_⟩
      rwa [show i.val*8+(j-i.val*8) = j by omega]
  constructor
  · rintro ⟨i,-,set⟩
    exact ((bit i).mp set).2
  · intro set
    exact ⟨⟨j/8,by omega⟩,List.mem_finRange _,(bit _).mpr ⟨rfl,set⟩⟩

/-- A beat is packed again as it was unpacked. -/
theorem packData_unpackData {dw : Nat} (beat : Beat dw) : packData (unpackData beat) = beat := by
  funext i
  apply BitVec.eq_of_getLsbD_eq
  intro j inside
  have start : (0 : BitVec dw).getLsbD (i.val*8+j) = false := BitVec.getLsbD_zero
  have room : i.val*8+j < dw := by
    have bound := i.isLt
    omega
  have bit (other : Fin (dw/8)) : ((beat other).setWidth dw <<< (other.val*8)).getLsbD (i.val*8+j) = true ↔
      other = i ∧ (beat i).getLsbD j = true := by
    rw [BitVec.getLsbD_shiftLeft,BitVec.getLsbD_setWidth]
    simp only [Bool.and_eq_true,Bool.not_eq_true',decide_eq_true_eq,decide_eq_false_iff_not]
    constructor
    · rintro ⟨⟨_,low⟩,high,set⟩
      have bound := BitVec.lt_of_getLsbD set
      obtain rfl : other = i := Fin.ext (by omega)
      rw [show other.val*8+j-other.val*8 = j by omega] at set
      exact ⟨rfl,set⟩
    · rintro ⟨rfl,set⟩
      refine ⟨⟨room,by omega⟩,by omega,?_⟩
      rwa [show other.val*8+j-other.val*8 = j by omega]
  rw [packData,BitVec.getLsbD_extractLsb',decide_eq_true inside,Bool.true_and,unpackData,getLsbD_foldl_or,start,
    Bool.false_or,Bool.eq_iff_iff,List.any_eq_true]
  constructor
  · rintro ⟨other,_,set⟩
    exact ((bit other).mp set).2
  · intro set
    exact ⟨i,List.mem_finRange i,(bit i).mpr ⟨rfl,set⟩⟩

/-- `uvm_access_e`. -/
inductive UvmAccess
  | read | write | burstRead | burstWrite
  deriving DecidableEq

/-- `uvm_status_e`. -/
inductive UvmStatus
  | isOk | notOk | hasX
  deriving DecidableEq

/-- `uvm_reg_bus_op`. -/
structure RegBusOp where
  kind : UvmAccess
  addr : BitVec 64
  data : BitVec 64
  status : UvmStatus
  deriving DecidableEq

inductive Bus
  | apb | ahb
  deriving DecidableEq

/-- The fields of `apb_sequence_item` and of `ahb_sequence_item` that an adapter uses. -/
structure RegItem where
  trsT : TrsType
  addr : BitVec 14
  dataBeat : List (Beat 32)
  deriving DecidableEq

/-- A `uvm_sequence_item` by its class: the item type of an adapter, or any other. -/
inductive BusItem
  | item (bus : Bus) (item : RegItem)
  | other
  deriving DecidableEq

structure RegAdapter (aw dw : Nat) where
  item : Option RegItem := none
  deriving DecidableEq

/-- A fatal report, a field of a null handle, or the operation that is filled in. -/
inductive Bus2Reg
  | fatal (id message : String)
  | nullItem
  | filled (rw : RegBusOp)
  deriving DecidableEq

namespace RegAdapter

variable {aw dw : Nat}

def reg2bus (bus : Bus) (adapter : RegAdapter aw dw) (rw : RegBusOp) : RegAdapter aw dw × BusItem :=
  let item : RegItem := {
    trsT := if rw.kind = .read then .rd else .wr
    addr := rw.addr.setWidth 14
    -- a new item has no beat, and `pack_data` makes the first
    dataBeat := [packData (rw.data.setWidth 32)]}
  ({adapter with item := some item},.item bus item)

/-- `$cast(item, bus_item)`, with the item when it succeeds. -/
def cast (bus : Bus) : BusItem → Option RegItem
  | .item cls item => if cls = bus then some item else none
  | .other => none

def fill (rw : RegBusOp) (item : RegItem) : RegBusOp :=
  {rw with
    status := .isOk
    kind := if item.trsT = .rd then .read else .write
    addr := item.addr.setWidth 64
    data := (unpackData (item.dataBeat.getD 0 default)).setWidth 64}

/-- The report is made when the cast succeeds; when it fails the item is the one of before. -/
def bus2reg (bus : Bus) (id message : String) (adapter : RegAdapter aw dw) (busItem : BusItem) (rw : RegBusOp) :
    RegAdapter aw dw × Bus2Reg :=
  match cast bus busItem with
  | some item => ({adapter with item := some item},.fatal id message)
  | none =>
    match adapter.item with
    | none => (adapter,.nullItem)
    | some item => (adapter,.filled (fill rw item))

end RegAdapter

namespace ApbRegAdapter

def reg2bus {aw dw : Nat} : RegAdapter aw dw → RegBusOp → RegAdapter aw dw × BusItem := RegAdapter.reg2bus .apb

def bus2reg {aw dw : Nat} : RegAdapter aw dw → BusItem → RegBusOp → RegAdapter aw dw × Bus2Reg :=
  RegAdapter.bus2reg .apb "APB_SEQ_ITEM_ERR" "BUS ITEM IS NOT APB ITEM"

end ApbRegAdapter

namespace AhbRegAdapter

def reg2bus {aw dw : Nat} : RegAdapter aw dw → RegBusOp → RegAdapter aw dw × BusItem := RegAdapter.reg2bus .ahb

def bus2reg {aw dw : Nat} : RegAdapter aw dw → BusItem → RegBusOp → RegAdapter aw dw × Bus2Reg :=
  RegAdapter.bus2reg .ahb "NOAHBITEM" "bus item is not ahb item"

end AhbRegAdapter

namespace RegAdapter

variable {aw dw : Nat}

/-- An operation comes back as it was converted. -/
def RoundTrips (reg2bus : RegAdapter aw dw → RegBusOp → RegAdapter aw dw × BusItem)
    (bus2reg : RegAdapter aw dw → BusItem → RegBusOp → RegAdapter aw dw × Bus2Reg)
    (adapter : RegAdapter aw dw) (rw before : RegBusOp) : Prop :=
  ∃ back, (bus2reg (reg2bus adapter rw).1 (reg2bus adapter rw).2 before).2 = .filled back ∧
    back.kind = rw.kind ∧ back.addr = rw.addr ∧ back.data = rw.data ∧ back.status = .isOk

/-- A fatal report is made for the items of another class, and for no others. -/
def Guarded (bus : Bus) (bus2reg : RegAdapter aw dw → BusItem → RegBusOp → RegAdapter aw dw × Bus2Reg)
    (adapter : RegAdapter aw dw) (busItem : BusItem) (rw : RegBusOp) : Prop :=
  (∃ id message, (bus2reg adapter busItem rw).2 = .fatal id message) ↔ ∀ item, busItem ≠ .item bus item

/-- The report is made for the adapter's own items, and for no others. -/
theorem bus2reg_fatal_iff (bus : Bus) (id message : String) (adapter : RegAdapter aw dw) (busItem : BusItem) (rw : RegBusOp) :
    (∃ id' message', (bus2reg bus id message adapter busItem rw).2 = .fatal id' message') ↔ ∃ item, busItem = .item bus item := by
  cases busItem with
  | item cls item =>
    by_cases own : cls = bus
    · have report : (bus2reg bus id message adapter (.item cls item) rw).2 = .fatal id message := by
        rw [bus2reg,cast,if_pos own]
      exact iff_of_true ⟨id,message,report⟩ ⟨item,by rw [own]⟩
    · refine iff_of_false ?_ ?_
      · rw [bus2reg,cast,if_neg own]
        cases adapter.item <;> simp
      · rintro ⟨other,same⟩
        cases same
        exact own rfl
  | other =>
    refine iff_of_false ?_ (by simp)
    rw [bus2reg,cast]
    cases adapter.item <;> simp

theorem not_roundTrips (bus : Bus) (id message : String) (adapter : RegAdapter aw dw) (rw before : RegBusOp) :
    ¬RoundTrips (reg2bus bus) (bus2reg bus id message) adapter rw before := by
  rintro ⟨back,filled,-⟩
  obtain ⟨id',message',report⟩ := (bus2reg_fatal_iff bus id message (reg2bus bus adapter rw).1
    (reg2bus bus adapter rw).2 before).mpr ⟨_,rfl⟩
  rw [report] at filled
  contradiction

theorem not_guarded (bus : Bus) (id message : String) (adapter : RegAdapter aw dw) (busItem : BusItem) (rw : RegBusOp) :
    ¬Guarded bus (bus2reg bus id message) adapter busItem rw := by
  intro guarded
  rw [Guarded,bus2reg_fatal_iff] at guarded
  by_cases own : ∃ item, busItem = .item bus item
  · obtain ⟨item,same⟩ := own
    exact guarded.mp ⟨item,same⟩ item same
  · obtain ⟨item,same⟩ := guarded.mpr fun item same => own ⟨item,same⟩
    exact own ⟨item,same⟩

/-- For an item of another class the operation converted last comes back, cut to the default widths. -/
theorem bus2reg_foreign (bus : Bus) (id message : String) (adapter : RegAdapter aw dw) (rw before : RegBusOp)
    {busItem : BusItem} (foreign : ∀ item, busItem ≠ .item bus item) :
    (bus2reg bus id message (reg2bus bus adapter rw).1 busItem before).2 = .filled {
      kind := if rw.kind = .read then .read else .write
      addr := (rw.addr.setWidth 14).setWidth 64
      data := (rw.data.setWidth 32).setWidth 64
      status := .isOk} := by
  have missed : cast bus busItem = none := by
    cases busItem with
    | item cls item => exact if_neg fun own => foreign item (by rw [own])
    | other => rfl
  have kind : (if (if rw.kind = .read then TrsType.rd else .wr) = .rd then UvmAccess.read else .write) =
      if rw.kind = .read then .read else .write := by
    split <;> rfl
  rw [bus2reg,missed]
  simp only [reg2bus,fill,List.getD_cons_zero,unpackData_packData (by decide : 8 ∣ 32),kind]

/-- No operation comes back from either adapter, and neither takes any item rightly. -/
theorem adapters_never (adapter : RegAdapter aw dw) (rw before : RegBusOp) (busItem : BusItem) :
    (¬RoundTrips ApbRegAdapter.reg2bus ApbRegAdapter.bus2reg adapter rw before ∧
      ¬Guarded .apb ApbRegAdapter.bus2reg adapter busItem before) ∧
    ¬RoundTrips AhbRegAdapter.reg2bus AhbRegAdapter.bus2reg adapter rw before ∧
      ¬Guarded .ahb AhbRegAdapter.bus2reg adapter busItem before :=
  ⟨⟨not_roundTrips _ _ _ _ _ _,not_guarded _ _ _ _ _ _⟩,not_roundTrips _ _ _ _ _ _,not_guarded _ _ _ _ _ _⟩

/-- The first read of a register ends in the fatal report. -/
theorem read_not_roundTrips : ¬RoundTrips ApbRegAdapter.reg2bus ApbRegAdapter.bus2reg
    ({} : RegAdapter 14 32) ⟨.read,4,0,.isOk⟩ ⟨.read,4,0,.isOk⟩ := by
  rintro ⟨back,filled,-⟩
  contradiction

end RegAdapter

end Smtdv
