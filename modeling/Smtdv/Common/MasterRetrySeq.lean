import Mathlib.Logic.Function.Basic
import Smtdv.Lib.Machine
import Smtdv.Common.MasterCfg

/-! `smtdv_master_retry_seq`: the finished items, and the failing ones among them that are put back. An
`int` is its 32 bits. -/
namespace Smtdv
open Lib

variable {aw dw : Nat}

/-- An item of the monitor, which collects reads and writes, once its address and its data are complete. -/
structure RetryItem (aw dw : Nat) where
  trsT : TrsType
  addrs : List (BitVec aw)
  dataBeat : List (Beat dw) := []
  success : Bool := false
  retry : Bool := false
  collected : trsT ≠ .rdwr := by decide
  deriving DecidableEq

/-- `addrs[$]`, which is 0 when there is none. -/
def RetryItem.addr (item : RetryItem aw dw) : BitVec aw := item.addrs.getLast?.getD 0

/-- `retry_t`. -/
structure RetryEntry (aw : Nat) where
  addr : BitVec aw
  visit : BitVec 32
  deriving DecidableEq

/-- `timeouts` has the errors reported, with the address and the number of the message. -/
structure MasterRetrySeq (aw dw : Nat) extends RetrySeq aw where
  rdWin : BitVec 32 := 0
  wrWin : BitVec 32 := 0
  maxErr : BitVec 32
  retry : BitVec aw → Option (RetryEntry aw) := fun _ => none
  mbox : List (RetryItem aw dw) := []
  timeouts : List (BitVec aw × BitVec 32) := []

namespace MasterRetrySeq

def isFinishToWatch (s : MasterRetrySeq aw dw) : TrsType → Bool
  | .wr => s.wrWin == 0
  | .rd => s.rdWin == 0
  | .rdwr => false

def setWatchWindow (s : MasterRetrySeq aw dw) (trsT : TrsType) (win : BitVec 32) : MasterRetrySeq aw dw :=
  match trsT with
  | .wr => {s with wrWin := win}
  | .rd => {s with rdWin := win}
  | .rdwr => s

/-- The entry that a failing item leaves. -/
def failed (s : MasterRetrySeq aw dw) (addr : BitVec aw) : RetryEntry aw :=
  match s.retry addr with
  | some entry => {entry with visit := entry.visit+1}
  | none => ⟨addr,0⟩

/-- Whether an entry has been visited `max_err` times. -/
def spent (s : MasterRetrySeq aw dw) (entry : RetryEntry aw) : Bool := s.maxErr.sle entry.visit

/-- The sequence after a watched item has failed. -/
def record (s : MasterRetrySeq aw dw) (addr : BitVec aw) : MasterRetrySeq aw dw :=
  let entry := s.failed addr
  {s with
    retry := Function.update s.retry addr (some entry)
    timeouts := if s.spent entry then s.timeouts ++ [(entry.addr,s.maxErr)] else s.timeouts}

def purge (s : MasterRetrySeq aw dw) (addr : BitVec aw) : MasterRetrySeq aw dw :=
  {s with retry := if (s.retry addr).isSome then Function.update s.retry addr none else s.retry}

def lower (s : MasterRetrySeq aw dw) : TrsType → MasterRetrySeq aw dw
  | .rd => {s with rdWin := s.rdWin-1}
  | .wr => {s with wrWin := s.wrWin-1}
  | .rdwr => s

/-- `mid_do_read_item` and `mid_do_write_item`, with the direction whose window a success lowers. -/
def midDoItem (trsT : TrsType) (s : MasterRetrySeq aw dw) (item : RetryItem aw dw) :
    MasterRetrySeq aw dw × RetryItem aw dw :=
  if item.success = false then
    if s.isAddrToWatch item.addr then (s.record item.addr,{item with retry := !s.spent (s.failed item.addr)})
    else (s,item)
  else ((s.purge item.addr).lower trsT,item)

def midDoReadItem : MasterRetrySeq aw dw → RetryItem aw dw → MasterRetrySeq aw dw × RetryItem aw dw := midDoItem .rd

def midDoWriteItem : MasterRetrySeq aw dw → RetryItem aw dw → MasterRetrySeq aw dw × RetryItem aw dw := midDoItem .wr

/-- `post_do_read_item` and `post_do_write_item`. -/
def postDoItem (s : MasterRetrySeq aw dw) (item : RetryItem aw dw) : MasterRetrySeq aw dw :=
  if item.retry then {s with mbox := s.mbox ++ [item]} else s

/-- `mid_do_*_item` of the direction of an item. -/
def midDo (s : MasterRetrySeq aw dw) (item : RetryItem aw dw) : MasterRetrySeq aw dw × RetryItem aw dw :=
  match item.trsT with
  | .rd => s.midDoReadItem item
  | .wr => s.midDoWriteItem item
  | .rdwr => (s,item)

/-- A turn of the loop of `rcv_from_mon`. -/
def rcvFromMon (s : MasterRetrySeq aw dw) (item : RetryItem aw dw) : MasterRetrySeq aw dw :=
  (s.midDo item).1.postDoItem (s.midDo item).2

def after (s : MasterRetrySeq aw dw) (items : List (RetryItem aw dw)) : MasterRetrySeq aw dw :=
  Machine.run rcvFromMon s items

/-- Whether an item is put back into the mailbox. -/
def requeued (s : MasterRetrySeq aw dw) (item : RetryItem aw dw) : Bool := (s.midDo item).2.retry

def window (s : MasterRetrySeq aw dw) : TrsType → BitVec 32
  | .wr => s.wrWin
  | .rd => s.rdWin
  | .rdwr => 0

/-- What is done with an item: it is not watched and fails, or watched and fails, or succeeds. -/
inductive Handled (s : MasterRetrySeq aw dw) (item : RetryItem aw dw) : MasterRetrySeq aw dw × RetryItem aw dw → Prop
  | missed (failing : item.success = false) (unwatched : s.isAddrToWatch item.addr = false) : Handled s item (s,item)
  | failed (failing : item.success = false) (watched : s.isAddrToWatch item.addr = true) :
    Handled s item (s.record item.addr,{item with retry := !s.spent (s.failed item.addr)})
  | succeeded (success : item.success = true) : Handled s item ((s.purge item.addr).lower item.trsT,item)

theorem midDo_handled (s : MasterRetrySeq aw dw) (item : RetryItem aw dw) : Handled s item (s.midDo item) := by
  have known : s.midDo item = midDoItem item.trsT s item := by
    unfold midDo
    cases kind : item.trsT with
    | rd | wr => rfl
    | rdwr => exact absurd kind item.collected
  rw [known,midDoItem]
  split
  · next failing =>
    split
    · next watched => exact .failed failing watched
    · next unwatched => exact .missed failing (Bool.eq_false_iff.mpr unwatched)
  · next success => exact .succeeded (Bool.eq_true_of_not_eq_false success)

theorem postDoItem_frame (s : MasterRetrySeq aw dw) (item : RetryItem aw dw) :
    (s.postDoItem item).toRetrySeq = s.toRetrySeq ∧ (s.postDoItem item).maxErr = s.maxErr ∧
      (s.postDoItem item).window = s.window ∧ (s.postDoItem item).retry = s.retry := by
  unfold postDoItem
  split <;> exact ⟨rfl,rfl,rfl,rfl⟩

theorem lower_frame (s : MasterRetrySeq aw dw) (trsT : TrsType) :
    (s.lower trsT).toRetrySeq = s.toRetrySeq ∧ (s.lower trsT).maxErr = s.maxErr ∧ (s.lower trsT).retry = s.retry := by
  cases trsT <;> exact ⟨rfl,rfl,rfl⟩

theorem lower_window (s : MasterRetrySeq aw dw) (trsT other : TrsType) (known : other ≠ .rdwr) :
    (s.lower trsT).window other = if trsT = other then s.window other - 1 else s.window other := by
  cases trsT with
  | rdwr => exact (if_neg known.symm).symm
  | rd | wr => cases other <;> rfl

theorem purge_retry (s : MasterRetrySeq aw dw) (addr : BitVec aw) :
    (s.purge addr).retry = Function.update s.retry addr none := by
  change (if (s.retry addr).isSome then _ else s.retry) = _
  split
  · rfl
  · next absent =>
    rw [Bool.not_eq_true,Option.isSome_eq_false_iff,Option.isNone_iff_eq_none] at absent
    rw [← absent,Function.update_eq_self]

variable (s : MasterRetrySeq aw dw) (item : RetryItem aw dw)

/-- The ranges and the budget are never changed. -/
theorem rcvFromMon_frame : (s.rcvFromMon item).toRetrySeq = s.toRetrySeq ∧ (s.rcvFromMon item).maxErr = s.maxErr := by
  rw [rcvFromMon,(postDoItem_frame _ _).1,(postDoItem_frame _ _).2.1]
  have handled := s.midDo_handled item
  generalize s.midDo item = done at handled ⊢
  cases handled with
  | missed | failed => exact ⟨rfl,rfl⟩
  | succeeded => exact ⟨(lower_frame _ _).1,(lower_frame _ _).2.1⟩

theorem after_concat (items : List (RetryItem aw dw)) : s.after (items ++ [item]) = (s.after items).rcvFromMon item :=
  Machine.run_concat _ _ _ _

theorem after_frame (items : List (RetryItem aw dw)) :
    (s.after items).toRetrySeq = s.toRetrySeq ∧ (s.after items).maxErr = s.maxErr := by
  induction items using List.reverseRecOn with
  | nil => exact ⟨rfl,rfl⟩
  | append_singleton items item ih =>
    obtain ⟨ranges,budget⟩ := (s.after items).rcvFromMon_frame item
    rw [after_concat,ranges,budget]
    exact ih

/-- A success lowers the window of its direction, wherever it is. -/
theorem rcvFromMon_window (trsT : TrsType) (known : trsT ≠ .rdwr) : (s.rcvFromMon item).window trsT =
    if item.success = true ∧ item.trsT = trsT then s.window trsT - 1 else s.window trsT := by
  rw [rcvFromMon,(postDoItem_frame _ _).2.2.1]
  have handled := s.midDo_handled item
  generalize s.midDo item = done at handled ⊢
  cases handled with
  | missed failing => rw [if_neg fun both => Bool.noConfusion (failing.symm.trans both.1)]
  | failed failing =>
    rw [if_neg fun both => Bool.noConfusion (failing.symm.trans both.1)]
    rfl
  | succeeded success =>
    rw [lower_window _ _ _ known]
    simp only [success,true_and]
    rfl

/-- The table has an entry for the last address of a watched item that fails, and none for that of a success. -/
theorem rcvFromMon_retry : (s.rcvFromMon item).retry =
    if item.success = true then Function.update s.retry item.addr none
    else if s.isAddrToWatch item.addr = true then Function.update s.retry item.addr (some (s.failed item.addr))
    else s.retry := by
  rw [rcvFromMon,(postDoItem_frame _ _).2.2.2]
  have handled := s.midDo_handled item
  generalize s.midDo item = done at handled ⊢
  cases handled with
  | missed failing unwatched => rw [failing,unwatched]; rfl
  | failed failing watched => rw [failing,watched]; rfl
  | succeeded success => rw [success,if_pos rfl,(lower_frame _ _).2.2,purge_retry]

/-- A watched item that fails is put back until its entry is spent; for any other it is as the monitor says. -/
theorem requeued_eq : s.requeued item =
    if item.success = false ∧ s.isAddrToWatch item.addr = true then !s.spent (s.failed item.addr) else item.retry := by
  rw [requeued]
  have handled := s.midDo_handled item
  generalize s.midDo item = done at handled ⊢
  cases handled with
  | missed failing unwatched => rw [if_neg fun both => Bool.noConfusion (unwatched.symm.trans both.2)]
  | failed failing watched => rw [if_pos ⟨failing,watched⟩]
  | succeeded success => rw [if_neg fun both => Bool.noConfusion (success.symm.trans both.1)]

/-- The addresses up to 3 are watched, with the least budget that is drawn. -/
def least : MasterRetrySeq aw dw where
  watch := [(0,3)]
  maxErr := 5

end MasterRetrySeq

end Smtdv
