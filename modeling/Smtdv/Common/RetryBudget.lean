import Smtdv.Common.MasterRetrySeq

/-! How often `smtdv_master_retry_seq` puts a failing transaction back. -/
namespace Smtdv.MasterRetrySeq
open Lib

variable {aw dw : Nat}

/-- The failures at an address since the last success there, of reads and of writes. -/
def failures (addr : BitVec aw) (items : List (RetryItem aw dw)) : Nat :=
  items.foldl (fun n item => if item.addr = addr then if item.success = true then 0 else n+1 else n) 0

/-- How often a pair of direction and address has used a budget of its own since it last finished. -/
def used (maxErr : BitVec 32) (trsT : TrsType) (addr : BitVec aw) (items : List (RetryItem aw dw)) : Nat :=
  items.foldl (fun n item => if item.trsT = trsT ∧ item.addr = addr then
    if item.success = false ∧ n < maxErr.toInt then n+1 else 0 else n) 0

/-- The failures of an address that are put back since the last success there. -/
def putBack (addr : BitVec aw) : MasterRetrySeq aw dw → Nat → List (RetryItem aw dw) → Nat
  | _, n, [] => n
  | s, n, item::rest => putBack addr (s.rcvFromMon item) (if item.addr = addr then
      if item.success = true then 0 else n + if s.requeued item = true then 1 else 0 else n) rest

/-- An item after others is put back as a budget of the direction and the address says. -/
structure Isolated (s : MasterRetrySeq aw dw) (before : List (RetryItem aw dw)) (item : RetryItem aw dw) : Prop where
  unwatched : s.isAddrToWatch item.addr = false → (s.after before).requeued item = false
  watched : s.isAddrToWatch item.addr = true → item.success = false →
    ((s.after before).requeued item = true ↔ used s.maxErr item.trsT item.addr before < s.maxErr.toInt)

/-- An item after others is put back as a budget of the address says, which a success there fills. The number of
failures is an `int`. -/
structure Shared (s : MasterRetrySeq aw dw) (before : List (RetryItem aw dw)) (item : RetryItem aw dw) : Prop where
  unwatched : s.isAddrToWatch item.addr = false → item.retry = false → (s.after before).requeued item = false
  watched : s.isAddrToWatch item.addr = true → item.success = false → failures item.addr before < 2^31 →
    ((s.after before).requeued item = true ↔ failures item.addr before < s.maxErr.toInt)
  bounded : s.isAddrToWatch item.addr = true → (∀ first, first <+: before → failures item.addr first < 2^31) →
    putBack item.addr s 0 before ≤ s.maxErr.toInt.toNat

variable {s : MasterRetrySeq aw dw} {addr : BitVec aw}

theorem failures_concat (items : List (RetryItem aw dw)) (item : RetryItem aw dw) : failures addr (items ++ [item]) =
    if item.addr = addr then if item.success = true then 0 else failures addr items + 1 else failures addr items := by
  rw [failures,List.foldl_append]
  rfl

theorem putBack_concat (n : Nat) (items : List (RetryItem aw dw)) (item : RetryItem aw dw) :
    putBack addr s n (items ++ [item]) = if item.addr = addr then if item.success = true then 0
      else putBack addr s n items + if (s.after items).requeued item = true then 1 else 0 else putBack addr s n items := by
  induction items generalizing s n with
  | nil => rfl
  | cons first rest ih => exact ih _

/-- The entry of an address after that many failures. -/
def entry (addr : BitVec aw) : Nat → Option (RetryEntry aw)
  | 0 => none
  | n+1 => some ⟨addr,BitVec.ofNat 32 n⟩

theorem failed_of_entry {n : Nat} (here : s.retry addr = entry addr n) : s.failed addr = ⟨addr,BitVec.ofNat 32 n⟩ := by
  rw [failed,here]
  cases n with
  | zero => rfl
  | succ n =>
    rw [BitVec.ofNat_add]
    rfl

/-- The table counts the failures of a watched address, with no regard to the direction. -/
theorem retry_after (fresh : s.retry = fun _ => none) (watched : s.isAddrToWatch addr = true)
    (items : List (RetryItem aw dw)) : (s.after items).retry addr = entry addr (failures addr items) := by
  induction items using List.reverseRecOn with
  | nil => exact congrFun fresh addr
  | append_singleton items item ih =>
    rw [after_concat,rcvFromMon_retry,failures_concat,(after_frame s items).1]
    by_cases same : item.addr = addr
    · subst same
      rw [if_pos watched,if_pos rfl]
      split
      · exact Function.update_self _ _ _
      · rw [Function.update_self,failed_of_entry ih]
        rfl
    · rw [if_neg same]
      split
      · rw [Function.update_of_ne (Ne.symm same),ih]
      · split
        · rw [Function.update_of_ne (Ne.symm same),ih]
        · exact ih

/-- A failing item is put back while its address has failed less often than `max_err`. -/
theorem requeued_after (fresh : s.retry = fun _ => none) (items : List (RetryItem aw dw)) (item : RetryItem aw dw)
    (watched : s.isAddrToWatch item.addr = true) (failing : item.success = false) (small : failures item.addr items < 2^31) :
    (s.after items).requeued item = true ↔ failures item.addr items < s.maxErr.toInt := by
  have kept := after_frame s items
  have visits : (BitVec.ofNat 32 (failures item.addr items)).toInt = failures item.addr items := by
    rw [BitVec.toInt_ofNat']
    exact Int.bmod_eq_of_le (by omega) (by omega)
  rw [requeued_eq,kept.1,if_pos ⟨failing,watched⟩,failed_of_entry (retry_after fresh watched items),spent,kept.2,
    Bool.not_eq_true',BitVec.sle,visits,decide_eq_false_iff_not,Int.not_le]

theorem putBack_eq (fresh : s.retry = fun _ => none) (watched : s.isAddrToWatch addr = true)
    (items : List (RetryItem aw dw)) (small : ∀ first, first <+: items → failures addr first < 2^31) :
    putBack addr s 0 items = min (failures addr items) s.maxErr.toInt.toNat := by
  induction items using List.reverseRecOn with
  | nil => exact (Nat.zero_min _).symm
  | append_singleton items item ih =>
    have before := ih fun first inside => small first (inside.trans (List.prefix_append _ _))
    rw [putBack_concat,failures_concat,before]
    by_cases same : item.addr = addr
    · subst same
      rw [if_pos rfl,if_pos rfl]
      cases outcome : item.success with
      | true => exact (Nat.zero_min _).symm
      | false =>
        have decides := requeued_after fresh items item watched outcome (small items (List.prefix_append _ _))
        simp only [Bool.false_eq_true,if_false,decides]
        split <;> omega
    · rw [if_neg same,if_neg same]

/-- The budget is of the address: both directions use it, only a success there fills it, and an item that is
not watched is put back only for the flag that the monitor gave it. -/
theorem address_budget (s : MasterRetrySeq aw dw) (fresh : s.retry = fun _ => none) (before : List (RetryItem aw dw))
    (item : RetryItem aw dw) : Shared s before item where
  unwatched outside clear := by
    rw [requeued_eq,(after_frame s before).1,outside,clear]
    exact if_neg fun both => Bool.false_ne_true both.2
  watched watched failing small := requeued_after fresh before item watched failing small
  bounded watched small := by
    rw [putBack_eq fresh watched before small]
    exact Nat.min_le_right _ _

theorem address_budget_least : ((least : MasterRetrySeq 8 8).after [{trsT := .rd, addrs := [1]}]).requeued
    {trsT := .wr, addrs := [1]} = true :=
  ((address_budget least rfl _ _).watched (by decide) rfl (by decide)).mpr (by decide)

/-- A write that has never failed has no budget left after the reads there, nor has a read after one that is given
up, and an item that is not watched is put back for the flag of the monitor. -/
theorem least_not_isolated :
    ¬Isolated (least : MasterRetrySeq 8 8) (List.replicate 5 {trsT := .rd, addrs := [1]}) {trsT := .wr, addrs := [1]} ∧
    ¬Isolated (least : MasterRetrySeq 8 8) (List.replicate 6 {trsT := .rd, addrs := [1]}) {trsT := .rd, addrs := [1]} ∧
    ¬Isolated (least : MasterRetrySeq 8 8) [] {trsT := .rd, addrs := [9], retry := true} :=
  ⟨fun own => absurd ((own.watched (by decide) rfl).mpr (by decide)) (by decide),
    fun own => absurd ((own.watched (by decide) rfl).mpr (by decide)) (by decide),
    fun own => absurd (own.unwatched (by decide)) (by decide)⟩

end Smtdv.MasterRetrySeq
