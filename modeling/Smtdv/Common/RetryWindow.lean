import Smtdv.Common.MasterRetrySeq

/-! The watch window of `smtdv_master_retry_seq`, against the watched transactions that have finished. -/
namespace Smtdv.MasterRetrySeq
open Lib

variable {aw dw : Nat}

/-- A watched transaction of the direction succeeds with the item, or is given up. -/
def Finishes (s : MasterRetrySeq aw dw) (trsT : TrsType) (item : RetryItem aw dw) : Prop :=
  item.trsT = trsT ∧ s.isAddrToWatch item.addr = true ∧ (item.success = true ∨ s.requeued item = false)

instance (s : MasterRetrySeq aw dw) (trsT : TrsType) (item : RetryItem aw dw) : Decidable (s.Finishes trsT item) :=
  inferInstanceAs (Decidable (_ ∧ _))

/-- How many watched transactions of the direction have finished. -/
def finished (trsT : TrsType) : MasterRetrySeq aw dw → List (RetryItem aw dw) → Nat
  | _, [] => 0
  | s, item::rest => (if s.Finishes trsT item then 1 else 0) + finished trsT (s.rcvFromMon item) rest

/-- The window is closed exactly from the last of its transactions on, and its counter is not negative. -/
structure Closes (s : MasterRetrySeq aw dw) (trsT : TrsType) (win : BitVec 32) (items : List (RetryItem aw dw)) : Prop where
  finish : (s.after items).isFinishToWatch trsT = true ↔ win.toInt ≤ finished trsT s items
  nonneg : 0 ≤ ((s.after items).window trsT).toInt

/-- The counter is the number of watched transactions that the window is still to see. -/
def Remaining (s : MasterRetrySeq aw dw) (trsT : TrsType) (win : BitVec 32) (items : List (RetryItem aw dw)) : Prop :=
  ((s.after items).window trsT).toInt = max 0 (win.toInt - finished trsT s items)

/-- An item of the direction that succeeds is watched and comes before the window is closed, and a watched one
that fails has not been tried too often, unless the window is closed. -/
def Counted (trsT : TrsType) (s : MasterRetrySeq aw dw) (item : RetryItem aw dw) : Prop :=
  item.trsT = trsT →
    (item.success = true → s.isAddrToWatch item.addr = true ∧ s.window trsT ≠ 0) ∧
    (item.success = false → s.isAddrToWatch item.addr = true → s.spent (s.failed item.addr) = false ∨ s.window trsT = 0)

instance (trsT : TrsType) (s : MasterRetrySeq aw dw) (item : RetryItem aw dw) : Decidable (Counted trsT s item) :=
  inferInstanceAs (Decidable (_ → _))

variable {s : MasterRetrySeq aw dw} {trsT : TrsType} {win : BitVec 32}

theorem setWatchWindow_window (known : trsT ≠ .rdwr) : (s.setWatchWindow trsT win).window trsT = win := by
  cases trsT with
  | rd | wr => rfl
  | rdwr => contradiction

theorem toInt_eq_zero (w : BitVec 32) : w.toInt = 0 ↔ w = 0 :=
  ⟨fun same => BitVec.eq_of_toInt_eq same,fun same => same ▸ rfl⟩

theorem isFinishToWatch_iff (known : trsT ≠ .rdwr) : s.isFinishToWatch trsT = true ↔ (s.window trsT).toInt = 0 := by
  rw [toInt_eq_zero]
  cases trsT with
  | rd | wr => exact beq_iff_eq
  | rdwr => contradiction

theorem finished_concat (items : List (RetryItem aw dw)) (item : RetryItem aw dw) :
    finished trsT s (items ++ [item]) = finished trsT s items + if (s.after items).Finishes trsT item then 1 else 0 := by
  induction items generalizing s with
  | nil => exact Nat.add_comm _ _
  | cons first rest ih =>
    rw [List.cons_append,finished,ih,finished,Nat.add_assoc]
    rfl

/-- A watched item that fails finishes when its entry is spent. -/
theorem finishes_iff (item : RetryItem aw dw) : s.Finishes trsT item ↔ item.trsT = trsT ∧ s.isAddrToWatch item.addr = true ∧
    (item.success = true ∨ s.spent (s.failed item.addr) = true) := by
  refine and_congr_right fun _ => and_congr_right fun watched => ?_
  cases outcome : item.success with
  | true => exact iff_of_true (.inl rfl) (.inl rfl)
  | false => rw [requeued_eq,if_pos ⟨outcome,watched⟩,Bool.not_eq_false']

theorem toInt_sub_one (w : BitVec 32) (low : 0 ≤ w.toInt) : (w-1).toInt = w.toInt-1 := by
  have high := w.toInt_lt
  have one : (1 : BitVec 32).toInt = 1 := by decide
  rw [BitVec.toInt_sub,one,Int.bmod_eq_of_le (by omega) (by omega)]

/-- A step keeps the count exactly under its condition. -/
theorem step_remaining (known : trsT ≠ .rdwr) {n : Int} (here : (s.window trsT).toInt = max 0 n) (item : RetryItem aw dw) :
    ((s.rcvFromMon item).window trsT).toInt = max 0 (n - if s.Finishes trsT item then 1 else 0) ↔ Counted trsT s item := by
  have finishes : s.Finishes trsT item ↔ _ := finishes_iff item
  have closed := toInt_eq_zero (s.window trsT)
  rw [rcvFromMon_window _ _ _ known]
  by_cases kind : item.trsT = trsT
  · cases outcome : item.success with
    | true =>
      have counted : Counted trsT s item ↔ s.isAddrToWatch item.addr = true ∧ s.window trsT ≠ 0 := by
        rw [Counted]
        simp [kind,outcome]
      rw [if_pos ⟨rfl,kind⟩,toInt_sub_one _ (by omega),counted,ne_eq,← closed,here]
      by_cases watched : s.isAddrToWatch item.addr = true
      · rw [if_pos (finishes.mpr ⟨kind,watched,.inl outcome⟩),and_iff_right watched]
        omega
      · rw [if_neg fun finish => watched (finishes.mp finish).2.1]
        exact iff_of_false (by omega) fun both => watched both.1
    | false =>
      have counted : Counted trsT s item ↔
          (s.isAddrToWatch item.addr = true → s.spent (s.failed item.addr) = false ∨ (s.window trsT).toInt = 0) := by
        rw [Counted,closed]
        simp [kind,outcome]
      rw [if_neg fun both => Bool.noConfusion both.1,here,counted,here]
      by_cases finish : s.Finishes trsT item
      · obtain ⟨_,watched,past⟩ := finishes.mp finish
        have spent := past.resolve_left (by rw [outcome]; exact Bool.false_ne_true)
        rw [if_pos finish,forall_prop_of_true watched,spent]
        simp only [Bool.true_eq_false,false_or]
        omega
      · rw [if_neg finish]
        refine iff_of_true (by omega) fun watched => .inl (Bool.eq_false_iff.mpr fun spent => finish ?_)
        exact finishes.mpr ⟨kind,watched,.inr spent⟩
  · rw [if_neg fun both => kind both.2,if_neg fun all => kind all.1,here]
    simp [kind,Counted]

theorem remaining_concat (known : trsT ≠ .rdwr) {items : List (RetryItem aw dw)} (here : Remaining s trsT win items)
    (item : RetryItem aw dw) : Remaining s trsT win (items ++ [item]) ↔ Counted trsT (s.after items) item := by
  have one : ((if (s.after items).Finishes trsT item then 1 else 0 : Nat) : Int) =
      if (s.after items).Finishes trsT item then 1 else 0 := by
    split <;> rfl
  rw [← step_remaining known here,Remaining,after_concat,finished_concat,Int.natCast_add,one,← Int.sub_sub]

theorem remaining_of_meets (known : trsT ≠ .rdwr) (start : Remaining s trsT win []) {items : List (RetryItem aw dw)}
    (counted : Machine.Meets rcvFromMon (Counted trsT) s items) : Remaining s trsT win items := by
  induction items using List.reverseRecOn with
  | nil => exact start
  | append_singleton items item ih =>
    obtain ⟨before,last⟩ := (Machine.meets_concat _ _ _ _ _).mp counted
    exact (remaining_concat known (ih before) item).mpr last

/-- The counter is right after every beginning of a stream exactly if each of its items is counted as it should. -/
theorem remaining_iff (known : trsT ≠ .rdwr) (start : Remaining s trsT win []) (items : List (RetryItem aw dw)) :
    (∀ before, before <+: items → Remaining s trsT win before) ↔ Machine.Meets rcvFromMon (Counted trsT) s items :=
  Machine.prefixes_iff (fun _ _ counted => remaining_of_meets known start counted)
    fun _ item _ counted miscounted right =>
      miscounted ((remaining_concat known (remaining_of_meets known start counted) item).mp right)

theorem closes_of_remaining (known : trsT ≠ .rdwr) {items : List (RetryItem aw dw)} (right : Remaining s trsT win items) :
    Closes s trsT win items := by
  rw [Remaining] at right
  refine ⟨?_,by omega⟩
  rw [isFinishToWatch_iff known]
  omega

theorem start_remaining (known : trsT ≠ .rdwr) : Remaining (s.setWatchWindow trsT win) trsT win [] ↔ 0 ≤ win.toInt := by
  change ((s.setWatchWindow trsT win).window trsT).toInt = max 0 (win.toInt-((0 : Nat) : Int)) ↔ _
  rw [setWatchWindow_window known]
  omega

/-- While every item of the direction is counted as it should, a window that is not negative is closed exactly from
the last of its transactions on. The counter is the number of those still to come if and only if it is so. -/
theorem window_closes (s : MasterRetrySeq aw dw) (trsT : TrsType) (win : BitVec 32) (known : trsT ≠ .rdwr)
    (items : List (RetryItem aw dw)) :
    (0 ≤ win.toInt ∧ Machine.Meets rcvFromMon (Counted trsT) (s.setWatchWindow trsT win) items →
      ∀ before, before <+: items → Closes (s.setWatchWindow trsT win) trsT win before) ∧
    ((∀ before, before <+: items → Remaining (s.setWatchWindow trsT win) trsT win before) ↔
      0 ≤ win.toInt ∧ Machine.Meets rcvFromMon (Counted trsT) (s.setWatchWindow trsT win) items) := by
  have exactly : (∀ before, before <+: items → Remaining (s.setWatchWindow trsT win) trsT win before) ↔
      0 ≤ win.toInt ∧ Machine.Meets rcvFromMon (Counted trsT) (s.setWatchWindow trsT win) items := by
    constructor
    · intro right
      have start := right [] List.nil_prefix
      exact ⟨(start_remaining known).mp start,(remaining_iff known start items).mp right⟩
    · rintro ⟨nonneg,counted⟩
      exact (remaining_iff known ((start_remaining known).mpr nonneg) items).mpr counted
  exact ⟨fun counted before inside => closes_of_remaining known (exactly.mpr counted before inside),exactly⟩

theorem window_closes_pair : Closes ((least : MasterRetrySeq 8 8).setWatchWindow .rd 1) .rd 1
    [{trsT := .rd, addrs := [1]},{trsT := .rd, addrs := [1], success := true}] :=
  (window_closes least .rd 1 (by decide) _).1 (by decide) _ (List.prefix_refl _)

/-- A read that is not watched closes the window, one that is given up does not, and a second success makes the
counter negative. -/
theorem stray_not_closes :
    ¬Closes ((least : MasterRetrySeq 8 8).setWatchWindow .rd 1) .rd 1 [{trsT := .rd, addrs := [9], success := true}] ∧
    ¬Closes ((least : MasterRetrySeq 8 8).setWatchWindow .rd 1) .rd 1 (List.replicate 6 {trsT := .rd, addrs := [1]}) ∧
    ¬Closes ((least : MasterRetrySeq 8 8).setWatchWindow .rd 1) .rd 1 [{trsT := .rd, addrs := [1], success := true},
      {trsT := .rd, addrs := [2], success := true}] :=
  ⟨fun closes => absurd (closes.finish.mp (by decide)) (by decide),
    fun closes => absurd (closes.finish.mpr (by decide)) (by decide),
    fun closes => absurd closes.nonneg (by decide)⟩

end Smtdv.MasterRetrySeq
