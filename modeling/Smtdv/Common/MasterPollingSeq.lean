import Smtdv.Common.MasterRetrySeq

/-! `smtdv_master_polling_seq`: the retry sequence that also puts a read back until it returns what is expected. -/
namespace Smtdv
open Lib

variable {aw dw : Nat}

def RetryItem.unpackData (item : RetryItem aw dw) (idx : Nat) : BitVec dw :=
  Smtdv.unpackData (item.dataBeat.getD idx default)

/-- `polling_t`. -/
structure PollingEntry (aw dw : Nat) where
  addr : BitVec aw
  data : BitVec dw
  visit : BitVec 32
  deriving DecidableEq

/-- `drawn` is `c_max_polling`, and `pollTimeouts` has the items of the errors reported. -/
structure MasterPollingSeq (aw dw : Nat) extends MasterRetrySeq aw dw where
  polling : BitVec aw → Option (PollingEntry aw dw) := fun _ => none
  maxPolling : BitVec 32
  drawn : 10 ≤ maxPolling.toInt ∧ maxPolling.toInt ≤ 100 := by decide
  pollDone : Bool := false
  pollTimeouts : List (RetryItem aw dw) := []

namespace MasterPollingSeq

def isFinishToPolling (s : MasterPollingSeq aw dw) : Bool := s.pollDone == true

def registerPollingTable (s : MasterPollingSeq aw dw) (addr : BitVec aw) (data : BitVec dw) : MasterPollingSeq aw dw :=
  {s with polling := Function.update s.polling addr (some ⟨addr,data,0⟩)}

def setPollingStart (s : MasterPollingSeq aw dw) : MasterPollingSeq aw dw := {s with pollDone := false}

/-- The sequence with what `super` has made of it. -/
def inherit (s : MasterPollingSeq aw dw) (parent : MasterRetrySeq aw dw) : MasterPollingSeq aw dw :=
  {s with toMasterRetrySeq := parent}

/-- A turn of the `foreach` of `mid_do_read_item`. -/
def pollBeat (done : MasterPollingSeq aw dw × RetryItem aw dw) (beat : BitVec aw × Nat) :
    MasterPollingSeq aw dw × RetryItem aw dw :=
  let (s,item) := done
  if s.isAddrToWatch beat.1 then
    match s.polling beat.1 with
    | some entry =>
      if entry.data = item.unpackData beat.2 then ({s with pollDone := true},{item with retry := false})
      else if s.maxPolling.sle entry.visit then
        let item := {item with retry := false}
        ({s with pollTimeouts := s.pollTimeouts ++ [item]},item)
      else (s,{item with retry := true})
    | none => done
  else done

def midDoReadItem (s : MasterPollingSeq aw dw) (item : RetryItem aw dw) : MasterPollingSeq aw dw × RetryItem aw dw :=
  let (parent,item) := s.toMasterRetrySeq.midDoReadItem item
  if item.success then item.addrs.zipIdx.foldl pollBeat (s.inherit parent,item) else (s.inherit parent,item)

def midDoWriteItem (s : MasterPollingSeq aw dw) (item : RetryItem aw dw) : MasterPollingSeq aw dw × RetryItem aw dw :=
  let (parent,item) := s.toMasterRetrySeq.midDoWriteItem item
  (s.inherit parent,item)

/-- `mid_do_*_item` of the direction of an item. -/
def midDo (s : MasterPollingSeq aw dw) (item : RetryItem aw dw) : MasterPollingSeq aw dw × RetryItem aw dw :=
  match item.trsT with
  | .rd => s.midDoReadItem item
  | .wr => s.midDoWriteItem item
  | .rdwr => (s,item)

/-- A turn of the loop of `rcv_from_mon`. -/
def rcvFromMon (s : MasterPollingSeq aw dw) (item : RetryItem aw dw) : MasterPollingSeq aw dw :=
  let (s,item) := s.midDo item
  s.inherit (s.toMasterRetrySeq.postDoItem item)

/-- Whether an item is put back into the mailbox. -/
def requeued (s : MasterPollingSeq aw dw) (item : RetryItem aw dw) : Bool := (s.midDo item).2.retry

/-- The sequence when a polling table has been registered and polling starts. -/
def start (parent : MasterRetrySeq aw dw) (maxPolling : BitVec 32) (drawn : 10 ≤ maxPolling.toInt ∧ maxPolling.toInt ≤ 100)
    (table : List (BitVec aw × BitVec dw)) : MasterPollingSeq aw dw :=
  let s : MasterPollingSeq aw dw := {toMasterRetrySeq := parent, maxPolling, drawn}
  (table.foldl (fun s row => registerPollingTable s row.1 row.2) s).setPollingStart

/-- A polled address has not returned its value with a read, and may be polled again. -/
def Short (s : MasterPollingSeq aw dw) (item : RetryItem aw dw) (beat : BitVec aw × Nat) : Prop :=
  ∃ entry ∈ s.polling beat.1, entry.visit.toInt < s.maxPolling.toInt ∧
    ¬(item.success = true ∧ entry.data = item.unpackData beat.2)

/-- The polling table with an attempt more for each address of a read. -/
def counted (s : MasterPollingSeq aw dw) (item : RetryItem aw dw) (addr : BitVec aw) : Option (PollingEntry aw dw) :=
  (s.polling addr).map fun entry => if addr ∈ item.addrs then {entry with visit := entry.visit+1} else entry

/-- A read is put back exactly for an address that is to be polled again, and is then counted, and polling is done
only after a read that returns all that is expected of it. -/
structure Polls (s : MasterPollingSeq aw dw) (item : RetryItem aw dw) : Prop where
  again : s.requeued item = true ↔ ∃ beat ∈ item.addrs.zipIdx, s.Short item beat
  counts : s.requeued item = true → (s.rcvFromMon item).polling = s.counted item
  done : (s.rcvFromMon item).isFinishToPolling = true → s.isFinishToPolling = true ∨
    ∀ beat ∈ item.addrs.zipIdx, ∀ entry ∈ s.polling beat.1, item.success = true ∧ entry.data = item.unpackData beat.2

/-- How often a read of an address is put back. -/
def attempts (addr : BitVec aw) : MasterPollingSeq aw dw → List (RetryItem aw dw) → Nat
  | _, [] => 0
  | s, item::rest => (if item.trsT = .rd ∧ addr ∈ item.addrs ∧ s.requeued item = true then 1 else 0) +
      attempts addr (s.rcvFromMon item) rest

/-- Every read is polled as it should, and no polled address too often. -/
structure Bounded (s : MasterPollingSeq aw dw) (items : List (RetryItem aw dw)) : Prop where
  polls : Machine.Meets rcvFromMon (fun s item => item.trsT = .rd → Polls s item) s items
  ends : ∀ addr, (s.polling addr).isSome → attempts addr s items ≤ s.maxPolling.toInt

/-- A read that succeeds returns what is expected and comes without the flag of the monitor, unless a watched
address is polled that clears it. One that fails is not for a polled address, and its retries are over. -/
def Settled (s : MasterPollingSeq aw dw) (item : RetryItem aw dw) : Prop :=
  item.trsT = .rd →
    (item.success = true →
      (∀ beat ∈ item.addrs.zipIdx, ∀ entry ∈ s.polling beat.1, entry.data = item.unpackData beat.2) ∧
      (item.retry = false ∨ ∃ beat ∈ item.addrs.zipIdx, s.isAddrToWatch beat.1 = true ∧ (s.polling beat.1).isSome)) ∧
    (item.success = false → (∀ addr ∈ item.addrs, s.polling addr = none) ∧
      if s.isAddrToWatch item.addr = true then s.spent (s.failed item.addr) = true else item.retry = false)

instance (s : MasterPollingSeq aw dw) (item : RetryItem aw dw) : Decidable (Settled s item) :=
  inferInstanceAs (Decidable (_ → _ ∧ (_ → _ ∧ _)))

variable {s : MasterPollingSeq aw dw} {item : RetryItem aw dw}

/-- What a beat leaves of the sequence and of the item. -/
structure Kept (s : MasterPollingSeq aw dw) (item : RetryItem aw dw) (done : MasterPollingSeq aw dw × RetryItem aw dw) : Prop where
  parent : done.1.toMasterRetrySeq = s.toMasterRetrySeq
  polling : done.1.polling = s.polling
  maxPolling : done.1.maxPolling = s.maxPolling
  data : done.2.dataBeat = item.dataBeat

theorem start_kept (s : MasterPollingSeq aw dw) (item : RetryItem aw dw) : Kept s item (s,item) := ⟨rfl,rfl,rfl,rfl⟩

theorem pollBeat_kept {done : MasterPollingSeq aw dw × RetryItem aw dw} (kept : Kept s item done) (beat : BitVec aw × Nat) :
    Kept s item (pollBeat done beat) := by
  obtain ⟨parent,polling,maxPolling,data⟩ := kept
  obtain ⟨t,read⟩ := done
  simp only [pollBeat]
  split
  · split
    · split
      · exact ⟨parent,polling,maxPolling,data⟩
      · split <;> exact ⟨parent,polling,maxPolling,data⟩
    · exact ⟨parent,polling,maxPolling,data⟩
  · exact ⟨parent,polling,maxPolling,data⟩

theorem foldl_kept {done : MasterPollingSeq aw dw × RetryItem aw dw} (kept : Kept s item done) (beats : List (BitVec aw × Nat)) :
    Kept s item (beats.foldl pollBeat done) := by
  induction beats generalizing done with
  | nil => exact kept
  | cons beat rest ih => exact ih (pollBeat_kept kept beat)

/-- A beat that returns what is expected of it clears the flag. -/
theorem pollBeat_retry {done : MasterPollingSeq aw dw × RetryItem aw dw} (kept : Kept s item done) {beat : BitVec aw × Nat}
    (expected : ∀ entry ∈ s.polling beat.1, entry.data = item.unpackData beat.2) :
    (pollBeat done beat).2.retry = false ↔
      done.2.retry = false ∨ s.isAddrToWatch beat.1 = true ∧ (s.polling beat.1).isSome := by
  have data : done.2.unpackData beat.2 = item.unpackData beat.2 := by
    rw [RetryItem.unpackData,kept.data]
    rfl
  have parent := kept.parent
  have polling := kept.polling
  obtain ⟨t,read⟩ := done
  simp only [pollBeat]
  rw [parent,polling,data]
  by_cases watched : s.isAddrToWatch beat.1 = true
  · rw [if_pos watched]
    cases here : s.polling beat.1 with
    | none => simp
    | some entry =>
      simp only [if_pos (expected entry here),watched]
      simp
  · rw [if_neg watched]
    simp [watched]

/-- Beats that return what is expected of them leave the flag as it was, or one of them has cleared it. -/
theorem foldl_retry {done : MasterPollingSeq aw dw × RetryItem aw dw} (kept : Kept s item done) {beats : List (BitVec aw × Nat)}
    (expected : ∀ beat ∈ beats, ∀ entry ∈ s.polling beat.1, entry.data = item.unpackData beat.2) :
    (beats.foldl pollBeat done).2.retry = false ↔
      done.2.retry = false ∨ ∃ beat ∈ beats, s.isAddrToWatch beat.1 = true ∧ (s.polling beat.1).isSome := by
  induction beats generalizing done with
  | nil => simp
  | cons beat rest ih =>
    obtain ⟨first,later⟩ := List.forall_mem_cons.mp expected
    rw [List.foldl_cons,ih (pollBeat_kept kept beat) later,pollBeat_retry kept first,or_assoc]
    simp only [List.mem_cons,exists_eq_or_imp]

theorem midDo_read (read : item.trsT = .rd) : s.midDo item = s.midDoReadItem item := by
  rw [midDo,read]

theorem midDoReadItem_success (success : item.success = true) : s.midDoReadItem item =
    item.addrs.zipIdx.foldl pollBeat (s.inherit ((s.toMasterRetrySeq.purge item.addr).lower .rd),item) := by
  have parent : s.toMasterRetrySeq.midDoReadItem item = ((s.toMasterRetrySeq.purge item.addr).lower .rd,item) :=
    if_neg (by rw [success]; exact Bool.false_ne_true.symm)
  rw [midDoReadItem,parent]
  exact if_pos success

theorem midDoReadItem_failing (read : item.trsT = .rd) (failing : item.success = false) : s.midDoReadItem item =
    (s.inherit (s.toMasterRetrySeq.midDo item).1,(s.toMasterRetrySeq.midDo item).2) := by
  have parent : s.toMasterRetrySeq.midDo item = s.toMasterRetrySeq.midDoReadItem item := by
    rw [MasterRetrySeq.midDo,read]
  have kept : (s.toMasterRetrySeq.midDo item).2.success = false := by
    have handled := s.toMasterRetrySeq.midDo_handled item
    generalize s.toMasterRetrySeq.midDo item = done at handled ⊢
    cases handled <;> exact failing
  rw [parent] at kept ⊢
  rw [midDoReadItem]
  generalize s.toMasterRetrySeq.midDoReadItem item = done at kept ⊢
  obtain ⟨parent,next⟩ := done
  exact if_neg fun success => Bool.noConfusion (kept.symm.trans success)

/-- The polling table is never changed: no attempt is counted. -/
theorem rcvFromMon_polling (s : MasterPollingSeq aw dw) (item : RetryItem aw dw) : (s.rcvFromMon item).polling = s.polling ∧
    (s.rcvFromMon item).maxPolling = s.maxPolling := by
  change (s.midDo item).1.polling = s.polling ∧ (s.midDo item).1.maxPolling = s.maxPolling
  cases kind : item.trsT with
  | rd =>
    rw [midDo_read kind]
    cases outcome : item.success with
    | true =>
      rw [midDoReadItem_success outcome]
      have kept := foldl_kept (start_kept (s.inherit ((s.toMasterRetrySeq.purge item.addr).lower .rd)) item) item.addrs.zipIdx
      exact ⟨kept.polling,kept.maxPolling⟩
    | false =>
      rw [midDoReadItem_failing kind outcome]
      exact ⟨rfl,rfl⟩
  | wr =>
    rw [midDo,kind]
    exact ⟨rfl,rfl⟩
  | rdwr => exact absurd kind item.collected

theorem requeued_success (read : item.trsT = .rd) (success : item.success = true)
    (expected : ∀ beat ∈ item.addrs.zipIdx, ∀ entry ∈ s.polling beat.1, entry.data = item.unpackData beat.2) :
    s.requeued item = false ↔ item.retry = false ∨
      ∃ beat ∈ item.addrs.zipIdx, s.isAddrToWatch beat.1 = true ∧ (s.polling beat.1).isSome := by
  have ranges : (s.inherit ((s.toMasterRetrySeq.purge item.addr).lower .rd)).toRetrySeq = s.toRetrySeq :=
    (MasterRetrySeq.lower_frame _ _).1
  have kept := start_kept (s.inherit ((s.toMasterRetrySeq.purge item.addr).lower .rd)) item
  rw [requeued,midDo_read read,midDoReadItem_success success,foldl_retry kept expected,ranges]
  rfl

theorem requeued_failing (read : item.trsT = .rd) (failing : item.success = false) :
    s.requeued item = s.toMasterRetrySeq.requeued item := by
  rw [requeued,midDo_read read,midDoReadItem_failing read failing]
  rfl

/-- No attempt has been counted. -/
def Unvisited (s : MasterPollingSeq aw dw) : Prop := ∀ addr, ∀ entry ∈ s.polling addr, entry.visit = 0

/-- A read is polled as it should exactly if it is not put back, and returns all that is expected. -/
theorem polls_iff (unvisited : Unvisited s) : Polls s item ↔ s.requeued item = false ∧
    ∀ beat ∈ item.addrs.zipIdx, ∀ entry ∈ s.polling beat.1, item.success = true ∧ entry.data = item.unpackData beat.2 := by
  constructor
  · intro polls
    have still : s.requeued item = false := by
      rw [Bool.eq_false_iff]
      intro again
      obtain ⟨beat,inside,entry,here,-⟩ := polls.again.mp again
      have same := congrFun ((rcvFromMon_polling s item).1.symm.trans (polls.counts again)) beat.1
      rw [counted,here,Option.map_some,if_pos (List.fst_mem_of_mem_zipIdx inside),Option.some_inj] at same
      have visits := congrArg PollingEntry.visit same
      change entry.visit = entry.visit+1 at visits
      rw [unvisited _ entry here] at visits
      exact absurd visits (by decide)
    refine ⟨still,fun beat inside entry here => ?_⟩
    by_contra short
    have again := polls.again.mpr ⟨beat,inside,entry,here,?_,short⟩
    · exact Bool.noConfusion (still.symm.trans again)
    · rw [unvisited _ entry here]
      exact Int.lt_of_lt_of_le (by decide) s.drawn.1
  · rintro ⟨still,returned⟩
    refine ⟨iff_of_false (by rw [still]; exact Bool.false_ne_true) ?_,fun again => ?_,fun _ => .inr returned⟩
    · rintro ⟨beat,inside,entry,here,-,short⟩
      exact short (returned beat inside entry here)
    · exact Bool.noConfusion (still.symm.trans again)

theorem settled_iff (unvisited : Unvisited s) :
    (item.trsT = .rd → Polls s item) ↔ Settled s item := by
  refine forall_congr' fun read => ?_
  rw [polls_iff unvisited]
  cases outcome : item.success with
  | true =>
    simp only [true_and,forall_const,reduceCtorEq,IsEmpty.forall_iff,and_true]
    rw [and_comm]
    exact and_congr_right fun expected => requeued_success read outcome expected
  | false =>
    simp only [reduceCtorEq,IsEmpty.forall_iff,false_and,true_and,forall_const]
    have unpolled : (∀ beat ∈ item.addrs.zipIdx, ∀ entry ∈ s.polling beat.1, False) ↔ ∀ addr ∈ item.addrs, s.polling addr = none := by
      rw [← List.zipIdx_map_fst 0 item.addrs,List.forall_mem_map,List.zipIdx_map_fst]
      exact forall₂_congr fun beat _ => Option.eq_none_iff_forall_not_mem.symm
    rw [unpolled,and_comm,requeued_failing read outcome,MasterRetrySeq.requeued_eq]
    refine and_congr_right fun _ => ?_
    by_cases watched : s.isAddrToWatch item.addr = true
    · rw [if_pos ⟨outcome,watched⟩,if_pos watched,Bool.not_eq_false']
    · rw [if_neg fun both => watched both.2,if_neg watched]

theorem start_unvisited (parent : MasterRetrySeq aw dw) (maxPolling : BitVec 32)
    (drawn : 10 ≤ maxPolling.toInt ∧ maxPolling.toInt ≤ 100) (table : List (BitVec aw × BitVec dw)) :
    Unvisited (start parent maxPolling drawn table) := by
  have register (s : MasterPollingSeq aw dw) (unvisited : Unvisited s) :
      Unvisited (table.foldl (fun s row => registerPollingTable s row.1 row.2) s) := by
    induction table generalizing s with
    | nil => exact unvisited
    | cons row rest ih =>
      refine ih _ fun addr entry here => ?_
      change entry ∈ Function.update s.polling row.1 (some ⟨row.1,row.2,0⟩) addr at here
      by_cases same : addr = row.1
      · subst same
        rw [Function.update_self] at here
        cases here
        rfl
      · rw [Function.update_of_ne same] at here
        exact unvisited addr entry here
  exact register _ fun _ _ absent => absurd absent (Option.not_mem_none _)

theorem rcvFromMon_unvisited (s : MasterPollingSeq aw dw) (item : RetryItem aw dw) (unvisited : Unvisited s) :
    Unvisited (s.rcvFromMon item) := by
  rw [Unvisited,(rcvFromMon_polling s item).1]
  exact unvisited

theorem attempts_settled (addr : BitVec aw) (unvisited : Unvisited s) {items : List (RetryItem aw dw)}
    (settled : Machine.Meets rcvFromMon Settled s items) : attempts addr s items = 0 := by
  induction items generalizing s with
  | nil => rfl
  | cons item rest ih =>
    rw [attempts,ih (rcvFromMon_unvisited s item unvisited) settled.2,if_neg]
    rintro ⟨read,-,again⟩
    have still := ((polls_iff unvisited).mp ((settled_iff unvisited).mpr settled.1 read)).1
    exact Bool.noConfusion (still.symm.trans again)

/-- Polling is bounded, and complete, exactly in the runs where no read has to be polled again. -/
theorem polling_bounded_iff (parent : MasterRetrySeq aw dw) (maxPolling : BitVec 32)
    (drawn : 10 ≤ maxPolling.toInt ∧ maxPolling.toInt ≤ 100) (table : List (BitVec aw × BitVec dw))
    (items : List (RetryItem aw dw)) : Bounded (start parent maxPolling drawn table) items ↔
      Machine.Meets rcvFromMon Settled (start parent maxPolling drawn table) items := by
  have unvisited := start_unvisited parent maxPolling drawn table
  have keep (s : MasterPollingSeq aw dw) (item : RetryItem aw dw) (unvisited : Unvisited s)
      (_ : item.trsT = .rd → Polls s item) : Unvisited (s.rcvFromMon item) := rcvFromMon_unvisited s item unvisited
  have steps := Machine.meets_iff keep (fun _ _ unvisited => settled_iff unvisited) unvisited items
  refine ⟨fun bounded => steps.mp bounded.polls,fun settled => ⟨steps.mpr settled,fun addr _ => ?_⟩⟩
  rw [attempts_settled addr unvisited settled]
  exact Int.le_trans (by decide) (start parent maxPolling drawn table).drawn.1

theorem polled_once_bounded : Bounded (start (MasterRetrySeq.least : MasterRetrySeq 8 8) 10 (by decide) [(1,5)])
    [{trsT := .rd, addrs := [1], dataBeat := [packData 5], success := true}] :=
  (polling_bounded_iff _ _ _ _ _).mpr (by decide)

/-- A read that never returns what is expected is put back for ever, and a burst whose last address returns it
ends the polling for the other. -/
theorem stuck_not_bounded :
    ¬Bounded (start (MasterRetrySeq.least : MasterRetrySeq 8 8) 10 (by decide) [(1,5)])
      (List.replicate 11 {trsT := .rd, addrs := [1], dataBeat := [packData 0], success := true}) ∧
    ¬Bounded (start (MasterRetrySeq.least : MasterRetrySeq 8 8) 10 (by decide) [(1,5),(2,5)])
      [{trsT := .rd, addrs := [1,2], dataBeat := [packData 0,packData 5], success := true}] :=
  ⟨fun bounded => absurd (bounded.ends 1 (by decide)) (by decide),
    fun bounded => absurd ((bounded.polls.1 rfl).done (by decide)) (by decide)⟩

end MasterPollingSeq

end Smtdv
