import Smtdv.Ahb.Objects

/-! What becomes of the clone that `redrive_bus` queues: it keeps the flag of the response
it is redriven for, so the data thread drops it, and it has lost two of its controls. -/
namespace Smtdv.Ahb.Driver
open Lib

variable {aw dw : Nat}

/-- The clone has been driven again in full: the same controls, and an address and a data
phase for every beat. -/
def Redriven (s : Driver aw dw) (item ritem : Handle aw dw) : Prop :=
  (ritem.trx.trsT = item.trx.trsT ∧ ritem.trx.trxSize = item.trx.trxSize ∧
    ritem.trx.bstType = item.trx.bstType ∧ ritem.trx.trxPrt = item.trx.trxPrt ∧
    ritem.trx.hmastlock = item.trx.hmastlock) ∧
  (s.status ritem).addrIdx = item.trx.bstLen+1 ∧ (s.status ritem).dataIdx = item.trx.bstLen+1

/-- The slave has accepted all addresses of an item without a response to it. -/
def Answered (s : Driver aw dw) (item : Handle aw dw) : Prop :=
  (s.status item).addrComplete = true ∧ item ∉ s.charged.map Prod.fst

instance (s : Driver aw dw) (item ritem : Handle aw dw) : Decidable (Redriven s item ritem) :=
  inferInstanceAs (Decidable (_ ∧ _))

instance (s : Driver aw dw) (item : Handle aw dw) : Decidable (Answered s item) :=
  inferInstanceAs (Decidable (_ ∧ _))

/-- The status of a clone: a response is set and nothing has been driven. -/
structure Stuck (status : Status) : Prop where
  resp : status.retry = true ∨ status.split = true
  dataIdx : status.dataIdx = 0
  dataComplete : status.dataComplete = false

theorem stuck_modify (heap : Heap Status) (id r : Nat) (f : Status → Status)
    (kept : ∀ status, Stuck status → Stuck (f status)) (stuck : Stuck (heap.get r)) :
    Stuck ((heap.modify id f).get r) := by
  rw [Heap.modify_get]
  split
  · exact kept _ stuck
  · exact stuck

theorem stuck_flagged (r : TrxRsp) (status : Status) (stuck : Stuck status) : Stuck (flagged r status) := by
  obtain ⟨resp,dataIdx,dataComplete⟩ := stuck
  cases r with
  | okay | error => exact ⟨resp,dataIdx,dataComplete⟩
  | retry => exact ⟨.inl rfl,dataIdx,dataComplete⟩
  | split => exact ⟨.inr rfl,dataIdx,dataComplete⟩

theorem stuck_clone (r : TrxRsp) (resp : r = .retry ∨ r = .split) (status : Status) :
    Stuck (cloneStatus (flagged r status)) := by
  rcases resp with rfl | rfl
  · exact ⟨.inl rfl,rfl,rfl⟩
  · exact ⟨.inr rfl,rfl,rfl⟩

structure Dropped (s : Driver aw dw) (ritem : Handle aw dw) : Prop where
  stuck : Stuck (s.status ritem)
  controls : ritem.trx.trxPrt = 0 ∧ ritem.trx.hmastlock = 0
  unheard : ∀ item firsts, s.data = .listen item firsts → item.id ≠ ritem.id

theorem mem_clones_old (s : Driver aw dw) (objects : Objects s) (pair : Handle aw dw × Handle aw dw)
    (member : pair ∈ s.clones) : pair.2.id < s.heap.next :=
  objects.old pair.2 (List.mem_append_right _ (List.mem_map.mpr ⟨pair,member,rfl⟩))

theorem step_dropped (s : Driver aw dw) (a : Action aw dw) (objects : Objects s)
    (dropped : ∀ pair ∈ s.clones, Dropped s pair.2) : ∀ pair ∈ (s.step a).clones, Dropped (s.step a) pair.2 := by
  have effect := step_effect s a
  generalize s.step a = s' at effect ⊢
  intro pair member
  cases effect with
  | addrLast | addrNext | addrSecond =>
    obtain ⟨stuck,controls,unheard⟩ := dropped pair member
    refine ⟨?_,controls,unheard⟩
    dsimp only [status]
    refine stuck_modify s.heap _ _ _ ?_ stuck
    exact fun _ kept => ⟨kept.resp,kept.dataIdx,kept.dataComplete⟩
  | addrError =>
    obtain ⟨stuck,controls,unheard⟩ := dropped pair member
    exact ⟨stuck_modify _ _ _ _ (stuck_flagged .error) stuck,controls,unheard⟩
  | addrRedrive opt item phase firsts armed listens resp =>
    rcases List.mem_append.mp member with old | new
    · obtain ⟨stuck,controls,unheard⟩ := dropped pair old
      refine ⟨?_,controls,unheard⟩
      have before : pair.2.id ≠ (s.heap.modify item.id (flagged s.sig.hresp)).next :=
        Nat.ne_of_lt (mem_clones_old s objects pair old)
      rw [status,Heap.alloc_get_ne _ _ before]
      exact stuck_modify _ _ _ _ (stuck_flagged _) stuck
    · rw [List.mem_singleton.mp new]
      refine ⟨?_,⟨rfl,rfl⟩,?_⟩
      · change Stuck ((Heap.alloc (s.heap.modify _ _) _).get s.heap.next)
        rw [← Heap.modify_next s.heap item.id (flagged s.sig.hresp),Heap.alloc_get_next]
        exact stuck_clone _ resp _
      · intro other others hears
        have used : other ∈ s.inUse := by
          apply inUse_data
          rw [show s.data = .listen other others from hears]
          rfl
        exact Nat.ne_of_lt (objects.old other (objects.known other used))
  | dataOver item firsts armed listens | dataDrive item firsts armed listens
  | dataSecond item firsts armed listens =>
    obtain ⟨stuck,controls,unheard⟩ := dropped pair member
    have other := unheard item firsts listens
    refine ⟨?_,controls,fun item' firsts' hears => ?_⟩
    · rw [status,Heap.modify_get_ne _ _ (Ne.symm other)]
      exact stuck
    · first
      | cases hears
      | change (if _ then DataThread.wait else _) = _ at hears
        split at hears
        · cases hears
        · cases hears
          exact other
  | dataFirst item firsts armed listens =>
    obtain ⟨stuck,controls,unheard⟩ := dropped pair member
    refine ⟨stuck,controls,fun item' firsts' hears => ?_⟩
    cases hears
    exact unheard item firsts listens
  | driveBus req =>
    obtain ⟨stuck,controls,unheard⟩ := dropped pair member
    refine ⟨?_,controls,unheard⟩
    rw [status,Heap.alloc_get_ne _ _ (Nat.ne_of_lt (mem_clones_old s objects pair member))]
    exact stuck
  | dataTake | dataSkip =>
    obtain ⟨stuck,controls,unheard⟩ := dropped pair member
    exact ⟨stuck,controls,fun item firsts hears => by cases hears⟩
  | dataEmpty item swaps clean =>
    obtain ⟨stuck,controls,unheard⟩ := dropped pair member
    refine ⟨?_,controls,fun item firsts hears => by cases hears⟩
    have other : pair.2.id ≠ item.id := by
      intro same
      rcases stuck.resp with resp | resp
      · rw [status,same] at resp
        exact absurd (resp.symm.trans clean.2.1) (by decide)
      · rw [status,same] at resp
        exact absurd (resp.symm.trans clean.2.2.1) (by decide)
    rw [status,Heap.modify_get_ne _ _ other]
    exact stuck
  | dataStart item swaps clean =>
    obtain ⟨stuck,controls,unheard⟩ := dropped pair member
    refine ⟨stuck,controls,fun other firsts hears same => ?_⟩
    cases hears
    rcases stuck.resp with resp | resp
    · rw [status,← same] at resp
      exact absurd (resp.symm.trans clean.2.1) (by decide)
    · rw [status,← same] at resp
      exact absurd (resp.symm.trans clean.2.2.1) (by decide)
  | _ => exact ⟨(dropped pair member).stuck,(dropped pair member).controls,(dropped pair member).unheard⟩

theorem after_dropped (hasBusy : Bool) (actions : List (Action aw dw)) :
    ∀ pair ∈ (after hasBusy actions).clones, Dropped (after hasBusy actions) pair.2 := by
  have keep (s : Driver aw dw) (a : Action aw dw)
      (held : Objects s ∧ ∀ pair ∈ s.clones, Dropped s pair.2) :
      Objects (s.step a) ∧ ∀ pair ∈ (s.step a).clones, Dropped (s.step a) pair.2 :=
    ⟨step_objects s a held.1,step_dropped s a held.1 held.2⟩
  exact (Machine.run_induction keep actions ⟨initial_objects hasBusy,fun pair member => by cases member⟩).2

/-- Whatever the run and the waiting items, no clone is ever driven again in full: not a
single beat of its data is driven, and its protection and lock controls are zero. -/
theorem clone_never_redriven (hasBusy : Bool) (actions : List (Action aw dw)) (item ritem : Handle aw dw)
    (member : (item,ritem) ∈ (after hasBusy actions).clones) :
    ¬ Redriven (after hasBusy actions) item ritem ∧ ((after hasBusy actions).status ritem).dataIdx = 0 ∧
      ritem.trx.trxPrt = 0 ∧ ritem.trx.hmastlock = 0 := by
  obtain ⟨stuck,controls,_⟩ := after_dropped hasBusy actions (item,ritem) member
  refine ⟨fun redriven => ?_,stuck.dataIdx,controls⟩
  have none := redriven.2.2
  rw [stuck.dataIdx] at none
  cases none

def pairWrite : Trx 8 8 where
  trsT := .wr
  addrs := [4,5]
  dataBeat := [fun _ => 1,fun _ => 2]
  bstLen := 1
  prio := 0
  bstType := .incr
  trxPrt := 3

/-- The burst is retried at its first beat, and the slave accepts all of the clone. -/
def retried : List (Action 8 8) :=
  [.driveBus pairWrite,.pushAddr 0,.pushData 0,.addrGet,.dataGet,.dataSwap,
    .posedge ⟨true,true,.okay⟩,.addrEdge true,.dataEdge,
    .posedge ⟨true,false,.retry⟩,.addrEdge true,.dataEdge,.pushAddr 0,.pushData 0,
    .posedge ⟨true,true,.retry⟩,.addrEdge true,.dataEdge,.addrGet,.dataGet,.dataSwap,
    .posedge ⟨true,true,.okay⟩,.addrEdge true,.posedge ⟨true,true,.okay⟩,.addrEdge true]

/-- The clone has been accepted in full and none of its data has been driven. -/
theorem retried_not_redriven : (after false retried).Settled ∧
    ∃ pair ∈ (after false retried).clones, Answered (after false retried) pair.2 ∧
      ¬ Redriven (after false retried) pair.1 pair.2 := by
  decide

theorem retried_never_redriven : ¬ Redriven (after false retried) ⟨0,pairWrite⟩
      ⟨1,{pairWrite.clone with prio := -1}⟩ ∧
    ((after false retried).status ⟨1,{pairWrite.clone with prio := -1}⟩).dataIdx = 0 ∧
    ({pairWrite.clone with prio := -1} : Trx 8 8).trxPrt = 0 ∧
    ({pairWrite.clone with prio := -1} : Trx 8 8).hmastlock = 0 :=
  clone_never_redriven false retried ⟨0,pairWrite⟩ ⟨1,{pairWrite.clone with prio := -1}⟩ (by decide)

end Smtdv.Ahb.Driver
