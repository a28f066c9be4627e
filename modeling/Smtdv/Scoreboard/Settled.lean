import Smtdv.Scoreboard.Soundness

/-! A scoreboard in which no beat waits, and what becomes of it when a transfer of one beat is seen at both ends. -/
namespace Smtdv.Scoreboard
open Lib

variable {aw dw : Nat}

/-- Every beat of a pool is compared, and so is its burst, which is one of the first `n` objects. -/
structure SettledPool (bursts : Heap (Burst aw dw)) (n : Nat) (pool : Pool aw dw) : Prop where
  opened : pool.hasFinalize = false
  older : ∀ a, ∀ it ∈ queueAt pool a, it.parent < n
  compared : ∀ a, ∀ it ∈ queueAt pool a,
    it.hasCheckOnScb = true ∧ (bursts.get it.parent).hasCheckOnScbAll = true

theorem SettledPool.mono {bursts : Heap (Burst aw dw)} {n m : Nat} {pool : Pool aw dw}
    (settled : SettledPool bursts n pool) (more : n ≤ m) : SettledPool bursts m pool :=
  ⟨settled.opened,fun a it member => (settled.older a it member).trans_le more,settled.compared⟩

/-- Objects from the `n`-th on do not matter. -/
theorem SettledPool.later {bursts later : Heap (Burst aw dw)} {n : Nat} {pool : Pool aw dw}
    (settled : SettledPool bursts n pool) (same : ∀ r < n, later.get r = bursts.get r) : SettledPool later n pool := by
  refine ⟨settled.opened,settled.older,fun a it member => ?_⟩
  rw [same it.parent (settled.older a it member)]
  exact settled.compared a it member

theorem nocheckScbGet_append {bursts : Heap (Burst aw dw)} {queue : List (Atomic aw dw)} {aitem : Atomic aw dw}
    (compared : ∀ it ∈ queue, it.hasCheckOnScb = true ∧ (bursts.get it.parent).hasCheckOnScbAll = true)
    (waits : aitem.hasCheckOnScb = false) : nocheckScbGet bursts (queue ++ [aitem]) = some queue.length := by
  have passed :
      queue.findIdx? (fun bitem => !bitem.hasCheckOnScb || !(bursts.get bitem.parent).hasCheckOnScbAll) = none := by
    rw [List.findIdx?_eq_none_iff]
    intro it member
    obtain ⟨seen,all⟩ := compared it member
    rw [seen,all]
    rfl
  rw [nocheckScbGet,List.findIdx?_append,passed,List.findIdx?_cons,waits]
  simp

theorem compare_createAtomicItem {item item' : SequenceItem aw dw} {dir : TrsType} (known : dir ≠ .rdwr)
    (kind : item.trsT = dir) (kind' : item'.trsT = dir) (addrs : item'.addrs = item.addrs)
    (data : item'.dataBeat = item.dataBeat) (byten : item'.bytenBeat = item.bytenBeat) (parent parent' : Nat) :
    (createAtomicItem item 0 parent).item.compare (createAtomicItem item' 0 parent').item = true := by
  have ids : (createAtomicItem item 0 parent).item.SameIds (createAtomicItem item' 0 parent').item :=
    ⟨.inl rfl,.inl rfl⟩
  have same : (createAtomicItem item 0 parent).item.addrs = (createAtomicItem item' 0 parent').item.addrs := by
    rw [createAtomicItem,createAtomicItem,addrs]
  cases dir with
  | wr =>
    refine (SequenceItem.compare_wr (createAtomicItem item 0 parent).item _ kind ids).mpr ⟨kind',same,?_,?_⟩
    · rw [createAtomicItem,createAtomicItem,data]
    · rw [createAtomicItem,createAtomicItem,byten]
  | rd => exact SequenceItem.compare_rd (createAtomicItem item 0 parent).item _ kind kind' same ids
  | rdwr => exact absurd rfl known

/-- The last entry is compared. -/
theorem mem_markChecked {queue : List (Atomic aw dw)} {aitem it : Atomic aw dw}
    (member : it ∈ markChecked (queue ++ [aitem]) queue.length) :
    it ∈ queue ∨ it = {aitem with hasCheckOnScb := true} := by
  obtain ⟨p,found⟩ := List.mem_iff_getElem?.mp member
  rw [markChecked_get] at found
  by_cases here : p = queue.length
  · rw [if_pos here,here] at found
    simp only [List.getElem?_append_right (Nat.le_refl _),Nat.sub_self,List.getElem?_cons_zero,Option.map_some,
      Option.some.injEq] at found
    exact .inr found.symm
  · rw [if_neg here] at found
    rcases List.mem_append.mp (List.mem_of_getElem? found) with before | last
    · exact .inl before
    · have inside := (List.getElem?_eq_some_iff.mp found).1
      rw [List.length_append,List.length_singleton] at inside
      rw [List.getElem?_append_left (by omega)] at found
      exact .inl (List.mem_of_getElem? found)

/-- A beat that is put and compared at once leaves its pool settled. -/
theorem SettledPool.exchange {bursts : Heap (Burst aw dw)} {pool : Pool aw dw} {item item' : SequenceItem aw dw}
    {a : BitVec aw} (settled : SettledPool bursts bursts.next pool) (single : item.addrs = [a]) (dir : TrsType)
    (id : String)
    (same : (createAtomicItem item 0 bursts.next).item.compare (createAtomicItem item' 0 (bursts.next+1)).item = true) :
    let aitem := createAtomicItem item 0 bursts.next
    let aitem' := createAtomicItem item' 0 (bursts.next+1)
    let put := (putAtomic dir pool a aitem).1
    let made := (bursts.alloc {item := item}).alloc {item := item'}
    checkAtomic dir id made put a aitem' =
        (counted made bursts.next,put.update a (markChecked · (queueAt pool a).length),
          [.pop dir a (queueAt pool a).length aitem aitem']) ∧
      SettledPool (counted made bursts.next) (bursts.next+2)
        (put.update a (markChecked · (queueAt pool a).length)) := by
  intro aitem aitem' put made
  have older (r : Nat) (old : r < bursts.next) : made.get r = bursts.get r := by
    rw [Heap.alloc_get_ne _ _ (by rw [Heap.alloc_next]; omega),Heap.alloc_get_ne _ _ (by omega)]
  have queues := putAtomic_queue dir pool settled.opened a aitem
  have here : queueAt put a = queueAt pool a ++ [aitem] := by rw [queues,if_pos rfl]
  have compared := (settled.later older).compared a
  have found := nocheckScbGet_append compared (show aitem.hasCheckOnScb = false from rfl)
  rw [← here] at found
  have entry : (queueAt put a)[(queueAt pool a).length]? = some aitem := by rw [here]; simp
  constructor
  · rcases checkAtomic_cases dir id made put a aitem' with ⟨absent,_⟩ | ⟨pos,it,selected,there,computed⟩
    · exact absurd (absent.symm.trans found) (by simp)
    · obtain rfl := Option.some.inj (selected.symm.trans found)
      obtain rfl := Option.some.inj (there.symm.trans entry)
      rw [computed,if_pos same]
      rfl
  · have burst : (counted made bursts.next).get bursts.next = {item := item, checkNumOnScb := 1} := by
      rw [counted,Heap.modify_get_self,Heap.alloc_get_ne _ _ (by rw [Heap.alloc_next]; omega),Heap.alloc_get_next]
    have old : SettledPool (counted made bursts.next) bursts.next pool := by
      refine settled.later fun r less => ?_
      rw [counted,Heap.modify_get_ne _ _ (Nat.ne_of_lt less),older r less]
    have all : ((counted made bursts.next).get aitem.parent).hasCheckOnScbAll = true := by
      rw [show aitem.parent = bursts.next from rfl,Burst.hasCheckOnScbAll,burst,single]
      rfl
    have entries (b : BitVec aw) (it : Atomic aw dw)
        (member : it ∈ queueAt (put.update a (markChecked · (queueAt pool a).length)) b) :
        it ∈ queueAt pool b ∨ it = {aitem with hasCheckOnScb := true} := by
      rw [update_queue,queues] at member
      by_cases other : b = a
      · subst other
        rw [if_pos rfl,if_pos rfl] at member
        exact mem_markChecked member
      · rw [if_neg other,if_neg other] at member
        exact .inl member
    refine ⟨?_,fun b it member => ?_,fun b it member => ?_⟩
    · rw [Hash.update_open,putAtomic_open,settled.opened]
    · rcases entries b it member with before | rfl
      · exact (old.older b it before).trans_le (Nat.le_add_right _ 2)
      · exact Nat.lt_add_of_pos_right (Nat.succ_pos 1)
    · rcases entries b it member with before | rfl
      · exact old.compared b it before
      · exact ⟨rfl,all⟩

/-! ### The calls of a transfer of one beat -/

theorem writeInitor_wr (scb : Scoreboard aw dw) {item : SequenceItem aw dw} {a : BitVec aw} (kind : item.trsT = .wr)
    (single : item.addrs = [a]) :
    let put := putAtomic .wr scb.wrPool a (createAtomicItem item 0 scb.bursts.next)
    let after := scb.call (.writeInitor item)
    after.bursts = scb.bursts.alloc {item := item} ∧ after.wrPool = put.1 ∧ after.rdPool = scb.rdPool ∧
      after.log = scb.log ++ put.2 := by
  simp only [call,writeInitor,kind,single,List.length_singleton,List.range_one,List.foldl_cons,List.foldl_nil,
    initorBeat,doInitorWrCheck,List.getD_cons_zero,reduceCtorEq,and_false,if_false]
  exact ⟨rfl,rfl,rfl,rfl⟩

theorem writeTarget_rd (scb : Scoreboard aw dw) {item : SequenceItem aw dw} {a : BitVec aw} (kind : item.trsT = .rd)
    (single : item.addrs = [a]) :
    let put := putAtomic .rd scb.rdPool a (createAtomicItem item 0 scb.bursts.next)
    let after := scb.call (.writeTarget item)
    after.bursts = scb.bursts.alloc {item := item} ∧ after.rdPool = put.1 ∧ after.wrPool = scb.wrPool ∧
      after.log = scb.log ++ put.2 := by
  simp only [call,writeTarget,kind,single,List.length_singleton,List.range_one,List.foldl_cons,List.foldl_nil,
    targetBeat,doTargetRdCheck,List.getD_cons_zero,reduceCtorEq,and_false,if_false]
  exact ⟨rfl,rfl,rfl,rfl⟩

theorem writeTarget_wr (scb : Scoreboard aw dw) {item : SequenceItem aw dw} {a : BitVec aw} (kind : item.trsT = .wr)
    (single : item.addrs = [a]) {bursts : Heap (Burst aw dw)} {pool : Pool aw dw} {more : List (Event aw dw)}
    (computed : checkAtomic .wr "SMTDV_SCB_WR_COMP" (scb.bursts.alloc {item := item}) scb.wrPool a
      (createAtomicItem item 0 scb.bursts.next) = (bursts,pool,more)) :
    let after := scb.call (.writeTarget item)
    after.bursts = bursts ∧ after.wrPool = pool ∧ after.rdPool = scb.rdPool ∧ after.log = scb.log ++ more := by
  simp only [call,writeTarget,kind,single,List.length_singleton,List.range_one,List.foldl_cons,List.foldl_nil,
    targetBeat,doTargetWrCheck,List.getD_cons_zero,create,computed]
  split <;> exact ⟨rfl,rfl,rfl,rfl⟩

theorem writeInitor_rd (scb : Scoreboard aw dw) {item : SequenceItem aw dw} {a : BitVec aw} (kind : item.trsT = .rd)
    (single : item.addrs = [a]) {bursts : Heap (Burst aw dw)} {pool : Pool aw dw} {more : List (Event aw dw)}
    (computed : checkAtomic .rd "SMTDV_SCB_RD_COMP" (scb.bursts.alloc {item := item}) scb.rdPool a
      (createAtomicItem item 0 scb.bursts.next) = (bursts,pool,more)) :
    let after := scb.call (.writeInitor item)
    after.bursts = bursts ∧ after.rdPool = pool ∧ after.wrPool = scb.wrPool ∧ after.log = scb.log ++ more := by
  simp only [call,writeInitor,kind,single,List.length_singleton,List.range_one,List.foldl_cons,List.foldl_nil,
    initorBeat,doInitorRdCheck,List.getD_cons_zero,create,computed]
  split <;> exact ⟨rfl,rfl,rfl,rfl⟩

/-- The comparisons: direction, address, and the data of both beats. -/
def comparisons (log : List (Event aw dw)) : List (TrsType × BitVec aw × List (Beat dw) × List (Beat dw)) :=
  log.filterMap fun
    | .pop dir a _ it aitem => some (dir,a,it.item.dataBeat,aitem.item.dataBeat)
    | _ => none

/-- The errors and the warnings. -/
def alarms (log : List (Event aw dw)) : List (Event aw dw) :=
  log.filter fun
    | .error _ _ _ _ | .warning _ => true
    | _ => false

@[simp]
theorem comparisons_append (before after : List (Event aw dw)) :
    comparisons (before ++ after) = comparisons before ++ comparisons after :=
  List.filterMap_append

@[simp]
theorem alarms_append (before after : List (Event aw dw)) : alarms (before ++ after) = alarms before ++ alarms after :=
  List.filter_append _ _

structure Settled (scb : Scoreboard aw dw) : Prop where
  wr : SettledPool scb.bursts scb.bursts.next scb.wrPool
  rd : SettledPool scb.bursts scb.bursts.next scb.rdPool

theorem initial_settled : Settled (initial : Scoreboard aw dw) := by
  have empty : SettledPool (.empty : Heap (Burst aw dw)) 0 (.empty : Pool aw dw) :=
    ⟨rfl,fun _ _ member => (List.not_mem_nil member).elim,fun _ _ member => (List.not_mem_nil member).elim⟩
  exact ⟨empty,empty⟩

/-- What the scoreboard reads of a transfer of one beat. -/
structure Reads (item : SequenceItem aw dw) (dir : TrsType) (a : BitVec aw) (data : Beat dw) : Prop where
  trsT : item.trsT = dir
  addrs : item.addrs = [a]
  data : item.dataBeat = [data]
  byten : item.bytenBeat = []

theorem Reads.aitem {item : SequenceItem aw dw} {dir : TrsType} {a : BitVec aw} {data : Beat dw}
    (reads : Reads item dir a data) (parent : Nat) : (createAtomicItem item 0 parent).item.dataBeat = [data] := by
  rw [createAtomicItem,reads.data]
  rfl

/-- The calls of a transfer: the end that puts its beat comes first. -/
def exchange (initor target : SequenceItem aw dw) : List (Call aw dw) :=
  match initor.trsT with
  | .wr => [.writeInitor initor,.writeTarget target]
  | _ => [.writeTarget target,.writeInitor initor]

/-- A beat put into one of the pools and compared at once leaves both settled. -/
theorem SettledPool.exchanged {bursts : Heap (Burst aw dw)} {pool other : Pool aw dw}
    {first second : SequenceItem aw dw} {dir : TrsType} {a : BitVec aw} {data : Beat dw}
    (settled : SettledPool bursts bursts.next pool) (rest : SettledPool bursts bursts.next other)
    (known : dir ≠ .rdwr) (sent : Reads first dir a data) (seen : Reads second dir a data) (id : String) :
    ∃ bursts' pool' more,
      checkAtomic dir id ((bursts.alloc {item := first}).alloc {item := second})
        (putAtomic dir pool a (createAtomicItem first 0 bursts.next)).1 a
        (createAtomicItem second 0 (bursts.next+1)) = (bursts',pool',more) ∧
      SettledPool bursts' bursts'.next pool' ∧ SettledPool bursts' bursts'.next other ∧
      alarms more = [] ∧ comparisons more = [(dir,a,[data],[data])] := by
  have same := compare_createAtomicItem known sent.trsT seen.trsT (seen.addrs.trans sent.addrs.symm)
    (seen.data.trans sent.data.symm) (seen.byten.trans sent.byten.symm) bursts.next (bursts.next+1)
  obtain ⟨computed,after⟩ := settled.exchange sent.addrs dir id same
  have older (r : Nat) (old : r < bursts.next) :
      (counted ((bursts.alloc {item := first}).alloc {item := second}) bursts.next).get r = bursts.get r := by
    rw [counted,Heap.modify_get_ne _ _ (Nat.ne_of_lt old),Heap.alloc_get_ne _ _ (by rw [Heap.alloc_next]; omega),
      Heap.alloc_get_ne _ _ (by omega)]
  refine ⟨_,_,_,computed,after,(rest.later older).mono (Nat.le_add_right _ 2),rfl,?_⟩
  simp [comparisons,sent.aitem,seen.aitem]

/-- A transfer that is seen alike at both ends is compared, without an alarm, and leaves nothing that waits. -/
theorem Settled.exchange {scb : Scoreboard aw dw} (settled : Settled scb) {initor target : SequenceItem aw dw}
    {dir : TrsType} {a : BitVec aw} {data : Beat dw} (known : dir ≠ .rdwr) (sent : Reads initor dir a data)
    (seen : Reads target dir a data) :
    let after := Machine.run call scb (Scoreboard.exchange initor target)
    Settled after ∧ alarms after.log = alarms scb.log ∧
      comparisons after.log = comparisons scb.log ++ [(dir,a,[data],[data])] := by
  cases dir with
  | rdwr => exact absurd rfl known
  | wr =>
    obtain ⟨_,_,_,computed,wr,rd,silent,compared⟩ :=
      settled.wr.exchanged settled.rd known sent seen "SMTDV_SCB_WR_COMP"
    obtain ⟨bursts,pool,other,log⟩ := writeInitor_wr scb sent.trsT sent.addrs
    rw [putAtomic_report .wr scb.wrPool settled.wr.opened] at log
    obtain ⟨bursts',pool',other',log'⟩ := writeTarget_wr (scb.call (.writeInitor initor)) seen.trsT seen.addrs
      (.trans (by rw [bursts,pool,Heap.alloc_next]) computed)
    rw [Scoreboard.exchange,sent.trsT]
    simp only [Machine.run_cons,Machine.run_nil]
    refine ⟨⟨by rw [bursts',pool']; exact wr,by rw [bursts',other',other]; exact rd⟩,?_,?_⟩
    · rw [log',log,alarms_append,silent]
      simp [alarms]
    · rw [log',log,comparisons_append,compared]
      simp [comparisons]
  | rd =>
    obtain ⟨_,_,_,computed,rd,wr,silent,compared⟩ :=
      settled.rd.exchanged settled.wr known seen sent "SMTDV_SCB_RD_COMP"
    obtain ⟨bursts,pool,other,log⟩ := writeTarget_rd scb seen.trsT seen.addrs
    rw [putAtomic_report .rd scb.rdPool settled.rd.opened] at log
    obtain ⟨bursts',pool',other',log'⟩ := writeInitor_rd (scb.call (.writeTarget target)) sent.trsT sent.addrs
      (.trans (by rw [bursts,pool,Heap.alloc_next]) computed)
    rw [Scoreboard.exchange,sent.trsT]
    simp only [Machine.run_cons,Machine.run_nil]
    refine ⟨⟨by rw [bursts',other',other]; exact wr,by rw [bursts',pool']; exact rd⟩,?_,?_⟩
    · rw [log',log,alarms_append,silent]
      simp [alarms]
    · rw [log',log,comparisons_append,compared]
      simp [comparisons]

end Smtdv.Scoreboard
