import Smtdv.Scoreboard.Exact
import Smtdv.Scoreboard.Reset

/-! The scoreboard with its threads does at the calls what the one without them does, until a lifetime thread takes
beats from the pools or a reset deletes them. -/
namespace Smtdv
open Lib

variable {aw dw : Nat}

/-- A report of a call, as a run has it. -/
def Event.seen : Event aw dw → Seen aw dw
  | .put dir addr _ aitem => .put dir addr aitem
  | .pop dir addr _ it aitem => .pop dir addr it aitem
  | .error id addr it aitem => .error id addr it aitem
  | .warning addr => .warning addr

def Seen.ofCall : Seen aw dw → Bool
  | .put _ _ _ | .pop _ _ _ _ | .error _ _ _ _ | .warning _ => true
  | .late _ _ _ | .compare _ _ _ | .noTimeout _ | .noCfg _ _ | .cmp _ _ => false

theorem filter_seen (log : List (Event aw dw)) : (log.map Event.seen).filter Seen.ofCall = log.map Event.seen := by
  rw [List.filter_eq_self]
  intro seen inside
  obtain ⟨e,_,rfl⟩ := List.mem_map.mp inside
  cases e <;> rfl

/-- The beats of an error report at an address. -/
def Seen.mismatch (addr : BitVec aw) :
    Seen aw dw → Option ((List (Beat dw) × List (Byten dw)) × List (Beat dw) × List (Byten dw))
  | .error _ a it aitem => if a = addr then some (Scoreboard.content it,Scoreboard.content aitem) else none
  | _ => none

theorem mismatch_seen (addr : BitVec aw) (log : List (Event aw dw)) :
    (log.map Event.seen).filterMap (Seen.mismatch addr) = Scoreboard.mismatches addr log := by
  rw [List.filterMap_map,Scoreboard.mismatches]
  congr 1
  funext e
  cases e <;> rfl

/-- Only a call reports a mismatch. -/
theorem mismatch_ofCall (addr : BitVec aw) (seen : List (Seen aw dw)) :
    (seen.filter Seen.ofCall).filterMap (Seen.mismatch addr) = seen.filterMap (Seen.mismatch addr) := by
  rw [List.filterMap_filter]
  congr 1
  funext one
  cases one <;> rfl

def ScbAction.call : ScbAction aw dw → Option (Call aw dw)
  | .writeInitor item _ => some (.writeInitor item)
  | .writeTarget item _ => some (.writeTarget item)
  | .watchWr | .watchRd | .bkdorWr _ | .bkdorRd _ | .assert | .deassert => none

/-- No period of a lifetime thread, and no reset. -/
def ScbAction.Lasting : ScbAction aw dw → Prop
  | .watchWr | .watchRd | .assert => False
  | .writeInitor _ _ | .writeTarget _ _ | .bkdorWr _ | .bkdorRd _ | .deassert => True

/-- The pool without the life times. -/
def Watch.forget (w : Watch aw dw) : Pool aw dw := w.pool.mapVal (·.map LifeItem.toAtomic)

theorem Watch.forget_get (w : Watch aw dw) (addr : BitVec aw) :
    w.forget.get addr = (w.pool.get addr).map (·.map LifeItem.toAtomic) := Hash.mapVal_get _ _ _

theorem Watch.put_forget (dir : TrsType) (w : Watch aw dw) (addr : BitVec aw) (aitem : Atomic aw dw) (lifeTime : Nat) :
    (putAtomic dir w.forget addr aitem).1 = (w.put addr aitem lifeTime).forget ∧
      [Seen.put dir addr aitem] = (putAtomic dir w.forget addr aitem).2.map Event.seen := by
  have here : (w.forget.get addr).isSome = (w.pool.get addr).isSome := by
    rw [Watch.forget_get,Option.isSome_map]
  have grown (tque : List (LifeItem aw dw)) :
      (tque ++ [(⟨aitem,lifeTime,lifeTime,0⟩ : LifeItem aw dw)]).map LifeItem.toAtomic =
        (· ++ [aitem]) (tque.map LifeItem.toAtomic) := List.map_append
  have updated (pool : LifePool aw dw) :
      (pool.update addr (· ++ [⟨aitem,lifeTime,lifeTime,0⟩])).mapVal (·.map LifeItem.toAtomic) =
        (pool.mapVal (·.map LifeItem.toAtomic)).update addr (· ++ [aitem]) := Hash.mapVal_update _ _ _ grown
  refine ⟨?_,rfl⟩
  unfold Watch.put putAtomic
  dsimp only
  rw [here,Watch.forget,Watch.forget,updated]
  split
  · rfl
  · rw [Hash.mapVal_set]
    rfl

theorem map_markChecked (tque : List (LifeItem aw dw)) (pos : Nat) :
    (tque.modify pos fun item => {item with hasCheckOnScb := true}).map LifeItem.toAtomic =
      markChecked (tque.map LifeItem.toAtomic) pos := by
  apply List.ext_getElem?
  intro i
  rw [markChecked,List.getElem?_map,List.getElem?_modify,List.getElem?_modify,List.getElem?_map]
  cases tque[i]? with
  | none => rfl
  | some item =>
    change some _ = some _
    split <;> rfl

theorem map_getD (tque : List (LifeItem aw dw)) (pos : Nat) :
    (tque.map LifeItem.toAtomic).getD pos default = (tque.getD pos default).toAtomic := by
  rw [List.getD_eq_getElem?_getD,List.getD_eq_getElem?_getD,List.getElem?_map]
  cases tque[pos]? <;> rfl

theorem Watch.check_forget (dir : TrsType) (id : String) (bursts : Heap (Burst aw dw)) (w : Watch aw dw)
    (addr : BitVec aw) (aitem : Atomic aw dw) :
    (checkAtomic dir id bursts w.forget addr aitem).1 = (w.check dir id bursts addr aitem).1 ∧
      (checkAtomic dir id bursts w.forget addr aitem).2.1 = (w.check dir id bursts addr aitem).2.1.forget ∧
      (w.check dir id bursts addr aitem).2.2 = (checkAtomic dir id bursts w.forget addr aitem).2.2.map Event.seen := by
  unfold Watch.check checkAtomic
  rw [Watch.forget_get]
  cases present : w.pool.get addr with
  | none =>
    have keys : w.forget.keys = w.pool.keys := Hash.mapVal_keys _ _
    refine ⟨rfl,rfl,?_⟩
    have warnings : w.pool.keys.map Seen.warning =
        (w.pool.keys.map (.warning : BitVec aw → Event aw dw)).map Event.seen := by
      rw [List.map_map]
      rfl
    rw [Option.map_none,keys]
    exact warnings
  | some tque =>
    rw [Option.map_some]
    dsimp only
    cases found : nocheckScbGet bursts (tque.map LifeItem.toAtomic) with
    | none => exact ⟨rfl,rfl,rfl⟩
    | some pos =>
      dsimp only
      rw [map_getD]
      refine ⟨rfl,(Hash.mapVal_update _ _ _ fun tque => map_markChecked tque pos).symm,?_⟩
      split <;> rfl

/-- The scoreboard without threads has the same counters, and the pools without their life times. -/
structure Forgets (scb : FullScb aw dw) (plain : Scoreboard aw dw) : Prop where
  bursts : plain.bursts = scb.bursts
  wr : plain.wrPool = scb.wr.forget
  rd : plain.rdPool = scb.rd.forget

/-- Both go on alike: of the calls the one has seen what the other reports. -/
structure Together (plain : Scoreboard aw dw) (r : FullScb aw dw × List (Seen aw dw)) (plain' : Scoreboard aw dw) :
    Prop where
  forgets : Forgets r.1 plain'
  seen : plain'.log.map Event.seen = plain.log.map Event.seen ++ r.2.filter Seen.ofCall

theorem reported (log : List (Event aw dw)) {more : List (Event aw dw)} {seen : List (Seen aw dw)}
    (same : seen = more.map Event.seen) :
    (log ++ more).map Event.seen = log.map Event.seen ++ seen.filter Seen.ofCall := by
  rw [same,filter_seen,List.map_append]

namespace FullScb

theorem initorBeat_together {scb : FullScb aw dw} {plain : Scoreboard aw dw} (forgets : Forgets scb plain)
    (item : SequenceItem aw dw) (lifeTimes : Nat → Nat) (self i : Nat) :
    Together plain (scb.initorBeat item lifeTimes self i) (plain.initorBeat item self i) := by
  obtain ⟨bursts,wrPool,rdPool,rbox,wbox,log⟩ := plain
  obtain ⟨rfl,rfl,rfl⟩ := forgets
  unfold initorBeat Scoreboard.initorBeat
  cases item.trsT with
  | wr =>
    obtain ⟨pool,seen⟩ := Watch.put_forget .wr scb.wr (item.addrs.getD i 0) (createAtomicItem item i self) (lifeTimes i)
    exact ⟨⟨rfl,pool,rfl⟩,reported log seen⟩
  | rd =>
    obtain ⟨bursts,pool,seen⟩ := Watch.check_forget .rd "SMTDV_SCB_RD_COMP" scb.bursts scb.rd (item.addrs.getD i 0)
      (createAtomicItem item i self)
    exact ⟨⟨bursts,rfl,pool⟩,reported log seen⟩
  | rdwr => exact ⟨⟨rfl,rfl,rfl⟩,(List.append_nil _).symm⟩

theorem targetBeat_together {scb : FullScb aw dw} {plain : Scoreboard aw dw} (forgets : Forgets scb plain)
    (item : SequenceItem aw dw) (lifeTimes : Nat → Nat) (self i : Nat) :
    Together plain (scb.targetBeat item lifeTimes self i) (plain.targetBeat item self i) := by
  obtain ⟨bursts,wrPool,rdPool,rbox,wbox,log⟩ := plain
  obtain ⟨rfl,rfl,rfl⟩ := forgets
  unfold targetBeat Scoreboard.targetBeat
  cases item.trsT with
  | wr =>
    obtain ⟨bursts,pool,seen⟩ := Watch.check_forget .wr "SMTDV_SCB_WR_COMP" scb.bursts scb.wr (item.addrs.getD i 0)
      (createAtomicItem item i self)
    exact ⟨⟨bursts,pool,rfl⟩,reported log seen⟩
  | rd =>
    obtain ⟨pool,seen⟩ := Watch.put_forget .rd scb.rd (item.addrs.getD i 0) (createAtomicItem item i self) (lifeTimes i)
    exact ⟨⟨rfl,rfl,pool⟩,reported log seen⟩
  | rdwr => exact ⟨⟨rfl,rfl,rfl⟩,(List.append_nil _).symm⟩

theorem beats_together {beat : FullScb aw dw → Nat → FullScb aw dw × List (Seen aw dw)}
    {beat' : Scoreboard aw dw → Nat → Scoreboard aw dw}
    (alike : ∀ scb plain i, Forgets scb plain → Together plain (beat scb i) (beat' plain i)) {scb : FullScb aw dw}
    {plain : Scoreboard aw dw} (forgets : Forgets scb plain) (n : Nat) :
    Together plain (beats beat scb n) ((List.range n).foldl beat' plain) := by
  unfold beats
  induction n with
  | zero => exact ⟨forgets,(List.append_nil _).symm⟩
  | succ n ih =>
    have next := alike _ _ n ih.forgets
    rw [List.range_succ,List.foldl_append,List.foldl_append]
    refine ⟨next.forgets,next.seen.trans ?_⟩
    rw [ih.seen,List.append_assoc,← List.filter_append]
    rfl

theorem create_forgets {scb : FullScb aw dw} {plain : Scoreboard aw dw} (forgets : Forgets scb plain)
    (item : SequenceItem aw dw) :
    Forgets {scb with bursts := scb.bursts.alloc {item := item}} (plain.create item) :=
  ⟨congrArg (Heap.alloc · _) forgets.bursts,forgets.wr,forgets.rd⟩

theorem writeInitor_together {scb : FullScb aw dw} {plain : Scoreboard aw dw} (forgets : Forgets scb plain)
    (item : SequenceItem aw dw) (lifeTimes : Nat → Nat) :
    Together plain (scb.writeInitor item lifeTimes) (plain.writeInitor item) := by
  have looped := beats_together (fun _ _ i forgets => initorBeat_together forgets item lifeTimes scb.bursts.next i)
    (create_forgets forgets item) item.addrs.length
  unfold writeInitor Scoreboard.writeInitor
  dsimp only
  rw [forgets.bursts]
  split
  · exact ⟨⟨looped.forgets.bursts,looped.forgets.wr,looped.forgets.rd⟩,looped.seen⟩
  · exact ⟨looped.forgets,looped.seen⟩

theorem writeTarget_together {scb : FullScb aw dw} {plain : Scoreboard aw dw} (forgets : Forgets scb plain)
    (item : SequenceItem aw dw) (lifeTimes : Nat → Nat) :
    Together plain (scb.writeTarget item lifeTimes) (plain.writeTarget item) := by
  have looped := beats_together (fun _ _ i forgets => targetBeat_together forgets item lifeTimes scb.bursts.next i)
    (create_forgets forgets item) item.addrs.length
  unfold writeTarget Scoreboard.writeTarget
  dsimp only
  rw [forgets.bursts]
  split
  · exact ⟨⟨looped.forgets.bursts,looped.forgets.wr,looped.forgets.rd⟩,looped.seen⟩
  · exact ⟨looped.forgets,looped.seen⟩

/-- What a back-door thread has seen is not of a call. -/
theorem bkdor_seen (dir : TrsType) (mapCfgs : List MapCfg) (bk : Bkdor) (bursts : Heap (Burst aw dw))
    (table : Nat → List MemRow) (box : List Nat) (task : BkdorTask) :
    (task.step dir mapCfgs bk bursts table box).2.2.filter Seen.ofCall = [] := by
  have attempt (rows : List MemRow) (item : SequenceItem aw dw) (r sid timeout : Nat) :
      (BkdorTask.attempt dir rows item r sid timeout).2.filter Seen.ofCall = [] := by
    unfold BkdorTask.attempt
    split
    · rfl
    · split <;> rfl
  unfold BkdorTask.step
  split
  · rfl
  · rfl
  · split
    · rfl
    · dsimp only
      split
      · rfl
      · exact attempt _ _ _ _ _
  · exact attempt _ _ _ _ _

theorem step_together (cfg : ScbCfg) {scb : FullScb aw dw} {plain : Scoreboard aw dw} (forgets : Forgets scb plain)
    {a : ScbAction aw dw} (lasting : a.Lasting) :
    Together plain (scb.step cfg a) (a.call.elim plain plain.call) := by
  have silent {r : FullScb aw dw × List (Seen aw dw)} (kept : Forgets r.1 plain)
      (none : r.2.filter Seen.ofCall = []) : Together plain r plain :=
    ⟨kept,by rw [none,List.append_nil]⟩
  cases a with
  | writeInitor item lifeTimes => exact writeInitor_together forgets item lifeTimes
  | writeTarget item lifeTimes => exact writeTarget_together forgets item lifeTimes
  | watchWr | watchRd | assert => exact lasting.elim
  | bkdorWr table | bkdorRd table =>
    exact silent ⟨forgets.bursts,forgets.wr,forgets.rd⟩ (bkdor_seen _ _ _ _ _ _ _)
  | deassert =>
    have start (dir : TrsType) (bk : Bkdor) :
        (BkdorTask.start dir bk : BkdorTask × List (Seen aw dw)).2 = [] := by rw [start_waiting]
    rw [step]
    split
    · exact silent forgets rfl
    · rw [run]
      split
      · exact silent ⟨forgets.bursts,forgets.wr,forgets.rd⟩ rfl
      · exact silent ⟨forgets.bursts,forgets.wr,forgets.rd⟩ (by simp [start])

/-- In a run without a period of a lifetime thread and without a reset the calls report what they report without the
threads, whatever the life times and the back-door threads are. -/
theorem seen_calls (cfg : ScbCfg) (actions : List (ScbAction aw dw)) (lasting : ∀ a ∈ actions, a.Lasting) :
    (seen cfg {} actions).filter Seen.ofCall =
      (Scoreboard.after (actions.filterMap ScbAction.call)).log.map Event.seen := by
  have along {scb : FullScb aw dw} {plain : Scoreboard aw dw} (forgets : Forgets scb plain) :
      (Machine.run Scoreboard.call plain (actions.filterMap ScbAction.call)).log.map Event.seen =
        plain.log.map Event.seen ++ (seen cfg scb actions).filter Seen.ofCall := by
    induction actions generalizing scb plain with
    | nil => exact (List.append_nil _).symm
    | cons a rest ih =>
      have first := step_together cfg forgets (lasting a List.mem_cons_self)
      have later := ih (fun b inside => lasting b (List.mem_cons_of_mem a inside)) first.forgets
      have run : Machine.run Scoreboard.call plain ((a::rest).filterMap ScbAction.call) =
          Machine.run Scoreboard.call (a.call.elim plain plain.call) (rest.filterMap ScbAction.call) := by
        cases call : a.call with
        | none => rw [List.filterMap_cons_none call]; rfl
        | some c => rw [List.filterMap_cons_some call]; rfl
      rw [run,later,first.seen,List.append_assoc,seen,List.filter_append]
  have initial : Forgets ({} : FullScb aw dw) .initial := ⟨rfl,rfl,rfl⟩
  exact (along initial).symm

/-- In such a run the scoreboard with its threads reports the write beats that differ from those sent in their place,
and nothing else, where no half compared burst is in the way. -/
theorem mismatches_calls (cfg : ScbCfg) (actions : List (ScbAction aw dw)) (lasting : ∀ a ∈ actions, a.Lasting)
    (resolved : Machine.Meets Scoreboard.op Scoreboard.Resolved .initial
      ((actions.filterMap ScbAction.call).flatMap Scoreboard.ops)) (addr : BitVec aw) :
    (seen cfg {} actions).filterMap (Seen.mismatch addr) =
      ((Scoreboard.initorStream addr ((actions.filterMap ScbAction.call).flatMap Scoreboard.ops)).zip
        (Scoreboard.answered addr ((actions.filterMap ScbAction.call).flatMap Scoreboard.ops))).filter
          fun beats => beats.1 ≠ beats.2 := by
  rw [← mismatch_ofCall,seen_calls cfg actions lasting,mismatch_seen]
  exact (Scoreboard.reports_answered _ resolved).1 addr

end FullScb

end Smtdv
