import Smtdv.Common.Backdoor
import Smtdv.Scoreboard.Periods

/-! The scoreboard with its four threads, and `reset_scoreboard`, which the `run_phase` calls while
the threads are stopped. The monitored items are objects of the monitors: a new scoreboard has none of
them, but they are still there. -/
namespace Smtdv
open Lib

variable {aw dw : Nat}

/-- What a run reports and compares. -/
inductive Seen (aw dw : Nat)
  | put (dir : TrsType) (addr : BitVec aw) (aitem : Atomic aw dw)
  | pop (dir : TrsType) (addr : BitVec aw) (it aitem : Atomic aw dw)
  | error (id : String) (addr : BitVec aw) (it aitem : Atomic aw dw)
  | warning (addr : BitVec aw)
  | late (dir : TrsType) (addr : BitVec aw) (item : LifeItem aw dw)
  | compare (dir : TrsType) (item : SequenceItem aw dw) (same : Bool)
  | noTimeout (dir : TrsType)
  | noCfg (dir : TrsType) (item : SequenceItem aw dw)
  | cmp (dir : TrsType) (item : SequenceItem aw dw)
  deriving DecidableEq

/-- Where a back-door thread is: not running, at `wait(size()>0)`, at the clock with an item whose
comparison has failed, or past a fatal report. -/
inductive BkdorTask
  | stopped
  | waiting
  | comparing (item sid timeout : Nat)
  | ended
  deriving DecidableEq

structure Bkdor where
  timeout : Int
  c_timeout : 2 ≤ timeout ∧ timeout ≤ 5

/-- The address map of the first initiator and the two back-door handlers. -/
structure ScbCfg where
  mapCfgs : List MapCfg
  bkdorWr : Bkdor
  bkdorRd : Bkdor

structure FullScb (aw dw : Nat) extends LifeScb aw dw where
  rbox : List Nat := []
  wbox : List Nat := []
  th2 : BkdorTask := .stopped
  th3 : BkdorTask := .stopped
  /- `has_finalize` of the threads, and whether `run_phase` is past `wait(resetn)` -/
  hasFinalize : Bool := false
  started : Bool := false

/-- A call of an analysis export with the `life_time` of each atomic item it makes, a period of a
lifetime thread, a step of a back-door thread with the tables as they are, or an edge of `resetn`. -/
inductive ScbAction (aw dw : Nat)
  | writeInitor (item : SequenceItem aw dw) (lifeTimes : Nat → Nat)
  | writeTarget (item : SequenceItem aw dw) (lifeTimes : Nat → Nat)
  | watchWr
  | watchRd
  | bkdorWr (table : Nat → List MemRow)
  | bkdorRd (table : Nat → List MemRow)
  | assert
  | deassert

/-- The comparison of an atomic item with the one that waits for its address. -/
def Watch.check (dir : TrsType) (id : String) (bursts : Heap (Burst aw dw)) (w : Watch aw dw) (addr : BitVec aw)
    (aitem : Atomic aw dw) : Heap (Burst aw dw) × Watch aw dw × List (Seen aw dw) :=
  match w.pool.get addr with
  | none => (bursts,w,w.pool.keys.map .warning)
  | some tque =>
    match nocheckScbGet bursts (tque.map LifeItem.toAtomic) with
    | none => (bursts,w,[])
    | some pos =>
      let it := (tque.getD pos default).toAtomic
      (bursts.modify it.parent fun burst => {burst with checkNumOnScb := burst.checkNumOnScb+1},
        w.act bursts (.compared addr pos),
        (if it.item.compare aitem.item then [] else [.error id addr it aitem]) ++ [.pop dir addr it aitem])

namespace BkdorTask

/-- The head of `while(timeout>0)`. -/
def attempt (dir : TrsType) (rows : List MemRow) (item : SequenceItem aw dw) (r sid timeout : Nat) :
    BkdorTask × List (Seen aw dw) :=
  if timeout = 0 then (.waiting,[.cmp dir item])
  else if Backdoor.compare rows item then (.waiting,[.compare dir item true])
  else (.comparing r sid timeout,[.compare dir item false])

def start (dir : TrsType) (bk : Bkdor) : BkdorTask × List (Seen aw dw) :=
  if bk.timeout < 0 then (.ended,[.noTimeout dir]) else (.waiting,[])

/-- The box, the thread and what is seen after it has gone on. -/
def step (dir : TrsType) (mapCfgs : List MapCfg) (bk : Bkdor) (bursts : Heap (Burst aw dw)) (table : Nat → List MemRow)
    (box : List Nat) : BkdorTask → List Nat × BkdorTask × List (Seen aw dw)
  | .stopped => (box,.stopped,[])
  | .ended => (box,.ended,[])
  | .waiting =>
    match box with
    | [] => ([],.waiting,[])
    | r::rest =>
      let item := (bursts.get r).item
      match findSlave mapCfgs (item.addr.toNat % 2^32) with
      | none => (rest,.ended,[.noCfg dir item])
      | some sid => (rest,attempt dir (table sid) item r sid bk.timeout.toNat)
  | .comparing r sid timeout => (box,attempt dir (table sid) (bursts.get r).item r sid (timeout-1))

end BkdorTask

namespace FullScb

/-- The body of the loop of `_write_initor`. -/
def initorBeat (scb : FullScb aw dw) (item : SequenceItem aw dw) (lifeTimes : Nat → Nat) (self i : Nat) :
    FullScb aw dw × List (Seen aw dw) :=
  let aitem := createAtomicItem item i self
  let addr := item.addrs.getD i 0
  match item.trsT with
  | .wr => ({scb with wr := scb.wr.put addr aitem (lifeTimes i)},[.put .wr addr aitem])
  | .rd =>
    let r := scb.rd.check .rd "SMTDV_SCB_RD_COMP" scb.bursts addr aitem
    ({scb with bursts := r.1, rd := r.2.1},r.2.2)
  | .rdwr => (scb,[])

/-- The body of the loop of `_write_target`. -/
def targetBeat (scb : FullScb aw dw) (item : SequenceItem aw dw) (lifeTimes : Nat → Nat) (self i : Nat) :
    FullScb aw dw × List (Seen aw dw) :=
  let aitem := createAtomicItem item i self
  let addr := item.addrs.getD i 0
  match item.trsT with
  | .wr =>
    let r := scb.wr.check .wr "SMTDV_SCB_WR_COMP" scb.bursts addr aitem
    ({scb with bursts := r.1, wr := r.2.1},r.2.2)
  | .rd => ({scb with rd := scb.rd.put addr aitem (lifeTimes i)},[.put .rd addr aitem])
  | .rdwr => (scb,[])

/-- The loop over the beats of an item. -/
def beats (beat : FullScb aw dw → Nat → FullScb aw dw × List (Seen aw dw)) (scb : FullScb aw dw) (n : Nat) :
    FullScb aw dw × List (Seen aw dw) :=
  (List.range n).foldl (fun s i => ((beat s.1 i).1,s.2 ++ (beat s.1 i).2)) (scb,[])

def writeInitor (scb : FullScb aw dw) (item : SequenceItem aw dw) (lifeTimes : Nat → Nat) :
    FullScb aw dw × List (Seen aw dw) :=
  let self := scb.bursts.next
  let r := beats (fun scb i => scb.initorBeat item lifeTimes self i)
    {scb with bursts := scb.bursts.alloc {item := item}}
    item.addrs.length
  (if item.success ∧ item.trsT = .rd then {r.1 with rbox := r.1.rbox ++ [self]} else r.1,r.2)

def writeTarget (scb : FullScb aw dw) (item : SequenceItem aw dw) (lifeTimes : Nat → Nat) :
    FullScb aw dw × List (Seen aw dw) :=
  let self := scb.bursts.next
  let r := beats (fun scb i => scb.targetBeat item lifeTimes self i)
    {scb with bursts := scb.bursts.alloc {item := item}}
    item.addrs.length
  (if item.success ∧ item.trsT = .wr then {r.1 with wbox := r.1.wbox ++ [self]} else r.1,r.2)

/-- `reset_scoreboard`: the keys of the first pool are still in `taddr` at the second. -/
def resetScoreboard (scb : FullScb aw dw) : FullScb aw dw :=
  let taddr := scb.wr.pool.keys
  let wrPool := taddr.foldl Hash.delete scb.wr.pool
  let taddr := taddr ++ scb.rd.pool.keys
  let rdPool := taddr.foldl Hash.delete scb.rd.pool
  {scb with wr := {scb.wr with pool := wrPool}, rd := {scb.rd with pool := rdPool}, hasFinalize := false}

/-- `disable fork`: nothing is left of the tasks. -/
def disableFork (scb : FullScb aw dw) : FullScb aw dw :=
  {scb with
    wr := {pool := scb.wr.pool}
    rd := {pool := scb.rd.pool}
    th2 := .stopped
    th3 := .stopped
    started := false}

/-- `th_handler.run()`. -/
def run (cfg : ScbCfg) (scb : FullScb aw dw) : FullScb aw dw × List (Seen aw dw) :=
  if scb.hasFinalize then ({scb with started := true},[])
  else
    let th2 := BkdorTask.start .wr cfg.bkdorWr
    let th3 := BkdorTask.start .rd cfg.bkdorRd
    ({scb with th2 := th2.1, th3 := th3.1, hasFinalize := true, started := true},th2.2 ++ th3.2)

def step (cfg : ScbCfg) (scb : FullScb aw dw) : ScbAction aw dw → FullScb aw dw × List (Seen aw dw)
  | .writeInitor item lifeTimes => scb.writeInitor item lifeTimes
  | .writeTarget item lifeTimes => scb.writeTarget item lifeTimes
  | .watchWr =>
    if scb.started then
      let wr := scb.wr.period scb.bursts
      ({scb with wr := wr},wr.reports.map fun report => .late .wr report.1 report.2)
    else (scb,[])
  | .watchRd =>
    if scb.started then
      let rd := scb.rd.period scb.bursts
      ({scb with rd := rd},rd.reports.map fun report => .late .rd report.1 report.2)
    else (scb,[])
  | .bkdorWr table =>
    let r := scb.th2.step .wr cfg.mapCfgs cfg.bkdorWr scb.bursts table scb.wbox
    ({scb with wbox := r.1, th2 := r.2.1},r.2.2)
  | .bkdorRd table =>
    let r := scb.th3.step .rd cfg.mapCfgs cfg.bkdorRd scb.bursts table scb.rbox
    ({scb with rbox := r.1, th3 := r.2.1},r.2.2)
  | .assert => if scb.started then (scb.disableFork.resetScoreboard,[]) else (scb,[])
  | .deassert => if scb.started then (scb,[]) else scb.run cfg

def after (cfg : ScbCfg) (scb : FullScb aw dw) (actions : List (ScbAction aw dw)) : FullScb aw dw :=
  Machine.run (fun scb a => (scb.step cfg a).1) scb actions

/-- What is reported and compared along a run. -/
def seen (cfg : ScbCfg) : FullScb aw dw → List (ScbAction aw dw) → List (Seen aw dw)
  | _,[] => []
  | scb,a::rest => (scb.step cfg a).2 ++ seen cfg (scb.step cfg a).1 rest

/-- A new scoreboard, among the items that there are. -/
def fresh (bursts : Heap (Burst aw dw)) : FullScb aw dw := {bursts := bursts}

/-- The pools take new addresses. -/
structure Opened (scb : FullScb aw dw) : Prop where
  wr : scb.wr.pool.hasFinalize = false
  rd : scb.rd.pool.hasFinalize = false

theorem beats_opened {beat : FullScb aw dw → Nat → FullScb aw dw × List (Seen aw dw)}
    (kept : ∀ scb i, scb.Opened → (beat scb i).1.Opened) {scb : FullScb aw dw} (opened : scb.Opened) (n : Nat) :
    (beats beat scb n).1.Opened := by
  unfold beats
  induction n with
  | zero => exact opened
  | succ n ih =>
    rw [List.range_succ,List.foldl_append]
    exact kept _ n ih

theorem put_open (w : Watch aw dw) (addr : BitVec aw) (aitem : Atomic aw dw) (lifeTime : Nat) :
    (w.put addr aitem lifeTime).pool.hasFinalize = w.pool.hasFinalize := by
  unfold Watch.put
  change (if (w.pool.get addr).isSome then w.pool else w.pool.set addr []).hasFinalize = _
  split
  · rfl
  · exact Hash.set_open _ _ _

theorem check_open (dir : TrsType) (id : String) (bursts : Heap (Burst aw dw)) (w : Watch aw dw) (addr : BitVec aw)
    (aitem : Atomic aw dw) : (w.check dir id bursts addr aitem).2.1.pool.hasFinalize = w.pool.hasFinalize := by
  unfold Watch.check
  split
  · rfl
  · split <;> rfl

theorem period_kept (bursts : Heap (Burst aw dw)) (w : Watch aw dw) :
    (w.period bursts).pool.hasFinalize = w.pool.hasFinalize := by
  unfold Watch.period
  split
  · rfl
  · exact Watch.visits_open _ _ _

theorem initorBeat_opened (item : SequenceItem aw dw) (lifeTimes : Nat → Nat) (self : Nat) (scb : FullScb aw dw)
    (i : Nat) (opened : scb.Opened) : (scb.initorBeat item lifeTimes self i).1.Opened := by
  unfold initorBeat
  cases item.trsT with
  | wr => exact ⟨(put_open _ _ _ _).trans opened.wr,opened.rd⟩
  | rd => exact ⟨opened.wr,(check_open _ _ _ _ _ _).trans opened.rd⟩
  | rdwr => exact opened

theorem targetBeat_opened (item : SequenceItem aw dw) (lifeTimes : Nat → Nat) (self : Nat) (scb : FullScb aw dw)
    (i : Nat) (opened : scb.Opened) : (scb.targetBeat item lifeTimes self i).1.Opened := by
  unfold targetBeat
  cases item.trsT with
  | wr => exact ⟨(check_open _ _ _ _ _ _).trans opened.wr,opened.rd⟩
  | rd => exact ⟨opened.wr,(put_open _ _ _ _).trans opened.rd⟩
  | rdwr => exact opened

theorem deletes_get (taddr : List (BitVec aw)) (pool : LifePool aw dw) (opened : pool.hasFinalize = false)
    (a : BitVec aw) :
    (taddr.foldl Hash.delete pool).get a = if a ∈ taddr then none else pool.get a := by
  induction taddr generalizing pool with
  | nil => simp
  | cons addr rest ih =>
    rw [List.foldl_cons,ih _ ((Hash.delete_open _ _).trans opened),Hash.delete_get _ opened]
    by_cases later : a ∈ rest
    · simp [later]
    · by_cases here : a = addr <;> simp [later,here]

theorem deletes_open (taddr : List (BitVec aw)) (pool : LifePool aw dw) :
    (taddr.foldl Hash.delete pool).hasFinalize = pool.hasFinalize := by
  induction taddr generalizing pool with
  | nil => rfl
  | cons addr rest ih => exact (ih _).trans (Hash.delete_open _ _)

/-- Deleting all its keys, and any others, leaves a pool empty. -/
theorem deletes_empty {taddr : List (BitVec aw)} {pool : LifePool aw dw} (opened : pool.hasFinalize = false)
    (all : ∀ a ∈ pool.keys, a ∈ taddr) : taddr.foldl Hash.delete pool = .empty := by
  have keys : (taddr.foldl Hash.delete pool).keys = [] := by
    rw [List.eq_nil_iff_forall_not_mem]
    intro a inside
    rw [Hash.mem_keys,deletes_get taddr pool opened] at inside
    split at inside
    · contradiction
    · next absent => exact absent (all a ((Hash.mem_keys _ _).mpr inside))
  have stays := (deletes_open taddr pool).trans opened
  generalize taddr.foldl Hash.delete pool = left at keys stays
  obtain ⟨entries,hasFinalize,sorted⟩ := left
  obtain rfl : entries = [] := List.map_eq_nil_iff.mp keys
  obtain rfl : hasFinalize = false := stays
  rfl

theorem resetScoreboard_opened (scb : FullScb aw dw) (opened : scb.Opened) : scb.resetScoreboard.Opened :=
  ⟨(deletes_open _ _).trans opened.wr,(deletes_open _ _).trans opened.rd⟩

theorem created_opened {scb : FullScb aw dw} (opened : scb.Opened) (item : SequenceItem aw dw) :
    Opened {scb with bursts := scb.bursts.alloc {item := item}} := ⟨opened.wr,opened.rd⟩

theorem writeInitor_opened (scb : FullScb aw dw) (item : SequenceItem aw dw) (lifeTimes : Nat → Nat)
    (opened : scb.Opened) :
    (scb.writeInitor item lifeTimes).1.Opened := by
  have looped := beats_opened (initorBeat_opened item lifeTimes scb.bursts.next) (created_opened opened item)
    item.addrs.length
  unfold writeInitor
  dsimp only
  split
  · exact ⟨looped.wr,looped.rd⟩
  · exact looped

theorem writeTarget_opened (scb : FullScb aw dw) (item : SequenceItem aw dw) (lifeTimes : Nat → Nat)
    (opened : scb.Opened) :
    (scb.writeTarget item lifeTimes).1.Opened := by
  have looped := beats_opened (targetBeat_opened item lifeTimes scb.bursts.next) (created_opened opened item)
    item.addrs.length
  unfold writeTarget
  dsimp only
  split
  · exact ⟨looped.wr,looped.rd⟩
  · exact looped

theorem step_opened (cfg : ScbCfg) (scb : FullScb aw dw) (a : ScbAction aw dw) (opened : scb.Opened) :
    (scb.step cfg a).1.Opened := by
  cases a with
  | writeInitor item lifeTimes => exact writeInitor_opened scb item lifeTimes opened
  | writeTarget item lifeTimes => exact writeTarget_opened scb item lifeTimes opened
  | watchWr =>
    rw [step]
    split
    · exact ⟨(period_kept _ _).trans opened.wr,opened.rd⟩
    · exact opened
  | watchRd =>
    rw [step]
    split
    · exact ⟨opened.wr,(period_kept _ _).trans opened.rd⟩
    · exact opened
  | bkdorWr table => exact ⟨opened.wr,opened.rd⟩
  | bkdorRd table => exact ⟨opened.wr,opened.rd⟩
  | assert =>
    rw [step]
    split
    · exact resetScoreboard_opened _ ⟨opened.wr,opened.rd⟩
    · exact opened
  | deassert =>
    rw [step]
    split
    · exact opened
    · unfold run
      split <;> exact ⟨opened.wr,opened.rd⟩

/-- What a reset leaves: the two boxes. -/
theorem reset_eq {scb : FullScb aw dw} (opened : scb.Opened) : scb.disableFork.resetScoreboard =
    {fresh scb.bursts with rbox := scb.rbox, wbox := scb.wbox} := by
  have wr : scb.wr.pool.keys.foldl Hash.delete scb.wr.pool = .empty := deletes_empty opened.wr fun a inside => inside
  have rd : (scb.wr.pool.keys ++ scb.rd.pool.keys).foldl Hash.delete scb.rd.pool = .empty :=
    deletes_empty opened.rd fun a inside => List.mem_append_right _ inside
  unfold resetScoreboard disableFork fresh
  dsimp only
  rw [wr,rd]

/-- A back-door thread that finds an item in its box looks at it. -/
theorem waiting_seen (dir : TrsType) (mapCfgs : List MapCfg) (bk : Bkdor) (bursts : Heap (Burst aw dw))
    (table : Nat → List MemRow) (r : Nat) (rest : List Nat) :
    (BkdorTask.waiting.step dir mapCfgs bk bursts table (r::rest)).2.2 ≠ [] := by
  unfold BkdorTask.step
  dsimp only
  split
  · exact List.cons_ne_nil _ _
  · unfold BkdorTask.attempt
    split
    · exact List.cons_ne_nil _ _
    · split <;> exact List.cons_ne_nil _ _

theorem start_waiting (dir : TrsType) (bk : Bkdor) :
    (BkdorTask.start dir bk : BkdorTask × List (Seen aw dw)) = (.waiting,[]) := by
  have low := bk.c_timeout.1
  rw [BkdorTask.start,if_neg (by omega)]

theorem run_fresh (cfg : ScbCfg) (bursts : Heap (Burst aw dw)) (rbox wbox : List Nat) :
    run cfg {fresh bursts with rbox := rbox, wbox := wbox} =
      ({fresh bursts with
        rbox := rbox, wbox := wbox, th2 := .waiting, th3 := .waiting, hasFinalize := true, started := true},[]) := by
  unfold run fresh
  rw [start_waiting,start_waiting]
  rfl

theorem seen_bkdorRd (cfg : ScbCfg) (bursts : Heap (Burst aw dw)) (rbox wbox : List Nat) (table : Nat → List MemRow) :
    seen cfg {fresh bursts with rbox := rbox, wbox := wbox} [.deassert,.bkdorRd table] =
      (BkdorTask.waiting.step .rd cfg.mapCfgs cfg.bkdorRd bursts table rbox).2.2 := by
  have first : step cfg {fresh bursts with rbox := rbox, wbox := wbox} .deassert =
      run cfg {fresh bursts with rbox := rbox, wbox := wbox} := rfl
  rw [seen,first,run_fresh]
  exact List.append_nil _

theorem seen_bkdorWr (cfg : ScbCfg) (bursts : Heap (Burst aw dw)) (rbox wbox : List Nat) (table : Nat → List MemRow) :
    seen cfg {fresh bursts with rbox := rbox, wbox := wbox} [.deassert,.bkdorWr table] =
      (BkdorTask.waiting.step .wr cfg.mapCfgs cfg.bkdorWr bursts table wbox).2.2 := by
  have first : step cfg {fresh bursts with rbox := rbox, wbox := wbox} .deassert =
      run cfg {fresh bursts with rbox := rbox, wbox := wbox} := rfl
  rw [seen,first,run_fresh]
  exact List.append_nil _

theorem waiting_empty {dir : TrsType} {mapCfgs : List MapCfg} {bk : Bkdor} {bursts : Heap (Burst aw dw)}
    {table : Nat → List MemRow} {box : List Nat}
    (nothing : (BkdorTask.waiting.step dir mapCfgs bk bursts table box).2.2 = []) :
    box = [] := by
  cases box with
  | nil => rfl
  | cons r rest => exact absurd nothing (waiting_seen dir mapCfgs bk bursts table r rest)

/-- After a reset every run is as that of a new scoreboard if and only if no item is left for the
back-door threads. -/
theorem reset_fresh_iff (cfg : ScbCfg) (history : List (ScbAction aw dw)) :
    (∀ actions, seen cfg (after cfg {} history).disableFork.resetScoreboard actions =
      seen cfg (fresh (after cfg {} history).bursts) actions) ↔
        (after cfg {} history).rbox = [] ∧ (after cfg {} history).wbox = [] := by
  have opened : (after cfg ({} : FullScb aw dw) history).Opened :=
    Machine.run_induction (fun scb a => step_opened cfg scb a) history ⟨rfl,rfl⟩
  rw [reset_eq opened]
  generalize after cfg ({} : FullScb aw dw) history = scb
  constructor
  · intro same
    constructor
    · have one := same [.deassert,.bkdorRd fun _ => []]
      rw [seen_bkdorRd] at one
      exact waiting_empty (one.trans (seen_bkdorRd cfg scb.bursts [] [] _))
    · have one := same [.deassert,.bkdorWr fun _ => []]
      rw [seen_bkdorWr] at one
      exact waiting_empty (one.trans (seen_bkdorWr cfg scb.bursts [] [] _))
  · rintro ⟨rd,wr⟩ actions
    rw [rd,wr]
    rfl

/-- A write whose target has served it, and a reset before the thread comes to it. -/
def resetBeforeCompare : List (ScbAction 8 8) :=
  [.deassert,.writeTarget {trsT := .wr, addrs := [0], dataBeat := [fun _ => 7], success := true} fun _ => 10]

/-- It is compared after the reset. -/
theorem resetBeforeCompare_seen : let cfg : ScbCfg := ⟨[⟨0,0,255⟩],⟨2,by decide⟩,⟨2,by decide⟩⟩
    ¬∀ actions, seen cfg (after cfg {} resetBeforeCompare).disableFork.resetScoreboard actions =
      seen cfg (fresh (after cfg {} resetBeforeCompare).bursts) actions := by
  intro cfg same
  exact absurd (same [.deassert,.bkdorWr fun _ => []]) (by decide)

end FullScb

end Smtdv
