import Mathlib.Logic.Function.Iterate
import Smtdv.Scoreboard.Lifetime

/-! Runs of the lifetime threads, period after period, while the pools change. -/
namespace Smtdv
open Lib

variable {aw dw : Nat}

/-- A beat is put into a pool, an address is deleted from it, a waiting beat is compared, the thread is
started, or a period of it passes. -/
inductive WatchAction (aw dw : Nat)
  | put (addr : BitVec aw) (aitem : Atomic aw dw) (lifeTime : Nat)
  | delete (addr : BitVec aw)
  | compared (addr : BitVec aw) (pos : Nat)
  | start
  | period

/-- One more period for a beat that is not compared. -/
def LifeItem.counted (bursts : Heap (Burst aw dw)) (item : LifeItem aw dw) : LifeItem aw dw :=
  if item.finished bursts then item else {item with periods := item.periods+1}

@[simp] theorem LifeItem.counted_finished (bursts : Heap (Burst aw dw)) (item : LifeItem aw dw) :
    (item.counted bursts).finished bursts = item.finished bursts := by
  unfold counted
  split <;> rfl

def unfinished (bursts : Heap (Burst aw dw)) (tque : List (LifeItem aw dw)) : List (LifeItem aw dw) :=
  tque.filter fun item => !item.finished bursts

/-- As many places behind a finished item as there are finished ones before it there is a finished
item too, or none. -/
def Safe (bursts : Heap (Burst aw dw)) (tque : List (LifeItem aw dw)) : Prop :=
  ∀ d item, tque[d]? = some item → item.finished bursts = true →
    ∀ later, tque[d+(tque.take d).countP (LifeItem.finished bursts)]? = some later → later.finished bursts = true

namespace Watch

def put (w : Watch aw dw) (addr : BitVec aw) (aitem : Atomic aw dw) (lifeTime : Nat) : Watch aw dw :=
  let pool := if (w.pool.get addr).isSome then w.pool else w.pool.set addr []
  {w with pool := pool.update addr (· ++ [{toAtomic := aitem, lifeTime := lifeTime, created := lifeTime}])}

def counted (bursts : Heap (Burst aw dw)) (w : Watch aw dw) : Watch aw dw :=
  {w with pool := w.pool.mapVal (·.map (LifeItem.counted bursts))}

def act (bursts : Heap (Burst aw dw)) (w : Watch aw dw) : WatchAction aw dw → Watch aw dw
  | .put addr aitem lifeTime => w.put addr aitem lifeTime
  | .delete addr => {w with pool := w.pool.delete addr}
  | .compared addr pos => {w with pool := w.pool.update addr fun tque => tque.modify pos fun item => {item with hasCheckOnScb := true}}
  | .start => {w with taddr := [], null := false}
  | .period => (w.counted bursts).period bursts

/-- A period visits queues of the pool only, takes one from the `life_time` of every beat that is not
compared, and the first report of a beat is in the second period after as many as its `life_time` said. -/
structure Accounted (bursts : Heap (Burst aw dw)) (w : Watch aw dw) : Prop where
  pooled : (w.act bursts .period).null = false
  once : ∀ addr tque, (w.counted bursts).pool.get addr = some tque → ∃ left,
    (w.act bursts .period).pool.get addr = some left ∧ unfinished bursts left = (unfinished bursts tque).map LifeItem.aged
  first : ∀ addr tque, (w.counted bursts).pool.get addr = some tque → ∀ item ∈ unfinished bursts tque,
    item.periods ≤ item.created+2 → ((addr,item) ∈ (w.act bursts .period).reports ↔ item.periods = item.created+2)

/-- The addresses that the thread has from earlier periods are in the pool with compared beats only, and
the deletions of no visit go wrong. -/
structure Clear (bursts : Heap (Burst aw dw)) (w : Watch aw dw) : Prop where
  running : w.null = false
  listed : ∀ addr ∈ w.taddr, ∃ tque, w.pool.get addr = some tque ∧ unfinished bursts tque = []
  safe : ∀ addr tque, w.pool.get addr = some tque → Safe bursts tque

/-- What is left of the `life_time` of a waiting beat. -/
structure Held (w : Watch aw dw) : Prop where
  opened : w.pool.hasFinalize = false
  left : ∀ addr tque, w.pool.get addr = some tque → ∀ item ∈ tque, item.lifeTime = item.created - item.periods

theorem visits_null (bursts : Heap (Burst aw dw)) (addrs : List (BitVec aw)) (w : Watch aw dw) :
    (addrs.foldl (visit bursts) w).null = false ↔ w.null = false ∧ ∀ addr ∈ addrs, (w.pool.get addr).isSome = true := by
  induction addrs generalizing w with
  | nil => simp
  | cons addr rest ih =>
    rw [List.foldl_cons,ih,List.forall_mem_cons]
    cases running : w.null with
    | true =>
      rw [visit_null bursts running,running]
      simp
    | false =>
      cases present : w.pool.get addr with
      | none =>
        rw [visit_absent bursts running present]
        simp
      | some tque =>
        have still : (w.visit bursts addr).null = false := by
          rw [visit_present bursts running present]
          exact running
        simp only [still,visit_isSome bursts running,Option.isSome_some,true_and]

theorem visits_open (bursts : Heap (Burst aw dw)) (addrs : List (BitVec aw)) (w : Watch aw dw) :
    (addrs.foldl (visit bursts) w).pool.hasFinalize = w.pool.hasFinalize := by
  induction addrs generalizing w with
  | nil => rfl
  | cons addr rest ih =>
    refine (ih _).trans ?_
    unfold visit
    split
    · rfl
    · split <;> rfl

theorem visits_get (bursts : Heap (Burst aw dw)) {addrs : List (BitVec aw)} {w : Watch aw dw}
    (pooled : (addrs.foldl (visit bursts) w).null = false) (a : BitVec aw) :
    (addrs.foldl (visit bursts) w).pool.get a = (w.pool.get a).map (sweptQueue bursts)^[addrs.count a] := by
  induction addrs generalizing w with
  | nil => simp
  | cons addr rest ih =>
    have running := ((visits_null bursts _ w).mp pooled).1
    rw [List.foldl_cons] at pooled ⊢
    rw [ih pooled,visit_get bursts running,List.count_cons]
    by_cases same : a = addr
    · subst same
      rw [if_pos rfl,if_pos (beq_self_eq_true a),Option.map_map,Function.iterate_succ]
    · rw [if_neg same,if_neg (by simpa using Ne.symm same),Nat.add_zero]

/-- What a beat is reported by: the visits of its queue at which it is late. -/
theorem visits_reports (bursts : Heap (Burst aw dw)) {addrs : List (BitVec aw)} {w : Watch aw dw}
    (pooled : (addrs.foldl (visit bursts) w).null = false) (a : BitVec aw) (item : LifeItem aw dw) :
    (a,item) ∈ (addrs.foldl (visit bursts) w).reports ↔ (a,item) ∈ w.reports ∨
      ∃ k < addrs.count a, ∃ tque, w.pool.get a = some tque ∧ item ∈ lateItems bursts ((sweptQueue bursts)^[k] tque) := by
  induction addrs generalizing w with
  | nil => simp
  | cons addr rest ih =>
    obtain ⟨running,all⟩ := (visits_null bursts _ w).mp pooled
    obtain ⟨tque,present⟩ := Option.isSome_iff_exists.mp (all addr List.mem_cons_self)
    rw [List.foldl_cons] at pooled ⊢
    rw [ih pooled,List.count_cons,visit_get bursts running,visit_present bursts running present,List.mem_append,or_assoc]
    refine or_congr_right ?_
    by_cases same : a = addr
    · subst same
      rw [if_pos rfl,if_pos (beq_self_eq_true a),present]
      constructor
      · rintro (here | ⟨k,bound,_,⟨⟩,late⟩)
        · obtain ⟨_,late,⟨⟩⟩ := List.mem_map.mp here
          exact ⟨0,Nat.succ_pos _,tque,rfl,late⟩
        · refine ⟨k+1,Nat.succ_lt_succ bound,tque,rfl,?_⟩
          rw [Function.iterate_succ_apply]
          exact late
      · rintro ⟨k,bound,_,⟨⟩,late⟩
        cases k with
        | zero => exact .inl (List.mem_map.mpr ⟨item,late,rfl⟩)
        | succ k =>
          rw [Function.iterate_succ_apply] at late
          exact .inr ⟨k,Nat.lt_of_succ_lt_succ bound,_,rfl,late⟩
    · rw [if_neg same,if_neg (by simpa using Ne.symm same),Nat.add_zero]
      refine or_iff_right fun here => ?_
      obtain ⟨_,-,pair⟩ := List.mem_map.mp here
      exact same (congrArg Prod.fst pair).symm

end Watch

theorem sweptQueue_unfinished (bursts : Heap (Burst aw dw)) (tque : List (LifeItem aw dw)) :
    (unfinished bursts (sweptQueue bursts tque)).Sublist ((unfinished bursts tque).map LifeItem.aged) := by
  rw [unfinished,unfinished,← Watch.visited_unfinished,Watch.sweptQueue_eq]
  exact (eraseIdxs_sublist _ _).filter _

/-- Every visit takes one from the `life_time`. -/
theorem iterate_unfinished (bursts : Heap (Burst aw dw)) (n : Nat) (tque : List (LifeItem aw dw)) :
    (unfinished bursts ((sweptQueue bursts)^[n] tque)).Sublist ((unfinished bursts tque).map LifeItem.aged^[n]) := by
  induction n with
  | zero => simp
  | succ n ih =>
    rw [Function.iterate_succ_apply',Function.iterate_succ',← List.map_map]
    exact (sweptQueue_unfinished bursts _).trans (ih.map _)

theorem aged_iterate (n : Nat) (item : LifeItem aw dw) : (LifeItem.aged^[n] item).lifeTime = item.lifeTime-n := by
  induction n with
  | zero => simp
  | succ n ih =>
    rw [Function.iterate_succ_apply',LifeItem.aged,ih]
    push_cast
    omega

theorem unfinished_map {bursts : Heap (Burst aw dw)} {f : LifeItem aw dw → LifeItem aw dw}
    (kept : ∀ item, (f item).finished bursts = item.finished bursts) (tque : List (LifeItem aw dw)) :
    unfinished bursts (tque.map f) = (unfinished bursts tque).map f := by
  rw [unfinished,List.filter_map]
  congr 2
  funext item
  exact congrArg (!·) (kept item)

theorem safe_map {bursts : Heap (Burst aw dw)} {f : LifeItem aw dw → LifeItem aw dw}
    (kept : ∀ item, (f item).finished bursts = item.finished bursts) (tque : List (LifeItem aw dw)) :
    Safe bursts (tque.map f) ↔ Safe bursts tque := by
  have counts (d : Nat) : ((tque.map f).take d).countP (LifeItem.finished bursts) =
      (tque.take d).countP (LifeItem.finished bursts) := by
    rw [← List.map_take,List.countP_map]
    congr 1
    funext item
    exact kept item
  unfold Safe
  simp only [counts,List.getElem?_map,Option.map_eq_some_iff,forall_exists_index,and_imp,forall_apply_eq_imp_iff₂,kept]

theorem safe_of_finished {bursts : Heap (Burst aw dw)} {tque : List (LifeItem aw dw)} (none : unfinished bursts tque = []) :
    Safe bursts tque := by
  intro d item _ _ later there
  simpa using List.filter_eq_nil_iff.mp none later (List.mem_of_getElem? there)

theorem sweptQueue_keeps_iff (bursts : Heap (Burst aw dw)) (tque : List (LifeItem aw dw)) :
    unfinished bursts (sweptQueue bursts tque) = (unfinished bursts tque).map LifeItem.aged ↔ Safe bursts tque := by
  rw [unfinished,unfinished,← Watch.visited_unfinished,Watch.sweptQueue_eq,eraseIdxs_keeps_iff,
    ← safe_map (LifeItem.visited_finished bursts)]
  rfl

/-- A visit changes no queue of finished items but by its deletions. -/
theorem iterate_subset {bursts : Heap (Burst aw dw)} {tque : List (LifeItem aw dw)} (none : unfinished bursts tque = [])
    (n : Nat) : ∀ item ∈ (sweptQueue bursts)^[n] tque, item ∈ tque := by
  induction n with
  | zero => exact fun _ => id
  | succ n ih =>
    rw [Function.iterate_succ_apply']
    intro item inside
    obtain ⟨old,before,rfl⟩ := List.mem_map.mp ((eraseIdxs_sublist _ _).subset inside)
    have finished : old.finished bursts = true := by
      simpa using List.filter_eq_nil_iff.mp none old (ih old before)
    rw [LifeItem.visited,if_pos finished]
    exact ih old before

namespace Watch

variable {bursts : Heap (Burst aw dw)} {w : Watch aw dw}

/-- The addresses that a period goes through. -/
def through (w : Watch aw dw) : List (BitVec aw) := w.taddr ++ w.pool.keys

theorem through_count {addr : BitVec aw} {tque : List (LifeItem aw dw)} (present : w.pool.get addr = some tque) :
    w.through.count addr = w.taddr.count addr+1 := by
  have inside : addr ∈ w.pool.keys := (Hash.mem_keys _ _).mpr (by rw [present]; rfl)
  rw [through,List.count_append,List.count_eq_one_of_mem w.pool.keys_nodup inside]

theorem counted_get (addr : BitVec aw) :
    (w.counted bursts).pool.get addr = (w.pool.get addr).map fun tque => tque.map (LifeItem.counted bursts) :=
  Hash.mapVal_get _ _ _

theorem act_period (running : w.null = false) :
    w.act bursts .period = w.through.foldl (visit bursts) (w.counted bursts).listed := by
  have keys : (w.counted bursts).pool.keys = w.pool.keys := Hash.mapVal_keys _ _
  change (if w.null = true then _ else (w.taddr ++ (w.counted bursts).pool.keys).foldl (visit bursts) (w.counted bursts).listed) = _
  rw [running,if_neg Bool.false_ne_true,keys]
  rfl

/-- A queue after a period has been visited once for its key and once for each earlier time. -/
theorem period_get (pooled : (w.act bursts .period).null = false) (running : w.null = false) {addr : BitVec aw}
    {tque : List (LifeItem aw dw)} (present : w.pool.get addr = some tque) :
    (w.act bursts .period).pool.get addr =
      some ((sweptQueue bursts)^[w.taddr.count addr+1] (tque.map (LifeItem.counted bursts))) := by
  rw [act_period running] at pooled ⊢
  rw [visits_get bursts pooled,through_count present]
  change ((w.counted bursts).pool.get addr).map _ = _
  rw [counted_get,present]
  rfl

theorem period_absent (pooled : (w.act bursts .period).null = false) (running : w.null = false) {addr : BitVec aw}
    (absent : w.pool.get addr = none) : (w.act bursts .period).pool.get addr = none := by
  rw [act_period running] at pooled ⊢
  rw [visits_get bursts pooled]
  change ((w.counted bursts).pool.get addr).map _ = _
  rw [counted_get,absent]
  rfl

theorem period_open (running : w.null = false) : (w.act bursts .period).pool.hasFinalize = w.pool.hasFinalize := by
  rw [act_period running]
  exact visits_open _ _ _

theorem period_null (running : w.null = false) :
    (w.act bursts .period).null = false ↔ ∀ addr ∈ w.taddr, (w.pool.get addr).isSome = true := by
  have there (addr : BitVec aw) : ((w.counted bursts).listed.pool.get addr).isSome = (w.pool.get addr).isSome := by
    change ((w.counted bursts).pool.get addr).isSome = _
    rw [counted_get,Option.isSome_map]
  rw [act_period running,visits_null]
  simp only [there]
  constructor
  · exact fun all addr inside => all.2 addr (List.mem_append_left _ inside)
  · intro all
    refine ⟨running,fun addr inside => (List.mem_append.mp inside).elim (all addr) fun inside => ?_⟩
    exact (Hash.mem_keys _ _).mp inside

theorem period_reports (pooled : (w.act bursts .period).null = false) (running : w.null = false) {addr : BitVec aw}
    {tque : List (LifeItem aw dw)} (present : w.pool.get addr = some tque) (fresh : addr ∉ w.taddr) (item : LifeItem aw dw) :
    (addr,item) ∈ (w.act bursts .period).reports ↔ item ∈ lateItems bursts (tque.map (LifeItem.counted bursts)) := by
  rw [act_period running] at pooled ⊢
  rw [visits_reports bursts pooled,through_count present,List.count_eq_zero.mpr fresh]
  have there : (w.counted bursts).listed.pool.get addr = some (tque.map (LifeItem.counted bursts)) := by
    change (w.counted bursts).pool.get addr = _
    rw [counted_get,present]
    rfl
  rw [there]
  constructor
  · rintro (old | ⟨k,bound,_,⟨⟩,late⟩)
    · exact absurd old List.not_mem_nil
    · rw [Nat.lt_one_iff.mp bound] at late
      exact late
  · exact fun late => .inr ⟨0,Nat.one_pos,_,rfl,late⟩

theorem Accounted.running (right : w.Accounted bursts) : w.null = false := by
  by_contra stopped
  rw [Bool.not_eq_false] at stopped
  have same : w.act bursts .period = w.counted bursts := if_pos stopped
  have still := right.pooled
  rw [same] at still
  exact absurd (stopped.symm.trans still) (by decide)

theorem Accounted.visited (right : w.Accounted bursts) {addr : BitVec aw} {tque : List (LifeItem aw dw)}
    (present : w.pool.get addr = some tque) :
    unfinished bursts ((sweptQueue bursts)^[w.taddr.count addr+1] (tque.map (LifeItem.counted bursts))) =
      (unfinished bursts (tque.map (LifeItem.counted bursts))).map LifeItem.aged := by
  obtain ⟨left,found,same⟩ := right.once addr (tque.map (LifeItem.counted bursts)) (by rw [counted_get,present]; rfl)
  rw [period_get right.pooled right.running present] at found
  rw [Option.some.inj found]
  exact same

/-- A queue visited twice had no beat that is not compared. -/
theorem Accounted.listed (right : w.Accounted bursts) {addr : BitVec aw} {tque : List (LifeItem aw dw)}
    (present : w.pool.get addr = some tque) (inside : addr ∈ w.taddr) : unfinished bursts tque = [] := by
  have more : 0 < w.taddr.count addr := List.count_pos_iff.mpr inside
  have less := iterate_unfinished bursts (w.taddr.count addr+1) (tque.map (LifeItem.counted bursts))
  rw [right.visited present] at less
  have same := less.eq_of_length (by simp)
  rw [unfinished_map (LifeItem.counted_finished bursts)] at same
  cases waiting : unfinished bursts tque with
  | nil => rfl
  | cons item rest =>
    rw [waiting] at same
    have head := congrArg LifeItem.lifeTime (List.cons.inj same).1
    rw [aged_iterate,LifeItem.aged] at head
    push_cast at head
    omega

theorem Accounted.clear (right : w.Accounted bursts) : w.Clear bursts := by
  refine ⟨right.running,fun addr inside => ?_,fun addr tque present => ?_⟩
  · obtain ⟨tque,present⟩ := Option.isSome_iff_exists.mp ((period_null right.running).mp right.pooled addr inside)
    exact ⟨tque,present,right.listed present inside⟩
  · by_cases inside : addr ∈ w.taddr
    · exact safe_of_finished (right.listed present inside)
    · have kept := right.visited present
      rw [List.count_eq_zero.mpr inside] at kept
      exact (safe_map (LifeItem.counted_finished bursts) tque).mp ((sweptQueue_keeps_iff bursts _).mp kept)

theorem Clear.pooled (clear : w.Clear bursts) : (w.act bursts .period).null = false := by
  rw [period_null clear.running]
  intro addr inside
  obtain ⟨tque,present,-⟩ := clear.listed addr inside
  rw [present]
  rfl

theorem Clear.done (clear : w.Clear bursts) {addr : BitVec aw} {tque : List (LifeItem aw dw)}
    (present : w.pool.get addr = some tque) (inside : addr ∈ w.taddr) :
    unfinished bursts (tque.map (LifeItem.counted bursts)) = [] := by
  obtain ⟨other,found,none⟩ := clear.listed addr inside
  obtain rfl := Option.some.inj (present.symm.trans found)
  rw [unfinished_map (LifeItem.counted_finished bursts),none]
  rfl

theorem counted_waiting {item : LifeItem aw dw} (waits : item.finished bursts = false) :
    item.counted bursts = {item with periods := item.periods+1} := by
  rw [LifeItem.counted,waits]
  rfl

theorem Clear.once (clear : w.Clear bursts) {addr : BitVec aw} {tque : List (LifeItem aw dw)}
    (present : w.pool.get addr = some tque) :
    unfinished bursts ((sweptQueue bursts)^[w.taddr.count addr+1] (tque.map (LifeItem.counted bursts))) =
      (unfinished bursts (tque.map (LifeItem.counted bursts))).map LifeItem.aged := by
  by_cases inside : addr ∈ w.taddr
  · have less := iterate_unfinished bursts (w.taddr.count addr+1) (tque.map (LifeItem.counted bursts))
    rw [clear.done present inside] at less ⊢
    exact List.sublist_nil.mp less
  · rw [List.count_eq_zero.mpr inside]
    exact (sweptQueue_keeps_iff bursts _).mpr
      ((safe_map (LifeItem.counted_finished bursts) tque).mpr (clear.safe addr tque present))

theorem Clear.first (clear : w.Clear bursts) (held : w.Held) {addr : BitVec aw} {tque : List (LifeItem aw dw)}
    (present : w.pool.get addr = some tque) {item : LifeItem aw dw}
    (waits : item ∈ unfinished bursts (tque.map (LifeItem.counted bursts))) (due : item.periods ≤ item.created+2) :
    (addr,item) ∈ (w.act bursts .period).reports ↔ item.periods = item.created+2 := by
  have fresh : addr ∉ w.taddr := by
    intro inside
    rw [clear.done present inside] at waits
    exact absurd waits List.not_mem_nil
  rw [period_reports clear.pooled clear.running present fresh,lateItems,List.mem_filter]
  obtain ⟨member,waiting⟩ := List.mem_filter.mp waits
  obtain ⟨old,before,rfl⟩ := List.mem_map.mp member
  have left := held.left addr tque present old before
  have counts : old.counted bursts = {old with periods := old.periods+1} := counted_waiting (by simpa using waiting)
  have lifeTime : (old.counted bursts).lifeTime = old.lifeTime := by rw [counts]
  have periods : (old.counted bursts).periods = old.periods+1 := by rw [counts]
  have created : (old.counted bursts).created = old.created := by rw [counts]
  rw [and_iff_right member,waiting,Bool.true_and,decide_eq_true_eq,lifeTime,periods,created,left]
  rw [periods,created] at due
  omega

/-- A period is right exactly if the thread has nothing left over from the periods before it that is not
compared, and no deletion in it goes wrong. -/
theorem period_accounted_iff (held : w.Held) : w.Accounted bursts ↔ w.Clear bursts := by
  refine ⟨Accounted.clear,fun clear => ⟨clear.pooled,fun addr counted stored => ?_,fun addr counted stored item waits due => ?_⟩⟩
  · rw [counted_get,Option.map_eq_some_iff] at stored
    obtain ⟨tque,present,rfl⟩ := stored
    exact ⟨_,period_get clear.pooled clear.running present,clear.once present⟩
  · rw [counted_get,Option.map_eq_some_iff] at stored
    obtain ⟨tque,present,rfl⟩ := stored
    exact clear.first held present waits due

theorem Held.put (held : w.Held) (addr : BitVec aw) (aitem : Atomic aw dw) (lifeTime : Nat) :
    (w.put addr aitem lifeTime).Held := by
  have opened : (if (w.pool.get addr).isSome then w.pool else w.pool.set addr []).hasFinalize = false := by
    split
    · exact held.opened
    · rw [Hash.set_open]
      exact held.opened
  have before (a : BitVec aw) (tque : List (LifeItem aw dw))
      (stored : (if (w.pool.get addr).isSome then w.pool else w.pool.set addr []).get a = some tque) :
      ∀ item ∈ tque, item.lifeTime = item.created - item.periods := by
    split at stored
    · exact held.left a tque stored
    · rw [Hash.set_get _ held.opened] at stored
      split at stored
      · rw [← Option.some.inj stored]
        exact fun item inside => absurd inside List.not_mem_nil
      · exact held.left a tque stored
  refine ⟨opened,fun a tque stored item inside => ?_⟩
  rw [Watch.put,Hash.update_get] at stored
  split at stored
  · obtain ⟨old,there,rfl⟩ := Option.map_eq_some_iff.mp stored
    rcases List.mem_append.mp inside with inside | same
    · exact before a old there item inside
    · rw [List.mem_singleton.mp same]
      exact (sub_zero _).symm
  · exact before a tque stored item inside

/-- What a visit leaves of the `life_time` of a beat, in a period that counts. -/
theorem visited_left (bursts : Heap (Burst aw dw)) {item : LifeItem aw dw}
    (left : item.lifeTime = item.created-item.periods) : ((item.counted bursts).visited bursts).lifeTime =
      ((item.counted bursts).visited bursts).created-((item.counted bursts).visited bursts).periods := by
  cases finished : item.finished bursts with
  | true =>
    have same : item.counted bursts = item := by rw [LifeItem.counted,finished]; rfl
    rw [same,LifeItem.visited,finished]
    exact left
  | false =>
    have waits : (item.counted bursts).finished bursts = false := (LifeItem.counted_finished bursts item).trans finished
    rw [LifeItem.visited,waits,counted_waiting finished]
    change item.lifeTime-1 = (item.created : Int)-(item.periods+1 : Nat)
    rw [left]
    push_cast
    omega

theorem Held.delete (held : w.Held) (addr : BitVec aw) : Held {w with pool := w.pool.delete addr} := by
  refine ⟨(Hash.delete_open _ _).trans held.opened,fun a tque stored => ?_⟩
  rw [Hash.delete_get _ held.opened] at stored
  split at stored
  · contradiction
  · exact held.left a tque stored

theorem Held.compared (held : w.Held) (addr : BitVec aw) (pos : Nat) : (w.act bursts (.compared addr pos)).Held := by
  refine ⟨held.opened,fun a tque stored item inside => ?_⟩
  rw [Watch.act,Hash.update_get] at stored
  split at stored
  · obtain ⟨old,there,rfl⟩ := Option.map_eq_some_iff.mp stored
    obtain ⟨i,place⟩ := List.mem_iff_getElem?.mp inside
    rw [List.getElem?_modify] at place
    obtain ⟨it,here,rfl⟩ := Option.map_eq_some_iff.mp place
    have left := held.left a old there it (List.mem_of_getElem? here)
    split <;> exact left
  · exact held.left a tque stored item inside

theorem Held.period (held : w.Held) (clear : w.Clear bursts) : (w.act bursts .period).Held := by
  refine ⟨(period_open clear.running).trans held.opened,fun addr left stored item inside => ?_⟩
  cases present : w.pool.get addr with
  | none =>
    rw [period_absent clear.pooled clear.running present] at stored
    contradiction
  | some tque =>
    rw [period_get clear.pooled clear.running present] at stored
    obtain rfl := Option.some.inj stored
    by_cases listed : addr ∈ w.taddr
    · have done := clear.done present listed
      obtain ⟨old,before,rfl⟩ := List.mem_map.mp (iterate_subset done _ item inside)
      have finished : (old.counted bursts).finished bursts = true := by
        simpa using List.filter_eq_nil_iff.mp done _ (List.mem_map_of_mem before)
      have here := visited_left bursts (held.left addr tque present old before)
      rw [LifeItem.visited,if_pos finished] at here
      exact here
    · rw [List.count_eq_zero.mpr listed] at inside
      obtain ⟨mid,between,rfl⟩ := List.mem_map.mp ((eraseIdxs_sublist _ _).subset inside)
      obtain ⟨old,before,rfl⟩ := List.mem_map.mp between
      exact visited_left bursts (held.left addr tque present old before)

theorem Held.act (held : w.Held) (a : WatchAction aw dw) (clear : a = .period → w.Clear bursts) : (w.act bursts a).Held := by
  cases a with
  | put addr aitem lifeTime => exact held.put addr aitem lifeTime
  | delete addr => exact held.delete addr
  | compared addr pos => exact held.compared addr pos
  | start => exact ⟨held.opened,held.left⟩
  | period => exact held.period (clear rfl)

end Watch

inductive LifeAction (aw dw : Nat)
  | wr (a : WatchAction aw dw)
  | rd (a : WatchAction aw dw)
  | bursts (bursts : Heap (Burst aw dw))

namespace LifeScb

/-- What happens to one of the pools, or to the counters of the bursts. -/
def step (scb : LifeScb aw dw) : LifeAction aw dw → LifeScb aw dw
  | .wr a => {scb with wr := scb.wr.act scb.bursts a}
  | .rd a => {scb with rd := scb.rd.act scb.bursts a}
  | .bursts bursts => {scb with bursts := bursts}

def Accounted (scb : LifeScb aw dw) : LifeAction aw dw → Prop
  | .wr .period => scb.wr.Accounted scb.bursts
  | .rd .period => scb.rd.Accounted scb.bursts
  | _ => True

def Clear (scb : LifeScb aw dw) : LifeAction aw dw → Prop
  | .wr .period => scb.wr.Clear scb.bursts
  | .rd .period => scb.rd.Clear scb.bursts
  | _ => True

theorem clear_wr {scb : LifeScb aw dw} {a : WatchAction aw dw} (clear : scb.Clear (.wr a)) (period : a = .period) :
    scb.wr.Clear scb.bursts := by
  subst period
  exact clear

theorem clear_rd {scb : LifeScb aw dw} {a : WatchAction aw dw} (clear : scb.Clear (.rd a)) (period : a = .period) :
    scb.rd.Clear scb.bursts := by
  subst period
  exact clear

def Held (scb : LifeScb aw dw) : Prop := scb.wr.Held ∧ scb.rd.Held

theorem held_step (scb : LifeScb aw dw) (a : LifeAction aw dw) (held : scb.Held) (clear : scb.Clear a) : (scb.step a).Held := by
  cases a with
  | wr a => exact ⟨held.1.act a (clear_wr clear),held.2⟩
  | rd a => exact ⟨held.1,held.2.act a (clear_rd clear)⟩
  | bursts bursts => exact held

theorem clear_iff (scb : LifeScb aw dw) (a : LifeAction aw dw) (held : scb.Held) : scb.Clear a ↔ scb.Accounted a := by
  cases a with
  | wr a =>
    cases a with
    | period => exact (Watch.period_accounted_iff held.1).symm
    | put | delete | compared | start => exact Iff.rfl
  | rd a =>
    cases a with
    | period => exact (Watch.period_accounted_iff held.2).symm
    | put | delete | compared | start => exact Iff.rfl
  | bursts bursts => exact Iff.rfl

theorem held_initial : ({} : LifeScb aw dw).Held := by
  have fresh : ({} : Watch aw dw).Held := ⟨rfl,fun addr tque stored => absurd stored.symm (Option.some_ne_none tque)⟩
  exact ⟨fresh,fresh⟩

/-- In a run of the scoreboard every period is accounted for if and only if the conditions of a period
are met at each. -/
theorem run_accounted_iff (actions : List (LifeAction aw dw)) :
    Machine.Meets step Accounted {} actions ↔ Machine.Meets step Clear {} actions :=
  (Machine.meets_iff held_step clear_iff held_initial actions).symm

/-- A beat waits for two periods. -/
def twoPeriods : List (LifeAction 8 8) :=
  [.bursts (Heap.empty.alloc {item := {trsT := .wr, addrs := [0]}}),
    .wr (.put 0 {item := {trsT := .wr, addrs := [0]}, parent := 0} 10),.wr .period,.wr .period]

/-- Its queue is visited once in the first of them and twice in the second. -/
theorem twoPeriods_not_accounted : ¬Machine.Meets step Accounted {} twoPeriods ∧
    (((Machine.run step {} twoPeriods).wr.pool.get 0).map fun tque => tque.map (·.lifeTime)) = some [7] := by
  refine ⟨fun accounted => ?_,by decide⟩
  have clear := (Machine.meets_iff held_step clear_iff held_initial twoPeriods).mpr accounted
  obtain ⟨tque,present,none⟩ := clear.2.2.2.1.listed 0 (by decide)
  rw [← Option.some.inj present] at none
  exact absurd none (by decide)

end LifeScb

end Smtdv
