import Smtdv.Lib.Erase
import Smtdv.Common.Scoreboard

/-! The lifetime threads of the scoreboard. `smtdv_watch_wr_lifetime` and `smtdv_watch_rd_lifetime`
run the same task, over the one pool and the other. -/
namespace Smtdv
open Lib

variable {aw dw : Nat}

/-- An atomic item with its `life_time`. -/
structure LifeItem (aw dw : Nat) extends Atomic aw dw where
  lifeTime : Int
  /- the `life_time` it was made with, and the periods that have found it not compared -/
  created : Nat
  periods : Nat := 0
  deriving Inhabited, DecidableEq

namespace LifeItem

/-- `has_check_on_scb`, or that of the whole burst. -/
def finished (bursts : Heap (Burst aw dw)) (item : LifeItem aw dw) : Bool :=
  item.hasCheckOnScb || (bursts.get item.parent).hasCheckOnScbAll

def aged (item : LifeItem aw dw) : LifeItem aw dw := {item with lifeTime := item.lifeTime-1}

/-- What a visit does to an item that it leaves in the queue. -/
def visited (bursts : Heap (Burst aw dw)) (item : LifeItem aw dw) : LifeItem aw dw :=
  if item.finished bursts then item else item.aged

@[simp] theorem visited_finished (bursts : Heap (Burst aw dw)) (item : LifeItem aw dw) :
    (item.visited bursts).finished bursts = item.finished bursts := by
  unfold visited
  split <;> rfl

end LifeItem

abbrev LifePool (aw dw : Nat) := Hash (BitVec aw) (List (LifeItem aw dw))

/-- A lifetime thread and its pool. `taddr` stays from one period to the next; `null` says that the
task has ended at a call through a null handle. -/
structure Watch (aw dw : Nat) where
  pool : LifePool aw dw := .empty
  taddr : List (BitVec aw) := []
  reports : List (BitVec aw × LifeItem aw dw) := []
  null : Bool := false

/-- A queue after its visit: `dels` has the places of the finished items as they were. -/
def sweptQueue (bursts : Heap (Burst aw dw)) (tque : List (LifeItem aw dw)) : List (LifeItem aw dw) :=
  let dels := positionsOf (LifeItem.finished bursts) tque
  eraseIdxs dels (tque.map (LifeItem.visited bursts))

def lateItems (bursts : Heap (Burst aw dw)) (tque : List (LifeItem aw dw)) : List (LifeItem aw dw) :=
  tque.filter fun item => !item.finished bursts && item.lifeTime < 0

namespace Watch

/-- The body of `foreach(taddr[i])`. -/
def visit (bursts : Heap (Burst aw dw)) (w : Watch aw dw) (addr : BitVec aw) : Watch aw dw :=
  if w.null then w
  else
    match w.pool.get addr with
    | none => {w with null := true}
    | some tque => {w with
        reports := w.reports ++ (lateItems bursts tque).map (addr,·)
        pool := w.pool.update addr (sweptQueue bursts)}

/-- `keys(taddr)`, which leaves what is there. -/
def listed (w : Watch aw dw) : Watch aw dw := {w with taddr := w.taddr ++ w.pool.keys, reports := []}

/-- The body of `forever`. -/
def period (bursts : Heap (Burst aw dw)) (w : Watch aw dw) : Watch aw dw :=
  if w.null then w else w.listed.taddr.foldl (visit bursts) w.listed

/-- A visit takes the finished items from the queue, and nothing else. -/
def Exact (bursts : Heap (Burst aw dw)) (w : Watch aw dw) (addr : BitVec aw) : Prop :=
  w.null = false → ∀ tque, w.pool.get addr = some tque → ∀ a, (w.visit bursts addr).pool.get a =
    if a = addr then some ((tque.filter fun item => !item.finished bursts).map LifeItem.aged) else w.pool.get a

/-- The addresses a period comes to, which are all of them unless one is no longer in the pool. -/
def reached (w : Watch aw dw) (addrs : List (BitVec aw)) : List (BitVec aw) :=
  addrs.takeWhile fun addr => (w.pool.get addr).isSome

theorem sweptQueue_eq (bursts : Heap (Burst aw dw)) (tque : List (LifeItem aw dw)) :
    sweptQueue bursts tque = eraseIdxs (positionsOf (LifeItem.finished bursts) (tque.map (LifeItem.visited bursts)))
      (tque.map (LifeItem.visited bursts)) := by
  rw [positionsOf_map]
  simp only [LifeItem.visited_finished]
  rfl

theorem visited_unfinished (bursts : Heap (Burst aw dw)) (tque : List (LifeItem aw dw)) :
    (tque.map (LifeItem.visited bursts)).filter (fun item => !item.finished bursts) =
      (tque.filter fun item => !item.finished bursts).map LifeItem.aged := by
  rw [List.filter_map]
  have same : ((fun item => !item.finished bursts) ∘ LifeItem.visited bursts) = fun item => !item.finished bursts := by
    funext item
    exact congrArg (!·) (LifeItem.visited_finished bursts item)
  rw [same]
  apply List.map_congr_left
  intro item member
  have unfinished : item.finished bursts = false := by simpa using (List.mem_filter.mp member).2
  rw [LifeItem.visited,unfinished]
  rfl

theorem visited_countP (bursts : Heap (Burst aw dw)) (tque : List (LifeItem aw dw)) :
    (tque.map (LifeItem.visited bursts)).countP (LifeItem.finished bursts) = tque.countP (LifeItem.finished bursts) := by
  rw [List.countP_map]
  congr 1
  funext item
  exact LifeItem.visited_finished bursts item

/-- One queue is swept right if and only if at most one item of it is finished. -/
theorem sweptQueue_exact_iff (bursts : Heap (Burst aw dw)) (tque : List (LifeItem aw dw)) :
    sweptQueue bursts tque = (tque.filter fun item => !item.finished bursts).map LifeItem.aged ↔
      tque.countP (LifeItem.finished bursts) ≤ 1 := by
  rw [sweptQueue_eq,← visited_unfinished,eraseIdxs_exact_iff,visited_countP]

theorem visit_null (bursts : Heap (Burst aw dw)) {w : Watch aw dw} (stopped : w.null = true) (addr : BitVec aw) :
    w.visit bursts addr = w := if_pos stopped

theorem visit_absent (bursts : Heap (Burst aw dw)) {w : Watch aw dw} (running : w.null = false) {addr : BitVec aw}
    (absent : w.pool.get addr = none) : w.visit bursts addr = {w with null := true} := by
  rw [visit,running,absent]
  rfl

theorem visit_present (bursts : Heap (Burst aw dw)) {w : Watch aw dw} (running : w.null = false) {addr : BitVec aw}
    {tque : List (LifeItem aw dw)} (present : w.pool.get addr = some tque) :
    w.visit bursts addr = {w with
      reports := w.reports ++ (lateItems bursts tque).map (addr,·)
      pool := w.pool.update addr (sweptQueue bursts)} := by
  rw [visit,running,present]
  rfl

theorem visit_get (bursts : Heap (Burst aw dw)) {w : Watch aw dw} (running : w.null = false) (addr a : BitVec aw) :
    (w.visit bursts addr).pool.get a = if a = addr then (w.pool.get a).map (sweptQueue bursts) else w.pool.get a := by
  cases present : w.pool.get addr with
  | none =>
    rw [visit_absent bursts running present]
    by_cases same : a = addr
    · rw [if_pos same,same,present]
      rfl
    · rw [if_neg same]
  | some tque =>
    rw [visit_present bursts running present]
    refine (Hash.update_get w.pool addr (sweptQueue bursts) a).trans ?_
    by_cases same : a = addr
    · rw [if_pos same,if_pos same]
    · rw [if_neg same,if_neg same]

theorem exact_iff (bursts : Heap (Burst aw dw)) {w : Watch aw dw} (running : w.null = false) (addr : BitVec aw) :
    Exact bursts w addr ↔ ∀ tque, w.pool.get addr = some tque → tque.countP (LifeItem.finished bursts) ≤ 1 := by
  constructor
  · intro right tque present
    have here := right running tque present addr
    rw [visit_get bursts running,if_pos rfl,if_pos rfl,present] at here
    exact (sweptQueue_exact_iff bursts tque).mp (Option.some.inj here)
  · intro single _ tque present a
    rw [visit_get bursts running]
    by_cases same : a = addr
    · rw [if_pos same,if_pos same,same,present]
      exact congrArg some ((sweptQueue_exact_iff bursts tque).mpr (single tque present))
    · rw [if_neg same,if_neg same]

theorem sweptQueue_none {bursts : Heap (Burst aw dw)} {tque : List (LifeItem aw dw)}
    (single : tque.countP (LifeItem.finished bursts) ≤ 1) : (sweptQueue bursts tque).countP (LifeItem.finished bursts) = 0 := by
  rw [(sweptQueue_exact_iff bursts tque).mpr single,List.countP_eq_zero]
  intro item member
  obtain ⟨old,inside,rfl⟩ := List.mem_map.mp member
  have unfinished : old.finished bursts = false := by simpa using (List.mem_filter.mp inside).2
  exact Bool.eq_false_iff.mp unfinished

theorem reached_absent {w : Watch aw dw} {addr : BitVec aw} (absent : w.pool.get addr = none) (rest : List (BitVec aw)) :
    w.reached (addr::rest) = [] := List.takeWhile_cons_of_neg (by simp [absent])

theorem reached_present {w : Watch aw dw} {addr : BitVec aw} {tque : List (LifeItem aw dw)}
    (present : w.pool.get addr = some tque) (rest : List (BitVec aw)) :
    w.reached (addr::rest) = addr::w.reached rest := List.takeWhile_cons_of_pos (by simp [present])

theorem visit_isSome (bursts : Heap (Burst aw dw)) {w : Watch aw dw} (running : w.null = false) (addr a : BitVec aw) :
    ((w.visit bursts addr).pool.get a).isSome = (w.pool.get a).isSome := by
  rw [visit_get bursts running]
  split
  · exact Option.isSome_map
  · rfl

theorem visit_reached (bursts : Heap (Burst aw dw)) {w : Watch aw dw} (running : w.null = false) (addr : BitVec aw)
    (rest : List (BitVec aw)) : (w.visit bursts addr).reached rest = w.reached rest := by
  unfold reached
  congr 1
  funext a
  exact visit_isSome bursts running addr a

/-- The visits of a pass are all right if and only if no queue that it comes to has two finished
items when the pass begins. -/
theorem visits_exact_iff (bursts : Heap (Burst aw dw)) (addrs : List (BitVec aw)) (w : Watch aw dw) :
    Machine.Meets (visit bursts) (Exact bursts) w addrs ↔ (w.null = false → ∀ addr ∈ w.reached addrs,
      ∀ tque, w.pool.get addr = some tque → tque.countP (LifeItem.finished bursts) ≤ 1) := by
  induction addrs generalizing w with
  | nil => exact ⟨fun _ _ addr inside => absurd inside List.not_mem_nil,fun _ => trivial⟩
  | cons addr rest ih =>
    rw [Machine.Meets,ih]
    cases running : w.null with
    | true =>
      rw [visit_null bursts running,running]
      exact ⟨fun _ impossible => Bool.noConfusion impossible,fun _ =>
        ⟨fun impossible => Bool.noConfusion (running.symm.trans impossible),fun impossible => Bool.noConfusion impossible⟩⟩
    | false =>
      rw [exact_iff bursts running,visit_reached bursts running]
      cases present : w.pool.get addr with
      | none =>
        rw [reached_absent present,visit_absent bursts running present]
        exact ⟨fun _ _ a inside => absurd inside List.not_mem_nil,fun _ =>
          ⟨fun tque impossible => absurd impossible.symm (Option.some_ne_none tque),fun impossible => Bool.noConfusion impossible⟩⟩
      | some tque =>
        have still : (w.visit bursts addr).null = false := by
          rw [visit_present bursts running present]
          exact running
        rw [reached_present present]
        constructor
        · rintro ⟨single,later⟩ - a inside other stored
          rcases List.mem_cons.mp inside with rfl | inside
          · exact single other (present.symm.trans stored)
          · by_cases same : a = addr
            · rw [same] at stored
              exact single other (present.symm.trans stored)
            · refine later still a inside other ?_
              rw [visit_get bursts running,if_neg same]
              exact stored
        · intro all
          have single : tque.countP (LifeItem.finished bursts) ≤ 1 := all rfl addr List.mem_cons_self tque present
          refine ⟨fun other stored => ?_,fun _ a inside other stored => ?_⟩
          · rw [← Option.some.inj stored]
            exact single
          · rw [visit_get bursts running] at stored
            by_cases same : a = addr
            · rw [if_pos same,same,present] at stored
              rw [← Option.some.inj stored,sweptQueue_none single]
              exact Nat.zero_le 1
            · rw [if_neg same] at stored
              exact all rfl a (List.mem_cons_of_mem _ inside) other stored

/-- All visits of the next period are right. -/
def Swept (bursts : Heap (Burst aw dw)) (w : Watch aw dw) : Prop :=
  Machine.Meets (visit bursts) (Exact bursts) w.listed w.listed.taddr

/-- No queue that the next period comes to has two finished items. -/
def Single (bursts : Heap (Burst aw dw)) (w : Watch aw dw) : Prop :=
  w.null = false → ∀ addr ∈ w.reached (w.taddr ++ w.pool.keys),
    ∀ tque, w.pool.get addr = some tque → tque.countP (LifeItem.finished bursts) ≤ 1

end Watch

/-- The scoreboard as its lifetime threads see it. -/
structure LifeScb (aw dw : Nat) where
  bursts : Heap (Burst aw dw) := .empty
  wr : Watch aw dw := {}
  rd : Watch aw dw := {}

namespace LifeScb

/-- A period of `smtdv_watch_wr_lifetime`. -/
def watchWrLifetime (scb : LifeScb aw dw) : LifeScb aw dw := {scb with wr := scb.wr.period scb.bursts}

/-- A period of `smtdv_watch_rd_lifetime`. -/
def watchRdLifetime (scb : LifeScb aw dw) : LifeScb aw dw := {scb with rd := scb.rd.period scb.bursts}

theorem swept_iff (scb : LifeScb aw dw) : (scb.wr.Swept scb.bursts ↔ scb.wr.Single scb.bursts) ∧
    (scb.rd.Swept scb.bursts ↔ scb.rd.Single scb.bursts) :=
  ⟨Watch.visits_exact_iff _ _ _,Watch.visits_exact_iff _ _ _⟩

/-- Beats of three bursts wait at one address, the first two of them compared. -/
def twoCompared : LifeScb 8 8 where
  bursts := ((Heap.empty.alloc {item := {trsT := .wr, addrs := [0,1]}, checkNumOnScb := 1}).alloc
    {item := {trsT := .wr, addrs := [0,1]}, checkNumOnScb := 1}).alloc {item := {trsT := .wr, addrs := [0,1]}}
  wr := {pool := Hash.empty.set 0 [
    {item := {trsT := .wr, addrs := [0]}, parent := 0, hasCheckOnScb := true, lifeTime := 10, created := 10},
    {item := {trsT := .wr, addrs := [0]}, parent := 1, hasCheckOnScb := true, lifeTime := 11, created := 11},
    {item := {trsT := .wr, addrs := [0]}, parent := 2, lifeTime := 12, created := 12}]}

/-- The one that is not compared is deleted, and a compared one stays. -/
theorem twoCompared_not_swept : ¬twoCompared.wr.Swept twoCompared.bursts ∧
    ((twoCompared.watchWrLifetime.wr.pool.get 0).map fun tque => tque.map (·.lifeTime)) = some [11] := by
  refine ⟨fun swept => ?_,by decide⟩
  have single := (Watch.visits_exact_iff _ _ _).mp swept rfl 0 (by decide) _ rfl
  exact absurd single (by decide)

end LifeScb

end Smtdv
