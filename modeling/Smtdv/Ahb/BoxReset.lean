import Mathlib.Data.List.Induction
import Smtdv.Common.Queue

/-! The request boxes of `ahb_master_driver` and `ahb_slave_driver` at a reset. `disable fork`
kills the processes inside the boxes, and `reset_driver` deletes `addrbox` and `databox` but not
`bbox`; nothing releases a lock that was held. -/
namespace Smtdv.Ahb
open Lib

variable {α : Type*}

structure Boxes (α : Type*) where
  addrbox : Queue α := {}
  databox : Queue α := {}
  bbox : Queue α := {}

/-- A step inside one of the boxes, or `resetn` falling. -/
inductive BoxAction (α : Type*)
  | addrbox (a : QueueAction α)
  | databox (a : QueueAction α)
  | bbox (a : QueueAction α)
  | reset

namespace Boxes

def all (b : Boxes α) : List (Queue α) := [b.addrbox,b.databox,b.bbox]

def disableFork (b : Boxes α) : Boxes α where
  addrbox := {b.addrbox with procs := []}
  databox := {b.databox with procs := []}
  bbox := {b.bbox with procs := []}

def resetDriver (b : Boxes α) : Boxes α := {b with addrbox := b.addrbox.clear, databox := b.databox.clear}

def step (prio : α → Int) (b : Boxes α) : BoxAction α → Boxes α
  | .addrbox a => {b with addrbox := b.addrbox.step prio a}
  | .databox a => {b with databox := b.databox.step prio a}
  | .bbox a => {b with bbox := b.bbox.step prio a}
  | .reset => b.disableFork.resetDriver

/-- The boxes after a run with any number of resets. -/
def after (prio : α → Int) (actions : List (BoxAction α)) : Boxes α := Machine.run (step prio) {} actions

/-- A box is empty and unlocked, and no assertion on its lock has failed. -/
structure Usable (q : Queue α) : Prop where
  empty : q.queue = []
  unlocked : q.hasLock = false
  asserts : QueueFault.lock ∉ q.faults ∧ QueueFault.unlock ∉ q.faults

/-- `resetn` falls when no process is between `lock()` and `unlock()`, and no request is in `bbox`. -/
def Released (b : Boxes α) : BoxAction α → Prop
  | .reset => (∀ q ∈ b.all, ∀ proc ∈ q.procs, proc.place ≠ .swap) ∧ b.bbox.queue = []
  | _ => True

theorem not_held {q : Queue α} (inv : q.LockInv) :
    (∀ proc ∈ q.procs, proc.place ≠ .swap) ↔ q.hasLock = false := by
  have none : (q.procs.countP fun proc => proc.place = .swap) = 0 ↔ ∀ proc ∈ q.procs, proc.place ≠ .swap := by
    simp [List.countP_eq_zero]
  rw [← none,inv.held]
  cases q.hasLock <;> simp

theorem killed_lockInv {q : Queue α} (inv : q.LockInv) (free : q.hasLock = false) (queue deleted : List α) :
    Queue.LockInv {q with queue := queue, deleted := deleted, procs := []} :=
  ⟨by simp [free],inv.asserts⟩

theorem step_lockInv (prio : α → Int) (b : Boxes α) (a : BoxAction α) (inv : ∀ q ∈ b.all, q.LockInv)
    (released : b.Released a) : ∀ q ∈ (b.step prio a).all, q.LockInv := by
  simp only [all,List.mem_cons,List.not_mem_nil,or_false,forall_eq_or_imp,forall_eq] at inv ⊢
  obtain ⟨addr,data,back⟩ := inv
  cases a with
  | addrbox a => exact ⟨Queue.step_lockInv prio _ a addr,data,back⟩
  | databox a => exact ⟨addr,Queue.step_lockInv prio _ a data,back⟩
  | bbox a => exact ⟨addr,data,Queue.step_lockInv prio _ a back⟩
  | reset =>
    simp only [Released,all,List.mem_cons,List.not_mem_nil,or_false,forall_eq_or_imp,forall_eq] at released
    obtain ⟨⟨addrFree,dataFree,backFree⟩,_⟩ := released
    exact ⟨killed_lockInv addr ((not_held addr).mp addrFree) _ _,
      killed_lockInv data ((not_held data).mp dataFree) _ _,
      killed_lockInv back ((not_held back).mp backFree) _ _⟩

theorem initial_lockInv : ∀ q ∈ ({} : Boxes α).all, q.LockInv := by
  simp only [all,List.mem_cons,List.not_mem_nil,or_false,forall_eq_or_imp,forall_eq]
  exact ⟨Queue.initial_lockInv,Queue.initial_lockInv,Queue.initial_lockInv⟩

/-- What a reset leaves of boxes whose locks are in order. -/
theorem reset_usable_iff (prio : α → Int) (b : Boxes α) (inv : ∀ q ∈ b.all, q.LockInv) :
    (∀ q ∈ (b.step prio .reset).all, Usable q) ↔ b.Released .reset := by
  simp only [all,List.mem_cons,List.not_mem_nil,or_false,forall_eq_or_imp,forall_eq,Released] at inv ⊢
  obtain ⟨addr,data,back⟩ := inv
  rw [not_held addr,not_held data,not_held back]
  constructor
  · rintro ⟨addrUsable,dataUsable,backUsable⟩
    exact ⟨⟨addrUsable.unlocked,dataUsable.unlocked,backUsable.unlocked⟩,backUsable.empty⟩
  · rintro ⟨⟨addrFree,dataFree,backFree⟩,empty⟩
    exact ⟨⟨rfl,addrFree,addr.asserts⟩,⟨rfl,dataFree,data.asserts⟩,empty,backFree,back.asserts⟩

/-- Every reset of a run leaves every box empty and unlocked if and only if it hits no process
that has a lock, and no request is in `bbox`. -/
theorem usable_iff (prio : α → Int) (actions : List (BoxAction α)) :
    (∀ before, before ++ [.reset] <+: actions → ∀ q ∈ (after prio (before ++ [.reset])).all, Usable q) ↔
      Machine.Meets (step prio) Released {} actions := by
  have ends : (∀ before, before ++ [.reset] <+: actions → ∀ q ∈ (after prio (before ++ [.reset])).all, Usable q) ↔
      ∀ before, before <+: actions → ∀ start, before = start ++ [.reset] → ∀ q ∈ (after prio before).all, Usable q := by
    refine ⟨?_,fun usable start inside => usable _ inside start rfl⟩
    rintro usable _ inside start rfl
    exact usable start inside
  rw [ends]
  refine Machine.prefixes_iff (fun before _ met => ?_) (fun before a _ met held usable => ?_)
  · rintro start rfl
    obtain ⟨begun,released⟩ := (Machine.meets_concat _ _ _ _ _).mp met
    have inv := Machine.run_invariant (step_lockInv prio) initial_lockInv begun
    rw [after,Machine.run_concat]
    exact (reset_usable_iff prio _ inv).mpr released
  · cases a with
    | addrbox | databox | bbox => exact held trivial
    | reset =>
      have inv := Machine.run_invariant (step_lockInv prio) initial_lockInv met
      have here := usable before rfl
      rw [after,Machine.run_concat] at here
      exact held ((reset_usable_iff prio _ inv).mp here)

/-- A lock that nobody holds stays, and no process gets past it. -/
theorem stuck (prio : α → Int) (q : Queue α) (locked : q.hasLock = true)
    (none : ∀ proc ∈ q.procs, proc.place ≠ .swap) (actions : List (QueueAction α)) :
    (Machine.run (Queue.step prio) q actions).hasLock = true ∧
    (Machine.run (Queue.step prio) q actions).queue = q.queue ∧
    ∀ proc ∈ (Machine.run (Queue.step prio) q actions).procs, proc.place ≠ .swap := by
  refine @Machine.run_induction _ _ _ (fun r : Queue α => r.hasLock = true ∧ r.queue = q.queue ∧
    ∀ proc ∈ r.procs, proc.place ≠ .swap) ?_ q actions ⟨locked,rfl,none⟩
  rintro r a ⟨locked,same,none⟩
  cases a with
  | call op =>
    refine ⟨locked,same,fun proc among => ?_⟩
    rcases List.mem_append.mp among with old | new
    · exact none proc old
    · rw [List.mem_singleton.mp new]
      cases op.consumes <;> simp
  | go k =>
    cases here : r.procs[k]? with
    | none =>
      simp only [Queue.step,here]
      exact ⟨locked,same,none⟩
    | some proc =>
      have outside := none proc (List.mem_of_getElem? here)
      obtain ⟨op,place⟩ := proc
      simp only [Queue.step,here,Queue.go]
      cases place with
      | size =>
        simp only
        split
        · exact ⟨locked,same,none⟩
        · refine ⟨locked,same,fun proc among => ?_⟩
          rcases List.mem_or_eq_of_mem_set among with old | rfl
          · exact none proc old
          · exact QueueWait.noConfusion
      | lock =>
        simp only [locked,if_true]
        exact ⟨trivial,same,none⟩
      | swap => exact absurd rfl outside

/-- A request is in `bbox`, and `resetn` falls in the delay of its push to `addrbox`. -/
def lockedReset : List (BoxAction Int) :=
  [.bbox (.call (.pushBack 7)),.bbox (.go 0),.bbox (.go 0),.addrbox (.call (.pushBack 7)),.addrbox (.go 0),.reset]

theorem lockedReset_not_usable :
    ¬ ∀ q ∈ (after (fun item => item) lockedReset).all, Usable q :=
  fun usable => absurd (usable _ (List.mem_cons_self ..)).unlocked (by decide)

end Boxes

end Smtdv.Ahb
