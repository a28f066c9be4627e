import Smtdv.Lib.Machine
import Smtdv.Lib.TwinQueue

/-! `smtdv_queue` and the processes inside its async tasks. A step is the call of a task, or a
process going on past a wait, with what it does there, or past the delay. -/
namespace Smtdv
open Lib

variable {α : Type*}

/-- The async tasks, with their arguments. -/
inductive QueueOp (α : Type*)
  | pushFront (item : α)
  | pushBack (item : α)
  | popFront
  | popBack
  | insert (idx : Int) (item : α)
  | get (idx : Int)
  | prioGet
  | delete (idx : Int)
  | purge
  deriving DecidableEq

/-- Where a process waits: `wait(size()>0)`, `wait(!is_lock())` or the delay. -/
inductive QueueWait
  | size | lock | swap
  deriving DecidableEq

structure QueueProc (α : Type*) where
  op : QueueOp α
  place : QueueWait
  deriving DecidableEq

/-- A failed assertion, or a pop or a get of an empty queue. -/
inductive QueueFault
  | lock | unlock | empty
  deriving DecidableEq

structure Queue (α : Type*) where
  queue : List α := []
  hasLock : Bool := false
  procs : List (QueueProc α) := []
  /- what a run leaves behind: the items of the producers, those popped, those deleted and what
  `get` has returned -/
  pushed : List α := []
  popped : List α := []
  deleted : List α := []
  got : List (Option α) := []
  faults : List QueueFault := []
  deriving DecidableEq

inductive QueueAction (α : Type*)
  | call (op : QueueOp α)
  | go (k : Nat)
  deriving DecidableEq

/-- The tasks that begin with `wait(size()>0)`. -/
def QueueOp.consumes : QueueOp α → Bool
  | popFront | popBack | get _ | prioGet => true
  | pushFront _ | pushBack _ | insert _ _ | delete _ | purge => false

namespace Queue

def lock (q : Queue α) : Queue α :=
  {q with hasLock := true, faults := q.faults ++ if q.hasLock then [.lock] else []}

def unlock (q : Queue α) : Queue α :=
  {q with hasLock := false, faults := q.faults ++ if q.hasLock then [] else [.unlock]}

/-- `pop_front` of the items in the order given, which is `null` when there are none. -/
def popFront (q : Queue α) : List α → Queue α
  | [] => {q with queue := [], faults := q.faults ++ [.empty]}
  | item::rest => {q with queue := rest, popped := q.popped ++ [item]}

def popBack (q : Queue α) : Queue α :=
  match q.queue.getLast? with
  | none => {q with faults := q.faults ++ [.empty]}
  | some item => {q with queue := q.queue.dropLast, popped := q.popped ++ [item]}

/-- `uvm_queue::insert`, which ignores an index out of range. -/
def insert (q : Queue α) (idx : Int) (item : α) : Queue α :=
  if q.queue.length ≤ idx ∨ idx < 0 then {q with pushed := q.pushed ++ [item]}
  else {q with queue := q.queue.insertIdx idx.toNat item, pushed := q.pushed ++ [item]}

/-- `uvm_queue::get`, which returns `null` for an index out of range; the item stays. -/
def get (q : Queue α) (idx : Int) : Queue α :=
  {q with
    got := q.got ++ [if q.queue.length ≤ idx ∨ idx < 0 then none else q.queue[idx.toNat]?]
    faults := q.faults ++ if q.queue.isEmpty then [.empty] else []}

/-- `purge`, and `uvm_queue::delete` without an index. -/
def clear (q : Queue α) : Queue α := {q with queue := [], deleted := q.deleted ++ q.queue}

/-- `uvm_queue::delete`, which ignores an index out of range. -/
def delete (q : Queue α) (idx : Int) : Queue α :=
  if q.queue.length ≤ idx ∨ idx < -1 then q
  else if idx = -1 then q.clear
  else {q with queue := q.queue.eraseIdx idx.toNat, deleted := q.deleted ++ q.queue[idx.toNat]?.toList}

/-- What a task does between `lock()` and the delay. -/
def update (prio : α → Int) (q : Queue α) : QueueOp α → Queue α
  | .pushFront item => {q with queue := item::q.queue, pushed := q.pushed ++ [item]}
  | .pushBack item => {q with queue := q.queue ++ [item], pushed := q.pushed ++ [item]}
  | .popFront => q.popFront q.queue
  | .popBack => q.popBack
  | .insert idx item => q.insert idx item
  | .get idx => q.get idx
  | .prioGet => q.popFront (TwinQueue.sort prio q.queue)
  | .delete idx => q.delete idx
  | .purge => q.clear

/-- A process goes on from where it waits, if it can. -/
def go (prio : α → Int) (q : Queue α) (k : Nat) (proc : QueueProc α) : Queue α :=
  match proc.place with
  | .size => if q.queue.isEmpty then q else {q with procs := q.procs.set k {proc with place := .lock}}
  | .lock =>
    if q.hasLock then q
    else {q.lock.update prio proc.op with procs := q.procs.set k {proc with place := .swap}}
  | .swap => {q.unlock with procs := q.procs.eraseIdx k}

def step (prio : α → Int) (q : Queue α) : QueueAction α → Queue α
  | .call op => {q with procs := q.procs ++ [⟨op,if op.consumes then .size else .lock⟩]}
  | .go k =>
    match q.procs[k]? with
    | none => q
    | some proc => q.go prio k proc

/-- The queue after a run of any number of processes, in any order. -/
def after (prio : α → Int) (actions : List (QueueAction α)) : Queue α := Machine.run (step prio) {} actions

/-- The lock is held by the one process that is in its delay, or it is free. -/
structure LockInv (q : Queue α) : Prop where
  held : (q.procs.countP fun proc => proc.place = .swap) = if q.hasLock then 1 else 0
  asserts : QueueFault.lock ∉ q.faults ∧ QueueFault.unlock ∉ q.faults

theorem procs_at {procs : List (QueueProc α)} {k : Nat} {proc : QueueProc α} (here : procs[k]? = some proc) :
    ∃ before rest, procs = before ++ proc::rest ∧ (∀ next, procs.set k next = before ++ next::rest) ∧
      procs.eraseIdx k = before ++ rest := by
  obtain ⟨inside,rfl⟩ := List.getElem?_eq_some_iff.mp here
  refine ⟨procs.take k,procs.drop (k+1),?_,fun next => ?_,?_⟩
  · rw [← List.drop_eq_getElem_cons inside,List.take_append_drop]
  · exact List.set_eq_take_append_cons_drop.trans (if_pos inside)
  · exact List.eraseIdx_eq_take_drop_succ procs k

theorem update_kept (prio : α → Int) (q : Queue α) (op : QueueOp α) :
    (q.update prio op).hasLock = q.hasLock ∧ (q.update prio op).procs = q.procs ∧
      ∃ more, (q.update prio op).faults = q.faults ++ more ∧ ∀ fault ∈ more, fault = .empty := by
  have pops (order : List α) : (q.popFront order).hasLock = q.hasLock ∧ (q.popFront order).procs = q.procs ∧
      ∃ more, (q.popFront order).faults = q.faults ++ more ∧ ∀ fault ∈ more, fault = .empty := by
    cases order with
    | nil => exact ⟨rfl,rfl,[.empty],rfl,by simp⟩
    | cons item rest => exact ⟨rfl,rfl,[],by simp [popFront],by simp⟩
  cases op with
  | pushFront | pushBack | purge => exact ⟨rfl,rfl,[],by simp [update,clear],by simp⟩
  | popFront | prioGet => exact pops _
  | popBack =>
    simp only [update,popBack]
    split
    · exact ⟨rfl,rfl,[.empty],rfl,by simp⟩
    · exact ⟨rfl,rfl,[],by simp,by simp⟩
  | insert idx item =>
    simp only [update,insert]
    split <;> exact ⟨rfl,rfl,[],by simp,by simp⟩
  | get idx =>
    refine ⟨rfl,rfl,_,rfl,fun fault inside => ?_⟩
    split at inside
    · exact List.mem_singleton.mp inside
    · exact (List.not_mem_nil inside).elim
  | delete idx =>
    simp only [update,delete]
    split
    · exact ⟨rfl,rfl,[],by simp,by simp⟩
    · split <;> exact ⟨rfl,rfl,[],by simp [clear],by simp⟩

theorem go_lockInv (prio : α → Int) (q : Queue α) (k : Nat) (proc : QueueProc α) (here : q.procs[k]? = some proc)
    (inv : q.LockInv) : (q.go prio k proc).LockInv := by
  obtain ⟨held,asserts⟩ := inv
  obtain ⟨before,rest,procs,set,erase⟩ := procs_at here
  obtain ⟨op,place⟩ := proc
  rw [procs] at held
  simp only [List.countP_append,List.countP_cons] at held
  cases place with
  | size =>
    simp only [go]
    split
    · exact ⟨by rw [procs]; simpa [List.countP_append,List.countP_cons] using held,asserts⟩
    · refine ⟨?_,asserts⟩
      simp only [set,List.countP_append,List.countP_cons]
      simpa using held
  | lock =>
    simp only [go]
    split
    · exact ⟨by rw [procs]; simpa [List.countP_append,List.countP_cons] using held,asserts⟩
    next free =>
      have free : q.hasLock = false := by simpa using free
      obtain ⟨hasLock,_,more,faults,empties⟩ := update_kept prio q.lock op
      have taken : (q.lock.update prio op).hasLock = true := hasLock
      have kept : (q.lock.update prio op).faults = q.faults ++ more := by
        rw [faults,lock,free]
        simp only [Bool.false_eq_true,if_false,List.append_nil]
      refine ⟨?_,?_⟩
      · simp only [set,List.countP_append,List.countP_cons,taken]
        generalize before.countP _ = first at held ⊢
        generalize rest.countP _ = last at held ⊢
        simp [free] at held ⊢
        omega
      · simp only [kept,List.mem_append,not_or]
        exact ⟨⟨asserts.1,fun inside => QueueFault.noConfusion (empties _ inside)⟩,
          asserts.2,fun inside => QueueFault.noConfusion (empties _ inside)⟩
  | swap =>
    have taken : q.hasLock = true := by
      cases lock : q.hasLock with
      | true => rfl
      | false => simp [lock] at held
    refine ⟨?_,?_⟩
    · simp only [go,unlock,erase,List.countP_append]
      generalize before.countP _ = first at held ⊢
      generalize rest.countP _ = last at held ⊢
      simp [taken] at held ⊢
      omega
    · simpa only [go,unlock,taken,if_true,List.append_nil] using asserts

/-- No assertion of `lock` or `unlock` fails in any run. -/
theorem step_lockInv (prio : α → Int) (q : Queue α) (a : QueueAction α) (inv : q.LockInv) :
    (step prio q a).LockInv := by
  cases a with
  | call op =>
    refine ⟨?_,inv.asserts⟩
    simp only [step,List.countP_append,List.countP_singleton]
    rw [inv.held]
    cases op.consumes <;> simp <;> rfl
  | go k =>
    simp only [step]
    split
    · exact inv
    next proc here => exact go_lockInv prio q k proc here inv

theorem initial_lockInv : ({} : Queue α).LockInv := ⟨rfl,List.not_mem_nil,List.not_mem_nil⟩

end Queue

end Smtdv
