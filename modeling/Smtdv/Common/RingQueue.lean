import Smtdv.Common.Queue

/-! `smtdv_ring_queue`: its two pointers beside the queue that it extends. An `int` is its 32 bits, and
so is `SIZE`. -/
namespace Smtdv
open Lib

variable {α : Type*}

structure RingQueue (α : Type*) extends Queue α where
  tail : BitVec 32 := 0
  header : BitVec 32 := 0
  deriving DecidableEq

inductive RingCall (α : Type*)
  | asyncPutTail (item : α)
  | asyncGetHeader
  deriving DecidableEq

theorem Queue.insert_kept (q : Queue α) (idx : Int) (item : α) :
    (q.insert idx item).pushed = q.pushed ++ [item] ∧ (q.insert idx item).got = q.got := by
  unfold Queue.insert
  split <;> exact ⟨rfl,rfl⟩

namespace RingQueue

def isEmpty (q : RingQueue α) : Bool := q.header == q.tail

def isFull (size : BitVec 32) (q : RingQueue α) : Bool := q.header == (q.tail+1).srem size

/-- Whether the `wait` of a task does not go on. -/
def blocks (size : BitVec 32) (q : RingQueue α) : RingCall α → Bool
  | .asyncPutTail _ => q.isFull size || q.hasLock
  | .asyncGetHeader => q.isEmpty || q.hasLock

def asyncPutTail (size : BitVec 32) (q : RingQueue α) (item : α) : RingQueue α :=
  let tail := q.tail+1
  {q with
    toQueue := (q.toQueue.lock.insert q.tail.toInt item).unlock
    tail := if tail = size then 0 else tail}

/-- The pointer goes down. -/
def asyncGetHeader (size : BitVec 32) (q : RingQueue α) : RingQueue α :=
  let header := q.header-1
  {q with
    toQueue := (q.toQueue.lock.get q.header.toInt).unlock
    header := if header = 0 then size else header}

def step (size : BitVec 32) (q : RingQueue α) (call : RingCall α) : RingQueue α :=
  if q.blocks size call then q
  else match call with
    | .asyncPutTail item => q.asyncPutTail size item
    | .asyncGetHeader => q.asyncGetHeader size

def after (size : BitVec 32) (calls : List (RingCall α)) : RingQueue α := Machine.run (step size) {} calls

/-- None of the calls blocks. -/
def Goes (size : BitVec 32) (calls : List (RingCall α)) : Prop :=
  Machine.Meets (step size) (fun q call => q.blocks size call = false) {} calls

instance (size : BitVec 32) (calls : List (RingCall α)) : Decidable (Goes size calls) :=
  inferInstanceAs (Decidable (Machine.Meets _ _ _ _))

/-- The items put and not returned yet. -/
def stored (q : RingQueue α) : Int := q.pushed.length - q.got.length

/-- What has been returned are the first items put, and the pointers tell how many are left. -/
structure Bounded (size : BitVec 32) (q : RingQueue α) : Prop where
  order : q.got <+: q.pushed.map some
  empty : q.isEmpty = true ↔ q.stored = 0
  full : q.isFull size = true ↔ q.stored = size.toInt-1
  header : 0 ≤ q.header.toInt ∧ q.header.toInt < size.toInt
  tail : 0 ≤ q.tail.toInt ∧ q.tail.toInt < size.toInt

def Fifo (size : BitVec 32) (calls : List (RingCall α)) : Prop :=
  ∀ before, before <+: calls → (after size before).Bounded size

/-- Items have been put only, and one more place than theirs is in the ring. -/
structure Filling (size : BitVec 32) (q : RingQueue α) : Prop where
  free : q.hasLock = false
  header : q.header = 0
  tail : q.tail.toInt = q.pushed.length
  room : q.pushed.length < size.toInt
  got : q.got = []

variable {size : BitVec 32} {q : RingQueue α}

theorem initial_filling (two : 2 ≤ size.toInt) : ({} : RingQueue α).Filling size := by
  refine ⟨rfl,rfl,rfl,?_,rfl⟩
  change (0 : Int) < size.toInt
  omega

theorem Filling.next_toInt (filling : q.Filling size) : (q.tail+1).toInt = q.pushed.length+1 := by
  have high := size.toInt_lt
  have room := filling.room
  have one : (1 : BitVec 32).toInt = 1 := by decide
  rw [BitVec.toInt_add,filling.tail,one,Int.bmod_eq_of_le (by omega) (by omega)]

theorem Filling.isFull_iff (filling : q.Filling size) : q.isFull size = true ↔ q.pushed.length = size.toInt-1 := by
  have room := filling.room
  rw [isFull,beq_iff_eq,filling.header,← BitVec.toInt_inj,BitVec.toInt_srem,filling.next_toInt]
  change (0 : Int) = _ ↔ _
  constructor
  · intro zero
    by_contra less
    rw [Int.tmod_eq_of_lt (by omega) (by omega)] at zero
    omega
  · intro last
    rw [show (q.pushed.length : Int)+1 = size.toInt by omega,Int.tmod_self]

theorem Filling.bounded (filling : q.Filling size) : q.Bounded size := by
  have room := filling.room
  have zero : (0 : BitVec 32).toInt = 0 := by decide
  refine ⟨by rw [filling.got]; exact List.nil_prefix,?_,?_,?_,?_⟩
  · rw [isEmpty,beq_iff_eq,filling.header,← BitVec.toInt_inj,filling.tail,stored,filling.got,zero,List.length_nil]
    omega
  · rw [filling.isFull_iff,stored,filling.got,List.length_nil,Int.natCast_zero,Int.sub_zero]
  · rw [filling.header,zero]
    omega
  · rw [filling.tail]
    omega

/-- An item is put below the last place but one, so the tail does not come back to the header. -/
theorem Filling.put (filling : q.Filling size) {item : α} (goes : q.blocks size (.asyncPutTail item) = false) :
    (q.step size (.asyncPutTail item)).Filling size := by
  have room := filling.room
  have less : ¬q.pushed.length = size.toInt-1 := by
    rw [← filling.isFull_iff]
    rw [blocks,Bool.or_eq_false_iff] at goes
    exact Bool.eq_false_iff.mp goes.1
  have below : ¬q.tail+1 = size := by
    rw [← BitVec.toInt_inj,filling.next_toInt]
    omega
  obtain ⟨pushed,got⟩ := q.lock.insert_kept q.tail.toInt item
  rw [step,goes]
  refine ⟨rfl,filling.header,?_,?_,got.trans filling.got⟩
  · change (if q.tail+1 = size then 0 else q.tail+1).toInt = ((q.lock.insert q.tail.toInt item).pushed.length : Int)
    rw [if_neg below,filling.next_toInt,pushed,List.length_append]
    rfl
  · change ((q.lock.insert q.tail.toInt item).pushed.length : Int) < size.toInt
    rw [pushed,List.length_append,List.length_singleton]
    change ((q.pushed.length+1 : Nat) : Int) < size.toInt
    omega

/-- The first item taken sends the header below the ring. -/
theorem Filling.get (filling : q.Filling size) (goes : q.blocks size .asyncGetHeader = false) :
    ¬(q.step size .asyncGetHeader).Bounded size := by
  intro bounded
  have low := bounded.header.1
  rw [step,goes] at low
  change 0 ≤ (if q.header-1 = 0 then size else q.header-1).toInt at low
  rw [filling.header,if_neg (by decide)] at low
  exact absurd low (by decide)

/-- Nothing is stored, and null is what has been taken. -/
def Null (q : RingQueue α) : Prop := q.queue = [] ∧ ∀ item ∈ q.got, item = none

/-- An item put into an empty queue is ignored. -/
theorem Null.step (inv : q.Null) (call : RingCall α) : (q.step size call).Null := by
  unfold RingQueue.step
  split
  · exact inv
  · cases call with
    | asyncPutTail item =>
      refine ⟨?_,fun other inside => inv.2 other ?_⟩
      · change (q.lock.insert q.tail.toInt item).queue = []
        rw [Queue.insert,if_pos]
        · exact inv.1
        · change (q.queue.length : Int) ≤ q.tail.toInt ∨ q.tail.toInt < 0
          rw [inv.1,List.length_nil]
          exact le_or_gt 0 _
      · change other ∈ (q.lock.insert q.tail.toInt item).got at inside
        rwa [(q.lock.insert_kept q.tail.toInt item).2] at inside
    | asyncGetHeader =>
      refine ⟨inv.1,fun other inside => ?_⟩
      rcases List.mem_append.mp inside with old | new
      · exact inv.2 other old
      · have nothing : q.lock.queue = [] := inv.1
        rw [List.mem_singleton.mp new]
        split
        · rfl
        · rw [nothing,List.getElem?_nil]

theorem after_null (size : BitVec 32) (calls : List (RingCall α)) : (after size calls).Null :=
  Machine.run_induction (fun _ call inv => inv.step call) calls ⟨rfl,fun _ inside => absurd inside List.not_mem_nil⟩

end RingQueue

end Smtdv
