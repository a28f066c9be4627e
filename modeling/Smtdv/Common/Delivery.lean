import Smtdv.Common.Queue

/-! What the items of a queue become. A process that has passed `wait(size()>0)` does not look
at the size again once it has the lock, so no removal may leave the queue empty while another
one is there; and `uvm_queue::insert` drops the item where its index is out of range. -/
namespace Smtdv.Queue
open Lib

variable {α : Type*}

/-- No assertion has failed, nothing was taken from an empty queue, and every item of a producer
is queued, popped or deleted, once. -/
structure Safe (q : Queue α) : Prop where
  faultless : q.faults = []
  once : q.pushed.Perm (q.queue ++ q.popped ++ q.deleted)

/-- The task leaves a queue with these items empty. -/
def Empties (queue : List α) : QueueOp α → Prop
  | .popFront | .popBack | .prioGet => queue.length ≤ 1
  | .delete idx => idx = -1 ∨ (idx = 0 ∧ queue.length ≤ 1)
  | .purge => True
  | .pushFront _ | .pushBack _ | .insert _ _ | .get _ => False

/-- `insert` accepts the index. -/
def InRange (queue : List α) : QueueOp α → Prop
  | .insert idx _ => 0 ≤ idx ∧ idx < queue.length
  | _ => True

/-- A process that gets the lock inserts in range, and empties the queue only when no other
process is past its wait for the size. -/
def Spared (q : Queue α) : QueueAction α → Prop
  | .call _ => True
  | .go k =>
    match q.procs[k]? with
    | some ⟨op,.lock⟩ => q.hasLock = false → InRange q.queue op ∧
        (Empties q.queue op → ∀ other ∈ q.procs.eraseIdx k, other.place = .lock → other.op.consumes = false)
    | _ => True

instance (queue : List α) (op : QueueOp α) : Decidable (Empties queue op) := by
  unfold Empties
  split <;> infer_instance

instance (queue : List α) (op : QueueOp α) : Decidable (InRange queue op) := by
  unfold InRange
  split <;> infer_instance

instance (q : Queue α) (a : QueueAction α) : Decidable (q.Spared a) := by
  unfold Spared
  split
  · infer_instance
  · split <;> infer_instance

/-- What keeps a queue safe: whoever is past the wait for the size finds an item. -/
structure Inv (q : Queue α) : Prop where
  lockInv : q.LockInv
  safe : q.Safe
  ready : ∀ proc ∈ q.procs, proc.place = .lock → proc.op.consumes = true → q.queue ≠ []

theorem popFront_safe (q : Queue α) (order : List α) (safe : q.Safe) (same : order.Perm q.queue)
    (some : q.queue ≠ []) : (q.popFront order).Safe := by
  obtain ⟨faultless,once⟩ := safe
  cases order with
  | nil => exact absurd same.symm.eq_nil some
  | cons item rest =>
    refine ⟨faultless,once.trans ?_⟩
    change (q.queue ++ q.popped ++ q.deleted).Perm (rest ++ (q.popped ++ [item]) ++ q.deleted)
    apply List.Perm.append_right
    rw [← List.append_assoc]
    have moved : (item::(rest ++ q.popped)).Perm (rest ++ q.popped ++ [item]) :=
      (List.perm_append_singleton item _).symm
    exact (same.symm.append_right q.popped).trans moved

theorem popBack_safe (q : Queue α) (safe : q.Safe) (some : q.queue ≠ []) : q.popBack.Safe := by
  obtain ⟨faultless,once⟩ := safe
  have last := List.getLast?_eq_some_getLast some
  have whole := List.dropLast_append_getLast some
  simp only [popBack,last]
  refine ⟨faultless,once.trans ?_⟩
  apply List.Perm.append_right
  conv_lhs => rw [← whole]
  rw [List.append_assoc]
  exact List.perm_append_comm.append_left _

theorem clear_safe (q : Queue α) (safe : q.Safe) : q.clear.Safe := by
  obtain ⟨faultless,once⟩ := safe
  refine ⟨faultless,once.trans ?_⟩
  change (q.queue ++ q.popped ++ q.deleted).Perm ([] ++ q.popped ++ (q.deleted ++ q.queue))
  rw [List.nil_append,List.append_assoc,← List.append_assoc q.popped]
  exact List.perm_append_comm

theorem taken_perm (queue : List α) (k : Nat) (bound : k < queue.length) :
    queue.Perm (queue[k]::queue.eraseIdx k) := by
  conv_lhs => rw [← List.take_append_drop k queue,List.drop_eq_getElem_cons bound]
  rw [List.eraseIdx_eq_take_drop_succ]
  exact List.perm_middle

theorem delete_safe (q : Queue α) (idx : Int) (safe : q.Safe) : (q.delete idx).Safe := by
  obtain ⟨faultless,once⟩ := safe
  unfold delete
  split
  · exact ⟨faultless,once⟩
  next inside =>
    split
    · exact clear_safe q ⟨faultless,once⟩
    next one =>
      have bound : idx.toNat < q.queue.length := by omega
      rw [List.getElem?_eq_getElem bound]
      refine ⟨faultless,once.trans ?_⟩
      change (q.queue ++ q.popped ++ q.deleted).Perm
        (q.queue.eraseIdx idx.toNat ++ q.popped ++ (q.deleted ++ [q.queue[idx.toNat]]))
      rw [← List.append_assoc]
      have moved := taken_perm q.queue idx.toNat bound
      refine ((moved.append_right q.popped).append_right q.deleted).trans ?_
      exact (List.perm_append_singleton _ _).symm

theorem insert_safe (q : Queue α) (idx : Int) (item : α) (safe : q.Safe)
    (inside : 0 ≤ idx ∧ idx < q.queue.length) : (q.insert idx item).Safe := by
  obtain ⟨faultless,once⟩ := safe
  have accepted : ¬ (q.queue.length ≤ idx ∨ idx < 0) := by omega
  rw [insert,if_neg accepted]
  refine ⟨faultless,?_⟩
  have bound : idx.toNat ≤ q.queue.length := by omega
  have moved := (List.perm_insertIdx item q.queue bound).symm
  change (q.pushed ++ [item]).Perm (q.queue.insertIdx idx.toNat item ++ q.popped ++ q.deleted)
  refine (List.perm_append_singleton item _).trans ((once.cons item).trans ?_)
  exact (moved.append_right q.popped).append_right q.deleted

theorem update_safe (prio : α → Int) (q : Queue α) (op : QueueOp α) (safe : q.Safe)
    (some : op.consumes = true → q.queue ≠ []) (inside : InRange q.queue op) : (q.update prio op).Safe := by
  cases op with
  | pushFront item =>
    refine ⟨safe.faultless,?_⟩
    exact (List.perm_append_singleton item _).trans (safe.once.cons item)
  | pushBack item =>
    refine ⟨safe.faultless,?_⟩
    change (q.pushed ++ [item]).Perm (q.queue ++ [item] ++ q.popped ++ q.deleted)
    refine (List.perm_append_singleton item _).trans ((safe.once.cons item).trans ?_)
    exact ((List.perm_append_singleton item q.queue).symm.append_right q.popped).append_right q.deleted
  | popFront => exact popFront_safe q q.queue safe (.refl _) (some rfl)
  | popBack => exact popBack_safe q safe (some rfl)
  | insert idx item => exact insert_safe q idx item safe inside
  | get idx =>
    have full : q.queue.isEmpty = false := by simpa using some rfl
    refine ⟨?_,safe.once⟩
    simp only [update,get,full,Bool.false_eq_true,if_false,List.append_nil]
    exact safe.faultless
  | prioGet => exact popFront_safe q _ safe (List.perm_insertionSort _ _) (some rfl)
  | delete idx => exact delete_safe q idx safe
  | purge => exact clear_safe q safe

theorem update_some (prio : α → Int) (q : Queue α) (op : QueueOp α) (some : q.queue ≠ [])
    (more : ¬ Empties q.queue op) : (q.update prio op).queue ≠ [] := by
  have two (many : ¬ q.queue.length ≤ 1) (order : List α) (same : order.length = q.queue.length) :
      (q.popFront order).queue ≠ [] := by
    rcases order with _ | ⟨a,_ | ⟨b,rest⟩⟩
    · simp at same
      omega
    · simp at same
      omega
    · exact List.cons_ne_nil b rest
  cases op with
  | pushFront item => exact List.cons_ne_nil item _
  | pushBack item => simp [update]
  | popFront => exact two more q.queue rfl
  | popBack =>
    have last := List.getLast?_eq_some_getLast some
    simp only [update,popBack,last]
    intro none
    have size := congrArg List.length none
    simp only [List.length_dropLast,List.length_nil] at size
    exact more (show q.queue.length ≤ 1 by omega)
  | insert idx item =>
    simp only [update,insert]
    split
    · exact some
    · intro none
      have size := congrArg List.length none
      rw [List.length_insertIdx] at size
      split at size <;> simp at size
      exact some size
  | get idx => exact some
  | prioGet => exact two more _ (List.length_insertionSort _ _)
  | delete idx =>
    simp only [update,delete]
    split
    · exact some
    next inside =>
      have several : ¬ (idx = -1 ∨ (idx = 0 ∧ q.queue.length ≤ 1)) := more
      rw [if_neg fun one => several (.inl one)]
      intro none
      have size := congrArg List.length none
      rw [List.length_eraseIdx] at size
      simp only [List.length_nil] at size
      split at size <;> omega
  | purge => exact absurd trivial more

theorem Safe.locked {q : Queue α} (safe : q.Safe) (free : q.hasLock = false) : q.lock.Safe := by
  refine ⟨?_,safe.once⟩
  simp only [lock,free,Bool.false_eq_true,if_false,List.append_nil]
  exact safe.faultless

theorem lock_inv (prio : α → Int) (q : Queue α) (k : Nat) (op : QueueOp α)
    (here : q.procs[k]? = some ⟨op,.lock⟩) (inv : q.Inv) (free : q.hasLock = false)
    (inside : InRange q.queue op)
    (last : Empties q.queue op → ∀ other ∈ q.procs.eraseIdx k, other.place = .lock → other.op.consumes = false) :
    Safe {q.lock.update prio op with procs := q.procs.set k ⟨op,.swap⟩} ∧
    ∀ proc ∈ q.procs.set k ⟨op,.swap⟩, proc.place = .lock → proc.op.consumes = true →
      (q.lock.update prio op).queue ≠ [] := by
  obtain ⟨before,rest,procs,set,erase⟩ := procs_at here
  have own : op.consumes = true → q.queue ≠ [] := inv.ready ⟨op,.lock⟩ (List.mem_of_getElem? here) rfl
  have safe := update_safe prio q.lock op (inv.safe.locked free) own inside
  refine ⟨⟨safe.faultless,safe.once⟩,fun proc among place consumes => ?_⟩
  rw [set] at among
  have other : proc ∈ q.procs.eraseIdx k := by
    rw [erase]
    rcases List.mem_append.mp among with first | later
    · exact List.mem_append_left _ first
    · rcases List.mem_cons.mp later with self | later
      · rw [self] at place
        cases place
      · exact List.mem_append_right _ later
  have some := inv.ready proc (List.mem_of_mem_eraseIdx other) place consumes
  apply update_some prio q.lock op some
  intro empties
  have none := last empties proc other place
  rw [consumes] at none
  cases none

theorem go_inv (prio : α → Int) (q : Queue α) (k : Nat) (proc : QueueProc α) (here : q.procs[k]? = some proc)
    (inv : q.Inv) (spared : q.Spared (.go k)) : (q.go prio k proc).Inv := by
  have lockInv := go_lockInv prio q k proc here inv.lockInv
  obtain ⟨before,rest,procs,set,erase⟩ := procs_at here
  obtain ⟨op,place⟩ := proc
  cases place with
  | size =>
    simp only [go] at lockInv ⊢
    split
    · exact inv
    next full =>
      have some : q.queue ≠ [] := by simpa using full
      rw [if_neg full] at lockInv
      exact ⟨lockInv,⟨inv.safe.faultless,inv.safe.once⟩,fun _ _ _ _ => some⟩
  | lock =>
    simp only [go] at lockInv ⊢
    split
    · exact inv
    next free =>
      rw [if_neg free] at lockInv
      have free : q.hasLock = false := by simpa using free
      simp only [Spared,here] at spared
      obtain ⟨inside,last⟩ := spared free
      obtain ⟨safe,ready⟩ := lock_inv prio q k op here inv free inside last
      exact ⟨lockInv,safe,ready⟩
  | swap =>
    have taken : q.hasLock = true := by
      cases lock : q.hasLock with
      | true => rfl
      | false =>
        have held := inv.lockInv.held
        rw [procs,lock] at held
        simp [List.countP_append] at held
    refine ⟨lockInv,⟨?_,inv.safe.once⟩,fun proc among => ?_⟩
    · simp only [go,unlock,taken,if_true,List.append_nil]
      exact inv.safe.faultless
    · exact inv.ready proc (List.mem_of_mem_eraseIdx among)

theorem step_inv (prio : α → Int) (q : Queue α) (a : QueueAction α) (inv : q.Inv) (spared : q.Spared a) :
    (step prio q a).Inv := by
  have lockInv := step_lockInv prio q a inv.lockInv
  cases a with
  | call op =>
    refine ⟨lockInv,⟨inv.safe.faultless,inv.safe.once⟩,fun proc among place consumes => ?_⟩
    rcases List.mem_append.mp among with old | new
    · exact inv.ready proc old place consumes
    · rw [List.mem_singleton.mp new] at place consumes
      have consumes : op.consumes = true := consumes
      simp [consumes] at place
  | go k =>
    simp only [step] at lockInv ⊢
    split
    · exact inv
    next proc here => exact go_inv prio q k proc here inv spared

theorem initial_inv : ({} : Queue α).Inv :=
  ⟨initial_lockInv,⟨rfl,.refl _⟩,fun _ among => (List.not_mem_nil among).elim⟩

/-- A queue is safe in every state of a run of any number of processes that spares the last item
for those that are past their wait for it, and inserts in range. -/
theorem safe_of_spared (prio : α → Int) (actions : List (QueueAction α))
    (spared : Machine.Meets (step prio) Spared {} actions) : (after prio actions).Safe :=
  (Machine.run_invariant (step_inv prio) initial_inv spared).safe

/-- A producer and two consumers, which come while the producer has the lock; `items` more
items are pushed before. -/
def twoConsumers (items : List Int) : List (QueueAction Int) :=
  (items.flatMap fun item => [.call (.pushBack item),.go 0,.go 0]) ++
    [.call (.pushBack 7),.go 0,.call .prioGet,.call .popFront,.go 1,.go 2,.go 0,.go 0,.go 0,.go 0,.go 0]

theorem twoConsumers_safe : (after (fun item => item) (twoConsumers [5])).Safe :=
  safe_of_spared (fun item => item) (twoConsumers [5]) (by decide)

/-- With one item for both the second consumer pops from the empty queue. -/
theorem twoConsumers_not_safe : ¬ (after (fun item => item) (twoConsumers [])).Safe :=
  fun safe => absurd safe.faultless (by decide)

end Smtdv.Queue
