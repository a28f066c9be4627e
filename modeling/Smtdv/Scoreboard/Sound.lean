import Smtdv.Scoreboard.Record

/-! Invariants of every run of the scoreboard: both pools agree with the reports, and an
entry's parent is an object of the entry's own direction. -/
namespace Smtdv.Scoreboard
open Lib

variable {aw dw : Nat}

/-- A piece of a call finds the object of the call as the newest one. -/
def Serving (scb : Scoreboard aw dw) : Op aw dw → Prop
  | .create _ => True
  | .initor item _ | .target item _ | .boxInitor item | .boxTarget item =>
    0 < scb.bursts.next ∧ (scb.bursts.get (scb.bursts.next-1)).item = item

@[simp] theorem counted_next (bursts : Heap (Burst aw dw)) (r : Nat) :
    (counted bursts r).next = bursts.next := rfl

@[simp] theorem counted_item (bursts : Heap (Burst aw dw)) (r q : Nat) :
    ((counted bursts r).get q).item = (bursts.get q).item :=
  Heap.modify_get_field bursts r q _ Burst.item fun _ => rfl

theorem counted_num (bursts : Heap (Burst aw dw)) (r q : Nat) :
    ((counted bursts r).get q).checkNumOnScb =
      (bursts.get q).checkNumOnScb + if q = r then 1 else 0 := by
  rw [counted,Heap.modify_get]
  split <;> rfl

/-- Objects stay what they are, and their counters never go down. -/
theorem op_bursts (scb : Scoreboard aw dw) (o : Op aw dw) :
    scb.bursts.next ≤ (op scb o).bursts.next ∧ ∀ r < scb.bursts.next,
      ((op scb o).bursts.get r).item = (scb.bursts.get r).item ∧
      (scb.bursts.get r).checkNumOnScb ≤ ((op scb o).bursts.get r).checkNumOnScb := by
  have effect := op_effect scb o
  generalize op scb o = scb' at effect ⊢
  cases effect with
  | create item =>
    refine ⟨Nat.le_succ _,fun r old => ?_⟩
    simp [Scoreboard.create,Heap.alloc_get_ne _ _ (Nat.ne_of_lt old)]
  | popWr | popRd => exact ⟨le_rfl,fun r _ => ⟨counted_item _ _ _,by simp [counted_num]⟩⟩
  | _ => exact ⟨le_rfl,fun r _ => ⟨rfl,le_rfl⟩⟩

theorem run_bursts (scb : Scoreboard aw dw) (os : List (Op aw dw)) :
    scb.bursts.next ≤ (Machine.run op scb os).bursts.next ∧ ∀ r < scb.bursts.next,
      ((Machine.run op scb os).bursts.get r).item = (scb.bursts.get r).item ∧
      (scb.bursts.get r).checkNumOnScb ≤ ((Machine.run op scb os).bursts.get r).checkNumOnScb := by
  induction os generalizing scb with
  | nil => exact ⟨le_rfl,fun r _ => ⟨rfl,le_rfl⟩⟩
  | cons o rest ih =>
    obtain ⟨grown,kept⟩ := op_bursts scb o
    obtain ⟨grown',kept'⟩ := ih (op scb o)
    refine ⟨grown.trans grown',fun r old => ?_⟩
    have first := kept r old
    have second := kept' r (old.trans_le grown)
    exact ⟨second.1.trans first.1,first.2.trans second.2⟩

theorem op_next (scb : Scoreboard aw dw) (o : Op aw dw) (beat : ∀ item, o ≠ .create item) :
    (op scb o).bursts.next = scb.bursts.next := by
  have effect := op_effect scb o
  generalize op scb o = scb' at effect ⊢
  cases effect with
  | create item => exact absurd rfl (beat item)
  | _ => rfl

theorem run_next (scb : Scoreboard aw dw) (os : List (Op aw dw)) (beats : ∀ item, .create item ∉ os) :
    (Machine.run op scb os).bursts.next = scb.bursts.next := by
  induction os generalizing scb with
  | nil => rfl
  | cons o rest ih =>
    simp only [List.mem_cons,not_or] at beats
    rw [Machine.run_cons,ih _ fun item => (beats item).2,op_next scb o fun item => Ne.symm (beats item).1]

/-- After the object of a call is created, all pieces of the call find it. -/
theorem meets_beats (item : SequenceItem aw dw) (os : List (Op aw dw))
    (kind : ∀ o ∈ os, ∀ scb : Scoreboard aw dw, 0 < scb.bursts.next →
      (scb.bursts.get (scb.bursts.next-1)).item = item → Serving scb o) (beats : ∀ item, .create item ∉ os)
    (scb : Scoreboard aw dw) (newest : 0 < scb.bursts.next)
    (current : (scb.bursts.get (scb.bursts.next-1)).item = item) : Machine.Meets op Serving scb os := by
  induction os generalizing scb with
  | nil => trivial
  | cons o rest ih =>
    obtain ⟨first,kind⟩ := List.forall_mem_cons.mp kind
    simp only [List.mem_cons,not_or] at beats
    have same := op_next scb o fun item => Ne.symm (beats item).1
    have kept := (op_bursts scb o).2 (scb.bursts.next-1) (Nat.sub_lt newest Nat.one_pos)
    refine ⟨first scb newest current,ih kind (fun item => (beats item).2) _ ?_ ?_⟩
    · rwa [same]
    · rw [same,kept.1,current]

theorem meets_call (scb : Scoreboard aw dw) (c : Call aw dw) : Machine.Meets op Serving scb (ops c) := by
  have newest (item : SequenceItem aw dw) : 0 < (scb.create item).bursts.next := Nat.succ_pos _
  have current (item : SequenceItem aw dw) :
      ((scb.create item).bursts.get ((scb.create item).bursts.next-1)).item = item := by
    simp [create]
  cases c with
  | writeInitor item | writeTarget item =>
    refine ⟨trivial,meets_beats item _ ?_ (by simp) _ (newest item) (current item)⟩
    intro o member scb newest current
    rcases List.mem_append.mp member with beat | box
    · obtain ⟨i,_,rfl⟩ := List.mem_map.mp beat
      exact ⟨newest,current⟩
    · rw [List.mem_singleton.mp box]
      exact ⟨newest,current⟩

theorem meets_serving (scb : Scoreboard aw dw) (calls : List (Call aw dw)) :
    Machine.Meets op Serving scb (calls.flatMap ops) := by
  induction calls generalizing scb with
  | nil => trivial
  | cons c rest ih => exact (Machine.meets_append op Serving _ _ _).mpr ⟨meets_call scb c,ih _⟩

/-- Every entry of a pool belongs to an object of the pool's direction. -/
def Owned (dir : TrsType) (pool : Pool aw dw) (bursts : Heap (Burst aw dw)) : Prop :=
  ∀ (a : BitVec aw) (p : Nat) (it : Atomic aw dw), (queueAt pool a)[p]? = some it →
    it.parent < bursts.next ∧ (bursts.get it.parent).item.trsT = dir

theorem Owned.create {dir : TrsType} {pool : Pool aw dw} {bursts : Heap (Burst aw dw)}
    (owned : Owned dir pool bursts) (burst : Burst aw dw) : Owned dir pool (bursts.alloc burst) := by
  intro a p it found
  obtain ⟨old,kind⟩ := owned a p it found
  refine ⟨Nat.lt_succ_of_lt old,?_⟩
  rwa [Heap.alloc_get_ne _ _ (Nat.ne_of_lt old)]

theorem Owned.counted {dir : TrsType} {pool : Pool aw dw} {bursts : Heap (Burst aw dw)}
    (owned : Owned dir pool bursts) (r : Nat) : Owned dir pool (counted bursts r) := by
  intro a p it found
  rw [counted_next,counted_item]
  exact owned a p it found

theorem Owned.put {dir : TrsType} {pool : Pool aw dw} {bursts : Heap (Burst aw dw)}
    (owned : Owned dir pool bursts) (opened : pool.hasFinalize = false) (addr : BitVec aw)
    (aitem : Atomic aw dw) (old : aitem.parent < bursts.next)
    (kind : (bursts.get aitem.parent).item.trsT = dir) :
    Owned dir (putAtomic dir pool addr aitem).1 bursts := by
  intro a p it found
  rcases (putAtomic_entry dir pool opened addr aitem a p it).mp found with before | ⟨_,_,rfl⟩
  · exact owned a p it before
  · exact ⟨old,kind⟩

theorem Owned.update {dir : TrsType} {pool : Pool aw dw} {bursts : Heap (Burst aw dw)}
    (owned : Owned dir pool bursts) (addr : BitVec aw) (pos : Nat) :
    Owned dir (pool.update addr (markChecked · pos)) bursts := by
  intro a p it found
  obtain ⟨jt,before,same⟩ := update_entry pool addr pos a p it found
  have parent := congrArg Atomic.parent same
  change it.parent = jt.parent at parent
  rw [parent]
  exact owned a p jt before

/-- An atomic item as `_create_atomic_item` makes it for one address: one beat of one
direction, with no identifier set. -/
structure Slice (dir : TrsType) (addr : BitVec aw) (it : Atomic aw dw) : Prop where
  kind : it.item.trsT = dir
  addrs : it.item.addrs = [addr]
  initorid : it.item.initorid = -1
  targetid : it.item.targetid = -1

theorem beatItem_slice (scb : Scoreboard aw dw) (item : SequenceItem aw dw) (i : Nat) :
    Slice item.trsT (beatAddr item i) (scb.beatItem item i) := ⟨rfl,rfl,rfl,rfl⟩

theorem Slice.sameIds {dir : TrsType} {addr : BitVec aw} {it jt : Atomic aw dw}
    (left : Slice dir addr it) : it.item.SameIds jt.item := ⟨.inl left.initorid,.inl left.targetid⟩

def Sliced (dir : TrsType) (pool : Pool aw dw) : Prop :=
  ∀ (a : BitVec aw) (p : Nat) (it : Atomic aw dw), (queueAt pool a)[p]? = some it → Slice dir a it

theorem Sliced.put {dir : TrsType} {pool : Pool aw dw} (sliced : Sliced dir pool)
    (opened : pool.hasFinalize = false) (addr : BitVec aw) (aitem : Atomic aw dw)
    (slice : Slice dir addr aitem) : Sliced dir (putAtomic dir pool addr aitem).1 := by
  intro a p it found
  rcases (putAtomic_entry dir pool opened addr aitem a p it).mp found with before | ⟨rfl,_,rfl⟩
  · exact sliced a p it before
  · exact slice

theorem Sliced.update {dir : TrsType} {pool : Pool aw dw} (sliced : Sliced dir pool)
    (addr : BitVec aw) (pos : Nat) : Sliced dir (pool.update addr (markChecked · pos)) := by
  intro a p it found
  obtain ⟨jt,before,same⟩ := update_entry pool addr pos a p it found
  have item := congrArg Atomic.item same
  change it.item = jt.item at item
  obtain ⟨kind,addrs,initorid,targetid⟩ := sliced a p jt before
  rw [← item] at kind addrs initorid targetid
  exact ⟨kind,addrs,initorid,targetid⟩

structure Sound (scb : Scoreboard aw dw) : Prop where
  wr : Record .wr scb.wrPool scb.log
  rd : Record .rd scb.rdPool scb.log
  wrOwned : Owned .wr scb.wrPool scb.bursts
  rdOwned : Owned .rd scb.rdPool scb.bursts
  wrSliced : Sliced .wr scb.wrPool
  rdSliced : Sliced .rd scb.rdPool

theorem initial_sound : Sound (initial : Scoreboard aw dw) where
  wr := initial_record .wr
  rd := initial_record .rd
  wrOwned a p it found := by simp [initial,queueAt] at found
  rdOwned a p it found := by simp [initial,queueAt] at found
  wrSliced a p it found := by simp [initial,queueAt] at found
  rdSliced a p it found := by simp [initial,queueAt] at found

theorem op_sound (scb : Scoreboard aw dw) (o : Op aw dw) (sound : Sound scb) (serving : Serving scb o) :
    Sound (op scb o) := by
  obtain ⟨wr,rd,wrOwned,rdOwned,wrSliced,rdSliced⟩ := sound
  have effect := op_effect scb o
  generalize op scb o = scb' at effect ⊢
  cases effect with
  | create item => exact ⟨wr,rd,wrOwned.create _,rdOwned.create _,wrSliced,rdSliced⟩
  | putWr item i kind =>
    refine ⟨wr.put _ _ rfl,?_,wrOwned.put wr.opened _ _ ?_ ?_,rdOwned,
      wrSliced.put wr.opened _ _ (kind ▸ beatItem_slice scb item i),rdSliced⟩
    · rw [putAtomic_report .wr scb.wrPool wr.opened]
      exact rd.quiet _ (by simp) (by simp) (by simp)
    · exact Nat.sub_lt serving.1 Nat.one_pos
    · exact (congrArg SequenceItem.trsT serving.2).trans kind
  | putRd item i kind =>
    refine ⟨?_,rd.put _ _ rfl,wrOwned,rdOwned.put rd.opened _ _ ?_ ?_,wrSliced,
      rdSliced.put rd.opened _ _ (kind ▸ beatItem_slice scb item i)⟩
    · rw [putAtomic_report .rd scb.rdPool rd.opened]
      exact wr.quiet _ (by simp) (by simp) (by simp)
    · exact Nat.sub_lt serving.1 Nat.one_pos
    · exact (congrArg SequenceItem.trsT serving.2).trans kind
  | missWr | missRd =>
    exact ⟨wr.quiet _ (by simp) (by simp) (by simp),rd.quiet _ (by simp) (by simp) (by simp),wrOwned,rdOwned,
      wrSliced,rdSliced⟩
  | popWr item i kind pos it selected found =>
    exact ⟨wr.pop _ scb.bursts _ pos selected it _ found,rd.quiet _ (by simp) (by simp) (by simp),
      (wrOwned.update _ pos).counted _,rdOwned.counted _,wrSliced.update _ pos,rdSliced⟩
  | popRd item i kind pos it selected found =>
    exact ⟨wr.quiet _ (by simp) (by simp) (by simp),rd.pop _ scb.bursts _ pos selected it _ found,
      wrOwned.counted _,(rdOwned.update _ pos).counted _,wrSliced,rdSliced.update _ pos⟩
  | boxRd | boxWr | idle => exact ⟨wr,rd,wrOwned,rdOwned,wrSliced,rdSliced⟩

/-- Whatever the calls are, the scoreboard agrees with its reports. -/
theorem after_sound (calls : List (Call aw dw)) : Sound (after calls) := by
  rw [after,run_calls]
  exact Machine.run_invariant op_sound initial_sound (meets_serving _ calls)

end Smtdv.Scoreboard
