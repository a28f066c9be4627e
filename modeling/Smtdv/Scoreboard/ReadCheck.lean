import Smtdv.Common.Backdoor
import Smtdv.Scoreboard.Sound

/-! Reads are paired but their data is never looked at, neither by the scoreboard nor by
the back-door thread: a wrong read is reported in no run. -/
namespace Smtdv.Scoreboard
open Lib

variable {aw dw : Nat}

theorem error_popReports (id : String) (a : BitVec aw) (it aitem : Atomic aw dw) (dir : TrsType)
    (id' : String) (addr : BitVec aw) (pos : Nat) (jt bitem : Atomic aw dw) :
    Event.error id a it aitem ∈ popReports dir id' addr pos jt bitem →
      id = id' ∧ jt.item.compare bitem.item = false := by
  unfold popReports
  split
  · simp
  · rename_i refused
    intro member
    simp only [List.cons_append,List.nil_append,List.mem_cons,Event.error.injEq,reduceCtorEq,List.not_mem_nil,
      or_false] at member
    exact ⟨member.1,by simpa using refused⟩

theorem compare_read (scb : Scoreboard aw dw) (sound : Sound scb) (item : SequenceItem aw dw) (i : Nat)
    (kind : item.trsT = .rd) (pos : Nat) (it : Atomic aw dw)
    (found : (queueAt scb.rdPool (beatAddr item i))[pos]? = some it) :
    it.item.compare (scb.beatItem item i).item = true := by
  have slice := sound.rdSliced _ pos it found
  exact SequenceItem.compare_rd _ _ slice.kind kind slice.addrs slice.sameIds

def NoReadError (log : List (Event aw dw)) : Prop :=
  ∀ a it aitem, Event.error "SMTDV_SCB_RD_COMP" a it aitem ∉ log

theorem op_noReadError (scb : Scoreboard aw dw) (o : Op aw dw) (sound : Sound scb)
    (clean : NoReadError scb.log) : NoReadError (op scb o).log := by
  intro a it aitem member
  have effect := op_effect scb o
  generalize op scb o = scb' at effect member
  cases effect with
  | create | boxRd | boxWr | idle => exact clean a it aitem member
  | putWr item i kind =>
    rw [putAtomic_report .wr scb.wrPool sound.wr.opened] at member
    exact clean a it aitem (by simpa using member)
  | putRd item i kind =>
    rw [putAtomic_report .rd scb.rdPool sound.rd.opened] at member
    exact clean a it aitem (by simpa using member)
  | missWr | missRd => exact clean a it aitem (by simpa using member)
  | popWr item i kind pos jt selected found =>
    rcases List.mem_append.mp member with old | new
    · exact clean a it aitem old
    · exact absurd (error_popReports _ _ _ _ _ _ _ _ _ _ new).1 (by decide)
  | popRd item i kind pos jt selected found =>
    rcases List.mem_append.mp member with old | new
    · exact clean a it aitem old
    · have refused := (error_popReports _ _ _ _ _ _ _ _ _ _ new).2
      rw [compare_read scb sound item i kind pos jt found] at refused
      cases refused

theorem after_noReadError (calls : List (Call aw dw)) : NoReadError (after calls).log := by
  have keep (scb : Scoreboard aw dw) (o : Op aw dw) (held : Sound scb ∧ NoReadError scb.log)
      (serving : Serving scb o) : Sound (op scb o) ∧ NoReadError (op scb o).log :=
    ⟨op_sound scb o held.1 serving,op_noReadError scb o held.1 held.2⟩
  rw [after,run_calls]
  exact (Machine.run_invariant keep ⟨initial_sound,fun _ _ _ member => by cases member⟩
    (meets_serving _ calls)).2

/-! ### The back-door box of the reads -/

def RdBoxed (scb : Scoreboard aw dw) : Prop :=
  ∀ r ∈ scb.rbox, r < scb.bursts.next ∧ (scb.bursts.get r).item.trsT = .rd

theorem op_rdBoxed (scb : Scoreboard aw dw) (o : Op aw dw) (serving : Serving scb o) (boxed : RdBoxed scb) :
    RdBoxed (op scb o) := by
  have kept (r : Nat) (member : r ∈ scb.rbox) :
      r < (op scb o).bursts.next ∧ ((op scb o).bursts.get r).item.trsT = .rd := by
    obtain ⟨old,read⟩ := boxed r member
    obtain ⟨grown,same⟩ := op_bursts scb o
    exact ⟨old.trans_le grown,by rw [(same r old).1,read]⟩
  have effect := op_effect scb o
  generalize op scb o = scb' at effect kept ⊢
  cases effect with
  | boxRd item success =>
    intro r member
    rcases List.mem_append.mp member with old | new
    · exact boxed r old
    · rw [List.mem_singleton.mp new]
      exact ⟨Nat.sub_lt serving.1 Nat.one_pos,(congrArg SequenceItem.trsT serving.2).trans success.2⟩
  | _ => exact kept

theorem after_rdBoxed (calls : List (Call aw dw)) : RdBoxed (after calls) := by
  have keep (scb : Scoreboard aw dw) (o : Op aw dw) (boxed : RdBoxed scb) (serving : Serving scb o) :=
    op_rdBoxed scb o serving boxed
  rw [after,run_calls]
  exact Machine.run_invariant keep (fun r member => by cases member) (meets_serving _ calls)

/-- The items the back-door thread pops. -/
def boxedReads (scb : Scoreboard aw dw) : List (SequenceItem aw dw) :=
  scb.rbox.map fun r => (scb.bursts.get r).item

/-! ### The result -/

/-- The thread comes to the `j`-th item: it has found a slave for every item before. -/
def Popped (bk : BkdorRd) (items : List (SequenceItem aw dw)) (j : Nat) : Prop :=
  ∀ item ∈ items.take j, (findSlave bk.mapCfgs (item.addr.toNat % 2^32)).isSome = true

/-- Read data checking of a sequence of calls and of the back-door thread beside it: a pair
of read beats with different data is reported, and so is a read that differs from the
contents of the memory in each attempt. -/
structure ReadChecking (calls : List (Call aw dw)) (bk : BkdorRd) : Prop where
  scoreboard : ∀ (a : BitVec aw) (pos : Nat) (it aitem : Atomic aw dw),
    .pop .rd a pos it aitem ∈ (after calls).log → it.item.dataBeat ≠ aitem.item.dataBeat →
    .error "SMTDV_SCB_RD_COMP" a it aitem ∈ (after calls).log
  backdoor : ∀ (j : Nat) (item : SequenceItem aw dw) (sid : Nat), Popped bk (boxedReads (after calls)) j →
    (boxedReads (after calls))[j]? = some item → findSlave bk.mapCfgs (item.addr.toNat % 2^32) = some sid →
    (∀ k < bk.timeout.toNat, (Backdoor.rebuilt (bk.table j k sid) item).dataBeat ≠ item.dataBeat) →
    .cmp j ∈ bk.run (boxedReads (after calls))

/-- The entry a read beat of an initiator will be paired with has the beat's data. -/
def ReadsAgree (scb : Scoreboard aw dw) : Op aw dw → Prop
  | .initor item i => item.trsT = .rd →
    ∀ pos it, nocheckScbGet scb.bursts (queueAt scb.rdPool (beatAddr item i)) = some pos →
      (queueAt scb.rdPool (beatAddr item i))[pos]? = some it →
      it.item.dataBeat = [item.dataBeat.getD i default]
  | _ => True

/-- Every read in the box shows the contents of the memory in one of its attempts. -/
def MemoryAgrees (scb : Scoreboard aw dw) (bk : BkdorRd) : Prop :=
  ∀ (j : Nat) (item : SequenceItem aw dw) (sid : Nat), Popped bk (boxedReads scb) j →
    (boxedReads scb)[j]? = some item → findSlave bk.mapCfgs (item.addr.toNat % 2^32) = some sid →
    ∃ k < bk.timeout.toNat, (Backdoor.rebuilt (bk.table j k sid) item).dataBeat = item.dataBeat

def ReadPairsAgree (log : List (Event aw dw)) : Prop :=
  ∀ (a : BitVec aw) (pos : Nat) (it aitem : Atomic aw dw),
    .pop .rd a pos it aitem ∈ log → it.item.dataBeat = aitem.item.dataBeat

theorem readPairsAgree_append (first second : List (Event aw dw)) :
    ReadPairsAgree (first++second) ↔ ReadPairsAgree first ∧ ReadPairsAgree second := by
  simp only [ReadPairsAgree,List.mem_append]
  constructor
  · intro all
    exact ⟨fun a pos it aitem member => all a pos it aitem (.inl member),
      fun a pos it aitem member => all a pos it aitem (.inr member)⟩
  · rintro ⟨left,right⟩ a pos it aitem (member | member)
    · exact left a pos it aitem member
    · exact right a pos it aitem member

theorem readPairsAgree_popReports (id : String) (addr : BitVec aw) (pos : Nat) (it aitem : Atomic aw dw) :
    ReadPairsAgree (popReports .rd id addr pos it aitem) ↔ it.item.dataBeat = aitem.item.dataBeat := by
  constructor
  · intro agree
    apply agree addr pos
    simp [popReports]
  · intro same a p jt bitem member
    unfold popReports at member
    split at member <;>
      simp only [List.cons_append,List.nil_append,List.mem_cons,Event.pop.injEq,reduceCtorEq,List.not_mem_nil,
        or_false,false_or] at member <;>
      obtain ⟨_,_,_,rfl,rfl⟩ := member <;> exact same

theorem op_readPairsAgree (scb : Scoreboard aw dw) (o : Op aw dw) :
    ReadPairsAgree (op scb o).log ↔ ReadPairsAgree scb.log ∧ ReadsAgree scb o := by
  have effect := op_effect scb o
  generalize op scb o = scb' at effect ⊢
  cases effect with
  | create | boxRd | boxWr => simp [ReadsAgree,create]
  | putWr item i kind =>
    rw [readPairsAgree_append]
    simp [ReadsAgree,kind,putAtomic,ReadPairsAgree]
  | putRd | missWr =>
    rw [readPairsAgree_append]
    simp [ReadsAgree,putAtomic,ReadPairsAgree]
  | missRd item i kind addrs absent =>
    rw [readPairsAgree_append]
    simp [ReadsAgree,absent,ReadPairsAgree]
  | popWr item i kind pos it selected found =>
    rw [readPairsAgree_append]
    refine and_congr_right fun _ => ?_
    simp only [ReadsAgree,iff_true]
    intro a p jt bitem member
    unfold popReports at member
    split at member <;> simp at member
  | popRd item i kind pos it selected found =>
    rw [readPairsAgree_append,readPairsAgree_popReports]
    refine and_congr_right fun _ => ?_
    simp only [ReadsAgree,kind,true_implies,selected,Option.some.injEq]
    constructor
    · rintro same _ jt rfl there
      rw [found] at there
      obtain rfl := Option.some.inj there
      exact same
    · intro agree
      exact agree pos it rfl found
  | idle _ noInitor =>
    refine (and_iff_left ?_).symm
    cases o with
    | initor item i => simp [ReadsAgree,noInitor item i rfl]
    | _ => trivial

theorem run_readPairsAgree (scb : Scoreboard aw dw) (os : List (Op aw dw)) :
    ReadPairsAgree (Machine.run op scb os).log ↔ ReadPairsAgree scb.log ∧ Machine.Meets op ReadsAgree scb os := by
  induction os generalizing scb with
  | nil => simp [Machine.Meets]
  | cons o rest ih => rw [Machine.run_cons,ih,op_readPairsAgree,and_assoc,Machine.Meets]

/-- As no wrong read is ever reported, the checking is right of exactly those runs in
which there is none: each read beat finds its own data waiting, and each boxed read
meets the contents of the memory in some attempt. -/
theorem readChecking_iff (calls : List (Call aw dw)) (bk : BkdorRd) :
    ReadChecking calls bk ↔
      Machine.Meets op ReadsAgree .initial (calls.flatMap ops) ∧ MemoryAgrees (after calls) bk := by
  have pairs : Machine.Meets op ReadsAgree (.initial : Scoreboard aw dw) (calls.flatMap ops) ↔
      ReadPairsAgree (after calls).log := by
    rw [after,run_calls,run_readPairsAgree]
    exact (and_iff_right fun _ _ _ _ member => by cases member).symm
  have reads : ∀ item ∈ boxedReads (after calls), item.trsT = .rd := by
    intro item member
    obtain ⟨r,there,rfl⟩ := List.mem_map.mp member
    exact (after_rdBoxed calls r there).2
  rw [pairs]
  constructor
  · rintro ⟨scoreboard,backdoor⟩
    constructor
    · intro a pos it aitem member
      by_contra differ
      exact after_noReadError calls a it aitem (scoreboard a pos it aitem member differ)
    · intro j item sid popped there slave
      by_contra never
      simp only [not_exists,not_and] at never
      exact bk.run_rd _ reads j (backdoor j item sid popped there slave never)
  · rintro ⟨agree,memory⟩
    constructor
    · intro a pos it aitem member differ
      exact absurd (agree a pos it aitem member) differ
    · intro j item sid popped there slave never
      obtain ⟨k,inside,same⟩ := memory j item sid popped there slave
      exact absurd same (never k inside)

def singleRead (data : BitVec 8) : SequenceItem 8 8 where
  trsT := .rd
  addr := 4
  addrs := [4]
  dataBeat := [fun _ => data]
  offset := 1
  success := true

/-- The target returns 1, the initiator sees 2, and the memory holds nothing at the address. -/
theorem wrongRead_not_reported : ¬ ReadChecking
    [.writeTarget (singleRead 1),.writeInitor (singleRead 2)]
    ⟨2,by decide,[⟨0,0,16⟩],fun _ _ _ => []⟩ :=
  fun checking => absurd
    (checking.scoreboard 4 0 {item := {trsT := .rd, addrs := [4], dataBeat := [fun _ => 1]}, parent := 0}
      {item := {trsT := .rd, addrs := [4], dataBeat := [fun _ => 2]}, parent := 1} (by decide) (by decide))
    (by decide)

end Smtdv.Scoreboard
