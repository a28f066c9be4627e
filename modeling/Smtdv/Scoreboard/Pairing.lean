import Smtdv.Lib.Ledger
import Smtdv.Scoreboard.Sound

/-! Which initiator beat a target write beat is compared with. The pairing is first come
first served exactly as long as no queue holds a compared entry of a burst that still
waits for comparisons when a target beat arrives there. -/
namespace Smtdv.Scoreboard
open Lib

variable {aw dw : Nat}

/-- The place of the oldest write beat of an address that has not been compared. -/
def oldestOpen (log : List (Event aw dw)) (addr : BitVec aw) : Option Nat :=
  (List.range (puts .wr addr log).length).find? fun pos => (addr,pos) ∉ compared .wr log

/-- A target write beat is compared with the oldest initiator beat of its address that
has not been compared, or with none where there is none; nothing else is compared. -/
def PairsOldest (scb : Scoreboard aw dw) (o : Op aw dw) : Prop :=
  match o with
  | .target item i =>
    if item.trsT = .wr then
      match oldestOpen scb.log (beatAddr item i) with
      | none => compared .wr (op scb o).log = compared .wr scb.log
      | some pos => ∃ it, (puts .wr (beatAddr item i) scb.log)[pos]? = some (fresh it) ∧
          (op scb o).log = scb.log ++
            popReports .wr "SMTDV_SCB_WR_COMP" (beatAddr item i) pos it (scb.beatItem item i)
    else compared .wr (op scb o).log = compared .wr scb.log
  | _ => compared .wr (op scb o).log = compared .wr scb.log

/-- The entries one burst has put, in the order of its beats. -/
def beatsOf (log : List (Event aw dw)) (r : Nat) : List (BitVec aw × Nat) :=
  ((sent .wr log).filter fun entry => entry.2 = r).map Prod.fst

/-- Write pairing of a sequence of calls. The object of call `r` is the burst `r`. -/
structure WritePairing (calls : List (Call aw dw)) : Prop where
  oldest : Machine.Meets op PairsOldest .initial (calls.flatMap ops)
  once : (compared .wr (after calls).log).Nodup
  beats : ∀ (r : Nat) (item : SequenceItem aw dw), calls[r]? = some (.writeInitor item) → item.trsT = .wr →
    (beatsOf (after calls).log r).map Prod.fst = item.addrs
  complete : ∀ before rest : List (Call aw dw), calls = before++rest → ∀ (r : Nat) (item : SequenceItem aw dw),
    before[r]? = some (.writeInitor item) → item.trsT = .wr →
    (((after before).bursts.get r).hasCheckOnScbAll = true ↔
      ∀ key ∈ beatsOf (after before).log r, key ∈ compared .wr (after before).log)
  stays : ∀ before more rest : List (Call aw dw), calls = before++more++rest →
    ∀ (r : Nat) (item : SequenceItem aw dw), before[r]? = some (.writeInitor item) → item.trsT = .wr →
    ((after before).bursts.get r).hasCheckOnScbAll = true →
    ((after (before++more)).bursts.get r).hasCheckOnScbAll = true

/-- When a target write beat arrives, every entry of its address that has been compared
belongs to a burst of which all beats have been compared. -/
def Resolved (scb : Scoreboard aw dw) : Op aw dw → Prop
  | .target item i => item.trsT = .wr → ∀ b ∈ queueAt scb.wrPool (beatAddr item i),
      b.hasCheckOnScb = true → (scb.bursts.get b.parent).hasCheckOnScbAll = true
  | _ => True

/-! ### One target beat -/

theorem oldestOpen_eq (pool : Pool aw dw) (log : List (Event aw dw)) (record : Record .wr pool log)
    (addr : BitVec aw) :
    oldestOpen log addr = (queueAt pool addr).findIdx? fun b => !b.hasCheckOnScb := by
  have size : (puts .wr addr log).length = (queueAt pool addr).length := by
    rw [← record.queue,List.length_map]
  have checked (p : Nat) (inside : p < (queueAt pool addr).length) :
      (addr,p) ∈ compared .wr log ↔ (queueAt pool addr)[p].hasCheckOnScb = true := by
    rw [record.checkedAt,List.getElem?_eq_getElem inside]
    simp
  apply Option.ext
  intro pos
  rw [oldestOpen,size,List.find?_range_eq_some,List.findIdx?_eq_some_iff_getElem]
  constructor
  · rintro ⟨here,inside,earlier⟩
    have inside := List.mem_range.mp inside
    refine ⟨inside,?_,fun j before => ?_⟩
    · simpa [checked pos inside] using here
    · simpa [checked j (before.trans inside)] using earlier j before
  · rintro ⟨inside,here,earlier⟩
    refine ⟨?_,List.mem_range.mpr inside,fun j before => ?_⟩
    · simpa [checked pos inside] using here
    · simpa [checked j (before.trans inside)] using earlier j before

/-- `nocheck_scb_get` finds the first entry not compared exactly when no compared entry
of an unfinished burst stands in the queue. -/
theorem nocheckScbGet_first (bursts : Heap (Burst aw dw)) (queue : List (Atomic aw dw))
    (ordered : Ordered queue) :
    nocheckScbGet bursts queue = queue.findIdx? (fun b => !b.hasCheckOnScb) ↔
      ∀ b ∈ queue, b.hasCheckOnScb = true → (bursts.get b.parent).hasCheckOnScbAll = true := by
  induction queue with
  | nil => simp [nocheckScbGet]
  | cons b rest ih =>
    obtain ⟨head,tail⟩ := List.pairwise_cons.mp ordered
    have ih := ih tail
    rw [nocheckScbGet] at ih ⊢
    rw [List.findIdx?_cons,List.findIdx?_cons,List.forall_mem_cons]
    cases seen : b.hasCheckOnScb with
    | false =>
      simp only [Bool.not_false,Bool.true_or,if_true,Bool.false_eq_true,false_implies,true_and,true_iff]
      intro c member cSeen
      rw [head c member cSeen] at seen
      cases seen
    | true =>
      cases all : (bursts.get b.parent).hasCheckOnScbAll with
      | false =>
        simp only [Bool.not_true,Bool.not_false,Bool.or_true,if_true,Bool.false_eq_true,if_false,
          true_implies,false_and,iff_false]
        intro same
        obtain ⟨_,_,absurd⟩ := Option.map_eq_some_iff.mp same.symm
        cases absurd
      | true =>
        simp only [Bool.not_true,Bool.or_false,Bool.false_eq_true,if_false,true_implies,true_and]
        rw [← ih]
        constructor
        · intro same
          exact Option.map_injective (Nat.succ_injective) same
        · intro same
          rw [same]

theorem pairs_iff (scb : Scoreboard aw dw) (o : Op aw dw) (sound : Sound scb) (serving : Serving scb o) :
    PairsOldest scb o ↔ Resolved scb o := by
  have effect := op_effect scb o
  cases o with
  | target item i =>
    by_cases kind : item.trsT = .wr
    · simp only [PairsOldest,Resolved,kind,if_true,true_implies]
      rw [← nocheckScbGet_first scb.bursts _ (sound.wr.ordered _),
        ← oldestOpen_eq scb.wrPool scb.log sound.wr]
      generalize op scb (.target item i) = scb' at effect ⊢
      cases effect with
      | putRd _ _ other => rw [kind] at other; cases other
      | idle _ _ other =>
        have other := other item i rfl
        rw [kind] at other
        cases other
      | missWr _ _ _ addrs absent =>
        rw [absent]
        cases oldestOpen scb.log (beatAddr item i) with
        | none => simp
        | some pos =>
          simp only [reduceCtorEq,iff_false]
          rintro ⟨it,_,same⟩
          have same := congrArg (compared .wr) same
          simp at same
      | popWr _ _ _ pos it selected found =>
        rw [selected]
        cases oldestOpen scb.log (beatAddr item i) with
        | none => simp
        | some first =>
          simp only [Option.some.injEq]
          constructor
          · rintro ⟨_,_,same⟩
            have same := congrArg (compared .wr) same
            simpa using same
          · rintro rfl
            refine ⟨it,?_,rfl⟩
            rw [← sound.wr.queue,List.getElem?_map,found]
            rfl
    · simp only [PairsOldest,Resolved,kind,if_false,false_implies,iff_true]
      generalize op scb (.target item i) = scb' at effect ⊢
      cases effect with
      | missWr _ _ other | popWr _ _ other => exact absurd other kind
      | putRd => simp [putAtomic]
      | idle => rfl
  | initor item i =>
    simp only [PairsOldest,Resolved,iff_true]
    generalize op scb (.initor item i) = scb' at effect ⊢
    cases effect with
    | putWr => simp [putAtomic]
    | missRd | popRd => simp
    | idle => rfl
  | create item => simp [PairsOldest,Resolved,op,create]
  | boxInitor item =>
    simp only [PairsOldest,Resolved,op,iff_true]
    split <;> rfl
  | boxTarget item =>
    simp only [PairsOldest,Resolved,op,iff_true]
    split <;> rfl

/-! ### Counting the comparisons of a burst -/

structure Counted (scb : Scoreboard aw dw) : Prop where
  once : (compared .wr scb.log).Nodup
  count : ∀ r < scb.bursts.next, (scb.bursts.get r).item.trsT = .wr →
    (scb.bursts.get r).checkNumOnScb = Ledger.marked (sent .wr scb.log) (compared .wr scb.log) r

theorem sent_old (scb : Scoreboard aw dw) (sound : Sound scb) (entry : (BitVec aw × Nat) × Nat)
    (member : entry ∈ sent .wr scb.log) : entry.2 < scb.bursts.next := by
  obtain ⟨⟨a,p⟩,r⟩ := entry
  obtain ⟨it,found,rfl⟩ := (sound.wr.sentAt a p r).mp member
  exact (sound.wrOwned a p it found).1

theorem marked_new (scb : Scoreboard aw dw) (sound : Sound scb) :
    Ledger.marked (sent .wr scb.log) (compared .wr scb.log) scb.bursts.next = 0 := by
  apply List.countP_eq_zero.mpr
  intro entry member mine
  have old := sent_old scb sound entry member
  simp only [decide_eq_true_eq] at mine
  exact absurd mine.1 (Nat.ne_of_lt old)

theorem selected_new (scb : Scoreboard aw dw) (sound : Sound scb) (item : SequenceItem aw dw) (i : Nat)
    (kind : item.trsT = .wr) (resolved : Resolved scb (.target item i)) (pos : Nat)
    (selected : nocheckScbGet scb.bursts (queueAt scb.wrPool (beatAddr item i)) = some pos) :
    (beatAddr item i,pos) ∉ compared .wr scb.log := by
  rw [(nocheckScbGet_first _ _ (sound.wr.ordered _)).mpr (resolved kind)] at selected
  obtain ⟨inside,new,_⟩ := List.findIdx?_eq_some_iff_getElem.mp selected
  rw [sound.wr.checkedAt,List.getElem?_eq_getElem inside]
  simpa using new

theorem op_counted (scb : Scoreboard aw dw) (o : Op aw dw) (sound : Sound scb) (counts : Counted scb)
    (resolved : Resolved scb o) : Counted (op scb o) := by
  have effect := op_effect scb o
  generalize op scb o = scb' at effect ⊢
  cases effect with
  | create item =>
    refine ⟨counts.once,fun r old kind => ?_⟩
    rcases Nat.lt_succ_iff_lt_or_eq.mp old with old | rfl
    · simp only [create,Heap.alloc_get_ne _ _ (Nat.ne_of_lt old)] at kind ⊢
      exact counts.count r old kind
    · simp only [create,Heap.alloc_get_next]
      exact (marked_new scb sound).symm
  | putWr item i kind =>
    rw [putAtomic_report .wr scb.wrPool sound.wr.opened]
    refine ⟨by simpa using counts.once,fun r old wr => ?_⟩
    simp only [sent_append,sent_put,compared_append,compared_put,List.append_nil,if_true]
    rw [Ledger.marked_enter]
    · exact counts.count r old wr
    · rw [sound.wr.checkedAt]
      simp
  | putRd item i kind =>
    rw [putAtomic_report .rd scb.rdPool sound.rd.opened]
    exact ⟨by simpa using counts.once,by simpa using counts.count⟩
  | missWr | missRd => exact ⟨by simpa using counts.once,by simpa using counts.count⟩
  | popWr item i kind pos it selected found =>
    have new := selected_new scb sound item i kind resolved pos selected
    refine ⟨?_,fun r old wr => ?_⟩
    · simp only [compared_append,compared_popReports,if_true]
      exact List.nodup_append.mpr ⟨counts.once,List.nodup_singleton _,fun a member b last same =>
        new (List.mem_singleton.mp last ▸ same ▸ member)⟩
    · simp only [counted_item] at wr
      simp only [sent_append,sent_popReports,compared_append,compared_popReports,List.append_nil,if_true]
      have member := (sound.wr.sentAt _ pos it.parent).mpr ⟨it,found,rfl⟩
      rw [counted_num,counts.count r old wr,Ledger.marked_mark _ _ _ _ sound.wr.distinct member new]
      simp only [eq_comm]
  | popRd item i kind pos it selected found =>
    refine ⟨by simpa using counts.once,fun r old wr => ?_⟩
    simp only [counted_item] at wr
    have other : r ≠ it.parent := by
      rintro rfl
      have rd := (sound.rdOwned _ pos it found).2
      rw [wr] at rd
      cases rd
    simpa [counted_num,other] using counts.count r old wr
  | boxRd | boxWr | idle => exact ⟨counts.once,counts.count⟩

theorem after_counted (calls : List (Call aw dw))
    (resolved : Machine.Meets op Resolved .initial (calls.flatMap ops)) : Counted (after calls) := by
  have initial_counted : Counted (initial : Scoreboard aw dw) := ⟨.nil,fun r old => by cases old⟩
  have keep (scb : Scoreboard aw dw) (o : Op aw dw) (held : Sound scb ∧ Counted scb)
      (step : Serving scb o ∧ Resolved scb o) : Sound (op scb o) ∧ Counted (op scb o) :=
    ⟨op_sound scb o held.1 step.1,op_counted scb o held.1 held.2 step.2⟩
  rw [after,run_calls]
  exact (Machine.run_invariant keep ⟨initial_sound,initial_counted⟩
    ((meets_serving _ calls).and resolved)).2

/-! ### The beats of a call -/

/-- Addresses and owners of the write beats put. -/
def owners (log : List (Event aw dw)) : List (BitVec aw × Nat) :=
  (sent .wr log).map fun entry => (entry.1.1,entry.2)

def opOwners (scb : Scoreboard aw dw) : Op aw dw → List (BitVec aw × Nat)
  | .initor item i => if item.trsT = .wr then [(beatAddr item i,scb.bursts.next-1)] else []
  | _ => []

theorem op_owners (scb : Scoreboard aw dw) (o : Op aw dw) :
    owners (op scb o).log = owners scb.log ++ opOwners scb o := by
  have effect := op_effect scb o
  generalize op scb o = scb' at effect ⊢
  cases effect with
  | create item => simp [create,opOwners]
  | putWr item i kind => simp [owners,putAtomic,opOwners,kind,beatItem,createAtomicItem]
  | putRd item i kind => simp [owners,putAtomic,opOwners]
  | missWr item i kind => simp [owners,opOwners]
  | missRd item i kind => simp [owners,opOwners,kind]
  | popWr item i kind => simp [owners,opOwners]
  | popRd item i kind => simp [owners,opOwners,kind]
  | boxRd | boxWr => simp [opOwners]
  | idle _ noInitor =>
    cases o with
    | initor item i => simp [opOwners,noInitor item i rfl]
    | _ => simp [opOwners]

theorem run_initor_owners (item : SequenceItem aw dw) (indices : List Nat) (scb : Scoreboard aw dw) :
    owners (Machine.run op scb (indices.map (.initor item))).log = owners scb.log ++
      if item.trsT = .wr then indices.map fun i => (beatAddr item i,scb.bursts.next-1) else [] := by
  induction indices generalizing scb with
  | nil => simp
  | cons i rest ih =>
    rw [List.map_cons,Machine.run_cons,ih,op_owners,op_next scb _ (by simp)]
    by_cases kind : item.trsT = .wr <;> simp [opOwners,kind]

theorem run_target_owners (item : SequenceItem aw dw) (indices : List Nat) (scb : Scoreboard aw dw) :
    owners (Machine.run op scb (indices.map (.target item))).log = owners scb.log := by
  induction indices generalizing scb with
  | nil => rfl
  | cons i rest ih =>
    rw [List.map_cons,Machine.run_cons,ih,op_owners]
    simp [opOwners]

def callOwners (r : Nat) : Call aw dw → List (BitVec aw × Nat)
  | .writeInitor item => if item.trsT = .wr then item.addrs.map fun a => (a,r) else []
  | .writeTarget _ => []

theorem beatAddr_range (item : SequenceItem aw dw) :
    (List.range item.addrs.length).map (beatAddr item) = item.addrs := by
  apply List.ext_getElem
  · simp
  · intro i left right
    simp [beatAddr,List.getD_eq_getElem?_getD,right]

theorem call_owners (scb : Scoreboard aw dw) (c : Call aw dw) :
    owners (scb.call c).log = owners scb.log ++ callOwners scb.bursts.next c := by
  rw [call_ops]
  cases c with
  | writeInitor item =>
    rw [ops,Machine.run_cons,Machine.run_concat,op_owners,run_initor_owners,op_owners]
    have newest : (op scb (.create item)).bursts.next-1 = scb.bursts.next := rfl
    rw [newest]
    by_cases kind : item.trsT = .wr
    · simp only [opOwners,callOwners,kind,if_true,List.append_nil]
      congr 1
      conv_rhs => rw [← beatAddr_range item]
      rw [List.map_map]
      rfl
    · simp [opOwners,callOwners,kind]
  | writeTarget item =>
    rw [ops,Machine.run_cons,Machine.run_concat,op_owners,run_target_owners,op_owners]
    simp [opOwners,callOwners]

theorem call_next (scb : Scoreboard aw dw) (c : Call aw dw) :
    (scb.call c).bursts.next = scb.bursts.next+1 := by
  rw [call_ops]
  cases c with
  | writeInitor item | writeTarget item =>
    rw [ops,Machine.run_cons,run_next _ _ (by simp)]
    rfl

theorem after_concat (calls : List (Call aw dw)) (c : Call aw dw) :
    after (calls++[c]) = (after calls).call c :=
  Machine.run_concat _ _ _ _

theorem after_next (calls : List (Call aw dw)) : (after calls).bursts.next = calls.length := by
  induction calls using List.reverseRecOn with
  | nil => rfl
  | append_singleton calls c ih => rw [after_concat,call_next,ih,List.length_append,List.length_singleton]

theorem after_append (before more : List (Call aw dw)) :
    after (before++more) = Machine.run op (after before) (more.flatMap ops) := by
  rw [after,Machine.run_append,← after,run_calls]

theorem call_concat {calls : List (Call aw dw)} {last c : Call aw dw} {r : Nat}
    (member : (calls ++ [last])[r]? = some c) :
    r < calls.length ∧ calls[r]? = some c ∨ r = calls.length ∧ last = c := by
  rcases Nat.lt_or_ge r calls.length with old | new
  · rw [List.getElem?_append_left old] at member
    exact .inl ⟨old,member⟩
  · have inside := (List.getElem?_eq_some_iff.mp member).1
    rw [List.length_append,List.length_singleton] at inside
    obtain rfl : r = calls.length := by omega
    rw [List.getElem?_concat_length] at member
    exact .inr ⟨rfl,Option.some.inj member⟩

theorem after_item (calls : List (Call aw dw)) (r : Nat) (c : Call aw dw) (member : calls[r]? = some c) :
    ((after calls).bursts.get r).item = c.item := by
  induction calls using List.reverseRecOn with
  | nil => simp at member
  | append_singleton calls last ih =>
    rw [after_concat,call_ops]
    rcases call_concat member with ⟨old,member⟩ | ⟨rfl,rfl⟩
    · rw [((run_bursts (after calls) (ops last)).2 r (by rwa [after_next])).1]
      exact ih member
    · have created (item : SequenceItem aw dw) :
          (((after calls).create item).bursts.get calls.length).item = item := by
        simp [create,← after_next calls]
      have old (item : SequenceItem aw dw) : calls.length < ((after calls).create item).bursts.next := by
        rw [← after_next calls]
        exact Nat.lt_succ_self _
      cases last with
      | writeInitor item | writeTarget item => exact ((run_bursts _ _).2 _ (old item)).1.trans (created item)

theorem beatsOf_owners (log : List (Event aw dw)) (r : Nat) :
    (beatsOf log r).map Prod.fst = ((owners log).filter fun entry => entry.2 = r).map Prod.fst := by
  simp only [beatsOf,owners,List.filter_map,List.map_map]
  rfl

theorem owned_beatsOf (log : List (Event aw dw)) (r : Nat) :
    Ledger.owned (sent .wr log) r = (beatsOf log r).length := by
  rw [Ledger.owned,beatsOf,List.length_map,List.countP_eq_length_filter]

/-- The entries of a write call are its addresses, one for each beat and in order. -/
theorem after_beats (calls : List (Call aw dw)) (r : Nat) (item : SequenceItem aw dw)
    (member : calls[r]? = some (.writeInitor item)) (kind : item.trsT = .wr) :
    (beatsOf (after calls).log r).map Prod.fst = item.addrs := by
  rw [beatsOf_owners]
  induction calls using List.reverseRecOn with
  | nil => simp at member
  | append_singleton calls last ih =>
    rw [after_concat,call_owners,after_next,List.filter_append,List.map_append]
    rcases call_concat member with ⟨old,member⟩ | ⟨rfl,rfl⟩
    · have others : (callOwners calls.length last).filter (fun entry => entry.2 = r) = [] := by
        apply List.filter_eq_nil_iff.mpr
        intro entry inside mine
        simp only [decide_eq_true_eq] at mine
        cases last with
        | writeTarget item => cases inside
        | writeInitor item =>
          simp only [callOwners] at inside
          split at inside
          · obtain ⟨a,_,rfl⟩ := List.mem_map.mp inside
            exact absurd mine (Nat.ne_of_gt old)
          · cases inside
      rw [others,ih member,List.map_nil,List.append_nil]
    · have none_before : (owners (after calls).log).filter (fun entry => entry.2 = calls.length) = [] := by
        apply List.filter_eq_nil_iff.mpr
        intro entry inside mine
        simp only [decide_eq_true_eq] at mine
        obtain ⟨e,there,rfl⟩ := List.mem_map.mp inside
        have old := sent_old (after calls) (after_sound calls) e there
        rw [after_next] at old
        exact absurd mine (Nat.ne_of_lt old)
      rw [none_before]
      simp [callOwners,kind,List.filter_map,Function.comp_def]

/-! ### The result -/

theorem after_count (calls : List (Call aw dw)) (counts : Counted (after calls)) (r : Nat)
    (item : SequenceItem aw dw) (member : calls[r]? = some (.writeInitor item)) (kind : item.trsT = .wr) :
    ((after calls).bursts.get r).checkNumOnScb =
        Ledger.marked (sent .wr (after calls).log) (compared .wr (after calls).log) r ∧
      Ledger.owned (sent .wr (after calls).log) r = item.addrs.length := by
  have known := after_item calls r _ member
  refine ⟨counts.count r ?_ (known ▸ kind),?_⟩
  · rw [after_next]
    exact (List.getElem?_eq_some_iff.mp member).1
  · rw [owned_beatsOf,← after_beats calls r item member kind,List.length_map]

theorem all_iff (calls : List (Call aw dw)) (r : Nat) (item : SequenceItem aw dw)
    (member : calls[r]? = some (.writeInitor item)) :
    ((after calls).bursts.get r).hasCheckOnScbAll = true ↔
      ((after calls).bursts.get r).checkNumOnScb = item.addrs.length := by
  rw [Burst.hasCheckOnScbAll,after_item calls r _ member,beq_iff_eq]
  rfl

theorem after_complete (calls : List (Call aw dw)) (counts : Counted (after calls)) (r : Nat)
    (item : SequenceItem aw dw) (member : calls[r]? = some (.writeInitor item)) (kind : item.trsT = .wr) :
    ((after calls).bursts.get r).hasCheckOnScbAll = true ↔
      ∀ key ∈ beatsOf (after calls).log r, key ∈ compared .wr (after calls).log := by
  obtain ⟨count,all⟩ := after_count calls counts r item member kind
  rw [all_iff calls r item member,count,← all,Ledger.marked_eq_owned_iff]
  simp only [beatsOf,List.mem_map,List.mem_filter,decide_eq_true_eq]
  constructor
  · rintro marks key ⟨entry,⟨there,mine⟩,rfl⟩
    exact marks entry there mine
  · intro marks entry there mine
    exact marks entry.1 ⟨entry,⟨there,mine⟩,rfl⟩

theorem after_stays (before more : List (Call aw dw)) (counts : Counted (after (before++more))) (r : Nat)
    (item : SequenceItem aw dw) (member : before[r]? = some (.writeInitor item)) (kind : item.trsT = .wr)
    (all : ((after before).bursts.get r).hasCheckOnScbAll = true) :
    ((after (before++more)).bursts.get r).hasCheckOnScbAll = true := by
  have inside := (List.getElem?_eq_some_iff.mp member).1
  have member' : (before++more)[r]? = some (.writeInitor item) := by
    rwa [List.getElem?_append_left inside]
  rw [all_iff _ r item member] at all
  rw [all_iff _ r item member']
  obtain ⟨count,owned⟩ := after_count _ counts r item member' kind
  have grown := ((run_bursts (after before) (more.flatMap ops)).2 r (by rwa [after_next])).2
  rw [← after_append,all] at grown
  have bound := Ledger.marked_le_owned (sent .wr (after (before++more)).log)
    (compared .wr (after (before++more)).log) r
  rw [← count,owned] at bound
  exact le_antisymm bound grown

/-- Write pairing holds of a sequence of calls if and only if every target write beat
finds the compared entries of its address resolved. -/
theorem writePairing_iff (calls : List (Call aw dw)) :
    WritePairing calls ↔ Machine.Meets op Resolved .initial (calls.flatMap ops) := by
  have serving := meets_serving (initial : Scoreboard aw dw) calls
  have agree : Machine.Meets op (fun scb o => Serving scb o ∧ PairsOldest scb o) .initial (calls.flatMap ops) ↔
      Machine.Meets op (fun scb o => Serving scb o ∧ Resolved scb o) .initial (calls.flatMap ops) :=
    Machine.meets_iff (fun scb o sound step => op_sound scb o sound step.1)
      (fun scb o sound => and_congr_right (pairs_iff scb o sound)) initial_sound _
  constructor
  · intro pairing
    exact (agree.mp (serving.and pairing.oldest)).mono fun _ _ both => both.2
  · intro resolved
    have counts (before rest : List (Call aw dw)) (split : calls = before++rest) : Counted (after before) := by
      apply after_counted
      rw [split,List.flatMap_append,Machine.meets_append] at resolved
      exact resolved.1
    refine ⟨(agree.mpr (serving.and resolved)).mono fun _ _ both => both.2,?_,after_beats calls,?_,?_⟩
    · exact (counts calls [] (List.append_nil calls).symm).once
    · intro before rest split r item member kind
      exact after_complete before (counts before rest split) r item member kind
    · intro before more rest split r item member kind all
      exact after_stays before more (counts (before++more) rest split) r item member kind all

/-- A write burst of two beats to one address, the second with other data. -/
def repeatedAddress : SequenceItem 8 8 where
  trsT := .wr
  addrs := [4,4]
  dataBeat := [fun _ => 1,fun _ => 2]

/-- The second target beat of such a burst is compared with the first initiator beat again. -/
theorem repeatedAddress_not_paired :
    ¬ WritePairing [.writeInitor repeatedAddress,.writeTarget repeatedAddress] :=
  fun pairing => absurd pairing.once (by decide)

end Smtdv.Scoreboard
