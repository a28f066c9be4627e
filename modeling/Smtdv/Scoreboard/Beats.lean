import Smtdv.Common.Scoreboard

/-! The calls of the scoreboard cut into beats, and what one beat does to the pools,
to the burst counters and to the reports. -/
namespace Smtdv.Scoreboard
open Lib

variable {aw dw : Nat}

/-- A piece of a call: creating the object, one turn of the loop over `addrs`, and
the back-door box at the end. The object of the running call is the newest one. -/
inductive Op (aw dw : Nat)
  | create (item : SequenceItem aw dw)
  | initor (item : SequenceItem aw dw) (i : Nat)
  | target (item : SequenceItem aw dw) (i : Nat)
  | boxInitor (item : SequenceItem aw dw)
  | boxTarget (item : SequenceItem aw dw)
  deriving DecidableEq

def op (scb : Scoreboard aw dw) : Op aw dw → Scoreboard aw dw
  | .create item => scb.create item
  | .initor item i => scb.initorBeat item (scb.bursts.next-1) i
  | .target item i => scb.targetBeat item (scb.bursts.next-1) i
  | .boxInitor item =>
    if item.success ∧ item.trsT = .rd then {scb with rbox := scb.rbox ++ [scb.bursts.next-1]} else scb
  | .boxTarget item =>
    if item.success ∧ item.trsT = .wr then {scb with wbox := scb.wbox ++ [scb.bursts.next-1]} else scb

def ops : Call aw dw → List (Op aw dw)
  | .writeInitor item =>
    .create item::((List.range item.addrs.length).map (.initor item) ++ [.boxInitor item])
  | .writeTarget item =>
    .create item::((List.range item.addrs.length).map (.target item) ++ [.boxTarget item])

/-! ### A call is the run of its beats -/

theorem initorBeat_next (scb : Scoreboard aw dw) (item : SequenceItem aw dw) (self i : Nat) :
    (scb.initorBeat item self i).bursts.next = scb.bursts.next := by
  cases kind : item.trsT <;> simp only [initorBeat,kind,doInitorWrCheck,doInitorRdCheck,checkAtomic]
  split
  · rfl
  · split <;> rfl

theorem targetBeat_next (scb : Scoreboard aw dw) (item : SequenceItem aw dw) (self i : Nat) :
    (scb.targetBeat item self i).bursts.next = scb.bursts.next := by
  cases kind : item.trsT <;> simp only [targetBeat,kind,doTargetWrCheck,doTargetRdCheck,checkAtomic]
  split
  · rfl
  · split <;> rfl

theorem run_beats (beat : Scoreboard aw dw → Nat → Nat → Scoreboard aw dw) (piece : Nat → Op aw dw)
    (computed : ∀ scb i, op scb (piece i) = beat scb (scb.bursts.next-1) i)
    (kept : ∀ scb self i, (beat scb self i).bursts.next = scb.bursts.next)
    (indices : List Nat) (scb : Scoreboard aw dw) (self : Nat) (newest : scb.bursts.next-1 = self) :
    Machine.run op scb (indices.map piece) = indices.foldl (fun s i => beat s self i) scb ∧
      (Machine.run op scb (indices.map piece)).bursts.next-1 = self := by
  induction indices generalizing scb with
  | nil => exact ⟨rfl,newest⟩
  | cons i rest ih =>
    rw [List.map_cons,Machine.run_cons,computed,newest,List.foldl_cons]
    exact ih _ (by rw [kept,newest])

theorem call_ops (scb : Scoreboard aw dw) (c : Call aw dw) : scb.call c = Machine.run op scb (ops c) := by
  cases c with
  | writeInitor item =>
    have beats := run_beats (fun scb self i => scb.initorBeat item self i) (.initor item) (fun _ _ => rfl)
      (fun scb self i => scb.initorBeat_next item self i) (List.range item.addrs.length) (scb.create item)
      scb.bursts.next rfl
    simp only [ops,Machine.run_cons,Machine.run_concat]
    change scb.writeInitor item = _
    simp only [op,writeInitor,← beats.1,beats.2]
  | writeTarget item =>
    have beats := run_beats (fun scb self i => scb.targetBeat item self i) (.target item) (fun _ _ => rfl)
      (fun scb self i => scb.targetBeat_next item self i) (List.range item.addrs.length) (scb.create item)
      scb.bursts.next rfl
    simp only [ops,Machine.run_cons,Machine.run_concat]
    change scb.writeTarget item = _
    simp only [op,writeTarget,← beats.1,beats.2]

theorem run_calls (scb : Scoreboard aw dw) (calls : List (Call aw dw)) :
    Machine.run call scb calls = Machine.run op scb (calls.flatMap ops) := by
  induction calls generalizing scb with
  | nil => rfl
  | cons c rest ih => rw [List.flatMap_cons,Machine.run_append,Machine.run_cons,call_ops,ih]

/-! ### Queues of a pool -/

def queueAt (pool : Pool aw dw) (addr : BitVec aw) : List (Atomic aw dw) := (pool.get addr).getD []

theorem putAtomic_open (dir : TrsType) (pool : Pool aw dw) (addr : BitVec aw) (aitem : Atomic aw dw) :
    (putAtomic dir pool addr aitem).1.hasFinalize = pool.hasFinalize := by
  simp only [putAtomic,Hash.update_open]
  split <;> simp

theorem putAtomic_report (dir : TrsType) (pool : Pool aw dw) (opened : pool.hasFinalize = false)
    (addr : BitVec aw) (aitem : Atomic aw dw) :
    (putAtomic dir pool addr aitem).2 = [.put dir addr (queueAt pool addr).length aitem] := by
  cases found : pool.get addr <;> simp [putAtomic,queueAt,found,Hash.set_get _ opened]

theorem putAtomic_queue (dir : TrsType) (pool : Pool aw dw) (opened : pool.hasFinalize = false)
    (addr : BitVec aw) (aitem : Atomic aw dw) (a : BitVec aw) :
    queueAt (putAtomic dir pool addr aitem).1 a =
      if a = addr then queueAt pool a ++ [aitem] else queueAt pool a := by
  by_cases here : a = addr
  · subst here
    cases found : pool.get a <;>
      simp [putAtomic,queueAt,found,Hash.update_get,Hash.set_get _ opened]
  · cases found : pool.get addr <;>
      simp [putAtomic,queueAt,found,here,Hash.update_get,Hash.set_get _ opened]

/-- Either no entry of the address is open, and nothing but warnings come of it, or the
first open entry is compared, marked and counted at its burst. -/
theorem checkAtomic_cases (dir : TrsType) (id : String) (bursts : Heap (Burst aw dw))
    (pool : Pool aw dw) (addr : BitVec aw) (aitem : Atomic aw dw) :
    (nocheckScbGet bursts (queueAt pool addr) = none ∧
      ∃ addrs : List (BitVec aw), checkAtomic dir id bursts pool addr aitem = (bursts,pool,addrs.map .warning)) ∨
    ∃ pos it, nocheckScbGet bursts (queueAt pool addr) = some pos ∧
      (queueAt pool addr)[pos]? = some it ∧
      checkAtomic dir id bursts pool addr aitem =
        (bursts.modify it.parent fun burst => {burst with checkNumOnScb := burst.checkNumOnScb+1},
          pool.update addr (markChecked · pos),
          (if it.item.compare aitem.item then [] else [.error id addr it aitem]) ++
            [.pop dir addr pos it aitem]) := by
  cases found : pool.get addr with
  | none =>
    refine .inl ⟨by simp [queueAt,found,nocheckScbGet],pool.keys,?_⟩
    simp [checkAtomic,found]
  | some queue =>
    have same : queueAt pool addr = queue := by simp [queueAt,found]
    rw [same]
    cases selected : nocheckScbGet bursts queue with
    | none => exact .inl ⟨rfl,[],by simp [checkAtomic,found,selected]⟩
    | some pos =>
      obtain ⟨inside,_⟩ := List.findIdx?_eq_some_iff_getElem.mp selected
      refine .inr ⟨pos,queue[pos],rfl,List.getElem?_eq_getElem inside,?_⟩
      simp [checkAtomic,found,selected,List.getD_eq_getElem?_getD,inside]

theorem update_queue (pool : Pool aw dw) (addr : BitVec aw) (pos : Nat) (a : BitVec aw) :
    queueAt (pool.update addr (markChecked · pos)) a =
      if a = addr then markChecked (queueAt pool a) pos else queueAt pool a := by
  rw [queueAt,Hash.update_get]
  split
  · cases found : pool.get a <;> simp [queueAt,found,markChecked]
  · rfl

theorem markChecked_get (queue : List (Atomic aw dw)) (pos p : Nat) :
    (markChecked queue pos)[p]? =
      if p = pos then queue[p]?.map (fun it => {it with hasCheckOnScb := true}) else queue[p]? := by
  rw [markChecked,List.getElem?_modify]
  by_cases here : pos = p
  · simp [here]
  · simp [here,Ne.symm here]

/-! ### The reports -/

/-- The entries put into the queues of one direction: address and place, and the burst
that owns the beat. -/
def sent (dir : TrsType) (log : List (Event aw dw)) : List ((BitVec aw × Nat) × Nat) :=
  log.filterMap fun
    | .put d addr pos aitem => if d = dir then some ((addr,pos),aitem.parent) else none
    | _ => none

/-- The entries of one direction that have been compared, in order. -/
def compared (dir : TrsType) (log : List (Event aw dw)) : List (BitVec aw × Nat) :=
  log.filterMap fun
    | .pop d addr pos _ _ => if d = dir then some (addr,pos) else none
    | _ => none

@[simp] theorem sent_append (dir : TrsType) (first second : List (Event aw dw)) :
    sent dir (first++second) = sent dir first ++ sent dir second :=
  List.filterMap_append

@[simp] theorem compared_append (dir : TrsType) (first second : List (Event aw dw)) :
    compared dir (first++second) = compared dir first ++ compared dir second :=
  List.filterMap_append

@[simp] theorem sent_put (dir d : TrsType) (addr : BitVec aw) (pos : Nat) (aitem : Atomic aw dw) :
    sent dir [.put d addr pos aitem] = if d = dir then [((addr,pos),aitem.parent)] else [] := by
  by_cases same : d = dir <;> simp [sent,same]

@[simp] theorem compared_put (dir d : TrsType) (addr : BitVec aw) (pos : Nat) (aitem : Atomic aw dw) :
    compared dir [.put d addr pos aitem] = [] := rfl

@[simp] theorem sent_warnings (dir : TrsType) (addrs : List (BitVec aw)) :
    sent dir (addrs.map (.warning : BitVec aw → Event aw dw)) = [] := by
  simp [sent,List.filterMap_map]

@[simp] theorem compared_warnings (dir : TrsType) (addrs : List (BitVec aw)) :
    compared dir (addrs.map (.warning : BitVec aw → Event aw dw)) = [] := by
  simp [compared,List.filterMap_map]

/-- The reports of a comparison. -/
def popReports (dir : TrsType) (id : String) (addr : BitVec aw) (pos : Nat) (it aitem : Atomic aw dw) :
    List (Event aw dw) :=
  (if it.item.compare aitem.item then [] else [.error id addr it aitem]) ++ [.pop dir addr pos it aitem]

@[simp] theorem sent_popReports (dir d : TrsType) (id : String) (addr : BitVec aw) (pos : Nat)
    (it aitem : Atomic aw dw) : sent dir (popReports d id addr pos it aitem) = [] := by
  unfold popReports
  split <;> rfl

@[simp] theorem compared_popReports (dir d : TrsType) (id : String) (addr : BitVec aw) (pos : Nat)
    (it aitem : Atomic aw dw) :
    compared dir (popReports d id addr pos it aitem) = if d = dir then [(addr,pos)] else [] := by
  unfold popReports
  by_cases same : d = dir <;> split <;> simp [compared,same]

/-! ### What one piece of a call can do -/

/-- The atomic item of beat `i` of the running call, and its address. -/
def beatItem (scb : Scoreboard aw dw) (item : SequenceItem aw dw) (i : Nat) : Atomic aw dw :=
  createAtomicItem item i (scb.bursts.next-1)

def beatAddr (item : SequenceItem aw dw) (i : Nat) : BitVec aw := item.addrs.getD i 0

def counted (bursts : Heap (Burst aw dw)) (r : Nat) : Heap (Burst aw dw) :=
  bursts.modify r fun burst => {burst with checkNumOnScb := burst.checkNumOnScb+1}

inductive Effect (scb : Scoreboard aw dw) : Op aw dw → Scoreboard aw dw → Prop
  | create (item : SequenceItem aw dw) : Effect scb (.create item) (scb.create item)
  | putWr (item : SequenceItem aw dw) (i : Nat) (kind : item.trsT = .wr) :
      Effect scb (.initor item i) {scb with
        wrPool := (putAtomic .wr scb.wrPool (beatAddr item i) (scb.beatItem item i)).1
        log := scb.log ++ (putAtomic .wr scb.wrPool (beatAddr item i) (scb.beatItem item i)).2}
  | putRd (item : SequenceItem aw dw) (i : Nat) (kind : item.trsT = .rd) :
      Effect scb (.target item i) {scb with
        rdPool := (putAtomic .rd scb.rdPool (beatAddr item i) (scb.beatItem item i)).1
        log := scb.log ++ (putAtomic .rd scb.rdPool (beatAddr item i) (scb.beatItem item i)).2}
  | missWr (item : SequenceItem aw dw) (i : Nat) (kind : item.trsT = .wr) (addrs : List (BitVec aw))
      (absent : nocheckScbGet scb.bursts (queueAt scb.wrPool (beatAddr item i)) = none) :
      Effect scb (.target item i) {scb with log := scb.log ++ addrs.map .warning}
  | missRd (item : SequenceItem aw dw) (i : Nat) (kind : item.trsT = .rd) (addrs : List (BitVec aw))
      (absent : nocheckScbGet scb.bursts (queueAt scb.rdPool (beatAddr item i)) = none) :
      Effect scb (.initor item i) {scb with log := scb.log ++ addrs.map .warning}
  | popWr (item : SequenceItem aw dw) (i : Nat) (kind : item.trsT = .wr) (pos : Nat) (it : Atomic aw dw)
      (selected : nocheckScbGet scb.bursts (queueAt scb.wrPool (beatAddr item i)) = some pos)
      (found : (queueAt scb.wrPool (beatAddr item i))[pos]? = some it) :
      Effect scb (.target item i) {scb with
        bursts := counted scb.bursts it.parent
        wrPool := scb.wrPool.update (beatAddr item i) (markChecked · pos)
        log := scb.log ++
          popReports .wr "SMTDV_SCB_WR_COMP" (beatAddr item i) pos it (scb.beatItem item i)}
  | popRd (item : SequenceItem aw dw) (i : Nat) (kind : item.trsT = .rd) (pos : Nat) (it : Atomic aw dw)
      (selected : nocheckScbGet scb.bursts (queueAt scb.rdPool (beatAddr item i)) = some pos)
      (found : (queueAt scb.rdPool (beatAddr item i))[pos]? = some it) :
      Effect scb (.initor item i) {scb with
        bursts := counted scb.bursts it.parent
        rdPool := scb.rdPool.update (beatAddr item i) (markChecked · pos)
        log := scb.log ++
          popReports .rd "SMTDV_SCB_RD_COMP" (beatAddr item i) pos it (scb.beatItem item i)}
  | boxRd (item : SequenceItem aw dw) (success : item.success = true ∧ item.trsT = .rd) :
      Effect scb (.boxInitor item) {scb with rbox := scb.rbox ++ [scb.bursts.next-1]}
  | boxWr (item : SequenceItem aw dw) (success : item.success = true ∧ item.trsT = .wr) :
      Effect scb (.boxTarget item) {scb with wbox := scb.wbox ++ [scb.bursts.next-1]}
  | idle (o : Op aw dw) (noInitor : ∀ item i, o = .initor item i → item.trsT = .rdwr)
      (noTarget : ∀ item i, o = .target item i → item.trsT = .rdwr) : Effect scb o scb

theorem op_effect (scb : Scoreboard aw dw) (o : Op aw dw) : Effect scb o (op scb o) := by
  cases o with
  | create item => exact .create item
  | initor item i =>
    cases kind : item.trsT with
    | wr =>
      simp only [op,initorBeat,kind,doInitorWrCheck]
      exact .putWr item i kind
    | rd =>
      simp only [op,initorBeat,kind,doInitorRdCheck]
      rcases checkAtomic_cases .rd "SMTDV_SCB_RD_COMP" scb.bursts scb.rdPool (beatAddr item i)
        (scb.beatItem item i) with ⟨absent,addrs,computed⟩ | ⟨pos,it,selected,found,computed⟩
      · simp only [beatAddr,beatItem] at computed
        rw [computed]
        exact .missRd item i kind addrs absent
      · simp only [beatAddr,beatItem] at computed
        rw [computed]
        exact .popRd item i kind pos it selected found
    | rdwr =>
      simp only [op,initorBeat,kind]
      exact .idle _ (fun _ _ same => by cases same; exact kind) (fun _ _ same => by cases same)
  | target item i =>
    cases kind : item.trsT with
    | rd =>
      simp only [op,targetBeat,kind,doTargetRdCheck]
      exact .putRd item i kind
    | wr =>
      simp only [op,targetBeat,kind,doTargetWrCheck]
      rcases checkAtomic_cases .wr "SMTDV_SCB_WR_COMP" scb.bursts scb.wrPool (beatAddr item i)
        (scb.beatItem item i) with ⟨absent,addrs,computed⟩ | ⟨pos,it,selected,found,computed⟩
      · simp only [beatAddr,beatItem] at computed
        rw [computed]
        exact .missWr item i kind addrs absent
      · simp only [beatAddr,beatItem] at computed
        rw [computed]
        exact .popWr item i kind pos it selected found
    | rdwr =>
      simp only [op,targetBeat,kind]
      exact .idle _ (fun _ _ same => by cases same) (fun _ _ same => by cases same; exact kind)
  | boxInitor item =>
    simp only [op]
    split
    · exact .boxRd item ‹_›
    · exact .idle _ (fun _ _ same => by cases same) (fun _ _ same => by cases same)
  | boxTarget item =>
    simp only [op]
    split
    · exact .boxWr item ‹_›
    · exact .idle _ (fun _ _ same => by cases same) (fun _ _ same => by cases same)

end Smtdv.Scoreboard
