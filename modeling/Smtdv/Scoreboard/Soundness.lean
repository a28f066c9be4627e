import Smtdv.Scoreboard.Sound

/-! What a run without an error report says about the writes: for each address, the beats
that waited for a target and got one are the first beats of the initiators, with the
data and the byte enables of the target beats they were compared with. -/
namespace Smtdv.Scoreboard
open Lib

variable {aw dw : Nat}

/-- Data and byte enables of beat `i`. -/
def payload (item : SequenceItem aw dw) (i : Nat) : List (Beat dw) × List (Byten dw) :=
  ([item.dataBeat.getD i default],
    if item.bytenBeat.length > 0 then [item.bytenBeat.getD i default] else [])

/-- The beats written to an address by the initiators. -/
def initorStream (addr : BitVec aw) (beats : List (Op aw dw)) : List (List (Beat dw) × List (Byten dw)) :=
  beats.filterMap fun
    | .initor item i => if item.trsT = .wr ∧ beatAddr item i = addr then some (payload item i) else none
    | _ => none

/-- The beats written to an address at the targets. -/
def targetStream (addr : BitVec aw) (beats : List (Op aw dw)) : List (List (Beat dw) × List (Byten dw)) :=
  beats.filterMap fun
    | .target item i => if item.trsT = .wr ∧ beatAddr item i = addr then some (payload item i) else none
    | _ => none

def content (it : Atomic aw dw) : List (Beat dw) × List (Byten dw) := (it.item.dataBeat,it.item.bytenBeat)

/-- The comparisons at an address in which the initiator beat was waiting, that is, had
not been compared before: that beat and the target beat. -/
def pairs (addr : BitVec aw) (log : List (Event aw dw)) : List (Atomic aw dw × Atomic aw dw) :=
  log.filterMap fun
    | .pop .wr a _ it aitem => if a = addr ∧ it.hasCheckOnScb = false then some (it,aitem) else none
    | _ => none

def errors (log : List (Event aw dw)) : List (Event aw dw) :=
  log.filter fun
    | .error _ _ _ _ => true
    | _ => false

@[simp] theorem pairs_append (addr : BitVec aw) (first second : List (Event aw dw)) :
    pairs addr (first++second) = pairs addr first ++ pairs addr second :=
  List.filterMap_append

@[simp] theorem errors_append (first second : List (Event aw dw)) :
    errors (first++second) = errors first ++ errors second :=
  List.filter_append ..

@[simp] theorem pairs_put (addr a : BitVec aw) (dir : TrsType) (pos : Nat) (aitem : Atomic aw dw) :
    pairs addr [.put dir a pos aitem] = [] := rfl

@[simp] theorem errors_put (dir : TrsType) (a : BitVec aw) (pos : Nat) (aitem : Atomic aw dw) :
    errors [.put dir a pos aitem] = [] := rfl

@[simp] theorem pairs_warnings (addr : BitVec aw) (addrs : List (BitVec aw)) :
    pairs addr (addrs.map (.warning : BitVec aw → Event aw dw)) = [] := by
  simp [pairs,List.filterMap_map]

@[simp] theorem errors_warnings (addrs : List (BitVec aw)) :
    errors (addrs.map (.warning : BitVec aw → Event aw dw)) = [] := by
  simp [errors,List.filter_map,Function.comp_def]

@[simp] theorem pairs_popReports_rd (addr a : BitVec aw) (id : String) (pos : Nat) (it aitem : Atomic aw dw) :
    pairs addr (popReports .rd id a pos it aitem) = [] := by
  unfold popReports
  split <;> rfl

theorem pairs_popReports (addr a : BitVec aw) (id : String) (pos : Nat) (it aitem : Atomic aw dw) :
    pairs addr (popReports .wr id a pos it aitem) =
      if a = addr ∧ it.hasCheckOnScb = false then [(it,aitem)] else [] := by
  unfold popReports
  by_cases same : a = addr ∧ it.hasCheckOnScb = false <;> split <;> simp [pairs,same]

theorem errors_popReports (dir : TrsType) (id : String) (addr : BitVec aw) (pos : Nat)
    (it aitem : Atomic aw dw) : errors (popReports dir id addr pos it aitem) =
      if it.item.compare aitem.item then [] else [.error id addr it aitem] := by
  unfold popReports
  split <;> simp [errors]

/-- How far the comparisons at an address have come after the beats `done`. -/
structure Progress (addr : BitVec aw) (scb : Scoreboard aw dw) (done : List (Op aw dw)) : Prop where
  initors : (puts .wr addr scb.log).map content = initorStream addr done
  targets : ((pairs addr scb.log).map fun pair => content pair.2).Sublist (targetStream addr done)
  front : (pairs addr scb.log).map (fun pair => fresh pair.1) =
    (puts .wr addr scb.log).take (pairs addr scb.log).length
  checked : ∀ (p : Nat) (it : Atomic aw dw), (queueAt scb.wrPool addr)[p]? = some it →
    (it.hasCheckOnScb = true ↔ p < (pairs addr scb.log).length)
  agree : errors scb.log = [] → ∀ pair ∈ pairs addr scb.log, content pair.1 = content pair.2

theorem streams_concat (addr : BitVec aw) (done : List (Op aw dw)) (o : Op aw dw) :
    initorStream addr (done++[o]) = initorStream addr done ++ initorStream addr [o] ∧
      targetStream addr (done++[o]) = targetStream addr done ++ targetStream addr [o] :=
  ⟨List.filterMap_append,List.filterMap_append⟩

theorem Progress.quiet {addr : BitVec aw} {scb scb' : Scoreboard aw dw} {done : List (Op aw dw)}
    (progress : Progress addr scb done) (o : Op aw dw) (more : List (Event aw dw))
    (log : scb'.log = scb.log ++ more) (noPuts : puts .wr addr more = []) (noPairs : pairs addr more = [])
    (noInitor : initorStream addr [o] = [])
    (flags : ∀ (p : Nat) (it : Atomic aw dw), (queueAt scb'.wrPool addr)[p]? = some it →
      ∃ jt, (queueAt scb.wrPool addr)[p]? = some jt ∧ it.hasCheckOnScb = jt.hasCheckOnScb) :
    Progress addr scb' (done++[o]) := by
  obtain ⟨initors,targets,front,checked,agree⟩ := progress
  have samePuts : puts .wr addr scb'.log = puts .wr addr scb.log := by rw [log,puts_append,noPuts,List.append_nil]
  have samePairs : pairs addr scb'.log = pairs addr scb.log := by rw [log,pairs_append,noPairs,List.append_nil]
  obtain ⟨initorMore,targetMore⟩ := streams_concat addr done o
  constructor
  · rw [samePuts,initors,initorMore,noInitor,List.append_nil]
  · rw [samePairs,targetMore]
    exact targets.trans (List.sublist_append_left _ _)
  · rw [samePuts,samePairs,front]
  · intro p it found
    obtain ⟨jt,before,same⟩ := flags p it found
    rw [samePairs,same]
    exact checked p jt before
  · intro noErrors
    rw [log,errors_append,List.append_eq_nil_iff] at noErrors
    rw [samePairs]
    exact agree noErrors.1

theorem Progress.bound {addr : BitVec aw} {scb : Scoreboard aw dw} {done : List (Op aw dw)}
    (progress : Progress addr scb done) : (pairs addr scb.log).length ≤ (puts .wr addr scb.log).length := by
  have size := congrArg List.length progress.front
  rw [List.length_map,List.length_take] at size
  omega

theorem Progress.put {addr : BitVec aw} {scb : Scoreboard aw dw} {done : List (Op aw dw)}
    (progress : Progress addr scb done) (sound : Sound scb) (item : SequenceItem aw dw) (i : Nat)
    (kind : item.trsT = .wr) : Progress addr {scb with
      wrPool := (putAtomic .wr scb.wrPool (beatAddr item i) (scb.beatItem item i)).1
      log := scb.log ++ (putAtomic .wr scb.wrPool (beatAddr item i) (scb.beatItem item i)).2}
    (done++[.initor item i]) := by
  have bound := progress.bound
  have size : (puts .wr addr scb.log).length = (queueAt scb.wrPool addr).length := by
    rw [← sound.wr.queue,List.length_map]
  have entry := putAtomic_entry .wr scb.wrPool sound.wr.opened (beatAddr item i) (scb.beatItem item i) addr
  obtain ⟨initors,targets,front,checked,agree⟩ := progress
  obtain ⟨initorMore,targetMore⟩ := streams_concat addr done (.initor item i)
  rw [putAtomic_report .wr scb.wrPool sound.wr.opened]
  constructor
  · rw [initorMore,puts_append,List.map_append,initors,puts_put]
    by_cases here : beatAddr item i = addr
    · simp only [here,and_self,if_true,initorStream,List.filterMap_cons,kind,List.filterMap_nil]
      rfl
    · simp [here,initorStream]
  · rw [targetMore,pairs_append,pairs_put,List.append_nil]
    exact targets.trans (List.sublist_append_left _ _)
  · rw [puts_append,pairs_append,pairs_put,List.append_nil,List.take_append_of_le_length bound]
    exact front
  · intro p it found
    rw [pairs_append,pairs_put,List.append_nil]
    rcases (entry p it).mp found with before | ⟨here,rfl,rfl⟩
    · exact checked p it before
    · rw [← here,← size]
      simp only [beatItem,createAtomicItem,Bool.false_eq_true,false_iff,not_lt]
      exact bound
  · intro noErrors
    rw [errors_append,List.append_eq_nil_iff] at noErrors
    rw [pairs_append,pairs_put,List.append_nil]
    exact agree noErrors.1

theorem Progress.first {addr : BitVec aw} {scb : Scoreboard aw dw} {done : List (Op aw dw)}
    (progress : Progress addr scb done) (pos : Nat)
    (selected : nocheckScbGet scb.bursts (queueAt scb.wrPool addr) = some pos) (it : Atomic aw dw)
    (found : (queueAt scb.wrPool addr)[pos]? = some it) (waiting : it.hasCheckOnScb = false) :
    pos = (pairs addr scb.log).length := by
  apply le_antisymm
  · by_contra beyond
    have inside : (pairs addr scb.log).length < (queueAt scb.wrPool addr).length :=
      (Nat.lt_of_not_le beyond).trans (List.getElem?_eq_some_iff.mp found).1
    have entry := List.getElem?_eq_getElem inside
    have seen := selected_before _ _ pos selected _ (Nat.lt_of_not_le beyond) _ entry
    exact absurd ((progress.checked _ _ entry).mp seen) (Nat.lt_irrefl _)
  · by_contra before
    have seen := (progress.checked pos it found).mpr (Nat.lt_of_not_le before)
    rw [waiting] at seen
    cases seen

theorem Progress.pop {scb : Scoreboard aw dw} {done : List (Op aw dw)} (item : SequenceItem aw dw) (i : Nat)
    (progress : Progress (beatAddr item i) scb done) (sound : Sound scb) (kind : item.trsT = .wr)
    (pos : Nat) (it : Atomic aw dw) (bursts : Heap (Burst aw dw))
    (selected : nocheckScbGet scb.bursts (queueAt scb.wrPool (beatAddr item i)) = some pos)
    (found : (queueAt scb.wrPool (beatAddr item i))[pos]? = some it) (waiting : it.hasCheckOnScb = false) :
    Progress (beatAddr item i) {scb with
      bursts := bursts
      wrPool := scb.wrPool.update (beatAddr item i) (markChecked · pos)
      log := scb.log ++
        popReports .wr "SMTDV_SCB_WR_COMP" (beatAddr item i) pos it (scb.beatItem item i)}
      (done++[.target item i]) := by
  have place := progress.first pos selected it found waiting
  have slice := sound.wrSliced _ pos it found
  obtain ⟨initors,targets,front,checked,agree⟩ := progress
  obtain ⟨initorMore,targetMore⟩ := streams_concat (beatAddr item i) done (.target item i)
  have morePairs : pairs (beatAddr item i) (scb.log ++ popReports .wr "SMTDV_SCB_WR_COMP" (beatAddr item i)
      pos it (scb.beatItem item i)) = pairs (beatAddr item i) scb.log ++ [(it,scb.beatItem item i)] := by
    simp [pairs_popReports,waiting]
  constructor
  · rw [initorMore,puts_append,puts_popReports,List.append_nil,initors]
    simp [initorStream]
  · rw [targetMore,morePairs,List.map_append]
    refine targets.append ?_
    simp only [targetStream,List.filterMap_cons,kind,and_self,if_true,List.filterMap_nil]
    exact List.Sublist.refl _
  · rw [morePairs,puts_append,puts_popReports,List.append_nil,List.map_append,front,List.length_append,
      List.length_singleton,List.take_add_one,← place]
    have put : (puts .wr (beatAddr item i) scb.log)[pos]? = some (fresh it) := by
      rw [← sound.wr.queue,List.getElem?_map,found]
      rfl
    rw [put]
    rfl
  · intro p jt there
    rw [morePairs,List.length_append,List.length_singleton,← place]
    rw [update_queue,if_pos rfl,markChecked_get] at there
    split at there
    · rename_i same
      subst same
      rw [found] at there
      obtain rfl := Option.some.inj there
      simp
    · rename_i other
      rw [checked p jt there,← place]
      omega
  · intro noErrors pair member
    rw [errors_append,List.append_eq_nil_iff,errors_popReports] at noErrors
    rw [morePairs] at member
    rcases List.mem_append.mp member with old | new
    · exact agree noErrors.1 pair old
    · rw [List.mem_singleton.mp new]
      have accepted : it.item.compare (scb.beatItem item i).item = true := by
        by_contra refused
        rw [if_neg refused] at noErrors
        cases noErrors.2
      obtain ⟨_,_,data,byten⟩ := (SequenceItem.compare_wr _ _ slice.kind slice.sameIds).mp accepted
      exact Prod.ext data byten

theorem op_progress (addr : BitVec aw) (scb : Scoreboard aw dw) (done : List (Op aw dw)) (o : Op aw dw)
    (sound : Sound scb) (progress : Progress addr scb done) : Progress addr (op scb o) (done++[o]) := by
  have unchanged (p : Nat) (it : Atomic aw dw) (found : (queueAt scb.wrPool addr)[p]? = some it) :
      ∃ jt, (queueAt scb.wrPool addr)[p]? = some jt ∧ it.hasCheckOnScb = jt.hasCheckOnScb :=
    ⟨it,found,rfl⟩
  have effect := op_effect scb o
  generalize op scb o = scb' at effect ⊢
  cases effect with
  | create item => exact progress.quiet _ [] (by simp [create]) rfl rfl rfl unchanged
  | putWr item i kind => exact progress.put sound item i kind
  | putRd item i kind =>
    rw [putAtomic_report .rd scb.rdPool sound.rd.opened]
    exact progress.quiet _ _ rfl (by simp) (by simp) rfl unchanged
  | missWr item i kind => exact progress.quiet _ _ rfl (by simp) (by simp) rfl unchanged
  | missRd item i kind => exact progress.quiet _ _ rfl (by simp) (by simp) (by simp [initorStream,kind]) unchanged
  | popWr item i kind pos it selected found =>
    by_cases here : beatAddr item i = addr ∧ it.hasCheckOnScb = false
    · obtain ⟨rfl,waiting⟩ := here
      exact progress.pop item i sound kind pos it _ selected found waiting
    · refine progress.quiet _ _ rfl (by simp) (by rw [pairs_popReports,if_neg here]) rfl ?_
      intro p jt there
      rw [update_queue] at there
      split at there
      · rename_i same
        subst same
        rw [markChecked_get] at there
        split at there
        · -- an entry compared before is compared once more, so its flag is set already
          rename_i same
          subst same
          rw [found] at there
          obtain rfl := Option.some.inj there
          exact ⟨it,found,by simpa using here⟩
        · exact unchanged p jt there
      · exact unchanged p jt there
  | popRd item i kind => exact progress.quiet _ _ rfl (by simp) (by simp) (by simp [initorStream,kind]) unchanged
  | boxRd | boxWr => exact progress.quiet _ [] (by simp) rfl rfl rfl unchanged
  | idle _ noInitor =>
    refine progress.quiet _ [] (by simp) rfl rfl ?_ unchanged
    cases o with
    | initor item i => simp [initorStream,noInitor item i rfl]
    | _ => rfl

theorem run_progress (addr : BitVec aw) (beats : List (Op aw dw)) (scb : Scoreboard aw dw)
    (done : List (Op aw dw)) (sound : Sound scb) (serving : Machine.Meets op Serving scb beats)
    (progress : Progress addr scb done) : Progress addr (Machine.run op scb beats) (done++beats) := by
  induction beats generalizing scb done with
  | nil => simpa using progress
  | cons o rest ih =>
    have next := ih (op scb o) (done++[o]) (op_sound scb o sound serving.1) serving.2
      (op_progress addr scb done o sound progress)
    simpa using next

theorem after_progress (addr : BitVec aw) (calls : List (Call aw dw)) :
    Progress addr (after calls) (calls.flatMap ops) := by
  have start : Progress addr (initial : Scoreboard aw dw) [] :=
    ⟨rfl,List.Sublist.refl _,rfl,fun p it found => by simp [initial,queueAt] at found,fun _ _ member => by cases member⟩
  have run := run_progress addr (calls.flatMap ops) initial [] initial_sound (meets_serving _ calls) start
  rwa [List.nil_append,← run_calls] at run

end Smtdv.Scoreboard
