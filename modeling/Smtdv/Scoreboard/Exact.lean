import Smtdv.Scoreboard.Pairing
import Smtdv.Scoreboard.ReadCheck
import Smtdv.Scoreboard.Soundness

/-! A scoreboard that pairs first come first served reports the write beats that differ and nothing else. No
report is missed and none is false, so a run is without one exactly when the targets have seen what the
initiators have sent. -/
namespace Smtdv.Scoreboard
open Lib

variable {aw dw : Nat}

/-- The beats of the error reports at an address. -/
def mismatches (addr : BitVec aw) (log : List (Event aw dw)) :
    List ((List (Beat dw) × List (Byten dw)) × List (Beat dw) × List (Byten dw)) :=
  log.filterMap fun
    | .error _ a it aitem => if a = addr then some (content it,content aitem) else none
    | _ => none

@[simp] theorem mismatches_append (addr : BitVec aw) (first second : List (Event aw dw)) :
    mismatches addr (first++second) = mismatches addr first ++ mismatches addr second :=
  List.filterMap_append

@[simp] theorem mismatches_put (addr a : BitVec aw) (dir : TrsType) (pos : Nat) (aitem : Atomic aw dw) :
    mismatches addr [.put dir a pos aitem] = [] := rfl

@[simp] theorem mismatches_warnings (addr : BitVec aw) (addrs : List (BitVec aw)) :
    mismatches addr (addrs.map (.warning : BitVec aw → Event aw dw)) = [] := by
  simp [mismatches,List.filterMap_map]

theorem mismatches_popReports (addr a : BitVec aw) (dir : TrsType) (id : String) (pos : Nat) (it aitem : Atomic aw dw) :
    mismatches addr (popReports dir id a pos it aitem) =
      if it.item.compare aitem.item = false ∧ a = addr then [(content it,content aitem)] else [] := by
  unfold popReports
  cases it.item.compare aitem.item with
  | true => simp [mismatches]
  | false => by_cases here : a = addr <;> simp [mismatches,here]

theorem errors_eq_nil_iff (log : List (Event aw dw)) : errors log = [] ↔ ∀ addr, mismatches addr log = [] := by
  induction log with
  | nil => exact iff_of_true rfl fun _ => rfl
  | cons e rest ih =>
    cases e with
    | error id a it aitem =>
      refine iff_of_false (by simp [errors]) fun all => ?_
      have here := all a
      simp [mismatches] at here
    | put | pop | warning => simpa [errors,mismatches] using ih

instance (scb : Scoreboard aw dw) (o : Op aw dw) : Decidable (Resolved scb o) :=
  match o with
  | .target item i => inferInstanceAs (Decidable (_ → ∀ b ∈ queueAt scb.wrPool (beatAddr item i),_ → _))
  | .create _ | .initor _ _ | .boxInitor _ | .boxTarget _ => inferInstanceAs (Decidable True)

/-- No more beats come to an address than have been sent to it. -/
def Requested (calls : List (Call aw dw)) : Prop :=
  ∀ before, before <+: calls.flatMap ops → ∀ addr : BitVec aw,
    (targetStream addr before).length ≤ (initorStream addr before).length

/-- An initiator beat is one more that waits, and a target beat takes one of those that wait, if there is one. -/
def arrive (addr : BitVec aw) (line : Nat × List (List (Beat dw) × List (Byten dw))) (o : Op aw dw) :
    Nat × List (List (Beat dw) × List (Byten dw)) :=
  let waiting := line.1 + (initorStream addr [o]).length
  let taking := (targetStream addr [o]).take waiting
  (waiting - taking.length,line.2 ++ taking)

/-- How many beats wait at an address, and the target beats that came while one waited. -/
def line (addr : BitVec aw) (beats : List (Op aw dw)) : Nat × List (List (Beat dw) × List (Byten dw)) :=
  Machine.run (arrive addr) (0,[]) beats

def answered (addr : BitVec aw) (beats : List (Op aw dw)) : List (List (Beat dw) × List (Byten dw)) :=
  (line addr beats).2

theorem line_concat (addr : BitVec aw) (done : List (Op aw dw)) (o : Op aw dw) :
    line addr (done++[o]) = arrive addr (line addr done) o :=
  Machine.run_concat _ _ _ _

theorem arrive_quiet (addr : BitVec aw) (before : Nat × List (List (Beat dw) × List (Byten dw))) (o : Op aw dw)
    (noTarget : targetStream addr [o] = []) :
    arrive addr before o = (before.1 + (initorStream addr [o]).length,before.2) := by
  simp [arrive,noTarget]

/-- Where no more beats come than have been sent, all of them find one that waits. -/
theorem answered_requested (addr : BitVec aw) (beats : List (Op aw dw))
    (requested : ∀ before, before <+: beats →
      (targetStream addr before).length ≤ (initorStream addr before).length) :
    answered addr beats = targetStream addr beats ∧
      (line addr beats).1 + (targetStream addr beats).length = (initorStream addr beats).length := by
  induction beats using List.reverseRecOn with
  | nil => exact ⟨rfl,rfl⟩
  | append_singleton done o ih =>
    obtain ⟨all,count⟩ := ih fun before inside => requested before (inside.trans (List.prefix_append _ _))
    have bound := requested _ (List.prefix_refl _)
    rw [answered] at all
    obtain ⟨initors,targets⟩ := streams_concat addr done o
    rw [initors,targets,List.length_append,List.length_append] at bound
    have whole : (targetStream addr [o]).take ((line addr done).1 + (initorStream addr [o]).length) =
        targetStream addr [o] :=
      List.take_of_length_le (by omega)
    rw [answered,line_concat,arrive,whole,all,initors,targets]
    refine ⟨rfl,?_⟩
    rw [List.length_append,List.length_append]
    omega

/-- The target beats that find one waiting are compared, each with the beat in its place, and reported where the two
differ. -/
structure Paired (addr : BitVec aw) (scb : Scoreboard aw dw) (done : List (Op aw dw)) : Prop where
  targets : (pairs addr scb.log).map (fun pair => content pair.2) = answered addr done
  waiting : (line addr done).1 + (pairs addr scb.log).length = (initorStream addr done).length
  reported : mismatches addr scb.log =
    ((pairs addr scb.log).map fun pair => (content pair.1,content pair.2)).filter fun beats => beats.1 ≠ beats.2

theorem Paired.quiet {addr : BitVec aw} {scb scb' : Scoreboard aw dw} {done : List (Op aw dw)}
    (paired : Paired addr scb done) (o : Op aw dw) (more : List (Event aw dw)) (log : scb'.log = scb.log ++ more)
    (noPairs : pairs addr more = []) (noMismatch : mismatches addr more = []) (noTarget : targetStream addr [o] = []) :
    Paired addr scb' (done++[o]) := by
  have next := line_concat addr done o
  rw [arrive_quiet addr _ o noTarget] at next
  have waiting := paired.waiting
  constructor
  · rw [log,pairs_append,noPairs,List.append_nil,answered,next]
    exact paired.targets
  · rw [log,pairs_append,noPairs,List.append_nil,next,(streams_concat addr done o).1,List.length_append]
    omega
  · rw [log,pairs_append,mismatches_append,noPairs,noMismatch,List.append_nil,List.append_nil]
    exact paired.reported

/-- An entry that has not been compared is found, or one before it. -/
theorem nocheckScbGet_open (bursts : Heap (Burst aw dw)) (queue : List (Atomic aw dw)) (it : Atomic aw dw)
    (inside : it ∈ queue) (waiting : it.hasCheckOnScb = false) : nocheckScbGet bursts queue ≠ none := by
  intro absent
  rw [nocheckScbGet,List.findIdx?_eq_none_iff] at absent
  have seen := absent it inside
  rw [waiting] at seen
  cases seen

theorem Progress.waits {addr : BitVec aw} {scb : Scoreboard aw dw} {done : List (Op aw dw)}
    (progress : Progress addr scb done) (sound : Sound scb)
    (more : (pairs addr scb.log).length < (initorStream addr done).length) :
    nocheckScbGet scb.bursts (queueAt scb.wrPool addr) ≠ none := by
  have inside : (pairs addr scb.log).length < (queueAt scb.wrPool addr).length := by
    rw [← progress.initors,List.length_map,← sound.wr.queue,List.length_map] at more
    exact more
  have entry := List.getElem?_eq_getElem inside
  refine nocheckScbGet_open _ _ _ (List.getElem_mem inside) ?_
  rw [← Bool.not_eq_true,progress.checked _ _ entry]
  exact Nat.lt_irrefl _

theorem compare_write {addr : BitVec aw} {it jt : Atomic aw dw} (left : Slice .wr addr it) (right : Slice .wr addr jt) :
    it.item.compare jt.item = true ↔ content it = content jt := by
  rw [SequenceItem.compare_wr _ _ left.kind left.sameIds]
  constructor
  · rintro ⟨_,_,data,byten⟩
    exact Prod.ext data byten
  · intro same
    exact ⟨right.kind,left.addrs.trans right.addrs.symm,congrArg Prod.fst same,congrArg Prod.snd same⟩

theorem op_paired (addr : BitVec aw) (scb : Scoreboard aw dw) (done : List (Op aw dw)) (o : Op aw dw)
    (sound : Sound scb) (progress : Progress addr scb done) (paired : Paired addr scb done)
    (resolved : Resolved scb o) : Paired addr (op scb o) (done++[o]) := by
  have effect := op_effect scb o
  generalize op scb o = scb' at effect ⊢
  cases effect with
  | create item => exact paired.quiet _ [] (by simp [create]) rfl rfl rfl
  | putWr item i kind =>
    rw [putAtomic_report .wr scb.wrPool sound.wr.opened]
    exact paired.quiet _ _ rfl (by simp) (by simp) rfl
  | putRd item i kind =>
    rw [putAtomic_report .rd scb.rdPool sound.rd.opened]
    exact paired.quiet _ _ rfl (by simp) (by simp) (by simp [targetStream,kind])
  | missWr item i kind addrs absent =>
    by_cases here : beatAddr item i = addr
    · subst here
      -- nothing waits, so the beat is dropped
      have none : (line (beatAddr item i) done).1 = 0 := by
        by_contra some
        exact progress.waits sound (by rw [← paired.waiting]; omega) absent
      have next := line_concat (beatAddr item i) done (.target item i)
      have dropped : arrive (beatAddr item i) (line (beatAddr item i) done) (.target item i) =
          line (beatAddr item i) done := by
        simp [arrive,none,initorStream,Prod.ext_iff]
      rw [dropped] at next
      constructor
      · simp only [pairs_append,pairs_warnings,List.append_nil,answered,next]
        exact paired.targets
      · simp only [pairs_append,pairs_warnings,List.append_nil,next,(streams_concat _ done (.target item i)).1,
          List.length_append]
        exact paired.waiting
      · simp only [pairs_append,mismatches_append,pairs_warnings,mismatches_warnings,List.append_nil]
        exact paired.reported
    · exact paired.quiet _ _ rfl (by simp) (by simp) (by simp [targetStream,here])
  | missRd item i kind => exact paired.quiet _ _ rfl (by simp) (by simp) rfl
  | popWr item i kind pos it selected found =>
    by_cases here : beatAddr item i = addr
    · subst here
      have waiting : it.hasCheckOnScb = false := by
        have new := selected_new scb sound item i kind resolved pos selected
        rw [sound.wr.checkedAt] at new
        by_contra seen
        exact new ⟨it,found,by simpa using seen⟩
      have slice := sound.wrSliced _ pos it found
      have same := compare_write slice (kind ▸ beatItem_slice scb item i)
      have target : targetStream (beatAddr item i) [.target item i] = [content (scb.beatItem item i)] := by
        simp only [targetStream,List.filterMap_cons,kind,and_self,if_true,List.filterMap_nil]
        rfl
      have place := progress.first pos selected it found waiting
      have inside := (List.getElem?_eq_some_iff.mp found).1
      have size : (queueAt scb.wrPool (beatAddr item i)).length = (initorStream (beatAddr item i) done).length := by
        rw [← progress.initors,List.length_map,← sound.wr.queue,List.length_map]
      have count := paired.waiting
      obtain ⟨n,some⟩ : ∃ n, (line (beatAddr item i) done).1 = n+1 := Nat.exists_eq_succ_of_ne_zero (by omega)
      have next : line (beatAddr item i) (done++[.target item i]) =
          (n,(line (beatAddr item i) done).2 ++ [content (scb.beatItem item i)]) := by
        have one : initorStream (beatAddr item i) [.target item i] = [] := rfl
        simp [line_concat,arrive,target,some,one]
      constructor
      · simp only [pairs_append,pairs_popReports,waiting,and_self,if_true,List.map_append,paired.targets,answered,next,
          List.map_cons,List.map_nil]
      · simp only [pairs_append,pairs_popReports,waiting,and_self,if_true,next,List.length_append,
          (streams_concat _ done (.target item i)).1,List.length_singleton]
        simp only [initorStream,List.filterMap_cons,List.filterMap_nil,List.length_nil] at count ⊢
        omega
      · simp only [mismatches_append,pairs_append,pairs_popReports,waiting,and_self,if_true,List.map_append,
          List.filter_append,paired.reported,mismatches_popReports,and_true]
        cases accepted : it.item.compare (scb.beatItem item i).item with
        | true => simp [same.mp accepted]
        | false =>
          have apart : content it ≠ content (scb.beatItem item i) := by
            intro agree
            rw [same.mpr agree] at accepted
            cases accepted
          simp [apart]
    · exact paired.quiet _ _ rfl (by rw [pairs_popReports,if_neg fun both => here both.1])
        (by rw [mismatches_popReports,if_neg fun both => here both.2]) (by simp [targetStream,here])
  | popRd item i kind pos it selected found =>
    have accepted := compare_read scb sound item i kind pos it found
    exact paired.quiet _ _ rfl (by simp) (by simp [mismatches_popReports,accepted]) rfl
  | boxRd | boxWr => exact paired.quiet _ [] (by simp) rfl rfl rfl
  | idle _ _ noTarget =>
    refine paired.quiet _ [] (by simp) rfl rfl ?_
    cases o with
    | target item i => simp [targetStream,noTarget item i rfl]
    | _ => rfl

theorem run_paired (addr : BitVec aw) (beats : List (Op aw dw)) (scb : Scoreboard aw dw) (done : List (Op aw dw))
    (sound : Sound scb) (serving : Machine.Meets op Serving scb beats) (resolved : Machine.Meets op Resolved scb beats)
    (progress : Progress addr scb done) (paired : Paired addr scb done) :
    Paired addr (Machine.run op scb beats) (done++beats) := by
  induction beats generalizing scb done with
  | nil => simpa using paired
  | cons o rest ih =>
    have next := ih (op scb o) (done++[o]) (op_sound scb o sound serving.1) serving.2 resolved.2
      (op_progress addr scb done o sound progress) (op_paired addr scb done o sound progress paired resolved.1)
    simpa using next

theorem after_paired (addr : BitVec aw) (calls : List (Call aw dw))
    (resolved : Machine.Meets op Resolved .initial (calls.flatMap ops)) :
    Paired addr (after calls) (calls.flatMap ops) := by
  have start : Progress addr (initial : Scoreboard aw dw) [] :=
    ⟨rfl,List.Sublist.refl _,rfl,fun p it found => by simp [initial,queueAt] at found,fun _ _ member => by cases member⟩
  have run := run_paired addr (calls.flatMap ops) initial [] initial_sound (meets_serving _ calls) resolved
    start ⟨rfl,rfl,rfl⟩
  rwa [List.nil_append,← run_calls] at run

/-- The comparisons at an address are those of the first beats sent with the beats that found one waiting. -/
theorem after_pairs (addr : BitVec aw) (calls : List (Call aw dw))
    (resolved : Machine.Meets op Resolved .initial (calls.flatMap ops)) :
    ((pairs addr (after calls).log).map fun pair => (content pair.1,content pair.2)) =
      (initorStream addr (calls.flatMap ops)).zip (answered addr (calls.flatMap ops)) ∧
    (answered addr (calls.flatMap ops)).length ≤ (initorStream addr (calls.flatMap ops)).length := by
  obtain ⟨targets,waiting,_⟩ := after_paired addr calls resolved
  have progress := after_progress addr calls
  have size := congrArg List.length targets
  rw [List.length_map] at size
  have initors : (pairs addr (after calls).log).map (fun pair => content pair.1) =
      (initorStream addr (calls.flatMap ops)).take (answered addr (calls.flatMap ops)).length := by
    rw [← progress.initors,← List.map_take,← size,← progress.front,List.map_map]
    rfl
  have bound : (answered addr (calls.flatMap ops)).length ≤ (initorStream addr (calls.flatMap ops)).length := by omega
  refine ⟨?_,bound⟩
  rw [List.zip_eq_zip_take_min,Nat.min_eq_right bound,List.take_length,← initors,← targets,List.zip_map']

theorem prefix_iff_zip {α : Type*} [DecidableEq α] (xs ys : List α) (bound : ys.length ≤ xs.length) :
    ys <+: xs ↔ (xs.zip ys).filter (fun pair => pair.1 ≠ pair.2) = [] := by
  induction ys generalizing xs with
  | nil => simp
  | cons y ys ih =>
    cases xs with
    | nil => simp at bound
    | cons x xs =>
      rw [List.length_cons,List.length_cons,Nat.succ_le_succ_iff] at bound
      rw [List.cons_prefix_cons,ih xs bound,List.zip_cons_cons,List.filter_cons]
      by_cases same : x = y
      · simp [same]
      · simp [same,Ne.symm same]

/-- Where no half compared burst has a beat at the address of a target beat, the target beats that find one waiting are
reported where they differ from the beat in their place, once each, and nothing else is. -/
theorem reports_answered (calls : List (Call aw dw))
    (resolved : Machine.Meets op Resolved .initial (calls.flatMap ops)) :
    (∀ addr, mismatches addr (after calls).log =
      ((initorStream addr (calls.flatMap ops)).zip (answered addr (calls.flatMap ops))).filter
        fun beats => beats.1 ≠ beats.2) ∧
    (errors (after calls).log = [] ↔
      ∀ addr, answered addr (calls.flatMap ops) <+: initorStream addr (calls.flatMap ops)) := by
  have reported (addr : BitVec aw) : mismatches addr (after calls).log =
      ((initorStream addr (calls.flatMap ops)).zip (answered addr (calls.flatMap ops))).filter
        fun beats => beats.1 ≠ beats.2 := by
    rw [(after_paired addr calls resolved).reported,(after_pairs addr calls resolved).1]
  refine ⟨reported,?_⟩
  rw [errors_eq_nil_iff]
  apply forall_congr'
  intro addr
  rw [reported,prefix_iff_zip _ _ (after_pairs addr calls resolved).2]

/-! ### Every run -/

/-- A target beat at whose address one waits is compared. It is reported exactly if it differs from the entry that
`nocheck_scb_get` finds; with no entry it is dropped. -/
def Reports (scb : Scoreboard aw dw) (o : Op aw dw) : Prop :=
  match o with
  | .target item i =>
    item.trsT = .wr →
      let queue := queueAt scb.wrPool (beatAddr item i)
      ((∃ it ∈ queue, it.hasCheckOnScb = false) → nocheckScbGet scb.bursts queue ≠ none) ∧
      mismatches (beatAddr item i) (op scb o).log = mismatches (beatAddr item i) scb.log ++
        match nocheckScbGet scb.bursts queue with
        | none => []
        | some pos => [(content (queue.getD pos default),payload item i)].filter fun beats => beats.1 ≠ beats.2
  | _ => errors (op scb o).log = errors scb.log

theorem op_reports (scb : Scoreboard aw dw) (o : Op aw dw) (sound : Sound scb) : Reports scb o := by
  have effect := op_effect scb o
  unfold Reports
  split
  next item i =>
    intro kind queue
    refine ⟨fun ⟨it,inside,waiting⟩ => nocheckScbGet_open _ _ it inside waiting,?_⟩
    generalize op scb (.target item i) = scb' at effect ⊢
    cases effect with
    | putRd _ _ other => cases kind.symm.trans other
    | missWr _ _ _ addrs absent => simp [queue,absent]
    | popWr _ _ _ pos it selected found =>
      have same := compare_write (sound.wrSliced _ pos it found) (kind ▸ beatItem_slice scb item i)
      have entry : queue.getD pos default = it := by rw [List.getD_eq_getElem?_getD,found,Option.getD_some]
      rw [mismatches_append,mismatches_popReports,selected]
      dsimp only
      rw [entry,show payload item i = content (scb.beatItem item i) from rfl]
      cases accepted : it.item.compare (scb.beatItem item i).item with
      | true => simp [same.mp accepted]
      | false =>
        have apart : content it ≠ content (scb.beatItem item i) := fun agree =>
          Bool.false_ne_true (accepted.symm.trans (same.mpr agree))
        simp [apart]
    | idle _ _ noTarget => cases kind.symm.trans (noTarget item i rfl)
  next others =>
    generalize op scb o = scb' at effect ⊢
    cases effect with
    | create item => simp [create]
    | putWr item i kind => simp [putAtomic_report .wr scb.wrPool sound.wr.opened]
    | missRd item i kind => simp
    | popRd item i kind pos it selected found =>
      simp [errors_popReports,compare_read scb sound item i kind pos it found]
    | putRd item i | missWr item i | popWr item i => exact absurd rfl (others item i)
    | boxRd | boxWr | idle => rfl

theorem after_reports (calls : List (Call aw dw)) : Machine.Meets op Reports .initial (calls.flatMap ops) :=
  Machine.Meets.under op_sound (fun scb o sound _ => op_reports scb o sound) initial_sound (meets_serving _ calls)

/-- What the scoreboard promises of the writes of a run. -/
structure WritesSound (calls : List (Call aw dw)) : Prop where
  /-- Without an error the target beats compared with a beat that waited are the first ones sent, in their order. -/
  agreed : errors (after calls).log = [] → ∀ addr : BitVec aw,
    ((pairs addr (after calls).log).map fun pair => content pair.2) <+: initorStream addr (calls.flatMap ops) ∧
    ((pairs addr (after calls).log).map fun pair => content pair.2).Sublist (targetStream addr (calls.flatMap ops))
  reported : Machine.Meets op Reports .initial (calls.flatMap ops)
  /-- Where no half compared burst is in the way, these are all that find a beat waiting. -/
  exact : Machine.Meets op Resolved .initial (calls.flatMap ops) →
    (∀ addr : BitVec aw, mismatches addr (after calls).log =
      ((initorStream addr (calls.flatMap ops)).zip (answered addr (calls.flatMap ops))).filter
        fun beats => beats.1 ≠ beats.2) ∧
    (errors (after calls).log = [] ↔
      ∀ addr : BitVec aw, answered addr (calls.flatMap ops) <+: initorStream addr (calls.flatMap ops))

/-- In every run a target write beat for which one waits is compared and reported if it differs; only one for which
none waits is dropped. -/
theorem writes_sound (calls : List (Call aw dw)) : WritesSound calls := by
  refine ⟨fun noErrors addr => ?_,after_reports calls,reports_answered calls⟩
  obtain ⟨initors,targets,front,_,agree⟩ := after_progress addr calls
  refine ⟨?_,targets⟩
  have same : (pairs addr (after calls).log).map (fun pair => content pair.2) =
      ((pairs addr (after calls).log).map fun pair => fresh pair.1).map content := by
    rw [List.map_map]
    exact List.map_congr_left fun pair member => (agree noErrors pair member).symm
  rw [same,front,List.map_take,initors]
  exact List.take_prefix _ _

def singleWrite : SequenceItem 8 8 where
  trsT := .wr
  addrs := [4]
  dataBeat := [fun _ => 1]

def duplicatedWrite : List (Call 8 8) :=
  [.writeInitor singleWrite,.writeTarget singleWrite,.writeTarget singleWrite]

/-- A write that reaches the target a second time is not reported. -/
theorem duplicatedWrite_silent : errors (after duplicatedWrite).log = [] ∧
    ¬ targetStream 4 (duplicatedWrite.flatMap ops) <+: initorStream 4 (duplicatedWrite.flatMap ops) := by
  decide

/-- Where no half compared burst has a beat at the address of a target beat, and the targets see no beat that was not
sent, each target beat that differs from the beat in its place is reported, once, and nothing else is. -/
theorem reports_exactly (calls : List (Call aw dw))
    (resolved : Machine.Meets op Resolved .initial (calls.flatMap ops)) (requested : Requested calls) :
    (∀ addr, mismatches addr (after calls).log =
      ((initorStream addr (calls.flatMap ops)).zip (targetStream addr (calls.flatMap ops))).filter
        fun beats => beats.1 ≠ beats.2) ∧
    (errors (after calls).log = [] ↔
      ∀ addr, targetStream addr (calls.flatMap ops) <+: initorStream addr (calls.flatMap ops)) := by
  have all (addr : BitVec aw) : answered addr (calls.flatMap ops) = targetStream addr (calls.flatMap ops) :=
    (answered_requested addr (calls.flatMap ops) fun before inside => requested before inside addr).1
  have exact := reports_answered calls resolved
  simp only [all] at exact
  exact exact

/-- A burst of two beats, the second of which comes to the target with other data. -/
def changedWrite : List (Call 8 8) :=
  let burst : SequenceItem 8 8 := {trsT := .wr, addrs := [4,5], dataBeat := [fun _ => 1,fun _ => 2]}
  [.writeInitor burst,.writeTarget {burst with dataBeat := [fun _ => 1,fun _ => 3]}]

theorem changedWrite_requested : Requested changedWrite := by
  intro before inside addr
  rw [← List.mem_inits] at inside
  revert addr
  revert before
  decide +kernel

theorem changedWrite_reported :
    (mismatches 5 (after changedWrite).log).length = 1 ∧ errors (after changedWrite).log ≠ [] := by
  have exact := reports_exactly changedWrite (by decide +kernel) changedWrite_requested
  rw [exact.1]
  exact ⟨by decide +kernel,fun clean => absurd (exact.2.mp clean 5) (by decide +kernel)⟩

end Smtdv.Scoreboard
