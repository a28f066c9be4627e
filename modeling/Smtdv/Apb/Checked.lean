import Smtdv.Apb.Coherent
import Smtdv.Scoreboard.Settled

/-! The bench with the scoreboard between its monitors. The writes of a slave and the reads of the master are handed
to it after a delay of no time, so an edge makes calls in two regions, in each of them in any order. -/
namespace Smtdv.Apb
open Lib

variable {aw dw : Nat}

def CollItem.sequenceItem (item : CollItem aw dw) : SequenceItem aw dw where
  trsT := item.trsT
  addr := item.addr
  addrs := item.addrs
  dataBeat := item.dataBeat
  rsp := item.rsp.getD .okay
  success := item.success

/-- What a turn of a collector writes to `item_collected_port`. -/
def handed (dir : TrsType) (item : Option (CollItem aw dw)) (c : Sample aw dw) : List (SequenceItem aw dw) :=
  ((collect dir item c).2.filter fun item => item.success).map CollItem.sequenceItem

def SlaveAgent.current (s : SlaveAgent aw dw) (dir : TrsType) : Option (CollItem aw dw) :=
  (s.item dir).map fun r => (s.object r).toCollItem

/-- The calls of the regions in turn, those of one region in any order. -/
inductive Scheduled : List (List (Call aw dw)) → List (Call aw dw) → Prop
  | nil : Scheduled [] []
  | cons {region turn : List (Call aw dw)} {regions : List (List (Call aw dw))} {calls : List (Call aw dw)}
      (order : turn.Perm region) (rest : Scheduled regions calls) : Scheduled (region::regions) (turn ++ calls)

theorem Scheduled.split {first second : List (List (Call aw dw))} {calls : List (Call aw dw)}
    (scheduled : Scheduled (first ++ second) calls) :
    ∃ before after, calls = before ++ after ∧ Scheduled first before ∧ Scheduled second after := by
  induction first generalizing calls with
  | nil => exact ⟨[],calls,rfl,.nil,scheduled⟩
  | cons region regions ih =>
    cases scheduled with
    | cons order rest =>
      obtain ⟨before,after,rfl,left,right⟩ := ih rest
      exact ⟨_,after,(List.append_assoc _ _ _).symm,.cons order left,right⟩

theorem Scheduled.singles {all calls : List (Call aw dw)} (scheduled : Scheduled (all.map fun c => [c]) calls) :
    calls = all := by
  induction all generalizing calls with
  | nil =>
    cases scheduled
    rfl
  | cons c rest ih =>
    cases scheduled with
    | cons order later => rw [List.perm_singleton.mp order,ih later,List.singleton_append]

theorem Scheduled.empty {calls : List (Call aw dw)} (scheduled : Scheduled [[],[]] calls) : calls = [] := by
  cases scheduled with
  | cons first rest =>
    cases rest with
    | cons second rest =>
      cases rest
      rw [List.perm_nil.mp first,List.perm_nil.mp second,List.append_nil,List.append_nil]

theorem scheduled_flatten (regions : List (List (Call aw dw))) : Scheduled regions regions.flatten := by
  induction regions with
  | nil => exact .nil
  | cons region rest ih => exact .cons (.refl region) ih

namespace Env

/-- The calls of the scoreboard at a falling edge that are made at once. -/
def prompt (e : Env aw dw) : List (Call aw dw) :=
  (handed .wr e.mon.wr e.now).map .writeInitor ++
    (List.finRange 2).flatMap fun i => (handed .rd ((e.slaves i).current .rd) (e.view i)).map .writeTarget

/-- The calls behind `SMTDV_SWAP(0)`. -/
def swapped (e : Env aw dw) : List (Call aw dw) :=
  ((List.finRange 2).flatMap fun i => (handed .wr ((e.slaves i).current .wr) (e.view i)).map .writeTarget) ++
    (handed .rd e.mon.rd e.now).map .writeInitor

def regions (e : Env aw dw) : EnvAction aw dw → List (List (Call aw dw))
  | .negedge _ _ => if e.runnable || !e.clk then [] else [e.prompt,e.swapped]
  | _ => []

def turn (e : Env aw dw) (a : EnvAction aw dw) : Env aw dw × List (List (Call aw dw)) := (e.step a,e.regions a)

def calls (mapCfgs : List MapCfg) (hasBlock blockPsel blockPenable : Bool) (config : Fin 2 → Bool × Bool)
    (actions : List (EnvAction aw dw)) : List (List (Call aw dw)) :=
  (Machine.answers turn (initial mapCfgs hasBlock blockPsel blockPenable config) actions).2.flatten

end Env

/-! ### The items that end at an edge -/

def Monitor.Typed (m : Monitor aw dw) : Prop :=
  (∀ item ∈ m.wr, item.trsT = .wr) ∧ ∀ item ∈ m.rd, item.trsT = .rd

theorem collect_trsT {dir : TrsType} {item : Option (CollItem aw dw)} (typed : ∀ other ∈ item, other.trsT = dir)
    (c : Sample aw dw) : (∀ other ∈ (collect dir item c).1, other.trsT = dir) ∧
      ∀ other ∈ (collect dir item c).2, other.trsT = dir ∧ other.success = !c.pslverr := by
  cases item with
  | none =>
    rw [collect]
    split <;> simp [populateBeginItem]
  | some item =>
    have kind := typed item rfl
    rw [collect]
    split
    · cases err : c.pslverr <;> simp [CollItem.populateEndItem,kind,err]
    · simp [kind]

theorem Monitor.after_typed (samples : List (Sample aw dw × Bool)) : (Monitor.after samples).Typed := by
  have keep (m : Monitor aw dw) (c : Sample aw dw × Bool) (typed : m.Typed) : (m.step c).Typed := by
    obtain ⟨wr,rd⟩ := typed
    rw [Monitor.step]
    split <;> exact ⟨(collect_trsT wr c.1).1,(collect_trsT rd c.1).1⟩
  have start : ({} : Monitor aw dw).Typed := ⟨by simp,by simp⟩
  exact Machine.run_induction keep samples start

/-- The items that end at an edge, in the order in which the collectors are woken. -/
def Monitor.ending (m : Monitor aw dw) (c : Sample aw dw × Bool) : List (CollItem aw dw) :=
  if c.2 then (collect .wr m.wr c.1).2 ++ (collect .rd m.rd c.1).2
  else (collect .rd m.rd c.1).2 ++ (collect .wr m.wr c.1).2

theorem Monitor.step_collected (m : Monitor aw dw) (c : Sample aw dw × Bool) :
    (m.step c).collected = m.collected ++ m.ending c := by
  rw [step,ending]
  split <;> exact List.append_assoc _ _ _

theorem Monitor.Typed.handed_one {m : Monitor aw dw} (typed : m.Typed) {c : Sample aw dw × Bool}
    {item : CollItem aw dw} (one : m.ending c = [item]) : item.success = (!c.1.pslverr) ∧
      ((item.trsT = .wr ∧ handed .wr m.wr c.1 = [item.sequenceItem].filter (fun _ => item.success) ∧
          handed .rd m.rd c.1 = []) ∨
        item.trsT = .rd ∧ handed .wr m.wr c.1 = [] ∧
          handed .rd m.rd c.1 = [item.sequenceItem].filter fun _ => item.success) := by
  have write := (collect_trsT typed.1 c.1).2
  have read := (collect_trsT typed.2 c.1).2
  have parts : ((collect .wr m.wr c.1).2 = [item] ∧ (collect .rd m.rd c.1).2 = []) ∨
      (collect .wr m.wr c.1).2 = [] ∧ (collect .rd m.rd c.1).2 = [item] := by
    rw [ending] at one
    split at one
    · exact (List.append_eq_singleton_iff.mp one).symm
    · exact (List.append_eq_singleton_iff.mp one).imp And.symm And.symm
  have alone : ([item].filter fun item => item.success).map CollItem.sequenceItem =
      [item.sequenceItem].filter fun _ => item.success := by
    cases success : item.success <;> simp [success]
  rcases parts with ⟨wr,rd⟩ | ⟨wr,rd⟩
  · obtain ⟨kind,success⟩ := write item (by rw [wr]; exact List.mem_singleton_self item)
    exact ⟨success,.inl ⟨kind,by rw [handed,wr,alone],by rw [handed,rd]; rfl⟩⟩
  · obtain ⟨kind,success⟩ := read item (by rw [rd]; exact List.mem_singleton_self item)
    exact ⟨success,.inr ⟨kind,by rw [handed,wr]; rfl,by rw [handed,rd,alone]⟩⟩

theorem Monitor.handed_nil {m : Monitor aw dw} {c : Sample aw dw × Bool} (none : m.ending c = []) :
    handed .wr m.wr c.1 = [] ∧ handed .rd m.rd c.1 = [] := by
  have parts : (collect .wr m.wr c.1).2 = [] ∧ (collect .rd m.rd c.1).2 = [] := by
    rw [ending] at none
    split at none
    · exact List.append_eq_nil_iff.mp none
    · exact (List.append_eq_nil_iff.mp none).symm
  rw [handed,handed,parts.1,parts.2]
  exact ⟨rfl,rfl⟩

theorem handed_none (dir : TrsType) (c : Sample aw dw) : handed dir none c = [] := by
  rw [handed,collect]
  split <;> rfl

theorem handed_low (dir : TrsType) (item : CollItem aw dw) {c : Sample aw dw} (low : c.pready = false) :
    handed dir (some item) c = [] := by
  rw [handed,collect]
  simp [low]

namespace SlaveAgent

theorem current_none {s : SlaveAgent aw dw} {dir : TrsType} (idle : s.item dir = none) : s.current dir = none := by
  rw [current,idle]
  rfl

theorem populateEndItem_data (item : CollItem aw dw) (dir : TrsType) (c : Sample aw dw) :
    (item.populateEndItem dir c).dataBeat = [packData (if dir = .wr then c.pwdata else c.prdata)] := by
  cases dir <;> rfl

theorem Inv.handed_closed {s : SlaveAgent aw dw} {map : ByteMap aw} (inv : s.Inv none map) (dir : TrsType)
    (c : Sample aw dw) : handed dir (s.current dir) c = [] := by
  have place : s.Closed := inv.place
  rw [current_none (place.item dir),handed_none]

theorem Inv.handed_opened {s : SlaveAgent aw dw} {map : ByteMap aw} {dir : TrsType} {addr : BitVec aw}
    (inv : s.Inv (some (dir,addr)) map) (c : Sample aw dw) :
    (∀ other ≠ dir, handed other (s.current other) c = []) ∧
      (c.pready = false → handed dir (s.current dir) c = []) ∧
      (c.pready = true → c.pslverr = true → handed dir (s.current dir) c = []) ∧
      (c.pready = true → c.pslverr = false → ∃ item, handed dir (s.current dir) c = [item] ∧
        Scoreboard.Reads item dir addr (packData (if dir = .wr then c.pwdata else c.prdata))) := by
  have place : s.Opened dir addr map := inv.place
  have current : s.current dir = some s.last.toCollItem := by
    rw [SlaveAgent.current,place.item]
    rfl
  refine ⟨fun other apart => ?_,fun low => ?_,fun high err => ?_,fun high okay => ?_⟩
  · rw [current_none (place.others other apart),handed_none]
  · rw [current,handed_low _ _ low]
  · rw [current,handed,Apb.collect,if_pos high]
    simp [CollItem.populateEndItem,err]
  · refine ⟨(s.last.toCollItem.populateEndItem dir c).sequenceItem,?_,?_⟩
    · rw [current,handed,Apb.collect,if_pos high]
      simp [CollItem.populateEndItem,okay]
    · exact ⟨place.trsT,place.addrs,populateEndItem_data s.last.toCollItem dir c,rfl⟩

end SlaveAgent

namespace Env

theorem flatMap_single {α : Type*} {f : Fin 2 → List α} (i : Fin 2) (others : ∀ j ≠ i, f j = []) :
    (List.finRange 2).flatMap f = f i := by
  have both : List.finRange 2 = [0,1] := rfl
  rw [both,List.flatMap_cons,List.flatMap_cons,List.flatMap_nil,List.append_nil]
  by_cases first : i = 0
  · rw [first,others 1 (by rw [first]; decide),List.append_nil]
  · obtain rfl : i = 1 := by omega
    rw [others 0 (by decide),List.nil_append]

/-- What the slaves hand over at a falling edge: nothing before the end of the transfer under way, and its item then. -/
theorem Inv.slaves_handed {e : Env aw dw} (inv : e.Inv) (high : e.clk = true) :
    (e.now.ended = false ∧ ∀ i dir, handed dir ((e.slaves i).current dir) (e.view i) = []) ∨
    (e.now.ended = true ∧ ∃ i : Fin 2,
      (∀ j dir, j ≠ i ∨ dir ≠ dirOf e.now → handed dir ((e.slaves j).current dir) (e.view j) = []) ∧
      (e.now.pslverr = true → handed (dirOf e.now) ((e.slaves i).current (dirOf e.now)) (e.view i) = []) ∧
      (e.now.pslverr = false → ∃ item, handed (dirOf e.now) ((e.slaves i).current (dirOf e.now)) (e.view i) = [item] ∧
        Scoreboard.Reads item (dirOf e.now) e.now.transfer.addr (packData e.now.transfer.data))) := by
  cases inv.stage with
  | resting all early =>
    refine .inl ⟨?_,fun i dir => (all i).inv.handed_closed dir _⟩
    cases accessing : e.master.thread.accessing with
    | none => exact ended_of_low (inv.master.disabled accessing)
    | some item =>
      obtain ⟨i,chosen⟩ := inv.selects (Thread.accessing_some accessing)
      have unanswered : e.now.pready = false := by
        change e.response.pready = false
        rw [chosen.response]
        exact (all i).pready
      simp [Sample.ended,unanswered]
  | opened i item thread chosen others later held answers =>
    obtain ⟨_,_,enabled⟩ := inv.master.enabled thread
    have response : e.response = (e.slaves i).drv.vif := chosen.response
    have selected : e.now.psel ≠ 0 := by
      have set : ∀ i : Fin 2, 1#16 <<< i.val ≠ 0 := by decide
      change e.master.vif.psel ≠ 0
      rw [chosen.psel]
      exact set i
    have ends : e.now.ended = e.now.pready := ended_of_selected selected enabled
    obtain ⟨apart,waits,fails,gives⟩ := held.handed_opened (e.view i)
    have ready : (e.view i).pready = e.now.pready := by rw [Env.now,response]; rfl
    have err : (e.view i).pslverr = e.now.pslverr := by rw [Env.now,response]; rfl
    have rest (j : Fin 2) (dir : TrsType) (other : j ≠ i ∨ dir ≠ dirOf e.now) :
        handed dir ((e.slaves j).current dir) (e.view j) = [] := by
      by_cases here : j = i
      · subst here
        exact apart dir (other.resolve_left (not_not_intro rfl))
      · exact (others j here).inv.handed_closed dir _
    rw [ready] at waits fails gives
    rw [err] at fails gives
    cases pready : e.now.pready with
    | false =>
      refine .inl ⟨ends.trans pready,fun j dir => ?_⟩
      by_cases here : j = i ∧ dir = dirOf e.now
      · obtain ⟨rfl,rfl⟩ := here
        exact waits pready
      · exact rest j dir (by by_contra both; push Not at both; exact here both)
    | true =>
      refine .inr ⟨ends.trans pready,i,rest,fails pready,fun okay => ?_⟩
      obtain ⟨target,whole,reads⟩ := gives pready okay
      refine ⟨target,whole,?_⟩
      have data : (if dirOf e.now = .wr then (e.view i).pwdata else (e.view i).prdata) = e.now.transfer.data := by
        have prdata : (e.view i).prdata = e.now.prdata := by rw [Env.now,response]; rfl
        rw [Sample.transfer,dirOf,prdata]
        cases e.now.prwd <;> rfl
      rw [← data]
      exact reads
  | answered i item thread chosen others held finishing low => exact absurd (high.symm.trans low) Bool.true_eq_false.mp

theorem Inv.ending {e : Env aw dw} (inv : e.Inv) (order : Bool) (choice : Fin 2 → Choice) (quiet : e.runnable = false)
    (high : e.clk = true) :
    (e.negedge order choice).mon.collected = e.mon.collected ++ e.mon.ending (e.now,order) ∧
      List.Forall₂ Shows (if e.now.ended then [e.now.transfer] else []) (e.mon.ending (e.now,order)) := by
  have collected : (e.negedge order choice).mon.collected = e.mon.collected ++ e.mon.ending (e.now,order) :=
    e.mon.step_collected (e.now,order)
  have after := (inv.negedge order choice quiet high).collected
  rw [collected,show (e.negedge order choice).seen = e.seen ++ [e.now] from rfl,transfersOf_concat] at after
  have later := List.forall₂_drop_append _ _ _ after
  rw [← inv.collected.length_eq,List.drop_left] at later
  exact ⟨collected,later⟩

theorem prompt_eq {e : Env aw dw} (i : Fin 2)
    (others : ∀ j ≠ i, handed .rd ((e.slaves j).current .rd) (e.view j) = []) :
    e.prompt = (handed .wr e.mon.wr e.now).map .writeInitor ++
      (handed .rd ((e.slaves i).current .rd) (e.view i)).map .writeTarget := by
  rw [prompt,flatMap_single i fun j apart => by rw [others j apart,List.map_nil]]

theorem swapped_eq {e : Env aw dw} (i : Fin 2)
    (others : ∀ j ≠ i, handed .wr ((e.slaves j).current .wr) (e.view j) = []) :
    e.swapped = (handed .wr ((e.slaves i).current .wr) (e.view i)).map .writeTarget ++
      (handed .rd e.mon.rd e.now).map .writeInitor := by
  rw [swapped,flatMap_single i fun j apart => by rw [others j apart,List.map_nil]]

/-- An edge hands the scoreboard nothing, or both ends of the transfer that ends, in the order that it needs. -/
theorem Inv.hands {e : Env aw dw} (inv : e.Inv) (order : Bool) (choice : Fin 2 → Choice) (quiet : e.runnable = false)
    (high : e.clk = true) : ∃ more, (e.negedge order choice).mon.collected = e.mon.collected ++ more ∧
      ((more.filter (fun item => item.success) = [] ∧ e.prompt = [] ∧ e.swapped = []) ∨
        ∃ item target data, more = [item] ∧ item.success = true ∧ item.trsT ≠ .rdwr ∧ item.dataBeat = [data] ∧
          Scoreboard.Reads item.sequenceItem item.trsT item.addr data ∧
          Scoreboard.Reads target item.trsT item.addr data ∧
          [e.prompt,e.swapped] = (Scoreboard.exchange item.sequenceItem target).map fun c => [c]) := by
  obtain ⟨collected,shown⟩ := inv.ending order choice quiet high
  refine ⟨_,collected,?_⟩
  have typed : e.mon.Typed := by
    obtain ⟨samples,_,mon⟩ := inv.mon
    rw [mon]
    exact Monitor.after_typed samples
  rcases inv.slaves_handed high with ⟨goes,slaves⟩ | ⟨ends,i,others,fails,gives⟩
  · rw [goes] at shown
    have none := List.forall₂_nil_left_iff.mp shown
    obtain ⟨wr,rd⟩ := Monitor.handed_nil none
    rw [none,prompt_eq 0 fun j _ => slaves j .rd,swapped_eq 0 fun j _ => slaves j .wr,slaves,slaves,wr,rd]
    exact .inl ⟨rfl,rfl,rfl⟩
  · rw [ends] at shown
    obtain ⟨item,rest,shows,nothing,one⟩ := List.forall₂_cons_left_iff.mp shown
    rw [List.forall₂_nil_left_iff.mp nothing] at one
    obtain ⟨success,parts⟩ := typed.handed_one one
    have kind : item.trsT = dirOf e.now := shows.trsT
    have addr : item.addr = e.now.transfer.addr := shows.addr
    have sent : Scoreboard.Reads item.sequenceItem item.trsT item.addr (packData e.now.transfer.data) :=
      ⟨rfl,by rw [addr]; exact shows.addrs,shows.data,rfl⟩
    rw [← addr,← kind] at gives
    rw [← kind] at fails others
    rw [one,prompt_eq i fun j apart => others j .rd (.inl apart),swapped_eq i fun j apart => others j .wr (.inl apart)]
    rcases parts with ⟨dir,wr,rd⟩ | ⟨dir,wr,rd⟩
    · rw [dir] at fails gives
      rw [wr,rd,others i .rd (.inr (by rw [dir]; decide)),success]
      cases err : e.now.pslverr with
      | true => exact .inl (by simp [success,err,fails err])
      | false =>
        obtain ⟨target,whole,seen⟩ := gives err
        refine .inr ⟨item,target,_,rfl,success.trans (by rw [err]; rfl),by rw [dir]; decide,shows.data,sent,
          by rw [dir]; exact seen,?_⟩
        simp [Scoreboard.exchange,whole,CollItem.sequenceItem,dir]
    · rw [dir] at fails gives
      rw [wr,rd,others i .wr (.inr (by rw [dir]; decide)),success]
      cases err : e.now.pslverr with
      | true => exact .inl (by simp [success,err,fails err])
      | false =>
        obtain ⟨target,whole,seen⟩ := gives err
        refine .inr ⟨item,target,_,rfl,success.trans (by rw [err]; rfl),by rw [dir]; decide,shows.data,sent,
          by rw [dir]; exact seen,?_⟩
        simp [Scoreboard.exchange,whole,CollItem.sequenceItem,dir]

/-! ### Runs -/

/-- Only a falling edge concerns the scoreboard. -/
theorem step_regions (e : Env aw dw) (a : EnvAction aw dw) : (e.regions a = [] ∧ (e.step a).mon = e.mon) ∨
    ∃ order choice, e.runnable = false ∧ e.clk = true ∧ e.step a = e.negedge order choice ∧
      e.regions a = [e.prompt,e.swapped] := by
  cases a with
  | negedge order choice =>
    rw [step,regions]
    split
    · exact .inl ⟨rfl,rfl⟩
    next passes =>
      simp only [Bool.or_eq_true,not_or,Bool.not_eq_true,Bool.not_eq_false'] at passes
      exact .inr ⟨order,choice,passes.1,passes.2,rfl,rfl⟩
  | posedge | leave =>
    rw [step]
    split <;> exact .inl ⟨rfl,rfl⟩
  | arrive | configure | wake | slave => exact .inl ⟨rfl,rfl⟩

theorem calls_concat (mapCfgs : List MapCfg) (hasBlock blockPsel blockPenable : Bool) (config : Fin 2 → Bool × Bool)
    (actions : List (EnvAction aw dw)) (a : EnvAction aw dw) :
    calls mapCfgs hasBlock blockPsel blockPenable config (actions ++ [a]) =
      calls mapCfgs hasBlock blockPsel blockPenable config actions ++
        (after mapCfgs hasBlock blockPsel blockPenable config actions).regions a := by
  rw [calls,Machine.answers_append,List.flatten_append,← calls,after,← Machine.answers_run step regions]
  exact congrArg _ (List.append_nil _)

/-- The items collected without an error are compared in their order, each with the same data at both ends. There is
no error and no warning, and nothing waits. -/
structure Checked (collected : List (CollItem aw dw)) (scb : Scoreboard aw dw) : Prop where
  settled : Scoreboard.Settled scb
  silent : Scoreboard.alarms scb.log = []
  compared : Scoreboard.comparisons scb.log = (collected.filter fun item => item.success).map fun item =>
    (item.trsT,item.addr,item.dataBeat,item.dataBeat)

/-- In every admissible run, whatever the order of the calls in a region, the scoreboard checks all that the monitor of
the master has collected, and has nothing to report. -/
theorem checked_of_admissible (mapCfgs : List MapCfg) (hasBlock blockPsel blockPenable : Bool)
    (config : Fin 2 → Bool × Bool) (actions : List (EnvAction aw dw))
    (admissible : Admissible mapCfgs hasBlock blockPsel blockPenable config actions) (made : List (Call aw dw))
    (scheduled : Scheduled (calls mapCfgs hasBlock blockPsel blockPenable config actions) made) :
    Checked (after mapCfgs hasBlock blockPsel blockPenable config actions).mon.collected (Scoreboard.after made) := by
  induction actions using List.reverseRecOn generalizing made with
  | nil =>
    cases scheduled
    exact ⟨Scoreboard.initial_settled,rfl,rfl⟩
  | append_singleton actions a ih =>
    have before := ((Machine.meets_concat _ _ _ _ _).mp admissible).1
    have inv := after_inv before
    rw [calls_concat] at scheduled
    obtain ⟨earlier,now,rfl,left,right⟩ := scheduled.split
    obtain ⟨settled,silent,compared⟩ := ih before earlier left
    rw [after,Machine.run_concat,← after,Scoreboard.after,Machine.run_append,← Scoreboard.after]
    generalize after mapCfgs hasBlock blockPsel blockPenable config actions = e at inv right settled silent compared ⊢
    rcases e.step_regions a with ⟨nothing,mon⟩ | ⟨order,choice,quiet,high,edge,regions⟩
    · rw [nothing] at right
      cases right
      rw [mon]
      exact ⟨settled,silent,compared⟩
    · rw [regions] at right
      rw [edge]
      obtain ⟨more,collected,⟨failed,prompt,swapped⟩ | ⟨item,target,data,rfl,success,known,beat,sent,seen,both⟩⟩ :=
        inv.hands order choice quiet high
      · rw [prompt,swapped] at right
        rw [right.empty,collected]
        refine ⟨settled,silent,compared.trans ?_⟩
        rw [List.filter_append,failed,List.append_nil]
      · rw [both] at right
        obtain ⟨settled',silent',compared'⟩ := settled.exchange known sent seen
        rw [right.singles,collected]
        refine ⟨settled',silent'.trans silent,compared'.trans ?_⟩
        rw [compared,List.filter_append,List.map_append,List.filter_singleton,success,cond_true,List.map_singleton,beat]

theorem writtenThenRead_checked :
    let made := (calls [⟨0,0,15⟩,⟨1,16,31⟩] false false false (fun _ => (false,false)) writtenThenRead).flatten
    made.length = 4 ∧
      Checked (after [⟨0,0,15⟩,⟨1,16,31⟩] false false false (fun _ => (false,false)) writtenThenRead).mon.collected
        (Scoreboard.after made) :=
  ⟨by decide +kernel,checked_of_admissible [⟨0,0,15⟩,⟨1,16,31⟩] false false false (fun _ => (false,false))
    writtenThenRead writtenThenRead_admissible _ (scheduled_flatten _)⟩

end Env

end Smtdv.Apb
