import Smtdv.Apb.Bounded
import Mathlib.Algebra.GroupWithZero.Nat

/-! What the processes of the bench do between two edges of the clock. Each turn leaves them less to do, so time
goes on. -/
namespace Smtdv.Apb
open Lib

variable {aw dw : Nat}

/-- What the thread can still do before time passes. -/
def Driver.work (s : Driver aw dw) : Nat :=
  match s.thread with
  | .block => 2
  | .get => 1
  | _ => 0

theorem Driver.waitCyc_work (s : Driver aw dw) (item : Item aw dw) : (s.waitCyc item).work = 0 := by
  rw [waitCyc]
  split
  · unfold repeatPsel
    split <;> rfl
  · rfl

theorem Driver.wake_runs {s : Driver aw dw} (runs : s.runnable = true) : s.wake.work < s.work := by
  cases thread : s.thread with
  | block =>
    simp only [runnable,thread,Bool.not_eq_true'] at runs
    simp [wake,work,thread,runs]
  | get =>
    simp only [runnable,thread,Bool.not_eq_true',List.isEmpty_eq_false_iff] at runs
    simp only [wake,thread]
    split
    next sorted => exact absurd (TwinQueue.sort_eq_nil.mp sorted) runs
    next =>
      rw [waitCyc_work,work,thread]
      exact Nat.one_pos
  | cyc | psel | setup | penable | access =>
    simp only [runnable,thread] at runs
    cases runs

theorem Driver.wake_quiet {s : Driver aw dw} (quiet : s.runnable = false) : s.wake = s := by
  cases thread : s.thread with
  | block =>
    simp only [runnable,thread,Bool.not_eq_false'] at quiet
    simp [wake,thread,quiet]
  | get =>
    simp only [runnable,thread,Bool.not_eq_false',List.isEmpty_iff] at quiet
    simp [wake,thread,quiet,TwinQueue.sort]
  | cyc | psel | setup | penable | access => simp [wake,thread]

namespace SlaveAgent

/-- The turns that an item can still take, from the fifo of the sequencer on. -/
def work (s : SlaveAgent aw dw) : Nat :=
  7*(s.base.items.length-s.base.fetched)+5*s.base.forked+4*s.base.ready+2*(s.base.mbox.length-s.noted)+
    s.base.writers.length+s.drv.mbox.length+(if s.base.rcv = .get then 1 else 0)

/-- A turn that goes on leaves less to do, and another leaves all as it is. -/
def Turned (s t : SlaveAgent aw dw) (goes : Prop) : Prop := (goes → t.work < s.work) ∧ (¬ goes → t = s)

theorem wake_turned (s : SlaveAgent aw dw) : s.Turned {s with drv := s.drv.wake} (s.drv.runnable = true) := by
  constructor
  · intro runs
    cases thread : s.drv.thread with
    | get =>
      simp only [SlaveDriver.runnable,thread,Bool.not_eq_true',List.isEmpty_eq_false_iff] at runs
      simp only [SlaveDriver.wake,thread]
      split
      next sorted => exact absurd (TwinQueue.sort_eq_nil.mp sorted) runs
      next item rest sorted =>
        have size : s.drv.mbox.length = rest.length+1 := by
          rw [← List.length_cons,← sorted,TwinQueue.sort,List.length_insertionSort]
        simp only [work,size]
        omega
    | access | pready | cyc | finish =>
      simp only [SlaveDriver.runnable,thread] at runs
      cases runs
  · intro quiet
    have same : s.drv.wake = s.drv := by
      cases thread : s.drv.thread with
      | get =>
        simp only [SlaveDriver.runnable,thread,Bool.not_eq_true,Bool.not_eq_false',List.isEmpty_iff] at quiet
        simp [SlaveDriver.wake,thread,quiet,TwinQueue.sort]
      | access | pready | cyc | finish => simp [SlaveDriver.wake,thread]
    rw [same]

/-- `rcv_from_mon` takes an item, or blocks, which lets the handlers of write items start. -/
theorem get_turned (s : SlaveAgent aw dw) :
    s.Turned s.get (s.base.rcv = .get ∨
      s.base.rcv = .blocked ∧ (s.base.fetched < s.base.items.length ∨ 0 < s.base.forked)) := by
  have sets (base : SlaveBaseSeq.State) (same : SlaveBaseSeq.rcvFromMon s.base s.mem.hasLock = base) :
      s.get.work = work {s with base := base} := by
    rw [get,same]
    simp only
    split <;> rfl
  constructor
  · intro goes
    have turn : s.base.rcv = .get ∨ s.base.rcv = .blocked := goes.imp id And.left
    rw [sets _ rfl,SlaveBaseSeq.rcvFromMon,if_pos turn]
    split
    next all =>
      have none := List.getElem?_eq_none_iff.mp all
      rcases goes with rcv | ⟨rcv,more | forked⟩
      · simp only [work,SlaveBaseSeq.block,rcv,if_true,reduceCtorEq,if_false]
        omega
      · omega
      · simp only [work,SlaveBaseSeq.block,rcv,reduceCtorEq,if_false]
        omega
    next trs next =>
      have inside := (List.getElem?_eq_some_iff.mp next).1
      have less : 7*(s.base.items.length-(s.base.fetched+1))+7 = 7*(s.base.items.length-s.base.fetched) := by omega
      cases trs with
      | rd =>
        simp only
        split
        · simp only [work,SlaveBaseSeq.block,reduceCtorEq,if_false]
          omega
        · simp only [work,List.length_append,List.length_singleton,if_true]
          omega
      | wr =>
        simp only [work,if_true]
        omega
      | rdwr =>
        simp only [work,reduceCtorEq,if_false]
        omega
  · intro stays
    have same : SlaveBaseSeq.rcvFromMon s.base s.mem.hasLock = s.base := by
      rw [SlaveBaseSeq.rcvFromMon]
      split
      next turn =>
        have rcv := turn.resolve_left fun rcv => stays (.inl rcv)
        have all : s.base.items.length ≤ s.base.fetched := Nat.le_of_not_lt fun more => stays (.inr ⟨rcv,.inl more⟩)
        have none : s.base.forked = 0 := Nat.eq_zero_of_not_pos fun forked => stays (.inr ⟨rcv,.inr forked⟩)
        rw [List.getElem?_eq_none all,SlaveBaseSeq.block,none,Nat.add_zero,← rcv]
        simp only
        rw [← none]
      next => rfl
    rw [get,same]
    simp

theorem start_turned (s : SlaveAgent aw dw) :
    s.Turned {s with base := SlaveBaseSeq.start s.base} (0 < s.base.ready) := by
  constructor
  · intro ready
    rw [SlaveBaseSeq.start,if_pos ready]
    simp only [work,List.length_append,List.length_singleton]
    omega
  · intro none
    rw [SlaveBaseSeq.start,if_neg none]

theorem store_turned (s : SlaveAgent aw dw) (w : Nat) :
    s.Turned (s.store w) (w ∈ s.base.writers ∧ w ∈ s.base.completed ∧ s.mem.hasLock = false) := by
  constructor
  · intro ends
    have one := List.length_pos_of_mem ends.1
    rw [store,if_pos ends,SlaveBaseSeq.finishWrite,if_pos ⟨ends.1,ends.2.1⟩]
    simp only [work,List.length_erase_of_mem ends.1]
    omega
  · intro waits
    rw [store,if_neg waits]

theorem note_turned (s : SlaveAgent aw dw) :
    s.Turned s.note (s.request = true ∧ s.noted < s.base.mbox.length) := by
  constructor
  · rintro ⟨request,more⟩
    have boxes (item : SlaveItem aw dw) : (s.drv.driveBus item).mbox.length ≤ s.drv.mbox.length+1 := by
      rw [SlaveDriver.driveBus]
      split
      · simp
      · simp
      · omega
    rw [note,request,List.getElem?_eq_getElem more]
    have bound := boxes (s.object s.base.mbox[s.noted]).req
    simp only [work]
    omega
  · intro stays
    rw [note]
    split
    next r request next => exact absurd ⟨request,(List.getElem?_eq_some_iff.mp next).1⟩ stays
    next => rfl

end SlaveAgent

def EnvAction.Turn : EnvAction aw dw → Prop
  | .wake => True
  | .slave _ (.configure _ _) => False
  | .slave _ _ => True
  | _ => False

namespace SlaveAgent

theorem step_work {s : SlaveAgent aw dw} {i : Fin 2} {a : SlaveAction}
    (turn : (EnvAction.slave i a : EnvAction aw dw).Turn) :
    s.step a = s ∨ (s.step a).work < s.work := by
  have either {t : SlaveAgent aw dw} {goes : Prop} (turned : s.Turned t goes) : t = s ∨ t.work < s.work := by
    by_cases goes : goes
    · exact .inr (turned.1 goes)
    · exact .inl (turned.2 goes)
  cases a with
  | configure blockPready hasError => exact turn.elim
  | wake => exact either s.wake_turned
  | get => exact either s.get_turned
  | start => exact either s.start_turned
  | store w => exact either (s.store_turned w)
  | note => exact either s.note_turned

theorem runs {s : SlaveAgent aw dw} (i : Fin 2) (runs : s.runnable = true) :
    ∃ a, (EnvAction.slave i a : EnvAction aw dw).Turn ∧ (s.step a).work < s.work := by
  simp only [runnable,Bool.or_eq_true,decide_eq_true_eq,Bool.and_eq_true,List.any_eq_true] at runs
  obtain ((((driver | rcv) | more) | ready) | ⟨w,inside,ends⟩) | notes := runs
  · exact ⟨.wake,trivial,s.wake_turned.1 driver⟩
  · exact ⟨.get,trivial,s.get_turned.1 (.inl rcv)⟩
  · exact ⟨.get,trivial,s.get_turned.1 (.inr ⟨more.1,.inl more.2⟩)⟩
  · exact ⟨.start,trivial,s.start_turned.1 ready⟩
  · exact ⟨.store w,trivial,(s.store_turned w).1 ⟨inside,ends⟩⟩
  · exact ⟨.note,trivial,s.note_turned.1 notes⟩

theorem quiet {s : SlaveAgent aw dw} {begun : Prop} (eager : s.Eager begun) (quiet : s.runnable = false) {i : Fin 2}
    {a : SlaveAction} (turn : (EnvAction.slave i a : EnvAction aw dw).Turn) : s.step a = s := by
  simp only [runnable,Bool.or_eq_false_iff,decide_eq_false_iff_not,Bool.and_eq_false_iff,List.any_eq_false,
    decide_eq_true_eq] at quiet
  obtain ⟨⟨⟨⟨⟨driver,rcv⟩,more⟩,ready⟩,ends⟩,notes⟩ := quiet
  cases a with
  | configure blockPready hasError => exact turn.elim
  | wake => exact s.wake_turned.2 (by simp [driver])
  | get =>
    refine s.get_turned.2 ?_
    rintro (get | ⟨blocked,left | forked⟩)
    · exact rcv get
    · exact more ⟨blocked,left⟩
    · exact eager.forked forked blocked
  | start => exact s.start_turned.2 ready
  | store w => exact (s.store_turned w).2 fun all => ends w all.1 all.2
  | note =>
    refine s.note_turned.2 fun all => ?_
    rcases notes with request | noted
    · exact Bool.noConfusion (all.1.symm.trans request)
    · exact noted all.2

end SlaveAgent

namespace Env

def work (e : Env aw dw) : Nat := e.master.work+(List.ofFn fun i => (e.slaves i).work).sum

theorem step_work (e : Env aw dw) (a : EnvAction aw dw) (turn : a.Turn) (moves : e.step a ≠ e) :
    (e.step a).work < e.work := by
  cases a with
  | posedge | negedge | leave | arrive | configure => exact turn.elim
  | wake =>
    cases runs : e.master.runnable with
    | true => exact Nat.add_lt_add_right (Driver.wake_runs runs) _
    | false =>
      refine absurd ?_ moves
      rw [step,Driver.step,Driver.wake_quiet runs]
  | slave i a =>
    rcases SlaveAgent.step_work turn (s := e.slaves i) with same | less
    · refine absurd ?_ moves
      rw [step,same,Function.update_eq_self]
    · have sum : ∀ i : Fin 2, ∀ s : SlaveAgent aw dw, s.work < (e.slaves i).work →
          (List.ofFn fun j => (Function.update e.slaves i s j).work).sum <
            (List.ofFn fun j => (e.slaves j).work).sum := by
        simp only [List.ofFn_succ,List.ofFn_zero,List.sum_cons,List.sum_nil]
        rw [Fin.forall_fin_two]
        constructor
        · intro s less
          rw [Function.update_self,Function.update_of_ne (by decide)]
          omega
        · intro s less
          rw [Function.update_of_ne (by decide),show Fin.succ 0 = (1 : Fin 2) from rfl,Function.update_self]
          omega
      exact Nat.add_lt_add_left (sum i _ less) _

theorem runs {e : Env aw dw} (runs : e.runnable = true) : ∃ a : EnvAction aw dw, a.Turn ∧ e.step a ≠ e := by
  have slave (i : Fin 2) (runs : (e.slaves i).runnable = true) : ∃ a : EnvAction aw dw, a.Turn ∧ e.step a ≠ e := by
    obtain ⟨a,turn,less⟩ := SlaveAgent.runs i runs
    refine ⟨.slave i a,turn,fun same => ?_⟩
    have here : (e.step (.slave i a)).slaves i = e.slaves i := by rw [same]
    change Function.update e.slaves i ((e.slaves i).step a) i = e.slaves i at here
    rw [Function.update_self] at here
    rw [here] at less
    exact Nat.lt_irrefl _ less
  rw [runnable,Bool.or_eq_true,Bool.or_eq_true] at runs
  obtain (master | first) | second := runs
  · refine ⟨.wake,trivial,fun same => ?_⟩
    have less := Driver.wake_runs master
    have here : (e.step .wake).master = e.master := by rw [same]
    change e.master.wake = e.master at here
    rw [here] at less
    exact Nat.lt_irrefl _ less
  · exact slave 0 first
  · exact slave 1 second

theorem quiet {e : Env aw dw} {bound : Nat} (pace : e.Pace bound) (quiet : e.runnable = false) {a : EnvAction aw dw}
    (turn : a.Turn) : e.step a = e := by
  obtain ⟨master,slaves⟩ := quiet_parts quiet
  cases a with
  | posedge | negedge | leave | arrive | configure => exact turn.elim
  | wake => rw [step,Driver.step,Driver.wake_quiet master]
  | slave i a => rw [step,SlaveAgent.quiet (pace.eager i) (slaves i) turn,Function.update_eq_self]

theorem exists_draws (actions : List (EnvAction aw dw)) : ∃ bound, ∀ a ∈ actions, Draws bound a := by
  induction actions with
  | nil => exact ⟨0,fun _ inside => (List.not_mem_nil inside).elim⟩
  | cons a rest ih =>
    obtain ⟨bound,all⟩ := ih
    have mono {small large : Nat} (le : small ≤ large) (b : EnvAction aw dw) (draws : Draws small b) :
        Draws large b := by
      cases b with
      | negedge order choice => exact fun i => (draws i).trans (Int.ofNat_le.mpr le)
      | posedge | leave | arrive | configure | wake | slave => trivial
    have first : ∃ bound, Draws bound a := by
      cases a with
      | negedge order choice =>
        refine ⟨max (choice 0).preadyL2H.toNat (choice 1).preadyL2H.toNat,Fin.forall_fin_two.mpr ?_⟩
        omega
      | posedge | leave | arrive | configure | wake | slave => exact ⟨0,trivial⟩
    obtain ⟨other,draws⟩ := first
    refine ⟨max bound other,fun b inside => ?_⟩
    rcases List.mem_cons.mp inside with rfl | later
    · exact mono (Nat.le_max_right _ _) b draws
    · exact mono (Nat.le_max_left _ _) b (all b later)

theorem turn_allowed {e : Env aw dw} {a : EnvAction aw dw} (turn : a.Turn) : e.Routed a := by
  cases a with
  | posedge | negedge | leave | arrive | configure => exact turn.elim
  | wake | slave => trivial

/-- In every admissible run, in whatever order the processes take their turns between two edges, they come to an
end, and time passes exactly when none of them would change anything. -/
theorem turns_of_admissible (mapCfgs : List MapCfg) (hasBlock blockPsel blockPenable : Bool)
    (config : Fin 2 → Bool × Bool) (actions turns : List (EnvAction aw dw))
    (admissible : Admissible mapCfgs hasBlock blockPsel blockPenable config actions) (all : ∀ a ∈ turns, a.Turn) :
    let e := after mapCfgs hasBlock blockPsel blockPenable config actions
    (Machine.Meets step (fun e a => e.step a ≠ e) e turns → turns.length ≤ e.work) ∧
      ((Machine.run step e turns).runnable = false ↔
        ∀ a : EnvAction aw dw, a.Turn → (Machine.run step e turns).step a = Machine.run step e turns) := by
  intro e
  refine ⟨fun met => Machine.length_le_measure step_work all met,fun idle a turn => ?_,fun still => ?_⟩
  · have whole : Admissible mapCfgs hasBlock blockPsel blockPenable config (actions ++ turns) :=
      (Machine.meets_append _ _ _ _ _).mpr ⟨admissible,(Machine.meets_of_forall all).mono fun _ _ => turn_allowed⟩
    obtain ⟨bound,draws⟩ := exists_draws (actions ++ turns)
    have pace := after_pace whole draws
    rw [after,Machine.run_append] at pace
    exact quiet pace idle turn
  · by_contra busy
    obtain ⟨a,turn,moves⟩ := runs (Bool.not_eq_false _ ▸ busy)
    exact moves (still a turn)

theorem writtenThenRead_turns :
    let e := Machine.run step (after [⟨0,0,15⟩,⟨1,16,31⟩] false false false (fun _ => (false,false))
      (writtenThenRead.take 10)) [.slave 1 .get,.slave 1 .get,.slave 1 .start,.slave 1 .note,.slave 1 .wake]
    e.runnable = false ∧ ∀ a : EnvAction 8 8, a.Turn → e.step a = e := by
  have admissible : Admissible [⟨0,0,15⟩,⟨1,16,31⟩] false false false (fun _ => (false,false))
      (writtenThenRead.take 10) := by
    unfold Admissible
    decide +kernel
  have turns := turns_of_admissible [⟨0,0,15⟩,⟨1,16,31⟩] false false false (fun _ => (false,false))
    (writtenThenRead.take 10) [.slave 1 .get,.slave 1 .get,.slave 1 .start,.slave 1 .note,.slave 1 .wake] admissible
    (by simp [EnvAction.Turn])
  have idle : (Machine.run step (after [⟨0,0,15⟩,⟨1,16,31⟩] false false false (fun _ => (false,false))
      (writtenThenRead.take 10))
      [.slave 1 .get,.slave 1 .get,.slave 1 .start,.slave 1 .note,.slave 1 .wake]).runnable = false := by
    decide +kernel
  exact ⟨idle,turns.2.mp idle⟩

end Env

end Smtdv.Apb
