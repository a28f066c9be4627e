import Mathlib.Data.List.Basic
import Smtdv.Lib.Machine

/-! `watch` and `timer` of `smtdv_thread_handler`, beside the threads that update their timestamps.
Time goes on by one when no task is due. -/
namespace Smtdv
open Lib

/-- A handler after its randomization. -/
structure WatchCfg where
  timewin : Nat
  sampwin : Nat
  c_timewin : 1000 ≤ timewin ∧ timewin ≤ 5000
  c_sampwin : 100 ≤ sampwin ∧ sampwin ≤ 300
  hasTimer : Bool
  fullName : String

/-- An entry of `thread_q`. -/
structure WatchedThread where
  on : Bool
  timestamp : Nat := 0
  hasFail : Bool := false
  errMsg : String := ""
  deriving DecidableEq

/-- `timers` has the times at which the tasks forked by `watch` go on, `reports` the places in `threadQ`
of the threads that were reported. -/
structure Watchdog where
  time : Nat := 0
  prestamp : Nat := 0
  curstamp : Nat := 0
  threadQ : List WatchedThread
  timers : List Nat := []
  reports : List Nat := []
  deriving DecidableEq

/-- A unit of time passes, a thread calls `update_timestamp`, the component calls `watch`, a task whose time
has come goes on, or `disable fork` ends the tasks. -/
inductive WatchdogAction
  | tick
  | update (k : Nat)
  | watch
  | wake (k : Nat)
  | disableFork
  deriving DecidableEq

namespace Watchdog

def watch (cfg : WatchCfg) (w : Watchdog) : Watchdog :=
  if cfg.hasTimer then {w with prestamp := w.time, timers := w.timers ++ [w.time+cfg.sampwin]} else w

/-- Whether `timer` takes a thread for dead. -/
def late (cfg : WatchCfg) (curstamp : Nat) (th : WatchedThread) : Bool :=
  th.on && cfg.timewin < curstamp - th.timestamp

def fail (cfg : WatchCfg) (th : WatchedThread) : WatchedThread :=
  {th with
    hasFail := true
    errMsg := "RUN OUT OF THREAD LIFETIME, PLEASE ADD .update_timestamp() AT " ++ cfg.fullName}

/-- What `timer` does after its delay. -/
def timer (cfg : WatchCfg) (w : Watchdog) : Watchdog :=
  let w := {w with curstamp := w.time}
  if cfg.timewin ≤ w.curstamp - w.prestamp then
    {w with
      threadQ := w.threadQ.map fun th => if late cfg w.curstamp th then fail cfg th else th
      reports := w.reports ++ (w.threadQ.zipIdx.filter fun th => late cfg w.curstamp th.1).map Prod.snd}
  else {w with prestamp := w.curstamp}

def step (cfg : WatchCfg) (w : Watchdog) : WatchdogAction → Watchdog
  | .tick => if w.timers.any (· ≤ w.time) then w else {w with time := w.time+1}
  | .update k => {w with threadQ := w.threadQ.modify k fun th => {th with timestamp := w.time}}
  | .watch => w.watch cfg
  | .wake k =>
    match w.timers[k]? with
    | none => w
    | some due => if due ≤ w.time then timer cfg {w with timers := w.timers.eraseIdx k} else w
  | .disableFork => {w with timers := []}

/-- The threads are registered when the simulation begins. -/
def after (cfg : WatchCfg) (ons : List Bool) (actions : List WatchdogAction) : Watchdog :=
  Machine.run (step cfg) {threadQ := ons.map fun on => {on := on}} actions

/-- The timestamp of an enabled thread is older than the window. -/
def Older (cfg : WatchCfg) (w : Watchdog) (k : Nat) : Prop :=
  ∃ th, w.threadQ[k]? = some th ∧ th.on = true ∧ cfg.timewin < w.time - th.timestamp

/-- A thread is older at some point of the run, does not update its timestamp after that, and so many
sampling windows go by. -/
structure Dead (cfg : WatchCfg) (ons : List Bool) (windows : Nat) (before rest : List WatchdogAction) (k : Nat) : Prop where
  older : Older cfg (after cfg ons before) k
  silent : .update k ∉ rest
  long : (after cfg ons before).time + windows * cfg.sampwin ≤ (after cfg ons (before ++ rest)).time

def Flagged (w : Watchdog) (k : Nat) : Prop := ∃ th, w.threadQ[k]? = some th ∧ th.hasFail = true

/-- The watchdog does its work with so many sampling windows to do it in. -/
structure Watched (cfg : WatchCfg) (ons : List Bool) (windows : Nat) (actions : List WatchdogAction) : Prop where
  live : ∀ before rest, before ++ rest <+: actions → ∀ k, Dead cfg ons windows before rest k →
    Flagged (after cfg ons (before ++ rest)) k ∧ k ∈ (after cfg ons (before ++ rest)).reports
  safe : ∀ before a, before ++ [a] <+: actions → ∀ k, ¬Flagged (after cfg ons before) k →
    Flagged (after cfg ons (before ++ [a])) k → Older cfg (after cfg ons before) k

/-- No timer is due to find the window gone by: each was started when the last sample was taken, or before. -/
structure Gated (cfg : WatchCfg) (w : Watchdog) : Prop where
  sampled : w.prestamp ≤ w.time
  due : ∀ due ∈ w.timers, w.time ≤ due ∧ due ≤ w.prestamp+cfg.sampwin
  quiet : ∀ th ∈ w.threadQ, th.hasFail = false
  silent : w.reports = []

theorem timer_gated (cfg : WatchCfg) {w : Watchdog} (gated : w.Gated cfg) (k due : Nat) (here : w.timers[k]? = some due)
    (now : due ≤ w.time) : (timer cfg {w with timers := w.timers.eraseIdx k}).Gated cfg := by
  have bound := gated.due due (List.mem_of_getElem? here)
  have closed : ¬cfg.timewin ≤ w.time - w.prestamp := by
    have window := cfg.c_timewin.1
    have sample := cfg.c_sampwin.2
    omega
  unfold timer
  dsimp only
  rw [if_neg closed]
  refine ⟨Nat.le_refl _,fun other inside => ?_,gated.quiet,gated.silent⟩
  have before := gated.due other (List.mem_of_mem_eraseIdx inside)
  have sampled := gated.sampled
  exact ⟨before.1,by dsimp only; omega⟩

theorem step_gated (cfg : WatchCfg) (w : Watchdog) (a : WatchdogAction) (gated : w.Gated cfg) : (w.step cfg a).Gated cfg := by
  cases a with
  | tick =>
    rw [step]
    split
    · exact gated
    · next none =>
      refine ⟨Nat.le_succ_of_le gated.sampled,fun due inside => ⟨?_,(gated.due due inside).2⟩,gated.quiet,gated.silent⟩
      by_contra past
      exact none (List.any_eq_true.mpr ⟨due,inside,decide_eq_true (Nat.lt_succ_iff.mp (Nat.lt_of_not_le past))⟩)
  | update k =>
    refine ⟨gated.sampled,gated.due,fun th inside => ?_,gated.silent⟩
    obtain ⟨i,place⟩ := List.mem_iff_getElem?.mp inside
    rw [step,List.getElem?_modify] at place
    obtain ⟨old,stored,rfl⟩ := Option.map_eq_some_iff.mp place
    have quiet := gated.quiet old (List.mem_of_getElem? stored)
    split <;> exact quiet
  | watch =>
    rw [step,watch]
    split
    · refine ⟨Nat.le_refl _,fun due inside => ?_,gated.quiet,gated.silent⟩
      have sampled := gated.sampled
      rcases List.mem_append.mp inside with old | new
      · have before := gated.due due old
        exact ⟨before.1,by dsimp only; omega⟩
      · rw [List.mem_singleton.mp new]
        exact ⟨Nat.le_add_right _ _,Nat.le_refl _⟩
    · exact gated
  | wake k =>
    rw [step]
    split
    · exact gated
    · next due here =>
      split
      · next now => exact timer_gated cfg gated k due here now
      · exact gated
  | disableFork => exact ⟨gated.sampled,fun due inside => absurd inside List.not_mem_nil,gated.quiet,gated.silent⟩

theorem after_gated (cfg : WatchCfg) (ons : List Bool) (actions : List WatchdogAction) : (after cfg ons actions).Gated cfg := by
  refine Machine.run_induction (step_gated cfg) actions ⟨Nat.le_refl 0,fun due inside => absurd inside List.not_mem_nil,?_,rfl⟩
  intro th inside
  obtain ⟨on,-,rfl⟩ := List.mem_map.mp inside
  rfl

theorem not_flagged (cfg : WatchCfg) (ons : List Bool) (actions : List WatchdogAction) (k : Nat) :
    ¬Flagged (after cfg ons actions) k := by
  rintro ⟨th,here,failed⟩
  have quiet := (after_gated cfg ons actions).quiet th (List.mem_of_getElem? here)
  rw [quiet] at failed
  contradiction

/-- Nothing is ever flagged, so the watchdog is right in the runs in which no enabled thread is dead. -/
theorem watched_iff (cfg : WatchCfg) (ons : List Bool) (windows : Nat) (actions : List WatchdogAction) :
    Watched cfg ons windows actions ↔
      ∀ before rest, before ++ rest <+: actions → ∀ k, ¬Dead cfg ons windows before rest k := by
  constructor
  · intro watched before rest inside k dead
    exact not_flagged cfg ons _ k (watched.live before rest inside k dead).1
  · intro alive
    refine ⟨fun before rest inside k dead => absurd dead (alive before rest inside k),fun before a _ k _ flagged => ?_⟩
    exact absurd flagged (not_flagged cfg ons _ k)

theorem ticks (cfg : WatchCfg) {w : Watchdog} (n : Nat) (free : ∀ due ∈ w.timers, w.time+n ≤ due) :
    Machine.run (step cfg) w (List.replicate n .tick) = {w with time := w.time+n} := by
  induction n with
  | zero => rfl
  | succ n ih =>
    rw [List.replicate_succ',Machine.run_concat,ih fun due inside => Nat.le_of_succ_le (free due inside),step,if_neg]
    · rfl
    · intro blocked
      obtain ⟨due,inside,now⟩ := List.any_eq_true.mp blocked
      exact absurd (of_decide_eq_true now) (Nat.not_le.mpr (free due inside))

/-- The shortest windows, and a thread that never updates its timestamp. -/
def shortest : WatchCfg := ⟨1000,100,by decide,by decide,true,""⟩

def firstSample : List WatchdogAction := [.watch] ++ List.replicate 100 .tick ++ [.wake 0]

/-- No number of windows is enough: after its first sample the watchdog takes no other. -/
theorem shortest_not_watched : ¬∃ windows, ∀ actions, Watched shortest [true] windows actions := by
  rintro ⟨windows,watched⟩
  have sampled : after shortest [true] firstSample = ⟨100,100,100,[{on := true}],[],[]⟩ := by
    rw [after,firstSample,Machine.run_append,Machine.run_append,ticks shortest 100 (by decide)]
    rfl
  have time (n : Nat) : after shortest [true] (firstSample ++ List.replicate n .tick) =
      ⟨100+n,100,100,[{on := true}],[],[]⟩ := by
    rw [after,Machine.run_append,← after,sampled,ticks shortest n fun due inside => absurd inside List.not_mem_nil]
  have dead : Dead shortest [true] windows (firstSample ++ List.replicate 901 .tick)
      (List.replicate (windows*100) .tick) 0 := by
    refine ⟨?_,by simp,?_⟩
    · rw [time]
      exact ⟨{on := true},rfl,rfl,by decide⟩
    · rw [List.append_assoc,← List.replicate_add,time,time]
      change 100+901+windows*100 ≤ 100+(901+windows*100)
      omega
  exact not_flagged shortest [true] _ 0 ((watched _).live _ _ (List.prefix_refl _) 0 dead).1

end Watchdog

end Smtdv
