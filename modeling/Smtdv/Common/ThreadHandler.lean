import Mathlib.Data.List.Induction
import Smtdv.Lib.Machine

/-! `smtdv_thread_handler`, and the `run_phase` by which drivers, monitors and the scoreboard
start their threads after a reset. A class runs its handlers in `run_threads` and resets
those that its own reset function names. -/
namespace Smtdv
open Lib

inductive ThreadName
  | smtdvForceVif | smtdvRspBack
  | ahbMasterDriveAddr | ahbMasterDriveData | ahbSlaveDriveAddr | ahbSlaveDriveData
  | apbMasterDriveItems | apbSlaveDriveItems
  | uartRxDriveItems | uartRxSampleRate
  | ahbCollectAddrItems | ahbCollectDataItems | ahbCollectStopSignal | ahbCollectCoverGroup
  | ahbExportCollectedItems | ahbUpdateNotifyLabels | ahbSnoopBackdoorLabels
  | apbCollectWriteItems | apbCollectReadItems | apbCollectStopSignal | apbCollectCoverGroup
  | apbExportCollectedItems | apbUpdateNotifyLabels | apbSnoopBackdoorLabels
  | uartGenSampleRate | uartStartSynchronizer | uartSampleAndStore | uartCollectStopSignal
  | uartCollectCoverGroup | uartExportCollectedItems
  | smtdvWatchWrLifetime | smtdvWatchRdLifetime | smtdvMemBkdorWrComp | smtdvMemBkdorRdComp
  deriving DecidableEq

/-- A registered thread, with how many of its processes `disable fork` has not killed. -/
structure RunThread where
  name : ThreadName
  hasFinalize : Bool := false
  running : Nat := 0
  deriving DecidableEq

abbrev ThreadHandler := List RunThread

namespace ThreadHandler

def reset (handler : ThreadHandler) : ThreadHandler := handler.map fun th => {th with hasFinalize := false}

def run (handler : ThreadHandler) : ThreadHandler :=
  handler.map fun th => if th.hasFinalize then th else {th with hasFinalize := true, running := th.running+1}

def disableFork (handler : ThreadHandler) : ThreadHandler := handler.map fun th => {th with running := 0}

end ThreadHandler

/-- A component in its `run_phase`: it waits for `resetn`, or has started its threads and
waits for `resetn` to fall. `starts` counts the starts of a run. -/
structure Component where
  bkHandler : ThreadHandler
  thHandler : ThreadHandler
  resetn : Bool
  starts : Nat
  deriving DecidableEq

/-- The classes with a `run_phase` of this kind. -/
inductive Cls
  | smtdvDriver | ahbMasterDriver | ahbSlaveDriver | apbMasterDriver | apbSlaveDriver | uartRxDriver
  | smtdvMonitor | ahbMonitor | apbMonitor | uartMonitor
  | smtdvScoreboard
  deriving DecidableEq

namespace Cls

/-- What `connect_phase` adds to `bk_handler`. -/
def bkHandler : Cls → List ThreadName
  | smtdvDriver | ahbMasterDriver | ahbSlaveDriver | apbMasterDriver | apbSlaveDriver | uartRxDriver =>
    [.smtdvForceVif,.smtdvRspBack]
  | smtdvMonitor | ahbMonitor | apbMonitor | uartMonitor | smtdvScoreboard => []

/-- What `connect_phase` adds to `th_handler`. -/
def thHandler : Cls → List ThreadName
  | smtdvDriver | smtdvMonitor => []
  | ahbMasterDriver => [.ahbMasterDriveAddr,.ahbMasterDriveData]
  | ahbSlaveDriver => [.ahbSlaveDriveAddr,.ahbSlaveDriveData]
  | apbMasterDriver => [.apbMasterDriveItems]
  | apbSlaveDriver => [.apbSlaveDriveItems]
  | uartRxDriver => [.uartRxDriveItems,.uartRxSampleRate]
  | ahbMonitor => [.ahbCollectAddrItems,.ahbCollectDataItems,.ahbCollectStopSignal,.ahbCollectCoverGroup,
      .ahbExportCollectedItems,.ahbUpdateNotifyLabels,.ahbSnoopBackdoorLabels]
  | apbMonitor => [.apbCollectWriteItems,.apbCollectReadItems,.apbCollectStopSignal,.apbCollectCoverGroup,
      .apbExportCollectedItems,.apbUpdateNotifyLabels,.apbSnoopBackdoorLabels]
  | uartMonitor => [.uartGenSampleRate,.uartStartSynchronizer,.uartSampleAndStore,.uartCollectStopSignal,
      .uartCollectCoverGroup,.uartExportCollectedItems]
  | smtdvScoreboard => [.smtdvWatchWrLifetime,.smtdvWatchRdLifetime,.smtdvMemBkdorWrComp,.smtdvMemBkdorRdComp]

/-- `reset_driver`, `reset_monitor` or `reset_scoreboard`; no override calls `super`. -/
def reset (c : Component) : Cls → Component
  | smtdvDriver => {c with bkHandler := c.bkHandler.reset}
  | ahbMasterDriver => {c with thHandler := c.thHandler.reset}
  | ahbSlaveDriver => c
  | apbMasterDriver => {c with thHandler := c.thHandler.reset}
  | apbSlaveDriver => c
  | uartRxDriver => c
  | smtdvMonitor | ahbMonitor | apbMonitor | uartMonitor => c
  | smtdvScoreboard => {c with thHandler := c.thHandler.reset}

/-- `run_threads`; an override calls `super` first. -/
def runThreads (c : Component) : Cls → Component
  | smtdvDriver | smtdvMonitor => {c with bkHandler := c.bkHandler.run}
  | ahbMasterDriver | ahbSlaveDriver | apbMasterDriver | apbSlaveDriver | uartRxDriver
  | ahbMonitor | apbMonitor | uartMonitor =>
    {c with bkHandler := c.bkHandler.run, thHandler := c.thHandler.run}
  | smtdvScoreboard => {c with thHandler := c.thHandler.run}

end Cls

namespace Component

inductive Event
  | assert | deassert
  deriving DecidableEq

/-- `wait(resetn)` has returned. -/
def start (cls : Cls) (c : Component) : Component := {cls.runThreads c with resetn := true, starts := c.starts+1}

/-- `@(negedge resetn)` has returned: `disable fork`, and the reset at the top of the loop. -/
def stop (cls : Cls) (c : Component) : Component :=
  cls.reset {c with
    bkHandler := c.bkHandler.disableFork
    thHandler := c.thHandler.disableFork
    resetn := false}

def step (cls : Cls) (c : Component) : Event → Component
  | .assert => if c.resetn then c.stop cls else c
  | .deassert => if c.resetn then c else c.start cls

/-- After elaboration. -/
def elaborated (cls : Cls) : Component where
  bkHandler := cls.bkHandler.map fun name => {name := name}
  thHandler := cls.thHandler.map fun name => {name := name}
  resetn := false
  starts := 0

/-- At the first `wait(resetn)`, or past it where `resetn` is high from the start. -/
def initial (cls : Cls) (resetn : Bool) : Component :=
  let c := cls.reset (elaborated cls)
  if resetn then c.start cls else c

/-- The component after a sequence of assertions and deassertions of `resetn`. -/
def after (cls : Cls) (resetn : Bool) (events : List Event) : Component :=
  Machine.run (step cls) (initial cls resetn) events

/-- Each thread is running once, or none while `resetn` is low. -/
def Live (c : Component) : Prop :=
  ∀ th ∈ c.bkHandler ++ c.thHandler, th.running = if c.resetn then 1 else 0

instance (c : Component) : Decidable c.Live := inferInstanceAs (Decidable (∀ th ∈ _, _))

/-- The handlers as they are when all their threads are in the same state. -/
def uniform (cls : Cls) (hasFinalize : Bool) (running : Nat) (resetn : Bool) (starts : Nat) : Component where
  bkHandler := cls.bkHandler.map fun name => ⟨name,hasFinalize,running⟩
  thHandler := cls.thHandler.map fun name => ⟨name,hasFinalize,running⟩
  resetn := resetn
  starts := starts

/-- The reset function of the class resets every handler that has threads. -/
def Restores (cls : Cls) : Prop :=
  ∀ th ∈ (cls.reset (uniform cls true 0 false 0)).bkHandler ++ (cls.reset (uniform cls true 0 false 0)).thHandler,
    th.hasFinalize = false

instance (cls : Cls) : Decidable (Restores cls) := inferInstanceAs (Decidable (∀ th ∈ _, _))

/-- A deassertion that starts the threads is the first one to do so, or the class restores them. -/
def Fresh (cls : Cls) (c : Component) : Event → Prop
  | .assert => True
  | .deassert => c.resetn = false → Restores cls ∨ c.starts = 0

/-- Before the first start, started, or after a reset of started threads. -/
inductive Stage (cls : Cls) : Component → Prop
  | before : Stage cls (uniform cls false 0 false 0)
  | started (n : Nat) : Stage cls (uniform cls true 1 true (n+1))
  | stopped (n : Nat) : Stage cls (cls.reset (uniform cls true 0 false (n+1)))

theorem start_uniform (cls : Cls) (n : Nat) :
    (uniform cls false 0 false n).start cls = uniform cls true 1 true (n+1) := by
  cases cls <;> rfl

theorem stop_uniform (cls : Cls) (n : Nat) :
    (uniform cls true 1 true n).stop cls = cls.reset (uniform cls true 0 false n) := by
  cases cls <;> rfl

theorem reset_uniform (cls : Cls) (n : Nat) (restores : Restores cls) :
    cls.reset (uniform cls true 0 false n) = uniform cls false 0 false n := by
  cases cls <;> first | rfl | exact absurd restores (by decide)

theorem reset_resetn (cls : Cls) (c : Component) : (cls.reset c).resetn = c.resetn := by
  cases cls <;> rfl

theorem reset_starts (cls : Cls) (c : Component) : (cls.reset c).starts = c.starts := by
  cases cls <;> rfl

theorem uniform_live (cls : Cls) (hasFinalize resetn : Bool) (n : Nat) :
    (uniform cls hasFinalize (if resetn then 1 else 0) resetn n).Live := by
  intro th inside
  rcases List.mem_append.mp inside with bk | front
  · obtain ⟨name,_,rfl⟩ := List.mem_map.mp bk
    rfl
  · obtain ⟨name,_,rfl⟩ := List.mem_map.mp front
    rfl

theorem ThreadHandler_reset_running {handler : ThreadHandler} {n : Nat} (all : ∀ th ∈ handler, th.running = n) :
    ∀ th ∈ handler.reset, th.running = n := by
  intro th inside
  obtain ⟨old,before,rfl⟩ := List.mem_map.mp inside
  exact all old before

theorem reset_live (cls : Cls) (c : Component) (live : c.Live) : (cls.reset c).Live := by
  have bk := ThreadHandler_reset_running fun th inside => live th (List.mem_append_left _ inside)
  have front := ThreadHandler_reset_running fun th inside => live th (List.mem_append_right _ inside)
  have bkReset : Live {c with bkHandler := c.bkHandler.reset} := fun th inside =>
    (List.mem_append.mp inside).elim (bk th) fun inside => live th (List.mem_append_right _ inside)
  have thReset : Live {c with thHandler := c.thHandler.reset} := fun th inside =>
    (List.mem_append.mp inside).elim (fun inside => live th (List.mem_append_left _ inside)) (front th)
  cases cls with
  | smtdvDriver => exact bkReset
  | ahbMasterDriver | apbMasterDriver | smtdvScoreboard => exact thReset
  | ahbSlaveDriver | apbSlaveDriver | uartRxDriver | smtdvMonitor | ahbMonitor | apbMonitor | uartMonitor => exact live

theorem Stage.live {cls : Cls} {c : Component} (stage : Stage cls c) : c.Live := by
  cases stage with
  | before => exact uniform_live cls false false 0
  | started n => exact uniform_live cls true true (n+1)
  | stopped n => exact reset_live cls _ (uniform_live cls true false (n+1))

theorem step_stage (cls : Cls) (c : Component) (e : Event) (stage : Stage cls c) (fresh : Fresh cls c e) :
    Stage cls (step cls c e) := by
  cases stage with
  | before =>
    cases e with
    | assert => exact .before
    | deassert =>
      change Stage cls ((uniform cls false 0 false 0).start cls)
      rw [start_uniform]
      exact .started 0
  | started n =>
    cases e with
    | assert =>
      change Stage cls ((uniform cls true 1 true (n+1)).stop cls)
      rw [stop_uniform]
      exact .stopped n
    | deassert => exact .started n
  | stopped n =>
    have low : (cls.reset (uniform cls true 0 false (n+1))).resetn = false := reset_resetn cls _
    cases e with
    | assert =>
      rw [step,low]
      exact .stopped n
    | deassert =>
      have restores : Restores cls := (fresh low).resolve_right (by rw [reset_starts]; exact Nat.succ_ne_zero n)
      rw [step,low,reset_uniform cls (n+1) restores]
      change Stage cls ((uniform cls false 0 false (n+1)).start cls)
      rw [start_uniform]
      exact .started (n+1)

/-- A thread of a handler that is not reset keeps its `has_finalize`, and is not started again. -/
theorem step_lost (cls : Cls) (c : Component) (e : Event) (stage : Stage cls c) (stale : ¬ Fresh cls c e) :
    ¬ (step cls c e).Live := by
  cases e with
  | assert => exact absurd trivial stale
  | deassert =>
    cases stage with
    | before => exact absurd (fun _ => .inr rfl) stale
    | started n => exact absurd (fun high => Bool.noConfusion high) stale
    | stopped n =>
      have unrestored : ¬ Restores cls := fun restores => stale fun _ => .inl restores
      have low : (cls.reset (uniform cls true 0 false (n+1))).resetn = false := reset_resetn cls _
      rw [step,low]
      intro live
      have live : Live ((cls.reset (uniform cls true 0 false 0)).start cls) := by
        cases cls <;> exact live
      cases cls with
      | smtdvDriver | smtdvMonitor | smtdvScoreboard => exact unrestored (by decide)
      | ahbMasterDriver | apbMasterDriver | ahbSlaveDriver | apbSlaveDriver | uartRxDriver
      | ahbMonitor | apbMonitor | uartMonitor => exact absurd live (by decide)

theorem initial_stage (cls : Cls) (resetn : Bool) : Stage cls (initial cls resetn) := by
  have begun : cls.reset (elaborated cls) = uniform cls false 0 false 0 := by cases cls <;> rfl
  cases resetn with
  | false =>
    rw [initial,begun]
    exact .before
  | true =>
    rw [initial,begun]
    change Stage cls ((uniform cls false 0 false 0).start cls)
    rw [start_uniform]
    exact .started 0

/-- After every sequence of assertions and deassertions the threads are live, at each point of
it, if and only if no threads are started a second time that the class does not restore. -/
theorem live_iff (cls : Cls) (resetn : Bool) (events : List Event) :
    (∀ before, before <+: events → Live (after cls resetn before)) ↔
      Machine.Meets (step cls) (Fresh cls) (initial cls resetn) events := by
  refine Machine.prefixes_iff (fun before _ met => ?_) (fun before e _ met stale live => ?_)
  · exact (Machine.run_invariant (step_stage cls) (initial_stage cls resetn) met).live
  · have stage := Machine.run_invariant (step_stage cls) (initial_stage cls resetn) met
    rw [after,Machine.run_concat] at live
    exact step_lost cls _ e stage stale live

/-- The threads of a monitor are not running after the second start. -/
theorem monitor_not_live : ¬ Live (after .ahbMonitor true [.assert,.deassert]) := by decide

end Component

end Smtdv
