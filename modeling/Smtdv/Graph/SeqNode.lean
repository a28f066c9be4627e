import Smtdv.Graph.Node
import Smtdv.Graph.Represent

/-! The sequences of a graph, each of which runs its node of the class `smtdv_seq_node`. A step is
what one of them does without waiting, in any order. -/
namespace Smtdv
open Lib

/-- Where a sequence is: not started, in `pre_body` past so many edges into its node, before its
body, in it, in `post_body` past so many edges out of its node, past `unlock`, or ended. -/
inductive SeqPc
  | idle
  | locking (passed : Nat)
  | locked
  | body
  | unlocking (passed : Nat)
  | unlocked
  | done
  deriving DecidableEq

structure SeqRun extends NodeRun where
  pc : Int → SeqPc := fun _ => .idle

namespace SeqRun

def goto (s : SeqRun) (n : Int) (pc : SeqPc) : SeqRun := {s with pc := Function.update s.pc n pc}

def lock (s : SeqRun) (n : Int) : SeqRun := {s with toNodeRun := s.toNodeRun.lock n}

def unlock (s : SeqRun) (n : Int) : SeqRun := {s with toNodeRun := s.toNodeRun.unlock n}

def assertFree (s : SeqRun) (n : Int) : SeqRun := {s with toNodeRun := s.toNodeRun.assertFree n}

def null (s : SeqRun) : SeqRun := {s with faults := s.faults ++ [.null]}

/-- `mid_do`, which `body` calls first. -/
def midDo (s : SeqRun) (n : Int) : SeqRun :=
  {s with hasVisit := Function.update s.hasVisit n true, log := s.log ++ [.start n]}

/-- The body of the sequence returns. -/
def finish (s : SeqRun) (n : Int) : SeqRun := {s with log := s.log ++ [.finish n]}

/-- A step of `async_try_lock`. -/
def asyncTryLock (g : Graph) (s : SeqRun) (n : Int) (node : Node) (passed : Nat) : SeqRun :=
  match node.inQ[passed]? with
  | none => (s.lock n).goto n .locked
  | some id =>
    match g.sourceOf id with
    | none => s.null
    | some m => if s.hasLock m = false ∧ s.hasVisit m = true then s.goto n (.locking (passed+1)) else s

/-- A step of `async_try_unlock`. -/
def asyncTryUnlock (g : Graph) (s : SeqRun) (n : Int) (node : Node) (passed : Nat) : SeqRun :=
  match node.outQ[passed]? with
  | none => (s.unlock n).goto n .unlocked
  | some id =>
    match g.sinkOf id with
    | none => s.null
    | some m => (s.assertFree m).goto n (.unlocking (passed+1))

def step (g : Graph) (s : SeqRun) (n : Int) : SeqRun :=
  match g.getNode n with
  | none => s
  | some node =>
    match s.pc n with
    | .idle => s.goto n (.locking 0)
    | .locking passed => s.asyncTryLock g n node passed
    | .locked => if s.hasLock n then (s.midDo n).goto n .body else s
    | .body => (s.finish n).goto n (.unlocking 0)
    | .unlocking passed => s.asyncTryUnlock g n node passed
    | .unlocked => if s.hasLock n then s else s.goto n .done
    | .done => s

def after (g : Graph) (steps : List Int) : SeqRun := Machine.run (step g) {} steps

/-- No body starts before those of the nodes before its own have finished, and these are unlocked. -/
def InOrder (g : Graph) (log : List NodeEvent) : Prop :=
  ∀ m n, g.Before m n → ∀ before rest, log = before ++ .start n::rest →
    NodeEvent.finish m ∈ before ∧ NodeEvent.unlock m ∈ before

/-- No sequence can go on. -/
def Quiet (g : Graph) (s : SeqRun) : Prop := ∀ n, step g s n = s

end SeqRun

namespace SeqPc

def locks : SeqPc → Bool
  | idle | locking _ | unlocked | done => false
  | locked | body | unlocking _ => true

def visits : SeqPc → Bool
  | idle | locking _ | locked => false
  | body | unlocking _ | unlocked | done => true

def ended : SeqPc → Bool
  | unlocked | done => true
  | idle | locking _ | locked | body | unlocking _ => false

/-- The edge has been waited for. -/
def Past : SeqPc → Nat → Prop
  | idle,_ => False
  | locking passed,i => i < passed
  | locked,_ | body,_ | unlocking _,_ | unlocked,_ | done,_ => True

/-- How many of its events a sequence has had. -/
def events : SeqPc → Nat
  | idle | locking _ => 0
  | locked => 1
  | body => 2
  | unlocking _ => 3
  | unlocked | done => 4

theorem ended_iff (pc : SeqPc) : pc.ended = true ↔ pc.locks = false ∧ pc.visits = true := by
  cases pc <;> simp [ended,locks,visits]

end SeqPc

end Smtdv
