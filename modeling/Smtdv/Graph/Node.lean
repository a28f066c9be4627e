import Mathlib.Logic.Function.Basic
import Smtdv.Graph.Graph

/-! The flags of the nodes of a graph while the nodes run, what the nodes do and which of their
assertions fail. -/
namespace Smtdv

/-- A node is locked, does its work, and is unlocked. -/
inductive NodeEvent
  | lock (n : Int)
  | start (n : Int)
  | finish (n : Int)
  | unlock (n : Int)
  deriving DecidableEq

/-- A failed assertion of `lock`, of `unlock` or about a sink, or a null handle. -/
inductive NodeFault
  | lock | unlock | sink | null
  deriving DecidableEq

structure NodeRun where
  hasLock : Int → Bool := fun _ => false
  hasVisit : Int → Bool := fun _ => false
  log : List NodeEvent := []
  faults : List NodeFault := []

namespace NodeRun

def lock (s : NodeRun) (n : Int) : NodeRun :=
  {s with
    hasLock := Function.update s.hasLock n true
    log := s.log ++ [.lock n]
    faults := s.faults ++ if s.hasLock n then [.lock] else []}

def unlock (s : NodeRun) (n : Int) : NodeRun :=
  {s with
    hasLock := Function.update s.hasLock n false
    log := s.log ++ [.unlock n]
    faults := s.faults ++ if s.hasLock n then [] else [.unlock]}

/-- `assert(!node.is_lock())`. -/
def assertFree (s : NodeRun) (n : Int) : NodeRun := {s with faults := s.faults ++ if s.hasLock n then [.sink] else []}

end NodeRun

namespace Graph

/-- The node from which an edge comes, unless one of the handles is null. -/
def sourceOf (g : Graph) (id : Int) : Option Int :=
  (g.getEdge id).bind fun tedge => (g.getNode tedge.sourceid).map fun _ => tedge.sourceid

def sinkOf (g : Graph) (id : Int) : Option Int :=
  (g.getEdge id).bind fun tedge => (g.getNode tedge.sinkid).map fun _ => tedge.sinkid

def eventsOf (n : Int) : List NodeEvent := [.lock n,.start n,.finish n,.unlock n]

/-- Every node is locked, runs, completes and is unlocked once. -/
def RunsOnce (g : Graph) (log : List NodeEvent) : Prop :=
  ∀ n ∈ g.getNodes, log.filter (fun event => event ∈ eventsOf n) = eventsOf n

variable {g : Graph} {n : Int} {node : Node} {id : Int}

theorem Represents.sourceOf (represents : g.Represents) (here : g.getNode n = some node) (inside : id ∈ node.inQ) :
    ∃ m, g.sourceOf id = some m ∧ g.Before m n := by
  obtain ⟨tedge,source,stored,there,-,-,before⟩ := represents.source here inside
  refine ⟨tedge.sourceid,?_,before⟩
  rw [Graph.sourceOf,stored,Option.bind_some,there]
  rfl

theorem Represents.sinkOf (represents : g.Represents) (here : g.getNode n = some node) (inside : id ∈ node.outQ) :
    ∃ m, g.sinkOf id = some m ∧ g.Before n m := by
  obtain ⟨tedge,sink,stored,there,-,-,before⟩ := represents.sink here inside
  refine ⟨tedge.sinkid,?_,before⟩
  rw [Graph.sinkOf,stored,Option.bind_some,there]
  rfl

/-- A node keeps the edges from the nodes before it. -/
theorem Represents.into_source (represents : g.Represents) {m n : Int} (before : g.Before m n) :
    ∃ (node : Node) (i : Nat) (id : Int), g.getNode n = some node ∧ node.inQ[i]? = some id ∧ g.sourceOf id = some m := by
  obtain ⟨id,source,sink,there,here,-,into,stored⟩ := represents.kept before
  obtain ⟨i,index⟩ := List.mem_iff_getElem?.mp into
  refine ⟨sink,i,id,here,index,?_⟩
  rw [Graph.sourceOf,stored,Option.bind_some,there]
  rfl

theorem Acyclic.ne (acyclic : g.Acyclic) {m n : Int} (before : g.Before m n) : m ≠ n := by
  rintro rfl
  exact acyclic m (.single before)

end Graph

end Smtdv
