import Mathlib.Data.List.Nodup
import Mathlib.Data.List.Range
import Smtdv.Lib.Machine
import Smtdv.Graph.Graph

/-! The graph builders, and the edge ids that they give to the nodes of a graph. -/
namespace Smtdv
open Lib

/-- A graph that is built, with the ids of the next node and of the next edge. -/
structure Builder where
  graph : Graph := {}
  nodeid : Nat := 0
  edgeid : Nat := 0

namespace Builder

def createNode (b : Builder) : Builder := {b with graph := b.graph.addNode b.nodeid {}, nodeid := b.nodeid+1}

def createEdge (b : Builder) (sourceid sinkid : Int) : Builder :=
  {b with
    graph := ((b.graph.addEdge ⟨sourceid,sinkid⟩).update sourceid (Node.addOutEdge b.edgeid)).update sinkid
      (Node.addInEdge b.edgeid)
    edgeid := b.edgeid+1}

def finalizeGraph (b : Builder) : Builder := {b with graph := b.graph.finalize}

end Builder

/-! `smtdv_seq_graph_builder`. -/

inductive SeqBuild
  | createSeqNode
  | createSeqEdge (sourceid sinkid : Int)
  | finalizeSeqGraph
  deriving DecidableEq

namespace SeqGraphBuilder

def createSeqNode (b : Builder) : Builder := if b.graph.hasFinalize then b else b.createNode

def createSeqEdge (b : Builder) (sourceid sinkid : Int) : Builder :=
  if b.graph.hasFinalize then b
  else if (sourceid < 0 ∨ sourceid ≥ b.nodeid) ∨ sinkid < 0 ∨ sinkid ≥ b.nodeid then b
  else b.createEdge sourceid sinkid

def step (b : Builder) : SeqBuild → Builder
  | .createSeqNode => createSeqNode b
  | .createSeqEdge sourceid sinkid => createSeqEdge b sourceid sinkid
  | .finalizeSeqGraph => b.finalizeGraph

def after (actions : List SeqBuild) : Builder := Machine.run step {} actions

/-- The edge that an action creates. -/
def edge (b : Builder) : SeqBuild → Option (Int × Int)
  | .createSeqEdge sourceid sinkid =>
    if b.graph.hasFinalize = false ∧ (0 ≤ sourceid ∧ sourceid < b.nodeid) ∧ 0 ≤ sinkid ∧ sinkid < b.nodeid then
      some (sourceid,sinkid)
    else none
  | _ => none

/-- No edge is created that is in the graph. -/
def Fresh (b : Builder) (a : SeqBuild) : Prop := ∀ ends ∈ edge b a, b.graph.hasEdge ends.1 ends.2 = none

instance (b : Builder) (a : SeqBuild) : Decidable (Fresh b a) :=
  inferInstanceAs (Decidable (∀ ends ∈ edge b a, _))

end SeqGraphBuilder

/-! `smtdv_cmp_graph_builder`. -/

/-- A builder of the graph of so many masters and slaves, with the node ids of its tables. It stops
at a null handle, where the simulation does. -/
structure CmpBuilder extends Builder where
  mstAgts : Nat
  slvAgts : Nat
  mstNodeTb : List Nat := []
  slvNodeTb : List Nat := []
  stopped : Bool := false

inductive CmpBuild
  | createMasterCmpNode (mstid : Int)
  | createSlaveCmpNode (slvid : Int)
  | createWriteCmpEdge (mstid slvid : Int)
  | createReadCmpEdge (slvid mstid : Int)
  | finalizeCmpGraph
  deriving DecidableEq

/-- A write of an element of a queue: past the end of the queue it is ignored. -/
def queueSet {α : Type*} (queue : List α) (index : Int) (x : α) : List α :=
  if index < 0 then queue else if index = queue.length then queue ++ [x] else queue.set index.toNat x

namespace CmpGraphBuilder

def hasMaster (b : CmpBuilder) (mstid : Int) : Bool := mstid < b.mstAgts && mstid ≥ 0

def hasSlave (b : CmpBuilder) (slvid : Int) : Bool := slvid < b.slvAgts && slvid ≥ 0

def createMasterCmpNode (b : CmpBuilder) (mstid : Int) : CmpBuilder :=
  if b.graph.hasFinalize then b
  else if !hasMaster b mstid then b
  else {b with toBuilder := b.createNode, mstNodeTb := queueSet b.mstNodeTb mstid b.nodeid}

def createSlaveCmpNode (b : CmpBuilder) (slvid : Int) : CmpBuilder :=
  if b.graph.hasFinalize then b
  else if !hasSlave b slvid then b
  else {b with toBuilder := b.createNode, slvNodeTb := queueSet b.slvNodeTb slvid b.nodeid}

/-- The node id in a table, which is 0 where the table has no element. -/
def nodeidAt (tb : List Nat) (index : Int) : Nat := (queueGet tb index).getD 0

/-- The edge between two nodes of `cmp_nodes`. -/
def createCmpEdge (b : CmpBuilder) (sourceid sinkid : Nat) : CmpBuilder :=
  if b.nodeid ≤ sourceid ∨ b.nodeid ≤ sinkid then {b with stopped := true}
  else {b with toBuilder := b.createEdge sourceid sinkid}

def createWriteCmpEdge (b : CmpBuilder) (mstid slvid : Int) : CmpBuilder :=
  if b.graph.hasFinalize then b
  else if !hasMaster b mstid || !hasSlave b slvid then b
  else createCmpEdge b (nodeidAt b.mstNodeTb mstid) (nodeidAt b.slvNodeTb slvid)

def createReadCmpEdge (b : CmpBuilder) (slvid mstid : Int) : CmpBuilder :=
  if b.graph.hasFinalize then b
  else if !hasMaster b mstid || !hasSlave b slvid then b
  else createCmpEdge b (nodeidAt b.slvNodeTb slvid) (nodeidAt b.mstNodeTb mstid)

def step (b : CmpBuilder) (a : CmpBuild) : CmpBuilder :=
  if b.stopped then b
  else match a with
    | .createMasterCmpNode mstid => createMasterCmpNode b mstid
    | .createSlaveCmpNode slvid => createSlaveCmpNode b slvid
    | .createWriteCmpEdge mstid slvid => createWriteCmpEdge b mstid slvid
    | .createReadCmpEdge slvid mstid => createReadCmpEdge b slvid mstid
    | .finalizeCmpGraph => {b with toBuilder := b.finalizeGraph}

def after (mstAgts slvAgts : Nat) (actions : List CmpBuild) : CmpBuilder :=
  Machine.run step {mstAgts := mstAgts, slvAgts := slvAgts} actions

/-- The nodes of the edge that an action creates. -/
def ends (b : CmpBuilder) : CmpBuild → Option (Nat × Nat)
  | .createWriteCmpEdge mstid slvid =>
    if b.graph.hasFinalize || !hasMaster b mstid || !hasSlave b slvid then none
    else some (nodeidAt b.mstNodeTb mstid,nodeidAt b.slvNodeTb slvid)
  | .createReadCmpEdge slvid mstid =>
    if b.graph.hasFinalize || !hasMaster b mstid || !hasSlave b slvid then none
    else some (nodeidAt b.slvNodeTb slvid,nodeidAt b.mstNodeTb mstid)
  | _ => none

/-- The edge that an action creates. -/
def edge (b : CmpBuilder) (a : CmpBuild) : Option (Int × Int) :=
  (ends b a).bind fun ends =>
    if b.stopped = false ∧ ends.1 < b.nodeid ∧ ends.2 < b.nodeid then some (ends.1,ends.2) else none

/-- No edge is created that is in the graph. -/
def Fresh (b : CmpBuilder) (a : CmpBuild) : Prop := ∀ ends ∈ edge b a, b.graph.hasEdge ends.1 ends.2 = none

end CmpGraphBuilder

/-- What an action of a builder does, with the edge it creates. -/
inductive Builder.Change (b : Builder) : Option (Int × Int) → Builder → Prop
  | same : Change b none b
  | node (opened : b.graph.hasFinalize = false) : Change b none b.createNode
  | edge {sourceid sinkid : Int} (opened : b.graph.hasFinalize = false)
    (source : 0 ≤ sourceid ∧ sourceid < b.nodeid) (sink : 0 ≤ sinkid ∧ sinkid < b.nodeid) :
    Change b (some (sourceid,sinkid)) (b.createEdge sourceid sinkid)
  | finalize : Change b none b.finalizeGraph

open Builder

theorem SeqGraphBuilder.step_change (b : Builder) (a : SeqBuild) : Change b (edge b a) (step b a) := by
  cases a with
  | createSeqNode =>
    rw [step,createSeqNode]
    split
    case isTrue => exact .same
    case isFalse opened => exact .node (Bool.eq_false_iff.mpr opened)
  | createSeqEdge sourceid sinkid =>
    simp only [step,createSeqEdge,edge]
    by_cases guard : b.graph.hasFinalize = false ∧ (0 ≤ sourceid ∧ sourceid < b.nodeid) ∧ 0 ≤ sinkid ∧ sinkid < b.nodeid
    · obtain ⟨opened,source,sink⟩ := guard
      rw [if_pos ⟨opened,source,sink⟩,opened,if_neg Bool.false_ne_true,if_neg (by omega)]
      exact .edge opened source sink
    · rw [if_neg guard]
      split
      case isTrue => exact .same
      case isFalse opened =>
        rw [if_pos]
        · exact .same
        · by_contra inside
          exact guard ⟨Bool.eq_false_iff.mpr opened,by omega,by omega,by omega⟩
  | finalizeSeqGraph => exact .finalize

theorem CmpGraphBuilder.createCmpEdge_change (b : CmpBuilder) (running : b.stopped = false)
    (opened : b.graph.hasFinalize = false) (sourceid sinkid : Nat) :
    Change b.toBuilder
      (if b.stopped = false ∧ sourceid < b.nodeid ∧ sinkid < b.nodeid then some ((sourceid : Int),(sinkid : Int)) else none)
      (createCmpEdge b sourceid sinkid).toBuilder := by
  rw [createCmpEdge]
  by_cases inside : sourceid < b.nodeid ∧ sinkid < b.nodeid
  · rw [if_pos ⟨running,inside⟩,if_neg (by omega)]
    exact .edge opened (by omega) (by omega)
  · rw [if_neg fun all => inside all.2,if_pos (by omega)]
    exact .same

theorem CmpGraphBuilder.step_change (b : CmpBuilder) (a : CmpBuild) :
    Change b.toBuilder (edge b a) (step b a).toBuilder := by
  unfold step
  cases running : b.stopped with
  | true =>
    have none : edge b a = none := by
      rw [edge,running]
      cases ends b a <;> simp
    rw [none]
    exact .same
  | false =>
    rw [if_neg Bool.false_ne_true]
    cases a with
    | createMasterCmpNode mstid =>
      simp only [createMasterCmpNode,edge,ends,Option.bind_none]
      split_ifs with closed
      · exact .same
      · exact .same
      · exact .node (Bool.eq_false_iff.mpr closed)
    | createSlaveCmpNode slvid =>
      simp only [createSlaveCmpNode,edge,ends,Option.bind_none]
      split_ifs with closed
      · exact .same
      · exact .same
      · exact .node (Bool.eq_false_iff.mpr closed)
    | createWriteCmpEdge mstid slvid =>
      simp only [createWriteCmpEdge,edge,ends]
      cases opened : b.graph.hasFinalize with
      | true => exact .same
      | false =>
        simp only [Bool.false_or,Bool.false_eq_true,if_false]
        split
        · exact .same
        · exact createCmpEdge_change b running opened _ _
    | createReadCmpEdge slvid mstid =>
      simp only [createReadCmpEdge,edge,ends]
      cases opened : b.graph.hasFinalize with
      | true => exact .same
      | false =>
        simp only [Bool.false_or,Bool.false_eq_true,if_false]
        split
        · exact .same
        · exact createCmpEdge_change b running opened _ _
    | finalizeCmpGraph => exact .finalize

end Smtdv
