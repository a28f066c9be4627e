import Mathlib.Data.Int.Order.Basic
import Mathlib.Logic.Relation
import Smtdv.Common.Hash

/-! `smtdv_graph` and `smtdv_node`: the edges are a queue, and a node keeps the positions of its
edges in it. A handle of a node is the key at which the graph has it. -/
namespace Smtdv

structure Edge where
  sourceid : Int
  sinkid : Int
  deriving DecidableEq

structure Node where
  inQ : List Int := []
  outQ : List Int := []
  hasFinalize : Bool := false
  deriving DecidableEq

structure Graph where
  nodeM : Hash Int Node := .empty
  edgeQ : List Edge := []
  hasFinalize : Bool := false

namespace Node

def addInEdge (edgeid : Int) (node : Node) : Node :=
  if node.hasFinalize then node else {node with inQ := node.inQ ++ [edgeid]}

def addOutEdge (edgeid : Int) (node : Node) : Node :=
  if node.hasFinalize then node else {node with outQ := node.outQ ++ [edgeid]}

def finalize (node : Node) : Node := {node with hasFinalize := true}

end Node

/-- `uvm_queue::get`, which returns `null` for an index out of range. -/
def queueGet {α : Type*} (queue : List α) (index : Int) : Option α :=
  if queue.length ≤ index ∨ index < 0 then none else queue[index.toNat]?

theorem queueGet_natCast {α : Type*} (queue : List α) (i : Nat) : queueGet queue (i : Int) = queue[i]? := by
  unfold queueGet
  split
  case isTrue out => exact (List.getElem?_eq_none (by omega)).symm
  case isFalse => rw [Int.toNat_natCast]

namespace Graph

def numOfEdges (g : Graph) : Nat := g.edgeQ.length

/-- The position of the first edge from the source to the sink. -/
def hasEdge (g : Graph) (sourceid sinkid : Int) : Option Nat :=
  g.edgeQ.findIdx? fun tedge => tedge.sourceid == sourceid && tedge.sinkid == sinkid

def delEdge (g : Graph) (edgeid : Nat) : Graph :=
  if g.hasFinalize then g else {g with edgeQ := g.edgeQ.eraseIdx edgeid}

def addEdge (g : Graph) (pedge : Edge) : Graph :=
  if g.hasFinalize then g
  else
    let g := match g.hasEdge pedge.sourceid pedge.sinkid with
      | some idx => g.delEdge idx
      | none => g
    {g with edgeQ := g.edgeQ ++ [pedge]}

/-- Whether `get_edge` reports an error. -/
def getEdgeError (g : Graph) (edgeid : Int) : Bool := edgeid < 0 || (g.edgeQ.length : Int) < edgeid

def getEdge (g : Graph) (edgeid : Int) : Option Edge := queueGet g.edgeQ edgeid

def addNode (g : Graph) (nodeid : Int) (node : Node) : Graph :=
  if g.hasFinalize then g else {g with nodeM := g.nodeM.set nodeid node}

def getNode (g : Graph) (nodeid : Int) : Option Node := g.nodeM.get nodeid

def getNodes (g : Graph) : List Int := g.nodeM.keys

/-- A change of a node through its handle. -/
def update (g : Graph) (nodeid : Int) (f : Node → Node) : Graph := {g with nodeM := g.nodeM.update nodeid f}

def finalize (g : Graph) : Graph :=
  {g with hasFinalize := true, nodeM := (g.nodeM.keys.foldl (fun m key => m.update key Node.finalize) g.nodeM).finalize}

@[simp] theorem update_edgeQ (g : Graph) (nodeid : Int) (f : Node → Node) : (g.update nodeid f).edgeQ = g.edgeQ := rfl

@[simp] theorem update_getEdge (g : Graph) (nodeid : Int) (f : Node → Node) (id : Int) :
    (g.update nodeid f).getEdge id = g.getEdge id := rfl

theorem update_getNode (g : Graph) (nodeid : Int) (f : Node → Node) (n : Int) :
    (g.update nodeid f).getNode n = if n = nodeid then (g.getNode n).map f else g.getNode n := by
  rw [getNode,update,Hash.update_get]
  split
  case isTrue same => rw [same]; rfl
  case isFalse => rfl

/-- Every edge id that a node keeps is that of an edge of the node, and every edge is kept once by
its source and once by its sink. -/
structure Represents (g : Graph) : Prop where
  out : ∀ n node, g.getNode n = some node → ∀ id ∈ node.outQ,
    (0 ≤ id ∧ id < g.numOfEdges) ∧ ∃ tedge, g.getEdge id = some tedge ∧ tedge.sourceid = n
  into : ∀ n node, g.getNode n = some node → ∀ id ∈ node.inQ,
    (0 ≤ id ∧ id < g.numOfEdges) ∧ ∃ tedge, g.getEdge id = some tedge ∧ tedge.sinkid = n
  outOnce : ∀ id : Int, 0 ≤ id → id < g.numOfEdges → ∃! n, ∃ node, g.getNode n = some node ∧ id ∈ node.outQ
  intoOnce : ∀ id : Int, 0 ≤ id → id < g.numOfEdges → ∃! n, ∃ node, g.getNode n = some node ∧ id ∈ node.inQ
  distinct : ∀ n node, g.getNode n = some node → node.outQ.Nodup ∧ node.inQ.Nodup

/-- An edge leads from the one node to the other. -/
def Before (g : Graph) (m n : Int) : Prop := ∃ tedge ∈ g.edgeQ, tedge.sourceid = m ∧ tedge.sinkid = n

def Acyclic (g : Graph) : Prop := ∀ n, ¬Relation.TransGen g.Before n n

/-- A graph whose edges lead upwards has no cycle. -/
theorem acyclic_of_rank {g : Graph} (rank : Int → Int) (up : ∀ tedge ∈ g.edgeQ, rank tedge.sourceid < rank tedge.sinkid) :
    g.Acyclic := by
  have all {m n : Int} (path : Relation.TransGen g.Before m n) : rank m < rank n := by
    induction path with
    | single before =>
      obtain ⟨tedge,inside,rfl,rfl⟩ := before
      exact up tedge inside
    | tail _ before ih =>
      obtain ⟨tedge,inside,rfl,rfl⟩ := before
      exact lt_trans ih (up tedge inside)
  exact fun n cycle => lt_irrefl _ (all cycle)

/-- An error is reported for every id that is not that of an edge. -/
def Reports (g : Graph) : Prop := ∀ id : Int, ¬(0 ≤ id ∧ id < g.numOfEdges) → g.getEdgeError id = true

/-- Nothing is reported for the first id past the edges. -/
theorem not_reports (g : Graph) : ¬g.Reports := by
  intro reports
  have error := reports g.numOfEdges (by omega)
  rw [getEdgeError,numOfEdges,Bool.or_eq_true,decide_eq_true_eq,decide_eq_true_eq] at error
  omega

theorem getNode_mem {g : Graph} {n : Int} : n ∈ g.getNodes ↔ ∃ node, g.getNode n = some node :=
  (Hash.mem_keys _ _).trans Option.isSome_iff_exists

namespace Represents

variable {g : Graph} (represents : g.Represents)
include represents

/-- The edges into a node come from the nodes before it. -/
theorem source {n : Int} {node : Node} (here : g.getNode n = some node) {id : Int} (inside : id ∈ node.inQ) :
    ∃ tedge source, g.getEdge id = some tedge ∧ g.getNode tedge.sourceid = some source ∧ id ∈ source.outQ ∧
      tedge.sinkid = n ∧ g.Before tedge.sourceid n := by
  obtain ⟨⟨low,high⟩,tedge,stored,sink⟩ := represents.into n node here id inside
  obtain ⟨m,⟨source,there,kept⟩,-⟩ := represents.outOnce id low high
  obtain ⟨-,other,same,rfl⟩ := represents.out m source there id kept
  rw [stored] at same
  cases same
  obtain ⟨i,rfl⟩ := Int.eq_ofNat_of_zero_le low
  refine ⟨tedge,source,stored,there,kept,sink,tedge,?_,rfl,sink⟩
  exact List.mem_of_getElem? ((queueGet_natCast _ _).symm.trans stored)

theorem sink {n : Int} {node : Node} (here : g.getNode n = some node) {id : Int} (inside : id ∈ node.outQ) :
    ∃ tedge sink, g.getEdge id = some tedge ∧ g.getNode tedge.sinkid = some sink ∧ id ∈ sink.inQ ∧
      tedge.sourceid = n ∧ g.Before n tedge.sinkid := by
  obtain ⟨⟨low,high⟩,tedge,stored,source⟩ := represents.out n node here id inside
  obtain ⟨m,⟨sink,there,kept⟩,-⟩ := represents.intoOnce id low high
  obtain ⟨-,other,same,rfl⟩ := represents.into m sink there id kept
  rw [stored] at same
  cases same
  obtain ⟨i,rfl⟩ := Int.eq_ofNat_of_zero_le low
  refine ⟨tedge,sink,stored,there,kept,source,tedge,?_,source,rfl⟩
  exact List.mem_of_getElem? ((queueGet_natCast _ _).symm.trans stored)

/-- Every edge is kept by the nodes at its ends. -/
theorem kept {m n : Int} (before : g.Before m n) : ∃ id source sink, g.getNode m = some source ∧ g.getNode n = some sink ∧
    id ∈ source.outQ ∧ id ∈ sink.inQ ∧ g.getEdge id = some ⟨m,n⟩ := by
  obtain ⟨tedge,inside,rfl,rfl⟩ := before
  obtain ⟨i,here⟩ := List.mem_iff_getElem?.mp inside
  have stored : g.getEdge (i : Int) = some tedge := (queueGet_natCast _ _).trans here
  have high : (i : Int) < g.numOfEdges := Int.ofNat_lt.mpr (List.getElem?_eq_some_iff.mp here).1
  obtain ⟨m,⟨source,here',out⟩,-⟩ := represents.outOnce i (Int.natCast_nonneg _) high
  obtain ⟨n,⟨sink,there,into⟩,-⟩ := represents.intoOnce i (Int.natCast_nonneg _) high
  obtain ⟨-,first,same,rfl⟩ := represents.out m source here' i out
  rw [stored] at same
  cases same
  obtain ⟨-,second,same,rfl⟩ := represents.into n sink there i into
  rw [stored] at same
  cases same
  exact ⟨i,source,sink,here',there,out,into,stored⟩

end Represents

end Graph

end Smtdv
