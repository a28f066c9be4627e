import Smtdv.Lib.Acyclic
import Smtdv.Graph.Initors

/-! `is_directed_graph` and `is_circular_graph`, which look for the ends of a graph, against its cycles. -/
namespace Smtdv.Graph
open Lib

def isDirectedGraph (g : Graph) : Bool := 0 < (g.findInitors []).length && 0 < (g.findTargets []).length

def isCircularGraph (g : Graph) : Bool := !g.isDirectedGraph

theorem isCircularGraph_iff (g : Graph) :
    g.isCircularGraph = true ↔ (∀ n, ¬g.Initor n) ∨ ∀ n, ¬g.Target n := by
  have filled {nodeids : List Int} {nodes : Int → Prop} (member : ∀ n, n ∈ nodeids ↔ nodes n) :
      ¬0 < nodeids.length ↔ ∀ n, ¬nodes n := by
    rw [Nat.not_lt,Nat.le_zero,List.length_eq_zero_iff,List.eq_nil_iff_forall_not_mem]
    exact forall_congr' fun n => not_congr (member n)
  rw [isCircularGraph,isDirectedGraph,Bool.not_eq_true',Bool.and_eq_false_iff,decide_eq_false_iff_not,
    decide_eq_false_iff_not,filled g.mem_findInitors,filled g.mem_findTargets]

/-- The edges of an acyclic graph begin at a node without an edge into it. -/
theorem exists_initor {g : Graph} (acyclic : g.Acyclic) (edges : g.edgeQ ≠ []) : ∃ n, g.Initor n := by
  obtain ⟨tedge,inside⟩ := List.exists_mem_of_ne_nil _ edges
  have finite : {n | ∃ tedge ∈ g.edgeQ, tedge.sourceid = n}.Finite := g.edgeQ.finite_toSet.image Edge.sourceid
  obtain ⟨first,source,least⟩ := Lib.Acyclic.first acyclic finite ⟨tedge.sourceid,tedge,inside,rfl⟩
  refine ⟨first,source,fun other member sink => ?_⟩
  exact least other.sourceid ⟨other,member,rfl⟩ ⟨other,member,rfl,sink⟩

theorem exists_target {g : Graph} (acyclic : g.Acyclic) (edges : g.edgeQ ≠ []) : ∃ n, g.Target n := by
  obtain ⟨tedge,inside⟩ := List.exists_mem_of_ne_nil _ edges
  have finite : {n | ∃ tedge ∈ g.edgeQ, tedge.sinkid = n}.Finite := g.edgeQ.finite_toSet.image Edge.sinkid
  obtain ⟨last,sink,most⟩ := Lib.Acyclic.last acyclic finite ⟨tedge.sinkid,tedge,inside,rfl⟩
  refine ⟨last,sink,fun other member source => ?_⟩
  exact most other.sinkid ⟨other,member,rfl⟩ ⟨other,member,source,rfl⟩

/-- What is taken for circular has a cycle; a cycle is missed in a graph that has ends of both kinds. -/
theorem circular_iff (g : Graph) (edges : g.edgeQ ≠ []) : (g.isCircularGraph = true ↔ ¬g.Acyclic) ↔
    g.Acyclic ∨ (∀ n, ¬g.Initor n) ∨ ∀ n, ¬g.Target n := by
  rw [isCircularGraph_iff]
  constructor
  · intro right
    by_cases acyclic : g.Acyclic
    · exact .inl acyclic
    · exact .inr (right.mpr acyclic)
  · rintro (acyclic | open_)
    · refine iff_of_false ?_ (not_not.mpr acyclic)
      rintro (initors | targets)
      · obtain ⟨n,initor⟩ := exists_initor acyclic edges
        exact initors n initor
      · obtain ⟨n,target⟩ := exists_target acyclic edges
        exact targets n target
    · refine iff_of_true open_ fun acyclic => ?_
      obtain ⟨n,initor⟩ := exists_initor acyclic edges
      obtain ⟨m,target⟩ := exists_target acyclic edges
      exact open_.elim (fun none => none n initor) fun none => none m target

/-- Two nodes lead to each other, with no node beside them. -/
theorem circular_iff_pair : let g := (({} : Graph).addEdge ⟨0,1⟩).addEdge ⟨1,0⟩
    g.isCircularGraph = true ↔ ¬g.Acyclic :=
  (circular_iff _ (by decide)).mpr (.inr ((isCircularGraph_iff _).mp (by decide)))

/-- The same two nodes, entered from a third one and left to a fourth. -/
theorem crossed_not_circular : let g := ((((({} : Graph).addEdge ⟨2,0⟩).addEdge ⟨0,1⟩).addEdge ⟨1,0⟩).addEdge ⟨1,3⟩)
    ¬(g.isCircularGraph = true ↔ ¬g.Acyclic) := by
  intro g circular
  have cyclic : ¬g.Acyclic := fun acyclic =>
    acyclic 0 (.tail (.single ⟨⟨0,1⟩,by decide,rfl,rfl⟩) ⟨⟨1,0⟩,by decide,rfl,rfl⟩)
  exact absurd (circular.mpr cyclic) (by decide)

end Smtdv.Graph
