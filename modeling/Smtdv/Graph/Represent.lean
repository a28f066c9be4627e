import Smtdv.Graph.Builder

/-! The builders keep the ids of the nodes those of the edges until an edge is created twice. -/
namespace Smtdv
open Lib

namespace Builder

/-- The ids of the edges with a property. -/
def ids (edgeQ : List Edge) (p : Edge → Bool) : List Int :=
  ((List.range edgeQ.length).filter fun i => edgeQ[i]?.any p).map Int.ofNat

/-- The node ids are those below the next one, and nodes are open as long as the graph is. -/
structure Keys (b : Builder) : Prop where
  keys : ∀ n, (b.graph.getNode n).isSome ↔ 0 ≤ n ∧ n < b.nodeid
  opened : b.graph.hasFinalize = false → b.graph.nodeM.hasFinalize = false
  nodes : b.graph.hasFinalize = false → ∀ n node, b.graph.getNode n = some node → node.hasFinalize = false

/-- Each node has the ids of the edges at one end of which it is. -/
def Kept (g : Graph) (queue : Node → List Int) (nodeid : Edge → Int) : Prop :=
  ∀ n node, g.getNode n = some node → queue node = ids g.edgeQ fun tedge => nodeid tedge == n

structure Linked (b : Builder) : Prop extends Keys b where
  size : b.edgeid = b.graph.numOfEdges
  out : Kept b.graph Node.outQ Edge.sourceid
  into : Kept b.graph Node.inQ Edge.sinkid
  ends : ∀ tedge ∈ b.graph.edgeQ, (0 ≤ tedge.sourceid ∧ tedge.sourceid < b.nodeid) ∧ 0 ≤ tedge.sinkid ∧ tedge.sinkid < b.nodeid

/-- A node has the id of no edge. -/
structure Stale (b : Builder) : Prop extends Keys b where
  late : b.graph.numOfEdges < b.edgeid
  stored : ∃ n node, b.graph.getNode n = some node ∧ ∃ id ∈ node.outQ, (b.graph.numOfEdges : Int) ≤ id

theorem mem_ids {edgeQ : List Edge} {p : Edge → Bool} {id : Int} :
    id ∈ ids edgeQ p ↔ ∃ (i : Nat) (tedge : Edge), edgeQ[i]? = some tedge ∧ p tedge = true ∧ id = i := by
  simp only [ids,List.mem_map,List.mem_filter,List.mem_range]
  constructor
  · rintro ⟨i,⟨inside,has⟩,rfl⟩
    rw [List.getElem?_eq_getElem inside] at has
    exact ⟨i,edgeQ[i],List.getElem?_eq_getElem inside,has,rfl⟩
  · rintro ⟨i,tedge,here,has,rfl⟩
    refine ⟨i,⟨(List.getElem?_eq_some_iff.mp here).1,?_⟩,rfl⟩
    rw [here]
    exact has

theorem ids_nodup (edgeQ : List Edge) (p : Edge → Bool) : (ids edgeQ p).Nodup :=
  (List.nodup_range.filter _).map fun _ _ => Int.ofNat.inj

theorem ids_append (edgeQ : List Edge) (p : Edge → Bool) (tedge : Edge) :
    ids (edgeQ ++ [tedge]) p = ids edgeQ p ++ if p tedge then [(edgeQ.length : Int)] else [] := by
  have before : (List.range edgeQ.length).filter (fun i => (edgeQ ++ [tedge])[i]?.any p) =
      (List.range edgeQ.length).filter fun i => edgeQ[i]?.any p := by
    apply List.filter_congr
    intro i inside
    rw [List.getElem?_append_left (List.mem_range.mp inside)]
  rw [ids,List.length_append,List.length_singleton,List.range_succ,List.filter_append,before,List.map_append,ids]
  congr 1
  rw [List.filter_singleton]
  simp only [List.getElem?_concat_length,Option.any_some]
  cases p tedge <;> rfl

theorem ids_eq_nil {edgeQ : List Edge} {p : Edge → Bool} (none : ∀ tedge ∈ edgeQ, p tedge = false) :
    ids edgeQ p = [] := by
  rw [List.eq_nil_iff_forall_not_mem]
  intro id inside
  obtain ⟨i,tedge,here,has,-⟩ := mem_ids.mp inside
  rw [none tedge (List.mem_of_getElem? here)] at has
  exact Bool.false_ne_true has

theorem getEdge_natCast (g : Graph) (i : Nat) : g.getEdge (i : Int) = g.edgeQ[i]? := queueGet_natCast _ _

theorem Kept.valid {g : Graph} {queue : Node → List Int} {nodeid : Edge → Int} (kept : Kept g queue nodeid)
    {n : Int} {node : Node} (here : g.getNode n = some node) {id : Int} (inside : id ∈ queue node) :
    (0 ≤ id ∧ id < g.numOfEdges) ∧ ∃ tedge, g.getEdge id = some tedge ∧ nodeid tedge = n := by
  rw [kept n node here] at inside
  obtain ⟨i,tedge,stored,has,rfl⟩ := mem_ids.mp inside
  refine ⟨⟨Int.natCast_nonneg _,Int.ofNat_lt.mpr (List.getElem?_eq_some_iff.mp stored).1⟩,tedge,?_,beq_iff_eq.mp has⟩
  rw [getEdge_natCast,stored]

theorem Kept.once {g : Graph} {queue : Node → List Int} {nodeid : Edge → Int} (kept : Kept g queue nodeid)
    (ends : ∀ tedge ∈ g.edgeQ, ∃ node, g.getNode (nodeid tedge) = some node) {id : Int} (low : 0 ≤ id)
    (high : id < g.numOfEdges) : ∃! n, ∃ node, g.getNode n = some node ∧ id ∈ queue node := by
  obtain ⟨i,rfl⟩ := Int.eq_ofNat_of_zero_le low
  obtain ⟨tedge,stored⟩ : ∃ tedge, g.edgeQ[i]? = some tedge := ⟨_,List.getElem?_eq_getElem (Int.ofNat_lt.mp high)⟩
  obtain ⟨node,here⟩ := ends tedge (List.mem_of_getElem? stored)
  refine ⟨nodeid tedge,⟨node,here,?_⟩,?_⟩
  · rw [kept _ node here]
    exact mem_ids.mpr ⟨i,tedge,stored,beq_self_eq_true _,rfl⟩
  · rintro n ⟨other,there,inside⟩
    rw [kept n other there] at inside
    obtain ⟨j,found,same,has,equal⟩ := mem_ids.mp inside
    obtain rfl := Int.ofNat.inj equal
    rw [stored] at same
    cases same
    exact (beq_iff_eq.mp has).symm

theorem Linked.represents {b : Builder} (linked : Linked b) : b.graph.Represents := by
  have nodeAt (n : Int) (inside : 0 ≤ n ∧ n < b.nodeid) : ∃ node, b.graph.getNode n = some node :=
    Option.isSome_iff_exists.mp ((linked.keys n).mpr inside)
  refine ⟨fun n node here id inside => linked.out.valid here inside,fun n node here id inside => linked.into.valid here inside,?_,?_,?_⟩
  · intro id low high
    exact linked.out.once (fun tedge inside => nodeAt _ (linked.ends tedge inside).1) low high
  · intro id low high
    exact linked.into.once (fun tedge inside => nodeAt _ (linked.ends tedge inside).2) low high
  · intro n node here
    rw [linked.out n node here,linked.into n node here]
    exact ⟨ids_nodup _ _,ids_nodup _ _⟩

theorem Stale.not_represents {b : Builder} (stale : Stale b) : ¬b.graph.Represents := by
  intro represents
  obtain ⟨n,node,here,id,inside,late⟩ := stale.stored
  have := (represents.out n node here id inside).1.2
  omega

theorem initial_linked : Linked {} where
  keys n := by
    change (none : Option Node).isSome ↔ _
    simp only [Option.isSome_none,Bool.false_eq_true,false_iff]
    rintro ⟨low,high⟩
    change n < (0 : Nat) at high
    omega
  opened _ := rfl
  nodes _ _ _ here := nomatch here
  size := rfl
  out _ _ here := nomatch here
  into _ _ here := nomatch here
  ends _ inside := nomatch inside

/-! The nodes after each change. -/

theorem createNode_getNode {b : Builder} (keys : Keys b) (opened : b.graph.hasFinalize = false) (n : Int) :
    b.createNode.graph.getNode n = if n = b.nodeid then some {} else b.graph.getNode n := by
  rw [createNode,Graph.addNode,opened,if_neg Bool.false_ne_true]
  exact Hash.set_get _ (keys.opened opened) _ _ _

theorem addEdge_update (g : Graph) (opened : g.hasFinalize = false) (tedge : Edge) :
    (g.addEdge tedge).nodeM = g.nodeM ∧ (g.addEdge tedge).hasFinalize = false ∧
      (g.addEdge tedge).edgeQ = (match g.hasEdge tedge.sourceid tedge.sinkid with
        | some idx => g.edgeQ.eraseIdx idx
        | none => g.edgeQ) ++ [tedge] := by
  rw [Graph.addEdge,opened,if_neg Bool.false_ne_true]
  cases g.hasEdge tedge.sourceid tedge.sinkid with
  | none => exact ⟨rfl,opened,rfl⟩
  | some idx =>
    simp only [Graph.delEdge,opened,Bool.false_eq_true,if_false]
    exact ⟨trivial,trivial,trivial⟩

/-- A node with the id of a new edge, in the queues of its ends. -/
def link (node : Node) (edgeid : Int) (source sink : Bool) : Node :=
  {node with
    outQ := node.outQ ++ if source then [edgeid] else []
    inQ := node.inQ ++ if sink then [edgeid] else []}

theorem createEdge_getNode {b : Builder} (keys : Keys b) (opened : b.graph.hasFinalize = false) (sourceid sinkid n : Int) :
    (b.createEdge sourceid sinkid).graph.getNode n =
      (b.graph.getNode n).map fun node => link node b.edgeid (sourceid == n) (sinkid == n) := by
  have before : (b.graph.addEdge ⟨sourceid,sinkid⟩).getNode n = b.graph.getNode n := by
    rw [Graph.getNode,(addEdge_update _ opened _).1]
    rfl
  rw [createEdge,Graph.update_getNode,Graph.update_getNode,before]
  cases here : b.graph.getNode n with
  | none => split <;> split <;> rfl
  | some node =>
    have open' := keys.nodes opened n node here
    have source : (n = sourceid) = ((sourceid == n) = true) := by rw [beq_iff_eq]; exact propext eq_comm
    have sink : (n = sinkid) = ((sinkid == n) = true) := by rw [beq_iff_eq]; exact propext eq_comm
    simp only [source,sink]
    cases node with | mk inQ outQ hasFinalize =>
    subst open'
    cases sourceid == n <;> cases sinkid == n <;> simp [link,Node.addOutEdge,Node.addInEdge]

theorem createEdge_edgeQ {b : Builder} (opened : b.graph.hasFinalize = false) (sourceid sinkid : Int) :
    (b.createEdge sourceid sinkid).graph.edgeQ = (match b.graph.hasEdge sourceid sinkid with
      | some idx => b.graph.edgeQ.eraseIdx idx
      | none => b.graph.edgeQ) ++ [⟨sourceid,sinkid⟩] := (addEdge_update _ opened ⟨sourceid,sinkid⟩).2.2

theorem createEdge_numOfEdges {b : Builder} (opened : b.graph.hasFinalize = false) (sourceid sinkid : Int) :
    (b.createEdge sourceid sinkid).graph.numOfEdges =
      if (b.graph.hasEdge sourceid sinkid).isSome then b.graph.numOfEdges else b.graph.numOfEdges+1 := by
  rw [Graph.numOfEdges,createEdge_edgeQ opened,Graph.numOfEdges]
  cases found : b.graph.hasEdge sourceid sinkid with
  | none => simp
  | some idx =>
    have inside : idx < b.graph.edgeQ.length := (List.findIdx?_eq_some_iff_getElem.mp found).1
    rw [List.length_append,List.length_eraseIdx,if_pos inside]
    simp only [List.length_singleton,Option.isSome_some,if_true]
    omega

/-- `finalize` does not change the edges of a node. -/
theorem finalize_getNode (g : Graph) (n : Int) :
    g.finalize.getNode n = g.getNode n ∨ g.finalize.getNode n = (g.getNode n).map Node.finalize := by
  have all (keys : List Int) (m : Hash Int Node)
      (old : m.get n = g.nodeM.get n ∨ m.get n = (g.nodeM.get n).map Node.finalize) :
      (keys.foldl (fun m key => m.update key Node.finalize) m).get n = g.nodeM.get n ∨
        (keys.foldl (fun m key => m.update key Node.finalize) m).get n = (g.nodeM.get n).map Node.finalize := by
    induction keys generalizing m with
    | nil => exact old
    | cons key keys ih =>
      apply ih
      rw [Hash.update_get]
      split
      case isTrue same =>
        subst same
        right
        rcases old with old | old
        · rw [old]
        · rw [old,Option.map_map]
          rfl
      case isFalse => exact old
  exact all _ _ (.inl rfl)

theorem finalize_queues {g : Graph} {n : Int} {node : Node} (here : g.finalize.getNode n = some node) :
    ∃ old, g.getNode n = some old ∧ node.outQ = old.outQ ∧ node.inQ = old.inQ := by
  rcases finalize_getNode g n with same | final
  · exact ⟨node,same ▸ here,rfl,rfl⟩
  · rw [final] at here
    obtain ⟨old,before,rfl⟩ := Option.map_eq_some_iff.mp here
    exact ⟨old,before,rfl,rfl⟩

theorem finalize_some {g : Graph} {n : Int} {node : Node} (here : g.getNode n = some node) :
    ∃ new, g.finalize.getNode n = some new ∧ new.outQ = node.outQ := by
  rcases finalize_getNode g n with same | final
  · exact ⟨node,same.trans here,rfl⟩
  · exact ⟨_,final.trans (congrArg _ here),rfl⟩

theorem Keys.change {b b' : Builder} {ends : Option (Int × Int)} (keys : Keys b) (change : Change b ends b') : Keys b' := by
  cases change with
  | same => exact keys
  | node opened =>
    refine ⟨fun n => ?_,fun _ => ?_,fun _ n node here => ?_⟩
    · rw [createNode_getNode keys opened]
      change _ ↔ 0 ≤ n ∧ n < ((b.nodeid+1 : Nat) : Int)
      split
      case isTrue same =>
        simp only [Option.isSome_some,true_iff]
        omega
      case isFalse other =>
        rw [keys.keys n]
        omega
    · change (b.graph.addNode b.nodeid {}).nodeM.hasFinalize = false
      rw [Graph.addNode,opened,if_neg Bool.false_ne_true]
      exact (Hash.set_open _ _ _).trans (keys.opened opened)
    · rw [createNode_getNode keys opened] at here
      split at here
      · cases here
        rfl
      · exact keys.nodes opened n node here
  | edge opened source sink =>
    refine ⟨fun n => ?_,fun _ => ?_,fun _ n node here => ?_⟩
    · rw [createEdge_getNode keys opened,Option.isSome_map]
      exact keys.keys n
    · change (b.graph.addEdge _).nodeM.hasFinalize = false
      rw [(addEdge_update _ opened _).1]
      exact keys.opened opened
    · rw [createEdge_getNode keys opened] at here
      obtain ⟨old,before,rfl⟩ := Option.map_eq_some_iff.mp here
      exact keys.nodes opened n old before
  | finalize =>
    refine ⟨fun n => ?_,(nomatch ·),(nomatch ·)⟩
    have some : (b.graph.finalize.getNode n).isSome = (b.graph.getNode n).isSome := by
      rcases finalize_getNode b.graph n with same | final
      · rw [same]
      · rw [final,Option.isSome_map]
    change (b.graph.finalize.getNode n).isSome ↔ _
    rw [some]
    exact keys.keys n

theorem Linked.node {b : Builder} (linked : Linked b) (opened : b.graph.hasFinalize = false) : Linked b.createNode := by
  have edgeQ : b.createNode.graph.edgeQ = b.graph.edgeQ := by
    rw [createNode,Graph.addNode,opened]
    rfl
  have fresh (nodeid : Edge → Int) (ends : ∀ tedge ∈ b.graph.edgeQ, nodeid tedge < b.nodeid) {queue : Node → List Int}
      (kept : Kept b.graph queue nodeid) (empty : queue {} = []) : Kept b.createNode.graph queue nodeid := by
    intro n node here
    rw [createNode_getNode linked.toKeys opened] at here
    rw [edgeQ]
    split at here
    case isTrue same =>
      cases here
      rw [empty,ids_eq_nil]
      intro tedge inside
      rw [beq_eq_false_iff_ne,same]
      exact (ends tedge inside).ne
    case isFalse => exact kept n node here
  refine ⟨linked.toKeys.change (.node opened),?_,?_,?_,?_⟩
  · rw [Graph.numOfEdges,edgeQ]
    exact linked.size
  · exact fresh _ (fun tedge inside => (linked.ends tedge inside).1.2) linked.out rfl
  · exact fresh _ (fun tedge inside => (linked.ends tedge inside).2.2) linked.into rfl
  · intro tedge inside
    rw [edgeQ] at inside
    have old := linked.ends tedge inside
    change (_ ∧ _ < ((b.nodeid+1 : Nat) : Int)) ∧ _ ∧ _ < ((b.nodeid+1 : Nat) : Int)
    omega

theorem Linked.edge {b : Builder} (linked : Linked b) (opened : b.graph.hasFinalize = false) {sourceid sinkid : Int}
    (source : 0 ≤ sourceid ∧ sourceid < b.nodeid) (sink : 0 ≤ sinkid ∧ sinkid < b.nodeid)
    (fresh : b.graph.hasEdge sourceid sinkid = none) : Linked (b.createEdge sourceid sinkid) := by
  have edgeQ : (b.createEdge sourceid sinkid).graph.edgeQ = b.graph.edgeQ ++ [⟨sourceid,sinkid⟩] := by
    rw [createEdge_edgeQ opened,fresh]
  have size : b.edgeid = b.graph.edgeQ.length := linked.size
  have kept {queue : Node → List Int} {nodeid : Edge → Int} (kept : Kept b.graph queue nodeid)
      (linked' : ∀ node n, queue (link node b.edgeid (sourceid == n) (sinkid == n)) =
        queue node ++ if nodeid ⟨sourceid,sinkid⟩ == n then [(b.edgeid : Int)] else []) :
      Kept (b.createEdge sourceid sinkid).graph queue nodeid := by
    intro n node here
    rw [createEdge_getNode linked.toKeys opened] at here
    obtain ⟨old,before,rfl⟩ := Option.map_eq_some_iff.mp here
    rw [linked',kept n old before,edgeQ,ids_append,size]
  refine ⟨linked.toKeys.change (.edge opened source sink),?_,kept linked.out fun _ _ => rfl,kept linked.into fun _ _ => rfl,?_⟩
  · rw [createEdge_numOfEdges opened,fresh]
    exact congrArg (·+1) size
  · intro tedge inside
    rw [edgeQ] at inside
    rcases List.mem_append.mp inside with old | new
    · exact linked.ends tedge old
    · cases List.mem_singleton.mp new
      exact ⟨source,sink⟩

theorem Linked.finalize {b : Builder} (linked : Linked b) : Linked b.finalizeGraph := by
  refine ⟨linked.toKeys.change .finalize,linked.size,?_,?_,linked.ends⟩
  · intro n node here
    obtain ⟨old,before,out,-⟩ := finalize_queues here
    exact out.trans (linked.out n old before)
  · intro n node here
    obtain ⟨old,before,-,into⟩ := finalize_queues here
    exact into.trans (linked.into n old before)

theorem Linked.change {b b' : Builder} {ends : Option (Int × Int)} (linked : Linked b) (change : Change b ends b')
    (fresh : ∀ e ∈ ends, b.graph.hasEdge e.1 e.2 = none) : Linked b' := by
  cases change with
  | same => exact linked
  | node opened => exact linked.node opened
  | edge opened source sink => exact linked.edge opened source sink (fresh _ rfl)
  | finalize => exact linked.finalize

/-- The source of a new edge has its id. -/
theorem createEdge_stored {b : Builder} (keys : Keys b) (opened : b.graph.hasFinalize = false) {sourceid : Int}
    (sinkid : Int) (source : 0 ≤ sourceid ∧ sourceid < b.nodeid) :
    ∃ n node, (b.createEdge sourceid sinkid).graph.getNode n = some node ∧ (b.edgeid : Int) ∈ node.outQ := by
  obtain ⟨node,here⟩ := Option.isSome_iff_exists.mp ((keys.keys sourceid).mpr source)
  refine ⟨sourceid,_,(createEdge_getNode keys opened sourceid sinkid sourceid).trans (congrArg _ here),?_⟩
  simp [link]

/-- An edge that is created again takes the place of the old one, and the next id is no edge's. -/
theorem Linked.again {b b' : Builder} {ends : Option (Int × Int)} (linked : Linked b) (change : Change b ends b')
    (again : ¬∀ e ∈ ends, b.graph.hasEdge e.1 e.2 = none) : Stale b' := by
  cases change with
  | same => exact absurd (fun _ none => nomatch none) again
  | node opened => exact absurd (fun _ none => nomatch none) again
  | finalize => exact absurd (fun _ none => nomatch none) again
  | @edge sourceid sinkid opened source sink =>
    have found : (b.graph.hasEdge sourceid sinkid).isSome := by
      rw [Option.isSome_iff_ne_none]
      intro none
      apply again
      rintro _ ⟨⟩
      exact none
    have many := createEdge_numOfEdges opened sourceid sinkid
    rw [if_pos found,← linked.size] at many
    refine ⟨linked.toKeys.change (.edge opened source sink),?_,?_⟩
    · rw [many]
      exact Nat.lt_succ_self _
    · obtain ⟨n,node,here,inside⟩ := createEdge_stored linked.toKeys opened sinkid source
      exact ⟨n,node,here,_,inside,by rw [many]⟩

theorem Stale.change {b b' : Builder} {ends : Option (Int × Int)} (stale : Stale b) (change : Change b ends b') :
    Stale b' := by
  have keys := stale.toKeys.change change
  obtain ⟨n,node,here,id,inside,late⟩ := stale.stored
  cases change with
  | same => exact stale
  | node opened =>
    have edgeQ : b.createNode.graph.numOfEdges = b.graph.numOfEdges := by
      rw [createNode,Graph.addNode,opened]
      rfl
    refine ⟨keys,edgeQ ▸ stale.late,n,node,?_,id,inside,edgeQ ▸ late⟩
    have old := (stale.keys n).mp (Option.isSome_iff_exists.mpr ⟨node,here⟩)
    rw [createNode_getNode stale.toKeys opened,if_neg old.2.ne]
    exact here
  | @edge sourceid sinkid opened source sink =>
    have many := createEdge_numOfEdges opened sourceid sinkid
    have next := stale.late
    have few : (b.createEdge sourceid sinkid).graph.numOfEdges ≤ b.edgeid := by
      rw [many]
      split <;> omega
    obtain ⟨n,node,here,inside⟩ := createEdge_stored stale.toKeys opened sinkid source
    exact ⟨keys,Nat.lt_succ_of_le few,n,node,here,_,inside,Int.ofNat_le.mpr few⟩
  | finalize =>
    obtain ⟨new,there,out⟩ := finalize_some here
    exact ⟨keys,stale.late,n,new,there,id,out ▸ inside,late⟩

end Builder

open Builder

theorem SeqGraphBuilder.represents_iff (actions : List SeqBuild) :
    (after actions).graph.Represents ↔ Machine.Meets step Fresh {} actions := by
  have keep (b : Builder) (a : SeqBuild) (linked : Linked b) (fresh : Fresh b a) : Linked (step b a) :=
    linked.change (step_change b a) fresh
  constructor
  · intro represents
    have stays (b : Builder) (a : SeqBuild) (stale : Stale b) : Stale (step b a) := stale.change (step_change b a)
    apply (Machine.meets_or keep (fun b a linked again => linked.again (step_change b a) again) stays initial_linked
      actions).resolve_right
    exact fun stale => stale.not_represents represents
  · intro met
    exact (Machine.run_invariant keep initial_linked met).represents

theorem CmpGraphBuilder.represents_iff (mstAgts slvAgts : Nat) (actions : List CmpBuild) :
    (after mstAgts slvAgts actions).graph.Represents ↔
      Machine.Meets step Fresh {mstAgts := mstAgts, slvAgts := slvAgts} actions := by
  have keep (b : CmpBuilder) (a : CmpBuild) (linked : Linked b.toBuilder) (fresh : Fresh b a) :
      Linked (step b a).toBuilder := linked.change (step_change b a) fresh
  constructor
  · intro represents
    have stays (b : CmpBuilder) (a : CmpBuild) (stale : Stale b.toBuilder) : Stale (step b a).toBuilder :=
      stale.change (step_change b a)
    apply (Machine.meets_or keep (fun b a linked again => linked.again (step_change b a) again) stays initial_linked
      actions).resolve_right
    exact fun stale => stale.not_represents represents
  · intro met
    exact (Machine.run_invariant keep initial_linked met).represents

/-- Whatever is built, `get_edge` is silent about an id that is no edge's; and the ids of the nodes
are those of the edges exactly if no edge is created that is in the graph. -/
theorem Graph.built_iff (mstAgts slvAgts : Nat) (seqActions : List SeqBuild) (cmpActions : List CmpBuild) :
    (¬((SeqGraphBuilder.after seqActions).graph.Represents ∧ (SeqGraphBuilder.after seqActions).graph.Reports) ∧
      ((SeqGraphBuilder.after seqActions).graph.Represents ↔
        Machine.Meets SeqGraphBuilder.step SeqGraphBuilder.Fresh {} seqActions)) ∧
    ¬((CmpGraphBuilder.after mstAgts slvAgts cmpActions).graph.Represents ∧
      (CmpGraphBuilder.after mstAgts slvAgts cmpActions).graph.Reports) ∧
    ((CmpGraphBuilder.after mstAgts slvAgts cmpActions).graph.Represents ↔
      Machine.Meets CmpGraphBuilder.step CmpGraphBuilder.Fresh {mstAgts := mstAgts, slvAgts := slvAgts} cmpActions) :=
  ⟨⟨fun both => not_reports _ both.2,SeqGraphBuilder.represents_iff seqActions⟩,
    fun both => not_reports _ both.2,CmpGraphBuilder.represents_iff mstAgts slvAgts cmpActions⟩

/-- An edge created twice leaves its source with an id past the edges, for which no error is reported. -/
theorem Graph.not_built_twice :
    ¬(SeqGraphBuilder.after [.createSeqNode,.createSeqNode,.createSeqEdge 0 1,.createSeqEdge 0 1]).graph.Represents ∧
      ¬(SeqGraphBuilder.after [.createSeqNode,.createSeqNode,.createSeqEdge 0 1,.createSeqEdge 0 1]).graph.Reports := by
  constructor
  · intro represents
    have stored := represents.out 0 ⟨[],[0,1],false⟩ rfl 1 (by decide)
    exact absurd stored.1.2 (by decide)
  · exact not_reports _

/-- Two nodes with one edge between them. -/
def SeqGraphBuilder.twoNodes (sourceid sinkid : Int) : List SeqBuild :=
  [.createSeqNode,.createSeqNode,.createSeqEdge sourceid sinkid]

theorem SeqGraphBuilder.twoNodes_fresh (sourceid sinkid : Int) :
    Machine.Meets step Fresh {} (twoNodes sourceid sinkid) := by
  refine ⟨nofun,nofun,?_,trivial⟩
  intro ends _
  rfl

namespace Graph

def twoNodes (sourceid sinkid : Int) : Graph := (SeqGraphBuilder.after (SeqGraphBuilder.twoNodes sourceid sinkid)).graph

theorem twoNodes_represents (sourceid sinkid : Int) : (twoNodes sourceid sinkid).Represents :=
  (SeqGraphBuilder.represents_iff _).mpr (SeqGraphBuilder.twoNodes_fresh sourceid sinkid)

theorem twoNodes_acyclic : (twoNodes 0 1).Acyclic ∧ (twoNodes 1 0).Acyclic :=
  ⟨acyclic_of_rank id (by decide),acyclic_of_rank (fun n => -n) (by decide)⟩

end Graph

end Smtdv
