import Mathlib.Data.List.Flatten
import Smtdv.Graph.Node
import Smtdv.Graph.Represent

/-! `smtdv_graph_scheduler` with nodes of the class `smtdv_node`. The body of its `fork` is one
statement, and so one process: it runs one node after the other, in the order of their ids. -/
namespace Smtdv

namespace Graph

/-- A node whose source is locked is waited for by the only process there is, and so for ever. -/
def asyncTryLock (g : Graph) (s : NodeRun) (n : Int) : Option NodeRun :=
  (g.getNode n).bind fun node =>
    if node.inQ.all fun id => (g.sourceOf id).any fun m => !s.hasLock m then some (s.lock n) else none

def asyncTryUnlock (g : Graph) (s : NodeRun) (n : Int) : Option NodeRun :=
  (g.getNode n).bind fun node =>
    (node.outQ.foldlM (fun s id => (g.sinkOf id).map s.assertFree) s).map fun s => s.unlock n

def midDo (s : NodeRun) (n : Int) : NodeRun := {s with log := s.log ++ [.start n,.finish n]}

def runNode (g : Graph) (s : NodeRun) (n : Int) : Option NodeRun :=
  (g.asyncTryLock s n).bind fun s => g.asyncTryUnlock (midDo s n) n

/-- `run` of the scheduler. -/
def schedule (g : Graph) : Option NodeRun := g.getNodes.foldlM (runNode g) {}

/-- A node starts after all of its source nodes have completed. -/
def StartsAfter (g : Graph) (log : List NodeEvent) : Prop :=
  ∀ m n, g.Before m n → ∀ before rest, log = before ++ .start n::rest → NodeEvent.finish m ∈ before

theorem assertFree_free (s : NodeRun) (n : Int) (free : s.hasLock n = false) : s.assertFree n = s := by
  cases s
  simp only at free
  simp [NodeRun.assertFree,free]

theorem assertFree_sinks (g : Graph) (s : NodeRun) (ids : List Int)
    (free : ∀ id ∈ ids, ∃ m, g.sinkOf id = some m ∧ s.hasLock m = false) :
    ids.foldlM (fun s id => (g.sinkOf id).map s.assertFree) s = some s := by
  induction ids with
  | nil => rfl
  | cons id ids ih =>
    obtain ⟨m,sink,unlocked⟩ := free id (List.mem_cons_self ..)
    rw [List.foldlM_cons,sink,Option.map_some,assertFree_free s m unlocked]
    exact ih fun id inside => free id (List.mem_cons_of_mem _ inside)

/-- A node runs when none is locked. -/
theorem runNode_eq {g : Graph} (represents : g.Represents) (acyclic : g.Acyclic) (s : NodeRun)
    (unlocked : s.hasLock = fun _ => false) {n : Int} (inside : n ∈ g.getNodes) :
    g.runNode s n = some {s with log := s.log ++ eventsOf n} := by
  obtain ⟨node,here⟩ := getNode_mem.mp inside
  have locks : g.asyncTryLock s n = some (s.lock n) := by
    rw [asyncTryLock,here,Option.bind_some,if_pos]
    rw [List.all_eq_true]
    intro id kept
    obtain ⟨m,source,-⟩ := represents.sourceOf here kept
    rw [source,unlocked]
    rfl
  have free : ∀ id ∈ node.outQ, ∃ m, g.sinkOf id = some m ∧ (midDo (s.lock n) n).hasLock m = false := by
    intro id kept
    obtain ⟨m,sink,before⟩ := represents.sinkOf here kept
    refine ⟨m,sink,?_⟩
    change Function.update s.hasLock n true m = false
    rw [Function.update_of_ne (acyclic.ne before).symm,unlocked]
  rw [runNode,locks,Option.bind_some,asyncTryUnlock,here,Option.bind_some,assertFree_sinks g _ _ free]
  cases s
  simp only at unlocked
  subst unlocked
  simp [NodeRun.lock,NodeRun.unlock,midDo,eventsOf]

theorem schedule_eq {g : Graph} (represents : g.Represents) (acyclic : g.Acyclic) :
    g.schedule = some {log := g.getNodes.flatMap eventsOf} := by
  have all (ns : List Int) (inside : ∀ n ∈ ns, n ∈ g.getNodes) (s : NodeRun) (unlocked : s.hasLock = fun _ => false) :
      ns.foldlM (runNode g) s = some {s with log := s.log ++ ns.flatMap eventsOf} := by
    induction ns generalizing s with
    | nil => simp
    | cons n ns ih =>
      have rest := ih (fun n later => inside n (List.mem_cons_of_mem _ later)) {s with log := s.log ++ eventsOf n} unlocked
      rw [List.foldlM_cons,runNode_eq represents acyclic s unlocked (inside n (List.mem_cons_self ..))]
      refine rest.trans ?_
      rw [List.flatMap_cons,List.append_assoc]
  exact all _ (fun _ inside => inside) {} rfl

theorem filter_eventsOf (m n : Int) :
    (eventsOf m).filter (fun event => event ∈ eventsOf n) = if m = n then eventsOf n else [] := by
  by_cases same : m = n
  · subst same
    simp [eventsOf]
  · simp [eventsOf,same]

theorem runsOnce_nodup {ns : List Int} (nodup : ns.Nodup) {n : Int} (inside : n ∈ ns) :
    (ns.flatMap eventsOf).filter (fun event => event ∈ eventsOf n) = eventsOf n := by
  induction ns with
  | nil => exact absurd inside (List.not_mem_nil)
  | cons m ns ih =>
    obtain ⟨fresh,nodup⟩ := List.nodup_cons.mp nodup
    rw [List.flatMap_cons,List.filter_append,filter_eventsOf]
    by_cases same : m = n
    · subst same
      rw [if_pos rfl]
      have none : (ns.flatMap eventsOf).filter (fun event => event ∈ eventsOf m) = [] := by
        rw [List.filter_flatMap,List.flatMap_eq_nil_iff]
        intro n later
        rw [filter_eventsOf,if_neg]
        rintro rfl
        exact fresh later
      rw [none,List.append_nil]
    · rw [if_neg same,List.nil_append]
      exact ih nodup ((List.mem_cons.mp inside).resolve_left (Ne.symm same))

theorem getNodes_sorted (g : Graph) : g.getNodes.Pairwise (· < ·) := List.pairwise_map.mpr g.nodeM.sorted

/-- The nodes that have completed before a node starts are those of a smaller id. -/
theorem finish_mem_iff {ns : List Int} (sorted : ns.Pairwise (· < ·)) {before rest : List NodeEvent} {n : Int}
    (start : ns.flatMap eventsOf = before ++ .start n::rest) (m : Int) : NodeEvent.finish m ∈ before ↔ m ∈ ns ∧ m < n := by
  induction ns generalizing before with
  | nil => simp at start
  | cons first ns ih =>
    obtain ⟨low,sorted⟩ := List.pairwise_cons.mp sorted
    have later {k : Int} {tail : List NodeEvent} (start : ns.flatMap eventsOf = tail ++ .start k::rest) : first < k := by
      have inside : NodeEvent.start k ∈ ns.flatMap eventsOf := by rw [start]; simp
      obtain ⟨other,member,event⟩ := List.mem_flatMap.mp inside
      have same : k = other := by simpa [eventsOf] using event
      exact same ▸ low other member
    match before with
    | [] => simp [eventsOf] at start
    | [event] =>
      obtain ⟨rfl,rfl,-⟩ : event = .lock first ∧ first = n ∧ True := by
        simp only [List.flatMap_cons,eventsOf,List.cons_append,List.nil_append,List.cons.injEq,NodeEvent.start.injEq] at start
        exact ⟨start.1.symm,start.2.1,trivial⟩
      constructor
      · intro inside
        cases List.mem_singleton.mp inside
      · rintro ⟨member,less⟩
        rcases List.mem_cons.mp member with rfl | member
        · exact absurd less (lt_irrefl _)
        · exact absurd less (lt_asymm (low m member))
    | [_,_] => simp [eventsOf] at start
    | [_,_,_] => simp [eventsOf] at start
    | one::two::three::four::tail =>
      simp only [List.flatMap_cons,eventsOf,List.cons_append,List.nil_append,List.cons.injEq] at start
      obtain ⟨rfl,rfl,rfl,rfl,start⟩ := start
      have rest := ih sorted start
      simp only [List.mem_cons,reduceCtorEq,false_or,NodeEvent.finish.injEq,rest]
      constructor
      · rintro (rfl | ⟨member,less⟩)
        · exact ⟨.inl rfl,later start⟩
        · exact ⟨.inr member,less⟩
      · rintro ⟨rfl | member,less⟩
        · exact .inl rfl
        · exact .inr ⟨member,less⟩

theorem startsAfter_iff {g : Graph} (represents : g.Represents) :
    g.StartsAfter (g.getNodes.flatMap eventsOf) ↔ ∀ tedge ∈ g.edgeQ, tedge.sourceid < tedge.sinkid := by
  have nodeOf {m n : Int} (before : g.Before m n) : m ∈ g.getNodes ∧ n ∈ g.getNodes := by
    obtain ⟨-,source,sink,there,here,-⟩ := represents.kept before
    exact ⟨getNode_mem.mpr ⟨source,there⟩,getNode_mem.mpr ⟨sink,here⟩⟩
  constructor
  · intro after tedge inside
    have before : g.Before tedge.sourceid tedge.sinkid := ⟨tedge,inside,rfl,rfl⟩
    have starts : NodeEvent.start tedge.sinkid ∈ g.getNodes.flatMap eventsOf :=
      List.mem_flatMap.mpr ⟨_,(nodeOf before).2,by simp [eventsOf]⟩
    obtain ⟨earlier,rest,split⟩ := List.append_of_mem starts
    exact ((finish_mem_iff (getNodes_sorted g) split _).mp (after _ _ before earlier rest split)).2
  · rintro ordered m n before earlier rest split
    obtain ⟨tedge,inside,rfl,rfl⟩ := before
    exact (finish_mem_iff (getNodes_sorted g) split _).mpr ⟨(nodeOf ⟨tedge,inside,rfl,rfl⟩).1,ordered tedge inside⟩

/-- The scheduler returns, with every node run once and no assertion failed; and the nodes start
after their sources exactly if every edge leads from a smaller id to a larger one. -/
theorem schedule_iff {g : Graph} (represents : g.Represents) (acyclic : g.Acyclic) :
    ∃ s, g.schedule = some s ∧ g.RunsOnce s.log ∧ s.faults = [] ∧
      (g.StartsAfter s.log ↔ ∀ tedge ∈ g.edgeQ, tedge.sourceid < tedge.sinkid) := by
  refine ⟨_,schedule_eq represents acyclic,?_,rfl,startsAfter_iff represents⟩
  intro n inside
  exact runsOnce_nodup ((getNodes_sorted g).imp ne_of_lt) inside

theorem schedule_iff_twoNodes : ∃ s, (twoNodes 0 1).schedule = some s ∧ (twoNodes 0 1).RunsOnce s.log ∧ s.faults = [] ∧
    ((twoNodes 0 1).StartsAfter s.log ↔ ∀ tedge ∈ (twoNodes 0 1).edgeQ, tedge.sourceid < tedge.sinkid) :=
  schedule_iff (twoNodes_represents 0 1) twoNodes_acyclic.1

/-- Node 0 starts before its source, node 1, has completed. -/
theorem not_startsAfter_twoNodes : (twoNodes 1 0).Represents ∧ (twoNodes 1 0).Acyclic ∧
    ∀ s, (twoNodes 1 0).schedule = some s → ¬(twoNodes 1 0).StartsAfter s.log := by
  refine ⟨twoNodes_represents 1 0,twoNodes_acyclic.2,?_⟩
  intro s runs
  rw [schedule_eq (twoNodes_represents 1 0) twoNodes_acyclic.2] at runs
  cases runs
  rw [startsAfter_iff (twoNodes_represents 1 0)]
  decide

end Graph

end Smtdv
