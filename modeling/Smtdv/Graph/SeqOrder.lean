import Mathlib.Algebra.GroupWithZero.Nat
import Mathlib.Algebra.Order.BigOperators.Group.List
import Mathlib.Algebra.Order.Group.Nat
import Smtdv.Lib.Acyclic
import Smtdv.Graph.SeqNode

/-! The sequences of an acyclic graph run in its order, each of them once. -/
namespace Smtdv
open Lib

namespace SeqRun

/-- The flags of a node are those of the place where its sequence is, the edges that a sequence
has waited for come from nodes whose sequences have ended, and the log has the events up to there. -/
structure Inv (g : Graph) (s : SeqRun) : Prop where
  locks : ∀ n, s.hasLock n = (s.pc n).locks
  visits : ∀ n, s.hasVisit n = (s.pc n).visits
  past : ∀ n node, g.getNode n = some node → ∀ i id m, (s.pc n).Past i → node.inQ[i]? = some id →
    g.sourceOf id = some m → (s.pc m).ended = true
  events : ∀ n, s.log.filter (fun event => event ∈ Graph.eventsOf n) = (Graph.eventsOf n).take (s.pc n).events
  ordered : InOrder g s.log
  faults : s.faults = []

/-- The places between which a sequence goes. -/
inductive Next (g : Graph) (s : SeqRun) (node : Node) : SeqPc → SeqPc → Prop
  | start : Next g s node .idle (.locking 0)
  | pass {k : Nat} {id m : Int} (into : node.inQ[k]? = some id) (source : g.sourceOf id = some m)
    (ended : (s.pc m).ended = true) : Next g s node (.locking k) (.locking (k+1))
  | lock {k : Nat} (all : node.inQ[k]? = none) : Next g s node (.locking k) .locked
  | body : Next g s node .locked .body
  | finish : Next g s node .body (.unlocking 0)
  | free {k : Nat} {id : Int} (out : node.outQ[k]? = some id) : Next g s node (.unlocking k) (.unlocking (k+1))
  | unlock {k : Nat} (all : node.outQ[k]? = none) : Next g s node (.unlocking k) .unlocked
  | done : Next g s node .unlocked .done

/-- What changes when a sequence goes to a place. -/
structure Moves (s : SeqRun) (n : Int) (pc : SeqPc) (s' : SeqRun) : Prop where
  place : s'.pc = Function.update s.pc n pc
  locks : s'.hasLock = Function.update s.hasLock n pc.locks
  visits : s'.hasVisit = Function.update s.hasVisit n pc.visits
  log : s'.log = s.log ++ ((Graph.eventsOf n).take pc.events).drop (s.pc n).events
  faults : s'.faults = s.faults

variable {g : Graph} {s : SeqRun}

theorem goto_moves {n : Int} {pc : SeqPc} (inv : Inv g s) (locks : pc.locks = (s.pc n).locks)
    (visits : pc.visits = (s.pc n).visits) (events : pc.events = (s.pc n).events) : Moves s n pc (s.goto n pc) := by
  refine ⟨rfl,?_,?_,?_,rfl⟩
  · rw [locks,← inv.locks,Function.update_eq_self]
    rfl
  · rw [visits,← inv.visits,Function.update_eq_self]
    rfl
  · rw [events,List.drop_take_self]
    exact (List.append_nil _).symm

/-- The sink of an edge waits as long as its source has not ended. -/
theorem Inv.sink_free (represents : g.Represents) (inv : Inv g s) {n m : Int} (before : g.Before n m)
    (running : (s.pc n).ended = false) : s.hasLock m = false := by
  obtain ⟨sink,i,id,here,into,comes⟩ := represents.into_source before
  rw [inv.locks]
  have waits : ¬(s.pc m).Past i := by
    intro past
    rw [inv.past m sink here i id n past into comes] at running
    exact Bool.noConfusion running
  cases place : s.pc m with
  | idle | locking _ | unlocked | done => rfl
  | locked | body | unlocking _ =>
    rw [place] at waits
    exact absurd trivial waits

theorem step_cases (represents : g.Represents) (inv : Inv g s) (n : Int) :
    step g s n = s ∨ ∃ node pc, g.getNode n = some node ∧ Next g s node (s.pc n) pc ∧ Moves s n pc (step g s n) := by
  unfold step
  cases here : g.getNode n with
  | none => exact .inl rfl
  | some node =>
    have locks := inv.locks n
    have visits := inv.visits n
    cases place : s.pc n with
    | idle => exact .inr ⟨node,_,rfl,.start,goto_moves inv (by rw [place]; rfl) (by rw [place]; rfl) (by rw [place]; rfl)⟩
    | locking k =>
      simp only [asyncTryLock]
      cases edge : node.inQ[k]? with
      | none =>
        rw [place] at locks visits
        refine .inr ⟨node,_,rfl,.lock edge,rfl,rfl,?_,?_,?_⟩
        · exact (Function.update_eq_self_iff.mpr visits.symm).symm
        · rw [place]
          rfl
        · change s.faults ++ (if s.hasLock n then [.lock] else []) = s.faults
          rw [if_neg (show ¬s.hasLock n = true from Bool.eq_false_iff.mp locks)]
          exact List.append_nil _
      | some id =>
        obtain ⟨m,source,-⟩ := represents.sourceOf here (List.mem_of_getElem? edge)
        simp only [source]
        split
        case isTrue free =>
          rw [inv.locks,inv.visits] at free
          exact .inr ⟨node,_,rfl,.pass edge source ((SeqPc.ended_iff _).mpr free),
            goto_moves inv (by rw [place]; rfl) (by rw [place]; rfl) (by rw [place]; rfl)⟩
        case isFalse => exact .inl rfl
    | locked =>
      rw [place] at locks visits
      simp only [if_pos (show s.hasLock n = true from locks)]
      refine .inr ⟨node,_,rfl,.body,rfl,?_,rfl,?_,rfl⟩
      · exact (Function.update_eq_self_iff.mpr locks.symm).symm
      · rw [place]
        rfl
    | body =>
      rw [place] at locks visits
      refine .inr ⟨node,_,rfl,.finish,rfl,?_,?_,?_,rfl⟩
      · exact (Function.update_eq_self_iff.mpr locks.symm).symm
      · exact (Function.update_eq_self_iff.mpr visits.symm).symm
      · rw [place]
        rfl
    | unlocking k =>
      simp only [asyncTryUnlock]
      cases edge : node.outQ[k]? with
      | none =>
        rw [place] at locks visits
        refine .inr ⟨node,_,rfl,.unlock edge,rfl,rfl,?_,?_,?_⟩
        · exact (Function.update_eq_self_iff.mpr visits.symm).symm
        · rw [place]
          rfl
        · change s.faults ++ (if s.hasLock n then [] else [.unlock]) = s.faults
          rw [if_pos (show s.hasLock n = true from locks)]
          exact List.append_nil _
      | some id =>
        obtain ⟨m,sink,before⟩ := represents.sinkOf here (List.mem_of_getElem? edge)
        have free := inv.sink_free represents before (by rw [place]; rfl)
        have same : s.assertFree m = s := by
          cases s
          simp only at free
          simp [assertFree,NodeRun.assertFree,free]
        simp only [sink,same]
        exact .inr ⟨node,_,rfl,.free edge,goto_moves inv (by rw [place]; rfl) (by rw [place]; rfl) (by rw [place]; rfl)⟩
    | unlocked =>
      rw [place] at locks
      simp only [if_neg (show ¬s.hasLock n = true by rw [locks]; decide)]
      exact .inr ⟨node,_,rfl,.done,goto_moves inv (by rw [place]; rfl) (by rw [place]; rfl) (by rw [place]; rfl)⟩
    | done => exact .inl rfl

theorem Next.events_le {node : Node} {pc pc' : SeqPc} (next : Next g s node pc pc') : pc.events ≤ pc'.events := by
  cases next <;> exact Nat.le_of_ble_eq_true rfl

/-- A sequence that has ended stays so. -/
theorem Next.ended {node : Node} {pc pc' : SeqPc} (next : Next g s node pc pc') (ended : pc.ended = true) :
    pc'.ended = true := by
  cases next <;> first | rfl | exact ended

/-- A sequence goes past an edge into its node after the source has ended. -/
theorem Next.past {node : Node} {pc pc' : SeqPc} (next : Next g s node pc pc') {i : Nat} {id m : Int} (past : pc'.Past i)
    (into : node.inQ[i]? = some id) (source : g.sourceOf id = some m) : pc.Past i ∨ (s.pc m).ended = true := by
  cases next with
  | start => exact absurd past (Nat.not_lt_zero i)
  | @pass k id' m' edge source' ended =>
    rcases Nat.lt_succ_iff_lt_or_eq.mp past with before | rfl
    · exact .inl before
    · rw [into] at edge
      cases edge
      rw [source] at source'
      cases source'
      exact .inr ended
  | @lock k all =>
    left
    change i < k
    by_contra later
    rw [List.getElem?_eq_none_iff] at all
    exact absurd (List.getElem?_eq_some_iff.mp into).1 (by omega)
  | body | finish | free _ | unlock _ | done => exact .inl trivial

theorem Moves.ended {node : Node} {n : Int} {pc : SeqPc} {s' : SeqRun} (moves : Moves s n pc s')
    (next : Next g s node (s.pc n) pc) {m : Int} (ended : (s.pc m).ended = true) : (s'.pc m).ended = true := by
  rw [moves.place]
  by_cases same : m = n
  · subst same
    rw [Function.update_self]
    exact next.ended ended
  · rw [Function.update_of_ne same]
    exact ended

/-- The events of the other nodes are not among those of a node. -/
theorem filter_events_other {n m : Int} (other : m ≠ n) (few many : Nat) :
    (((Graph.eventsOf n).take many).drop few).filter (fun event => event ∈ Graph.eventsOf m) = [] := by
  rw [List.filter_eq_nil_iff]
  intro event inside
  have mine := List.mem_of_mem_take (List.mem_of_mem_drop inside)
  simp only [Graph.eventsOf,List.mem_cons,List.not_mem_nil,or_false] at mine
  rcases mine with rfl | rfl | rfl | rfl <;> simp [Graph.eventsOf,other.symm]

theorem filter_events_self (n : Int) (few many : Nat) :
    (((Graph.eventsOf n).take many).drop few).filter (fun event => event ∈ Graph.eventsOf n) =
      ((Graph.eventsOf n).take many).drop few := by
  rw [List.filter_eq_self]
  intro event inside
  exact decide_eq_true (List.mem_of_mem_take (List.mem_of_mem_drop inside))

/-- A node whose sequence has ended has finished, and has been unlocked. -/
theorem Inv.ended_log (inv : Inv g s) {m : Int} (ended : (s.pc m).ended = true) :
    NodeEvent.finish m ∈ s.log ∧ NodeEvent.unlock m ∈ s.log := by
  have all : (s.pc m).events = 4 := by
    cases place : s.pc m with
    | unlocked | done => rfl
    | idle | locking _ | locked | body | unlocking _ =>
      rw [place] at ended
      exact Bool.noConfusion ended
  have events := inv.events m
  rw [all] at events
  have inside (event : NodeEvent) (mine : event ∈ Graph.eventsOf m) : event ∈ s.log := by
    have kept : event ∈ (Graph.eventsOf m).take 4 := mine
    rw [← events] at kept
    exact (List.mem_filter.mp kept).1
  exact ⟨inside _ (by simp [Graph.eventsOf]),inside _ (by simp [Graph.eventsOf])⟩

/-- Bodies start in order if the last one does. -/
theorem InOrder.append {log events : List NodeEvent} (ordered : InOrder g log)
    (last : ∀ m n, g.Before m n → NodeEvent.start n ∈ events →
      events = [.start n] ∧ NodeEvent.finish m ∈ log ∧ NodeEvent.unlock m ∈ log) : InOrder g (log ++ events) := by
  intro m n before earlier rest split
  rcases List.append_eq_append_iff.mp split with ⟨more,rfl,new⟩ | ⟨more,old,tail⟩
  · have inside : NodeEvent.start n ∈ events := by rw [new]; simp
    obtain ⟨single,finish,unlock⟩ := last m n before inside
    exact ⟨List.mem_append_left _ finish,List.mem_append_left _ unlock⟩
  · cases more with
    | nil =>
      rw [List.append_nil] at old
      have inside : NodeEvent.start n ∈ events := by rw [← List.nil_append events,← tail]; simp
      obtain ⟨-,finish,unlock⟩ := last m n before inside
      exact old ▸ ⟨finish,unlock⟩
    | cons event more =>
      obtain ⟨rfl,-⟩ := List.cons.inj tail
      exact ordered m n before earlier more old

theorem Inv.step (represents : g.Represents) (inv : Inv g s) (n : Int) : Inv g (step g s n) := by
  rcases step_cases represents inv n with same | ⟨node,pc,here,next,moves⟩
  · rw [same]
    exact inv
  generalize SeqRun.step g s n = s' at moves
  constructor
  case locks =>
    intro m
    rw [moves.locks,moves.place,funext inv.locks]
    exact (Function.apply_update (fun _ => SeqPc.locks) s.pc n pc m).symm
  case visits =>
    intro m
    rw [moves.visits,moves.place,funext inv.visits]
    exact (Function.apply_update (fun _ => SeqPc.visits) s.pc n pc m).symm
  case past =>
    intro k other there i id m past into source
    apply moves.ended next
    rw [moves.place] at past
    by_cases same : k = n
    · subst same
      rw [here] at there
      cases there
      rw [Function.update_self] at past
      rcases next.past past into source with before | ended
      · exact inv.past k node here i id m before into source
      · exact ended
    · rw [Function.update_of_ne same] at past
      exact inv.past k other there i id m past into source
  case events =>
    intro m
    rw [moves.log,moves.place,List.filter_append,inv.events]
    by_cases same : m = n
    · subst same
      rw [Function.update_self,filter_events_self]
      have few : (Graph.eventsOf m).take (s.pc m).events = ((Graph.eventsOf m).take pc.events).take (s.pc m).events := by
        rw [List.take_take,Nat.min_eq_left next.events_le]
      rw [few]
      exact List.take_append_drop _ _
    · rw [Function.update_of_ne same,filter_events_other same,List.append_nil]
  case ordered =>
    rw [moves.log]
    apply inv.ordered.append
    intro m k before inside
    have all (past : ∀ i, (s.pc n).Past i) (before : g.Before m n) : (s.pc m).ended = true := by
      obtain ⟨sink,i,id,here',into,comes⟩ := represents.into_source before
      exact inv.past n sink here' i id m (past i) into comes
    generalize place : s.pc n = pc' at next inside
    cases next with
    | body =>
      obtain rfl : k = n := NodeEvent.start.inj (List.mem_singleton.mp inside)
      exact ⟨rfl,inv.ended_log (all (fun i => by rw [place]; trivial) before)⟩
    | start | pass _ _ _ | lock _ | finish | free _ | unlock _ | done =>
      simp [Graph.eventsOf,SeqPc.events] at inside
  case faults => exact moves.faults.trans inv.faults

theorem initial_inv (g : Graph) : Inv g {} where
  locks _ := rfl
  visits _ := rfl
  past _ _ _ _ _ _ past _ _ := past.elim
  events _ := rfl
  ordered _ _ _ before _ split := by simp at split
  faults := rfl

theorem after_inv (represents : g.Represents) (steps : List Int) : Inv g (after g steps) :=
  Machine.run_induction (fun _ n inv => inv.step represents n) steps (initial_inv g)

/-- A sequence that cannot go on has ended, or waits for a node that has not. -/
theorem Inv.stuck (represents : g.Represents) (inv : Inv g s) {n : Int} {node : Node} (here : g.getNode n = some node)
    (stuck : SeqRun.step g s n = s) : s.pc n = .done ∨ ∃ m, g.Before m n ∧ (s.pc m).ended = false := by
  have place (pc : SeqPc) (moves : (SeqRun.step g s n).pc n = pc) : s.pc n = pc := by
    rw [← moves,stuck]
  have locks := inv.locks n
  unfold SeqRun.step at place
  simp only [here] at place
  cases now : s.pc n with
  | idle => simp [now,goto] at place
  | locking k =>
    simp only [now,asyncTryLock] at place
    cases edge : node.inQ[k]? with
    | none => simp [edge,goto] at place
    | some id =>
      obtain ⟨m,source,before⟩ := represents.sourceOf here (List.mem_of_getElem? edge)
      refine .inr ⟨m,before,?_⟩
      rw [← Bool.not_eq_true,SeqPc.ended_iff,← inv.locks,← inv.visits]
      intro free
      simp [edge,source,free,goto] at place
  | locked =>
    rw [now] at locks
    simp [now,show s.hasLock n = true from locks,goto] at place
  | body => simp [now,goto] at place
  | unlocking k =>
    simp only [now,asyncTryUnlock] at place
    cases edge : node.outQ[k]? with
    | none => simp [edge,goto] at place
    | some id =>
      obtain ⟨m,sink,-⟩ := represents.sinkOf here (List.mem_of_getElem? edge)
      simp [edge,sink,goto] at place
  | unlocked =>
    rw [now] at locks
    simp [now,show s.hasLock n = false from locks,goto] at place
  | done => exact .inl rfl

/-- In an acyclic graph one of the sequences that have not ended has all those before it behind it. -/
theorem first_of_acyclic (represents : g.Represents) (acyclic : g.Acyclic) (left : Int → Prop) {n : Int}
    (inside : n ∈ g.getNodes) (here : left n) : ∃ n ∈ g.getNodes, left n ∧ ∀ m, g.Before m n → ¬left m := by
  have finite : {n | n ∈ g.getNodes ∧ left n}.Finite := g.getNodes.finite_toSet.subset fun _ both => both.1
  obtain ⟨first,⟨member,remains⟩,least⟩ := Lib.Acyclic.first acyclic finite ⟨n,inside,here⟩
  refine ⟨first,member,remains,fun m edge also => ?_⟩
  obtain ⟨-,source,-,there,-⟩ := represents.kept edge
  exact least m ⟨Graph.getNode_mem.mpr ⟨source,there⟩,also⟩ edge

theorem Inv.quiet_done (represents : g.Represents) (acyclic : g.Acyclic) (inv : Inv g s) (quiet : Quiet g s) {n : Int}
    (inside : n ∈ g.getNodes) : s.pc n = .done := by
  by_contra running
  obtain ⟨first,member,remains,before⟩ := first_of_acyclic represents acyclic (fun n => s.pc n ≠ .done) inside running
  obtain ⟨node,here⟩ := Graph.getNode_mem.mp member
  obtain ⟨m,edge,waits⟩ := (inv.stuck represents here (quiet first)).resolve_left remains
  rw [not_not.mp (before m edge)] at waits
  exact Bool.noConfusion waits

/-- How many steps a sequence can still take. -/
def remaining (node : Node) : SeqPc → Nat
  | .idle => 6+node.inQ.length+node.outQ.length
  | .locking passed => 5+(node.inQ.length-passed)+node.outQ.length
  | .locked => 4+node.outQ.length
  | .body => 3+node.outQ.length
  | .unlocking passed => 2+(node.outQ.length-passed)
  | .unlocked => 1
  | .done => 0

theorem Next.remaining {node : Node} {pc pc' : SeqPc} (next : Next g s node pc pc') :
    SeqRun.remaining node pc' < SeqRun.remaining node pc := by
  cases next with
  | pass into =>
    have := (List.getElem?_eq_some_iff.mp into).1
    simp only [SeqRun.remaining]
    omega
  | free out =>
    have := (List.getElem?_eq_some_iff.mp out).1
    simp only [SeqRun.remaining]
    omega
  | start | lock _ | body | finish | unlock _ | done =>
    simp only [SeqRun.remaining]
    omega

def work (g : Graph) (s : SeqRun) : Nat :=
  (g.getNodes.map fun n => ((g.getNode n).map fun node => SeqRun.remaining node (s.pc n)).getD 0).sum

/-- Every step that does something leaves less to do. -/
theorem Inv.work_lt (represents : g.Represents) (inv : Inv g s) {n : Int} (does : SeqRun.step g s n ≠ s) :
    work g (SeqRun.step g s n) < work g s := by
  obtain ⟨node,pc,here,next,moves⟩ := (step_cases represents inv n).resolve_left does
  have less : SeqRun.remaining node ((SeqRun.step g s n).pc n) < SeqRun.remaining node (s.pc n) := by
    rw [moves.place,Function.update_self]
    exact next.remaining
  apply List.sum_lt_sum _ _
  · intro m _
    by_cases same : m = n
    · subst same
      rw [here]
      exact less.le
    · rw [moves.place,Function.update_of_ne same]
  · refine ⟨n,Graph.getNode_mem.mpr ⟨node,here⟩,?_⟩
    rw [here]
    exact less

theorem steps_le_work (represents : g.Represents) (inv : Inv g s) {steps : List Int}
    (does : Machine.Meets (SeqRun.step g) (fun s n => SeqRun.step g s n ≠ s) s steps) : steps.length ≤ work g s := by
  induction steps generalizing s with
  | nil => exact Nat.zero_le _
  | cons n steps ih => exact Nat.lt_of_le_of_lt (ih (inv.step represents n) does.2) (inv.work_lt represents does.1)

/-- What holds of the sequences of a graph however they take turns. -/
structure RunsInOrder (g : Graph) : Prop where
  order : ∀ steps, InOrder g (after g steps).log
  faults : ∀ steps, (after g steps).faults = []
  atMostOnce : ∀ steps n, (after g steps).log.filter (fun event => event ∈ Graph.eventsOf n) <+: Graph.eventsOf n
  once : ∀ steps, Quiet g (after g steps) → g.RunsOnce (after g steps).log
  ends : ∃ bound, ∀ steps, Machine.Meets (step g) (fun s n => step g s n ≠ s) {} steps → steps.length ≤ bound

/-- The bodies of the sequences of an acyclic graph start in its order, each sequence is locked and
unlocked once, and no assertion fails; no run of theirs goes on for ever. -/
theorem runsInOrder (creations : List SeqBuild) (once : Machine.Meets SeqGraphBuilder.step SeqGraphBuilder.Fresh {} creations)
    (acyclic : (SeqGraphBuilder.after creations).graph.Acyclic) : RunsInOrder (SeqGraphBuilder.after creations).graph := by
  have represents := (SeqGraphBuilder.represents_iff creations).mpr once
  constructor
  case order => exact fun steps => (after_inv represents steps).ordered
  case faults => exact fun steps => (after_inv represents steps).faults
  case atMostOnce =>
    intro steps n
    rw [(after_inv represents steps).events]
    exact List.take_prefix _ _
  case once =>
    intro steps quiet n inside
    have inv := after_inv represents steps
    rw [inv.events,inv.quiet_done represents acyclic quiet inside]
    rfl
  case ends => exact ⟨_,fun steps does => steps_le_work represents (initial_inv _) does⟩

theorem runsInOrder_twoNodes : RunsInOrder (Graph.twoNodes 0 1) :=
  runsInOrder _ (SeqGraphBuilder.twoNodes_fresh 0 1) Graph.twoNodes_acyclic.1

end SeqRun

end Smtdv
