import Mathlib.Data.List.Nodup
import Smtdv.Graph.Graph

/-! `smtdv_base_algorithm`: the nodes at the ends of a graph, found by a search of its edges. -/
namespace Smtdv.Graph

/-- The loop of `is_source` and `is_sink`, over one end of the edges. -/
def edgesAt (g : Graph) (endid : Edge → Int) (id : Int) (edgeids : List Nat) : Bool × List Nat :=
  g.edgeQ.zipIdx.foldl (fun found tedge =>
    if endid tedge.1 = id then (true,found.2 ++ [tedge.2]) else found) (false,edgeids)

def isSource (g : Graph) (sourceid : Int) (edgeids : List Nat) : Bool × List Nat :=
  g.edgesAt Edge.sourceid sourceid edgeids

def isSink (g : Graph) (sinkid : Int) (edgeids : List Nat) : Bool × List Nat :=
  g.edgesAt Edge.sinkid sinkid edgeids

/-- The loop of `find_initors` and `find_targets`. The edges found are kept from one turn to the next;
`looked` is the end that `find_first_index` compares with the nodes found so far. -/
def findEnds (g : Graph) (isInner : Int → List Nat → Bool × List Nat) (endid looked : Edge → Int)
    (nodeids : List Int) : List Int :=
  (g.edgeQ.foldl (fun found tedge =>
    let inner := isInner (endid tedge) found.2
    if !inner.1 && (found.1.findIdx? (· == looked tedge)).isNone then (found.1 ++ [endid tedge],inner.2)
    else (found.1,inner.2)) (nodeids,[])).1

/-- It is the sink that is looked up. -/
def findInitors (g : Graph) (nodeids : List Int) : List Int := g.findEnds g.isSink Edge.sourceid Edge.sinkid nodeids

def findTargets (g : Graph) (nodeids : List Int) : List Int := g.findEnds g.isSource Edge.sinkid Edge.sinkid nodeids

def Initor (g : Graph) (n : Int) : Prop := (∃ tedge ∈ g.edgeQ, tedge.sourceid = n) ∧ ∀ tedge ∈ g.edgeQ, tedge.sinkid ≠ n

def Target (g : Graph) (n : Int) : Prop := (∃ tedge ∈ g.edgeQ, tedge.sinkid = n) ∧ ∀ tedge ∈ g.edgeQ, tedge.sourceid ≠ n

/-- A search returns each of the nodes exactly once, and nothing else. -/
def Finds (nodeids : List Int) (nodes : Int → Prop) : Prop := nodeids.Nodup ∧ ∀ n, n ∈ nodeids ↔ nodes n

theorem edgesAt_found (g : Graph) (endid : Edge → Int) (id : Int) (edgeids : List Nat) :
    (g.edgesAt endid id edgeids).1 = true ↔ ∃ tedge ∈ g.edgeQ, endid tedge = id := by
  have turns (edges : List Edge) (i : Nat) (found : Bool × List Nat) :
      ((edges.zipIdx i).foldl (fun found tedge =>
        if endid tedge.1 = id then (true,found.2 ++ [tedge.2]) else found) found).1 = true ↔
        found.1 = true ∨ ∃ tedge ∈ edges, endid tedge = id := by
    induction edges generalizing i found with
    | nil => simp
    | cons tedge rest ih =>
      rw [List.zipIdx_cons,List.foldl_cons,ih,List.exists_mem_cons_iff]
      by_cases here : endid tedge = id <;> simp [here]
  exact (turns g.edgeQ 0 (false,edgeids)).trans (by simp)

/-- Without the edges found, which no turn reads. -/
theorem findEnds_eq (g : Graph) (inner endid looked : Edge → Int) (nodeids : List Int) :
    g.findEnds (g.edgesAt inner) endid looked nodeids =
      g.edgeQ.foldl (fun nodeids tedge =>
        if (∀ other ∈ g.edgeQ, inner other ≠ endid tedge) ∧ looked tedge ∉ nodeids then nodeids ++ [endid tedge]
        else nodeids) nodeids := by
  unfold findEnds
  generalize ([] : List Nat) = edgeids
  have turn (nodeids : List Int) (edgeids : List Nat) (tedge : Edge) :
      (!(g.edgesAt inner (endid tedge) edgeids).1 && (nodeids.findIdx? (· == looked tedge)).isNone) = true ↔
        (∀ other ∈ g.edgeQ, inner other ≠ endid tedge) ∧ looked tedge ∉ nodeids := by
    have missing := edgesAt_found g inner (endid tedge) edgeids
    rw [Bool.and_eq_true,Bool.not_eq_true',← Bool.not_eq_true,missing,Option.isNone_iff_eq_none,
      List.findIdx?_eq_none_iff]
    have apart : (∀ n ∈ nodeids, (n == looked tedge) = false) ↔ looked tedge ∉ nodeids := by
      simp only [beq_eq_false_iff_ne]
      exact ⟨fun all inside => all _ inside rfl,fun absent n inside same => absent (same ▸ inside)⟩
    rw [apart]
    simp
  have turns (edges : List Edge) (edgeids : List Nat) (nodeids : List Int) :
      (edges.foldl (fun found tedge =>
        let inner := g.edgesAt inner (endid tedge) found.2
        if !inner.1 && (found.1.findIdx? (· == looked tedge)).isNone then (found.1 ++ [endid tedge],inner.2)
        else (found.1,inner.2)) (nodeids,edgeids)).1 =
      edges.foldl (fun nodeids tedge =>
        if (∀ other ∈ g.edgeQ, inner other ≠ endid tedge) ∧ looked tedge ∉ nodeids then nodeids ++ [endid tedge]
        else nodeids) nodeids := by
    induction edges generalizing edgeids nodeids with
    | nil => rfl
    | cons tedge rest ih =>
      rw [List.foldl_cons,List.foldl_cons]
      by_cases new : (∀ other ∈ g.edgeQ, inner other ≠ endid tedge) ∧ looked tedge ∉ nodeids
      · rw [if_pos new]
        dsimp only
        rw [if_pos ((turn nodeids edgeids tedge).mpr new)]
        exact ih _ _
      · rw [if_neg new]
        dsimp only
        rw [if_neg fun found => new ((turn nodeids edgeids tedge).mp found)]
        exact ih _ _
  exact turns g.edgeQ edgeids nodeids

/-- A search that looks up what it takes finds each node once. -/
theorem findEnds_finds (g : Graph) (inner endid : Edge → Int) :
    Finds (g.findEnds (g.edgesAt inner) endid endid [])
      fun n => (∃ tedge ∈ g.edgeQ, endid tedge = n) ∧ ∀ tedge ∈ g.edgeQ, inner tedge ≠ n := by
  rw [findEnds_eq]
  have turns (edges : List Edge) (nodeids : List Int) (distinct : nodeids.Nodup) :
      Finds (edges.foldl (fun nodeids tedge =>
        if (∀ other ∈ g.edgeQ, inner other ≠ endid tedge) ∧ endid tedge ∉ nodeids then nodeids ++ [endid tedge]
        else nodeids) nodeids)
        fun n => n ∈ nodeids ∨ (∃ tedge ∈ edges, endid tedge = n) ∧ ∀ tedge ∈ g.edgeQ, inner tedge ≠ n := by
    induction edges generalizing nodeids with
    | nil => exact ⟨distinct,by simp⟩
    | cons tedge rest ih =>
      rw [List.foldl_cons]
      by_cases new : (∀ other ∈ g.edgeQ, inner other ≠ endid tedge) ∧ endid tedge ∉ nodeids
      · rw [if_pos new]
        obtain ⟨once,all⟩ := ih (nodeids ++ [endid tedge]) (by simpa using distinct.concat new.2)
        refine ⟨once,fun n => (all n).trans ?_⟩
        beta_reduce
        rw [List.mem_append,List.mem_singleton,List.exists_mem_cons_iff]
        constructor
        · rintro ((old | rfl) | ⟨later,outer⟩)
          · exact .inl old
          · exact .inr ⟨.inl rfl,new.1⟩
          · exact .inr ⟨.inr later,outer⟩
        · rintro (old | ⟨rfl | later,outer⟩)
          · exact .inl (.inl old)
          · exact .inl (.inr rfl)
          · exact .inr ⟨later,outer⟩
      · rw [if_neg new]
        obtain ⟨once,all⟩ := ih nodeids distinct
        refine ⟨once,fun n => (all n).trans ?_⟩
        beta_reduce
        rw [List.exists_mem_cons_iff]
        constructor
        · rintro (old | ⟨later,outer⟩)
          · exact .inl old
          · exact .inr ⟨.inr later,outer⟩
        · rintro (old | ⟨rfl | later,outer⟩)
          · exact .inl old
          · exact .inl (by_contra fun absent => new ⟨outer,absent⟩)
          · exact .inr ⟨later,outer⟩
  exact ⟨(turns g.edgeQ [] List.nodup_nil).1,fun n => ((turns g.edgeQ [] List.nodup_nil).2 n).trans (by simp)⟩

/-- The lookup of the sink never succeeds: an initiator is taken once for every edge that leaves it. -/
theorem findInitors_eq (g : Graph) : g.findInitors [] =
    (g.edgeQ.map Edge.sourceid).filter fun n => ∀ tedge ∈ g.edgeQ, tedge.sinkid ≠ n := by
  change g.findEnds (g.edgesAt Edge.sinkid) Edge.sourceid Edge.sinkid [] = _
  rw [findEnds_eq]
  have turns (edges : List Edge) (inside : ∀ tedge ∈ edges, tedge ∈ g.edgeQ) (nodeids : List Int)
      (outer : ∀ n ∈ nodeids, ∀ tedge ∈ g.edgeQ, tedge.sinkid ≠ n) :
      edges.foldl (fun nodeids tedge =>
        if (∀ other ∈ g.edgeQ, other.sinkid ≠ tedge.sourceid) ∧ tedge.sinkid ∉ nodeids then nodeids ++ [tedge.sourceid]
        else nodeids) nodeids =
      nodeids ++ (edges.map Edge.sourceid).filter fun n => ∀ tedge ∈ g.edgeQ, tedge.sinkid ≠ n := by
    induction edges generalizing nodeids with
    | nil => simp
    | cons tedge rest ih =>
      obtain ⟨here,later⟩ := List.forall_mem_cons.mp inside
      have unseen : tedge.sinkid ∉ nodeids := fun seen => outer _ seen tedge here rfl
      rw [List.foldl_cons,List.map_cons]
      by_cases new : ∀ other ∈ g.edgeQ, other.sinkid ≠ tedge.sourceid
      · rw [if_pos ⟨new,unseen⟩,List.filter_cons_of_pos (by simpa using new),ih later]
        · rw [List.append_assoc]
          rfl
        · intro n seen
          rcases List.mem_append.mp seen with old | same
          · exact outer n old
          · rw [List.mem_singleton.mp same]
            exact new
      · rw [if_neg fun both => new both.1,List.filter_cons_of_neg (by simpa using new),ih later nodeids outer]
  simpa using turns g.edgeQ (fun _ => id) [] (by simp)

theorem mem_findInitors (g : Graph) (n : Int) : n ∈ g.findInitors [] ↔ g.Initor n := by
  simp [findInitors_eq,Initor]

theorem mem_findTargets (g : Graph) (n : Int) : n ∈ g.findTargets [] ↔ g.Target n :=
  (findEnds_finds g Edge.sourceid Edge.sinkid).2 n

/-- The targets are always right, the initiators exactly when each of them has one edge. -/
theorem finds_iff (g : Graph) : (Finds (g.findInitors []) g.Initor ∧ Finds (g.findTargets []) g.Target) ↔
    ∀ n, g.Initor n → (g.edgeQ.countP fun tedge => tedge.sourceid = n) = 1 := by
  have targets : Finds (g.findTargets []) g.Target := findEnds_finds g Edge.sourceid Edge.sinkid
  have times (n : Int) (initor : g.Initor n) :
      (g.findInitors []).count n = g.edgeQ.countP fun tedge => tedge.sourceid = n := by
    rw [findInitors_eq,List.count_filter (by simpa using initor.2),List.count,List.countP_map]
    rfl
  constructor
  · rintro ⟨⟨distinct,-⟩,-⟩ n initor
    rw [← times n initor]
    exact List.count_eq_one_of_mem distinct ((g.mem_findInitors n).mpr initor)
  · intro single
    refine ⟨⟨List.nodup_iff_count_le_one.mpr fun n => ?_,g.mem_findInitors⟩,targets⟩
    by_cases initor : g.Initor n
    · rw [times n initor,single n initor]
    · rw [List.count_eq_zero.mpr fun inside => initor ((g.mem_findInitors n).mp inside)]
      exact Nat.zero_le 1

/-- A node with two edges out of it is returned twice. -/
theorem fanOut_not_finds : let g := (({} : Graph).addEdge ⟨0,1⟩).addEdge ⟨0,2⟩
    ¬(Finds (g.findInitors []) g.Initor ∧ Finds (g.findTargets []) g.Target) := by
  intro g found
  exact absurd found.1.1 (by decide)

end Smtdv.Graph
