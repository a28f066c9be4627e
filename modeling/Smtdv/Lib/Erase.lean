import Mathlib.Data.List.Basic
import Mathlib.Data.List.Induction
import Mathlib.Tactic.Common

/-! Positions of a list erased one after another. An erasure shifts what follows, so a position found
before the first of them is no longer that of the same item. -/
namespace Smtdv.Lib

variable {α : Type*}

/-- An erasure for each position in turn; one past the end does nothing. -/
def eraseIdxs (positions : List Nat) (l : List α) : List α := positions.foldl List.eraseIdx l

/-- The positions of the items that meet a condition. -/
def positionsOf (p : α → Bool) (l : List α) : List Nat := (l.zipIdx.filter fun item => p item.1).map Prod.snd

@[simp] theorem eraseIdxs_nil (l : List α) : eraseIdxs [] l = l := rfl

theorem eraseIdxs_concat (positions : List Nat) (i : Nat) (l : List α) :
    eraseIdxs (positions ++ [i]) l = (eraseIdxs positions l).eraseIdx i := by
  simp [eraseIdxs]

theorem eraseIdxs_sublist (positions : List Nat) (l : List α) : (eraseIdxs positions l).Sublist l := by
  induction positions generalizing l with
  | nil => exact List.Sublist.refl l
  | cons i rest ih => exact (ih _).trans (List.eraseIdx_sublist l i)

/-- What stands before all the positions stays where it is. -/
theorem getElem?_eraseIdxs_lt {positions : List Nat} {i : Nat} (before : ∀ d ∈ positions, i < d) (l : List α) :
    (eraseIdxs positions l)[i]? = l[i]? := by
  induction positions generalizing l with
  | nil => rfl
  | cons d rest ih =>
    obtain ⟨first,later⟩ := List.forall_mem_cons.mp before
    exact (ih later _).trans (List.getElem?_eraseIdx_of_lt first)

/-- What stands behind them moves up by one for each. -/
theorem getElem?_eraseIdxs_ge {positions : List Nat} {i : Nat} (behind : ∀ d ∈ positions, d ≤ i) (l : List α) :
    (eraseIdxs positions l)[i]? = l[i+positions.length]? := by
  induction positions generalizing l with
  | nil => rfl
  | cons d rest ih =>
    obtain ⟨first,later⟩ := List.forall_mem_cons.mp behind
    refine (ih later _).trans ?_
    rw [List.getElem?_eraseIdx_of_ge (by omega),List.length_cons,Nat.add_assoc]

theorem filter_eraseIdx_iff (p : α → Bool) (l : List α) (i : Nat) :
    (l.eraseIdx i).filter p = l.filter p ↔ ∀ x, l[i]? = some x → p x = false := by
  induction l generalizing i with
  | nil => simp
  | cons head rest ih =>
    cases i with
    | zero =>
      rw [List.eraseIdx_cons_zero,List.getElem?_cons_zero]
      constructor
      · rintro same x ⟨⟩
        by_contra kept
        rw [Bool.not_eq_false] at kept
        rw [List.filter_cons_of_pos kept] at same
        exact absurd (congrArg List.length same) (by simp)
      · intro dropped
        rw [List.filter_cons_of_neg (by simpa using dropped head rfl)]
    | succ i =>
      rw [List.eraseIdx_cons_succ,List.getElem?_cons_succ,← ih i]
      by_cases kept : p head
      · rw [List.filter_cons_of_pos kept,List.filter_cons_of_pos kept,List.cons_inj_right]
      · rw [List.filter_cons_of_neg kept,List.filter_cons_of_neg kept]

/-- The `j`-th of ascending positions erases what stood `j` places behind it. -/
theorem filter_eraseIdxs_iff (p : α → Bool) {positions : List Nat} (ascending : positions.Pairwise (· < ·)) (l : List α) :
    (eraseIdxs positions l).filter p = l.filter p ↔
      ∀ j d : Nat, positions[j]? = some d → ∀ x, l[d+j]? = some x → p x = false := by
  induction positions using List.reverseRecOn with
  | nil => simp
  | append_singleton positions d ih =>
    obtain ⟨ascending,-,below⟩ := List.pairwise_append.mp ascending
    have behind : ∀ e ∈ positions, e ≤ d := fun e inside => Nat.le_of_lt (below e inside d (by simp))
    have last := filter_eraseIdx_iff p (eraseIdxs positions l) d
    rw [getElem?_eraseIdxs_ge behind] at last
    rw [eraseIdxs_concat]
    have split : ((eraseIdxs positions l).eraseIdx d).filter p = l.filter p ↔
        (eraseIdxs positions l).filter p = l.filter p ∧
          ((eraseIdxs positions l).eraseIdx d).filter p = (eraseIdxs positions l).filter p := by
      constructor
      · intro same
        have less := (List.eraseIdx_sublist (eraseIdxs positions l) d).filter p
        have all := (eraseIdxs_sublist positions l).filter p
        have kept : (eraseIdxs positions l).filter p = l.filter p :=
          all.eq_of_length_le (same ▸ less.length_le)
        exact ⟨kept,same.trans kept.symm⟩
      · rintro ⟨first,second⟩
        exact second.trans first
    rw [split,ih ascending,last]
    constructor
    · rintro ⟨earlier,final⟩ j e place
      rcases Nat.lt_or_ge j positions.length with before | at_end
      · rw [List.getElem?_append_left before] at place
        exact earlier j e place
      · rw [List.getElem?_append_right at_end,List.getElem?_singleton] at place
        split at place
        · obtain rfl := Option.some.inj place
          obtain rfl : j = positions.length := by omega
          exact final
        · contradiction
    · intro all
      refine ⟨fun j e place => all j e ?_,all positions.length d (by simp)⟩
      rw [List.getElem?_append_left (List.getElem?_eq_some_iff.mp place).1]
      exact place

theorem positionsOf_concat (p : α → Bool) (l : List α) (x : α) :
    positionsOf p (l ++ [x]) = positionsOf p l ++ if p x then [l.length] else [] := by
  by_cases meets : p x <;> simp [positionsOf,List.zipIdx_append,meets]

theorem positionsOf_map {β : Type*} (p : β → Bool) (f : α → β) (l : List α) :
    positionsOf p (l.map f) = positionsOf (fun x => p (f x)) l := by
  induction l using List.reverseRecOn with
  | nil => rfl
  | append_singleton l x ih =>
    rw [List.map_append,List.map_singleton,positionsOf_concat,positionsOf_concat,ih,List.length_map]

theorem positionsOf_length (p : α → Bool) (l : List α) : (positionsOf p l).length = l.countP p := by
  induction l using List.reverseRecOn with
  | nil => rfl
  | append_singleton l x ih =>
    rw [positionsOf_concat,List.length_append,ih,List.countP_append]
    by_cases meets : p x <;> simp [meets]

theorem positionsOf_lt {p : α → Bool} {l : List α} {d : Nat} (inside : d ∈ positionsOf p l) : d < l.length := by
  obtain ⟨item,member,rfl⟩ := List.mem_map.mp inside
  have place := List.mem_zipIdx (List.mem_filter.mp member).1
  omega

theorem positionsOf_ascending (p : α → Bool) (l : List α) : (positionsOf p l).Pairwise (· < ·) := by
  induction l using List.reverseRecOn with
  | nil => exact List.Pairwise.nil
  | append_singleton l x ih =>
    rw [positionsOf_concat]
    refine List.pairwise_append.mpr ⟨ih,by split <;> simp,fun d inside e last => ?_⟩
    split at last
    · rw [List.mem_singleton.mp last]
      exact positionsOf_lt inside
    · exact absurd last List.not_mem_nil

/-- The `j`-th position is that of an item with `j` such items before it. -/
theorem positionsOf_getElem? (p : α → Bool) (l : List α) (j d : Nat) : (positionsOf p l)[j]? = some d ↔
    ∃ x, l[d]? = some x ∧ p x = true ∧ (l.take d).countP p = j := by
  induction l using List.reverseRecOn with
  | nil => simp [positionsOf]
  | append_singleton l x ih =>
    rw [positionsOf_concat]
    rcases Nat.lt_trichotomy d l.length with before | rfl | past
    · rw [List.getElem?_append_left before,List.take_append_of_le_length (Nat.le_of_lt before),← ih]
      rcases Nat.lt_or_ge j (positionsOf p l).length with small | large
      · rw [List.getElem?_append_left small]
      · rw [List.getElem?_append_right large,List.getElem?_eq_none large]
        split
        · rw [List.getElem?_singleton]
          split
          · simp only [Option.some.injEq,reduceCtorEq,iff_false]
            omega
          · rfl
        · simp
    · have fresh : (positionsOf p l)[j]? ≠ some l.length := by
        intro place
        exact Nat.lt_irrefl _ (positionsOf_lt (List.mem_of_getElem? place))
      rw [List.getElem?_append_right (Nat.le_refl _),Nat.sub_self,List.take_left,← positionsOf_length]
      rcases Nat.lt_or_ge j (positionsOf p l).length with small | large
      · rw [List.getElem?_append_left small]
        simp only [fresh,false_iff,List.getElem?_cons_zero]
        rintro ⟨y,-,-,same⟩
        omega
      · rw [List.getElem?_append_right large]
        by_cases meets : p x
        · rw [if_pos meets,List.getElem?_singleton]
          simp only [List.getElem?_cons_zero,Option.some.injEq]
          constructor
          · intro place
            split at place
            · exact ⟨x,rfl,meets,by omega⟩
            · contradiction
          · rintro ⟨y,rfl,-,same⟩
            rw [if_pos (by omega)]
        · rw [if_neg meets]
          simp [meets]
    · have none : (l ++ [x])[d]? = none := List.getElem?_eq_none (by rw [List.length_append,List.length_singleton]; omega)
      rw [none]
      simp only [reduceCtorEq,false_and,exists_false,iff_false]
      intro place
      have bound := List.mem_of_getElem? place
      rw [← positionsOf_concat] at bound
      have bound := positionsOf_lt bound
      rw [List.length_append,List.length_singleton] at bound
      omega

/-- Erasing the positions of the items that meet a condition keeps all the others if what stands, for
each of them, as many places behind it as there are such items before it meets the condition too. -/
theorem eraseIdxs_keeps_iff (p : α → Bool) (l : List α) :
    (eraseIdxs (positionsOf p l) l).filter (!p ·) = l.filter (!p ·) ↔
      ∀ d x, l[d]? = some x → p x = true → ∀ y, l[d+(l.take d).countP p]? = some y → p y = true := by
  rw [filter_eraseIdxs_iff _ (positionsOf_ascending p l)]
  constructor
  · intro all d x here meets y there
    simpa using all _ d ((positionsOf_getElem? p l _ d).mpr ⟨x,here,meets,rfl⟩) y there
  · intro all j d place y there
    obtain ⟨x,here,meets,rfl⟩ := (positionsOf_getElem? p l j d).mp place
    simpa using all d x here meets y there

/-- It leaves exactly the others if and only if there is at most one such item. -/
theorem eraseIdxs_exact_iff (p : α → Bool) (l : List α) :
    eraseIdxs (positionsOf p l) l = l.filter (!p ·) ↔ l.countP p ≤ 1 := by
  have size := positionsOf_length p l
  have ascending := positionsOf_ascending p l
  have place := positionsOf_getElem? p l
  have keeps := eraseIdxs_keeps_iff p l
  have others : l.length = l.countP p + (l.filter (!p ·)).length := by
    rw [List.countP_eq_length_filter]
    exact List.length_eq_length_filter_add p
  generalize positionsOf p l = positions at size ascending place keeps ⊢
  rw [← size]
  cases positions with
  | nil =>
    refine iff_of_true ?_ (Nat.zero_le 1)
    have whole : (l.filter (!p ·)).length = l.length := by
      rw [others,← size]
      exact (Nat.zero_add _).symm
    exact (List.filter_sublist.eq_of_length whole).symm
  | cons d rest =>
    cases rest with
    | nil =>
      refine iff_of_true ?_ (Nat.le_refl 1)
      obtain ⟨x,here,-⟩ := (place 0 d).mp rfl
      have inside : d < l.length := (List.getElem?_eq_some_iff.mp here).1
      have kept : (eraseIdxs [d] l).filter (!p ·) = l.filter (!p ·) := by
        refine keeps.mpr fun e y there meets z behind => ?_
        have alone := (place _ e).mpr ⟨y,there,meets,rfl⟩
        have first := (List.getElem?_eq_some_iff.mp alone).1
        rw [List.length_singleton] at first
        rw [Nat.lt_one_iff.mp first,Nat.add_zero,there] at behind
        exact Option.some.inj behind ▸ meets
      have short : (eraseIdxs [d] l).length = l.length-1 := List.length_eraseIdx_of_lt inside
      rw [← kept]
      refine (List.filter_sublist.eq_of_length ?_).symm
      rw [kept,short,others,← size,List.length_singleton]
      omega
    | cons e rest =>
      -- the second of the items moves in front of all later erasures
      refine iff_of_false (fun same => ?_) (by simp)
      obtain ⟨first,later⟩ := List.pairwise_cons.mp ascending
      have between : d < e := first e List.mem_cons_self
      obtain ⟨x,here,meets,-⟩ := (place 1 e).mp rfl
      have survives : (eraseIdxs (d::e::rest) l)[e-1]? = some x := by
        change (eraseIdxs (e::rest) (l.eraseIdx d))[e-1]? = some x
        rw [getElem?_eraseIdxs_lt,List.getElem?_eraseIdx_of_ge (by omega),Nat.sub_add_cancel (by omega),here]
        intro f inside
        rcases List.mem_cons.mp inside with rfl | inside
        · omega
        · have := (List.pairwise_cons.mp later).1 f inside
          omega
      rw [same] at survives
      have unmet := (List.mem_filter.mp (List.mem_of_getElem? survives)).2
      rw [meets] at unmet
      contradiction

end Smtdv.Lib
