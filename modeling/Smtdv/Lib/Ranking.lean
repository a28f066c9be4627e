import Mathlib.Data.List.Sort

/-! Which elements stand at the first places of a sorted list, and the order that a stable
sort leaves. -/
namespace Smtdv.Lib

variable {α : Type*}

/-- A sort by insertion keeps elements it does not tell apart in the order they had. -/
theorem pairwise_insertionSort_stable {le earlier : α → α → Prop} [DecidableRel le] {xs : List α}
    (total : ∀ x y, le x y ∨ le y x) (trans : ∀ x y z, le x y → le y z → le x z)
    (ordered : xs.Pairwise earlier) :
    (xs.insertionSort le).Pairwise fun x y => le x y ∧ (le y x → earlier x y) := by
  have insert (x : α) (ys : List α) (first : ∀ y ∈ ys, earlier x y)
      (sorted : ys.Pairwise fun x y => le x y ∧ (le y x → earlier x y)) :
      (ys.orderedInsert le x).Pairwise fun x y => le x y ∧ (le y x → earlier x y) := by
    induction ys with
    | nil => simp
    | cons y rest ih =>
      obtain ⟨head,tail⟩ := List.pairwise_cons.mp sorted
      obtain ⟨before,later⟩ := List.forall_mem_cons.mp first
      by_cases small : le x y
      · rw [List.orderedInsert_cons_of_le le rest small]
        refine List.pairwise_cons.mpr ⟨?_,sorted⟩
        rw [List.forall_mem_cons]
        refine ⟨⟨small,fun _ => before⟩,?_⟩
        intro z member
        exact ⟨trans x y z small (head z member).1,fun _ => later z member⟩
      · rw [List.orderedInsert_of_not_le le rest small]
        refine List.pairwise_cons.mpr ⟨?_,ih later tail⟩
        intro z member
        rcases (List.mem_orderedInsert le).mp member with rfl | member
        · exact ⟨(total z y).resolve_left small,fun back => absurd back small⟩
        · exact head z member
  induction xs with
  | nil => simp
  | cons x rest ih =>
    obtain ⟨first,ordered⟩ := List.pairwise_cons.mp ordered
    rw [List.insertionSort_cons]
    apply insert _ _ _ (ih ordered)
    intro y member
    exact first y ((List.mem_insertionSort le).mp member)

theorem before_of_lt {before : α → α → Prop} {rows : List α} (sorted : rows.Pairwise before) {i r : Nat} {x y : α}
    (first : rows[i]? = some x) (second : rows[r]? = some y) (order : i < r) : before x y := by
  obtain ⟨inside,rfl⟩ := List.getElem?_eq_some_iff.mp first
  obtain ⟨inside',rfl⟩ := List.getElem?_eq_some_iff.mp second
  exact List.pairwise_iff_getElem.mp sorted i r inside inside' order

/-- The wanted elements are in the list, at places before the limit, and follow each other without a gap;
those that are not wanted come after all that are. -/
structure Ranked (before : α → α → Prop) (rows : List α) (limit n : Nat) (wanted : Nat → Option α) : Prop where
  inside : ∀ r < n, ∀ x ∈ wanted r, r < limit ∧ x ∈ rows
  ahead : ∀ i r, i < r → r < n → ∀ y ∈ wanted r, ∃ x ∈ wanted i, before x y
  rest : ∀ y ∈ rows, (∀ r < n, wanted r ≠ some y) → ∀ r < n, r < limit → ∃ x ∈ wanted r, before x y

section

variable {before : α → α → Prop} {rows : List α} {limit n : Nat} {wanted : Nat → Option α}

theorem ranked_of_places (sorted : rows.Pairwise before) (places : ∀ r < n, (rows.take limit)[r]? = wanted r) :
    Ranked before rows limit n wanted := by
  have stands {r : Nat} {x : α} (small : r < n) (want : x ∈ wanted r) : r < limit ∧ rows[r]? = some x := by
    have found := (places r small).trans want
    rw [List.getElem?_take] at found
    split_ifs at found with cut
    exact ⟨cut,found⟩
  have ahead {i p : Nat} {y : α} (small : i < n) (cut : i < limit) (found : rows[p]? = some y) (order : i < p) :
      ∃ x ∈ wanted i, before x y := by
    have inside := (List.getElem?_eq_some_iff.mp found).1
    have first : rows[i]? = some rows[i] := List.getElem?_eq_getElem (by omega)
    refine ⟨rows[i],?_,before_of_lt sorted first found order⟩
    rw [Option.mem_def,← places i small,List.getElem?_take_of_lt cut]
    exact first
  refine ⟨?_,?_,?_⟩
  · intro r small x want
    obtain ⟨cut,found⟩ := stands small want
    exact ⟨cut,List.mem_of_getElem? found⟩
  · intro i r order small y want
    obtain ⟨cut,found⟩ := stands small want
    exact ahead (by omega) (by omega) found order
  · intro y member other r small cut
    obtain ⟨p,found⟩ := List.mem_iff_getElem?.mp member
    have past : r < p := by
      by_contra early
      apply other p (by omega)
      rw [← places p (by omega),List.getElem?_take_of_lt (by omega),found]
    exact ahead small cut found past

/-- When the places before `r` hold what is wanted there, nothing wanted at `r` stands before place `r`. -/
theorem Ranked.not_earlier (ranked : Ranked before rows limit n wanted) (irrefl : ∀ x, ¬before x x) {r : Nat}
    (small : r < n) (known : ∀ j < r, rows[j]? = wanted j) {p : Nat} {x : α} (want : wanted r = some x)
    (found : rows[p]? = some x) : r ≤ p := by
  by_contra early
  have same := (known p (by omega)).symm.trans found
  obtain ⟨y,want',order⟩ := ranked.ahead p r (by omega) small x want
  rw [Option.mem_def,same,Option.some.injEq] at want'
  subst want'
  exact irrefl _ order

theorem Ranked.place (ranked : Ranked before rows limit n wanted) (asymm : ∀ x y, before x y → ¬before y x)
    (sorted : rows.Pairwise before) {r : Nat} (small : r < n) (cut : r < limit)
    (known : ∀ j < r, rows[j]? = wanted j) : rows[r]? = wanted r := by
  have irrefl (x : α) : ¬before x x := fun order => asymm x x order order
  cases found : rows[r]? with
  | none =>
    cases want : wanted r with
    | none => rfl
    | some x =>
      obtain ⟨p,there⟩ := List.mem_iff_getElem?.mp (ranked.inside r small x want).2
      have late := ranked.not_earlier irrefl small known want there
      have short := List.getElem?_eq_none_iff.mp found
      have long := (List.getElem?_eq_some_iff.mp there).1
      omega
  | some y =>
    have not_before {x : α} (want : wanted r = some x) : ¬before x y := by
      intro order
      obtain ⟨p,there⟩ := List.mem_iff_getElem?.mp (ranked.inside r small x want).2
      rcases Nat.eq_or_lt_of_le (ranked.not_earlier irrefl small known want there) with rfl | late
      · rw [found,Option.some.injEq] at there
        subst there
        exact irrefl _ order
      · exact asymm x y order (before_of_lt sorted found there late)
    by_cases other : ∀ j < n, wanted j ≠ some y
    · obtain ⟨x,want,order⟩ := ranked.rest y (List.mem_of_getElem? found) other r small cut
      exact absurd order (not_before want)
    · push Not at other
      obtain ⟨j,bound,want⟩ := other
      rcases Nat.lt_trichotomy j r with early | rfl | late
      · exact absurd (before_of_lt sorted ((known j early).trans want) found early) (irrefl y)
      · exact want.symm
      · obtain ⟨x,want',order⟩ := ranked.ahead r j late bound y want
        exact absurd order (not_before want')

theorem Ranked.places (ranked : Ranked before rows limit n wanted) (asymm : ∀ x y, before x y → ¬before y x)
    (sorted : rows.Pairwise before) : ∀ r < n, (rows.take limit)[r]? = wanted r := by
  intro r small
  by_cases cut : r < limit
  · rw [List.getElem?_take_of_lt cut]
    induction r using Nat.strong_induction_on with
    | _ r ih => exact ranked.place asymm sorted small cut fun j early => ih j early (by omega) (by omega)
  · rw [List.getElem?_take,if_neg cut]
    cases want : wanted r with
    | none => rfl
    | some x => exact absurd (ranked.inside r small x want).1 cut

end

/-- The first places of a sorted list, cut at a limit, hold the wanted elements exactly when
these are in the list, follow each other without a gap, and come before all the others. -/
theorem places_iff {before : α → α → Prop} (asymm : ∀ x y, before x y → ¬before y x)
    {rows : List α} (sorted : rows.Pairwise before) (limit n : Nat) (wanted : Nat → Option α) :
    (∀ r < n, (rows.take limit)[r]? = wanted r) ↔
      (∀ r < n, ∀ x ∈ wanted r, r < limit ∧ x ∈ rows) ∧
      (∀ i r, i < r → r < n → ∀ y ∈ wanted r, ∃ x ∈ wanted i, before x y) ∧
      (∀ y ∈ rows, (∀ r < n, wanted r ≠ some y) →
        ∀ r < n, r < limit → ∃ x ∈ wanted r, before x y) := by
  constructor
  · intro places
    obtain ⟨inside,ahead,rest⟩ := ranked_of_places sorted places
    exact ⟨inside,ahead,rest⟩
  · rintro ⟨inside,ahead,rest⟩
    exact Ranked.places ⟨inside,ahead,rest⟩ asymm sorted

end Smtdv.Lib
