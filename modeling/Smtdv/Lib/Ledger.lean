import Mathlib.Data.List.Nodup
import Mathlib.Data.List.Count
import Mathlib.Tactic.Common

/-! Ledgers: entries under distinct keys, each with an owner, and the set of the keys
that are marked. Counting an owner's entries against its marked ones says whether
all of them are marked. -/
namespace Smtdv.Lib.Ledger

variable {κ ρ : Type*} [DecidableEq κ] [DecidableEq ρ]

def owned (ledger : List (κ × ρ)) (r : ρ) : Nat :=
  ledger.countP fun entry => entry.2 = r

def marked (ledger : List (κ × ρ)) (marks : List κ) (r : ρ) : Nat :=
  ledger.countP fun entry => entry.2 = r ∧ entry.1 ∈ marks

theorem marked_le_owned (ledger : List (κ × ρ)) (marks : List κ) (r : ρ) :
    marked ledger marks r ≤ owned ledger r := by
  apply List.countP_mono_left
  intro entry _ both
  simp only [decide_eq_true_eq] at both ⊢
  exact both.1

/-- An owner's counts agree exactly when every entry of the owner is marked. -/
theorem marked_eq_owned_iff (ledger : List (κ × ρ)) (marks : List κ) (r : ρ) :
    marked ledger marks r = owned ledger r ↔ ∀ entry ∈ ledger, entry.2 = r → entry.1 ∈ marks := by
  induction ledger with
  | nil => simp [marked,owned]
  | cons entry rest ih =>
    have bound := marked_le_owned rest marks r
    simp only [marked,owned,List.countP_cons,List.forall_mem_cons] at ih bound ⊢
    by_cases mine : entry.2 = r
    · by_cases there : entry.1 ∈ marks
      · simpa [mine,there] using ih
      · simp only [mine,there,and_false,decide_false,decide_true,if_true,Bool.false_eq_true,if_false,
          true_implies,false_and,iff_false]
        omega
    · simpa [mine] using ih

/-- Marking one more key counts for the owner of that key and for nobody else. -/
theorem marked_mark (ledger : List (κ × ρ)) (marks : List κ) (k : κ) (owner : ρ)
    (distinct : (ledger.map Prod.fst).Nodup) (member : (k,owner) ∈ ledger) (fresh : k ∉ marks) (r : ρ) :
    marked ledger (marks++[k]) r = marked ledger marks r + if owner = r then 1 else 0 := by
  induction ledger with
  | nil => simp at member
  | cons entry rest ih =>
    obtain ⟨absent,distinct⟩ := List.nodup_cons.mp distinct
    have step (e : κ × ρ) (other : e.1 ≠ k) : (e.2 = r ∧ e.1 ∈ marks++[k]) ↔ (e.2 = r ∧ e.1 ∈ marks) := by
      simp [other]
    simp only [marked,List.countP_cons] at ih ⊢
    rcases List.mem_cons.mp member with same | member
    · subst same
      have tail : rest.countP (fun e => e.2 = r ∧ e.1 ∈ marks++[k]) =
          rest.countP (fun e => e.2 = r ∧ e.1 ∈ marks) := by
        apply List.countP_congr
        intro e inside
        have other : e.1 ≠ k := fun same => absent (List.mem_map.mpr ⟨e,inside,same⟩)
        simp only [decide_eq_true_eq]
        exact step e other
      rw [tail]
      by_cases mine : owner = r <;> simp [mine,fresh]
    · have other : entry.1 ≠ k := fun same =>
        absent (List.mem_map.mpr ⟨(k,owner),member,same.symm⟩)
      rw [ih distinct member]
      simp only [step entry other]
      omega

/-- A new entry under an unmarked key changes no owner's marks. -/
theorem marked_enter (ledger : List (κ × ρ)) (marks : List κ) (entry : κ × ρ)
    (fresh : entry.1 ∉ marks) (r : ρ) : marked (ledger++[entry]) marks r = marked ledger marks r := by
  simp [marked,List.countP_append,fresh]

end Smtdv.Lib.Ledger
