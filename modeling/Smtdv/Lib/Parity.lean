import Mathlib.Data.List.Basic
import Mathlib.Data.Bool.Basic

/-! The parity of a list of bits, and of bits taken apart in lanes. -/
namespace Smtdv.Lib

def parity (bits : List Bool) : Bool := bits.foldr xor false

@[simp] theorem parity_nil : parity [] = false := rfl

@[simp] theorem parity_cons (bit : Bool) (bits : List Bool) : parity (bit::bits) = xor bit (parity bits) := rfl

theorem parity_append (first second : List Bool) :
    parity (first ++ second) = xor (parity first) (parity second) := by
  induction first with
  | nil => simp
  | cons bit first ih => rw [List.cons_append,parity_cons,parity_cons,ih,Bool.xor_assoc]

theorem parity_false {bits : List Bool} (clear : ∀ bit ∈ bits, bit = false) : parity bits = false := by
  induction bits with
  | nil => rfl
  | cons bit bits ih =>
    rw [parity_cons,clear bit (List.mem_cons_self ..),ih fun other inside => clear other (List.mem_cons_of_mem _ inside)]
    rfl

theorem parity_flatMap {α : Type*} (lanes : List α) (bits : α → List Bool) :
    parity (lanes.flatMap bits) = parity (lanes.map fun lane => parity (bits lane)) := by
  induction lanes with
  | nil => rfl
  | cons lane lanes ih => rw [List.flatMap_cons,parity_append,ih,List.map_cons,parity_cons]

theorem parity_map_xor {α : Type*} (lanes : List α) (left right : α → Bool) :
    parity (lanes.map fun lane => xor (left lane) (right lane)) =
      xor (parity (lanes.map left)) (parity (lanes.map right)) := by
  induction lanes with
  | nil => rfl
  | cons lane lanes ih =>
    simp only [List.map_cons,parity_cons,ih]
    generalize left lane = a
    generalize right lane = b
    generalize parity (lanes.map left) = c
    generalize parity (lanes.map right) = d
    cases a <;> cases b <;> cases c <;> cases d <;> rfl

/-- Only the lanes with a bit set matter. -/
theorem parity_range_le {bit : Nat → Bool} {few many : Nat} (le : few ≤ many)
    (clear : ∀ lane, few ≤ lane → bit lane = false) :
    parity ((List.range many).map bit) = parity ((List.range few).map bit) := by
  obtain ⟨more,rfl⟩ := Nat.exists_eq_add_of_le le
  rw [List.range_add,List.map_append,parity_append,List.map_map]
  have rest : parity ((List.range more).map (bit ∘ fun lane => few+lane)) = false := by
    apply parity_false
    intro other inside
    obtain ⟨lane,-,rfl⟩ := List.mem_map.mp inside
    exact clear _ (Nat.le_add_right _ _)
  rw [rest,Bool.xor_false]

theorem parity_range_eq {bit : Nat → Bool} {one other : Nat}
    (clear : ∀ lane, min one other ≤ lane → bit lane = false) :
    parity ((List.range one).map bit) = parity ((List.range other).map bit) :=
  (parity_range_le (Nat.min_le_left _ _) clear).trans (parity_range_le (Nat.min_le_right _ _) clear).symm

end Smtdv.Lib
