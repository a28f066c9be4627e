import Mathlib.Logic.Function.Basic

/-! Objects passed by handle: a store of cells with allocation and update in place. -/
namespace Smtdv.Lib

/-- Cells `0, …, next-1` are allocated; the others hold a value nobody reads. -/
structure Heap (α : Type*) where
  next : Nat
  cell : Nat → α

namespace Heap

variable {α : Type*}

def empty [Inhabited α] : Heap α := ⟨0,fun _ => default⟩

def get (h : Heap α) (r : Nat) : α := h.cell r

def alloc (h : Heap α) (value : α) : Heap α :=
  ⟨h.next+1,Function.update h.cell h.next value⟩

def modify (h : Heap α) (r : Nat) (f : α → α) : Heap α :=
  ⟨h.next,Function.update h.cell r (f (h.cell r))⟩

@[simp] theorem empty_next [Inhabited α] : (empty : Heap α).next = 0 := rfl

@[simp] theorem empty_get [Inhabited α] (r : Nat) : (empty : Heap α).get r = default := rfl

@[simp] theorem alloc_next (h : Heap α) (value : α) : (h.alloc value).next = h.next+1 := rfl

@[simp] theorem modify_next (h : Heap α) (r : Nat) (f : α → α) : (h.modify r f).next = h.next := rfl

@[simp] theorem alloc_get_next (h : Heap α) (value : α) : (h.alloc value).get h.next = value := by
  simp [get,alloc]

theorem alloc_get_ne (h : Heap α) (value : α) {r : Nat} (other : r ≠ h.next) :
    (h.alloc value).get r = h.get r := by
  simp [get,alloc,other]

theorem alloc_get (h : Heap α) (value : α) (r : Nat) :
    (h.alloc value).get r = if r = h.next then value else h.get r := by
  by_cases same : r = h.next
  · simp [same]
  · simp [same,alloc_get_ne]

@[simp] theorem modify_get_self (h : Heap α) (r : Nat) (f : α → α) :
    (h.modify r f).get r = f (h.get r) := by
  simp [get,modify]

theorem modify_get_ne (h : Heap α) (f : α → α) {r q : Nat} (other : q ≠ r) :
    (h.modify r f).get q = h.get q := by
  simp [get,modify,other]

theorem modify_get (h : Heap α) (r q : Nat) (f : α → α) :
    (h.modify r f).get q = if q = r then f (h.get q) else h.get q := by
  by_cases same : q = r
  · simp [same]
  · simp [same,modify_get_ne]

theorem modify_modify (h : Heap α) (r : Nat) (f g : α → α) :
    (h.modify r f).modify r g = h.modify r fun x => g (f x) := by
  simp [modify]

theorem alloc_modify (h : Heap α) (value : α) (f : α → α) :
    (h.alloc value).modify h.next f = h.alloc (f value) := by
  simp [alloc,modify]

theorem modify_id (h : Heap α) (r : Nat) : h.modify r (fun x => x) = h := by
  simp [modify]

theorem modify_get_field {β : Type*} (h : Heap α) (r q : Nat) (f : α → α) (field : α → β)
    (kept : ∀ x, field (f x) = field x) : field ((h.modify r f).get q) = field (h.get q) := by
  rw [modify_get]
  split
  · exact kept _
  · rfl

end Heap

end Smtdv.Lib
