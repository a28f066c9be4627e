import Mathlib.Data.List.Basic
import Mathlib.Order.Lattice
import Mathlib.Tactic.Common

/-! `smtdv_hash`: an associative array, its entries kept in key order. -/
namespace Smtdv

variable {K V : Type*} [LinearOrder K]

/-- Writing one entry: an entry of the same key is replaced. -/
def insertEntry (key : K) (val : V) : List (K × V) → List (K × V)
  | [] => [(key,val)]
  | entry::rest =>
    if key < entry.1 then (key,val)::entry::rest
    else if key = entry.1 then (key,val)::rest
    else entry::insertEntry key val rest

theorem insertEntry_keys (key : K) (val : V) (entries : List (K × V)) (entry : K × V)
    (member : entry ∈ insertEntry key val entries) : entry.1 = key ∨ entry ∈ entries := by
  induction entries with
  | nil => simp_all [insertEntry]
  | cons head rest ih =>
    simp only [insertEntry] at member
    split_ifs at member with before same <;> simp only [List.mem_cons] at member ⊢
    · rcases member with rfl | member
      · exact .inl rfl
      · exact .inr member
    · rcases member with rfl | member
      · exact .inl rfl
      · exact .inr (.inr member)
    · rcases member with rfl | member
      · exact .inr (.inl rfl)
      · exact (ih member).imp_right .inr

theorem insertEntry_sorted (key : K) (val : V) (entries : List (K × V))
    (sorted : entries.Pairwise (fun a b => a.1 < b.1)) :
    (insertEntry key val entries).Pairwise (fun a b => a.1 < b.1) := by
  induction entries with
  | nil => simp [insertEntry]
  | cons head rest ih =>
    obtain ⟨first,tail⟩ := List.pairwise_cons.mp sorted
    simp only [insertEntry]
    split_ifs with before same
    · refine List.pairwise_cons.mpr ⟨fun entry member => ?_,sorted⟩
      rcases List.mem_cons.mp member with rfl | member
      · exact before
      · exact lt_trans before (first entry member)
    · subst same
      exact List.pairwise_cons.mpr ⟨first,tail⟩
    · refine List.pairwise_cons.mpr ⟨fun entry member => ?_,ih tail⟩
      rcases insertEntry_keys key val rest entry member with same' | member
      · rw [same']
        exact lt_of_le_of_ne (not_lt.mp before) (Ne.symm same)
      · exact first entry member

def lookupEntry (k : K) : List (K × V) → Option V
  | [] => none
  | entry::rest => if k = entry.1 then some entry.2 else lookupEntry k rest

theorem lookup_insertEntry (key : K) (val : V) (entries : List (K × V)) (k : K) :
    lookupEntry k (insertEntry key val entries) =
      if k = key then some val else lookupEntry k entries := by
  induction entries with
  | nil => simp [insertEntry,lookupEntry]
  | cons head rest ih =>
    by_cases before : key < head.1
    · simp [insertEntry,before,lookupEntry]
    · by_cases same : key = head.1
      · subst same
        rw [insertEntry,if_neg before,if_pos rfl]
        by_cases hk : k = head.1 <;> simp [lookupEntry,hk]
      · by_cases hk : k = key
        · subst hk
          simpa [insertEntry,before,same,lookupEntry] using ih
        · simp only [hk,if_false] at ih
          simp [insertEntry,before,same,lookupEntry,hk,ih]

/-- `smtdv_hash#(KEY, VAL)`. -/
structure Hash (K V : Type*) [LinearOrder K] where
  entries : List (K × V)
  hasFinalize : Bool
  sorted : entries.Pairwise (fun a b => a.1 < b.1)

namespace Hash

def empty : Hash K V := ⟨[],false,.nil⟩

def finalize (h : Hash K V) : Hash K V := {h with hasFinalize := true}

/-- `get`, with `none` for the default handle of an absent key; `exists` is `isSome` of it. -/
def get (h : Hash K V) (key : K) : Option V := lookupEntry key h.entries

/-- `set`: ignored once the table is finalized. -/
def set (h : Hash K V) (key : K) (val : V) : Hash K V :=
  if h.hasFinalize then h
  else {h with entries := insertEntry key val h.entries, sorted := insertEntry_sorted key val _ h.sorted}

def keys (h : Hash K V) : List K := h.entries.map (·.1)

/-- An update of the object stored at a key, made through its handle. -/
def update (h : Hash K V) (key : K) (f : V → V) : Hash K V :=
  {h with
    entries := h.entries.map fun entry => (entry.1,if entry.1 = key then f entry.2 else entry.2)
    sorted := List.pairwise_map.mpr h.sorted}

/-- `delete`: ignored once the table is finalized. -/
def delete (h : Hash K V) (key : K) : Hash K V :=
  if h.hasFinalize then h
  else {h with entries := h.entries.filter fun entry => entry.1 ≠ key, sorted := h.sorted.filter _}

/-- The table with something else for every object in it. -/
def mapVal {W : Type*} (h : Hash K V) (f : V → W) : Hash K W where
  entries := h.entries.map fun entry => (entry.1,f entry.2)
  hasFinalize := h.hasFinalize
  sorted := List.pairwise_map.mpr h.sorted

@[simp] theorem empty_get (k : K) : (empty : Hash K V).get k = none := rfl

@[simp] theorem empty_open : (empty : Hash K V).hasFinalize = false := rfl

@[simp] theorem set_open (h : Hash K V) (key : K) (val : V) :
    (h.set key val).hasFinalize = h.hasFinalize := by
  unfold set
  split <;> rfl

@[simp] theorem update_open (h : Hash K V) (key : K) (f : V → V) :
    (h.update key f).hasFinalize = h.hasFinalize := rfl

theorem set_get (h : Hash K V) (opened : h.hasFinalize = false) (key : K) (val : V) (k : K) :
    (h.set key val).get k = if k = key then some val else h.get k := by
  simp only [set,opened,Bool.false_eq_true,if_false,get]
  exact lookup_insertEntry key val h.entries k

theorem update_get (h : Hash K V) (key : K) (f : V → V) (k : K) :
    (h.update key f).get k = if k = key then (h.get k).map f else h.get k := by
  simp only [get,update]
  induction h.entries with
  | nil => simp [lookupEntry]
  | cons head rest ih =>
    by_cases there : k = head.1
    · subst there
      by_cases same : head.1 = key <;> simp [lookupEntry,same]
    · simpa [lookupEntry,there] using ih

theorem delete_get (h : Hash K V) (opened : h.hasFinalize = false) (key k : K) :
    (h.delete key).get k = if k = key then none else h.get k := by
  simp only [delete,opened,Bool.false_eq_true,if_false,get]
  induction h.entries with
  | nil => simp [lookupEntry]
  | cons head rest ih =>
    by_cases gone : head.1 = key
    · rw [List.filter_cons_of_neg (by simpa using gone),ih,lookupEntry,gone]
      by_cases same : k = key <;> simp [same]
    · rw [List.filter_cons_of_pos (by simpa using gone),lookupEntry,lookupEntry,ih]
      by_cases here : k = head.1
      · subst here
        simp [gone]
      · simp [here]

section

variable {W : Type*} (h : Hash K V) (f : V → W)

theorem mapVal_get (k : K) : (h.mapVal f).get k = (h.get k).map f := by
  simp only [get,mapVal]
  induction h.entries with
  | nil => rfl
  | cons head rest ih =>
    by_cases here : k = head.1 <;> simp [lookupEntry,here,ih]

@[simp] theorem mapVal_open : (h.mapVal f).hasFinalize = h.hasFinalize := rfl

theorem mapVal_keys : (h.mapVal f).keys = h.keys := by
  simp [keys,mapVal]

theorem insertEntry_map (key : K) (val : V) (entries : List (K × V)) :
    (insertEntry key val entries).map (fun entry => (entry.1,f entry.2)) =
      insertEntry key (f val) (entries.map fun entry => (entry.1,f entry.2)) := by
  induction entries with
  | nil => rfl
  | cons head rest ih =>
    simp only [insertEntry,List.map_cons]
    split_ifs with before same
    · rfl
    · rfl
    · rw [List.map_cons,ih]

theorem mapVal_set (key : K) (val : V) : (h.set key val).mapVal f = (h.mapVal f).set key (f val) := by
  unfold set
  by_cases closed : h.hasFinalize = true
  · rw [if_pos closed,if_pos (show (h.mapVal f).hasFinalize = true from closed)]
  · rw [if_neg closed,if_neg (show ¬(h.mapVal f).hasFinalize = true from closed)]
    unfold mapVal
    congr 1
    exact insertEntry_map f key val h.entries

theorem mapVal_update (key : K) {g : V → V} {g' : W → W} (same : ∀ v, f (g v) = g' (f v)) :
    (h.update key g).mapVal f = (h.mapVal f).update key g' := by
  unfold update mapVal
  congr 1
  rw [List.map_map,List.map_map]
  apply List.map_congr_left
  intro entry _
  simp only [Function.comp_apply]
  split
  · rw [same]
  · rfl

end

@[simp] theorem delete_open (h : Hash K V) (key : K) : (h.delete key).hasFinalize = h.hasFinalize := by
  unfold delete
  split <;> rfl

theorem mem_keys (h : Hash K V) (k : K) : k ∈ h.keys ↔ (h.get k).isSome = true := by
  simp only [keys,get]
  induction h.entries with
  | nil => simp [lookupEntry]
  | cons head rest ih =>
    by_cases here : k = head.1 <;> simp [lookupEntry,here,ih]

theorem keys_nodup (h : Hash K V) : h.keys.Nodup := by
  refine List.pairwise_map.mpr (h.sorted.imp fun before => ?_)
  exact ne_of_lt before

end Hash

end Smtdv
