import Mathlib.Data.List.Induction
import Mathlib.Logic.Function.Basic
import Smtdv.Common.Backdoor

/-! `smtdv_generic_memory` with its callback, which records every byte stored in the table of
the memory. -/
namespace Smtdv

variable {aw : Nat}

structure Memory (aw : Nat) where
  memory : BitVec aw → Option (BitVec 8) := fun _ => none
  hasLock : Bool := false
  table : List MemRow := []
  /- an assertion of `lock` or `unlock` has failed -/
  failed : Bool := false

namespace Memory

def lock (m : Memory aw) : Memory aw := {m with hasLock := true, failed := m.failed || m.hasLock}

def unlock (m : Memory aw) : Memory aw := {m with hasLock := false, failed := m.failed || !m.hasLock}

/-- A turn of the loop of `mem_store_byte`, with `mem_store_byte_cb`. -/
def storeByte (m : Memory aw) (addr : BitVec aw) (data : BitVec 8) (cyc : Nat) : Memory aw :=
  {m with
    memory := Function.update m.memory addr (some data)
    table := m.table ++ [⟨addr.toNat,.wr,data,cyc⟩]}

def memStoreByte (m : Memory aw) (addr : BitVec aw) (data : List (BitVec 8)) (cyc : Nat) : Memory aw :=
  data.zipIdx.foldl (fun m byte => m.storeByte (addr + BitVec.ofNat aw byte.2) byte.1 cyc) m

/-- A turn of the loop of `mem_load_byte`: a byte never stored is stored as unknown, which
reads as zero in a two-state variable. -/
def loadByte (m : Memory aw) (addr : BitVec aw) : Memory aw × BitVec 8 :=
  let data := (m.memory addr).getD 0
  ({m with memory := Function.update m.memory addr (some data)},data)

def memLoadByte (m : Memory aw) (addr : BitVec aw) (bcnt : Nat) : Memory aw × List (BitVec 8) :=
  (List.range bcnt).foldl (fun loaded i =>
    let next := loaded.1.loadByte (addr + BitVec.ofNat aw i)
    (next.1,loaded.2 ++ [next.2])) (m,[])

/-- What a load of the byte returns. -/
def contents (m : Memory aw) (addr : BitVec aw) : BitVec 8 := (m.memory addr).getD 0

theorem contents_storeByte (m : Memory aw) (addr other : BitVec aw) (data : BitVec 8) (cyc : Nat) :
    (m.storeByte addr data cyc).contents other = if other = addr then data else m.contents other := by
  by_cases same : other = addr
  · subst same
    simp [contents,storeByte]
  · simp [contents,storeByte,same]

theorem contents_loadByte (m : Memory aw) (addr other : BitVec aw) :
    (m.loadByte addr).1.contents other = m.contents other := by
  by_cases same : other = addr
  · subst same
    simp [contents,loadByte]
  · simp [contents,loadByte,same]

/-- The byte that a store of these bytes, the first of them at number `i`, leaves at an
address: the last one that goes there. -/
def coveringFrom (addr : BitVec aw) : List (BitVec 8) → Nat → BitVec aw → Option (BitVec 8)
  | [],_,_ => none
  | byte::rest,i,other =>
    (coveringFrom addr rest (i+1) other).or (if addr + BitVec.ofNat aw i = other then some byte else none)

def covering (addr : BitVec aw) (data : List (BitVec 8)) (other : BitVec aw) : Option (BitVec 8) :=
  coveringFrom addr data 0 other

/-- Stores of several bytes, oldest first. -/
abbrev Writes (aw : Nat) := List (BitVec aw × List (BitVec 8))

/-- The byte of the latest store that covers an address. -/
def latest (writes : Writes aw) (other : BitVec aw) : Option (BitVec 8) :=
  writes.foldl (fun found write => (covering write.1 write.2 other).or found) none

theorem contents_memStoreByte (m : Memory aw) (addr other : BitVec aw) (data : List (BitVec 8))
    (cyc : Nat) : (m.memStoreByte addr data cyc).contents other =
      (covering addr data other).getD (m.contents other) := by
  have turns (i : Nat) (m : Memory aw) : ((data.zipIdx i).foldl (fun m byte =>
      m.storeByte (addr + BitVec.ofNat aw byte.2) byte.1 cyc) m).contents other =
      (coveringFrom addr data i other).getD (m.contents other) := by
    induction data generalizing i m with
    | nil => rfl
    | cons byte rest ih =>
      rw [List.zipIdx_cons,List.foldl_cons,ih,contents_storeByte,coveringFrom]
      by_cases here : addr + BitVec.ofNat aw i = other
      · rw [if_pos here.symm,if_pos here]
        cases coveringFrom addr rest (i+1) other <;> rfl
      · rw [if_neg (Ne.symm here),if_neg here,Option.or_none]
  exact turns 0 m

/-- What a lane search finds: the last lane whose byte goes to the address. -/
theorem coveringFrom_spec (addr other : BitVec aw) (data : List (BitVec 8)) (i : Nat) :
    (coveringFrom addr data i other = none ∧
      ∀ j < data.length, addr + BitVec.ofNat aw (i+j) ≠ other) ∨
    ∃ j byte, data[j]? = some byte ∧ coveringFrom addr data i other = some byte ∧
      addr + BitVec.ofNat aw (i+j) = other ∧
      ∀ l < data.length, addr + BitVec.ofNat aw (i+l) = other → l ≤ j := by
  induction data generalizing i with
  | nil => exact .inl ⟨rfl,by simp⟩
  | cons byte rest ih =>
    rcases ih (i+1) with ⟨missed,none⟩ | ⟨j,found,at_j,covered,reached,last⟩
    · have later (l : Nat) (inside : l+1 < (byte::rest).length) :
          addr + BitVec.ofNat aw (i+(l+1)) ≠ other := by
        rw [show i+(l+1) = i+1+l from by omega]
        exact none l (by simpa using inside)
      by_cases here : addr + BitVec.ofNat aw i = other
      · refine .inr ⟨0,byte,rfl,?_,here,?_⟩
        · rw [coveringFrom,missed,if_pos here]
          rfl
        · intro l inside reached
          cases l with
          | zero => exact Nat.le_refl 0
          | succ l => exact absurd reached (later l inside)
      · refine .inl ⟨?_,?_⟩
        · rw [coveringFrom,missed,if_neg here]
          rfl
        · intro l inside
          cases l with
          | zero => exact here
          | succ l => exact later l inside
    · refine .inr ⟨j+1,found,at_j,?_,?_,?_⟩
      · rw [coveringFrom,covered]
        rfl
      · rw [show i+(j+1) = i+1+j from by omega]
        exact reached
      · intro l inside reached
        cases l with
        | zero => omega
        | succ l =>
          rw [show i+(l+1) = i+1+l from by omega] at reached
          have bound := last l (by simpa using inside) reached
          omega

/-- No two lanes of a store that fits go to one address. -/
theorem covering_eq (addr other : BitVec aw) (data : List (BitVec 8)) (fits : data.length ≤ 2^aw) :
    covering addr data other = data[(other-addr).toNat]? := by
  have lane (j : Nat) (inside : j < data.length) (reached : addr + BitVec.ofNat aw (0+j) = other) :
      (other-addr).toNat = j := by
    subst reached
    rw [Nat.zero_add,BitVec.add_comm,BitVec.add_sub_cancel,BitVec.toNat_ofNat]
    exact Nat.mod_eq_of_lt (by omega)
  rcases coveringFrom_spec addr other data 0 with ⟨missed,none⟩ | ⟨j,byte,at_j,covered,reached,-⟩
  · rw [covering,missed]
    apply Eq.symm
    rw [List.getElem?_eq_none_iff]
    by_contra inside
    apply none (other-addr).toNat (by omega)
    rw [Nat.zero_add,BitVec.ofNat_toNat,BitVec.setWidth_eq,BitVec.add_comm,BitVec.sub_add_cancel]
  · have inside := (List.getElem?_eq_some_iff.mp at_j).1
    rw [covering,covered,lane j inside reached,at_j]

@[simp] theorem latest_nil (other : BitVec aw) : latest [] other = none := rfl

theorem latest_append (writes later : Writes aw) (other : BitVec aw) :
    latest (writes ++ later) other = (latest later other).or (latest writes other) := by
  induction later using List.reverseRecOn with
  | nil => simp
  | append_singleton later write ih =>
    rw [← List.append_assoc]
    simp only [latest,List.foldl_append,List.foldl_cons,List.foldl_nil] at ih ⊢
    rw [ih,Option.or_assoc]

/-- After stores in turn, a byte is the one of the latest store that covers it. -/
theorem contents_writes (writes : Writes aw) (m : Memory aw) (cyc : Nat) (other : BitVec aw) :
    (writes.foldl (fun m write => m.memStoreByte write.1 write.2 cyc) m).contents other =
      (latest writes other).getD (m.contents other) := by
  induction writes using List.reverseRecOn with
  | nil => rfl
  | append_singleton writes write ih =>
    rw [List.foldl_append,List.foldl_cons,List.foldl_nil,contents_memStoreByte,ih]
    simp only [latest,List.foldl_append,List.foldl_cons,List.foldl_nil]
    cases covering write.1 write.2 other <;> rfl

theorem memStoreByte_lock (m : Memory aw) (addr : BitVec aw) (data : List (BitVec 8)) (cyc : Nat) :
    (m.memStoreByte addr data cyc).hasLock = m.hasLock ∧
      (m.memStoreByte addr data cyc).failed = m.failed := by
  unfold memStoreByte
  induction data.zipIdx generalizing m with
  | nil => exact ⟨rfl,rfl⟩
  | cons byte rest ih => exact ih _

theorem writes_lock (writes : Writes aw) (m : Memory aw) (cyc : Nat) :
    let after := writes.foldl (fun m write => m.memStoreByte write.1 write.2 cyc) m
    after.hasLock = m.hasLock ∧ after.failed = m.failed := by
  induction writes generalizing m with
  | nil => exact ⟨rfl,rfl⟩
  | cons write rest ih =>
    obtain ⟨lock,failed⟩ := ih (m.memStoreByte write.1 write.2 cyc)
    obtain ⟨lock',failed'⟩ := memStoreByte_lock m write.1 write.2 cyc
    exact ⟨lock.trans lock',failed.trans failed'⟩

/-- A load returns the contents, and leaves them and the lock as they are. -/
theorem memLoadByte_eq (m : Memory aw) (addr : BitVec aw) (bcnt : Nat) :
    let loaded := m.memLoadByte addr bcnt
    loaded.2 = (List.range bcnt).map (fun i => m.contents (addr + BitVec.ofNat aw i)) ∧
      loaded.1.contents = m.contents ∧ loaded.1.hasLock = m.hasLock ∧ loaded.1.failed = m.failed := by
  induction bcnt with
  | zero => exact ⟨rfl,rfl,rfl,rfl⟩
  | succ bcnt ih =>
    obtain ⟨bytes,kept,lock,failed⟩ := ih
    have turn : m.memLoadByte addr (bcnt+1) =
        (((m.memLoadByte addr bcnt).1.loadByte (addr + BitVec.ofNat aw bcnt)).1,
          (m.memLoadByte addr bcnt).2 ++
            [((m.memLoadByte addr bcnt).1.loadByte (addr + BitVec.ofNat aw bcnt)).2]) := by
      simp [memLoadByte,List.range_succ]
    rw [turn]
    refine ⟨?_,?_,lock,failed⟩
    · have byte : ((m.memLoadByte addr bcnt).1.loadByte (addr + BitVec.ofNat aw bcnt)).2 =
          m.contents (addr + BitVec.ofNat aw bcnt) := congrFun kept _
      rw [bytes,byte,List.range_succ,List.map_append]
      rfl
    · funext other
      exact (contents_loadByte _ _ _).trans (congrFun kept other)

end Memory

end Smtdv
