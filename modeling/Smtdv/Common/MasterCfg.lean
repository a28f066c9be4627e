import Smtdv.Common.Backdoor

/-! `smtdv_master_cfg`, which says what slave an address is for, and the watch table of
`smtdv_master_retry_seq`. An `int` is its 32 bits. -/
namespace Smtdv

structure MasterCfg where
  mapCfgs : List MapCfg := []

namespace MasterCfg

def addSlave (cfg : MasterCfg) (id startAddr endAddr : BitVec 32) : MasterCfg :=
  {cfg with mapCfgs := cfg.mapCfgs ++ [⟨id.toNat,startAddr.toNat,endAddr.toNat⟩]}

def findSlave (cfg : MasterCfg) (addr : BitVec 32) : BitVec 32 :=
  match Smtdv.findSlave cfg.mapCfgs addr.toNat with
  | some id => BitVec.ofNat 32 id
  | none => -1

end MasterCfg

structure RetrySeq (aw : Nat) where
  watch : List (BitVec aw × BitVec aw) := []

namespace RetrySeq

variable {aw : Nat}

def registerWatchTable (seq : RetrySeq aw) (startAddr endAddr : BitVec aw) : RetrySeq aw :=
  {seq with watch := seq.watch ++ [(startAddr,endAddr)]}

def isAddrToWatch (seq : RetrySeq aw) (addr : BitVec aw) : Bool :=
  0 < (seq.watch.filter fun x => x.1 ≤ addr ∧ addr ≤ x.2).length

end RetrySeq

/-- The range of a slave, with the last address in it. -/
structure SlaveRange where
  id : BitVec 32
  startAddr : BitVec 32
  endAddr : BitVec 32
  deriving DecidableEq

namespace SlaveRange

def Contains (range : SlaveRange) (addr : BitVec 32) : Prop := range.startAddr ≤ addr ∧ addr ≤ range.endAddr

instance (range : SlaveRange) (addr : BitVec 32) : Decidable (range.Contains addr) :=
  inferInstanceAs (Decidable (_ ∧ _))

def register (ranges : List SlaveRange) : MasterCfg :=
  ranges.foldl (fun cfg range => cfg.addSlave range.id range.startAddr range.endAddr) {}

def watched (ranges : List SlaveRange) : RetrySeq 32 :=
  ranges.foldl (fun seq range => seq.registerWatchTable range.startAddr range.endAddr) {}

/-- The address is decoded as the ranges say, and as the retry sequence takes them. -/
structure Decodes (ranges : List SlaveRange) (addr : BitVec 32) : Prop where
  inside : ∀ range ∈ ranges, range.Contains addr → (register ranges).findSlave addr = range.id
  outside : (∀ range ∈ ranges, ¬range.Contains addr) → (register ranges).findSlave addr = -1
  agrees : (register ranges).findSlave addr ≠ -1 ↔ (watched ranges).isAddrToWatch addr = true

theorem register_mapCfgs (ranges : List SlaveRange) : (register ranges).mapCfgs =
    ranges.map fun range => ⟨range.id.toNat,range.startAddr.toNat,range.endAddr.toNat⟩ := by
  induction ranges using List.reverseRecOn with
  | nil => rfl
  | append_singleton ranges range ih =>
    rw [register,List.foldl_append,← register,List.map_append,← ih]
    rfl

theorem watched_watch (ranges : List SlaveRange) :
    (watched ranges).watch = ranges.map fun range => (range.startAddr,range.endAddr) := by
  induction ranges using List.reverseRecOn with
  | nil => rfl
  | append_singleton ranges range ih =>
    rw [watched,List.foldl_append,← watched,List.map_append,← ih]
    rfl

theorem isAddrToWatch_iff (ranges : List SlaveRange) (addr : BitVec 32) :
    (watched ranges).isAddrToWatch addr = true ↔ ∃ range ∈ ranges, range.Contains addr := by
  rw [RetrySeq.isAddrToWatch,watched_watch,decide_eq_true_eq,List.length_filter_pos_iff]
  simp [Contains]

/-- What `find_slave` looks for: the end is not taken as part of the range. -/
def hits (ranges : List SlaveRange) (addr : BitVec 32) : List SlaveRange :=
  ranges.filter fun range => range.startAddr ≤ addr ∧ addr < range.endAddr

theorem mapCfgs_filter (ranges : List SlaveRange) (addr : BitVec 32) :
    ((register ranges).mapCfgs.filter fun cfg => cfg.startAddr ≤ addr.toNat ∧ addr.toNat < cfg.endAddr) =
      (hits ranges addr).map fun range => ⟨range.id.toNat,range.startAddr.toNat,range.endAddr.toNat⟩ := by
  rw [register_mapCfgs,List.filter_map]
  rfl

theorem findSlave_one {ranges : List SlaveRange} {addr : BitVec 32} {range : SlaveRange}
    (one : hits ranges addr = [range]) : (register ranges).findSlave addr = range.id := by
  rw [MasterCfg.findSlave,Smtdv.findSlave,mapCfgs_filter,one]
  exact (BitVec.ofNat_toNat _ _).trans (BitVec.setWidth_eq _)

theorem findSlave_none {ranges : List SlaveRange} {addr : BitVec 32} (none : hits ranges addr = []) :
    (register ranges).findSlave addr = -1 := by
  rw [MasterCfg.findSlave,Smtdv.findSlave,mapCfgs_filter,none]
  rfl

theorem hits_disjoint {ranges : List SlaveRange} (disjoint : ranges.Pairwise fun a b => ∀ x, ¬(a.Contains x ∧ b.Contains x))
    {addr : BitVec 32} {range : SlaveRange} (member : range ∈ ranges) (inside : range.Contains addr) :
    hits ranges addr = if addr = range.endAddr then [] else [range] := by
  have keeps (other : SlaveRange) (apart : ¬other.Contains addr) :
      ¬(other.startAddr ≤ addr ∧ addr < other.endAddr) := fun both => apart ⟨both.1,BitVec.le_of_lt both.2⟩
  unfold hits
  induction ranges with
  | nil => exact absurd member List.not_mem_nil
  | cons head rest ih =>
    obtain ⟨first,disjoint⟩ := List.pairwise_cons.mp disjoint
    rcases List.mem_cons.mp member with rfl | member
    · have others : rest.filter (fun range => range.startAddr ≤ addr ∧ addr < range.endAddr) = [] := by
        rw [List.filter_eq_nil_iff]
        intro other later
        rw [decide_eq_true_eq]
        exact keeps other fun there => first other later addr ⟨inside,there⟩
      rw [List.filter_cons,others]
      by_cases last : addr = range.endAddr
      · rw [if_pos last,if_neg]
        rw [decide_eq_true_eq,last]
        exact fun both => BitVec.lt_irrefl _ both.2
      · rw [if_neg last,if_pos]
        rw [decide_eq_true_eq]
        exact ⟨inside.1,BitVec.lt_of_le_ne inside.2 last⟩
    · rw [List.filter_cons_of_neg]
      · exact ih disjoint member
      · rw [decide_eq_true_eq]
        exact keeps head fun there => first range member addr ⟨there,inside⟩

/-- Disjoint ranges are decoded right at every address but the last one of a range. -/
theorem decodes_iff (ranges : List SlaveRange)
    (disjoint : ranges.Pairwise fun a b => ∀ x, ¬(a.Contains x ∧ b.Contains x)) (addr : BitVec 32) :
    Decodes ranges addr ↔ ∀ range ∈ ranges, range.Contains addr → addr ≠ range.endAddr ∧ range.id ≠ -1 := by
  constructor
  · intro decodes range member inside
    have named : range.id ≠ -1 := by
      rw [← decodes.inside range member inside,decodes.agrees,isAddrToWatch_iff]
      exact ⟨range,member,inside⟩
    refine ⟨fun last => named ?_,named⟩
    rw [← decodes.inside range member inside]
    exact findSlave_none ((hits_disjoint disjoint member inside).trans (if_pos last))
  · intro before
    have found (range : SlaveRange) (member : range ∈ ranges) (inside : range.Contains addr) :
        (register ranges).findSlave addr = range.id :=
      findSlave_one ((hits_disjoint disjoint member inside).trans (if_neg (before range member inside).1))
    have missing (outside : ∀ range ∈ ranges, ¬range.Contains addr) : (register ranges).findSlave addr = -1 := by
      apply findSlave_none
      rw [hits,List.filter_eq_nil_iff]
      intro range member
      rw [decide_eq_true_eq]
      exact fun both => outside range member ⟨both.1,BitVec.le_of_lt both.2⟩
    refine ⟨found,missing,?_⟩
    rw [isAddrToWatch_iff]
    constructor
    · intro valid
      by_contra outside
      exact valid (missing fun range member inside => outside ⟨range,member,inside⟩)
    · rintro ⟨range,member,inside⟩
      rw [found range member inside]
      exact (before range member inside).2

/-- The ranges of the two slaves on the bus. -/
def apbRanges : List SlaveRange := [⟨0,0x10000000,0x7fffffff⟩,⟨1,0x80000000,0xffffffff⟩]

theorem apbRanges_disjoint : apbRanges.Pairwise fun a b => ∀ x, ¬(a.Contains x ∧ b.Contains x) := by
  rw [apbRanges,List.pairwise_pair]
  rintro x ⟨⟨-,high⟩,low,-⟩
  exact absurd (BitVec.le_trans low high) (by decide)

theorem apbRanges_decodes : Decodes apbRanges 0x80000000 :=
  (decodes_iff apbRanges apbRanges_disjoint 0x80000000).mpr (by decide)

/-- The last address of all is for no slave. -/
theorem apbRanges_not_decodes : ¬Decodes apbRanges 0xffffffff := by
  intro decodes
  exact absurd (decodes.inside ⟨1,0x80000000,0xffffffff⟩ (by decide) (by decide)) (by decide)

end SlaveRange

end Smtdv
