import Smtdv.Common.Types

/-! `smtdv_sequence_item` as the scoreboard and the back-door read it, and its `compare`. -/
namespace Smtdv

structure SequenceItem (aw dw : Nat) where
  trsT : TrsType := .rd
  addr : BitVec aw := 0
  addrs : List (BitVec aw) := []
  dataBeat : List (Beat dw) := []
  bytenBeat : List (Byten dw) := []
  offset : Nat := 0
  rsp : TrxRsp := .okay
  success : Bool := false
  addrIdx : Nat := 0
  dataIdx : Nat := 0
  initorid : Int := -1
  targetid : Int := -1
  deriving DecidableEq, Inhabited

/-- `foreach (xs[i]) if (xs[i] != ys[i])`: some element differs from its counterpart. -/
def anyDiffer {α : Type*} [DecidableEq α] (xs ys : List α) : Bool :=
  (List.range xs.length).any fun i => xs[i]? != ys[i]?

theorem anyDiffer_eq_false {α : Type*} [DecidableEq α] {xs ys : List α}
    (size : xs.length = ys.length) : anyDiffer xs ys = false ↔ xs = ys := by
  simp only [anyDiffer,List.any_eq_false,List.mem_range,bne_iff_ne,Classical.not_not]
  constructor
  · intro same
    apply List.ext_getElem size
    intro i left right
    simpa [List.getElem?_eq_getElem left,List.getElem?_eq_getElem right] using same i left
  · rintro rfl i _
    rfl

namespace SequenceItem

variable {aw dw : Nat}

/-- `compare`: data and byte enables are walked for `WR` items only. -/
def compare (it cmp : SequenceItem aw dw) : Bool :=
  if it.trsT ≠ cmp.trsT then false
  else if it.addrs.length ≠ cmp.addrs.length then false
  else if anyDiffer it.addrs cmp.addrs then false
  else if it.trsT = .wr ∧ it.dataBeat.length ≠ cmp.dataBeat.length then false
  else if it.trsT = .wr ∧ anyDiffer it.dataBeat cmp.dataBeat then false
  else if it.trsT = .wr ∧ it.bytenBeat.length ≠ cmp.bytenBeat.length then false
  else if it.trsT = .wr ∧ anyDiffer it.bytenBeat cmp.bytenBeat then false
  else if it.initorid ≠ -1 ∧ cmp.initorid ≠ -1 ∧ it.initorid ≠ cmp.initorid then false
  else if it.targetid ≠ -1 ∧ cmp.targetid ≠ -1 ∧ it.targetid ≠ cmp.targetid then false
  else true

/-- No two items of different initiators, or of different targets, are compared: an
identifier of `-1` is one that nobody has set. -/
def SameIds (it cmp : SequenceItem aw dw) : Prop :=
  (it.initorid = -1 ∨ cmp.initorid = -1 ∨ it.initorid = cmp.initorid) ∧
    (it.targetid = -1 ∨ cmp.targetid = -1 ∨ it.targetid = cmp.targetid)

theorem not_differ {id id' : Int} (same : id = -1 ∨ id' = -1 ∨ id = id') : ¬ (id ≠ -1 ∧ id' ≠ -1 ∧ id ≠ id') := by
  rintro ⟨known,known',other⟩
  rcases same with unset | unset | same
  · exact known unset
  · exact known' unset
  · exact other same

/-- What a write comparison accepts: direction, addresses, data and byte enables agree. -/
theorem compare_wr (it cmp : SequenceItem aw dw) (write : it.trsT = .wr) (ids : it.SameIds cmp) :
    it.compare cmp = true ↔ cmp.trsT = .wr ∧ it.addrs = cmp.addrs ∧
      it.dataBeat = cmp.dataBeat ∧ it.bytenBeat = cmp.bytenBeat := by
  constructor
  · intro accepted
    simp only [compare,write,true_and,if_neg (not_differ ids.1),if_neg (not_differ ids.2)] at accepted
    split_ifs at accepted with kind addrSize addrs dataSize data bytenSize byten
    simp only [ne_eq,Classical.not_not] at kind addrSize dataSize bytenSize
    exact ⟨kind.symm,(anyDiffer_eq_false addrSize).mp (by simpa using addrs),
      (anyDiffer_eq_false dataSize).mp (by simpa using data),
      (anyDiffer_eq_false bytenSize).mp (by simpa using byten)⟩
  · rintro ⟨kind,addrs,data,byten⟩
    have sameAddrs := (anyDiffer_eq_false (congrArg List.length addrs)).mpr addrs
    have sameData := (anyDiffer_eq_false (congrArg List.length data)).mpr data
    have sameByten := (anyDiffer_eq_false (congrArg List.length byten)).mpr byten
    simp only [compare,write,kind,ne_eq,not_true_eq_false,if_false,congrArg List.length addrs,sameAddrs,
      congrArg List.length data,sameData,congrArg List.length byten,sameByten,and_false,Bool.false_eq_true,
      if_neg (not_differ ids.1),if_neg (not_differ ids.2)]

/-- A read comparison looks at the direction and the addresses, and never at the data. -/
theorem compare_rd (it cmp : SequenceItem aw dw) (read : it.trsT = .rd) (kind : cmp.trsT = .rd)
    (addrs : it.addrs = cmp.addrs) (ids : it.SameIds cmp) : it.compare cmp = true := by
  have sameAddrs := (anyDiffer_eq_false (congrArg List.length addrs)).mpr addrs
  simp only [compare,read,kind,ne_eq,not_true_eq_false,if_false,congrArg List.length addrs,sameAddrs,
    Bool.false_eq_true,reduceCtorEq,false_and,if_neg (not_differ ids.1),if_neg (not_differ ids.2)]

end SequenceItem

end Smtdv
