import Mathlib.Data.List.Basic
import Smtdv.Lib.Heap
import Smtdv.Lib.Hexadecimal

/-! `SMTDV_Transfer`, `SMTDV_MailBox` and the functions of `dpi_smtdv_wrapper.cpp` on them. -/
namespace Smtdv.Stl

/-- `ss >> x` for an `unsigned long` in hexadecimal: too large a number is read as the largest. It is that of a text of
digits, as the scanner has them; a blank, a sign or `0x` in front, which the stream reads too, is not among them. -/
def dpiHexstr2Longint (st : List Char) : BitVec 64 :=
  BitVec.ofNat 64 (min (Lib.readHex st 0) (2^64-1))

def dpiLongint2Hexstr (i : BitVec 64) : List Char := Nat.toDigits 16 i.toNat

@[simp] theorem dpiHexstr2Longint_2Hexstr (i : BitVec 64) :
    dpiHexstr2Longint (dpiLongint2Hexstr i) = i := by
  simp only [dpiHexstr2Longint,dpiLongint2Hexstr,Lib.readHex_toDigits]
  rw [Nat.min_eq_left (by have := i.isLt; omega)]
  simp

theorem dpiHexstr2Longint_toNat {st : List Char} (short : st.length ≤ 16) :
    (dpiHexstr2Longint st).toNat = Lib.readHex st 0 := by
  have bound := Lib.readHex_lt st 0
  have power : 16^st.length ≤ 16^16 := Nat.pow_le_pow_right (by decide) short
  rw [dpiHexstr2Longint,BitVec.toNat_ofNat]
  omega

/-- `SMTDV_Transfer`. Its constructor leaves the numbers indeterminate, which is `none`. -/
structure Transfer where
  beginCycle : Option (BitVec 64) := none
  endCycle : Option (BitVec 64) := none
  beginTime : Option (BitVec 64) := none
  endTime : Option (BitVec 64) := none
  addr : Option (BitVec 64) := none
  data : List (BitVec 64) := []
  byten : List (BitVec 32) := []
  id : Option (BitVec 32) := none
  resp : List Char := []
  rw : List Char := []
  bstType : List Char := []
  trxSize : List Char := []
  trxPrt : List Char := []
  lock : Option (BitVec 32) := none
  deriving DecidableEq, Inhabited

namespace Transfer

def setBeginTime (tt : Transfer) (beginTime : List Char) : Transfer :=
  {tt with beginTime := some (dpiHexstr2Longint beginTime)}

def setEndTime (tt : Transfer) (endTime : List Char) : Transfer :=
  {tt with endTime := some (dpiHexstr2Longint endTime)}

def setBeginCycle (tt : Transfer) (beginCycle : List Char) : Transfer :=
  {tt with beginCycle := some (dpiHexstr2Longint beginCycle)}

def setEndCycle (tt : Transfer) (endCycle : List Char) : Transfer :=
  {tt with endCycle := some (dpiHexstr2Longint endCycle)}

def setId (tt : Transfer) (id : List Char) : Transfer :=
  {tt with id := some ((dpiHexstr2Longint id).setWidth 32)}

def setResp (tt : Transfer) (resp : List Char) : Transfer := {tt with resp := resp}

def setRw (tt : Transfer) (rw : List Char) : Transfer := {tt with rw := rw}

def setBstType (tt : Transfer) (bstType : List Char) : Transfer := {tt with bstType := bstType}

def setTrxSize (tt : Transfer) (trxSize : List Char) : Transfer := {tt with trxSize := trxSize}

def setTrxPrt (tt : Transfer) (trxPrt : List Char) : Transfer := {tt with trxPrt := trxPrt}

/-- It is the identifier that is written. -/
def setLock (tt : Transfer) (lock : List Char) : Transfer :=
  {tt with id := some ((dpiHexstr2Longint lock).setWidth 32)}

def setAddr (tt : Transfer) (addr : List Char) : Transfer :=
  {tt with addr := some (dpiHexstr2Longint addr)}

def setData (tt : Transfer) (data : List Char) : Transfer :=
  {tt with data := tt.data ++ [dpiHexstr2Longint data]}

def setByten (tt : Transfer) (data : List Char) : Transfer :=
  {tt with byten := tt.byten ++ [(dpiHexstr2Longint data).setWidth 32]}

def getBeginTime (tt : Transfer) : Option (List Char) := tt.beginTime.map dpiLongint2Hexstr

def getEndTime (tt : Transfer) : Option (List Char) := tt.endTime.map dpiLongint2Hexstr

def getBeginCycle (tt : Transfer) : Option (List Char) := tt.beginCycle.map dpiLongint2Hexstr

def getEndCycle (tt : Transfer) : Option (List Char) := tt.endCycle.map dpiLongint2Hexstr

def getId (tt : Transfer) : Option (List Char) :=
  tt.id.map fun id => dpiLongint2Hexstr (id.setWidth 64)

def getResp (tt : Transfer) : List Char := tt.resp

def getRw (tt : Transfer) : List Char := tt.rw

def getBstType (tt : Transfer) : List Char := tt.bstType

def getTrxSize (tt : Transfer) : List Char := tt.trxSize

def getTrxPrt (tt : Transfer) : List Char := tt.trxPrt

def getLock (tt : Transfer) : Option (List Char) :=
  tt.lock.map fun lock => dpiLongint2Hexstr (lock.setWidth 64)

def getAddr (tt : Transfer) : Option (List Char) := tt.addr.map dpiLongint2Hexstr

/-- An index outside the data fails an assertion, which is `none`. -/
def getData (tt : Transfer) (i : Nat) : Option (List Char) := tt.data[i]?.map dpiLongint2Hexstr

def getByten (tt : Transfer) (i : Nat) : Option (List Char) :=
  tt.byten[i]?.map fun byten => dpiLongint2Hexstr (byten.setWidth 64)

end Transfer

/-- `SMTDV_MailBox`: handles of transfers, and an iterator on them. The iterators of a vector
that has nothing in it, and an iterator never assigned, are null. -/
structure MailBox where
  mVec : List Nat := []
  mIt : Option Nat := none
  instName : List Char
  deriving DecidableEq

namespace MailBox

/-- `m_vec.begin()`. -/
def begin (ft : MailBox) : Option Nat := if ft.mVec = [] then none else some 0

/-- `m_vec.end()`. -/
def stop (ft : MailBox) : Option Nat := if ft.mVec = [] then none else some ft.mVec.length

def push (ft : MailBox) (tt : Nat) : MailBox :=
  let ft := {ft with mVec := ft.mVec ++ [tt]}
  {ft with mIt := ft.begin}

def next (ft : MailBox) : Option Nat × MailBox :=
  if ft.mIt ≠ ft.stop then
    (ft.mIt.bind fun it => ft.mVec[it]?,{ft with mIt := ft.mIt.map (·+1)})
  else (none,ft)

/-- The replies of so many calls of `next`. -/
def nexts : Nat → MailBox → List (Option Nat)
  | 0,_ => []
  | n+1,ft => ft.next.1::nexts n ft.next.2

/-- The iterator stands at a position of the vector, or at its end. -/
def At (ft : MailBox) (it : Nat) : Prop :=
  it ≤ ft.mVec.length ∧ ft.mIt = if ft.mVec = [] then none else some it

theorem next_at {ft : MailBox} {it : Nat} (stands : ft.At it) (before : it < ft.mVec.length) :
    ft.next.1 = ft.mVec[it]? ∧ ft.next.2.mVec = ft.mVec ∧ ft.next.2.At (it+1) := by
  obtain ⟨-,place⟩ := stands
  have filled : ft.mVec ≠ [] := List.ne_nil_of_length_pos (by omega)
  rw [if_neg filled] at place
  have apart : ft.mIt ≠ ft.stop := by
    rw [place,stop,if_neg filled,ne_eq,Option.some.injEq]
    omega
  unfold next
  rw [if_pos apart]
  refine ⟨by simp [place],rfl,?_,?_⟩
  · exact before
  · simp [place,filled]

theorem next_end {ft : MailBox} (stands : ft.At ft.mVec.length) : ft.next = (none,ft) := by
  obtain ⟨-,place⟩ := stands
  unfold next
  rw [if_neg]
  rw [place,stop]
  simp

/-- From a position on, the replies are the rest of the vector and then null. -/
theorem nexts_at (left : Nat) {ft : MailBox} {it : Nat} (stands : ft.At it)
    (size : ft.mVec.length = it+left) :
    ft.nexts (left+1) = (ft.mVec.drop it).map some ++ [none] := by
  induction left generalizing ft it with
  | zero =>
    obtain rfl : ft.mVec.length = it := size
    simp [nexts,next_end stands]
  | succ left ih =>
    have before : it < ft.mVec.length := by omega
    obtain ⟨reply,vec,stands⟩ := next_at stands before
    rw [nexts,ih stands (by rw [vec]; omega),reply,vec,List.drop_eq_getElem_cons before,
      List.getElem?_eq_getElem before]
    rfl

/-- Every transfer pushed is returned once, in the order of the pushes. -/
theorem nexts_pushed {ft : MailBox} (stands : ft.At 0) :
    ft.nexts (ft.mVec.length+1) = ft.mVec.map some ++ [none] := by
  simpa using nexts_at ft.mVec.length stands (by omega)

theorem at_push (ft : MailBox) (tt : Nat) : (ft.push tt).At 0 := by
  simp [At,push,begin]

end MailBox

end Smtdv.Stl
