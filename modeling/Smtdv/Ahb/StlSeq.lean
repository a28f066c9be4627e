import Mathlib.Data.Nat.Digits.Defs
import Smtdv.Ahb.Boundary
import Smtdv.Stl.Replay

/-! `ahb_master_stl_seq`: the items made of the transfers of a parsed file. -/
namespace Smtdv.Stl.SubBodyStmt

/-- The data columns of a line. -/
def columns : SubBodyStmt → List TIdentifier
  | ahb body => body.data.columns
  | apb body => body.data.columns
  | xbus body => body.data.columns.map Prod.fst

/-- The address column of a line. -/
def addr : SubBodyStmt → TIdentifier
  | ahb body => body.addr
  | apb body => body.addr
  | xbus body => body.addr

theorem transfer_data (body : SubBodyStmt) :
    body.transfer.data = body.columns.map fun column => dpiHexstr2Longint column.text := by
  cases body with
  | ahb body => rfl
  | apb body => rfl
  | xbus body => simp [transfer,columns]

theorem transfer_addr (body : SubBodyStmt) : body.transfer.addr = some (dpiHexstr2Longint body.addr.text) := by
  cases body <;> rfl

end Smtdv.Stl.SubBodyStmt

namespace Smtdv.Ahb
open Lib Stl

variable {aw dw : Nat}

def bstTypeOf (text : List Char) : BstType :=
  if text = "SINGLE".toList then .single
  else if text = "INCR".toList then .incr
  else if text = "WRAP4".toList then .wrap4
  else if text = "INCR4".toList then .incr4
  else if text = "WRAP8".toList then .wrap8
  else if text = "INCR8".toList then .incr8
  else if text = "WRAP16".toList then .wrap16
  else if text = "INCR16".toList then .incr16
  else .single

def trxSizeOf (text : List Char) : TrxSize :=
  if text = "B8".toList then .b8
  else if text = "B16".toList then .b16
  else if text = "B32".toList then .b32
  else if text = "B64".toList then .b64
  else if text = "B128".toList then .b128
  else if text = "B256".toList then .b256
  else if text = "B512".toList then .b512
  else if text = "B1024".toList then .b1024
  else .b32

/-- The enumeration leaves the bits that a name says nothing of unknown, which is 0 in `trx_prt`. -/
def trxPrtOf (text : List Char) : BitVec 4 :=
  if text = "OPCODE_FETCH".toList then 0
  else if text = "DATA_ACCESS".toList then 1
  else if text = "USER_ACCESS".toList then 0
  else if text = "PRIVILEGED_ACCESS".toList then 2
  else if text = "NOT_BUFFERABLE".toList then 0
  else if text = "BUFFERABLE".toList then 4
  else if text = "NOT_CACHEABLE".toList then 0
  else if text = "CACHEABLE".toList then 8
  else 0

def rspOf (text : List Char) : TrxRsp :=
  if text = "OKAY".toList then .okay
  else if text = "ERROR".toList then .error
  else if text = "RETRY".toList then .retry
  else if text = "SPLIT".toList then .split
  else .okay

/-- `data_beat[idx][i] = data` on a queue: the element after the last one comes into being. -/
def setLane (dataBeat : List (Beat dw)) (idx : Nat) (i : Fin (dw/8)) (data : BitVec 8) : List (Beat dw) :=
  if idx < dataBeat.length then dataBeat.modify idx fun beat => Function.update beat i data
  else if idx = dataBeat.length then dataBeat ++ [Function.update default i data]
  else dataBeat

/-- `pack_data(idx, idata)`. -/
def packBeat (dataBeat : List (Beat dw)) (idx : Nat) (idata : BitVec dw) : List (Beat dw) :=
  (List.finRange (dw/8)).foldl (fun dataBeat i => setLane dataBeat idx i (packData idata i)) dataBeat

/-- An item of the sequence; a field filled from a number that nobody set is `none`. -/
structure StlItem (aw dw : Nat) where
  trsT : TrsType
  addr : BitVec aw
  bstType : BstType
  bstLen : Nat
  trxSize : TrxSize
  trxPrt : BitVec 4
  addrs : List (BitVec aw)
  dataBeat : List (Beat dw)
  rsp : TrxRsp
  hmastlock : Option (BitVec 1)
  bgCyc : Option (BitVec 64)
  edCyc : Option (BitVec 64)

namespace StlItem

/-- `pack_data` for column `i`, or the assertion that there is one. -/
def packColumn (tt : Transfer) (dataBeat : List (Beat dw)) (i : Nat) : Option (List (Beat dw)) :=
  (tt.getData i).map fun data => packBeat dataBeat i ((dpiHexstr2Longint data).signExtend dw)

/-- A turn of the loop of `pre_body`. A `longint` is extended by its sign. -/
def build (tt : Transfer) : Option (StlItem aw dw) := do
  let addr := (dpiHexstr2Longint (← tt.getAddr)).signExtend aw
  let bstType := bstTypeOf tt.getBstType
  -- the item is new, and has no addresses yet
  let bstLen := getBstLen bstType ([] : List (BitVec aw))
  let trxSize := trxSizeOf tt.getTrxSize
  let dataBeat ← (List.range (bstLen+1)).foldlM (packColumn tt) []
  return {
    trsT := if tt.getRw = "w".toList then .wr else .rd
    addr := addr
    bstType := bstType
    bstLen := bstLen
    trxSize := trxSize
    trxPrt := trxPrtOf tt.getTrxPrt
    addrs := postAddr dw addr trxSize.ctorIdx bstLen bstType
    dataBeat := dataBeat
    rsp := rspOf tt.getResp
    hmastlock := tt.getLock.map fun lock => (dpiHexstr2Longint lock).setWidth 1
    bgCyc := tt.getBeginCycle.map dpiHexstr2Longint
    edCyc := tt.getEndCycle.map dpiHexstr2Longint }

/-- The loop, for so many turns at most. -/
def builds (heap : Heap Transfer) : Nat → MailBox → Option (List (StlItem aw dw))
  | 0,_ => none
  | n+1,ft =>
    match ft.next with
    | (none,_) => some []
    | (some trx,ft) => do
      let item ← build (heap.get trx)
      return item::(← builds heap n ft)

/-- `pool` after `pre_body`, with a turn for each transfer and one to find no other. -/
def preBody (aw dw : Nat) (program : Program) : Option (List (StlItem aw dw)) :=
  let s := Parser.parseFile program
  if s.mb.next.1 = none then none else builds s.heap (s.mb.mVec.length+1) s.mb

theorem builds_at (heap : Heap Transfer) (left : Nat) {ft : MailBox} {it : Nat} (stands : ft.At it)
    (size : ft.mVec.length = it+left) : (builds heap (left+1) ft : Option (List (StlItem aw dw))) =
      (ft.mVec.drop it).mapM fun trx => build (heap.get trx) := by
  induction left generalizing ft it with
  | zero =>
    obtain rfl : ft.mVec.length = it := size
    rw [builds,MailBox.next_end stands,List.drop_length,List.mapM_nil]
    rfl
  | succ left ih =>
    have before : it < ft.mVec.length := by omega
    obtain ⟨reply,vec,stands⟩ := MailBox.next_at stands before
    rw [List.getElem?_eq_getElem before] at reply
    have next : ft.next = (some ft.mVec[it],ft.next.2) := Prod.ext reply rfl
    rw [builds,next,List.drop_eq_getElem_cons before,List.mapM_cons]
    have later := ih stands (by rw [vec]; omega)
    rw [vec] at later
    simp only [later]

/-- The items are those of the lines of the file, in order. -/
theorem preBody_eq (program : Program) (lines : program.bodies ≠ []) :
    preBody aw dw program = program.bodies.mapM fun body => build body.transfer := by
  have held := Parser.holds_parseFile program
  have size : (Parser.parseFile program).mb.mVec.length = program.bodies.length := by
    rw [held.mVec,List.length_range]
  have first : (Parser.parseFile program).mb.next.1 ≠ none := by
    have filled : 0 < (Parser.parseFile program).mb.mVec.length := by
      rw [size]
      exact List.length_pos_iff.mpr lines
    rw [(MailBox.next_at held.front filled).1,List.getElem?_eq_getElem filled]
    exact Option.some_ne_none _
  rw [preBody]
  simp only [if_neg first]
  have transfers : (List.range program.bodies.length).map (Parser.parseFile program).heap.get =
      program.bodies.map SubBodyStmt.transfer := by
    apply List.ext_getElem
    · simp
    · intro i _ inside
      rw [List.length_map] at inside
      rw [List.getElem_map,List.getElem_map,List.getElem_range,
        held.filled i _ (List.getElem?_eq_getElem inside)]
  have items := congrArg (fun transfers => transfers.mapM fun tt => (build tt : Option (StlItem aw dw))) transfers
  simp only [List.mapM_map] at items
  rw [builds_at _ _ held.front (Nat.zero_add _).symm,List.drop_zero,held.mVec]
  exact items

end StlItem

/-! ### The data -/

/-- The number that a beat is, its lowest byte first. -/
def beatValue (beat : Beat dw) : Nat := Nat.ofDigits 256 (List.ofFn fun i => (beat i).toNat)

theorem ofDigits_ofFn (n x : Nat) :
    Nat.ofDigits 256 (List.ofFn fun i : Fin n => x/256^i.val % 256) = x % 256^n := by
  induction n generalizing x with
  | zero => simp [Nat.mod_one]
  | succ n ih =>
    have tail : (fun i : Fin n => x/256^i.succ.val % 256) = fun i => x/256/256^i.val % 256 := by
      funext i
      rw [Fin.val_succ,Nat.pow_succ',Nat.div_div_eq_div_mul]
    rw [List.ofFn_succ,Nat.ofDigits_cons,tail,ih,Nat.pow_succ',Nat.mod_mul]
    simp

theorem beatValue_packData (idata : BitVec dw) : beatValue (packData idata) = idata.toNat % 256^(dw/8) := by
  have bytes : (fun i : Fin (dw/8) => (packData idata i).toNat) = fun i => idata.toNat/256^i.val % 256 := by
    funext i
    rw [packData,BitVec.extractLsb'_toNat,Nat.shiftRight_eq_div_pow,Nat.mul_comm,Nat.pow_mul]
  rw [beatValue,bytes,ofDigits_ofFn]

theorem modify_last {α : Type*} (xs : List α) (x : α) (change : α → α) :
    (xs ++ [x]).modify xs.length change = xs ++ [change x] := by
  induction xs with
  | nil => rfl
  | cons head xs ih => simpa using ih

/-- The bytes go to the element that the first of them makes. -/
theorem packBeat_append (positive : 0 < dw/8) (dataBeat : List (Beat dw)) (idata : BitVec dw) :
    packBeat dataBeat dataBeat.length idata = dataBeat ++ [packData idata] := by
  have lanes (rest : List (Fin (dw/8))) (beat : Beat dw) :
      rest.foldl (fun beats i => setLane beats dataBeat.length i (packData idata i)) (dataBeat ++ [beat]) =
        dataBeat ++ [fun i => if i ∈ rest then packData idata i else beat i] := by
    induction rest generalizing beat with
    | nil => simp
    | cons i rest ih =>
      rw [List.foldl_cons,setLane,if_pos (by simp),modify_last,ih]
      congr 2
      funext j
      by_cases here : j = i
      · simp [here]
      · simp [here]
  rw [packBeat]
  cases all : List.finRange (dw/8) with
  | nil =>
    have none := congrArg List.length all
    rw [List.length_finRange,List.length_nil] at none
    omega
  | cons i rest =>
    have every (j : Fin (dw/8)) : j = i ∨ j ∈ rest := by
      rw [← List.mem_cons,← all]
      exact List.mem_finRange j
    rw [List.foldl_cons,setLane,if_neg (Nat.lt_irrefl _),if_pos rfl,lanes]
    congr 2
    funext j
    by_cases later : j ∈ rest
    · rw [if_pos later]
    · rw [if_neg later,(every j).resolve_right later,Function.update_self]

/-- A column read as a `longint` is itself in the low `n` bits of a vector: it is not too large for them,
and more than 64 bits are not filled with its sign (or they are all ones, like the largest `longint`). -/
def FitsBits (n value : Nat) : Prop := value < 2^n ∧ (64 < n → value < 2^63 ∨ value = 2^n-1)

instance (n value : Nat) : Decidable (FitsBits n value) := inferInstanceAs (Decidable (_ ∧ _))

theorem signExtend_value {n w : Nat} (le : n ≤ w) (st : List Char) :
    ((dpiHexstr2Longint st).signExtend w).toNat % 2^n = readHex st 0 ↔ FitsBits n (readHex st 0) := by
  rw [dpiHexstr2Longint,BitVec.toNat_signExtend,FitsBits,BitVec.msb_eq_decide,BitVec.toNat_setWidth,BitVec.toNat_ofNat]
  generalize readHex st 0 = value
  have word : min value (2^64-1) % 2^64 = min value (2^64-1) := Nat.mod_eq_of_lt (by omega)
  rw [word]
  have whole : 2^n ∣ 2^w := Nat.pow_dvd_pow 2 le
  by_cases short : n ≤ 64
  · have upper : 2^n ∣ if decide (2^(64-1) ≤ min value (2^64-1)) = true then 2^w-2^64 else 0 := by
      split
      · exact Nat.dvd_sub whole (Nat.pow_dvd_pow 2 short)
      · exact Nat.dvd_zero _
    have room : 2^n ≤ 2^64 := Nat.pow_le_pow_right (by decide) short
    rw [Nat.add_mod,Nat.mod_eq_zero_of_dvd upper,Nat.add_zero,Nat.mod_mod,Nat.mod_mod_of_dvd _ whole]
    constructor
    · intro same
      refine ⟨?_,fun long => absurd long (Nat.not_lt.mpr short)⟩
      rw [← same]
      exact Nat.mod_lt _ (Nat.two_pow_pos n)
    · rintro ⟨below,-⟩
      rw [Nat.min_eq_left (by omega),Nat.mod_eq_of_lt below]
  · have long : 2^65 ≤ 2^n := Nat.pow_le_pow_right (by decide) (by omega)
    obtain ⟨q,blocks⟩ := whole
    have some : q ≠ 0 := by
      rintro rfl
      have positive := Nat.two_pow_pos w
      omega
    obtain ⟨q,rfl⟩ := Nat.exists_eq_succ_of_ne_zero some
    rw [Nat.mul_succ] at blocks
    have inside : min value (2^64-1) < 2^w := by omega
    rw [Nat.mod_eq_of_lt inside]
    by_cases negative : 2^(64-1) ≤ min value (2^64-1)
    · have filled : min value (2^64-1)+(2^w-2^64) = min value (2^64-1)+(2^n-2^64)+2^n*q := by omega
      rw [if_pos (decide_eq_true negative),filled,Nat.add_mul_mod_self_left,Nat.mod_eq_of_lt (by omega)]
      omega
    · rw [if_neg (by simpa using negative),Nat.add_zero,Nat.mod_eq_of_lt (by omega)]
      omega

namespace StlItem

theorem packColumn_eq (tt : Transfer) (dataBeat : List (Beat dw)) {i : Nat} (inside : i < tt.data.length) :
    packColumn tt dataBeat i = some (packBeat dataBeat i (tt.data[i].signExtend dw)) := by
  rw [packColumn,Transfer.getData,List.getElem?_eq_getElem inside,Option.map_some,Option.map_some,
    dpiHexstr2Longint_2Hexstr]

/-- The loop makes a beat of each of the first columns, if a beat has any bytes. -/
theorem packColumns_eq (dw : Nat) (tt : Transfer) (n : Nat) (enough : n ≤ tt.data.length) :
    (List.range n).foldlM (packColumn tt) [] =
      some (if dw/8 = 0 then [] else (tt.data.take n).map fun column => packData (column.signExtend dw)) := by
  induction n with
  | zero => simp
  | succ n ih =>
    rw [List.range_succ,List.foldlM_append,ih (by omega),Option.bind_eq_bind,Option.bind_some,List.foldlM_cons,
      packColumn_eq tt _ enough,Option.bind_eq_bind,Option.bind_some,List.foldlM_nil]
    refine congrArg some ?_
    by_cases none : dw/8 = 0
    · have lanes : List.finRange (dw/8) = [] := by
        rw [← List.length_eq_zero_iff,List.length_finRange,none]
      rw [if_pos none,if_pos none,packBeat,lanes]
      rfl
    · have size : ((tt.data.take n).map fun column => packData (column.signExtend dw)).length = n := by
        rw [List.length_map,List.length_take]
        omega
      have next := packBeat_append (Nat.pos_of_ne_zero none)
        ((tt.data.take n).map fun column => packData (column.signExtend dw)) (tt.data[n].signExtend dw)
      rw [size] at next
      rw [if_neg none,if_neg none,next,List.take_succ_eq_append_getElem enough,List.map_append]
      rfl

/-- What the sequence makes of a line with enough columns. -/
theorem build_line (dw : Nat) (body : SubBodyStmt)
    (enough : getBstLen (bstTypeOf body.transfer.getBstType) ([] : List (BitVec aw)) < body.columns.length) :
    ∃ item : StlItem aw dw, build body.transfer = some item ∧
      item.addrs = postAddr dw ((dpiHexstr2Longint body.addr.text).signExtend aw)
        (trxSizeOf body.transfer.getTrxSize).ctorIdx
        (getBstLen (bstTypeOf body.transfer.getBstType) ([] : List (BitVec aw))) (bstTypeOf body.transfer.getBstType) ∧
      item.dataBeat = if dw/8 = 0 then [] else
        (body.columns.take (getBstLen (bstTypeOf body.transfer.getBstType) ([] : List (BitVec aw))+1)).map
          fun column => packData ((dpiHexstr2Longint column.text).signExtend dw) := by
  have size : getBstLen (bstTypeOf body.transfer.getBstType) ([] : List (BitVec aw))+1 ≤ body.transfer.data.length := by
    rw [body.transfer_data,List.length_map]
    exact enough
  have data := packColumns_eq dw body.transfer _ size
  have start : body.transfer.getAddr = some (dpiLongint2Hexstr (dpiHexstr2Longint body.addr.text)) := by
    rw [Transfer.getAddr,body.transfer_addr,Option.map_some]
  rw [build,start,Option.bind_eq_bind,Option.bind_some]
  simp only [data,Option.bind_eq_bind,Option.bind_some,dpiHexstr2Longint_2Hexstr]
  refine ⟨_,rfl,rfl,?_⟩
  rw [body.transfer_data,← List.map_take,List.map_map]
  rfl

end StlItem

end Smtdv.Ahb
