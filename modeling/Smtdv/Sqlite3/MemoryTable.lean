import Smtdv.Common.Backdoor
import Smtdv.Sqlite3.Recorder

/-! `smtdv_generic_memory_cb`, which records the bytes of a memory, and `smtdv_backdoor`, which reads them back:
all through the calls of `smtdv_sqlite3` and the text of a query. -/
namespace Smtdv.Sqlite3
open Lib Lib.Sql

/-! ## Tables of memories -/

/-- `$psprintf("%d")` of a value of a type whose numbers have this width. -/
def printed (width n : Nat) : Value := .int (width-(digits n).length) n

/-- The width of an unsigned type. -/
def widthOf (bits : Nat) : Nat := (digits (2^bits-1)).length

/-- `trs_type_t`, of two bits. -/
def trsCode : TrsType → Nat
  | .rd => 0
  | .wr => 1
  | .rdwr => 2

/-- `SMTDV_MEM_VIF_ATTR_LONGINT`. -/
def memVifAttrLongint : List Text :=
  ["dec_uuid".toList,"dec_id".toList,"dec_addr".toList,"dec_rw".toList,"dec_data_000".toList,"dec_bg_cyc".toList,
    "dec_ed_cyc".toList,"dec_bg_time".toList,"dec_ed_time".toList]

inductive CbEvent
  | uuid | id | addr | rw | len | burst | size | lock | prot | data | resp | bgCyc | edCyc | bgTime | edTime
  deriving DecidableEq

/-- `SMTDV_CB_EVENT`. -/
def cbMap : List (Text × CbEvent) :=
  [("dec_uuid".toList,.uuid),("dec_id".toList,.id),("dec_addr".toList,.addr),("dec_rw".toList,.rw),
    ("dec_len".toList,.len),("dec_burst".toList,.burst),("dec_size".toList,.size),("dec_lock".toList,.lock),
    ("dec_prot".toList,.prot),("dec_data_000".toList,.data),("dec_data_001".toList,.data),
    ("dec_data_002".toList,.data),("dec_data_003".toList,.data),("dec_data_004".toList,.data),
    ("dec_data_005".toList,.data),("dec_data_006".toList,.data),("dec_data_007".toList,.data),
    ("dec_data_008".toList,.data),("dec_data_009".toList,.data),("dec_data_010".toList,.data),
    ("dec_data_011".toList,.data),("dec_data_012".toList,.data),("dec_data_013".toList,.data),
    ("dec_data_014".toList,.data),("dec_data_015".toList,.data),("dec_resp".toList,.resp),
    ("dec_bg_cyc".toList,.bgCyc),("dec_ed_cyc".toList,.edCyc),("dec_bg_time".toList,.bgTime),
    ("dec_ed_time".toList,.edTime)]

section Calls

variable {e : Engine} {aw dw : Nat}

/-- A table without a name is fatal. -/
def createTable (r : Recorder e) (tableNm : Text) : Option (Recorder e) :=
  if tableNm = [] then none
  else
    let r := memVifAttrLongint.foldl (fun r fdNm => r.registerLongintField tableNm fdNm) (r.createTb tableNm)
    r.execField tableNm

/-- The calls of `mem_store_byte_cb`. -/
def storeCalls (addr : BitVec aw) (data : BitVec 8) (cyc : Nat) : List Call :=
  [.insertValue "dec_addr".toList (printed (widthOf aw) addr.toNat),
    .insertValue "dec_rw".toList (printed 1 (trsCode .wr)),
    .insertValue "dec_data_000".toList (printed 3 data.toNat),
    .insertValue "dec_bg_cyc".toList (printed 20 cyc),
    .insertValue "dec_ed_cyc".toList (printed 20 cyc),
    .execValue,
    .flushValue]

def memStoreByteCb (r : Recorder e) (tableNm : Text) (addr : BitVec aw) (data : BitVec 8) (cyc : Nat) :
    Option (Recorder e) :=
  (storeCalls addr data cyc).foldlM (Recorder.call tableNm) r

/-! ## The back door -/

inductive QueryMap | lastWrTrx | fristWrTrx | other
  deriving DecidableEq

def genQueryCmd (tableNm : Text) (map : QueryMap) (item : SequenceItem aw dw) : Text :=
  let first := (item.addrs.getD item.addrIdx 0).toNat
  let stop := (first+item.offset) % 2^(max aw 32)
  let window := "SELECT * FROM ".toList ++ tableNm ++ " WHERE dec_rw=".toList ++ (printed 1 (trsCode .wr)).print ++
    " AND dec_addr>=".toList ++ (printed (widthOf aw) first).print ++
    " AND dec_addr<".toList ++ (printed (widthOf (max aw 32)) stop).print
  match map with
  | .lastWrTrx =>
    window ++ " ORDER BY dec_ed_cyc DESC limit ".toList ++ (printed 11 item.offset).print ++ ";".toList
  | .fristWrTrx =>
    window ++ " ORDER BY dec_ed_cyc ASC limit ".toList ++ (printed 11 item.offset).print ++ ";".toList
  | .other => "SELECT * FROM ".toList ++ tableNm ++ " ORDER BY dec_ed_cyc ASC;".toList

/-- `atoi` of an unsigned text. -/
def atoi (data : Text) : Nat := readDigits data % 2^32

/-- The lane of a beat that gets the bits of a number shifted by `r` bytes. -/
def orShifted (beat : Beat dw) (v r : Nat) : Beat dw := fun i => beat i ||| BitVec.ofNat 8 ((v <<< (r*8)) >>> (i.val*8))

/-- A header that is not in `cb_map` is fatal. -/
def populateItem (header : Text) (r : Nat) (data : Text) (item : SequenceItem aw dw) : Option (SequenceItem aw dw) :=
  (cbMap.lookup header).map fun
    | .data => {item with dataBeat := item.dataBeat.modify item.dataIdx fun beat => orShifted beat (atoi data) r}
    | _ => item

def populateColumn (r : Nat) (item : SequenceItem aw dw) (col : Column) : Option (SequenceItem aw dw) :=
  if col.typ = .longint then populateItem col.name r col.val item else some item

def populateRow (item : SequenceItem aw dw) (row : List Column × Nat) : Option (SequenceItem aw dw) :=
  row.1.foldlM (populateColumn row.2) item

def convert2Item (rec : Recorder e) (tableNm query : Text) (item : SequenceItem aw dw) :
    Option (Recorder e × SequenceItem aw dw) := do
  let (rec,pool) ← (rec.createPl tableNm).execQuery tableNm query
  let item ← pool.zipIdx.foldlM populateRow item
  some (rec.deletePl tableNm,item)

def postItem (rec : Recorder e) (tableNm : Text) (item : SequenceItem aw dw) :
    Option (Recorder e × SequenceItem aw dw) :=
  (List.range item.addrs.length).foldlM (fun s i =>
    let item := {s.2 with addrIdx := i, dataIdx := i}
    convert2Item s.1 tableNm (genQueryCmd tableNm .lastWrTrx item) item) (rec,item)

def compare (rec : Recorder e) (tableNm : Text) (item : SequenceItem aw dw) : Option (Recorder e × Bool) := do
  let (rec,ritem) ← postItem rec tableNm (Backdoor.purgeItem item)
  some (rec,item.compare ritem)

end Calls

end Smtdv.Sqlite3
