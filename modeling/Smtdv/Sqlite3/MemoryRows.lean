import Mathlib.Tactic.IntervalCases
import Smtdv.Sqlite3.MemoryTable
import Smtdv.Sqlite3.RoundTrip

/-! What the recorder keeps of the bytes of a memory, and what its back door makes of it. -/
namespace Smtdv.Sqlite3
open Lib Lib.Sql

/-! ## The table of a memory -/

def memTable (tableNm : Text) : Table := Table.registered tableNm (memVifAttrLongint.map Reg.longintField)

/-- The fields of a memory, in the order of their names. -/
def memFields : List Text :=
  ["dec_addr".toList,"dec_bg_cyc".toList,"dec_bg_time".toList,"dec_data_000".toList,"dec_ed_cyc".toList,
    "dec_ed_time".toList,"dec_id".toList,"dec_rw".toList,"dec_uuid".toList]

theorem memTable_record (tableNm : Text) :
    (memTable tableNm).record = memFields.map fun fdNm => {fdNm, typ := .longint} := rfl

theorem memFields_perm : memFields.Perm memVifAttrLongint := by decide

theorem memFields_plain : ∀ fdNm ∈ memFields, Plain fdNm := by
  have all : (memFields.all fun fdNm => !fdNm.isEmpty && fdNm.all nameChar) = true := rfl
  intro fdNm member
  have here := List.all_eq_true.mp all fdNm member
  simpa [Plain] using here

theorem memFields_lowered : (memFields.map lowered).Nodup := by decide

/-- What a row of a memory has in a field. -/
def field (row : MemRow) (fdNm : Text) : Nat :=
  if fdNm = "dec_addr".toList then row.decAddr
  else if fdNm = "dec_rw".toList then trsCode row.decRw
  else if fdNm = "dec_data_000".toList then row.decData.toNat
  else if fdNm = "dec_bg_cyc".toList ∨ fdNm = "dec_ed_cyc".toList then row.decEdCyc
  else 0

def storedRow (row : MemRow) : List Stored := memFields.map fun fdNm => (Literal.int (field row fdNm)).stored

def cells (row : MemRow) : List Column := memFields.map fun fdNm => ⟨.longint,fdNm,digits (field row fdNm)⟩

/-- The numbers of the row fit in a signed word of 64 bits. -/
def Fits (row : MemRow) : Prop := row.decAddr < 2^63 ∧ row.decEdCyc < 2^63

theorem field_lt {row : MemRow} (fits : Fits row) (fdNm : Text) : field row fdNm < 2^63 := by
  have data := row.decData.isLt
  have code : trsCode row.decRw < 3 := by cases row.decRw <;> decide
  unfold field
  split_ifs
  · exact fits.1
  · omega
  · omega
  · exact fits.2
  · omega

theorem memTable_ready {tableNm : Text} (isName : IsName tableNm) : (memTable tableNm).Ready := by
  refine Table.registered_ready isName fun r member => ?_
  obtain ⟨fdNm,inside,rfl⟩ := List.mem_map.mp member
  exact Or.inl (memFields_plain fdNm (memFields_perm.mem_iff.mpr inside))

theorem memTable_tbNm (tableNm : Text) : (memTable tableNm).tbNm = tableNm := Table.registered_tbNm ..

theorem memTable_cols (tableNm : Text) : (memTable tableNm).cols = memFields.map fun fdNm => (fdNm,Affinity.integer) := rfl

theorem memTable_load (tableNm : Text) : (memTable tableNm).load (fun _ => none) = memTable tableNm :=
  Table.load_registered ..

section Table

variable {e : Engine} {reserved : Text → Prop}

/-- The recorder has the table of a memory, with these rows. -/
def Keeps (r : Recorder e) (tableNm : Text) (table : List MemRow) : Prop :=
  r.tb tableNm = some (memTable tableNm) ∧
    e.table r.db tableNm = some ⟨(memTable tableNm).cols,table.map storedRow⟩

theorem registerLongintField_spec {tbNm : Text} (names : List Text) {r : Recorder e} {tb : Table}
    (found : r.tb tbNm = some tb) :
    let s := names.foldl (fun r fdNm => r.registerLongintField tbNm fdNm) r
    s.tb tbNm = some ((names.map Reg.longintField).foldl (fun tb reg => tb.iregister reg.typ reg.fdNm) tb) ∧
      s.db = r.db ∧ r.Beside tbNm s := by
  induction names generalizing r tb with
  | nil => exact ⟨found,rfl,.refl ..⟩
  | cons fdNm names ih =>
    have next : (r.registerLongintField tbNm fdNm).tb tbNm = some (tb.iregister .longint fdNm) := by
      rw [Recorder.registerLongintField,Recorder.change_tb,found]
      rfl
    obtain ⟨here,same,beside⟩ := ih next
    exact ⟨here,same,(Recorder.change_beside ..).trans beside⟩

theorem createTable_spec (relational : e.Relational reserved) {r : Recorder e} {tableNm : Text}
    (isName : IsName tableNm) (free : ¬reserved tableNm) (columns : ∀ fdNm ∈ memVifAttrLongint, ¬reserved fdNm)
    (absent : e.table r.db tableNm = none) :
    ∃ s, createTable r tableNm = some s ∧ r.Beside tableNm s ∧ Keeps s tableNm [] := by
  have nonempty : tableNm ≠ [] := by
    rintro rfl
    rcases isName with plain | ⟨inner,-,shape⟩
    · exact plain.1 rfl
    · exact absurd shape (List.cons_ne_nil _ _).symm
  have made : (r.createTb tableNm).tb tableNm = some (Table.createTb tableNm) := Function.update_self ..
  have named := memTable_tbNm tableNm
  have ready := memTable_ready isName
  obtain ⟨here,same,beside⟩ := registerLongintField_spec memVifAttrLongint made
  set s := memVifAttrLongint.foldl (fun r fdNm => r.registerLongintField tableNm fdNm) (r.createTb tableNm) with s_eq
  have here : s.tb tableNm = some (memTable tableNm) := here
  have wellFormed := Table.create_wellFormed ready (by rw [memTable_record]; exact List.cons_ne_nil _ _)
  rw [named] at wellFormed
  have distinct : ((memTable tableNm).cols.map fun col => lowered col.1).Nodup := by
    rw [memTable_cols,List.map_map]
    exact memFields_lowered
  have unreserved : ∀ col ∈ (memTable tableNm).cols, ¬reserved col.1 := by
    rw [memTable_cols,List.forall_mem_map]
    exact fun fdNm inside => columns fdNm (memFields_perm.mem_iff.mp inside)
  have absent : e.table s.db tableNm = none := by rw [same]; exact absent
  obtain ⟨db,done,kept,others⟩ := relational.create wellFormed absent distinct free unreserved
  have ran : createTable r tableNm = some {s with db} := by
    rw [createTable,if_neg nonempty]
    change s.execField tableNm = _
    rw [Recorder.execField,Recorder.exec,here]
    change (e.exec (memTable tableNm).execField s.db).map _ = _
    rw [Table.execField_eq ready,named,done]
    rfl
  have first : r.Beside tableNm (r.createTb tableNm) := ⟨fun _ apart => Function.update_of_ne apart ..,fun _ _ => rfl⟩
  have last : s.Beside tableNm {s with db} := ⟨fun _ _ => rfl,others⟩
  exact ⟨_,ran,(first.trans beside).trans last,here,kept⟩

/-! ## Bytes that are stored -/

theorem str2Longint_printed (width : Nat) {n : Nat} (small : n < 2^64) : str2Longint (printed width n).print = n := by
  have word := str2Longint_print (width-(digits n).length) (z := n) (by omega) (by omega)
  change ((str2Longint (printed width n).print : Nat) : Int) = _ at word
  omega

variable {aw : Nat}

/-- What is pending when the row of a byte is written. -/
def pendingStore (addr : BitVec aw) (data : BitVec 8) (cyc : Nat) : Pending :=
  let p : Pending := fun _ => none
  let p := Function.update p "dec_addr".toList (some (printed (widthOf aw) addr.toNat))
  let p := Function.update p "dec_rw".toList (some (printed 1 (trsCode .wr)))
  let p := Function.update p "dec_data_000".toList (some (printed 3 data.toNat))
  let p := Function.update p "dec_bg_cyc".toList (some (printed 20 cyc))
  Function.update p "dec_ed_cyc".toList (some (printed 20 cyc))

theorem rowsWritten_storeCalls (addr : BitVec aw) (data : BitVec 8) (cyc : Nat) :
    rowsWritten (fun _ => none) (storeCalls addr data cyc) = [pendingStore addr data cyc] := rfl

theorem pendingAfter_storeCalls (addr : BitVec aw) (data : BitVec 8) (cyc : Nat) :
    pendingAfter (fun _ => none) (storeCalls addr data cyc) = fun _ => none := rfl

theorem str2Longint_pendingStore {addr : BitVec aw} {data : BitVec 8} {cyc : Nat}
    (fits : Fits ⟨addr.toNat,.wr,data,cyc⟩) (fdNm : Text) :
    str2Longint (Pending.text (pendingStore addr data cyc fdNm)) = field ⟨addr.toNat,.wr,data,cyc⟩ fdNm := by
  obtain ⟨small,early⟩ := fits
  have byte := data.isLt
  have address := str2Longint_printed (widthOf aw) (n := addr.toNat) (by simp only at small; omega)
  have cycle := str2Longint_printed 20 (n := cyc) (by simp only at early; omega)
  have beat := str2Longint_printed 3 (n := data.toNat) (by omega)
  have write := str2Longint_printed 1 (n := trsCode .wr) (by decide)
  simp only [pendingStore,Function.update_apply,field]
  by_cases edCyc : fdNm = "dec_ed_cyc".toList
  · subst edCyc
    exact cycle
  by_cases bgCyc : fdNm = "dec_bg_cyc".toList
  · subst bgCyc
    exact cycle
  by_cases dataField : fdNm = "dec_data_000".toList
  · subst dataField
    exact beat
  by_cases rw : fdNm = "dec_rw".toList
  · subst rw
    exact write
  by_cases addrField : fdNm = "dec_addr".toList
  · subst addrField
    exact address
  simp only [edCyc,bgCyc,dataField,rw,addrField,if_false,or_self]
  rfl

theorem literals_pendingStore {addr : BitVec aw} {data : BitVec 8} {cyc : Nat}
    (fits : Fits ⟨addr.toNat,.wr,data,cyc⟩) (tableNm : Text) :
    ((memTable tableNm).literals (pendingStore addr data cyc)).map Literal.stored =
      storedRow ⟨addr.toNat,.wr,data,cyc⟩ := by
  rw [Table.literals,memTable_record,List.map_map,List.map_map,storedRow]
  refine List.map_congr_left fun fdNm _ => ?_
  rw [← str2Longint_pendingStore fits fdNm]
  rfl

theorem memStoreByteCb_spec (relational : e.Relational reserved) {r : Recorder e} {tableNm : Text}
    {table : List MemRow} (isName : IsName tableNm) (keeps : Keeps r tableNm table) {addr : BitVec aw}
    {data : BitVec 8} {cyc : Nat} (fits : Fits ⟨addr.toNat,.wr,data,cyc⟩) :
    ∃ s, memStoreByteCb r tableNm addr data cyc = some s ∧ r.Beside tableNm s ∧
      Keeps s tableNm (table ++ [⟨addr.toNat,.wr,data,cyc⟩]) := by
  have named := memTable_tbNm tableNm
  have ready := memTable_ready isName
  have nonempty : (memTable tableNm).record ≠ [] := by rw [memTable_record]; exact List.cons_ne_nil _ _
  have free : ∀ q ∈ rowsWritten (fun _ => none) (storeCalls addr data cyc), (memTable tableNm).QuoteFree q := by
    intro q _ f member string
    rw [memTable_record] at member
    obtain ⟨fdNm,-,rfl⟩ := List.mem_map.mp member
    cases string
  obtain ⟨loaded,kept⟩ := keeps
  rw [← memTable_load tableNm] at loaded
  have run := Recorder.run_calls relational ready nonempty (named.symm ▸ loaded) (named.symm ▸ kept) free
  rw [named,rowsWritten_storeCalls,pendingAfter_storeCalls,memTable_load] at run
  obtain ⟨s,ran,beside,later,rows⟩ := run
  refine ⟨s,ran,beside,later,rows.trans ?_⟩
  rw [List.map_append,List.map_singleton,List.map_singleton,literals_pendingStore fits]

end Table

/-! ## Queries for the latest bytes -/

section Query

variable {e : Engine} {reserved : Text → Prop} {aw dw : Nat}

/-- The rows of the bytes written into the window of an address. -/
def window (table : List MemRow) (item : SequenceItem aw dw) : List MemRow :=
  let first := (item.addrs.getD item.addrIdx 0).toNat
  let stop := (first+item.offset) % 2^(max aw 32)
  table.filter fun row => row.decRw = .wr ∧ first ≤ row.decAddr ∧ row.decAddr < stop

/-- Rows that `LAST_WR_TRX` may give: those of one cycle come in any order. -/
def Latest (table : List MemRow) (item : SequenceItem aw dw) (rows : List MemRow) : Prop :=
  ∃ all : List MemRow, all.Perm (window table item) ∧ (all.Pairwise fun a b => b.decEdCyc ≤ a.decEdCyc) ∧
    rows = all.take item.offset

def numeral (width n : Nat) : Numeral := ⟨width-(digits n).length,n⟩

def lastWrQuery (tableNm : Text) (item : SequenceItem aw dw) : Query :=
  let first := (item.addrs.getD item.addrIdx 0).toNat
  let stop := (first+item.offset) % 2^(max aw 32)
  {tb := tableNm
   conds := [⟨"dec_rw".toList,.eq,numeral 1 (trsCode .wr)⟩,⟨"dec_addr".toList,.ge,numeral (widthOf aw) first⟩,
    ⟨"dec_addr".toList,.lt,numeral (widthOf (max aw 32)) stop⟩]
   order := "dec_ed_cyc".toList
   limit := numeral 11 item.offset}

theorem genQueryCmd_lastWrTrx (tableNm : Text) (item : SequenceItem aw dw) :
    genQueryCmd tableNm .lastWrTrx item = (lastWrQuery tableNm item).sql := by
  have fromIt : "SELECT * FROM ".toList = fromWord := rfl
  have whereIt : " WHERE dec_rw=".toList = whereWord ++ ("dec_rw".toList ++ Comparison.eq.sql) := rfl
  have geIt : " AND dec_addr>=".toList = andWord ++ ("dec_addr".toList ++ Comparison.ge.sql) := rfl
  have ltIt : " AND dec_addr<".toList = andWord ++ ("dec_addr".toList ++ Comparison.lt.sql) := rfl
  have orderIt : " ORDER BY dec_ed_cyc DESC limit ".toList = orderWord ++ ("dec_ed_cyc".toList ++ limitWord) := rfl
  unfold genQueryCmd lastWrQuery Query.sql
  dsimp only
  rw [fromIt,whereIt,geIt,ltIt,orderIt]
  simp only [List.map_cons,List.map_nil,ands,Cond.sql,List.append_assoc]
  rfl

theorem lastWrQuery_wellFormed {tableNm : Text} (isName : IsName tableNm) (item : SequenceItem aw dw) :
    (lastWrQuery tableNm item).WellFormed where
  tb := isName
  conds := List.cons_ne_nil _ _
  columns := by
    intro c member
    have inside : c ∈ memFields := by
      simp only [Query.columns,lastWrQuery,List.map_cons,List.map_nil,List.mem_append,List.mem_cons,
        List.not_mem_nil,or_false] at member
      rcases member with (rfl | rfl | rfl) | rfl <;> decide
    exact Or.inl (memFields_plain c inside)

theorem lookup_zip_map {β : Type*} (g : Text → β) {names : List Text} {name : Text} (member : name ∈ names) :
    (names.zip (names.map g)).lookup name = some (g name) := by
  induction names with
  | nil => exact absurd member List.not_mem_nil
  | cons first names ih =>
    rw [List.map_cons,List.zip_cons_cons,List.lookup_cons]
    by_cases same : name = first
    · subst same
      rw [beq_self_eq_true]
    · rw [beq_false_of_ne same]
      exact ih ((List.mem_cons.mp member).resolve_left same)

theorem number_storedRow {row : MemRow} (fits : Fits row) (tableNm : Text) (rows : List (List Stored)) {fdNm : Text}
    (member : fdNm ∈ memFields) :
    (⟨(memTable tableNm).cols,rows⟩ : Sql.Table).number (storedRow row) fdNm = some (field row fdNm) := by
  have columns : (memTable tableNm).cols.map (fun col => colName col.1) = memFields := rfl
  rw [Table.number,columns,(memFields_plain fdNm member).colName_eq,storedRow,
    lookup_zip_map (fun fdNm => (Literal.int (field row fdNm)).stored) member]
  change ((Literal.int (field row fdNm)).stored).int? = _
  rw [Literal.stored,if_pos (field_lt fits fdNm)]
  rfl

theorem meets_lastWrQuery {row : MemRow} (fits : Fits row) (tableNm : Text) (rows : List (List Stored))
    (item : SequenceItem aw dw) :
    ((lastWrQuery tableNm item).conds.all ((⟨(memTable tableNm).cols,rows⟩ : Sql.Table).meets (storedRow row))) =
      decide (row.decRw = .wr ∧ (item.addrs.getD item.addrIdx 0).toNat ≤ row.decAddr ∧
        row.decAddr < ((item.addrs.getD item.addrIdx 0).toNat+item.offset) % 2^(max aw 32)) := by
  have rw := number_storedRow fits tableNm rows (show "dec_rw".toList ∈ memFields by decide)
  have addr := number_storedRow fits tableNm rows (show "dec_addr".toList ∈ memFields by decide)
  have code : field row "dec_rw".toList = trsCode row.decRw := rfl
  have address : field row "dec_addr".toList = row.decAddr := rfl
  rw [code] at rw
  rw [address] at addr
  have write : decide (trsCode row.decRw = trsCode .wr) = decide (row.decRw = .wr) := by cases row.decRw <;> decide
  simp only [lastWrQuery,List.all_cons,List.all_nil,Sql.Table.meets,rw,addr,Option.map_some,Option.getD_some,
    Comparison.holds,numeral,Bool.and_true,write,Bool.decide_and]

theorem matching_lastWrQuery {table : List MemRow} (fits : ∀ row ∈ table, Fits row) (tableNm : Text)
    (item : SequenceItem aw dw) :
    (⟨(memTable tableNm).cols,table.map storedRow⟩ : Sql.Table).matching (lastWrQuery tableNm item) =
      (window table item).map storedRow := by
  rw [Sql.Table.matching,List.filter_map,window]
  refine congrArg (List.map storedRow) (List.filter_congr fun row member => ?_)
  exact meets_lastWrQuery (fits row member) tableNm _ item

theorem precedes_lastWrQuery {a b : MemRow} (fits : Fits a) (fits' : Fits b) (tableNm : Text)
    (rows : List (List Stored)) (item : SequenceItem aw dw) :
    (⟨(memTable tableNm).cols,rows⟩ : Sql.Table).Precedes (lastWrQuery tableNm item) (storedRow a) (storedRow b) ↔
      b.decEdCyc ≤ a.decEdCyc := by
  have member : "dec_ed_cyc".toList ∈ memFields := by decide
  have cycle (row : MemRow) : field row "dec_ed_cyc".toList = row.decEdCyc := rfl
  have order : (lastWrQuery tableNm item).order = "dec_ed_cyc".toList := rfl
  rw [Sql.Table.Precedes,order,number_storedRow fits tableNm rows member,number_storedRow fits' tableNm rows member,
    cycle,cycle,Option.getD_some,Option.getD_some]

/-- The rows of an answer, as the recorder keeps them in a pool. -/
def answerOf (e : Engine) (tableNm : Text) (rows : List MemRow) : List (List (Text × Text)) :=
  (⟨(memTable tableNm).cols,rows.map storedRow⟩ : Sql.Table).answer e.realText

theorem query_latest (relational : e.Relational reserved) {db : e.Db} {tableNm : Text} {table : List MemRow}
    (isName : IsName tableNm) (kept : e.table db tableNm = some ⟨(memTable tableNm).cols,table.map storedRow⟩)
    (fits : ∀ row ∈ table, Fits row) (narrow : aw < 64) {item : SequenceItem aw dw} (short : item.offset < 2^63) :
    ∃ rows, Latest table item rows ∧ (e.Stable → rows = lastWrTrx table item) ∧
      e.query (genQueryCmd tableNm .lastWrTrx item) db = some (answerOf e tableNm rows) := by
  have wellFormed := lastWrQuery_wellFormed isName item
  have matching := matching_lastWrQuery fits tableNm item
  set t : Sql.Table := ⟨(memTable tableNm).cols,table.map storedRow⟩ with t_eq
  have numeric : t.Numeric (lastWrQuery tableNm item) := by
    intro row member c column
    obtain ⟨memRow,inside,rfl⟩ := List.mem_map.mp member
    have known : c ∈ memFields := by
      simp only [Query.columns,lastWrQuery,List.map_cons,List.map_nil,List.mem_append,List.mem_cons,
        List.not_mem_nil,or_false] at column
      rcases column with (rfl | rfl | rfl) | rfl <;> decide
    rw [number_storedRow (fits memRow inside) tableNm _ known]
    rfl
  have small : ∀ c ∈ (lastWrQuery tableNm item).conds, c.num.n < 2^63 := by
    have address : (item.addrs.getD item.addrIdx 0).toNat < 2^63 :=
      (BitVec.isLt _).trans_le (Nat.pow_le_pow_right (by decide) (by omega))
    have sum : ((item.addrs.getD item.addrIdx 0).toNat+item.offset) % 2^(max aw 32) < 2^63 :=
      (Nat.mod_lt _ (Nat.two_pow_pos _)).trans_le (Nat.pow_le_pow_right (by decide) (by omega))
    intro c member
    simp only [lastWrQuery,List.mem_cons,List.not_mem_nil,or_false] at member
    rcases member with rfl | rfl | rfl
    · exact (by decide : trsCode .wr < 2^63)
    · exact address
    · exact sum
  have fitsWindow : ∀ row ∈ window table item, Fits row := fun row member => fits row (List.mem_of_mem_filter member)
  rw [genQueryCmd_lastWrTrx]
  by_cases stable : e.Stable
  · refine ⟨lastWrTrx table item,?_,fun _ => rfl,?_⟩
    · have total (a b : MemRow) : b.decEdCyc ≤ a.decEdCyc ∨ a.decEdCyc ≤ b.decEdCyc := Nat.le_total _ _
      have trans (a b c : MemRow) (first : b.decEdCyc ≤ a.decEdCyc) (second : c.decEdCyc ≤ b.decEdCyc) :
          c.decEdCyc ≤ a.decEdCyc := Nat.le_trans second first
      exact ⟨_,List.perm_insertionSort _ _,(pairwise_insertionSort_stable total trans
        (List.pairwise_of_forall fun _ _ => trivial)).imp And.left,rfl⟩
    · have sorted : ((window table item).map storedRow).insertionSort (t.Precedes (lastWrQuery tableNm item)) =
          ((window table item).insertionSort fun a b => b.decEdCyc ≤ a.decEdCyc).map storedRow := by
        refine (List.map_insertionSort _ _ _ _ fun a inside b inside' => ?_).symm
        exact (precedes_lastWrQuery (fitsWindow a inside) (fitsWindow b inside') tableNm _ item).symm
      rw [stable kept wellFormed numeric small short,matching,sorted,← List.map_take]
      rfl
  · obtain ⟨rows,perm,ordered,answered⟩ := relational.query kept wellFormed numeric small short
    rw [matching] at perm
    have pulled : Relation.Comp (· = List.map storedRow ·) List.Perm rows (window table item) := by
      rw [List.eq_map_comp_perm]
      exact perm
    obtain ⟨all,rfl,chosen⟩ := pulled
    refine ⟨all.take item.offset,⟨all,chosen,?_,rfl⟩,fun here => absurd @here stable,?_⟩
    · refine (List.pairwise_map.mp ordered).imp_of_mem fun inside inside' precedes => ?_
      exact (precedes_lastWrQuery (fitsWindow _ (chosen.mem_iff.mp inside))
        (fitsWindow _ (chosen.mem_iff.mp inside')) tableNm _ item).mp precedes
    · rw [answered,← List.map_take]
      rfl

theorem getFieldTyp_memTable {tableNm : Text} (isName : IsName tableNm) {fdNm : Text} (member : fdNm ∈ memFields) :
    (memTable tableNm).getFieldTyp fdNm = .longint := by
  have plain := memFields_plain fdNm member
  have inside : ({fdNm, typ := .longint} : Field) ∈ (memTable tableNm).record := by
    rw [memTable_record]
    exact List.mem_map_of_mem member
  have typ := Table.getFieldTyp_plain (memTable_ready isName) inside plain
  rwa [plain.colName_eq] at typ

theorem firstWord_plain {name : Text} (plain : Plain name) : firstWord name = name := by
  refine (firstWord_eq_self_iff name).mpr fun c member => ?_
  have nameChar := plain.2 c member
  rw [Bool.eq_false_iff]
  intro space
  simp only [isSpace,Bool.or_eq_true,decide_eq_true_eq,Bool.and_eq_true] at space
  rcases space with rfl | ⟨low,high⟩
  · exact absurd nameChar (by decide)
  · have low : 9 ≤ c.toNat := low
    have high : c.toNat ≤ 13 := high
    have same : Char.ofNat c.toNat = c := Char.ofNat_toNat c
    generalize c.toNat = n at low high same
    subst same
    interval_cases n <;> exact absurd nameChar (by decide)

theorem execCallback_answerOf {r : Recorder e} {tableNm : Text} (isName : IsName tableNm)
    (found : r.tb tableNm = some (memTable tableNm)) (named : r.mTbNm = tableNm) {rows : List MemRow}
    (fits : ∀ row ∈ rows, Fits row) : (answerOf e tableNm rows).map r.execCallback = rows.map cells := by
  have columns : (memTable tableNm).cols.map (fun col => colName col.1) = memFields.map id := rfl
  rw [answerOf,Sql.Table.answer,List.map_map,List.map_map]
  refine List.map_congr_left fun row member => ?_
  rw [Function.comp_apply,Function.comp_apply,columns,storedRow,List.map_map,List.zip_map',Recorder.execCallback,
    List.map_map,cells]
  refine List.map_congr_left fun fdNm inside => ?_
  simp only [Function.comp_apply,id_eq,firstWord_plain (memFields_plain fdNm inside),Recorder.getFieldTyp,named,found,
    Option.map_some,Option.getD_some,getFieldTyp_memTable isName inside,
    shown_of_lt e.realText (field_lt (fits row member) fdNm),firstWord_digits]

/-! ## The back door -/

theorem atoi_digits {n : Nat} (small : n < 2^32) : atoi (digits n) = n := by
  rw [atoi,readDigits_digits,Nat.mod_eq_of_lt small]

theorem orShifted_byte (beat : Beat dw) (data : BitVec 8) (r : Nat) :
    orShifted beat data.toNat r = fun i => if i.val = r then beat i ||| data else beat i := by
  have byte := data.isLt
  funext i
  rw [orShifted]
  split_ifs with same
  · rw [same,Nat.shiftLeft_shiftRight,BitVec.ofNat_toNat,BitVec.setWidth_eq]
  · suffices none : BitVec.ofNat 8 (data.toNat <<< (r*8) >>> (i.val*8)) = 0 by rw [none]; simp
    apply BitVec.eq_of_toNat_eq
    rw [BitVec.toNat_ofNat,Nat.shiftLeft_eq,Nat.shiftRight_eq_div_pow]
    rcases lt_or_gt_of_ne same with before | after
    · obtain ⟨k,rfl⟩ := Nat.exists_eq_add_of_lt before
      have split : 2^((i.val+k+1)*8) = 2^(i.val*8) * (2^(k*8) * 2^8) := by
        rw [← pow_add,← pow_add]
        congr 1
        omega
      rw [split,Nat.mul_left_comm,Nat.mul_div_cancel_left _ (Nat.two_pow_pos _),← Nat.mul_assoc,Nat.mul_mod_left]
      rfl
    · obtain ⟨k,same⟩ := Nat.exists_eq_add_of_lt after
      have split : 2^(i.val*8) = 2^(r*8) * (2^(k*8) * 2^8) := by
        rw [same,← pow_add,← pow_add]
        congr 1
        omega
      rw [split,Nat.mul_comm,Nat.mul_div_mul_left _ _ (Nat.two_pow_pos _),Nat.div_eq_of_lt]
      · rfl
      · exact byte.trans_le (Nat.le_mul_of_pos_left _ (Nat.two_pow_pos _))

theorem populateColumn_kept {header : Text} {event : CbEvent} (known : cbMap.lookup header = some event)
    (other : event ≠ .data) (r : Nat) (item : SequenceItem aw dw) (typ : DataType) (val : Text) :
    populateColumn r item ⟨typ,header,val⟩ = some item := by
  rw [populateColumn]
  split_ifs
  · rw [populateItem,known]
    cases event <;> first | rfl | exact absurd rfl other
  · rfl

/-- Columns of other events leave the item as it is. -/
theorem populateColumns_kept (row : MemRow) (r : Nat) (item : SequenceItem aw dw) {headers : List Text}
    (others : ∀ header ∈ headers, ∃ event, cbMap.lookup header = some event ∧ event ≠ .data) :
    (headers.map fun header => ⟨.longint,header,digits (field row header)⟩).foldlM (populateColumn r) item = some item := by
  induction headers with
  | nil => rfl
  | cons header headers ih =>
    obtain ⟨⟨event,known,other⟩,later⟩ := List.forall_mem_cons.mp others
    rw [List.map_cons,List.foldlM_cons,populateColumn_kept known other]
    exact ih later

theorem populateRow_cells (row : MemRow) (r : Nat) (item : SequenceItem aw dw) :
    populateRow item (cells row,r) = some (Backdoor.populateItem item r row.decData) := by
  have known : cbMap.lookup "dec_data_000".toList = some .data := rfl
  have value : field row "dec_data_000".toList = row.decData.toNat := rfl
  have byte : atoi (digits row.decData.toNat) = row.decData.toNat := atoi_digits (by have := row.decData.isLt; omega)
  have data : populateColumn r item ⟨.longint,"dec_data_000".toList,digits (field row "dec_data_000".toList)⟩ =
      some (Backdoor.populateItem item r row.decData) := by
    rw [populateColumn,if_pos rfl,populateItem,known,Option.map_some,value]
    simp only [byte,orShifted_byte]
    rfl
  have before : ∀ header ∈ memFields.take 3, ∃ event, cbMap.lookup header = some event ∧ event ≠ .data := by
    simp only [memFields,List.take_succ_cons,List.take_zero,List.forall_mem_cons]
    exact ⟨⟨.addr,rfl,by decide⟩,⟨.bgCyc,rfl,by decide⟩,⟨.bgTime,rfl,by decide⟩,fun _ member => absurd member List.not_mem_nil⟩
  have after : ∀ header ∈ memFields.drop 4, ∃ event, cbMap.lookup header = some event ∧ event ≠ .data := by
    simp only [memFields,List.drop_succ_cons,List.drop_zero,List.forall_mem_cons]
    exact ⟨⟨.edCyc,rfl,by decide⟩,⟨.edTime,rfl,by decide⟩,⟨.id,rfl,by decide⟩,⟨.rw,rfl,by decide⟩,
      ⟨.uuid,rfl,by decide⟩,fun _ member => absurd member List.not_mem_nil⟩
  have parts : memFields = memFields.take 3 ++ "dec_data_000".toList::memFields.drop 4 := rfl
  rw [populateRow,cells,parts,List.map_append,List.map_cons,List.foldlM_append,populateColumns_kept row r item before,
    Option.bind_eq_bind,Option.bind_some,List.foldlM_cons,data,Option.bind_eq_bind,Option.bind_some]
  exact populateColumns_kept row r _ after

theorem populateRows_cells (rows : List MemRow) (item : SequenceItem aw dw) :
    (rows.map cells).zipIdx.foldlM populateRow item = some (Backdoor.convert2Item rows item) := by
  have each : (fun (item : SequenceItem aw dw) (row : MemRow × Nat) => populateRow item (Prod.map cells id row)) =
      fun item row => pure (Backdoor.populateItem item row.2 row.1.decData) := by
    funext item row
    exact populateRow_cells row.1 row.2 item
  rw [List.zipIdx_map,List.foldlM_map,each,List.foldlM_pure]
  rfl

theorem convert2Item_spec {r : Recorder e} {tableNm : Text} (isName : IsName tableNm)
    (found : r.tb tableNm = some (memTable tableNm)) {query : Text} {rows : List MemRow}
    (fits : ∀ row ∈ rows, Fits row) (answered : e.query query r.db = some (answerOf e tableNm rows))
    (item : SequenceItem aw dw) :
    ∃ s, convert2Item r tableNm query item = some (s,Backdoor.convert2Item rows item) ∧ s.tb = r.tb ∧ s.db = r.db := by
  have asked : ({r.createPl tableNm with mTbNm := tableNm} : Recorder e).tb tableNm = some (memTable tableNm) := found
  have pool := execCallback_answerOf isName asked rfl fits
  have empty : (r.createPl tableNm).pl tableNm = some [] := Function.update_self ..
  have answered : e.query query (r.createPl tableNm).db = some (answerOf e tableNm rows) := answered
  simp only [convert2Item,Recorder.execQuery,answered,empty,Option.bind_eq_bind,Option.bind_some,List.nil_append,pool,
    populateRows_cells]
  exact ⟨_,rfl,rfl,rfl⟩

/-- The item that the rows of each address make. -/
def rebuiltBy (pick : Nat → List MemRow) (item : SequenceItem aw dw) : SequenceItem aw dw :=
  (List.range item.addrs.length).foldl (fun item i =>
    Backdoor.convert2Item (pick i) {item with addrIdx := i, dataIdx := i}) (Backdoor.purgeItem item)

theorem genQueryCmd_congr (tableNm : Text) (map : QueryMap) {it item : SequenceItem aw dw}
    (addrs : it.addrs = item.addrs) (addrIdx : it.addrIdx = item.addrIdx) (offset : it.offset = item.offset) :
    genQueryCmd tableNm map it = genQueryCmd tableNm map item := by
  unfold genQueryCmd
  rw [addrs,addrIdx,offset]

theorem postItem_spec {r : Recorder e} {tableNm : Text} (isName : IsName tableNm)
    (found : r.tb tableNm = some (memTable tableNm)) {item : SequenceItem aw dw} {pick : Nat → List MemRow}
    (fits : ∀ i, ∀ row ∈ pick i, Fits row)
    (answered : ∀ i, e.query (genQueryCmd tableNm .lastWrTrx {item with addrIdx := i}) r.db =
      some (answerOf e tableNm (pick i))) :
    ∃ s, postItem r tableNm (Backdoor.purgeItem item) = some (s,rebuiltBy pick item) ∧ s.tb = r.tb ∧ s.db = r.db := by
  suffices general : ∀ (indices : List Nat) (s : Recorder e) (it : SequenceItem aw dw), s.tb = r.tb → s.db = r.db →
      it.addrs = item.addrs → it.offset = item.offset → ∃ s',
      indices.foldlM (fun (s : Recorder e × SequenceItem aw dw) i =>
        let item := {s.2 with addrIdx := i, dataIdx := i}
        convert2Item s.1 tableNm (genQueryCmd tableNm .lastWrTrx item) item) (s,it) =
      some (s',indices.foldl (fun item i => Backdoor.convert2Item (pick i) {item with addrIdx := i, dataIdx := i}) it) ∧
      s'.tb = r.tb ∧ s'.db = r.db from
    general _ r _ rfl rfl rfl rfl
  intro indices
  induction indices with
  | nil => exact fun s it tb db _ _ => ⟨s,rfl,tb,db⟩
  | cons i rest ih =>
    intro s it tb db addrs offset
    have answer : e.query (genQueryCmd tableNm .lastWrTrx {it with addrIdx := i, dataIdx := i}) s.db =
        some (answerOf e tableNm (pick i)) := by
      rw [← answered i,db]
      exact congrArg (fun text => e.query text r.db) (genQueryCmd_congr tableNm .lastWrTrx addrs rfl offset)
    obtain ⟨next,converted,tb',db'⟩ := convert2Item_spec isName (tb ▸ found) (fits i) answer
      {it with addrIdx := i, dataIdx := i}
    have kept {β : Type} (field : SequenceItem aw dw → β)
        (same : ∀ (item : SequenceItem aw dw) beats, field {item with dataBeat := beats} = field item) :
        field (Backdoor.convert2Item (pick i) {it with addrIdx := i, dataIdx := i}) = field {it with addrIdx := i, dataIdx := i} :=
      Backdoor.convert2Item_kept field same _ _
    obtain ⟨last,ran,tb'',db''⟩ := ih next _ (tb'.trans tb) (db'.trans db)
      ((kept SequenceItem.addrs fun _ _ => rfl).trans addrs) ((kept SequenceItem.offset fun _ _ => rfl).trans offset)
    refine ⟨last,?_,tb'',db''⟩
    rw [List.foldlM_cons,converted]
    exact ran

theorem rebuiltBy_lastWrTrx (table : List MemRow) (item : SequenceItem aw dw) :
    rebuiltBy (fun i => lastWrTrx table {item with addrIdx := i}) item = Backdoor.rebuilt table item := by
  suffices general : ∀ (indices : List Nat) (it : SequenceItem aw dw), it.addrs = item.addrs → it.offset = item.offset →
      indices.foldl (fun it i => Backdoor.convert2Item (lastWrTrx table {item with addrIdx := i})
        {it with addrIdx := i, dataIdx := i}) it =
      indices.foldl (fun it i =>
        let it := {it with addrIdx := i, dataIdx := i}
        Backdoor.convert2Item (lastWrTrx table it) it) it from general _ _ rfl rfl
  intro indices
  induction indices with
  | nil => exact fun _ _ _ => rfl
  | cons i rest ih =>
    intro it addrs offset
    have latest : lastWrTrx table {it with addrIdx := i, dataIdx := i} = lastWrTrx table {item with addrIdx := i} := by
      simp only [lastWrTrx,addrs,offset]
    rw [List.foldl_cons,List.foldl_cons]
    dsimp only
    rw [latest]
    apply ih
    · exact (Backdoor.convert2Item_kept SequenceItem.addrs (fun _ _ => rfl) _ _).trans addrs
    · exact (Backdoor.convert2Item_kept SequenceItem.offset (fun _ _ => rfl) _ _).trans offset

theorem compare_spec (relational : e.Relational reserved) {r : Recorder e} {tableNm : Text} {table : List MemRow}
    (isName : IsName tableNm) (keeps : Keeps r tableNm table) (fits : ∀ row ∈ table, Fits row) (narrow : aw < 64)
    {item : SequenceItem aw dw} (short : item.offset < 2^63) :
    ∃ s pick, compare r tableNm item = some (s,item.compare (rebuiltBy pick item)) ∧ s.tb = r.tb ∧ s.db = r.db ∧
      (∀ i, Latest table {item with addrIdx := i} (pick i)) ∧
      (e.Stable → item.compare (rebuiltBy pick item) = Backdoor.compare table item) := by
  have each (i : Nat) := query_latest relational isName keeps.2 fits narrow
    (show ({item with addrIdx := i} : SequenceItem aw dw).offset < 2^63 from short)
  choose pick latest stable answered using each
  have inside : ∀ i, ∀ row ∈ pick i, Fits row := by
    intro i row member
    obtain ⟨all,perm,-,taken⟩ := latest i
    rw [taken] at member
    exact fits row (List.mem_of_mem_filter (perm.mem_iff.mp (List.mem_of_mem_take member)))
  obtain ⟨s,posted,tb,db⟩ := postItem_spec isName keeps.1 inside answered
  refine ⟨s,pick,?_,tb,db,latest,fun here => ?_⟩
  · rw [compare,posted]
    rfl
  · have same : pick = fun i => lastWrTrx table {item with addrIdx := i} := funext fun i => stable i @here
    rw [same,rebuiltBy_lastWrTrx,Backdoor.compare]

end Query

end Smtdv.Sqlite3
