import Smtdv.Sqlite3.Session

/-! The statements that the calls of a table lead to, and the rows that they leave. -/
namespace Smtdv.Sqlite3
open Lib Lib.Sql

/-! ## The statements of a table -/

def Field.literal (f : Field) : Literal :=
  if f.typ = .longint ∨ f.typ = .longlong then .int (str2Longint f.val) else .text f.val

namespace Table

def cols (tb : Table) : List (Text × Affinity) :=
  tb.record.map fun f => (f.fdNm,if f.typ = .string then .text else .integer)

/-- The names can stand in a statement, and the fields have types that can be registered. -/
structure Ready (tb : Table) : Prop where
  tbName : IsName tb.tbNm
  names : ∀ f ∈ tb.record, IsName f.fdNm
  typed : ∀ f ∈ tb.record, f.typ ≠ .hex

theorem registered_ready {tbNm : Text} {regs : List Reg} (tbName : IsName tbNm) (names : ∀ r ∈ regs, IsName r.fdNm) :
    (registered tbNm regs).Ready where
  tbName := (registered_tbNm tbNm regs).symm ▸ tbName
  names := by
    intro f member
    obtain ⟨r,reg,rfl⟩ := mem_registered member
    exact names r reg
  typed := by
    intro f member
    obtain ⟨r,-,rfl⟩ := mem_registered member
    cases r <;> simp [Reg.typ]

theorem cols_fst (tb : Table) : tb.cols.map Prod.fst = tb.record.map Field.fdNm := by simp [cols]

theorem tableItem_eq {f : Field} (typed : f.typ ≠ .hex) :
    tableItem f = columnSql (f.fdNm,if f.typ = .string then .text else .integer) := by
  obtain ⟨fdNm,status,typ,val⟩ := f
  cases typ with
  | string | longint | longlong => rfl
  | hex => exact absurd rfl typed

theorem execField_eq {tb : Table} (ready : tb.Ready) : tb.execField = (Statement.create tb.tbNm tb.cols).sql := by
  have items : tb.returnTableItems = commas (tb.cols.map columnSql) := by
    rw [returnTableItems,cols,List.map_map]
    apply congrArg
    apply List.map_congr_left
    intro f member
    exact tableItem_eq (ready.typed f member)
  unfold execField Statement.sql createWord
  rw [items]
  simp only [List.append_assoc]

theorem load_fdNm (tb : Table) (p : Pending) : (tb.load p).record.map Field.fdNm = tb.record.map Field.fdNm := by
  simp only [load,update,List.map_map]
  rfl

/-- The literals of a row. -/
def literals (tb : Table) (p : Pending) : List Literal := tb.record.map fun f => (loadField p f).literal

/-- No value of a string field has a quote. -/
def QuoteFree (tb : Table) (p : Pending) : Prop := ∀ f ∈ tb.record, f.typ = .string → '\'' ∉ Pending.text (p f.fdNm)

theorem bodyValue_eq {tb : Table} {p : Pending} (ready : tb.Ready) (free : tb.QuoteFree p) {f : Field}
    (member : f ∈ tb.record) : bodyValue (loadField p f) = (loadField p f).literal.sql := by
  unfold bodyValue Field.literal
  split
  · rfl
  · rename_i other
    have string : f.typ = .string := by
      have typed := ready.typed f member
      have other : ¬(f.typ = .longint ∨ f.typ = .longlong) := other
      cases kind : f.typ <;> simp_all
    have escaped : escape (loadField p f).val = (loadField p f).val := escape_eq_self (free f member string)
    rw [Literal.sql,escaped]

theorem execValue_shape (tb : Table) (p : Pending) :
    (tb.load p).execValue = insertWord ++ (tb.tbNm ++ (" (".toList ++ (commas (tb.cols.map Prod.fst) ++
      (" )VALUES (".toList ++ ((tb.load p).returnBodyValues ++ " );".toList))))) := by
  have between : " )".toList ++ ("VALUES".toList ++ " (".toList) = " )VALUES (".toList := rfl
  unfold execValue returnBodyItems insertWord
  rw [load_fdNm,cols_fst,← between]
  simp only [List.append_assoc]
  rfl

theorem execValue_eq {tb : Table} {p : Pending} (ready : tb.Ready) (free : tb.QuoteFree p) :
    (tb.load p).execValue = (Statement.insert tb.tbNm (tb.cols.map Prod.fst) (tb.literals p)).sql := by
  have values : (tb.load p).returnBodyValues = commas ((tb.literals p).map Literal.sql) := by
    simp only [returnBodyValues,load,update,literals,List.map_map]
    apply congrArg
    apply List.map_congr_left
    intro f member
    exact bodyValue_eq ready free member
  rw [execValue_shape,values]
  rfl

theorem selectAll_eq (tb : Table) (p : Pending) :
    "SELECT * from ".toList ++ (tb.load p).tbNm ++ ";".toList = (Statement.select tb.tbNm).sql := by
  rw [Statement.sql,List.append_assoc]
  unfold selectWord
  rfl

theorem literals_affinity {tb : Table} (ready : tb.Ready) (p : Pending) :
    (tb.literals p).map Literal.affinity = tb.cols.map Prod.snd := by
  simp only [literals,cols,List.map_map]
  apply List.map_congr_left
  intro f member
  have typed := ready.typed f member
  cases kind : f.typ <;> simp_all [Field.literal,loadField,Literal.affinity]

theorem insert_wellFormed {tb : Table} (ready : tb.Ready) (nonempty : tb.record ≠ []) (p : Pending) :
    (Statement.insert tb.tbNm (tb.cols.map Prod.fst) (tb.literals p)).WellFormed := by
  rw [cols_fst]
  refine ⟨ready.tbName,⟨by simpa using nonempty,?_⟩,by simpa [literals] using nonempty⟩
  intro name member
  obtain ⟨f,inside,rfl⟩ := List.mem_map.mp member
  exact ready.names f inside

theorem create_wellFormed {tb : Table} (ready : tb.Ready) (nonempty : tb.record ≠ []) :
    (Statement.create tb.tbNm tb.cols).WellFormed := by
  refine ⟨ready.tbName,by simpa [cols] using nonempty,?_⟩
  intro col member
  obtain ⟨f,inside,rfl⟩ := List.mem_map.mp member
  exact ready.names f inside

end Table

/-! ## A run of calls -/

section Run

variable {e : Engine} {tb : Table}

open Session Table

/-- With no quotes in the values, the calls leave a row of literals for each row that they write. -/
theorem run_load (pl : List (List Column)) (lawful : e.Lawful) (ready : tb.Ready) (nonempty : tb.record ≠ [])
    {calls : List Call} {p : Pending} {db : e.Db} {rows : List (List Stored)}
    (kept : e.table db tb.tbNm = some ⟨tb.cols,rows⟩) (free : ∀ q ∈ rowsWritten p calls, tb.QuoteFree q) :
    ∃ db', calls.foldlM step (⟨tb.load p,db,pl⟩ : Session e) = some ⟨tb.load (pendingAfter p calls),db',pl⟩ ∧
      e.table db' tb.tbNm =
        some ⟨tb.cols,rows ++ (rowsWritten p calls).map fun q => (tb.literals q).map Literal.stored⟩ := by
  induction calls generalizing p db rows with
  | nil => exact ⟨db,rfl,by simpa [rowsWritten] using kept⟩
  | cons call calls ih =>
    cases call with
    | insertValue fdNm val =>
      simp only [List.foldlM_cons,step,load_insert,Option.bind_eq_bind,Option.bind_some]
      exact ih kept free
    | flushValue =>
      simp only [List.foldlM_cons,step,load_flush,Option.bind_eq_bind,Option.bind_some]
      exact ih kept free
    | execValue =>
      obtain ⟨now,later⟩ := List.forall_mem_cons.mp free
      obtain ⟨db',done,kept'⟩ := lawful.insert kept (insert_wellFormed ready nonempty p) (literals_affinity ready p)
      obtain ⟨db'',ran,kept''⟩ := ih kept' later
      refine ⟨db'',?_,by simpa [rowsWritten] using kept''⟩
      have done := (congrArg (fun text => e.exec text db) (execValue_eq ready now)).trans done
      simp only [List.foldlM_cons,step,Option.bind_eq_bind]
      rw [done]
      exact ran

/-- A column as it is read back. -/
def columnBack (e : Engine) (tb : Table) (p : Pending) (f : Field) : Column where
  typ := tb.getFieldTyp (firstWord (colName f.fdNm))
  name := firstWord (colName f.fdNm)
  val := firstWord ((loadField p f).literal.stored.shown e.realText)

theorem execCallback_answer (e : Engine) (tb : Table) (rows : List Pending) :
    ((⟨tb.cols,rows.map fun q => (tb.literals q).map Literal.stored⟩ : Sql.Table).answer e.realText).map tb.execCallback =
      rows.map fun q => tb.record.map (columnBack e tb q) := by
  simp only [Table.answer,List.map_map]
  apply List.map_congr_left
  intro q _
  simp only [Function.comp_apply,literals,Smtdv.Sqlite3.Table.cols,List.map_map,execCallback,List.zip_map']
  rfl

theorem readBack_eq (lawful : e.Lawful) (ready : tb.Ready) (nonempty : tb.record ≠ []) {calls : List Call}
    {p : Pending} {db : e.Db} (kept : e.table db tb.tbNm = some ⟨tb.cols,[]⟩)
    (free : ∀ q ∈ rowsWritten p calls, tb.QuoteFree q) :
    readBack (⟨tb.load p,db,[]⟩ : Session e) calls =
      some ((rowsWritten p calls).map fun q => tb.record.map (columnBack e tb q)) := by
  obtain ⟨db',ran,kept'⟩ := run_load [] lawful ready nonempty kept free
  have answered := lawful.select kept' ready.tbName
  simp only [readBack,ran,Option.bind_eq_bind,Option.bind_some,execQuery,createPl,selectAll_eq]
  rw [answered]
  simp only [Option.map_some,Option.bind_some,List.nil_append,load_execCallback,execCallback_answer]

end Run

end Smtdv.Sqlite3
