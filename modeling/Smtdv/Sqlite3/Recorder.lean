import Smtdv.Lib.SqlQuery
import Smtdv.Sqlite3.Statements

/-! `dpi_smtdv_sqlite3.cpp` with its maps: tables and pools under their names, one database for all of them,
and the name of the table that is queried. -/
namespace Smtdv.Sqlite3
open Lib Lib.Sql

/-- `SMTDV_Sqlite3`. -/
structure Recorder (e : Engine) where
  tb : Text → Option Table := fun _ => none
  pl : Text → Option (List (List Column)) := fun _ => none
  mTbNm : Text := []
  db : e.Db := e.blank

namespace Recorder

variable {e : Engine}

def createTb (r : Recorder e) (tbNm : Text) : Recorder e :=
  {r with tb := Function.update r.tb tbNm (some (Table.createTb tbNm))}

def createPl (r : Recorder e) (tbNm : Text) : Recorder e := {r with pl := Function.update r.pl tbNm (some [])}

def deletePl (r : Recorder e) (tbNm : Text) : Recorder e := {r with pl := Function.update r.pl tbNm none}

/-- A name without a table gets a warning. -/
def change (r : Recorder e) (tbNm : Text) (f : Table → Table) : Recorder e :=
  {r with tb := Function.update r.tb tbNm ((r.tb tbNm).map f)}

def registerLongintField (r : Recorder e) (tbNm fdNm : Text) : Recorder e :=
  r.change tbNm fun tb => tb.iregister .longint fdNm

/-- A statement that fails ends the program. -/
def exec (r : Recorder e) (tbNm : Text) (query : Table → Text) : Option (Recorder e) :=
  match r.tb tbNm with
  | none => some r
  | some tb => (e.exec (query tb) r.db).map fun db => {r with db}

def execField (r : Recorder e) (tbNm : Text) : Option (Recorder e) := r.exec tbNm Table.execField

def insertValue (r : Recorder e) (tbNm fdNm val : Text) : Recorder e := r.change tbNm fun tb => tb.insert fdNm val

def execValue (r : Recorder e) (tbNm : Text) : Option (Recorder e) := r.exec tbNm Table.execValue

def flushValue (r : Recorder e) (tbNm : Text) : Recorder e := r.change tbNm Table.flush

/-- A table that is not found has fields of strings. -/
def getFieldTyp (r : Recorder e) (tbNm fdNm : Text) : DataType :=
  ((r.tb tbNm).map fun tb => tb.getFieldTyp fdNm).getD .string

/-- A row of the answer, for the table of the query. -/
def execCallback (r : Recorder e) (row : List (Text × Text)) : List Column :=
  row.map fun col => ⟨r.getFieldTyp r.mTbNm (firstWord col.1),firstWord col.1,firstWord col.2⟩

/-- The pool of the table has to be there. -/
def execQuery (r : Recorder e) (tbNm query : Text) : Option (Recorder e × List (List Column)) := do
  let r := {r with mTbNm := tbNm}
  let rows ← e.query query r.db
  let pool ← r.pl tbNm
  let pool := pool ++ rows.map r.execCallback
  some ({r with pl := Function.update r.pl tbNm (some pool)},pool)

/-- A call of `smtdv_sqlite3` for a table. -/
def call (tbNm : Text) (r : Recorder e) : Call → Option (Recorder e)
  | .insertValue fdNm val => some (r.insertValue tbNm fdNm val.print)
  | .execValue => r.execValue tbNm
  | .flushValue => some (r.flushValue tbNm)

/-! ## One table among the others -/

/-- Nothing but the table of this name has changed. -/
structure Beside (tbNm : Text) (r s : Recorder e) : Prop where
  tb : ∀ other, other ≠ tbNm → s.tb other = r.tb other
  table : ∀ other, Apart tbNm other → e.table s.db other = e.table r.db other

theorem Beside.refl (tbNm : Text) (r : Recorder e) : Beside tbNm r r := ⟨fun _ _ => rfl,fun _ _ => rfl⟩

theorem Beside.trans {tbNm : Text} {r s t : Recorder e} (first : Beside tbNm r s) (second : Beside tbNm s t) :
    Beside tbNm r t :=
  ⟨fun other apart => (second.tb other apart).trans (first.tb other apart),
    fun other apart => (second.table other apart).trans (first.table other apart)⟩

theorem change_beside (r : Recorder e) (tbNm : Text) (f : Table → Table) : Beside tbNm r (r.change tbNm f) :=
  ⟨fun _ apart => Function.update_of_ne apart ..,fun _ _ => rfl⟩

@[simp] theorem change_tb (r : Recorder e) (tbNm : Text) (f : Table → Table) :
    (r.change tbNm f).tb tbNm = (r.tb tbNm).map f := Function.update_self ..

@[simp] theorem change_db (r : Recorder e) (tbNm : Text) (f : Table → Table) : (r.change tbNm f).db = r.db := rfl

/-- With no quotes in the values, the calls for a table leave it a row of literals for each row that they write, and
leave the other tables alone. -/
theorem run_calls {reserved : Text → Prop} (relational : e.Relational reserved) {tb : Table} (ready : tb.Ready)
    (nonempty : tb.record ≠ []) {calls : List Call} {p : Pending} {r : Recorder e} {rows : List (List Stored)}
    (here : r.tb tb.tbNm = some (tb.load p)) (kept : e.table r.db tb.tbNm = some ⟨tb.cols,rows⟩)
    (free : ∀ q ∈ rowsWritten p calls, tb.QuoteFree q) :
    ∃ s, calls.foldlM (call tb.tbNm) r = some s ∧ Beside tb.tbNm r s ∧
      s.tb tb.tbNm = some (tb.load (pendingAfter p calls)) ∧
      e.table s.db tb.tbNm =
        some ⟨tb.cols,rows ++ (rowsWritten p calls).map fun q => (tb.literals q).map Literal.stored⟩ := by
  induction calls generalizing p r rows with
  | nil => exact ⟨r,rfl,.refl ..,here,by simpa [rowsWritten] using kept⟩
  | cons c calls ih =>
    cases c with
    | insertValue fdNm val =>
      have next : (r.insertValue tb.tbNm fdNm val.print).tb tb.tbNm =
          some (tb.load (Function.update p fdNm (some val))) := by
        rw [insertValue,change_tb,here,Option.map_some,tb.load_insert]
      obtain ⟨s,ran,beside,later,kept'⟩ := ih (r := r.insertValue tb.tbNm fdNm val.print) next kept free
      exact ⟨s,ran,(change_beside ..).trans beside,later,kept'⟩
    | flushValue =>
      have next : (r.flushValue tb.tbNm).tb tb.tbNm = some (tb.load fun _ => none) := by
        rw [flushValue,change_tb,here,Option.map_some,tb.load_flush]
      obtain ⟨s,ran,beside,later,kept'⟩ := ih (r := r.flushValue tb.tbNm) next kept free
      exact ⟨s,ran,(change_beside ..).trans beside,later,kept'⟩
    | execValue =>
      obtain ⟨now,rest⟩ := List.forall_mem_cons.mp free
      obtain ⟨db,done,kept',others⟩ :=
        relational.insert kept (Table.insert_wellFormed ready nonempty p) (Table.literals_affinity ready p)
      obtain ⟨s,ran,beside,later,kept''⟩ := ih (r := {r with db}) here kept' rest
      have written : r.execValue tb.tbNm = some {r with db} := by
        rw [execValue,exec,here]
        change (e.exec (tb.load p).execValue r.db).map _ = _
        rw [Table.execValue_eq ready now,done]
        rfl
      have step : Beside tb.tbNm r {r with db} := ⟨fun _ _ => rfl,others⟩
      refine ⟨s,?_,step.trans beside,later,by simpa [rowsWritten] using kept''⟩
      rw [List.foldlM_cons,call,written]
      exact ran

end Recorder

end Smtdv.Sqlite3
