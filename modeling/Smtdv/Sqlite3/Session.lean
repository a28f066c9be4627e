import Smtdv.Sqlite3.Table

/-! `dpi_smtdv_sqlite3.cpp`: a table that is registered, filled by its calls, and read back. -/
namespace Smtdv.Sqlite3
open Lib Lib.Sql

/-- `SMTDV_Column`. -/
structure Column where
  typ : DataType
  name : Text
  val : Text
  deriving DecidableEq

/-- The calls that register a field. -/
inductive Reg
  | stringField (fdNm : Text)
  | longintField (fdNm : Text)
  | longlongField (fdNm : Text)

def Reg.fdNm : Reg → Text
  | stringField fdNm | longintField fdNm | longlongField fdNm => fdNm

def Reg.typ : Reg → DataType
  | stringField _ => .string
  | longintField _ => .longint
  | longlongField _ => .longlong

namespace Table

def createTb (tbNm : Text) : Table where
  tbNm := tbNm
  record := []
  sorted := List.Pairwise.nil

def registered (tbNm : Text) (regs : List Reg) : Table :=
  regs.foldl (fun tb r => tb.iregister r.typ r.fdNm) (createTb tbNm)

/-- A name that is not found has the type of a string. -/
def getFieldTyp (tb : Table) (fdNm : Text) : DataType :=
  if tb.isString fdNm then .string
  else if tb.isLongint fdNm then .longint
  else if tb.isLonglong fdNm then .longlong
  else .string

def execCallback (tb : Table) (row : List (Text × Text)) : List Column :=
  row.map fun col => ⟨tb.getFieldTyp (firstWord col.1),firstWord col.1,firstWord col.2⟩

end Table

/-- A value, as a string or as an integer that is printed with blanks in front. -/
inductive Value
  | text (s : Text)
  | int (pad : Nat) (z : Int)

def decimal : Int → Text
  | .ofNat n => digits n
  | .negSucc n => '-'::digits (n+1)

def Value.print : Value → Text
  | text s => s
  | int pad z => List.replicate pad ' ' ++ decimal z

inductive Call
  | insertValue (fdNm : Text) (val : Value)
  | execValue
  | flushValue

/-- `SMTDV_Sqlite3`, with the database and the pool of a table. -/
structure Session (e : Engine) where
  tb : Table
  db : e.Db
  pl : List (List Column) := []

namespace Session

variable {e : Engine}

/-- A statement that fails ends the program. -/
def step (s : Session e) : Call → Option (Session e)
  | .insertValue fdNm val => some {s with tb := s.tb.insert fdNm val.print}
  | .execValue => (e.exec s.tb.execValue s.db).map fun db => {s with db}
  | .flushValue => some {s with tb := s.tb.flush}

def createPl (s : Session e) : Session e := {s with pl := []}

def execQuery (s : Session e) (query : Text) : Option (Session e) :=
  (e.query query s.db).map fun rows => {s with pl := s.pl ++ rows.map s.tb.execCallback}

/-- The pool of a query for all of the table, after the calls. -/
def readBack (s : Session e) (calls : List Call) : Option (List (List Column)) := do
  let s ← calls.foldlM step s
  let s ← s.createPl.execQuery ("SELECT * from ".toList ++ s.tb.tbNm ++ ";".toList)
  some s.pl

end Session

/-! ## The values of a row -/

/-- The last value of each field since the fields were flushed. -/
abbrev Pending := Text → Option Value

def Pending.text (v : Option Value) : Text := (v.map Value.print).getD []

/-- What is pending at each call that writes a row. -/
def rowsWritten : Pending → List Call → List Pending
  | _,[] => []
  | p,.insertValue fdNm val::calls => rowsWritten (Function.update p fdNm (some val)) calls
  | p,.execValue::calls => p::rowsWritten p calls
  | _,.flushValue::calls => rowsWritten (fun _ => none) calls

def pendingAfter : Pending → List Call → Pending
  | p,[] => p
  | p,.insertValue fdNm val::calls => pendingAfter (Function.update p fdNm (some val)) calls
  | p,.execValue::calls => pendingAfter p calls
  | _,.flushValue::calls => pendingAfter (fun _ => none) calls

theorem mem_rowsWritten {calls : List Call} {p q : Pending} {fdNm : Text} {v : Value} (row : q ∈ rowsWritten p calls)
    (last : q fdNm = some v) : p fdNm = some v ∨ .insertValue fdNm v ∈ calls := by
  induction calls generalizing p with
  | nil => exact absurd row List.not_mem_nil
  | cons call calls ih =>
    cases call with
    | insertValue other val =>
      rcases ih row with before | later
      · by_cases same : fdNm = other
        · subst same
          rw [Function.update_self] at before
          obtain rfl := Option.some.inj before
          exact Or.inr List.mem_cons_self
        · rw [Function.update_of_ne same] at before
          exact Or.inl before
      · exact Or.inr (List.mem_cons_of_mem _ later)
    | execValue =>
      rcases List.mem_cons.mp row with rfl | row
      · exact Or.inl last
      · exact (ih row).imp_right (List.mem_cons_of_mem _)
    | flushValue =>
      rcases ih row with before | later
      · exact absurd before (by simp)
      · exact Or.inr (List.mem_cons_of_mem _ later)

namespace Table

def loadField (p : Pending) (f : Field) : Field :=
  {f with status := if (p f.fdNm).isSome then .write else .none, val := Pending.text (p f.fdNm)}

/-- The table with the values that are pending. -/
def load (tb : Table) (p : Pending) : Table := tb.update (loadField p) fun _ => rfl

theorem ext_record {tb tb' : Table} (name : tb.tbNm = tb'.tbNm) (record : tb.record = tb'.record) : tb = tb' := by
  obtain ⟨tbNm,record,_⟩ := tb
  obtain ⟨tbNm',record',_⟩ := tb'
  subst name record
  rfl

theorem load_insert (tb : Table) (p : Pending) (fdNm : Text) (val : Value) :
    (tb.load p).insert fdNm val.print = tb.load (Function.update p fdNm (some val)) := by
  refine ext_record (by rfl) ?_
  simp only [insert,load,update,List.map_map]
  apply List.map_congr_left
  intro f _
  by_cases same : f.fdNm = fdNm
  · simp [loadField,same,Pending.text]
  · simp [loadField,same]

theorem load_flush (tb : Table) (p : Pending) : (tb.load p).flush = tb.load fun _ => none := by
  refine ext_record (by rfl) ?_
  simp only [flush,load,update,List.map_map]
  rfl

theorem load_typOf (tb : Table) (p : Pending) (fdNm : Text) : (tb.load p).typOf fdNm = tb.typOf fdNm := by
  simp only [typOf,load,update,List.find?_map,Option.map_map]
  rfl

theorem load_execCallback (tb : Table) (p : Pending) : (tb.load p).execCallback = tb.execCallback := by
  have same : (tb.load p).typOf = tb.typOf := funext (tb.load_typOf p)
  funext row
  unfold execCallback getFieldTyp isString isLongint isLonglong
  rw [same]

/-! ## Registration -/

theorem mem_registered {tbNm : Text} {regs : List Reg} {f : Field} (member : f ∈ (registered tbNm regs).record) :
    ∃ r ∈ regs, f = {fdNm := r.fdNm, typ := r.typ} := by
  suffices general : ∀ tb : Table, f ∈ (regs.foldl (fun tb r => tb.iregister r.typ r.fdNm) tb).record →
      f ∈ tb.record ∨ ∃ r ∈ regs, f = {fdNm := r.fdNm, typ := r.typ} from
    (general _ member).resolve_left List.not_mem_nil
  clear member
  induction regs with
  | nil => exact fun _ => Or.inl
  | cons r regs ih =>
    intro tb member
    rcases ih _ member with old | ⟨s,later,rfl⟩
    · rcases mem_registerField old with rfl | old
      · exact Or.inr ⟨r,List.mem_cons_self,rfl⟩
      · exact Or.inl old
    · exact Or.inr ⟨s,List.mem_cons_of_mem r later,rfl⟩

theorem registered_tbNm (tbNm : Text) (regs : List Reg) : (registered tbNm regs).tbNm = tbNm := by
  suffices general : ∀ tb : Table, (regs.foldl (fun tb r => tb.iregister r.typ r.fdNm) tb).tbNm = tb.tbNm from general _
  induction regs with
  | nil => exact fun _ => rfl
  | cons r regs ih => exact fun tb => ih _

theorem load_registered (tbNm : Text) (regs : List Reg) :
    (registered tbNm regs).load (fun _ => none) = registered tbNm regs := by
  refine ext_record (by rfl) (Eq.trans (List.map_congr_left fun f member => ?_) (List.map_id _))
  obtain ⟨r,-,rfl⟩ := mem_registered member
  rfl

end Table

end Smtdv.Sqlite3
