import Mathlib.Data.Char
import Mathlib.Data.List.Lex
import Mathlib.Data.List.Nodup
import Smtdv.Lib.Sql

/-! `dpi_smtdv_util.h` and `dpi_smtdv_table.cpp`: the fields of a table with their values, and the
SQL text that is built from them. The texts are C strings. -/
namespace Smtdv.Sqlite3
open Lib Lib.Sql

/-! ## Streams -/

/-- `isspace` of the C locale. -/
def isSpace (c : Char) : Bool := c = ' ' || ('\t' ≤ c && c ≤ '\r')

/-- What `>>` takes from a stream into a string. -/
def firstWord (text : Text) : Text := (text.dropWhile isSpace).takeWhile fun c => !isSpace c

def ulongMax : Nat := 2^64-1

def readDigits (text : Text) : Nat := Nat.ofDigitChars 10 (text.takeWhile Char.isDigit) 0

/-- A number with a minus sign is taken as an unsigned one; a number that is too large leaves the
largest one. The number of a text of blanks, which the code leaves indeterminate, is 0 here. -/
def str2Longint (st : Text) : Nat :=
  if st = [] then 0
  else match st.dropWhile isSpace with
    | '-'::rest => if readDigits rest < 2^64 then (2^64-readDigits rest)%2^64 else ulongMax
    | '+'::rest => min (readDigits rest) ulongMax
    | rest => min (readDigits rest) ulongMax

theorem firstWord_eq_self_iff (text : Text) : firstWord text = text ↔ ∀ c ∈ text, isSpace c = false := by
  constructor
  · intro same c member
    rw [← same] at member
    simpa using List.mem_takeWhile_imp member
  · intro free
    have kept : text.dropWhile isSpace = text := by
      cases text with
      | nil => rfl
      | cons c rest => simp [free c List.mem_cons_self]
    rw [firstWord,kept,List.takeWhile_eq_self_iff]
    intro c member
    simp [free c member]

theorem firstWord_sublist (text : Text) : (firstWord text).Sublist text :=
  (List.takeWhile_sublist _).trans (List.dropWhile_sublist _)

theorem readDigits_digits (n : Nat) : readDigits (digits n) = n := by
  have digit : ∀ c ∈ digits n, c.isDigit = true :=
    fun c member => Nat.isDigit_of_mem_toDigits (by decide) (by decide) member
  rw [readDigits,List.takeWhile_eq_self_iff.mpr digit,digits,Nat.ofDigitChars_ten_toDigits]

/-! ## Fields -/

/-- `SMTDV_Data::type`. -/
inductive DataType | string | longint | longlong | hex
  deriving DecidableEq

/-- `SMTDV_Table::status`. -/
inductive Status | read | write | none
  deriving DecidableEq

structure Field where
  fdNm : Text
  status : Status := .none
  typ : DataType
  val : Text := []
  deriving DecidableEq

/-- `m_record` is a map: its fields are in the order of their names. -/
structure Table where
  tbNm : Text
  record : List Field
  sorted : record.Pairwise fun f g => f.fdNm < g.fdNm

def registerField (new : Field) : List Field → List Field
  | [] => [new]
  | f::rest =>
    if f.fdNm = new.fdNm then new::rest
    else if new.fdNm < f.fdNm then new::f::rest
    else f::registerField new rest

theorem mem_registerField {new f : Field} {record : List Field} (member : f ∈ registerField new record) :
    f = new ∨ f ∈ record := by
  induction record with
  | nil => exact Or.inl (List.mem_singleton.mp member)
  | cons g rest ih =>
    unfold registerField at member
    split_ifs at member
    · rcases List.mem_cons.mp member with same | old
      · exact Or.inl same
      · exact Or.inr (List.mem_cons_of_mem g old)
    · exact List.mem_cons.mp member
    · rcases List.mem_cons.mp member with same | old
      · exact Or.inr (same ▸ List.mem_cons_self)
      · exact (ih old).imp_right (List.mem_cons_of_mem g)

theorem registerField_sorted (new : Field) {record : List Field}
    (sorted : record.Pairwise fun f g => f.fdNm < g.fdNm) :
    (registerField new record).Pairwise fun f g => f.fdNm < g.fdNm := by
  induction record with
  | nil => exact List.pairwise_singleton _ _
  | cons g rest ih =>
    obtain ⟨below,sorted⟩ := List.pairwise_cons.mp sorted
    unfold registerField
    split_ifs with same before
    · exact List.pairwise_cons.mpr ⟨fun f member => same ▸ below f member,sorted⟩
    · refine List.pairwise_cons.mpr ⟨?_,List.pairwise_cons.mpr ⟨below,sorted⟩⟩
      intro f member
      rcases List.mem_cons.mp member with rfl | member
      · exact before
      · exact before.trans (below f member)
    · refine List.pairwise_cons.mpr ⟨?_,ih sorted⟩
      intro f member
      rcases mem_registerField member with rfl | member
      · exact lt_of_le_of_ne (not_lt.mp before) same
      · exact below f member

namespace Table

def iregister (tb : Table) (typ : DataType) (fdNm : Text) : Table where
  tbNm := tb.tbNm
  record := registerField {fdNm,typ} tb.record
  sorted := registerField_sorted _ tb.sorted

/-- The fields changed one by one, under their names. -/
def update (tb : Table) (change : Field → Field) (keeps : ∀ f, (change f).fdNm = f.fdNm) : Table where
  tbNm := tb.tbNm
  record := tb.record.map change
  sorted := List.pairwise_map.mpr (tb.sorted.imp fun {f g} before => by rwa [keeps f,keeps g])

/-- A value for a field that is not there is dropped with a warning. -/
def insert (tb : Table) (fdNm val : Text) : Table :=
  tb.update (fun f => if f.fdNm = fdNm then {f with status := .write, val := val} else f)
    (fun f => by split <;> rfl)

def flush (tb : Table) : Table := tb.update (fun f => {f with status := .none, val := []}) (fun _ => rfl)

def typOf (tb : Table) (fdNm : Text) : Option DataType := (tb.record.find? fun f => f.fdNm = fdNm).map Field.typ

def isString (tb : Table) (fdNm : Text) : Bool := tb.typOf fdNm == some .string

def isLongint (tb : Table) (fdNm : Text) : Bool := tb.typOf fdNm == some .longint

def isLonglong (tb : Table) (fdNm : Text) : Bool := tb.typOf fdNm == some .longlong

/-! ## Statements -/

def tableItem (f : Field) : Text :=
  f.fdNm ++ match f.typ with
    | .string => " TEXT".toList
    | .longint | .longlong => " INTEGER".toList
    | .hex => " NULL".toList

def bodyValue (f : Field) : Text :=
  if f.typ = .longint ∨ f.typ = .longlong then digits (str2Longint f.val) else '\''::(f.val ++ ['\''])

def returnTableItems (tb : Table) : Text := commas (tb.record.map tableItem)

def returnBodyItems (tb : Table) : Text := commas (tb.record.map Field.fdNm)

def returnBodyValues (tb : Table) : Text := commas (tb.record.map bodyValue)

def execField (tb : Table) : Text :=
  "CREATE TABLE ".toList ++ tb.tbNm ++ " (".toList ++ tb.returnTableItems ++ " );".toList

def execValue (tb : Table) : Text :=
  "INSERT INTO ".toList ++ tb.tbNm ++ " (".toList ++ tb.returnBodyItems ++ " )".toList ++ "VALUES".toList ++
    " (".toList ++ tb.returnBodyValues ++ " );".toList

end Table

theorem Table.names_nodup (tb : Table) : (tb.record.map Field.fdNm).Nodup :=
  List.pairwise_map.mpr (tb.sorted.imp ne_of_lt)

theorem Table.eq_of_fdNm (tb : Table) {f g : Field} (hf : f ∈ tb.record) (hg : g ∈ tb.record)
    (same : f.fdNm = g.fdNm) : f = g :=
  List.inj_on_of_nodup_map tb.names_nodup hf hg same

theorem Table.typOf_of_mem {tb : Table} {f : Field} (member : f ∈ tb.record) : tb.typOf f.fdNm = some f.typ := by
  obtain ⟨g,found⟩ := Option.isSome_iff_exists.mp
    (List.find?_isSome (p := fun g : Field => decide (g.fdNm = f.fdNm)).mpr ⟨f,member,decide_eq_true rfl⟩)
  have same : g.fdNm = f.fdNm := by simpa using List.find?_some found
  obtain rfl := tb.eq_of_fdNm (List.mem_of_find?_eq_some found) member same
  rw [typOf,found]
  rfl

theorem Table.typOf_of_notMem {tb : Table} {fdNm : Text} (absent : ∀ f ∈ tb.record, f.fdNm ≠ fdNm) :
    tb.typOf fdNm = none := by
  rw [typOf,List.find?_eq_none.mpr (fun f member => by simpa using absent f member)]
  rfl

end Smtdv.Sqlite3
