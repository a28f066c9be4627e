import Mathlib.Algebra.Order.BigOperators.Group.List
import Mathlib.Algebra.Order.Group.Nat
import Smtdv.Sqlite3.Statements

/-! What a table gives back of the values that were put into it, for every engine that keeps what
its statements denote. -/
namespace Smtdv.Sqlite3
open Lib Lib.Sql

/-! ## What is read back of a value -/

theorem isSpace_of_isDigit {c : Char} (digit : c.isDigit = true) : isSpace c = false := by
  have low : 48 ≤ c.toNat := by
    simp only [Char.isDigit,Bool.and_eq_true,decide_eq_true_eq] at digit
    exact digit.1
  rw [Bool.eq_false_iff]
  intro space
  simp only [isSpace,Bool.or_eq_true,Bool.and_eq_true,decide_eq_true_eq] at space
  rcases space with rfl | ⟨-,high⟩
  · exact absurd digit (by decide)
  · have high : c.toNat ≤ 13 := high
    omega

theorem isSpace_of_realChar {c : Char} (real : realChar c = true) : isSpace c = false := by
  simp only [realChar,Bool.or_eq_true,decide_eq_true_eq] at real
  rcases real with (((digit | rfl) | rfl) | rfl) | rfl
  · exact isSpace_of_isDigit digit
  all_goals rfl

theorem isDigit_of_mem {n : Nat} {c : Char} (member : c ∈ digits n) : c.isDigit = true :=
  Nat.isDigit_of_mem_toDigits (by decide) (by decide) member

theorem digits_injective {m n : Nat} (same : digits m = digits n) : m = n := by
  rw [← readDigits_digits m,same,readDigits_digits]

theorem firstWord_digits (n : Nat) : firstWord (digits n) = digits n :=
  (firstWord_eq_self_iff _).mpr fun _ member => isSpace_of_isDigit (isDigit_of_mem member)

theorem decimal_char {z : Int} {c : Char} (member : c ∈ decimal z) : c = '-' ∨ c.isDigit = true := by
  cases z with
  | ofNat n => exact Or.inr (isDigit_of_mem member)
  | negSucc n => exact (List.mem_cons.mp member).imp_right isDigit_of_mem

theorem decimal_ne_nil (z : Int) : decimal z ≠ [] := by
  cases z with
  | ofNat n => exact Nat.toDigits_ne_nil
  | negSucc n => exact List.cons_ne_nil _ _

theorem decimal_space {z : Int} {c : Char} (member : c ∈ decimal z) : isSpace c = false := by
  rcases decimal_char member with rfl | digit
  · rfl
  · exact isSpace_of_isDigit digit

theorem digits_eq_decimal {n : Nat} {z : Int} (same : digits n = decimal z) : z = n := by
  cases z with
  | ofNat m => exact congrArg Int.ofNat (digits_injective same).symm
  | negSucc m =>
    have minus : '-' ∈ digits n := same ▸ List.mem_cons_self
    exact absurd (isDigit_of_mem minus) (by decide)

/-- The blanks are skipped, and a negative number is taken modulo the size of the word. -/
theorem str2Longint_print (pad : Nat) {z : Int} (low : -2^63 ≤ z) (high : z < 2^64) :
    (str2Longint (Value.int pad z).print : Int) = z%2^64 := by
  have skipped : (Value.int pad z).print.dropWhile isSpace = decimal z := by
    rw [Value.print,List.dropWhile_append_of_pos fun c member => by rw [List.eq_of_mem_replicate member]; rfl]
    cases shape : decimal z with
    | nil => rfl
    | cons c rest =>
      have stop : isSpace c = false := decimal_space (shape ▸ List.mem_cons_self)
      simp [stop]
  have nonempty : (Value.int pad z).print ≠ [] := by simp [Value.print,decimal_ne_nil]
  rw [str2Longint,if_neg nonempty,skipped]
  cases z with
  | ofNat n =>
    have cast : Int.ofNat n = (n : Int) := rfl
    have small : n ≤ ulongMax := by
      simp only [ulongMax]
      omega
    have unsigned : ∀ c ∈ decimal (.ofNat n), c.isDigit = true := fun c => isDigit_of_mem
    split
    · rename_i shape
      exact absurd (unsigned '-' (shape ▸ List.mem_cons_self)) (by decide)
    · rename_i shape
      exact absurd (unsigned '+' (shape ▸ List.mem_cons_self)) (by decide)
    · rw [decimal,readDigits_digits,min_eq_left small]
      clear small
      omega
  | negSucc n =>
    have small : n+1 < 2^64 := by omega
    simp only [decimal,readDigits_digits,if_pos small]
    omega

/-- What the value of a field is to be. -/
def fieldText (typ : DataType) (v : Option Value) : Text :=
  if typ = .string then Pending.text v
  else match v with
    | none => digits 0
    | some (.int _ z) => decimal z
    | some (.text s) => s

theorem fieldText_string {typ : DataType} {v : Option Value} (string : typ = .string) :
    fieldText typ v = Pending.text v := if_pos string

/-- An integer field has got a signed or unsigned integer of 64 bits, if it has got a value. -/
def IsLongint (v : Option Value) : Prop := ∀ u, v = some u → ∃ pad z, u = .int pad z ∧ -2^63 ≤ z ∧ z < 2^64

theorem longintBack_iff {e : Engine} (lawful : e.Lawful) {v : Option Value} (longint : IsLongint v) {typ : DataType}
    (typed : typ ≠ .string) :
    firstWord ((Literal.int (str2Longint (Pending.text v))).stored.shown e.realText) = fieldText typ v ↔
      ∀ pad z, v = some (.int pad z) → 0 ≤ z ∧ z < 2^63 := by
  unfold fieldText
  rw [if_neg typed]
  cases v with
  | none =>
    have zero : str2Longint (Pending.text none) = 0 := rfl
    rw [zero]
    exact ⟨fun _ _ _ none => absurd none (by simp),fun _ => firstWord_digits 0⟩
  | some u =>
    obtain ⟨pad,z,rfl,low,high⟩ := longint u rfl
    have word := str2Longint_print pad low high
    change firstWord ((Literal.int (str2Longint (Value.int pad z).print)).stored.shown e.realText) = decimal z ↔ _
    generalize str2Longint (Value.int pad z).print = n at word
    have here : (∀ pad' z', some (Value.int pad z) = some (.int pad' z') → 0 ≤ z' ∧ z' < 2^63) ↔ 0 ≤ z ∧ z < 2^63 := by
      constructor
      · exact fun each => each pad z rfl
      · rintro inside pad' z' same
        obtain ⟨-,rfl⟩ := Value.int.inj (Option.some.inj same)
        exact inside
    rw [here]
    by_cases small : n < 2^63
    · rw [shown_of_lt _ small,firstWord_digits]
      constructor
      · intro same
        obtain rfl := digits_eq_decimal same
        omega
      · rintro ⟨nonneg,-⟩
        obtain rfl : z = n := by omega
        rfl
    · obtain ⟨point,chars⟩ := lawful.real n (by omega)
      rw [shown_of_not_lt _ small,(firstWord_eq_self_iff _).mpr fun c member => isSpace_of_realChar (chars c member)]
      constructor
      · intro same
        rw [same] at point
        exact absurd (decimal_char point) (by decide)
      · rintro ⟨nonneg,bound⟩
        omega

/-! ## What is read back of a column -/

def expectedColumn (q : Pending) (f : Field) : Column := ⟨f.typ,colName f.fdNm,fieldText f.typ (q f.fdNm)⟩

/-- The value comes back. The name has no blank; a string has neither a blank nor a quote; an
integer field has a plain name and an integer that a signed word has room for and that is not
negative. -/
def Storable (f : Field) (v : Option Value) : Prop :=
  (∀ c ∈ f.fdNm, isSpace c = false) ∧
    if f.typ = .string then ∀ c ∈ Pending.text v, isSpace c = false ∧ c ≠ '\''
    else Plain f.fdNm ∧ ∀ pad z, v = some (.int pad z) → 0 ≤ z ∧ z < 2^63

theorem colName_space_iff {name : Text} (isName : IsName name) :
    (∀ c ∈ colName name, isSpace c = false) ↔ ∀ c ∈ name, isSpace c = false := by
  rcases isName with plain | ⟨inner,-,rfl⟩
  · rw [plain.colName_eq]
  · rw [colName_quoted]
    constructor
    · intro inside c member
      rcases List.mem_cons.mp member with rfl | member
      · rfl
      · rcases List.mem_append.mp member with member | last
        · exact inside c member
        · rw [List.mem_singleton.mp last]
          rfl
    · exact fun all c member => all c (List.mem_cons_of_mem _ (List.mem_append_left _ member))

namespace Table

/-- No two fields stand for one column. -/
def Distinct (tb : Table) : Prop := (tb.record.map fun f => colName f.fdNm).Nodup

instance (tb : Table) : Decidable tb.Distinct := inferInstanceAs (Decidable (List.Nodup _))

theorem getFieldTyp_plain {tb : Table} (ready : tb.Ready) {f : Field} (member : f ∈ tb.record) (plain : Plain f.fdNm) :
    tb.getFieldTyp (colName f.fdNm) = f.typ := by
  have typed := ready.typed f member
  rw [plain.colName_eq]
  simp only [getFieldTyp,isString,isLongint,isLonglong,typOf_of_mem member]
  cases kind : f.typ <;> simp_all

theorem getFieldTyp_quoted {tb : Table} (ready : tb.Ready) (distinct : tb.Distinct) {f : Field}
    (member : f ∈ tb.record) (quoted : ¬Plain f.fdNm) : tb.getFieldTyp (colName f.fdNm) = .string := by
  obtain ⟨inner,free,shape⟩ := (ready.names f member).resolve_left quoted
  have column : colName f.fdNm = inner := by rw [shape,colName_quoted]
  have absent : ∀ g ∈ tb.record, g.fdNm ≠ colName f.fdNm := by
    intro g other same
    rw [column] at same
    rcases ready.names g other with plain | ⟨inner',-,shape'⟩
    · have columns : colName g.fdNm = colName f.fdNm := by rw [plain.colName_eq,same,column]
      obtain rfl := List.inj_on_of_nodup_map distinct other member columns
      exact quoted plain
    · exact free (same ▸ shape' ▸ List.mem_cons_self)
  simp only [getFieldTyp,isString,isLongint,isLonglong,typOf_of_notMem absent]
  rfl

end Table

open Table in
theorem columnBack_eq_iff {e : Engine} {tb : Table} (lawful : e.Lawful) (ready : tb.Ready) (distinct : tb.Distinct)
    {q : Pending} {f : Field} (member : f ∈ tb.record) (free : tb.QuoteFree q)
    (longint : f.typ ≠ .string → IsLongint (q f.fdNm)) :
    columnBack e tb q f = expectedColumn q f ↔ Storable f (q f.fdNm) := by
  have header : firstWord (colName f.fdNm) = colName f.fdNm ↔ ∀ c ∈ f.fdNm, isSpace c = false :=
    (firstWord_eq_self_iff _).trans (colName_space_iff (ready.names f member))
  simp only [columnBack,expectedColumn,Column.mk.injEq,Storable,header]
  rw [and_left_comm]
  apply and_congr_right
  intro space
  rw [header.mpr space]
  by_cases string : f.typ = .string
  · have found : tb.getFieldTyp (colName f.fdNm) = f.typ := by
      by_cases plain : Plain f.fdNm
      · exact getFieldTyp_plain ready member plain
      · exact (getFieldTyp_quoted ready distinct member plain).trans string.symm
    have literal : (loadField q f).literal = .text (Pending.text (q f.fdNm)) := by
      simp [Field.literal,loadField,string]
    have here := free f member string
    rw [literal,found,if_pos string,fieldText_string string]
    change _ ∧ firstWord (Pending.text (q f.fdNm)) = Pending.text (q f.fdNm) ↔ _
    rw [firstWord_eq_self_iff]
    constructor
    · rintro ⟨-,word⟩ c inside
      exact ⟨word c inside,fun same => here (same ▸ inside)⟩
    · exact fun word => ⟨rfl,fun c inside => (word c inside).1⟩
  · have literal : (loadField q f).literal = .int (str2Longint (Pending.text (q f.fdNm))) := by
      have typed := ready.typed f member
      cases kind : f.typ <;> simp_all [Field.literal,loadField]
    have found : tb.getFieldTyp (colName f.fdNm) = f.typ ↔ Plain f.fdNm := by
      constructor
      · intro same
        by_contra quoted
        exact string (same.symm.trans (getFieldTyp_quoted ready distinct member quoted))
      · exact getFieldTyp_plain ready member
    rw [literal,if_neg string,found]
    exact and_congr_right fun _ => longintBack_iff lawful (longint string) string

/-! ## The round trip -/

/-- Every engine that can make the table gives back a row for each row that is written, and in each
column of it the field's value and type under the name of the column. -/
def RoundTrip (tbNm : Text) (regs : List Reg) (calls : List Call) : Prop :=
  ∀ e : Engine, e.Lawful → ∀ db, e.exec (Table.registered tbNm regs).execField e.blank = some db →
    Session.readBack (⟨Table.registered tbNm regs,db,[]⟩ : Session e) calls =
      some ((rowsWritten (fun _ => none) calls).map fun q => (Table.registered tbNm regs).record.map (expectedColumn q))

/-- The integer fields get integers of 64 bits. -/
def Typed (tb : Table) (calls : List Call) : Prop :=
  ∀ f ∈ tb.record, f.typ ≠ .string → ∀ v, .insertValue f.fdNm v ∈ calls → IsLongint (some v)

theorem Typed.isLongint {tb : Table} {calls : List Call} (typed : Typed tb calls) {q : Pending}
    (row : q ∈ rowsWritten (fun _ => none) calls) {f : Field} (member : f ∈ tb.record) (string : f.typ ≠ .string) :
    IsLongint (q f.fdNm) := by
  intro u last
  rcases mem_rowsWritten row last with before | call
  · exact absurd before (by simp)
  · exact typed f member string u call u rfl

theorem map_columnBack_eq_iff {e : Engine} {tb : Table} (lawful : e.Lawful) (ready : tb.Ready) (distinct : tb.Distinct)
    {calls : List Call} (typed : Typed tb calls) (free : ∀ q ∈ rowsWritten (fun _ => none) calls, tb.QuoteFree q) :
    ((rowsWritten (fun _ => none) calls).map (fun q => tb.record.map (columnBack e tb q)) =
      (rowsWritten (fun _ => none) calls).map fun q => tb.record.map (expectedColumn q)) ↔
      ∀ q ∈ rowsWritten (fun _ => none) calls, ∀ f ∈ tb.record, Storable f (q f.fdNm) := by
  rw [List.map_inj_left]
  apply forall₂_congr
  intro q row
  rw [List.map_inj_left]
  apply forall₂_congr
  intro f member
  exact columnBack_eq_iff lawful ready distinct member (free q row) (typed.isLongint row member)

theorem Storable.quoteFree {tb : Table} {q : Pending} (storable : ∀ f ∈ tb.record, Storable f (q f.fdNm)) :
    tb.QuoteFree q := by
  intro f member string quote
  have word := (storable f member).2
  rw [if_pos string] at word
  exact (word _ quote).2 rfl

/-! ## Quotes -/

section Quotes

open Session Table

variable {tb : Table}

/-- The literals that the reader takes from the text of a row. -/
structure Written (tb : Table) (q : Pending) (values : List Literal) : Prop where
  affinity : values.map Literal.affinity = tb.cols.map Prod.snd
  body : commas (values.map Literal.sql) = (tb.load q).returnBodyValues

theorem reader_execField (ready : tb.Ready) (nonempty : tb.record ≠ []) (distinct : tb.Distinct) :
    reader.exec tb.execField reader.blank = some (Tables.put (fun _ => none) tb.tbNm ⟨tb.cols,[]⟩) := by
  have columns : (tb.cols.map fun col => colName col.1).Nodup := by
    rw [Sqlite3.Table.cols,List.map_map]
    exact distinct
  rw [execField_eq ready]
  exact (reader_exec (create_wellFormed ready nonempty) _).trans (if_pos ⟨columns,rfl⟩)

/-- The database of the reader while it has no other table. -/
structure Only (tb : Table) (db : Tables) (rows : List (List Stored)) : Prop where
  here : db tb.tbNm = some ⟨tb.cols,rows⟩
  others : ∀ name, name ≠ tb.tbNm → db name = none

theorem reader_execValue {q : Pending} {db db' : Tables} {rows : List (List Stored)} (only : Only tb db rows)
    (done : reader.exec (tb.load q).execValue db = some db') :
    ∃ values, Written tb q values ∧ Only tb db' (rows ++ [values.map Literal.stored]) := by
  have insert : (tb.load q).execValue.head? = some 'I' := rfl
  simp only [reader] at done
  split at done
  · exact absurd done (by simp)
  · rename_i s readIt
    split_ifs at done with same
    cases s with
    | create tb' cols =>
      have create : (Statement.create tb' cols).sql.head? = some 'C' := rfl
      exact absurd (create.symm.trans ((congrArg List.head? same).trans insert)) (by decide)
    | select tb' =>
      have select : (Statement.select tb').sql.head? = some 'S' := rfl
      exact absurd (select.symm.trans ((congrArg List.head? same).trans insert)) (by decide)
    | insert tb' items values =>
      simp only [Statement.run] at done
      split at done
      · exact absurd done (by simp)
      · rename_i t found
        split_ifs at done with fits
        obtain ⟨rfl,affinity⟩ := fits
        have name : tb' = tb.tbNm := by
          by_contra other
          exact absurd ((only.others tb' other).symm.trans found) (by simp)
        subst name
        obtain rfl := Option.some.inj (only.here.symm.trans found)
        obtain rfl := Option.some.inj done
        refine ⟨values,⟨affinity,?_⟩,⟨Tables.put_self ..,?_⟩⟩
        · rw [execValue_shape,Statement.sql] at same
          simp only [List.append_cancel_left_eq,List.append_cancel_right_eq] at same
          exact same
        · intro name other
          exact (Function.update_of_ne other ..).trans (only.others name other)

theorem reader_run {calls : List Call} {p : Pending} {db : Tables} {pl : List (List Column)} {rows : List (List Stored)}
    {s : Session reader} (only : Only tb db rows)
    (ran : calls.foldlM step (⟨tb.load p,db,pl⟩ : Session reader) = some s) :
    ∃ written, List.Forall₂ (Written tb) (rowsWritten p calls) written ∧ s.tb = tb.load (pendingAfter p calls) ∧
      Only tb s.db (rows ++ written.map fun values => values.map Literal.stored) := by
  induction calls generalizing p db rows with
  | nil =>
    obtain rfl := Option.some.inj ran
    exact ⟨[],List.Forall₂.nil,rfl,by simpa using only⟩
  | cons call calls ih =>
    cases call with
    | insertValue fdNm val =>
      simp only [List.foldlM_cons,step,load_insert,Option.bind_eq_bind,Option.bind_some] at ran
      exact ih only ran
    | flushValue =>
      simp only [List.foldlM_cons,step,load_flush,Option.bind_eq_bind,Option.bind_some] at ran
      exact ih only ran
    | execValue =>
      simp only [List.foldlM_cons,step,Option.bind_eq_bind] at ran
      obtain ⟨s',done,ran⟩ := Option.bind_eq_some_iff.mp ran
      obtain ⟨db',made,rfl⟩ := Option.map_eq_some_iff.mp done
      obtain ⟨values,written,only⟩ := reader_execValue only made
      obtain ⟨more,later,last,only⟩ := ih only ran
      exact ⟨values::more,List.Forall₂.cons written later,last,by simpa using only⟩

/-- The value of a column that is read from a literal. -/
def literalBack (value : Literal) : Text := firstWord (value.stored.shown realText)

theorem str2Longint_of_back {v : Option Value} {typ : DataType} {n : Nat} (string : typ ≠ .string)
    (longint : IsLongint v) (back : literalBack (.int n) = fieldText typ v) : str2Longint (Pending.text v) = n := by
  have point : '.' ∉ fieldText typ v := by
    unfold fieldText
    rw [if_neg string]
    cases v with
    | none => exact (by decide : '.' ∉ digits 0)
    | some u =>
      obtain ⟨pad,z,rfl,-,-⟩ := longint u rfl
      exact fun point => absurd (decimal_char point) (by decide)
  have small : n < 2^63 := by
    by_contra large
    have stored : literalBack (.int n) = realText n := by
      rw [literalBack,shown_of_not_lt _ large]
      exact (firstWord_eq_self_iff _).mpr fun c member => isSpace_of_realChar ((realText_chars n).2 c member)
    exact point (back ▸ stored ▸ (realText_chars n).1)
  have stored : literalBack (.int n) = digits n := by
    rw [literalBack,shown_of_lt _ small]
    exact firstWord_digits n
  unfold fieldText at back
  rw [stored,if_neg string] at back
  cases v with
  | none => exact digits_injective back.symm
  | some u =>
    obtain ⟨pad,z,rfl,low,high⟩ := longint u rfl
    obtain rfl := digits_eq_decimal back
    have word := str2Longint_print pad low high
    change str2Longint (Value.int pad n).print = n
    omega

/-- The text that is read is at least as long as the one that is written, and longer if the latter
has a quote. -/
theorem length_bodyValue_le {q : Pending} {f : Field} {value : Literal} (typed : f.typ ≠ .hex)
    (longint : f.typ ≠ .string → IsLongint (q f.fdNm))
    (affinity : value.affinity = if f.typ = .string then .text else .integer)
    (back : literalBack value = fieldText f.typ (q f.fdNm)) :
    (bodyValue (loadField q f)).length ≤ value.sql.length ∧
      (value.sql.length ≤ (bodyValue (loadField q f)).length → f.typ = .string → '\'' ∉ Pending.text (q f.fdNm)) := by
  by_cases string : f.typ = .string
  · have body : bodyValue (loadField q f) = '\''::(Pending.text (q f.fdNm) ++ ['\'']) := by
      simp [bodyValue,loadField,string]
    rw [if_pos string] at affinity
    cases value with
    | int n => exact absurd affinity (by simp [Literal.affinity])
    | text s =>
      rw [fieldText_string string] at back
      have word : firstWord s = Pending.text (q f.fdNm) := back
      have shorter := (firstWord_sublist s).length_le
      have longer := length_le_escape s
      rw [body,← word]
      simp only [Literal.sql,List.length_cons,List.length_append,List.length_nil]
      refine ⟨by omega,fun same _ => ?_⟩
      have whole : firstWord s = s := (firstWord_sublist s).eq_of_length (by omega)
      rw [whole]
      exact notMem_of_length_escape (by omega)
  · refine ⟨?_,fun _ other => absurd other string⟩
    rw [if_neg string] at affinity
    have body : bodyValue (loadField q f) = digits (str2Longint (Pending.text (q f.fdNm))) := by
      cases kind : f.typ <;> simp_all [bodyValue,loadField]
    cases value with
    | text s => exact absurd affinity (by simp [Literal.affinity])
    | int n => rw [body,str2Longint_of_back string (longint string) back,Literal.sql]

/-- Things that are no larger one by one, and not smaller together, are of the same size. -/
theorem forall_of_sum_le {α β : Type} {xs : List α} {ys : List β} {a : α → Nat} {b : β → Nat} {P : α → Prop}
    (each : List.Forall₂ (fun x y => a x ≤ b y ∧ (b y ≤ a x → P x)) xs ys)
    (total : (ys.map b).sum ≤ (xs.map a).sum) : ∀ x ∈ xs, P x := by
  induction each with
  | nil => exact fun x member => absurd member List.not_mem_nil
  | @cons x y xs ys first each ih =>
    have later : (xs.map a).sum ≤ (ys.map b).sum := by
      apply List.Forall₂.sum_le_sum
      rw [List.forall₂_map_left_iff,List.forall₂_map_right_iff]
      exact each.imp fun _ _ one => one.1
    have below := first.1
    rw [List.map_cons,List.map_cons,List.sum_cons,List.sum_cons] at total
    exact List.forall_mem_cons.mpr ⟨first.2 (by omega),ih (by omega)⟩

theorem forall₂_of_map_eq {α β γ : Type} {f : α → γ} {g : β → γ} {xs : List α} {ys : List β} (same : xs.map f = ys.map g) :
    List.Forall₂ (fun x y => f x = g y) xs ys := by
  rw [← List.forall₂_map_left_iff (f := f) (R := fun z y => z = g y),
    ← List.forall₂_map_right_iff (f := g) (R := fun z w => z = w),same]
  exact List.forall₂_same.mpr fun _ _ => rfl

theorem exists_of_map_eq {α β γ : Type} {R : α → β → Prop} {f : β → γ} {g : α → γ} {xs : List α} {ys : List β}
    (each : List.Forall₂ R xs ys) (same : ys.map f = xs.map g) {x : α} (member : x ∈ xs) : ∃ y, R x y ∧ f y = g x := by
  induction each with
  | nil => exact absurd member List.not_mem_nil
  | @cons x' y xs ys related each ih =>
    obtain ⟨first,later⟩ := List.cons.inj same
    rcases List.mem_cons.mp member with rfl | member
    · exact ⟨y,related,first⟩
    · exact ih later member

/-- A row that comes back as it is to be has no quotes. -/
theorem Written.quoteFree (ready : tb.Ready) {q : Pending} {values : List Literal} (written : Written tb q values)
    (longint : ∀ f ∈ tb.record, f.typ ≠ .string → IsLongint (q f.fdNm))
    (back : tb.execCallback ((tb.cols.map fun col => colName col.1).zip
      ((values.map Literal.stored).map (Stored.shown realText))) = tb.record.map (expectedColumn q)) :
    tb.QuoteFree q := by
  have count : values.length = tb.record.length := by
    have counts := congrArg List.length written.affinity
    simpa [Sqlite3.Table.cols] using counts
  have texts : values.map literalBack = tb.record.map fun f => fieldText f.typ (q f.fdNm) := by
    have vals := congrArg (List.map Column.val) back
    rw [execCallback,List.map_map] at vals
    have wide : ((values.map Literal.stored).map (Stored.shown realText)).length ≤
        (tb.cols.map fun col => colName col.1).length := by simp [count,Sqlite3.Table.cols]
    have shown := List.map_snd_zip wide
    have split : values.map literalBack =
        (((tb.cols.map fun col => colName col.1).zip ((values.map Literal.stored).map (Stored.shown realText))).map
          Prod.snd).map firstWord := by
      rw [shown,List.map_map,List.map_map]
      rfl
    rw [split,List.map_map]
    refine vals.trans ?_
    rw [List.map_map]
    rfl
  have kinds : values.map Literal.affinity = tb.record.map fun f => if f.typ = .string then .text else .integer := by
    rw [written.affinity]
    simp only [Sqlite3.Table.cols,List.map_map]
    rfl
  have both : (tb.record.map fun f => ((if f.typ = .string then Affinity.text else .integer),fieldText f.typ (q f.fdNm))) =
      values.map fun value => (value.affinity,literalBack value) := by
    rw [← List.zip_map',← List.zip_map',kinds,texts]
  have each := (List.forall₂_and_left tb.record values).mpr ⟨fun f member => member,forall₂_of_map_eq both⟩
  by_cases empty : tb.record = []
  · exact fun f member => absurd (empty ▸ member) List.not_mem_nil
  · have bodies : (values.map fun value => value.sql.length+1).sum =
        (tb.record.map fun f => (bodyValue (loadField q f)).length+1).sum := by
      have same := congrArg (fun text => List.length text+1) written.body
      simp only [returnBodyValues,load,update,List.map_map] at same
      rw [length_commas_add_one (by simpa [← List.length_pos_iff,count] using empty),
        length_commas_add_one (by simpa using empty),List.map_map,List.map_map] at same
      exact same
    refine forall_of_sum_le (each.imp ?_) bodies.le
    rintro f value ⟨member,same⟩
    obtain ⟨affinity,text⟩ := Prod.mk.inj same
    obtain ⟨below,free⟩ := length_bodyValue_le (ready.typed f member) (longint f member) affinity.symm text.symm
    exact ⟨by omega,fun above => free (by omega)⟩

/-- With a row that does not come back as it is to be, the reader is an engine that tells. -/
theorem reader_quoteFree (ready : tb.Ready) {calls : List Call} {db : Tables} (typed : Typed tb calls)
    (fresh : tb.load (fun _ => none) = tb) (only : Only tb db [])
    (back : readBack (⟨tb,db,[]⟩ : Session reader) calls =
      some ((rowsWritten (fun _ => none) calls).map fun q => tb.record.map (expectedColumn q))) :
    ∀ q ∈ rowsWritten (fun _ => none) calls, tb.QuoteFree q := by
  simp only [readBack,Option.bind_eq_bind] at back
  obtain ⟨s,ran,back⟩ := Option.bind_eq_some_iff.mp back
  obtain ⟨s',asked,back⟩ := Option.bind_eq_some_iff.mp back
  rw [← fresh] at ran
  obtain ⟨written,rows,last,only⟩ := reader_run only ran
  have answered := reader_lawful.select (e := reader) only.here ready.tbName
  simp only [execQuery,createPl,last,selectAll_eq,load_execCallback,List.nil_append] at asked
  rw [answered] at asked
  obtain rfl := Option.some.inj asked
  have pool : ((⟨tb.cols,written.map fun values => values.map Literal.stored⟩ : Sql.Table).answer realText).map
      tb.execCallback = _ := Option.some.inj back
  rw [Table.answer,List.map_map,List.map_map] at pool
  intro q row
  obtain ⟨values,written,same⟩ := exists_of_map_eq rows pool row
  exact written.quoteFree ready (fun f member string => typed.isLongint row member string) same

end Quotes

/-! ## The exact condition -/

open Table in
theorem session_roundTrip_iff {tbNm : Text} {regs : List Reg} {calls : List Call} (tbName : IsName tbNm)
    (names : ∀ r ∈ regs, IsName r.fdNm) (distinct : (registered tbNm regs).Distinct)
    (typed : Typed (registered tbNm regs) calls) :
    RoundTrip tbNm regs calls ↔
      ∀ q ∈ rowsWritten (fun _ => none) calls, ∀ f ∈ (registered tbNm regs).record, Storable f (q f.fdNm) := by
  have ready := registered_ready tbName names
  have fresh := load_registered tbNm regs
  generalize shape : registered tbNm regs = tb at distinct typed ready fresh
  unfold RoundTrip
  rw [shape]
  by_cases empty : tb.record = []
  · have noTable (e : Engine) (lawful : e.Lawful) : e.exec tb.execField e.blank = none := by
      have none := lawful.nonempty tb.tbNm ready.tbName
      rw [execField_eq ready]
      simpa [Sqlite3.Table.cols,empty] using none
    constructor
    · exact fun _ q _ f member => absurd (empty ▸ member) List.not_mem_nil
    · exact fun _ e lawful db made => absurd ((noTable e lawful).symm.trans made) (by simp)
  have made {e : Engine} (lawful : e.Lawful) {db : e.Db} (done : e.exec tb.execField e.blank = some db) :
      e.table db tb.tbNm = some ⟨tb.cols,[]⟩ :=
    (lawful.create (create_wellFormed ready empty) (execField_eq ready ▸ done)).2
  have readBack {e : Engine} (lawful : e.Lawful) {db : e.Db} (done : e.exec tb.execField e.blank = some db)
      (free : ∀ q ∈ rowsWritten (fun _ => none) calls, tb.QuoteFree q) :
      Session.readBack (⟨tb,db,[]⟩ : Session e) calls =
        some ((rowsWritten (fun _ => none) calls).map fun q => tb.record.map (columnBack e tb q)) := by
    have back := readBack_eq lawful ready empty (made lawful done) free
    rwa [fresh] at back
  constructor
  · intro every
    have done := reader_execField ready empty distinct
    have only : Only tb (Tables.put (fun _ => none) tb.tbNm ⟨tb.cols,[]⟩) [] :=
      ⟨Tables.put_self ..,fun name other => Function.update_of_ne other ..⟩
    have back := every reader reader_lawful _ done
    have free := reader_quoteFree ready typed fresh only back
    rw [readBack reader_lawful done free] at back
    exact (map_columnBack_eq_iff reader_lawful ready distinct typed free).mp (Option.some.inj back)
  · intro storable e lawful db done
    have free : ∀ q ∈ rowsWritten (fun _ => none) calls, tb.QuoteFree q :=
      fun q row => Storable.quoteFree (storable q row)
    rw [readBack lawful done free]
    exact congrArg some ((map_columnBack_eq_iff lawful ready distinct typed free).mpr storable)


theorem isName_of_all {name : Text} (all : name ≠ [] ∧ name.all nameChar = true) : IsName name :=
  Or.inl ⟨all.1,List.all_eq_true.mp all.2⟩

theorem session_roundTrip_aRow :
    RoundTrip "t".toList [.longintField "n".toList,.stringField "a".toList]
      [.insertValue "a".toList (.text "x".toList),.insertValue "n".toList (.int 3 5),.execValue] := by
  have record : (Table.registered "t".toList [.longintField "n".toList,.stringField "a".toList]).record =
      [{fdNm := "a".toList, typ := .string},{fdNm := "n".toList, typ := .longint}] := by decide
  refine (session_roundTrip_iff (isName_of_all (by decide)) ?_ (by decide) ?_).mpr ?_
  · intro r member
    rcases List.mem_pair.mp member with rfl | rfl <;> exact isName_of_all (by decide)
  · intro f member string v call u same
    obtain rfl := Option.some.inj same
    rw [record] at member
    rcases List.mem_pair.mp member with rfl | rfl
    · exact absurd rfl string
    · have call : v = .int 3 5 := by simpa using call
      exact ⟨3,5,call,by decide,by decide⟩
  · intro q row f member
    obtain rfl := List.mem_singleton.mp row
    rw [record] at member
    rcases List.mem_pair.mp member with rfl | rfl
    · refine ⟨(List.forall_mem_singleton (a := 'a')).mpr rfl,?_⟩
      rw [if_pos rfl]
      exact (List.forall_mem_singleton (a := 'x')).mpr ⟨rfl,by decide⟩
    · refine ⟨(List.forall_mem_singleton (a := 'n')).mpr rfl,⟨by decide,List.all_eq_true.mp (by decide)⟩,
        fun pad z same => ?_⟩
      obtain ⟨-,rfl⟩ := Value.int.inj (Option.some.inj same)
      decide

/-- The table of the system: the field of a component has its name between quotes. -/
def systemTable : List Reg := [.longintField "\"top.cmp\"".toList,.longintField "time".toList,.stringField "desc".toList]

def populateLabel : List Call :=
  [.insertValue "time".toList (.int 0 7),.insertValue "\"top.cmp\"".toList (.int 0 1),
    .insertValue "desc".toList (.text "read cfg".toList),.execValue,.flushValue]

theorem not_roundTrip_populateLabel : ¬RoundTrip "\"top.system_table\"".toList systemTable populateLabel := by
  intro every
  have tbName : IsName "\"top.system_table\"".toList := Or.inr ⟨"top.system_table".toList,by decide,rfl⟩
  have names : ∀ r ∈ systemTable, IsName r.fdNm := by
    simp only [systemTable,List.forall_mem_cons]
    exact ⟨Or.inr ⟨"top.cmp".toList,by decide,rfl⟩,isName_of_all (by decide),isName_of_all (by decide),
      fun r member => absurd member List.not_mem_nil⟩
  have ready := Table.registered_ready tbName names
  have made := reader_execField ready (by decide) (by decide)
  have back := every reader reader_lawful _ made
  exact absurd back (by decide)

end Smtdv.Sqlite3
