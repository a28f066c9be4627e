import Mathlib.Algebra.GroupWithZero.Nat
import Mathlib.Data.List.Infix
import Mathlib.Data.List.TakeWhile
import Mathlib.Logic.Function.Basic

/-! The statements of SQL that make a table, put rows of literals into it and read it back, with
their text, and the engines that keep what the text denotes. -/
namespace Smtdv.Lib.Sql

abbrev Text := List Char

/-! ## Names -/

def nameChar (c : Char) : Bool := c.isAlphanum || c = '_'

def Plain (name : Text) : Prop := name ≠ [] ∧ ∀ c ∈ name, nameChar c = true

def Quoted (name : Text) : Prop := ∃ inner, '"' ∉ inner ∧ name = '"'::(inner ++ ['"'])

def IsName (name : Text) : Prop := Plain name ∨ Quoted name

/-- A quoted name stands for what is between the quotes. -/
def colName : Text → Text
  | '"'::rest => rest.dropLast
  | name => name

theorem Plain.notMem_quote {name : Text} (plain : Plain name) : '"' ∉ name :=
  fun member => absurd (plain.2 _ member) (by decide)

theorem Plain.colName_eq {name : Text} (plain : Plain name) : colName name = name := by
  unfold colName
  split
  · exact absurd List.mem_cons_self plain.notMem_quote
  · rfl

@[simp] theorem colName_quoted (inner : Text) : colName ('"'::(inner ++ ['"'])) = inner := by simp [colName]

/-! ## Literals and statements -/

inductive Affinity | text | integer
  deriving DecidableEq

inductive Literal
  | int (n : Nat)
  | text (s : Text)
  deriving DecidableEq

def digits (n : Nat) : Text := Nat.toDigits 10 n

/-- A quote inside a text is written twice. -/
def escape (s : Text) : Text := s.flatMap fun c => if c = '\'' then ['\'','\''] else [c]

namespace Literal

def sql : Literal → Text
  | int n => digits n
  | text s => '\''::(escape s ++ ['\''])

def affinity : Literal → Affinity
  | int _ => .integer
  | text _ => .text

end Literal

def commas : List Text → Text
  | [] => []
  | [t] => t
  | t::ts => t ++ ','::commas ts

inductive Statement
  | create (tb : Text) (cols : List (Text × Affinity))
  | insert (tb : Text) (items : List Text) (values : List Literal)
  | select (tb : Text)

def createWord : Text := "CREATE TABLE ".toList

def insertWord : Text := "INSERT INTO ".toList

def selectWord : Text := "SELECT * from ".toList

def columnSql (col : Text × Affinity) : Text :=
  col.1 ++ match col.2 with
    | .text => " TEXT".toList
    | .integer => " INTEGER".toList

namespace Statement

def sql : Statement → Text
  | create tb cols => createWord ++ (tb ++ (" (".toList ++ (commas (cols.map columnSql) ++ " );".toList)))
  | insert tb items values =>
    insertWord ++ (tb ++ (" (".toList ++ (commas items ++ (" )VALUES (".toList ++
      (commas (values.map Literal.sql) ++ " );".toList)))))
  | select tb => selectWord ++ (tb ++ ";".toList)

def WellFormed : Statement → Prop
  | create tb cols => IsName tb ∧ cols ≠ [] ∧ ∀ col ∈ cols, IsName col.1
  | insert tb items values => IsName tb ∧ (items ≠ [] ∧ ∀ item ∈ items, IsName item) ∧ values ≠ []
  | select tb => IsName tb

end Statement

theorem escape_cons (c : Char) (s : Text) :
    escape (c::s) = (if c = '\'' then ['\'','\''] else [c]) ++ escape s := by
  simp [escape]

theorem escape_eq_self {s : Text} (free : '\'' ∉ s) : escape s = s := by
  induction s with
  | nil => rfl
  | cons c rest ih =>
    rw [List.mem_cons,not_or] at free
    rw [escape_cons,if_neg (Ne.symm free.1),ih free.2]
    rfl

theorem length_le_escape (s : Text) : s.length ≤ (escape s).length := by
  induction s with
  | nil => exact Nat.le_refl _
  | cons c rest ih =>
    rw [escape_cons,List.length_append]
    split <;> simp <;> omega

/-- A text with a quote grows when it is written. -/
theorem notMem_of_length_escape {s : Text} (same : (escape s).length ≤ s.length) : '\'' ∉ s := by
  induction s with
  | nil => exact List.not_mem_nil
  | cons c rest ih =>
    have grown := length_le_escape rest
    rw [escape_cons,List.length_append] at same
    split at same
    · simp at same
      omega
    · rename_i other
      simp only [List.length_cons,List.length_nil] at same
      rw [List.mem_cons,not_or]
      exact ⟨Ne.symm other,ih (by omega)⟩

theorem length_commas_add_one {ts : List Text} (some : ts ≠ []) :
    (commas ts).length+1 = (ts.map fun t => t.length+1).sum := by
  induction ts with
  | nil => exact absurd rfl some
  | cons t rest ih =>
    cases rest with
    | nil => simp [commas]
    | cons u rest =>
      have later := ih (List.cons_ne_nil u rest)
      simp only [commas,List.length_append,List.length_cons,List.map_cons,List.sum_cons] at later ⊢
      omega

/-! ## Reading a statement back -/

def expect (word text : Text) : Option Text := text.dropPrefix? word

def readName : Text → Option (Text × Text)
  | '"'::rest =>
    match rest.dropWhile (· ≠ '"') with
    | [] => none
    | quote::after => some ('"'::(rest.takeWhile (· ≠ '"') ++ [quote]),after)
  | text => if text.takeWhile nameChar = [] then none else some (text.takeWhile nameChar,text.dropWhile nameChar)

def readColumn (text : Text) : Option ((Text × Affinity) × Text) :=
  match readName text with
  | none => none
  | some (name,rest) =>
    match expect " TEXT".toList rest with
    | some after => some ((name,.text),after)
    | none => (expect " INTEGER".toList rest).map fun after => ((name,.integer),after)

/-- Up to the first quote that no other one follows. -/
def readText : Text → Option (Text × Text)
  | [] => none
  | '\'' :: '\'' :: rest => (readText rest).map fun read => ('\''::read.1,read.2)
  | '\''::rest => some ([],rest)
  | c::rest => (readText rest).map fun read => (c::read.1,read.2)

def readLiteral : Text → Option (Literal × Text)
  | '\''::rest => (readText rest).map fun read => (.text read.1,read.2)
  | text =>
    if text.takeWhile Char.isDigit = [] then none
    else some (.int (Nat.ofDigitChars 10 (text.takeWhile Char.isDigit) 0),text.dropWhile Char.isDigit)

/-- One or more, with commas between them. -/
def readMany {α : Type} (read : Text → Option (α × Text)) : Nat → Text → Option (List α × Text)
  | 0,_ => none
  | fuel+1,text =>
    match read text with
    | none => none
    | some (x,','::rest) => (readMany read fuel rest).map fun more => (x::more.1,more.2)
    | some (x,rest) => some ([x],rest)

def readCreate (text : Text) : Option Statement := do
  let (tb,text) ← readName text
  let text ← expect " (".toList text
  let (cols,text) ← readMany readColumn text.length text
  let text ← expect " );".toList text
  if text = [] then some (.create tb cols) else none

def readInsert (text : Text) : Option Statement := do
  let (tb,text) ← readName text
  let text ← expect " (".toList text
  let (items,text) ← readMany readName text.length text
  let text ← expect " )VALUES (".toList text
  let (values,text) ← readMany readLiteral text.length text
  let text ← expect " );".toList text
  if text = [] then some (.insert tb items values) else none

def readSelect (text : Text) : Option Statement := do
  let (tb,text) ← readName text
  if text = [';'] then some (.select tb) else none

def read (text : Text) : Option Statement :=
  ((expect createWord text).bind readCreate).or
    (((expect insertWord text).bind readInsert).or ((expect selectWord text).bind readSelect))

@[simp] theorem expect_append (word rest : Text) : expect word (word ++ rest) = some rest :=
  List.dropPrefix?_append_of_beq rest (beq_self_eq_true _)

theorem takeWhile_append_stop {p : Char → Bool} {front : Text} (back : Text) (all : ∀ c ∈ front, p c = true)
    (stop : ∀ c ∈ back.head?, p c = false) :
    (front ++ back).takeWhile p = front ∧ (front ++ back).dropWhile p = back := by
  rw [List.takeWhile_append_of_pos all,List.dropWhile_append_of_pos all]
  cases back with
  | nil => simp
  | cons c rest =>
    have stop : p c = false := stop c rfl
    simp [stop]

theorem readName_append {name : Text} (rest : Text) (isName : IsName name)
    (stop : ∀ c ∈ rest.head?, nameChar c = false) :
    readName (name ++ rest) = some (name,rest) := by
  rcases isName with plain | ⟨inner,free,rfl⟩
  · obtain ⟨taken,dropped⟩ := takeWhile_append_stop rest plain.2 stop
    unfold readName
    split
    · rename_i other same
      cases name with
      | nil => exact absurd rfl plain.1
      | cons c more =>
        obtain ⟨rfl,-⟩ := List.cons.inj same
        exact absurd List.mem_cons_self plain.notMem_quote
    · rw [taken,dropped,if_neg plain.1]
  · have inside : ∀ c ∈ inner, decide (c ≠ '"') = true :=
      fun c member => decide_eq_true fun same => free (same ▸ member)
    obtain ⟨taken,dropped⟩ := takeWhile_append_stop ('"'::rest) inside (by simp)
    have shape : '"'::(inner ++ ['"']) ++ rest = '"'::(inner ++ '"'::rest) := by simp
    rw [shape,readName,dropped,taken]

theorem readColumn_append {col : Text × Affinity} {rest : Text} (isName : IsName col.1) :
    readColumn (columnSql col ++ rest) = some (col,rest) := by
  obtain ⟨name,affinity⟩ := col
  cases affinity with
  | text =>
    have readIt := readName_append (" TEXT".toList ++ rest) isName (by simp; decide)
    simp only [readColumn,columnSql,List.append_assoc,readIt,expect_append]
  | integer =>
    have readIt := readName_append (" INTEGER".toList ++ rest) isName (by simp; decide)
    have other : expect " TEXT".toList (" INTEGER".toList ++ rest) = none := rfl
    simp only [readColumn,columnSql,List.append_assoc,readIt,other,expect_append,Option.map_some]

theorem readText_escape (s rest : Text) (stop : rest.head? ≠ some '\'') :
    readText (escape s ++ '\''::rest) = some (s,rest) := by
  induction s with
  | nil =>
    cases rest with
    | nil => rfl
    | cons c rest =>
      have other : c ≠ '\'' := fun same => stop (by simp [same])
      change readText ('\''::c::rest) = some ([],c::rest)
      unfold readText
      split <;> grind
  | cons c s ih =>
    rw [escape_cons,List.append_assoc]
    split
    · rename_i quote
      simp only [List.cons_append,List.nil_append,readText,ih,Option.map_some,quote]
    · rename_i other
      simp only [List.cons_append,List.nil_append]
      unfold readText
      split <;> grind

theorem readLiteral_append (value : Literal) {rest : Text} (stop : ∀ c ∈ rest.head?, c = ',' ∨ c = ' ') :
    readLiteral (value.sql ++ rest) = some (value,rest) := by
  cases value with
  | text s =>
    have free : rest.head? ≠ some '\'' := by
      intro quote
      rcases stop _ quote with same | same <;> exact absurd same (by decide)
    have shape : (Literal.text s).sql ++ rest = '\''::(escape s ++ '\''::rest) := by simp [Literal.sql]
    rw [shape,readLiteral,readText_escape s rest free]
    rfl
  | int n =>
    have digit : ∀ c ∈ digits n, c.isDigit = true :=
      fun c member => Nat.isDigit_of_mem_toDigits (by decide) (by decide) member
    have stops : ∀ c ∈ rest.head?, c.isDigit = false := by
      intro c member
      rcases stop c member with rfl | rfl <;> rfl
    obtain ⟨taken,dropped⟩ := takeWhile_append_stop rest digit stops
    unfold readLiteral
    split
    · rename_i more same
      rcases List.append_eq_cons_iff.mp same with ⟨none,-⟩ | ⟨ds,some,-⟩
      · exact absurd none Nat.toDigits_ne_nil
      · have quote : '\'' ∈ (Literal.int n).sql := some ▸ List.mem_cons_self
        exact absurd (digit _ quote) (by decide)
    · rw [Literal.sql,taken,dropped,if_neg (show digits n ≠ [] from Nat.toDigits_ne_nil),digits,
        Nat.ofDigitChars_ten_toDigits]

/-- Whatever reads each thing up to a comma or a blank reads all of them. -/
theorem readMany_append {α : Type} {write : α → Text} {read : Text → Option (α × Text)} {xs : List α} {rest : Text}
    {fuel : Nat}
    (each : ∀ x ∈ xs, ∀ rest, (∀ c ∈ rest.head?, c = ',' ∨ c = ' ') → read (write x ++ rest) = some (x,rest))
    (nonempty : xs ≠ []) (enough : xs.length ≤ fuel) :
    readMany read fuel (commas (xs.map write) ++ ' '::rest) = some (xs,' '::rest) := by
  induction xs generalizing fuel with
  | nil => exact absurd rfl nonempty
  | cons x xs ih =>
    obtain ⟨first,later⟩ := List.forall_mem_cons.mp each
    obtain _ | fuel := fuel
    · exact absurd enough (by simp)
    · cases xs with
      | nil =>
        have readIt := first (' '::rest) (by simp)
        simp only [List.map_cons,List.map_nil,commas,readMany,readIt]
        rfl
      | cons y ys =>
        have readIt := first (','::(commas ((y::ys).map write) ++ ' '::rest)) (by simp)
        have more := ih later (List.cons_ne_nil y ys) (Nat.le_of_succ_le_succ enough)
        rw [List.map_cons] at more readIt ⊢
        simp only [commas,List.map_cons,List.append_assoc,List.cons_append] at readIt more ⊢
        simp only [readMany,readIt,more,Option.map_some]

theorem length_le_commas (ts : List Text) : ts.length ≤ (commas ts).length+1 := by
  induction ts with
  | nil => exact Nat.zero_le _
  | cons t rest ih =>
    cases rest with
    | nil => simp [commas]
    | cons u rest =>
      simp only [commas,List.length_append,List.length_cons] at ih ⊢
      omega

/-- There is fuel enough in the text for the things it lists. -/
theorem readMany_commas {α : Type} (write : α → Text) (read : Text → Option (α × Text)) (xs : List α) (rest : Text)
    (each : ∀ x ∈ xs, ∀ rest, (∀ c ∈ rest.head?, c = ',' ∨ c = ' ') → read (write x ++ rest) = some (x,rest))
    (nonempty : xs ≠ []) :
    readMany read (commas (xs.map write) ++ ' '::rest).length (commas (xs.map write) ++ ' '::rest) =
      some (xs,' '::rest) := by
  apply readMany_append each nonempty
  have bound := length_le_commas (xs.map write)
  rw [List.length_map] at bound
  rw [List.length_append,List.length_cons]
  omega

theorem readCreate_append {tb : Text} {cols : List (Text × Affinity)}
    (wellFormed : (Statement.create tb cols).WellFormed) :
    readCreate (tb ++ (" (".toList ++ (commas (cols.map columnSql) ++ " );".toList))) = some (.create tb cols) := by
  obtain ⟨isName,nonempty,names⟩ := wellFormed
  have readTb := readName_append (" (".toList ++ (commas (cols.map columnSql) ++ " );".toList)) isName
    (by simp; decide)
  have readCols := readMany_commas columnSql readColumn cols ");".toList
    (fun col member rest _ => readColumn_append (names col member)) nonempty
  have close : " );".toList = ' '::");".toList := rfl
  simp only [readCreate,readTb,Option.bind_eq_bind,Option.bind_some,expect_append]
  rw [close,readCols]
  rfl

/-- There is no table without columns. -/
theorem read_create_nil {tb : Text} (isName : IsName tb) : read (Statement.create tb []).sql = none := by
  have readTb := readName_append (" (".toList ++ " );".toList) isName (by simp; decide)
  have noCols : readMany readColumn " );".toList.length " );".toList = none := rfl
  have other (rest : Text) : expect insertWord (createWord ++ rest) = none := rfl
  have third (rest : Text) : expect selectWord (createWord ++ rest) = none := rfl
  simp only [read,Statement.sql,List.map_nil,commas,List.nil_append,expect_append,Option.bind_some,other,third,
    Option.bind_none,Option.or_none,readCreate,readTb,Option.bind_eq_bind]
  rw [noCols]
  rfl

theorem stop_nameChar {rest : Text} (stop : ∀ c ∈ rest.head?, c = ',' ∨ c = ' ') :
    ∀ c ∈ rest.head?, nameChar c = false := by
  intro c member
  rcases stop c member with rfl | rfl <;> rfl

theorem readInsert_append {tb : Text} {items : List Text} {values : List Literal}
    (wellFormed : (Statement.insert tb items values).WellFormed) :
    readInsert (tb ++ (" (".toList ++ (commas items ++ (" )VALUES (".toList ++
      (commas (values.map Literal.sql) ++ " );".toList))))) = some (.insert tb items values) := by
  obtain ⟨isName,⟨itemsSome,names⟩,valuesSome⟩ := wellFormed
  have readTb := readName_append (" (".toList ++ (commas items ++ (" )VALUES (".toList ++
    (commas (values.map Literal.sql) ++ " );".toList)))) isName (by simp; decide)
  have readItems := readMany_commas id readName items
    (")VALUES (".toList ++ (commas (values.map Literal.sql) ++ ' '::");".toList))
    (fun item member rest stop => readName_append rest (names item member) (stop_nameChar stop)) itemsSome
  have readValues := readMany_commas Literal.sql readLiteral values ");".toList
    (fun value _ rest stop => readLiteral_append value stop) valuesSome
  have open' (rest : Text) : " )VALUES (".toList ++ rest = ' '::(")VALUES (".toList ++ rest) := rfl
  have close : " );".toList = ' '::");".toList := rfl
  have expectOpen (rest : Text) : expect " )VALUES (".toList (' '::(")VALUES (".toList ++ rest)) = some rest :=
    expect_append " )VALUES (".toList rest
  rw [List.map_id] at readItems
  simp only [readInsert,readTb,Option.bind_eq_bind,Option.bind_some,expect_append]
  rw [close,open',readItems]
  simp only [Option.bind_some,expectOpen,readValues]
  rfl

theorem readSelect_append {tb : Text} (isName : IsName tb) :
    readSelect (tb ++ ";".toList) = some (.select tb) := by
  have readTb := readName_append ";".toList isName (by simp; decide)
  simp only [readSelect,readTb,Option.bind_eq_bind,Option.bind_some]
  rfl

theorem read_sql {s : Statement} (wellFormed : s.WellFormed) : read s.sql = some s := by
  cases s with
  | create tb cols =>
    simp only [read,Statement.sql,expect_append,Option.bind_some]
    rw [readCreate_append wellFormed]
    rfl
  | insert tb items values =>
    have other (rest : Text) : expect createWord (insertWord ++ rest) = none := rfl
    simp only [read,Statement.sql,expect_append,Option.bind_some,other,Option.bind_none,Option.none_or]
    rw [readInsert_append wellFormed]
    rfl
  | select tb =>
    have other (rest : Text) : expect createWord (selectWord ++ rest) = none := rfl
    have third (rest : Text) : expect insertWord (selectWord ++ rest) = none := rfl
    simp only [read,Statement.sql,expect_append,Option.bind_some,other,third,Option.bind_none,Option.none_or]
    exact readSelect_append wellFormed

/-! ## Engines -/

/-- A literal as it is kept: an integer that is too large for a signed word is kept as a real. -/
inductive Stored
  | int (n : Nat)
  | real (n : Nat)
  | text (s : Text)
  deriving DecidableEq

def Literal.stored : Literal → Stored
  | int n => if n < 2^63 then .int n else .real n
  | text s => .text s

def Stored.shown (realText : Nat → Text) : Stored → Text
  | int n => digits n
  | real n => realText n
  | text s => s

theorem shown_of_lt (realText : Nat → Text) {n : Nat} (small : n < 2^63) :
    (Literal.int n).stored.shown realText = digits n := by
  rw [Literal.stored,if_pos small]
  rfl

theorem shown_of_not_lt (realText : Nat → Text) {n : Nat} (large : ¬n < 2^63) :
    (Literal.int n).stored.shown realText = realText n := by
  rw [Literal.stored,if_neg large]
  rfl

structure Table where
  cols : List (Text × Affinity)
  rows : List (List Stored)

/-- The rows, with the names of their columns. -/
def Table.answer (realText : Nat → Text) (t : Table) : List (List (Text × Text)) :=
  t.rows.map fun row => (t.cols.map fun col => colName col.1).zip (row.map (Stored.shown realText))

/-- What a database library offers: statements, queries that give each row as names and values, and
the text of a real. `table` says what is kept. -/
structure Engine where
  Db : Type
  blank : Db
  exec : Text → Db → Option Db
  query : Text → Db → Option (List (List (Text × Text)))
  realText : Nat → Text
  table : Db → Text → Option Table

def realChar (c : Char) : Bool := c.isDigit || c = '.' || c = 'e' || c = '+' || c = '-'

/-- The engine keeps and gives back what the text of its statements denotes. A real is given with a
point, a table has a column, and no two columns of a table have one name. -/
structure Engine.Lawful (e : Engine) : Prop where
  real : ∀ n < 2^64, '.' ∈ e.realText n ∧ ∀ c ∈ e.realText n, realChar c = true
  nonempty : ∀ tb, IsName tb → e.exec (Statement.create tb []).sql e.blank = none
  create : ∀ {tb cols db}, (Statement.create tb cols).WellFormed →
    e.exec (Statement.create tb cols).sql e.blank = some db →
    (cols.map fun col => colName col.1).Nodup ∧ e.table db tb = some ⟨cols,[]⟩
  insert : ∀ {db tb t values}, e.table db tb = some t →
    (Statement.insert tb (t.cols.map Prod.fst) values).WellFormed → values.map Literal.affinity = t.cols.map Prod.snd →
    ∃ db', e.exec (Statement.insert tb (t.cols.map Prod.fst) values).sql db = some db' ∧
      e.table db' tb = some {t with rows := t.rows ++ [values.map Literal.stored]}
  select : ∀ {db tb t}, e.table db tb = some t → (Statement.select tb).WellFormed →
    e.query (Statement.select tb).sql db = some (t.answer e.realText)

abbrev Tables := Text → Option Table

def Tables.put (db : Tables) (tb : Text) (t : Table) : Tables := Function.update db tb (some t)

@[simp] theorem Tables.put_self (db : Tables) (tb : Text) (t : Table) : db.put tb t tb = some t :=
  Function.update_self ..

def Statement.run (db : Tables) : Statement → Option Tables
  | .create tb cols =>
    if (cols.map fun col => colName col.1).Nodup ∧ (db tb).isNone then some (db.put tb ⟨cols,[]⟩) else none
  | .insert tb items values =>
    match db tb with
    | none => none
    | some t =>
      if items = t.cols.map Prod.fst ∧ values.map Literal.affinity = t.cols.map Prod.snd then
        some (db.put tb {t with rows := t.rows ++ [values.map Literal.stored]})
      else none
  | .select _ => some db

def realText (n : Nat) : Text := digits n ++ ".0".toList

/-- The engine that runs the statements read from the text and refuses any other text. -/
def reader : Engine where
  Db := Tables
  blank := fun _ => none
  exec text db :=
    match read text with
    | none => none
    | some s => if s.sql = text then s.run db else none
  query text db :=
    match read text with
    | some (.select tb) => (db tb).map (Table.answer realText)
    | _ => none
  realText := realText
  table db := db

theorem realText_chars (n : Nat) : '.' ∈ realText n ∧ ∀ c ∈ realText n, realChar c = true := by
  refine ⟨List.mem_append_right _ (by decide),?_⟩
  intro c member
  rcases List.mem_append.mp member with digit | last
  · have digit : c.isDigit = true := Nat.isDigit_of_mem_toDigits (by decide) (by decide) digit
    simp [realChar,digit]
  · have last : c = '.' ∨ c = '0' := by simpa using last
    rcases last with rfl | rfl <;> rfl

theorem reader_exec {s : Statement} (wellFormed : s.WellFormed) (db : Tables) : reader.exec s.sql db = s.run db := by
  simp only [reader,read_sql wellFormed,↓reduceIte]

theorem reader_lawful : reader.Lawful where
  real n _ := realText_chars n
  nonempty tb isName := by
    simp only [reader,read_create_nil isName]
  create := by
    intro tb cols db wellFormed done
    have ran := (reader_exec wellFormed reader.blank).symm.trans done
    simp only [Statement.run] at ran
    split at ran
    · rename_i distinct
      obtain rfl := Option.some.inj ran
      exact ⟨distinct.1,Tables.put_self ..⟩
    · exact absurd ran (by simp)
  insert := by
    intro db tb t values found wellFormed fits
    change Tables at db
    have found : db tb = some t := found
    have ran : (Statement.insert tb (t.cols.map Prod.fst) values).run db =
        some (db.put tb {t with rows := t.rows ++ [values.map Literal.stored]}) := by
      simp only [Statement.run,found,fits,and_self,↓reduceIte]
    exact ⟨_,(reader_exec wellFormed db).trans ran,Tables.put_self db tb _⟩
  select := by
    intro db tb t found wellFormed
    have found : (db : Tables) tb = some t := found
    simp only [reader,read_sql wellFormed,found,Option.map_some]

end Smtdv.Lib.Sql
