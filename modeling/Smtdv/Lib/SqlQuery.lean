import Smtdv.Lib.Sql
import Smtdv.Lib.Ranking

/-! Queries for the rows of a table that meet comparisons of columns with numbers, the greatest first, with
their text; and engines with several tables, in which a statement about one leaves the others as they are. -/
namespace Smtdv.Lib.Sql

/-! ## Queries -/

/-- A number as it is printed, with blanks in front. -/
structure Numeral where
  pad : Nat
  n : Nat
  deriving DecidableEq

def Numeral.sql (z : Numeral) : Text := List.replicate z.pad ' ' ++ digits z.n

inductive Comparison | eq | ge | lt
  deriving DecidableEq

def Comparison.sql : Comparison → Text
  | eq => "=".toList
  | ge => ">=".toList
  | lt => "<".toList

def Comparison.holds : Comparison → Nat → Nat → Bool
  | eq,m,n => m = n
  | ge,m,n => n ≤ m
  | lt,m,n => m < n

structure Cond where
  col : Text
  op : Comparison
  num : Numeral
  deriving DecidableEq

def Cond.sql (c : Cond) : Text := c.col ++ (c.op.sql ++ c.num.sql)

def andWord : Text := " AND ".toList

def ands : List Text → Text
  | [] => []
  | [t] => t
  | t::ts => t ++ (andWord ++ ands ts)

structure Query where
  tb : Text
  conds : List Cond
  order : Text
  limit : Numeral
  deriving DecidableEq

def fromWord : Text := "SELECT * FROM ".toList

def whereWord : Text := " WHERE ".toList

def orderWord : Text := " ORDER BY ".toList

def limitWord : Text := " DESC limit ".toList

namespace Query

def sql (q : Query) : Text :=
  fromWord ++ (q.tb ++ (whereWord ++ (ands (q.conds.map Cond.sql) ++ (orderWord ++
    (q.order ++ (limitWord ++ (q.limit.sql ++ ";".toList)))))))

/-- The columns that the query looks at. -/
def columns (q : Query) : List Text := q.conds.map Cond.col ++ [q.order]

structure WellFormed (q : Query) : Prop where
  tb : IsName q.tb
  conds : q.conds ≠ []
  columns : ∀ c ∈ q.columns, IsName c

end Query

/-! ## Answers -/

def Stored.int? : Stored → Option Nat
  | .int n => some n
  | _ => none

namespace Table

/-- The integer in a column of a row. -/
def number (t : Table) (row : List Stored) (name : Text) : Option Nat :=
  (((t.cols.map fun col => colName col.1).zip row).lookup (colName name)).bind Stored.int?

def meets (t : Table) (row : List Stored) (c : Cond) : Bool :=
  ((t.number row c.col).map fun m => c.op.holds m c.num.n).getD false

/-- The rows that meet all the comparisons. -/
def matching (t : Table) (q : Query) : List (List Stored) := t.rows.filter fun row => q.conds.all (t.meets row)

/-- The greater value of the column comes first. -/
def Precedes (t : Table) (q : Query) (a b : List Stored) : Prop :=
  (t.number b q.order).getD 0 ≤ (t.number a q.order).getD 0

instance (t : Table) (q : Query) : DecidableRel (t.Precedes q) := fun _ _ => inferInstanceAs (Decidable (_ ≤ _))

/-- The columns that the query looks at are there and have integers. -/
def Numeric (t : Table) (q : Query) : Prop := ∀ row ∈ t.rows, ∀ c ∈ q.columns, (t.number row c).isSome = true

end Table

/-! ## Engines with several tables -/

def lowered (name : Text) : Text := (colName name).map Char.toLower

/-- Names of different tables: the case of a letter does not matter. -/
def Apart (tb other : Text) : Prop := lowered tb ≠ lowered other

/-- The engine keeps the tables apart, and answers a query with rows that match, in an order that the query
allows. What is reserved cannot be the name of a table or a column. -/
structure Engine.Relational (e : Engine) (reserved : Text → Prop) : Prop where
  blank : ∀ tb, e.table e.blank tb = none
  create : ∀ {db tb cols}, (Statement.create tb cols).WellFormed → e.table db tb = none →
    (cols.map fun col => lowered col.1).Nodup → ¬reserved tb → (∀ col ∈ cols, ¬reserved col.1) →
    ∃ db', e.exec (Statement.create tb cols).sql db = some db' ∧ e.table db' tb = some ⟨cols,[]⟩ ∧
      ∀ other, Apart tb other → e.table db' other = e.table db other
  insert : ∀ {db tb t values}, e.table db tb = some t →
    (Statement.insert tb (t.cols.map Prod.fst) values).WellFormed → values.map Literal.affinity = t.cols.map Prod.snd →
    ∃ db', e.exec (Statement.insert tb (t.cols.map Prod.fst) values).sql db = some db' ∧
      e.table db' tb = some {t with rows := t.rows ++ [values.map Literal.stored]} ∧
      ∀ other, Apart tb other → e.table db' other = e.table db other
  query : ∀ {db t} {q : Query}, e.table db q.tb = some t → q.WellFormed → t.Numeric q →
    (∀ c ∈ q.conds, c.num.n < 2^63) → q.limit.n < 2^63 →
    ∃ rows : List (List Stored), rows.Perm (t.matching q) ∧ rows.Pairwise (t.Precedes q) ∧
      e.query q.sql db = some (({t with rows := rows.take q.limit.n} : Table).answer e.realText)

/-- Rows of one value come in the order in which they were put. -/
def Engine.Stable (e : Engine) : Prop :=
  ∀ {db t} {q : Query}, e.table db q.tb = some t → q.WellFormed → t.Numeric q →
    (∀ c ∈ q.conds, c.num.n < 2^63) → q.limit.n < 2^63 →
    e.query q.sql db =
      some (({t with rows := ((t.matching q).insertionSort (t.Precedes q)).take q.limit.n} : Table).answer e.realText)

/-! ## Reading a query back -/

def readNumeral (text : Text) : Option (Numeral × Text) :=
  let rest := text.dropWhile (· = ' ')
  if rest.takeWhile Char.isDigit = [] then none
  else some (⟨(text.takeWhile (· = ' ')).length,Nat.ofDigitChars 10 (rest.takeWhile Char.isDigit) 0⟩,
    rest.dropWhile Char.isDigit)

def readComparison (text : Text) : Option (Comparison × Text) :=
  ((expect Comparison.ge.sql text).map fun rest => (.ge,rest)).or
    (((expect Comparison.lt.sql text).map fun rest => (.lt,rest)).or
      ((expect Comparison.eq.sql text).map fun rest => (.eq,rest)))

def readCond (text : Text) : Option (Cond × Text) := do
  let (col,text) ← readName text
  let (op,text) ← readComparison text
  let (num,text) ← readNumeral text
  some (⟨col,op,num⟩,text)

def readConds : Nat → Text → Option (List Cond × Text)
  | 0,_ => none
  | fuel+1,text =>
    match readCond text with
    | none => none
    | some (c,rest) =>
      match expect andWord rest with
      | none => some ([c],rest)
      | some after => (readConds fuel after).map fun more => (c::more.1,more.2)

def readQuery (text : Text) : Option Query := do
  let text ← expect fromWord text
  let (tb,text) ← readName text
  let text ← expect whereWord text
  let (conds,text) ← readConds text.length text
  let text ← expect orderWord text
  let (order,text) ← readName text
  let text ← expect limitWord text
  let (limit,text) ← readNumeral text
  if text = ";".toList then some ⟨tb,conds,order,limit⟩ else none

theorem isDigit_of_mem_digits {n : Nat} {c : Char} (member : c ∈ digits n) : c.isDigit = true :=
  Nat.isDigit_of_mem_toDigits (by decide) (by decide) member

theorem readNumeral_append (z : Numeral) {rest : Text} (stop : ∀ c ∈ rest.head?, c.isDigit = false) :
    readNumeral (z.sql ++ rest) = some (z,rest) := by
  have blank : ∀ c ∈ List.replicate z.pad ' ', decide (c = ' ') = true :=
    fun c member => decide_eq_true (List.eq_of_mem_replicate member)
  have digit : ∀ c ∈ digits z.n, c.isDigit = true := fun c => isDigit_of_mem_digits
  have first : ∀ c ∈ (digits z.n ++ rest).head?, decide (c = ' ') = false := by
    intro c member
    have here : c.isDigit = true := by
      rw [List.head?_append_of_ne_nil (digits z.n) (show digits z.n ≠ [] from Nat.toDigits_ne_nil)] at member
      exact isDigit_of_mem_digits (List.mem_of_head? member)
    refine decide_eq_false fun same => ?_
    rw [same] at here
    exact absurd here (by decide)
  obtain ⟨blanks,later⟩ := takeWhile_append_stop (digits z.n ++ rest) blank first
  obtain ⟨taken,dropped⟩ := takeWhile_append_stop rest digit stop
  rw [readNumeral,Numeral.sql,List.append_assoc,later,blanks,taken,dropped,
    if_neg (show digits z.n ≠ [] from Nat.toDigits_ne_nil),List.length_replicate,digits,Nat.ofDigitChars_ten_toDigits]

theorem readComparison_append (op : Comparison) (rest : Text) : readComparison (op.sql ++ rest) = some (op,rest) := by
  cases op with
  | ge => simp only [readComparison,expect_append,Option.map_some,Option.some_or]
  | lt =>
    have ge : expect Comparison.ge.sql (Comparison.lt.sql ++ rest) = none := rfl
    simp only [readComparison,ge,expect_append,Option.map_none,Option.map_some,Option.some_or,Option.none_or]
  | eq =>
    have ge : expect Comparison.ge.sql (Comparison.eq.sql ++ rest) = none := rfl
    have lt : expect Comparison.lt.sql (Comparison.eq.sql ++ rest) = none := rfl
    simp only [readComparison,ge,lt,expect_append,Option.map_none,Option.map_some,Option.none_or]

theorem readCond_append {c : Cond} (isName : IsName c.col) {rest : Text} (stop : ∀ d ∈ rest.head?, d.isDigit = false) :
    readCond (c.sql ++ rest) = some (c,rest) := by
  have readCol := readName_append (c.op.sql ++ (c.num.sql ++ rest)) isName (by cases c.op <;> simp [Comparison.sql] <;> decide)
  have readNum := readNumeral_append c.num stop
  simp only [readCond,Cond.sql,List.append_assoc,readCol,Option.bind_eq_bind,Option.bind_some,readComparison_append,readNum]

theorem readConds_append {cs : List Cond} (isName : ∀ c ∈ cs, IsName c.col) (nonempty : cs ≠ []) {fuel : Nat}
    (enough : cs.length ≤ fuel) (rest : Text) :
    readConds fuel (ands (cs.map Cond.sql) ++ (orderWord ++ rest)) = some (cs,orderWord ++ rest) := by
  induction cs generalizing fuel with
  | nil => exact absurd rfl nonempty
  | cons c cs ih =>
    obtain ⟨first,later⟩ := List.forall_mem_cons.mp isName
    obtain _ | fuel := fuel
    · exact absurd enough (by simp)
    · cases cs with
      | nil =>
        have readIt : readCond (c.sql ++ (orderWord ++ rest)) = some (c,orderWord ++ rest) :=
          readCond_append first fun c member => by cases member; rfl
        have other : expect andWord (orderWord ++ rest) = none := rfl
        simp only [List.map_cons,List.map_nil,ands,readConds,readIt,other]
      | cons d ds =>
        have readIt : readCond (c.sql ++ (andWord ++ (ands ((d::ds).map Cond.sql) ++ (orderWord ++ rest)))) =
            some (c,andWord ++ (ands ((d::ds).map Cond.sql) ++ (orderWord ++ rest))) :=
          readCond_append first fun c member => by cases member; rfl
        have more := ih later (List.cons_ne_nil d ds) (Nat.le_of_succ_le_succ enough)
        rw [List.map_cons] at more readIt ⊢
        simp only [ands,List.map_cons,List.append_assoc] at readIt more ⊢
        simp only [readConds,readIt,more,expect_append,Option.map_some]

theorem length_le_ands (ts : List Text) : ts.length ≤ (ands ts).length+1 := by
  induction ts with
  | nil => exact Nat.zero_le _
  | cons t rest ih =>
    cases rest with
    | nil => simp [ands]
    | cons u rest =>
      have word : andWord.length = 5 := rfl
      simp only [ands,List.length_append,List.length_cons,word] at ih ⊢
      omega

theorem readQuery_sql {q : Query} (wellFormed : q.WellFormed) : readQuery q.sql = some q := by
  have names (c : Cond) (inside : c ∈ q.conds) : IsName c.col :=
    wellFormed.columns _ (List.mem_append_left _ (List.mem_map_of_mem inside))
  have order : IsName q.order := wellFormed.columns _ (List.mem_append_right _ (List.mem_singleton_self _))
  have readLimit : readNumeral (q.limit.sql ++ ";".toList) = some (q.limit,";".toList) :=
    readNumeral_append q.limit fun c member => by cases member; rfl
  have readOrder := readName_append (limitWord ++ (q.limit.sql ++ ";".toList)) order (fun c member => by cases member; rfl)
  generalize last_eq : q.limit.sql ++ ";".toList = last at readLimit readOrder
  have bound := length_le_ands (q.conds.map Cond.sql)
  rw [List.length_map] at bound
  have enough : q.conds.length ≤ (ands (q.conds.map Cond.sql) ++ (orderWord ++ (q.order ++ (limitWord ++ last)))).length := by
    have word : orderWord.length = 10 := rfl
    rw [List.length_append,List.length_append,word]
    omega
  have readWhere := readConds_append names wellFormed.conds enough (q.order ++ (limitWord ++ last))
  have readTb := readName_append (whereWord ++ (ands (q.conds.map Cond.sql) ++ (orderWord ++
    (q.order ++ (limitWord ++ last))))) wellFormed.tb (fun c member => by cases member; rfl)
  have shape : q.sql = fromWord ++ (q.tb ++ (whereWord ++ (ands (q.conds.map Cond.sql) ++ (orderWord ++
    (q.order ++ (limitWord ++ last)))))) := by rw [Query.sql,last_eq]
  simp only [readQuery,shape,expect_append,Option.bind_eq_bind,Option.bind_some,readTb,readWhere,readOrder,readLimit,
    if_true]

/-- The reader of statements, with queries. -/
def queryReader : Engine :=
  {reader with
    query := fun text (db : Tables) =>
      match readQuery text with
      | some q => (db q.tb).map fun t =>
        ({t with rows := ((t.matching q).insertionSort (t.Precedes q)).take q.limit.n} : Table).answer realText
      | none => reader.query text db}

theorem Apart.ne {tb other : Text} (apart : Apart tb other) : other ≠ tb := by
  rintro rfl
  exact apart rfl

theorem queryReader_stable : queryReader.Stable := by
  intro db t q found wellFormed _ _ _
  change (match readQuery q.sql with
    | some q => ((db : Tables) q.tb).map fun (t : Table) =>
      ({t with rows := ((t.matching q).insertionSort (t.Precedes q)).take q.limit.n} : Table).answer realText
    | none => reader.query q.sql db) = _
  have found : (db : Tables) q.tb = some t := found
  rw [readQuery_sql wellFormed]
  simp only [found,Option.map_some]
  rfl

theorem queryReader_relational (reserved : Text → Prop) : queryReader.Relational reserved where
  blank tb := rfl
  create := by
    intro db tb cols wellFormed absent distinct _ _
    have absent : (db : Tables) tb = none := absent
    have columns : (cols.map fun col => colName col.1).Nodup := by
      refine List.Nodup.of_map (fun name => name.map Char.toLower) ?_
      rw [List.map_map]
      exact distinct
    have ran : (Statement.create tb cols).run db = some (Tables.put db tb ⟨cols,[]⟩) := by
      simp only [Statement.run,columns,absent,Option.isNone_none,and_self,if_true]
    exact ⟨_,(reader_exec wellFormed db).trans ran,Tables.put_self ..,fun other apart => Function.update_of_ne apart.ne ..⟩
  insert := by
    intro db tb t values found wellFormed fits
    have found : (db : Tables) tb = some t := found
    have ran : (Statement.insert tb (t.cols.map Prod.fst) values).run db =
        some (Tables.put db tb {t with rows := t.rows ++ [values.map Literal.stored]}) := by
      simp only [Statement.run,found,fits,and_self,↓reduceIte]
    exact ⟨_,(reader_exec wellFormed db).trans ran,Tables.put_self ..,fun other apart => Function.update_of_ne apart.ne ..⟩
  query := by
    intro db t q found wellFormed numeric small limit
    have ordered : ((t.matching q).insertionSort (t.Precedes q)).Pairwise (t.Precedes q) := by
      have total (a b : List Stored) : t.Precedes q a b ∨ t.Precedes q b a := Nat.le_total _ _
      have trans (a b c : List Stored) (first : t.Precedes q a b) (second : t.Precedes q b c) : t.Precedes q a c :=
        Nat.le_trans second first
      exact (pairwise_insertionSort_stable total trans (List.pairwise_of_forall fun _ _ => trivial)).imp And.left
    exact ⟨_,List.perm_insertionSort _ _,ordered,queryReader_stable found wellFormed numeric small limit⟩

end Smtdv.Lib.Sql
