import Mathlib.Data.List.Forall2
import Smtdv.Lib.Hexadecimal

/-! The rules of `dpi_smtdv_parser.l` and `dpi_smtdv_parser.y`: the tokens, and a derivation
of each non-terminal with the tokens it derives. -/
namespace Smtdv.Stl

/-- The words that are tokens of their own. -/
inductive Keyword
  | beginCycle | endCycle | beginTime | endTime | id | bstType | trxSize | trxPrt | lock | resp | rw
  | addr | data | byten
  deriving DecidableEq

def Keyword.text : Keyword → String
  | beginCycle => "begin_cycle"
  | endCycle => "end_cycle"
  | beginTime => "begin_time"
  | endTime => "end_time"
  | id => "id"
  | bstType => "bst_type"
  | trxSize => "trx_size"
  | trxPrt => "trx_prt"
  | lock => "lock"
  | resp => "resp"
  | rw => "r/w"
  | addr => "addr"
  | data => "data"
  | byten => "byten"

def Keyword.all : List Keyword :=
  [beginCycle,endCycle,beginTime,endTime,id,bstType,trxSize,trxPrt,lock,resp,rw,addr,data,byten]

/-- `[a-f0-9]`. -/
def isTChar (c : Char) : Bool := ('a' ≤ c ∧ c ≤ 'f') ∨ ('0' ≤ c ∧ c ≤ '9')

/-- `[a-zA-Z0-9\._]`. -/
def isSChar (c : Char) : Bool :=
  ('a' ≤ c ∧ c ≤ 'z') ∨ ('A' ≤ c ∧ c ≤ 'Z') ∨ ('0' ≤ c ∧ c ≤ '9') ∨ c = '.' ∨ c = '_'

structure TIdentifier where
  text : List Char
  nonempty : text ≠ []
  chars : text.all isTChar
  deriving DecidableEq

/-- A word that no earlier rule matches. -/
structure SIdentifier where
  text : List Char
  nonempty : text ≠ []
  chars : text.all isSChar
  notHex : text.all isTChar = false
  notKeyword : ∀ word ∈ Keyword.all, text ≠ word.text.toList
  deriving DecidableEq

/-- The number that the digits of a column write. -/
def TIdentifier.value (word : TIdentifier) : Nat := Lib.readHex word.text 0

inductive Token
  | ret | comment | tlparen | trparen | tcomma
  | keyword (word : Keyword)
  | tidentifier (word : TIdentifier)
  | sidentifier (word : SIdentifier)
  deriving DecidableEq

open Token

inductive DataHasByten
  | single (data byten : TIdentifier)
  | more (front : DataHasByten) (data byten : TIdentifier)

inductive DataNoByten
  | single (data : TIdentifier)
  | more (front : DataNoByten) (data : TIdentifier)

structure BodyXbus where
  beginCycle : TIdentifier
  endCycle : TIdentifier
  beginTime : TIdentifier
  endTime : TIdentifier
  rw : SIdentifier
  addr : TIdentifier
  data : DataHasByten

structure BodyApb where
  beginCycle : TIdentifier
  endCycle : TIdentifier
  beginTime : TIdentifier
  endTime : TIdentifier
  id : TIdentifier
  rw : SIdentifier
  resp : SIdentifier
  addr : TIdentifier
  data : DataNoByten

structure BodyAhb where
  beginCycle : TIdentifier
  endCycle : TIdentifier
  beginTime : TIdentifier
  endTime : TIdentifier
  id : TIdentifier
  rw : SIdentifier
  bstType : SIdentifier
  trxSize : SIdentifier
  trxPrt : SIdentifier
  lock : TIdentifier
  resp : SIdentifier
  addr : TIdentifier
  data : DataNoByten

inductive SubBodyStmt
  | ahb (body : BodyAhb)
  | apb (body : BodyApb)
  | xbus (body : BodyXbus)

inductive HeaderStmt
  | ahb | apb | xbus
  deriving DecidableEq

/-- What `top_stmt` adds to the statements before it. -/
inductive Stmt
  | header (stmt : HeaderStmt)
  | body (stmt : SubBodyStmt)
  | blank

/-- `program`: the name of `instance_stmt`, and the statements after it. -/
structure Program where
  instName : SIdentifier
  stmts : List Stmt

def DataHasByten.tokens : DataHasByten → List Token
  | single data byten => [tidentifier data,tlparen,tidentifier byten,trparen,tcomma]
  | more front data byten =>
    front.tokens ++ [tidentifier data,tlparen,tidentifier byten,trparen,tcomma]

def DataNoByten.tokens : DataNoByten → List Token
  | single data => [tidentifier data,tcomma]
  | more front data => front.tokens ++ [tidentifier data,tcomma]

def BodyXbus.tokens (body : BodyXbus) : List Token :=
  [tidentifier body.beginCycle,tcomma,tidentifier body.endCycle,tcomma,
    tidentifier body.beginTime,tcomma,tidentifier body.endTime,tcomma,
    sidentifier body.rw,tcomma,tidentifier body.addr,tcomma] ++ body.data.tokens

def BodyApb.tokens (body : BodyApb) : List Token :=
  [tidentifier body.beginCycle,tcomma,tidentifier body.endCycle,tcomma,
    tidentifier body.beginTime,tcomma,tidentifier body.endTime,tcomma,
    tidentifier body.id,tcomma,sidentifier body.rw,tcomma,sidentifier body.resp,tcomma,
    tidentifier body.addr,tcomma] ++ body.data.tokens

def BodyAhb.tokens (body : BodyAhb) : List Token :=
  [tidentifier body.beginCycle,tcomma,tidentifier body.endCycle,tcomma,
    tidentifier body.beginTime,tcomma,tidentifier body.endTime,tcomma,
    tidentifier body.id,tcomma,sidentifier body.rw,tcomma,sidentifier body.bstType,tcomma,
    sidentifier body.trxSize,tcomma,sidentifier body.trxPrt,tcomma,tidentifier body.lock,tcomma,
    sidentifier body.resp,tcomma,tidentifier body.addr,tcomma] ++ body.data.tokens

def SubBodyStmt.tokens : SubBodyStmt → List Token
  | ahb body => body.tokens
  | apb body => body.tokens
  | xbus body => body.tokens

def HeaderStmt.tokens : HeaderStmt → List Token
  | xbus => comment::(([.beginCycle,.endCycle,.beginTime,.endTime,.rw,.addr].flatMap fun word =>
      [keyword word,tcomma]) ++ [keyword .data,tlparen,keyword .byten,trparen,tcomma])
  | apb => comment::[.beginCycle,.endCycle,.beginTime,.endTime,.id,.rw,.resp,.addr,.data].flatMap
      fun word => [keyword word,tcomma]
  | ahb => comment::[.beginCycle,.endCycle,.beginTime,.endTime,.id,.rw,.bstType,.trxSize,.trxPrt,
      .lock,.resp,.addr,.data].flatMap fun word => [keyword word,tcomma]

def Stmt.tokens : Stmt → List Token
  | header stmt => stmt.tokens
  | body stmt => stmt.tokens
  | blank => []

def Program.tokens (program : Program) : List Token :=
  [comment,sidentifier program.instName,ret] ++ program.stmts.flatMap fun stmt => stmt.tokens ++ [ret]

/-- The body lines of a file, in order. -/
def Program.bodies (program : Program) : List SubBodyStmt :=
  program.stmts.filterMap fun stmt =>
    match stmt with
    | .body stmt => some stmt
    | _ => none

/-- The data columns, with their byte enables. -/
def DataHasByten.columns : DataHasByten → List (TIdentifier × TIdentifier)
  | single data byten => [(data,byten)]
  | more front data byten => front.columns ++ [(data,byten)]

def DataNoByten.columns : DataNoByten → List TIdentifier
  | single data => [data]
  | more front data => front.columns ++ [data]

theorem DataHasByten.tokens_pos (data : DataHasByten) : 0 < data.tokens.length := by
  cases data <;> simp [tokens]

theorem DataNoByten.tokens_pos (data : DataNoByten) : 0 < data.tokens.length := by
  cases data <;> simp [tokens]

theorem DataHasByten.tokens_injective : Function.Injective DataHasByten.tokens := by
  intro left right same
  have size := congrArg List.length same
  induction left generalizing right with
  | single data byten =>
    cases right with
    | single => simpa [tokens] using same
    | more front =>
      have longer := front.tokens_pos
      simp only [tokens,List.length_append,List.length_cons,List.length_nil] at size
      omega
  | more front data byten ih =>
    cases right with
    | single =>
      have longer := front.tokens_pos
      simp only [tokens,List.length_append,List.length_cons,List.length_nil] at size
      omega
    | more =>
      obtain ⟨fronts,lasts⟩ := List.append_inj' same rfl
      rw [ih fronts (congrArg List.length fronts)]
      simpa using lasts

theorem DataNoByten.tokens_injective : Function.Injective DataNoByten.tokens := by
  intro left right same
  have size := congrArg List.length same
  induction left generalizing right with
  | single data =>
    cases right with
    | single => simpa [tokens] using same
    | more front =>
      have longer := front.tokens_pos
      simp only [tokens,List.length_append,List.length_cons,List.length_nil] at size
      omega
  | more front data ih =>
    cases right with
    | single =>
      have longer := front.tokens_pos
      simp only [tokens,List.length_append,List.length_cons,List.length_nil] at size
      omega
    | more =>
      obtain ⟨fronts,lasts⟩ := List.append_inj' same rfl
      rw [ih fronts (congrArg List.length fronts)]
      simpa using lasts

/-- The kinds of line are told apart by the words among their first columns. -/
theorem SubBodyStmt.tokens_injective : Function.Injective SubBodyStmt.tokens := by
  intro left right same
  cases left <;> cases right
  all_goals
    simp only [tokens,BodyAhb.tokens,BodyApb.tokens,BodyXbus.tokens,List.cons_append,List.nil_append,
      List.cons.injEq,tidentifier.injEq,sidentifier.injEq,reduceCtorEq,true_and,false_and,
      and_false] at same
  case ahb.ahb left right =>
    obtain ⟨beginCycle,endCycle,beginTime,endTime,id,rw,bstType,trxSize,trxPrt,lock,resp,addr,data⟩ := same
    have data := DataNoByten.tokens_injective data
    cases left
    cases right
    subst beginCycle endCycle beginTime endTime id rw bstType trxSize trxPrt lock resp addr data
    rfl
  case apb.apb left right =>
    obtain ⟨beginCycle,endCycle,beginTime,endTime,id,rw,resp,addr,data⟩ := same
    have data := DataNoByten.tokens_injective data
    cases left
    cases right
    subst beginCycle endCycle beginTime endTime id rw resp addr data
    rfl
  case xbus.xbus left right =>
    obtain ⟨beginCycle,endCycle,beginTime,endTime,rw,addr,data⟩ := same
    have data := DataHasByten.tokens_injective data
    cases left
    cases right
    subst beginCycle endCycle beginTime endTime rw addr data
    rfl

theorem Stmt.tokens_injective : Function.Injective Stmt.tokens := by
  intro left right same
  cases left with
  | header left =>
    cases right with
    | header right =>
      cases left <;> cases right <;> first | rfl | simp [tokens,HeaderStmt.tokens] at same
    | body right =>
      cases left <;> cases right <;>
        simp [tokens,HeaderStmt.tokens,SubBodyStmt.tokens,BodyAhb.tokens,BodyApb.tokens,
          BodyXbus.tokens] at same
    | blank => cases left <;> simp [tokens,HeaderStmt.tokens] at same
  | body left =>
    cases right with
    | header right =>
      cases left <;> cases right <;>
        simp [tokens,HeaderStmt.tokens,SubBodyStmt.tokens,BodyAhb.tokens,BodyApb.tokens,
          BodyXbus.tokens] at same
    | body right => rw [SubBodyStmt.tokens_injective same]
    | blank =>
      cases left <;>
        simp [tokens,SubBodyStmt.tokens,BodyAhb.tokens,BodyApb.tokens,BodyXbus.tokens] at same
  | blank =>
    cases right with
    | header right => cases right <;> simp [tokens,HeaderStmt.tokens] at same
    | body right =>
      cases right <;>
        simp [tokens,SubBodyStmt.tokens,BodyAhb.tokens,BodyApb.tokens,BodyXbus.tokens] at same
    | blank => rfl

theorem DataHasByten.ret_notMem (data : DataHasByten) : ret ∉ data.tokens := by
  induction data with
  | single => simp [tokens]
  | more front data byten ih => simp [tokens,ih]

theorem DataNoByten.ret_notMem (data : DataNoByten) : ret ∉ data.tokens := by
  induction data with
  | single => simp [tokens]
  | more front data ih => simp [tokens,ih]

theorem Stmt.ret_notMem (stmt : Stmt) : ret ∉ stmt.tokens := by
  cases stmt with
  | header stmt => cases stmt <;> decide
  | body stmt =>
    cases stmt <;>
      simp [tokens,SubBodyStmt.tokens,BodyAhb.tokens,BodyApb.tokens,BodyXbus.tokens,
        DataNoByten.ret_notMem,DataHasByten.ret_notMem]
  | blank => simp [tokens]

theorem takeWhile_ret {line rest : List Token} (inside : ret ∉ line) :
    (line ++ ret::rest).takeWhile (· ≠ ret) = line := by
  rw [List.takeWhile_append_of_pos]
  · simp
  · intro token member
    rw [decide_eq_true_iff]
    rintro rfl
    exact inside member

/-- The grammar is unambiguous: the tokens of a file settle its lines and their columns. -/
theorem Program.tokens_injective : Function.Injective Program.tokens := by
  have lines (left right : List Stmt)
      (same : left.flatMap (fun stmt => stmt.tokens ++ [ret]) =
        right.flatMap fun stmt => stmt.tokens ++ [ret]) : left = right := by
    induction left generalizing right with
    | nil => cases right <;> simp at same ⊢
    | cons left lefts ih =>
      cases right with
      | nil => simp at same
      | cons right rights =>
        simp only [List.flatMap_cons,List.append_assoc,List.singleton_append] at same
        have first : left.tokens = right.tokens := by
          have heads := congrArg (List.takeWhile (· ≠ ret)) same
          rwa [takeWhile_ret left.ret_notMem,takeWhile_ret right.ret_notMem] at heads
        rw [first] at same
        have rest := List.cons.inj (List.append_cancel_left same)
        rw [Stmt.tokens_injective first,ih rights rest.2]
  intro left right same
  simp only [tokens,List.cons_append,List.nil_append,List.cons.injEq,sidentifier.injEq,true_and] at same
  obtain ⟨instName,same⟩ := same
  cases left
  cases right
  rw [Program.mk.injEq]
  exact ⟨instName,lines _ _ same⟩

end Smtdv.Stl
