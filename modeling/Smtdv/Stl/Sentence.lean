import Mathlib.Data.List.Basic
import Smtdv.Stl.Grammar

/-! The derivation of a row of tokens by the rules of `dpi_smtdv_parser.y`, if there is one. -/
namespace Smtdv.Stl
open Token

/-- A guess is taken if it derives the tokens. -/
def checked {α : Type} (tokens : α → List Token) (guess : List Token → Option α) (ts : List Token) : Option α :=
  (guess ts).filter fun x => tokens x = ts

theorem checked_sound {α : Type} {tokens : α → List Token} {guess : List Token → Option α} {ts : List Token} {x : α}
    (found : checked tokens guess ts = some x) : tokens x = ts :=
  of_decide_eq_true (Option.filter_eq_some_iff.mp found).2

theorem checked_complete {α : Type} {tokens : α → List Token} {guess : List Token → Option α} {x : α}
    (guessed : guess (tokens x) = some x) : checked tokens guess (tokens x) = some x :=
  Option.filter_eq_some_iff.mpr ⟨guessed,decide_eq_true rfl⟩

/-! ## Lines -/

def number : List Token → Option (TIdentifier × List Token)
  | tidentifier word::tcomma::rest => some (word,rest)
  | _ => none

def name : List Token → Option (SIdentifier × List Token)
  | sidentifier word::tcomma::rest => some (word,rest)
  | _ => none

def moreNoByten (front : DataNoByten) : List Token → Option DataNoByten
  | [] => some front
  | tidentifier data::tcomma::rest => moreNoByten (.more front data) rest
  | _ => none

def guessNoByten : List Token → Option DataNoByten
  | tidentifier data::tcomma::rest => moreNoByten (.single data) rest
  | _ => none

def moreHasByten (front : DataHasByten) : List Token → Option DataHasByten
  | [] => some front
  | tidentifier data::tlparen::tidentifier byten::trparen::tcomma::rest => moreHasByten (.more front data byten) rest
  | _ => none

def guessHasByten : List Token → Option DataHasByten
  | tidentifier data::tlparen::tidentifier byten::trparen::tcomma::rest => moreHasByten (.single data byten) rest
  | _ => none

def guessXbus (ts : List Token) : Option BodyXbus := do
  let (beginCycle,ts) ← number ts
  let (endCycle,ts) ← number ts
  let (beginTime,ts) ← number ts
  let (endTime,ts) ← number ts
  let (rw,ts) ← name ts
  let (addr,ts) ← number ts
  let data ← guessHasByten ts
  some {beginCycle,endCycle,beginTime,endTime,rw,addr,data}

def guessApb (ts : List Token) : Option BodyApb := do
  let (beginCycle,ts) ← number ts
  let (endCycle,ts) ← number ts
  let (beginTime,ts) ← number ts
  let (endTime,ts) ← number ts
  let (id,ts) ← number ts
  let (rw,ts) ← name ts
  let (resp,ts) ← name ts
  let (addr,ts) ← number ts
  let data ← guessNoByten ts
  some {beginCycle,endCycle,beginTime,endTime,id,rw,resp,addr,data}

def guessAhb (ts : List Token) : Option BodyAhb := do
  let (beginCycle,ts) ← number ts
  let (endCycle,ts) ← number ts
  let (beginTime,ts) ← number ts
  let (endTime,ts) ← number ts
  let (id,ts) ← number ts
  let (rw,ts) ← name ts
  let (bstType,ts) ← name ts
  let (trxSize,ts) ← name ts
  let (trxPrt,ts) ← name ts
  let (lock,ts) ← number ts
  let (resp,ts) ← name ts
  let (addr,ts) ← number ts
  let data ← guessNoByten ts
  some {beginCycle,endCycle,beginTime,endTime,id,rw,bstType,trxSize,trxPrt,lock,resp,addr,data}

theorem guessNoByten_append (data : DataNoByten) (rest : List Token) :
    guessNoByten (data.tokens ++ rest) = moreNoByten data rest := by
  induction data generalizing rest with
  | single data => rfl
  | more front data ih =>
    rw [DataNoByten.tokens,List.append_assoc,ih]
    rfl

theorem guessHasByten_append (data : DataHasByten) (rest : List Token) :
    guessHasByten (data.tokens ++ rest) = moreHasByten data rest := by
  induction data generalizing rest with
  | single data byten => rfl
  | more front data byten ih =>
    rw [DataHasByten.tokens,List.append_assoc,ih]
    rfl

theorem guessNoByten_tokens (data : DataNoByten) : guessNoByten data.tokens = some data := by
  have whole := guessNoByten_append data []
  rwa [List.append_nil] at whole

theorem guessHasByten_tokens (data : DataHasByten) : guessHasByten data.tokens = some data := by
  have whole := guessHasByten_append data []
  rwa [List.append_nil] at whole

theorem guessXbus_tokens (body : BodyXbus) : guessXbus body.tokens = some body := by
  change (guessHasByten body.data.tokens).bind (fun data => some {body with data}) = some body
  rw [guessHasByten_tokens]
  rfl

theorem guessApb_tokens (body : BodyApb) : guessApb body.tokens = some body := by
  change (guessNoByten body.data.tokens).bind (fun data => some {body with data}) = some body
  rw [guessNoByten_tokens]
  rfl

theorem guessAhb_tokens (body : BodyAhb) : guessAhb body.tokens = some body := by
  change (guessNoByten body.data.tokens).bind (fun data => some {body with data}) = some body
  rw [guessNoByten_tokens]
  rfl

def subBodyStmtOf (ts : List Token) : Option SubBodyStmt :=
  ((checked BodyAhb.tokens guessAhb ts).map SubBodyStmt.ahb).or
    (((checked BodyApb.tokens guessApb ts).map SubBodyStmt.apb).or
      ((checked BodyXbus.tokens guessXbus ts).map SubBodyStmt.xbus))

def headerStmtOf (ts : List Token) : Option HeaderStmt := [.ahb,.apb,.xbus].find? fun header => header.tokens = ts

def stmtOf (ts : List Token) : Option Stmt :=
  if ts = [] then some .blank
  else ((headerStmtOf ts).map Stmt.header).or ((subBodyStmtOf ts).map Stmt.body)

theorem subBodyStmtOf_sound {ts : List Token} {body : SubBodyStmt} (found : subBodyStmtOf ts = some body) :
    body.tokens = ts := by
  rcases Option.or_eq_some_iff.mp found with first | ⟨-,found⟩
  · obtain ⟨line,guessed,rfl⟩ := Option.map_eq_some_iff.mp first
    exact (checked_sound guessed : line.tokens = ts)
  · rcases Option.or_eq_some_iff.mp found with second | ⟨-,third⟩
    · obtain ⟨line,guessed,rfl⟩ := Option.map_eq_some_iff.mp second
      exact (checked_sound guessed : line.tokens = ts)
    · obtain ⟨line,guessed,rfl⟩ := Option.map_eq_some_iff.mp third
      exact (checked_sound guessed : line.tokens = ts)

/-- Some line is found, and no other line has these tokens. -/
theorem subBodyStmtOf_tokens (body : SubBodyStmt) : subBodyStmtOf body.tokens = some body := by
  have found : (subBodyStmtOf body.tokens).isSome := by
    unfold subBodyStmtOf
    cases body with
    | ahb body => simp [SubBodyStmt.tokens,checked_complete (guessAhb_tokens body)]
    | apb body => simp [SubBodyStmt.tokens,checked_complete (guessApb_tokens body)]
    | xbus body => simp [SubBodyStmt.tokens,checked_complete (guessXbus_tokens body)]
  obtain ⟨other,found⟩ := Option.isSome_iff_exists.mp found
  rw [found,SubBodyStmt.tokens_injective (subBodyStmtOf_sound found)]

theorem stmtOf_sound {ts : List Token} {stmt : Stmt} (found : stmtOf ts = some stmt) : stmt.tokens = ts := by
  unfold stmtOf at found
  split at found
  · rename_i empty
    obtain rfl := Option.some.inj found
    exact empty.symm
  · rcases Option.or_eq_some_iff.mp found with header | ⟨-,body⟩
    · obtain ⟨line,known,rfl⟩ := Option.map_eq_some_iff.mp header
      have same := List.find?_some (p := fun stmt : HeaderStmt => decide (stmt.tokens = ts)) known
      exact of_decide_eq_true same
    · obtain ⟨body,known,rfl⟩ := Option.map_eq_some_iff.mp body
      exact subBodyStmtOf_sound known

theorem stmtOf_tokens (stmt : Stmt) : stmtOf stmt.tokens = some stmt := by
  have found : (stmtOf stmt.tokens).isSome := by
    unfold stmtOf
    split
    · rfl
    · cases stmt with
      | header header =>
        have found : (headerStmtOf header.tokens).isSome := by cases header <;> rfl
        simp [Stmt.tokens,found]
      | body body => simp [Stmt.tokens,subBodyStmtOf_tokens]
      | blank =>
        rename_i nonempty
        exact absurd rfl nonempty
  obtain ⟨other,found⟩ := Option.isSome_iff_exists.mp found
  rw [found,Stmt.tokens_injective (stmtOf_sound found)]

/-! ## Files -/

/-- The lines of a file, each without its RETURN; the last line has one. -/
def splitLines (line : List Token) : List Token → Option (List (List Token))
  | [] => if line = [] then some [] else none
  | ret::rest => (splitLines [] rest).map fun lines => line::lines
  | t::rest => splitLines (line ++ [t]) rest

def guessProgram (ts : List Token) : Option Program :=
  match splitLines [] ts with
  | some ([comment,sidentifier instName]::lines) => (lines.mapM stmtOf).map fun stmts => ⟨instName,stmts⟩
  | _ => none

/-- `yyparse` on the tokens up to the end of the input: the derivation, or a syntax error. -/
def programOf : List Token → Option Program := checked Program.tokens guessProgram

theorem splitLines_append (front line : List Token) (rest : List Token) (inside : ret ∉ line) :
    splitLines front (line ++ ret::rest) = (splitLines [] rest).map fun lines => (front ++ line)::lines := by
  induction line generalizing front with
  | nil => simp [splitLines]
  | cons t line ih =>
    simp only [List.mem_cons,not_or] at inside
    rw [List.cons_append,splitLines.eq_3 _ _ _ (fun same => inside.1 same.symm),ih _ inside.2]
    simp

theorem splitLines_stmts (stmts : List Stmt) :
    splitLines [] (stmts.flatMap fun stmt => stmt.tokens ++ [ret]) = some (stmts.map Stmt.tokens) := by
  induction stmts with
  | nil => rfl
  | cons stmt stmts ih =>
    rw [List.flatMap_cons,List.append_assoc,List.singleton_append,splitLines_append _ _ _ stmt.ret_notMem,ih]
    rfl

theorem mapM_stmtOf (stmts : List Stmt) : (stmts.map Stmt.tokens).mapM stmtOf = some stmts := by
  induction stmts with
  | nil => rfl
  | cons stmt stmts ih =>
    rw [List.map_cons,List.mapM_cons,stmtOf_tokens,ih]
    rfl

theorem guessProgram_tokens (program : Program) : guessProgram program.tokens = some program := by
  have lines : splitLines [] program.tokens =
      some ([comment,sidentifier program.instName]::program.stmts.map Stmt.tokens) := by
    have first := splitLines_append [] [comment,sidentifier program.instName]
      (program.stmts.flatMap fun stmt => stmt.tokens ++ [ret]) (by simp)
    rw [splitLines_stmts] at first
    exact first
  rw [guessProgram,lines]
  dsimp only
  rw [mapM_stmtOf]
  rfl

theorem programOf_eq_some_iff {ts : List Token} {program : Program} :
    programOf ts = some program ↔ program.tokens = ts := by
  constructor
  · exact checked_sound
  · rintro rfl
    exact checked_complete (guessProgram_tokens program)

end Smtdv.Stl
