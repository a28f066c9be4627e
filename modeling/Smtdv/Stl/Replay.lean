import Smtdv.Stl.Grammar
import Smtdv.Stl.Wrapper

/-! The actions of `dpi_smtdv_parser.y`, and what a replay of the parsed file returns. -/
namespace Smtdv.Stl

/-- `global_mb` and `global_trx`, with the transfers they lead to. -/
structure Parser where
  mb : MailBox
  trx : Nat := 0
  heap : Lib.Heap Transfer := Lib.Heap.empty

namespace Parser

/-- A setter applied to `global_trx`. -/
def set (s : Parser) (setter : Transfer → List Char → Transfer) (text : List Char) : Parser :=
  {s with heap := s.heap.modify s.trx fun tt => setter tt text}

/-- The action before `sub_body_stmt`: the transfer is registered before it is filled. -/
def newTransfer (s : Parser) : Parser :=
  {mb := s.mb.push s.heap.next, trx := s.heap.next, heap := s.heap.alloc {}}

def dataHasByten (s : Parser) : DataHasByten → Parser
  | .single data byten => (s.set .setData data.text).set .setByten byten.text
  | .more front data byten =>
    ((s.dataHasByten front).set .setData data.text).set .setByten byten.text

def dataNoByten (s : Parser) : DataNoByten → Parser
  | .single data => s.set .setData data.text
  | .more front data => (s.dataNoByten front).set .setData data.text

def bodyXbus (s : Parser) (body : BodyXbus) : Parser :=
  let s := s.dataHasByten body.data
  let s := s.set .setBeginCycle body.beginCycle.text
  let s := s.set .setEndCycle body.endCycle.text
  let s := s.set .setBeginTime body.beginTime.text
  let s := s.set .setEndTime body.endTime.text
  let s := s.set .setRw body.rw.text
  s.set .setAddr body.addr.text

def bodyApb (s : Parser) (body : BodyApb) : Parser :=
  let s := s.dataNoByten body.data
  let s := s.set .setBeginCycle body.beginCycle.text
  let s := s.set .setEndCycle body.endCycle.text
  let s := s.set .setBeginTime body.beginTime.text
  let s := s.set .setEndTime body.endTime.text
  let s := s.set .setId body.id.text
  let s := s.set .setRw body.rw.text
  let s := s.set .setResp body.resp.text
  s.set .setAddr body.addr.text

def bodyAhb (s : Parser) (body : BodyAhb) : Parser :=
  let s := s.dataNoByten body.data
  let s := s.set .setBeginCycle body.beginCycle.text
  let s := s.set .setEndCycle body.endCycle.text
  let s := s.set .setBeginTime body.beginTime.text
  let s := s.set .setEndTime body.endTime.text
  let s := s.set .setId body.id.text
  let s := s.set .setRw body.rw.text
  let s := s.set .setBstType body.bstType.text
  let s := s.set .setTrxSize body.trxSize.text
  let s := s.set .setTrxPrt body.trxPrt.text
  let s := s.set .setLock body.lock.text
  let s := s.set .setResp body.resp.text
  s.set .setAddr body.addr.text

def subBodyStmt (s : Parser) : SubBodyStmt → Parser
  | .ahb body => s.bodyAhb body
  | .apb body => s.bodyApb body
  | .xbus body => s.bodyXbus body

def stmt (s : Parser) : Stmt → Parser
  | .header _ => s
  | .body stmt => s.newTransfer.subBodyStmt stmt
  | .blank => s

/-- `dpi_smtdv_parse_file` for a file with this derivation. -/
def parseFile (program : Program) : Parser :=
  program.stmts.foldl stmt {mb := {instName := program.instName.text}}

end Parser

/-- The getter's text is read as the number of the column. -/
def ShowsHex (got : Option (List Char)) (column : TIdentifier) : Prop :=
  got.map (fun text => (dpiHexstr2Longint text).toNat) = some column.value

def ShowsData (tt : Transfer) (columns : List TIdentifier) : Prop :=
  tt.data.length = columns.length ∧ ∀ i, ∀ column ∈ columns[i]?, ShowsHex (tt.getData i) column

def ShowsByten (tt : Transfer) (columns : List TIdentifier) : Prop :=
  tt.byten.length = columns.length ∧ ∀ i, ∀ column ∈ columns[i]?, ShowsHex (tt.getByten i) column

/-- Every field of the transfer that the line has a column for is that column. -/
def Shows (tt : Transfer) : SubBodyStmt → Prop
  | .ahb body =>
    ShowsHex tt.getBeginCycle body.beginCycle ∧ ShowsHex tt.getEndCycle body.endCycle ∧
      ShowsHex tt.getBeginTime body.beginTime ∧ ShowsHex tt.getEndTime body.endTime ∧
      ShowsHex tt.getId body.id ∧ tt.getRw = body.rw.text ∧ tt.getBstType = body.bstType.text ∧
      tt.getTrxSize = body.trxSize.text ∧ tt.getTrxPrt = body.trxPrt.text ∧
      ShowsHex tt.getLock body.lock ∧ tt.getResp = body.resp.text ∧
      ShowsHex tt.getAddr body.addr ∧ ShowsData tt body.data.columns
  | .apb body =>
    ShowsHex tt.getBeginCycle body.beginCycle ∧ ShowsHex tt.getEndCycle body.endCycle ∧
      ShowsHex tt.getBeginTime body.beginTime ∧ ShowsHex tt.getEndTime body.endTime ∧
      ShowsHex tt.getId body.id ∧ tt.getRw = body.rw.text ∧ tt.getResp = body.resp.text ∧
      ShowsHex tt.getAddr body.addr ∧ ShowsData tt body.data.columns
  | .xbus body =>
    ShowsHex tt.getBeginCycle body.beginCycle ∧ ShowsHex tt.getEndCycle body.endCycle ∧
      ShowsHex tt.getBeginTime body.beginTime ∧ ShowsHex tt.getEndTime body.endTime ∧
      tt.getRw = body.rw.text ∧ ShowsHex tt.getAddr body.addr ∧
      ShowsData tt (body.data.columns.map Prod.fst) ∧
      ShowsByten tt (body.data.columns.map Prod.snd)

/-- One call of `next` more than there are body lines returns their transfers, in order, and
then null. -/
def Replayed (program : Program) : Prop :=
  let s := Parser.parseFile program
  ∃ trxs : List Nat, s.mb.nexts (program.bodies.length+1) = trxs.map some ++ [none] ∧
    List.Forall₂ (fun body trx => Shows (s.heap.get trx) body) program.bodies trxs

def SubBodyStmt.hexColumns : SubBodyStmt → List TIdentifier
  | .ahb body => [body.beginCycle,body.endCycle,body.beginTime,body.endTime,body.id,body.lock,
      body.addr] ++ body.data.columns
  | .apb body => [body.beginCycle,body.endCycle,body.beginTime,body.endTime,body.id,body.addr] ++
      body.data.columns
  | .xbus body => [body.beginCycle,body.endCycle,body.beginTime,body.endTime,body.addr] ++
      (body.data.columns.map Prod.fst ++ body.data.columns.map Prod.snd)

/-- Hex columns have at most 16 digits. -/
def Program.Short (program : Program) : Prop :=
  ∀ body ∈ program.bodies, ∀ column ∈ body.hexColumns, column.text.length ≤ 16

instance (program : Program) : Decidable program.Short :=
  inferInstanceAs (Decidable (∀ body ∈ program.bodies, ∀ column ∈ body.hexColumns, column.text.length ≤ 16))

/-- The line has no lock column, and its columns for 32-bit fields fit. -/
def Kept : SubBodyStmt → Prop
  | .ahb _ => False
  | .apb body => body.id.value < 2^32
  | .xbus body => ∀ column ∈ body.data.columns, column.2.value < 2^32

namespace Parser

/-- A change of the transfer that `global_trx` leads to. -/
def update (s : Parser) (change : Transfer → Transfer) : Parser :=
  {s with heap := s.heap.modify s.trx change}

theorem set_eq (s : Parser) (setter : Transfer → List Char → Transfer) (text : List Char) :
    s.set setter text = s.update fun tt => setter tt text := rfl

theorem update_update (s : Parser) (first second : Transfer → Transfer) :
    (s.update first).update second = s.update fun tt => second (first tt) := by
  simp only [update,Lib.Heap.modify_modify]

theorem dataNoByten_eq (s : Parser) (data : DataNoByten) :
    s.dataNoByten data = s.update fun tt =>
      {tt with data := tt.data ++ data.columns.map fun column => dpiHexstr2Longint column.text} := by
  induction data with
  | single data => rfl
  | more front data ih =>
    rw [dataNoByten,ih,set_eq,update_update]
    simp [Transfer.setData,DataNoByten.columns]

theorem dataHasByten_eq (s : Parser) (data : DataHasByten) :
    s.dataHasByten data = s.update fun tt =>
      {tt with
        data := tt.data ++ data.columns.map fun column => dpiHexstr2Longint column.1.text
        byten := tt.byten ++
          data.columns.map fun column => (dpiHexstr2Longint column.2.text).setWidth 32} := by
  induction data with
  | single data byten =>
    rw [dataHasByten,set_eq,set_eq,update_update]
    rfl
  | more front data byten ih =>
    rw [dataHasByten,ih,set_eq,set_eq,update_update,update_update]
    simp [Transfer.setData,Transfer.setByten,DataHasByten.columns]

end Parser

/-- The transfer that the actions of a line leave. -/
def SubBodyStmt.transfer : SubBodyStmt → Transfer
  | .ahb body =>
    { beginCycle := some (dpiHexstr2Longint body.beginCycle.text)
      endCycle := some (dpiHexstr2Longint body.endCycle.text)
      beginTime := some (dpiHexstr2Longint body.beginTime.text)
      endTime := some (dpiHexstr2Longint body.endTime.text)
      id := some ((dpiHexstr2Longint body.lock.text).setWidth 32)
      rw := body.rw.text
      bstType := body.bstType.text
      trxSize := body.trxSize.text
      trxPrt := body.trxPrt.text
      resp := body.resp.text
      addr := some (dpiHexstr2Longint body.addr.text)
      data := body.data.columns.map fun column => dpiHexstr2Longint column.text }
  | .apb body =>
    { beginCycle := some (dpiHexstr2Longint body.beginCycle.text)
      endCycle := some (dpiHexstr2Longint body.endCycle.text)
      beginTime := some (dpiHexstr2Longint body.beginTime.text)
      endTime := some (dpiHexstr2Longint body.endTime.text)
      id := some ((dpiHexstr2Longint body.id.text).setWidth 32)
      rw := body.rw.text
      resp := body.resp.text
      addr := some (dpiHexstr2Longint body.addr.text)
      data := body.data.columns.map fun column => dpiHexstr2Longint column.text }
  | .xbus body =>
    { beginCycle := some (dpiHexstr2Longint body.beginCycle.text)
      endCycle := some (dpiHexstr2Longint body.endCycle.text)
      beginTime := some (dpiHexstr2Longint body.beginTime.text)
      endTime := some (dpiHexstr2Longint body.endTime.text)
      rw := body.rw.text
      addr := some (dpiHexstr2Longint body.addr.text)
      data := body.data.columns.map fun column => dpiHexstr2Longint column.1.text
      byten := body.data.columns.map fun column => (dpiHexstr2Longint column.2.text).setWidth 32 }

namespace Parser

/-- Whatever the order of the setters, a line is one push and one new transfer. -/
theorem stmt_body (s : Parser) (body : SubBodyStmt) :
    s.stmt (.body body) =
      {mb := s.mb.push s.heap.next, trx := s.heap.next, heap := s.heap.alloc body.transfer} := by
  have filled (change : Transfer → Transfer) (same : change {} = body.transfer) :
      s.newTransfer.update change =
        {mb := s.mb.push s.heap.next, trx := s.heap.next, heap := s.heap.alloc body.transfer} := by
    simp [update,newTransfer,Lib.Heap.alloc_modify,same]
  cases body with
  | ahb body =>
    simp only [stmt,subBodyStmt,bodyAhb,dataNoByten_eq,set_eq,update_update]
    exact filled _ rfl
  | apb body =>
    simp only [stmt,subBodyStmt,bodyApb,dataNoByten_eq,set_eq,update_update]
    exact filled _ rfl
  | xbus body =>
    simp only [stmt,subBodyStmt,bodyXbus,dataHasByten_eq,set_eq,update_update]
    exact filled _ rfl

/-- The transfers of these lines are in the mailbox, which is about to return the first. -/
structure Holds (s : Parser) (bodies : List SubBodyStmt) : Prop where
  next : s.heap.next = bodies.length
  mVec : s.mb.mVec = List.range bodies.length
  front : s.mb.At 0
  filled : ∀ i body, bodies[i]? = some body → s.heap.get i = body.transfer

theorem holds_body {s : Parser} {bodies : List SubBodyStmt} (held : s.Holds bodies)
    (body : SubBodyStmt) : (s.stmt (.body body)).Holds (bodies ++ [body]) := by
  rw [stmt_body]
  refine ⟨?_,?_,MailBox.at_push _ _,?_⟩
  · simp [held.next]
  · simp [MailBox.push,held.mVec,held.next,List.range_succ]
  · intro i last found
    rw [Lib.Heap.alloc_get,held.next]
    by_cases newest : i = bodies.length
    · subst newest
      obtain rfl : body = last := by simpa using found
      simp
    · rw [if_neg newest]
      apply held.filled i last
      have inside : i < (bodies ++ [body]).length := (List.getElem?_eq_some_iff.mp found).1
      rwa [List.getElem?_append_left (by simp at inside; omega)] at found

theorem holds_parseFile (program : Program) : (parseFile program).Holds program.bodies := by
  have run (stmts : List Stmt) (s : Parser) (bodies : List SubBodyStmt) (held : s.Holds bodies) :
      (stmts.foldl stmt s).Holds (bodies ++ Program.bodies ⟨program.instName,stmts⟩) := by
    induction stmts generalizing s bodies with
    | nil => simpa [Program.bodies] using held
    | cons line rest ih =>
      cases line with
      | header header => exact ih s bodies held
      | blank => exact ih s bodies held
      | body body =>
        have later := ih _ _ (holds_body held body)
        rwa [List.append_assoc] at later
  apply run _ _ []
  exact ⟨rfl,rfl,⟨Nat.le_refl _,rfl⟩,by simp⟩

end Parser

theorem replayed_iff_shows (program : Program) :
    Replayed program ↔ ∀ body ∈ program.bodies, Shows body.transfer body := by
  have held := Parser.holds_parseFile program
  have replies := MailBox.nexts_pushed held.front
  rw [held.mVec,List.length_range] at replies
  have returned (trxs : List Nat) : trxs = List.range program.bodies.length →
      (List.Forall₂ (fun body trx => Shows ((Parser.parseFile program).heap.get trx) body)
        program.bodies trxs ↔ ∀ body ∈ program.bodies, Shows body.transfer body) := by
    rintro rfl
    rw [List.forall₂_iff_get,List.forall_mem_iff_getElem]
    constructor
    · rintro ⟨-,shows⟩ i inside
      have shown := shows i inside (by simpa using inside)
      simp only [List.get_eq_getElem,List.getElem_range] at shown
      rwa [held.filled i _ (List.getElem?_eq_getElem inside)] at shown
    · intro shows
      refine ⟨by simp,?_⟩
      intro i inside _
      simp only [List.get_eq_getElem,List.getElem_range]
      rw [held.filled i _ (List.getElem?_eq_getElem inside)]
      exact shows i inside
  constructor
  · rintro ⟨trxs,same,shows⟩
    rw [replies] at same
    have same : trxs = List.range program.bodies.length :=
      (List.map_injective_iff.mpr (fun _ _ => Option.some.inj) (List.append_cancel_right same)).symm
    exact (returned trxs same).mp shows
  · intro shows
    exact ⟨_,replies,(returned _ rfl).mpr shows⟩

theorem showsHex_long {column : TIdentifier} (short : column.text.length ≤ 16) :
    ShowsHex (some (dpiLongint2Hexstr (dpiHexstr2Longint column.text))) column := by
  rw [ShowsHex,Option.map_some,dpiHexstr2Longint_2Hexstr,dpiHexstr2Longint_toNat short]
  rfl

theorem showsHex_int {column : TIdentifier} (short : column.text.length ≤ 16) :
    ShowsHex (some (dpiLongint2Hexstr (((dpiHexstr2Longint column.text).setWidth 32).setWidth 64)))
      column ↔ column.value < 2^32 := by
  have value : (dpiHexstr2Longint column.text).toNat = column.value := dpiHexstr2Longint_toNat short
  rw [ShowsHex,Option.map_some,dpiHexstr2Longint_2Hexstr,Option.some.injEq]
  simp only [BitVec.toNat_setWidth,value]
  omega

theorem showsData_columns {tt : Transfer} {columns : List TIdentifier}
    (short : ∀ column ∈ columns, column.text.length ≤ 16)
    (data : tt.data = columns.map fun column => dpiHexstr2Longint column.text) :
    ShowsData tt columns := by
  refine ⟨by simp [data],?_⟩
  intro i column found
  have found : columns[i]? = some column := found
  have got : tt.getData i = some (dpiLongint2Hexstr (dpiHexstr2Longint column.text)) := by
    simp [Transfer.getData,data,found]
  rw [got]
  exact showsHex_long (short column (List.mem_of_getElem? found))

theorem showsByten_columns {tt : Transfer} {columns : List TIdentifier}
    (short : ∀ column ∈ columns, column.text.length ≤ 16)
    (byten : tt.byten = columns.map fun column => (dpiHexstr2Longint column.text).setWidth 32) :
    ShowsByten tt columns ↔ ∀ column ∈ columns, column.value < 2^32 := by
  have got (i : Nat) (column : TIdentifier) (found : columns[i]? = some column) :
      tt.getByten i = some (dpiLongint2Hexstr
        (((dpiHexstr2Longint column.text).setWidth 32).setWidth 64)) := by
    simp [Transfer.getByten,byten,found]
  constructor
  · rintro ⟨-,shows⟩ column member
    obtain ⟨i,found⟩ := List.mem_iff_getElem?.mp member
    have shown := shows i column found
    rw [got i column found] at shown
    exact (showsHex_int (short column member)).mp shown
  · intro fits
    refine ⟨by simp [byten],?_⟩
    intro i column found
    have member := List.mem_of_getElem? found
    rw [got i column found]
    exact (showsHex_int (short column member)).mpr (fits column member)

/-- Which lines leave a transfer that shows every column. -/
theorem shows_transfer (body : SubBodyStmt)
    (short : ∀ column ∈ body.hexColumns, column.text.length ≤ 16) :
    Shows body.transfer body ↔ Kept body := by
  cases body with
  | ahb body =>
    refine ⟨?_,False.elim⟩
    -- nothing ever writes the lock of the transfer
    rintro ⟨-,-,-,-,-,-,-,-,-,locked,-⟩
    exact absurd locked (by simp [ShowsHex,SubBodyStmt.transfer,Transfer.getLock])
  | apb body =>
    simp only [SubBodyStmt.hexColumns,List.cons_append,List.nil_append,List.forall_mem_cons] at short
    obtain ⟨beginCycle,endCycle,beginTime,endTime,id,addr,data⟩ := short
    constructor
    · rintro ⟨-,-,-,-,shown,-⟩
      exact (showsHex_int id).mp shown
    · intro fits
      exact ⟨showsHex_long beginCycle,showsHex_long endCycle,showsHex_long beginTime,
        showsHex_long endTime,(showsHex_int id).mpr fits,rfl,rfl,showsHex_long addr,
        showsData_columns data rfl⟩
  | xbus body =>
    simp only [SubBodyStmt.hexColumns,List.cons_append,List.nil_append,List.forall_mem_cons,
      List.forall_mem_append] at short
    obtain ⟨beginCycle,endCycle,beginTime,endTime,addr,data,byten⟩ := short
    have written : (SubBodyStmt.xbus body).transfer.byten = (body.data.columns.map Prod.snd).map
        fun column => (dpiHexstr2Longint column.text).setWidth 32 := by
      simp [SubBodyStmt.transfer]
    have enables := showsByten_columns byten written
    rw [List.forall_mem_map] at enables
    constructor
    · rintro ⟨-,-,-,-,-,-,-,shown⟩
      exact enables.mp shown
    · intro fits
      exact ⟨showsHex_long beginCycle,showsHex_long endCycle,showsHex_long beginTime,
        showsHex_long endTime,rfl,showsHex_long addr,
        showsData_columns data (by simp [SubBodyStmt.transfer]),enables.mpr fits⟩

/-- A file is replayed column by column exactly when no line has a lock column and the columns
of 32-bit fields fit. -/
theorem replayed_iff (program : Program) (short : program.Short) :
    Replayed program ↔ ∀ body ∈ program.bodies, Kept body := by
  rw [replayed_iff_shows]
  constructor
  · intro shows body member
    exact (shows_transfer body (short body member)).mp (shows body member)
  · intro kept body member
    exact (shows_transfer body (short body member)).mpr (kept body member)

def apbLines : Program where
  instName := ⟨['m'],by decide,by decide,by decide,by decide⟩
  stmts := [.header .apb,.body (.apb
    { beginCycle := ⟨['2'],by decide,by decide⟩
      endCycle := ⟨['4'],by decide,by decide⟩
      beginTime := ⟨['1','9'],by decide,by decide⟩
      endTime := ⟨['2','d'],by decide,by decide⟩
      id := ⟨['3'],by decide,by decide⟩
      rw := ⟨['w'],by decide,by decide,by decide,by decide⟩
      resp := ⟨['O','K'],by decide,by decide,by decide,by decide⟩
      addr := ⟨['1','0'],by decide,by decide⟩
      data := .more (.single ⟨['f','f'],by decide,by decide⟩) ⟨['e'],by decide,by decide⟩ }),.blank]

theorem replayed_iff_apb : Replayed apbLines ↔ ∀ body ∈ apbLines.bodies, Kept body :=
  replayed_iff apbLines (by decide)

/-- The lock column of an AHB line is lost, and its identifier with it. -/
def ahbLines : Program where
  instName := ⟨['m'],by decide,by decide,by decide,by decide⟩
  stmts := [.header .ahb,.body (.ahb
    { beginCycle := ⟨['2'],by decide,by decide⟩
      endCycle := ⟨['4'],by decide,by decide⟩
      beginTime := ⟨['1','9'],by decide,by decide⟩
      endTime := ⟨['2','d'],by decide,by decide⟩
      id := ⟨['3'],by decide,by decide⟩
      rw := ⟨['w'],by decide,by decide,by decide,by decide⟩
      bstType := ⟨['I','N','C','R','4'],by decide,by decide,by decide,by decide⟩
      trxSize := ⟨['B','3','2'],by decide,by decide,by decide,by decide⟩
      trxPrt := ⟨['U'],by decide,by decide,by decide,by decide⟩
      lock := ⟨['1'],by decide,by decide⟩
      resp := ⟨['O','K'],by decide,by decide,by decide,by decide⟩
      addr := ⟨['1','0'],by decide,by decide⟩
      data := .more (.single ⟨['1','1'],by decide,by decide⟩) ⟨['2','2'],by decide,by decide⟩ })]

theorem not_replayed_lock : ahbLines.Short ∧
    ((Parser.parseFile ahbLines).heap.get 0).id = some 1 ∧
    ((Parser.parseFile ahbLines).heap.get 0).lock = none ∧ ¬Replayed ahbLines := by
  refine ⟨by decide,by decide +kernel,by decide +kernel,?_⟩
  rw [replayed_iff_shows]
  intro shows
  exact (shows_transfer _ (by decide)).mp (shows _ (List.mem_singleton.mpr rfl))

end Smtdv.Stl
