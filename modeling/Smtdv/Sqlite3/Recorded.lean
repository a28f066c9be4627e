import Smtdv.Sqlite3.MemoryRows

/-! The memories of a bench and their back door, over one recorder and one database, against a list of rows for each
memory. -/
namespace Smtdv.Sqlite3
open Lib Lib.Sql

/-! ## Benches -/

def quoted (name : Text) : Text := '"'::(name ++ ['"'])

/-- The memories of a bench, by the sequencers of their slaves, with the recorder. -/
structure Bench (e : Engine) (ι : Type) where
  recorder : Recorder e := {}
  tableNm : ι → Text := fun _ => []

/-- A slave sequence starts, a memory stores a byte, or the scoreboard looks at an item. -/
inductive Action (ι : Type) (aw dw : ι → Nat)
  | preDo (i : ι)
  | memStoreByteCb (i : ι) (addr : BitVec (aw i)) (data : BitVec 8) (cyc : Nat)
  | compare (i : ι) (item : SequenceItem (aw i) (dw i))

section Run

variable {e : Engine} {reserved : Text → Prop} {ι : Type} {aw dw : ι → Nat}

/-- The rows of the memories that have a table. -/
abbrev Tables (ι : Type) := ι → Option (List MemRow)

/-- The numbers fit in a signed word of 64 bits. -/
def Action.Fits : Action ι aw dw → Prop
  | preDo _ => True
  | memStoreByteCb _ _ _ cyc => cyc < 2^63
  | compare _ item => item.offset < 2^63

/-- No memory is looked at before its sequence has started. -/
def Started (tables : Tables ι) (actions : List (Action ι aw dw)) : Prop :=
  ∀ n i item, actions[n]? = some (.compare i item) → (tables i).isSome = true ∨ .preDo i ∈ actions.take n

theorem Started.step {tables next : Tables ι} {a : Action ι aw dw} {rest : List (Action ι aw dw)}
    (started : Started tables (a::rest)) (kept : ∀ i, (tables i).isSome = true → (next i).isSome = true)
    (made : ∀ i, a = .preDo i → (next i).isSome = true) : Started next rest := by
  intro n i item here
  rcases started (n+1) i item here with known | member
  · exact Or.inl (kept i known)
  · rcases List.mem_cons.mp member with same | member
    · exact Or.inl (made i same.symm)
    · exact Or.inr member

variable [DecidableEq ι]

namespace Bench

/-- `smtdv_slave_mem_seq::pre_do`: a memory that has a table keeps it. -/
def preDo (names : ι → Text) (b : Bench e ι) (i : ι) : Option (Bench e ι) :=
  if b.tableNm i = [] then
    (createTable b.recorder (quoted (names i))).map fun recorder =>
      ⟨recorder,Function.update b.tableNm i (quoted (names i))⟩
  else some b

/-- The verdicts of the scoreboard. -/
def run (names : ι → Text) : Bench e ι → List (Action ι aw dw) → Option (Bench e ι × List Bool)
  | b,[] => some (b,[])
  | b,.preDo i::rest => (b.preDo names i).bind fun b => run names b rest
  | b,.memStoreByteCb i addr data cyc::rest =>
    (memStoreByteCb b.recorder (b.tableNm i) addr data cyc).bind fun recorder => run names {b with recorder} rest
  | b,.compare i item::rest => do
    let (recorder,verdict) ← Sqlite3.compare b.recorder (quoted (names i)) item
    let (b,verdicts) ← run names {b with recorder} rest
    some (b,verdict::verdicts)

end Bench

def Tables.begun (tables : Tables ι) (i : ι) : Tables ι := Function.update tables i (some ((tables i).getD []))

def Tables.put (tables : Tables ι) (i : ι) (row : MemRow) : Tables ι :=
  Function.update tables i ((tables i).map (· ++ [row]))

/-- A verdict is about the latest bytes in the rows of the memory. -/
inductive Conforms : Tables ι → List (Action ι aw dw) → List Bool → Prop
  | nil (tables : Tables ι) : Conforms tables [] []
  | preDo {tables : Tables ι} {i : ι} {rest : List (Action ι aw dw)} {verdicts : List Bool}
      (later : Conforms (tables.begun i) rest verdicts) : Conforms tables (.preDo i::rest) verdicts
  | memStoreByteCb {tables : Tables ι} {i : ι} {addr : BitVec (aw i)} {data : BitVec 8} {cyc : Nat}
      {rest : List (Action ι aw dw)} {verdicts : List Bool}
      (later : Conforms (tables.put i ⟨addr.toNat,.wr,data,cyc⟩) rest verdicts) :
      Conforms tables (.memStoreByteCb i addr data cyc::rest) verdicts
  | compare {tables : Tables ι} {i : ι} {table : List MemRow} {item : SequenceItem (aw i) (dw i)}
      {pick : Nat → List MemRow} {rest : List (Action ι aw dw)} {verdicts : List Bool} (found : tables i = some table)
      (latest : ∀ k, Latest table {item with addrIdx := k} (pick k)) (later : Conforms tables rest verdicts) :
      Conforms tables (.compare i item::rest) (item.compare (rebuiltBy pick item)::verdicts)

/-- The verdicts where rows of one cycle are in the order of the table. -/
def verdictsOf : Tables ι → List (Action ι aw dw) → List Bool
  | _,[] => []
  | tables,.preDo i::rest => verdictsOf (tables.begun i) rest
  | tables,.memStoreByteCb i addr data cyc::rest => verdictsOf (tables.put i ⟨addr.toNat,.wr,data,cyc⟩) rest
  | tables,.compare i item::rest => Backdoor.compare ((tables i).getD []) item::verdictsOf tables rest

/-- The names of the bench can be the names of tables, each its own. -/
structure Named (reserved : Text → Prop) (names : ι → Text) : Prop where
  unquoted : ∀ i, '"' ∉ names i
  apart : ∀ i j, i ≠ j → Apart (quoted (names i)) (quoted (names j))
  free : ∀ i, ¬reserved (quoted (names i))
  columns : ∀ fdNm ∈ memVifAttrLongint, ¬reserved fdNm

/-- The recorder has the tables, and no other. -/
structure Mirrors (names : ι → Text) (b : Bench e ι) (tables : Tables ι) : Prop where
  blank : b.recorder.tb [] = none
  absent : ∀ i, tables i = none → b.tableNm i = [] ∧ e.table b.recorder.db (quoted (names i)) = none
  present : ∀ i table, tables i = some table → b.tableNm i = quoted (names i) ∧ Keeps b.recorder (quoted (names i)) table ∧
    ∀ row ∈ table, Fits row

theorem quoted_isName {name : Text} (free : '"' ∉ name) : IsName (quoted name) := Or.inr ⟨name,free,rfl⟩

theorem quoted_ne_nil (name : Text) : quoted name ≠ [] := List.cons_ne_nil _ _

/-- A table of its own does not care for what is done beside it. -/
theorem Keeps.beside {r s : Recorder e} {tbNm other : Text} {table : List MemRow} (keeps : Keeps r other table)
    (apart : Apart tbNm other) (beside : r.Beside tbNm s) : Keeps s other table :=
  ⟨(beside.tb other apart.ne).trans keeps.1,(beside.table other apart).trans keeps.2⟩

theorem Mirrors.update {names : ι → Text} (named : Named reserved names) {b : Bench e ι} {tables : Tables ι}
    (mirrors : Mirrors names b tables) {i : ι} {recorder : Recorder e} {table : List MemRow}
    (beside : b.recorder.Beside (quoted (names i)) recorder) (keeps : Keeps recorder (quoted (names i)) table)
    (fits : ∀ row ∈ table, Fits row) :
    Mirrors names ⟨recorder,Function.update b.tableNm i (quoted (names i))⟩ (Function.update tables i (some table)) where
  blank := (beside.tb [] (quoted_ne_nil _).symm).trans mirrors.blank
  absent := by
    intro j missing
    by_cases same : j = i
    · subst same
      rw [Function.update_self] at missing
      exact absurd missing (by simp)
    · rw [Function.update_of_ne same] at missing
      obtain ⟨unnamed,absent⟩ := mirrors.absent j missing
      exact ⟨(Function.update_of_ne same ..).trans unnamed,
        (beside.table _ (named.apart i j (Ne.symm same))).trans absent⟩
  present := by
    intro j other found
    by_cases same : j = i
    · subst same
      rw [Function.update_self] at found
      obtain rfl := Option.some.inj found
      exact ⟨Function.update_self ..,keeps,fits⟩
    · rw [Function.update_of_ne same] at found
      obtain ⟨name,kept,small⟩ := mirrors.present j other found
      exact ⟨(Function.update_of_ne same ..).trans name,kept.beside (named.apart i j (Ne.symm same)) beside,small⟩

theorem preDo_mirrors (relational : e.Relational reserved) {names : ι → Text} (named : Named reserved names)
    {b : Bench e ι} {tables : Tables ι} (mirrors : Mirrors names b tables) (i : ι) :
    ∃ b', b.preDo names i = some b' ∧ Mirrors names b' (tables.begun i) := by
  cases known : tables i with
  | none =>
    obtain ⟨unnamed,absent⟩ := mirrors.absent i known
    obtain ⟨recorder,created,beside,keeps⟩ :=
      createTable_spec relational (quoted_isName (named.unquoted i)) (named.free i) named.columns absent
    refine ⟨_,by rw [Bench.preDo,if_pos unnamed,created]; rfl,?_⟩
    rw [Tables.begun,known]
    exact mirrors.update named beside keeps fun row member => absurd member List.not_mem_nil
  | some table =>
    have begun : tables.begun i = tables := by
      rw [Tables.begun,known]
      exact Function.update_eq_self_iff.mpr known.symm
    have name := (mirrors.present i table known).1
    exact ⟨b,by rw [Bench.preDo,if_neg (name ▸ quoted_ne_nil _)],begun.symm ▸ mirrors⟩

/-- Without a table, the calls are warnings. -/
theorem memStoreByteCb_blank {w : Nat} {r : Recorder e} (blank : r.tb [] = none) (addr : BitVec w) (data : BitVec 8)
    (cyc : Nat) : memStoreByteCb r [] addr data cyc = some r := by
  have change (f : Table → Table) : r.change [] f = r := by
    have same : Function.update r.tb [] ((r.tb []).map f) = r.tb := by
      rw [blank]
      exact Function.update_eq_self_iff.mpr blank.symm
    rw [Recorder.change,same]
  have exec : r.execValue [] = some r := by rw [Recorder.execValue,Recorder.exec,blank]
  simp only [memStoreByteCb,storeCalls,List.foldlM_cons,List.foldlM_nil,Recorder.call,Recorder.insertValue,
    Recorder.flushValue,change,exec,Option.bind_eq_bind,Option.bind_some]
  rfl

theorem memStoreByteCb_mirrors (relational : e.Relational reserved) {names : ι → Text} (named : Named reserved names)
    {b : Bench e ι} {tables : Tables ι} (mirrors : Mirrors names b tables) {i : ι} {addr : BitVec (aw i)}
    {data : BitVec 8} {cyc : Nat} (narrow : aw i < 64) (early : cyc < 2^63) :
    ∃ recorder, memStoreByteCb b.recorder (b.tableNm i) addr data cyc = some recorder ∧
      Mirrors names {b with recorder} (tables.put i ⟨addr.toNat,.wr,data,cyc⟩) := by
  cases known : tables i with
  | none =>
    have unnamed := (mirrors.absent i known).1
    have put (row : MemRow) : tables.put i row = tables := by
      rw [Tables.put,known]
      exact Function.update_eq_self_iff.mpr known.symm
    exact ⟨b.recorder,by rw [unnamed,memStoreByteCb_blank mirrors.blank],(put _).symm ▸ mirrors⟩
  | some table =>
    obtain ⟨name,keeps,small⟩ := mirrors.present i table known
    have fits : Fits ⟨addr.toNat,.wr,data,cyc⟩ :=
      ⟨addr.isLt.trans_le (Nat.pow_le_pow_right (by decide) (by omega)),early⟩
    obtain ⟨recorder,stored,beside,keeps'⟩ :=
      memStoreByteCb_spec relational (quoted_isName (named.unquoted i)) keeps fits
    refine ⟨recorder,name ▸ stored,?_⟩
    have updated := mirrors.update named beside keeps' fun row member => by
      rcases List.mem_append.mp member with old | last
      · exact small row old
      · exact List.mem_singleton.mp last ▸ fits
    have same : Function.update b.tableNm i (quoted (names i)) = b.tableNm := Function.update_eq_self_iff.mpr name.symm
    rw [same] at updated
    rw [Tables.put,known]
    exact updated

theorem run_conforms (relational : e.Relational reserved) {names : ι → Text} (named : Named reserved names)
    (narrow : ∀ i, aw i < 64) {actions : List (Action ι aw dw)} {b : Bench e ι} {tables : Tables ι}
    (mirrors : Mirrors names b tables) (started : Started tables actions) (fits : ∀ a ∈ actions, a.Fits) :
    ∃ b' verdicts, b.run names actions = some (b',verdicts) ∧ Conforms tables actions verdicts ∧
      (e.Stable → verdicts = verdictsOf tables actions) := by
  induction actions generalizing b tables with
  | nil => exact ⟨b,[],rfl,.nil tables,fun _ => rfl⟩
  | cons a rest ih =>
    obtain ⟨fit,later⟩ := List.forall_mem_cons.mp fits
    cases a with
    | preDo i =>
      obtain ⟨next,begun,mirrors'⟩ := preDo_mirrors relational named mirrors i
      have started' : Started (tables.begun i) rest := by
        refine started.step (fun j here => ?_) fun j same => ?_
        · by_cases same : j = i
          · subst same
            rw [Tables.begun,Function.update_self]
            rfl
          · rwa [Tables.begun,Function.update_of_ne same]
        · cases same
          rw [Tables.begun,Function.update_self]
          rfl
      obtain ⟨last,verdicts,ran,conforms,stable⟩ := ih mirrors' started' later
      refine ⟨last,verdicts,?_,.preDo conforms,stable⟩
      rw [Bench.run,begun]
      exact ran
    | memStoreByteCb i addr data cyc =>
      obtain ⟨recorder,stored,mirrors'⟩ := memStoreByteCb_mirrors relational named mirrors (narrow i) fit
      have started' : Started (tables.put i ⟨addr.toNat,.wr,data,cyc⟩) rest := by
        refine started.step (fun j here => ?_) fun j same => absurd same (by simp)
        by_cases same : j = i
        · subst same
          rwa [Tables.put,Function.update_self,Option.isSome_map]
        · rwa [Tables.put,Function.update_of_ne same]
      obtain ⟨last,verdicts,ran,conforms,stable⟩ := ih mirrors' started' later
      refine ⟨last,verdicts,?_,.memStoreByteCb conforms,stable⟩
      rw [Bench.run,stored]
      exact ran
    | compare i item =>
      have here : (tables i).isSome = true :=
        (started 0 i item rfl).resolve_right List.not_mem_nil
      obtain ⟨table,known⟩ := Option.isSome_iff_exists.mp here
      obtain ⟨-,keeps,small⟩ := mirrors.present i table known
      obtain ⟨recorder,pick,compared,tb,db,latest,steady⟩ :=
        compare_spec relational (quoted_isName (named.unquoted i)) keeps small (narrow i) fit
      have mirrors' : Mirrors names {b with recorder} tables := by
        refine ⟨by rw [tb]; exact mirrors.blank,by rw [db]; exact mirrors.absent,?_⟩
        unfold Keeps
        rw [tb,db]
        exact mirrors.present
      obtain ⟨last,verdicts,ran,conforms,stable⟩ :=
        ih mirrors' (started.step (fun _ => id) fun _ same => absurd same (by simp)) later
      refine ⟨last,item.compare (rebuiltBy pick item)::verdicts,?_,.compare known latest conforms,fun here => ?_⟩
      · rw [Bench.run,compared,Option.bind_eq_bind,Option.bind_some]
        simp only [ran,Option.bind_eq_bind,Option.bind_some]
      · rw [verdictsOf,steady @here,stable @here,known,Option.getD_some]

end Run

/-! ## A run -/

def seqrNames (i : Bool) : Text := if i then "slave_agent[1].seqr".toList else "slave_agent[0].seqr".toList

/-- Two bytes written at an address. -/
def twoBytes : SequenceItem 14 16 where
  trsT := .wr
  addrs := [0x40]
  dataBeat := [fun i => if i.val = 0 then 0x11 else 0x22]
  bytenBeat := [fun _ => 1]
  offset := 2

/-- The bytes are stored in one memory, and one of them in the other. -/
def twoMemories : List (Action Bool (fun _ => 14) fun _ => 16) :=
  [.preDo false,.memStoreByteCb false 0x40 0x11 5,.preDo true,.memStoreByteCb false 0x41 0x22 5,
    .memStoreByteCb true 0x40 0x11 6,.preDo false,.compare false twoBytes,.compare true twoBytes]

end Smtdv.Sqlite3
