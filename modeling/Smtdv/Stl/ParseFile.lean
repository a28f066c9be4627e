import Smtdv.Stl.Replay
import Smtdv.Stl.Scanner
import Smtdv.Stl.Sentence

/-! `dpi_smtdv_parse_file`, called for one file after another: the scanner keeps its buffer, and the
parser its transfers, from each call to the next. -/
namespace Smtdv.Stl
open Lib.Flex

/-- The actions of a file, with a new mailbox. -/
def Parser.run (s : Parser) (program : Program) : Parser :=
  program.stmts.foldl Parser.stmt {s with mb := {instName := program.instName.text}}

/-- The transfers of the mailbox, in order. -/
def Parser.transfers (s : Parser) : List Transfer := s.mb.mVec.map s.heap.get

/-- The static data of the scanner and of the parser. There is no mailbox before the first call. -/
structure State where
  scanner : Scanner Char := {}
  parser : Parser := {mb := {instName := []}}

/-- A syntax error ends the program. -/
def yyparse (s : State) : Option State :=
  (programOf (s.scanner.yylexAll rules).1).map fun program =>
    {scanner := (s.scanner.yylexAll rules).2, parser := s.parser.run program}

/-- `do yyparse(); while (!feof(yyin));` -/
def parseLoop : Nat → State → Option State
  | 0,_ => none
  | turns+1,s =>
    match yyparse s with
    | none => none
    | some s => if s.scanner.eof then some s else parseLoop turns s

/-- `yyin = file;`, whatever is left in the buffer. -/
def opened (s : Scanner Char) (file : List Char) : Scanner Char := {s with file, eof := false}

/-- Each turn uses up a character at least. -/
def parseFile (s : State) (file : List Char) : Option State :=
  parseLoop ((opened s.scanner file).text.length+1) {s with scanner := opened s.scanner file}

/-! ## What a file is -/

/-- The whole content of the file is a sentence of the grammar. -/
def Derives (file : List Char) (program : Program) : Prop := Lexes rules file program.tokens none

def Sentence (file : List Char) : Prop := ∃ program : Program, Derives file program

/-- After lines that are a sentence, a line begins with a character that no rule of the grammar
takes. -/
def Cut (text : List Char) : Prop := ∃ (program : Program) (rest : List Char), Lexes rules text program.tokens (some rest)

/-- The text is cut, and there it has been read to its end, or its rest is a sentence or is swallowed
in turn. -/
inductive Swallowed : Scanner Char → Prop
  | atEnd {s : Scanner Char} : Cut s.text → (s.yylexAll rules).2.eof = true → Swallowed s
  | sentence {s : Scanner Char} : Cut s.text → Sentence (s.yylexAll rules).2.text → Swallowed s
  | again {s : Scanner Char} : Cut s.text → Swallowed (s.yylexAll rules).2 → Swallowed s

/-- The call returns the transfers of the whole file, or the file is no sentence. -/
def Exact (s : State) (file : List Char) : Prop :=
  match parseFile s file with
  | none => ¬Sentence file
  | some s' => ∃ program, Derives file program ∧ s'.parser.transfers = program.bodies.map SubBodyStmt.transfer

/-- Whatever calls have been made before. -/
def Isolated (files : List (List Char)) : Prop :=
  ∀ front file back, files = front ++ file::back → ∀ s, front.foldlM parseFile {} = some s → Exact s file

/-- Nothing is left of an earlier file. -/
structure Fresh (s : Scanner Char) : Prop where
  size : 16384 ≤ s.size
  buf : s.buf = []
  pending : s.pending = false

/-! ## The mailbox -/

theorem Parser.transfers_run (s : Parser) (program : Program) :
    (s.run program).transfers = program.bodies.map SubBodyStmt.transfer := by
  have lines (stmts : List Stmt) (s : Parser) (inside : ∀ trx ∈ s.mb.mVec, trx < s.heap.next) :
      (stmts.foldl Parser.stmt s).transfers =
        s.transfers ++ (Program.bodies ⟨program.instName,stmts⟩).map SubBodyStmt.transfer := by
    induction stmts generalizing s with
    | nil => simp [Program.bodies]
    | cons line rest ih =>
      cases line with
      | header header => exact ih s inside
      | blank => exact ih s inside
      | body body =>
        rw [List.foldl_cons,Parser.stmt_body,ih]
        · have kept : s.mb.mVec.map (s.heap.alloc body.transfer).get = s.transfers :=
            List.map_congr_left fun trx member => Lib.Heap.alloc_get_ne _ _ (Nat.ne_of_lt (inside trx member))
          simp only [Parser.transfers,MailBox.push,List.map_append,kept,List.map_cons,List.map_nil,
            Lib.Heap.alloc_get_next,List.append_assoc,List.singleton_append]
          rfl
        · intro trx member
          simp only [MailBox.push,List.mem_append,List.mem_singleton] at member
          rw [Lib.Heap.alloc_next]
          rcases member with old | rfl
          · exact Nat.lt_succ_of_lt (inside trx old)
          · exact Nat.lt_succ_self _
  exact lines program.stmts {s with mb := {instName := program.instName.text}} (by simp)

/-! ## One call -/

theorem Fresh.valid {s : Scanner Char} (fresh : Fresh s) (file : List Char) : (opened s file).Valid where
  room := by rw [opened,fresh.buf]; exact Nat.zero_le _
  size := fresh.size
  pending := by simp [opened,fresh.pending]

theorem Fresh.text {s : Scanner Char} (fresh : Fresh s) (file : List Char) : (opened s file).text = file := by
  rw [Scanner.text,opened,fresh.buf,List.nil_append]

theorem fresh_of_clean {s : Scanner Char} (clean : s.Clean) : Fresh s := ⟨clean.size,clean.buf,clean.pending⟩

theorem not_sentence_of_cut {text : List Char} (cut : Cut text) : ¬Sentence text := by
  obtain ⟨program,rest,lexes⟩ := cut
  rintro ⟨other,derives⟩
  exact absurd (lexes.unique derives).2 (by simp)

/-- What a call of `yyparse` comes to: a sentence that ends with the file, one that ends at a cut, or a
syntax error. -/
theorem yyparse_cases {s : State} (valid : s.scanner.Valid) :
    (∃ program, Derives s.scanner.text program ∧ (s.scanner.yylexAll rules).2.Clean ∧
      yyparse s = some ⟨(s.scanner.yylexAll rules).2,s.parser.run program⟩) ∨
    (∃ program, Cut s.scanner.text ∧ (s.scanner.yylexAll rules).2.Valid ∧
      (s.scanner.yylexAll rules).2.text.length < s.scanner.text.length ∧
      yyparse s = some ⟨(s.scanner.yylexAll rules).2,s.parser.run program⟩) ∨
    (¬Sentence s.scanner.text ∧ ¬Cut s.scanner.text ∧ yyparse s = none) := by
  obtain ⟨ts,left,lexes⟩ := Lexes.exists_lexes rules s.scanner.text
  obtain ⟨tokens,remains⟩ := Scanner.yylexAll_lexes valid lexes
  unfold yyparse
  rw [tokens]
  cases parsed : programOf ts with
  | none =>
    have error (program : Program) : program.tokens ≠ ts := fun same =>
      absurd ((programOf_eq_some_iff.mpr same).symm.trans parsed) (by simp)
    refine Or.inr (Or.inr ⟨?_,?_,rfl⟩)
    · rintro ⟨program,derives⟩
      exact error program (derives.unique lexes).1
    · rintro ⟨program,rest,cut⟩
      exact error program (cut.unique lexes).1
  | some program =>
    obtain rfl := programOf_eq_some_iff.mp parsed
    cases left with
    | none => exact Or.inl ⟨program,lexes,remains,rfl⟩
    | some rest =>
      obtain ⟨valid',rfl⟩ := remains
      exact Or.inr (Or.inl ⟨program,⟨program,_,lexes⟩,valid',lexes.length_lt rfl,rfl⟩)

/-- The calls of `yyparse` come to their end at the end of a sentence, or swallow the text. -/
theorem parseLoop_isSome_iff {turns : Nat} {s : State} (valid : s.scanner.Valid)
    (enough : s.scanner.text.length < turns) :
    (parseLoop turns s).isSome ↔ Sentence s.scanner.text ∨ Swallowed s.scanner := by
  induction turns generalizing s with
  | zero => exact absurd enough (Nat.not_lt_zero _)
  | succ turns ih =>
    rw [parseLoop]
    rcases yyparse_cases valid with ⟨program,derives,clean,parsed⟩ | ⟨program,cut,valid',less,parsed⟩ |
      ⟨noSentence,uncut,failed⟩
    · simp only [parsed,clean.eof,↓reduceIte,Option.isSome_some,true_iff]
      exact Or.inl ⟨program,derives⟩
    · have noSentence := not_sentence_of_cut cut
      rw [parsed]
      dsimp only
      split
      · rename_i ended
        exact ⟨fun _ => Or.inr (.atEnd cut ended),fun _ => rfl⟩
      · rename_i more
        rw [ih valid' (Nat.lt_of_lt_of_le less (Nat.le_of_lt_succ enough))]
        constructor
        · rintro (sentence | swallowed)
          · exact Or.inr (.sentence cut sentence)
          · exact Or.inr (.again cut swallowed)
        · rintro (sentence | swallowed)
          · exact absurd sentence noSentence
          · cases swallowed with
            | atEnd _ ended => exact absurd ended more
            | sentence _ sentence => exact Or.inl sentence
            | again _ swallowed => exact Or.inr swallowed
    · rw [failed]
      simp only [Option.isSome_none,Bool.false_eq_true,false_iff]
      rintro (sentence | swallowed)
      · exact noSentence sentence
      · cases swallowed <;> contradiction

/-- A sentence is read to its end and leaves nothing behind. -/
theorem parseFile_sentence {s : State} {file : List Char} (fresh : Fresh s.scanner) (sentence : Sentence file) :
    ∃ scanner program, Derives file program ∧ Fresh scanner ∧
      parseFile s file = some {scanner, parser := s.parser.run program} := by
  have text := fresh.text file
  rcases yyparse_cases (s := {s with scanner := opened s.scanner file}) (fresh.valid file) with
    ⟨program,derives,clean,parsed⟩ | ⟨program,cut,-⟩ | ⟨noSentence,-⟩
  · refine ⟨_,program,text ▸ derives,fresh_of_clean clean,?_⟩
    rw [parseFile,parseLoop,parsed]
    exact if_pos clean.eof
  · exact absurd sentence (not_sentence_of_cut (text ▸ cut))
  · exact absurd (text.symm ▸ sentence) noSentence

theorem exact_iff {s : State} {file : List Char} (fresh : Fresh s.scanner) :
    Exact s file ↔ ¬Swallowed (opened s.scanner file) := by
  have text := fresh.text file
  unfold Exact
  by_cases sentence : Sentence file
  · obtain ⟨scanner,program,derives,-,returned⟩ := parseFile_sentence fresh sentence
    rw [returned]
    refine iff_of_true ⟨program,derives,Parser.transfers_run s.parser program⟩ fun swallowed => ?_
    have cut : Cut (opened s.scanner file).text := by cases swallowed <;> assumption
    exact not_sentence_of_cut (text ▸ cut) sentence
  · have returns := parseLoop_isSome_iff (s := {s with scanner := opened s.scanner file}) (fresh.valid file)
      (Nat.lt_succ_self _)
    have returns : (parseFile s file).isSome ↔ Swallowed (opened s.scanner file) := by
      rw [parseFile,returns,text]
      exact or_iff_right sentence
    rw [← returns]
    cases parseFile s file with
    | none => simp [sentence]
    | some s' =>
      refine iff_of_false ?_ (by simp)
      rintro ⟨program,derives,-⟩
      exact sentence ⟨program,derives⟩

/-! ## Calls -/

/-- As long as each call is exact, nothing is left for the next. -/
theorem fresh_of_exact {front : List (List Char)} {s s' : State} (fresh : Fresh s.scanner)
    (exact : ∀ before file after, front = before ++ file::after → ∀ t, before.foldlM parseFile s = some t →
      Fresh t.scanner → Exact t file)
    (ran : front.foldlM parseFile s = some s') : Fresh s'.scanner := by
  induction front generalizing s with
  | nil =>
    obtain rfl := Option.some.inj ran
    exact fresh
  | cons file front ih =>
    simp only [List.foldlM_cons,Option.bind_eq_bind] at ran
    obtain ⟨next,returned,ran⟩ := Option.bind_eq_some_iff.mp ran
    have first := exact [] file front rfl s rfl fresh
    rw [Exact,returned] at first
    obtain ⟨program,derives,-⟩ := first
    obtain ⟨scanner,program,-,fresh',same⟩ := parseFile_sentence fresh ⟨program,derives⟩
    obtain rfl := Option.some.inj (returned.symm.trans same)
    refine ih fresh' (fun before other after shape t reached => ?_) ran
    apply exact (file::before) other after (by rw [shape,List.cons_append])
    rw [List.foldlM_cons,returned]
    exact reached

theorem fresh_start : Fresh (State.scanner {}) := ⟨Nat.le_refl _,rfl,rfl⟩

theorem isolated_iff (files : List (List Char)) :
    Isolated files ↔ ∀ front file back, files = front ++ file::back → ∀ s, front.foldlM parseFile {} = some s →
      ¬Swallowed (opened s.scanner file) := by
  constructor
  · rintro isolated front file back rfl s ran
    have fresh := fresh_of_exact fresh_start (fun before other after shape t reached _ =>
      isolated before other (after ++ file::back) (by simp [shape]) t reached) ran
    exact (exact_iff fresh).mp (isolated front file back rfl s ran)
  · rintro unswallowed front file back rfl s ran
    have fresh := fresh_of_exact fresh_start (fun before other after shape t reached fresh =>
      (exact_iff fresh).mpr (unswallowed before other (after ++ file::back) (by simp [shape]) t reached)) ran
    exact (exact_iff fresh).mpr (unswallowed front file back rfl s ran)

/-- `$` is on the line after the instance line. -/
def cutFile : List Char := "# n\n$ff\n".toList

theorem cut_cutFile : Cut cutFile :=
  ⟨⟨⟨['n'],by decide,by decide,by decide,by decide⟩,[]⟩,"ff\n".toList,
    .token rfl (.skip rfl (.token rfl (.token rfl (.stop rfl))))⟩

theorem not_isolated_cutFile : ¬Isolated [cutFile] := by
  intro isolated
  have exact := isolated [] cutFile [] rfl {} rfl
  have returned : (parseFile {} cutFile).isSome := by decide
  obtain ⟨s,returned⟩ := Option.isSome_iff_exists.mp returned
  rw [Exact,returned] at exact
  obtain ⟨program,derives,-⟩ := exact
  exact not_sentence_of_cut cut_cutFile ⟨program,derives⟩

/-! ## Short files -/

/-- A file of less than a block is swallowed wherever it is cut. -/
theorem swallowed_iff_cut {s : Scanner Char} {file : List Char} (fresh : Fresh s) (short : file.length < 8192) :
    Swallowed (opened s file) ↔ Cut file := by
  constructor
  · intro swallowed
    have cut : Cut (opened s file).text := by cases swallowed <;> assumption
    exact fresh.text file ▸ cut
  · intro cut
    exact .atEnd ((fresh.text file).symm ▸ cut)
      (Scanner.yylexAll_eof rules (fresh.valid file) fresh.buf fresh.pending short)

end Smtdv.Stl
