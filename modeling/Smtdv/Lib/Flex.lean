import Mathlib.Data.List.Basic

/-! Scanners generated by flex: rules that are matched on a buffer, which is filled in blocks from a
file, and the agreement of such a scanner with the rules on the whole text. -/
namespace Smtdv.Lib.Flex

/-- What the action of a rule does: nothing, return a token, or `yyterminate`. -/
inductive Lexeme (τ : Type*)
  | skip
  | token (t : τ)
  | stop

/-- The longest match at the front of a text, with the text after it. A text that may go on has no
match as long as what follows could change it. -/
structure Rules (α τ : Type*) where
  scan : Bool → List α → Option (Lexeme τ × List α)
  empty : scan true [] = none
  total : ∀ text, text ≠ [] → (scan true text).isSome
  shorter : ∀ {atEnd text x rest}, scan atEnd text = some (x,rest) → rest.length < text.length
  stable : ∀ {front x rest}, scan false front = some (x,rest) →
    ∀ back, scan true (front ++ back) = some (x,rest ++ back)

variable {α τ : Type*}

/-! ## The rules on a whole text -/

/-- The tokens of a text up to its end, or up to a match that stops, with the text after it. -/
inductive Lexes (rules : Rules α τ) : List α → List τ → Option (List α) → Prop
  | nil : Lexes rules [] [] none
  | skip {text rest ts left} : rules.scan true text = some (.skip,rest) → Lexes rules rest ts left →
      Lexes rules text ts left
  | token {text rest t ts left} : rules.scan true text = some (.token t,rest) → Lexes rules rest ts left →
      Lexes rules text (t::ts) left
  | stop {text rest} : rules.scan true text = some (.stop,rest) → Lexes rules text [] (some rest)

namespace Lexes

variable {rules : Rules α τ}

theorem exists_lexes (rules : Rules α τ) (text : List α) : ∃ ts left, Lexes rules text ts left := by
  induction size : text.length using Nat.strongRecOn generalizing text with
  | ind n ih =>
    by_cases nonempty : text = []
    · subst nonempty
      exact ⟨[],none,.nil⟩
    · obtain ⟨⟨x,rest⟩,found⟩ := Option.isSome_iff_exists.mp (rules.total text nonempty)
      obtain ⟨ts,left,later⟩ := ih rest.length (size ▸ rules.shorter found) rest rfl
      cases x with
      | skip => exact ⟨ts,left,.skip found later⟩
      | token t => exact ⟨t::ts,left,.token found later⟩
      | stop => exact ⟨[],some rest,.stop found⟩

theorem of_nil {ts : List τ} {left : Option (List α)} (lexes : Lexes rules [] ts left) : ts = [] ∧ left = none := by
  cases lexes with
  | nil => exact ⟨rfl,rfl⟩
  | skip found => exact absurd (rules.empty.symm.trans found) (by simp)
  | token found => exact absurd (rules.empty.symm.trans found) (by simp)
  | stop found => exact absurd (rules.empty.symm.trans found) (by simp)

theorem of_skip {text rest : List α} {ts : List τ} {left : Option (List α)} (lexes : Lexes rules text ts left)
    (found : rules.scan true text = some (.skip,rest)) : Lexes rules rest ts left := by
  cases lexes with
  | nil => exact absurd (rules.empty.symm.trans found) (by simp)
  | skip found' later =>
    obtain ⟨-,rfl⟩ := Prod.mk.inj (Option.some.inj (found.symm.trans found'))
    exact later
  | token found' => exact absurd (found.symm.trans found') (by simp)
  | stop found' => exact absurd (found.symm.trans found') (by simp)

theorem of_token {text rest : List α} {t : τ} {ts : List τ} {left : Option (List α)} (lexes : Lexes rules text ts left)
    (found : rules.scan true text = some (.token t,rest)) : ∃ us, ts = t::us ∧ Lexes rules rest us left := by
  cases lexes with
  | nil => exact absurd (rules.empty.symm.trans found) (by simp)
  | skip found' => exact absurd (found.symm.trans found') (by simp)
  | token found' later =>
    have same := Option.some.inj (found.symm.trans found')
    simp only [Prod.mk.injEq,Lexeme.token.injEq] at same
    obtain ⟨rfl,rfl⟩ := same
    exact ⟨_,rfl,later⟩
  | stop found' => exact absurd (found.symm.trans found') (by simp)

theorem of_stop {text rest : List α} {ts : List τ} {left : Option (List α)} (lexes : Lexes rules text ts left)
    (found : rules.scan true text = some (.stop,rest)) : ts = [] ∧ left = some rest := by
  cases lexes with
  | nil => exact absurd (rules.empty.symm.trans found) (by simp)
  | skip found' => exact absurd (found.symm.trans found') (by simp)
  | token found' => exact absurd (found.symm.trans found') (by simp)
  | stop found' =>
    obtain ⟨-,rfl⟩ := Prod.mk.inj (Option.some.inj (found.symm.trans found'))
    exact ⟨rfl,rfl⟩

theorem unique {text : List α} {ts us : List τ} {left right : Option (List α)} (lexes : Lexes rules text ts left)
    (lexes' : Lexes rules text us right) : ts = us ∧ left = right := by
  induction lexes generalizing us with
  | nil =>
    obtain ⟨rfl,rfl⟩ := lexes'.of_nil
    exact ⟨rfl,rfl⟩
  | skip found _ ih => exact ih (lexes'.of_skip found)
  | token found _ ih =>
    obtain ⟨vs,rfl,later⟩ := lexes'.of_token found
    obtain ⟨rfl,rfl⟩ := ih later
    exact ⟨rfl,rfl⟩
  | stop found =>
    obtain ⟨rfl,rfl⟩ := lexes'.of_stop found
    exact ⟨rfl,rfl⟩

/-- What is left where a match stops is less than the text. -/
theorem length_lt {text rest : List α} {ts : List τ} {left : Option (List α)} (lexes : Lexes rules text ts left)
    (stopped : left = some rest) : rest.length < text.length := by
  induction lexes with
  | nil => exact absurd stopped (by simp)
  | skip found _ ih => exact Nat.lt_trans (ih stopped) (rules.shorter found)
  | token found _ ih => exact Nat.lt_trans (ih stopped) (rules.shorter found)
  | stop found =>
    obtain rfl := Option.some.inj stopped
    exact rules.shorter found

end Lexes

/-! ## The scanner -/

/-- The characters of the buffer that are not matched yet, with the size of the buffer; whether the
end of the file is pending; and `yyin`, with what is not read of it and its end-of-file indicator. -/
structure Scanner (α : Type*) where
  buf : List α := []
  size : Nat := 16384
  pending : Bool := false
  file : List α := []
  eof : Bool := false

namespace Scanner

/-- What is still to be matched. -/
def text (s : Scanner α) : List α := s.buf ++ s.file

/-- `fread` of so many characters: with fewer of them left the end-of-file indicator is set. -/
def fread (s : Scanner α) (room : Nat) : Scanner α :=
  {s with buf := s.buf ++ s.file.take room, file := s.file.drop room, eof := s.eof || decide (s.file.length < room)}

/-- The size of the buffer when it is filled: it is doubled if what is kept fills it. -/
def grown (s : Scanner α) : Nat := if s.size ≤ s.buf.length+1 then 2*s.size else s.size

/-- `yy_get_next_buffer`: the characters of the match so far are kept, and a block is read after
them. If there is nothing to read but something is kept, the end of the file is pending, and no more
is read. -/
def getNextBuffer (s : Scanner α) : Scanner α :=
  if s.pending then s
  else
    {s.fread (min 8192 (s.grown-s.buf.length-1)) with
      size := s.grown, pending := s.file.isEmpty && !s.buf.isEmpty}

/-- What is kept is matched as it is, or with nothing kept the scanner is restarted. -/
def lastMatch (rules : Rules α τ) (s : Scanner α) : Lexeme τ × Scanner α :=
  match rules.scan true s.buf with
  | some (x,rest) => (x,{s.getNextBuffer with buf := rest})
  | none => (.stop,{s.getNextBuffer with buf := [], pending := false})

/-- One match, or one block where a match needs more. -/
def step (rules : Rules α τ) (s : Scanner α) : Lexeme τ × Scanner α :=
  match rules.scan false s.buf with
  | some (x,rest) => (x,{s with buf := rest})
  | none => if s.buf.length < s.getNextBuffer.buf.length then (.skip,s.getNextBuffer) else s.lastMatch rules

def work (s : Scanner α) : Nat := 2*s.file.length+s.buf.length

/-- The tokens that the calls of `yylex` return up to the one that returns 0. -/
def drain (rules : Rules α τ) : Nat → Scanner α → List τ × Scanner α
  | 0,s => ([],s)
  | fuel+1,s =>
    match s.step rules with
    | (.skip,s') => drain rules fuel s'
    | (.token t,s') => ((t::(drain rules fuel s').1),(drain rules fuel s').2)
    | (.stop,s') => ([],s')

def yylexAll (rules : Rules α τ) (s : Scanner α) : List τ × Scanner α := drain rules (s.work+1) s

/-- The buffer has room for what is kept, and nothing is left to read while the end is pending. -/
structure Valid (s : Scanner α) : Prop where
  room : s.buf.length ≤ s.size
  size : 16384 ≤ s.size
  pending : s.pending → s.file = [] ∧ s.eof = true

/-- A scanner that has met the end of its file. -/
structure Clean (s : Scanner α) : Prop where
  size : 16384 ≤ s.size
  buf : s.buf = []
  file : s.file = []
  eof : s.eof = true
  pending : s.pending = false

variable {rules : Rules α τ} {s : Scanner α}

theorem room_grown (valid : s.Valid) : s.buf.length+1 < s.grown ∧ s.size ≤ s.grown := by
  have room := valid.room
  have size := valid.size
  unfold grown
  split <;> omega

theorem getNextBuffer_text (s : Scanner α) : s.getNextBuffer.text = s.text := by
  unfold getNextBuffer
  split
  · rfl
  · simp [text,fread]

theorem getNextBuffer_valid (valid : s.Valid) : s.getNextBuffer.Valid := by
  unfold getNextBuffer
  split
  · exact valid
  · obtain ⟨room,larger⟩ := room_grown valid
    have size := valid.size
    refine ⟨?_,Nat.le_trans size larger,?_⟩
    · simp only [fread,List.length_append,List.length_take]
      omega
    · intro pending
      have empty : s.file = [] := by simpa using (Bool.and_eq_true_iff.mp pending).1
      simp only [fread,empty,List.drop_nil,List.length_nil,true_and,Bool.or_eq_true,decide_eq_true_eq]
      exact Or.inr (by omega)

/-- Without a new character nothing is left to read, and the end-of-file indicator is set. -/
theorem getNextBuffer_none (valid : s.Valid) (none : ¬s.buf.length < s.getNextBuffer.buf.length) :
    s.file = [] ∧ s.getNextBuffer.file = [] ∧ s.getNextBuffer.eof = true := by
  unfold getNextBuffer at none ⊢
  split
  · rename_i pending
    obtain ⟨file,eof⟩ := valid.pending pending
    exact ⟨file,file,eof⟩
  · rename_i pending
    obtain ⟨room,-⟩ := room_grown valid
    rw [if_neg pending] at none
    simp only [fread,List.length_append,List.length_take] at none ⊢
    have empty : s.file.length = 0 := by omega
    have empty := List.length_eq_zero_iff.mp empty
    simp only [empty,List.drop_nil,List.length_nil,true_and,Bool.or_eq_true,decide_eq_true_eq]
    exact Or.inr (by omega)

theorem getNextBuffer_work (more : s.buf.length < s.getNextBuffer.buf.length) : s.getNextBuffer.work < s.work := by
  have same := congrArg List.length s.getNextBuffer_text
  simp only [text,List.length_append] at same
  unfold work
  omega

theorem getNextBuffer_size (valid : s.Valid) : s.size ≤ s.getNextBuffer.size := by
  unfold getNextBuffer
  split
  · exact Nat.le_refl _
  · exact (room_grown valid).2

/-- What a scanner has come to when it returns 0: the end of the file, or a match that stops. -/
def Left (s : Scanner α) : Option (List α) → Prop
  | none => s.Clean
  | some rest => s.Valid ∧ s.text = rest

theorem Valid.rest (valid : s.Valid) {rest : List α} (shorter : rest.length < s.buf.length) :
    Valid {s with buf := rest} where
  room := Nat.le_trans (Nat.le_of_lt shorter) valid.room
  size := valid.size
  pending := valid.pending

theorem getNextBuffer_clean (valid : s.Valid) (none : ¬s.buf.length < s.getNextBuffer.buf.length) :
    Clean {s.getNextBuffer with buf := [], pending := false} where
  size := Nat.le_trans valid.size (getNextBuffer_size valid)
  buf := rfl
  file := (getNextBuffer_none valid none).2.1
  eof := (getNextBuffer_none valid none).2.2
  pending := rfl

/-- A step finds that the text is at its end, or reads a block, or makes the match of the whole text. -/
theorem step_cases (rules : Rules α τ) (valid : s.Valid) :
    (s.text = [] ∧ (s.step rules).1 = .stop ∧ (s.step rules).2.Clean) ∨
      (s.step rules).2.Valid ∧ (s.step rules).2.work < s.work ∧
        ((s.step rules).1 = .skip ∧ (s.step rules).2.text = s.text ∨
          rules.scan true s.text = some ((s.step rules).1,(s.step rules).2.text)) := by
  unfold step
  split
  · rename_i x rest found
    have shorter := rules.shorter found
    refine Or.inr ⟨valid.rest shorter,?_,Or.inr (rules.stable found s.file)⟩
    simp only [work]
    omega
  · split
    · rename_i more
      exact Or.inr ⟨getNextBuffer_valid valid,getNextBuffer_work more,Or.inl ⟨rfl,getNextBuffer_text s⟩⟩
    · rename_i stuck
      obtain ⟨file,file',eof⟩ := getNextBuffer_none valid stuck
      have text : s.text = s.buf := by rw [Scanner.text,file,List.append_nil]
      unfold lastMatch
      split
      · rename_i x rest found
        have shorter := rules.shorter found
        have valid' := getNextBuffer_valid valid
        have kept : s.getNextBuffer.buf = s.buf := by
          have same := getNextBuffer_text s
          rwa [Scanner.text,Scanner.text,file,file',List.append_nil,List.append_nil] at same
        refine Or.inr ⟨valid'.rest (kept.symm ▸ shorter),?_,Or.inr ?_⟩
        · simp only [work,file,file']
          omega
        · rw [text,found,Scanner.text,file']
          simp
      · rename_i found
        have empty : s.buf = [] := by
          by_contra nonempty
          exact absurd (rules.total s.buf nonempty) (by simp [found])
        exact Or.inl ⟨text.trans empty,rfl,getNextBuffer_clean valid stuck⟩

/-- The tokens are those of the rules on the whole text, in whatever blocks it is read. -/
theorem drain_lexes {fuel : Nat} {ts : List τ} {left : Option (List α)} (valid : s.Valid) (enough : s.work < fuel)
    (lexes : Lexes rules s.text ts left) : (drain rules fuel s).1 = ts ∧ (drain rules fuel s).2.Left left := by
  induction fuel generalizing s ts with
  | zero => exact absurd enough (Nat.not_lt_zero _)
  | succ fuel ih =>
    have moves := step_cases rules valid
    rw [drain]
    generalize s.step rules = next at moves ⊢
    obtain ⟨x,s'⟩ := next
    dsimp only at moves
    rcases moves with ⟨atEnd,rfl,clean⟩ | ⟨valid',less,⟨rfl,same⟩ | found⟩
    · obtain ⟨rfl,rfl⟩ := (atEnd ▸ lexes).of_nil
      exact ⟨rfl,clean⟩
    · exact ih valid' (by omega) (same ▸ lexes)
    · cases x with
      | skip => exact ih valid' (by omega) (lexes.of_skip found)
      | token t =>
        obtain ⟨us,rfl,later⟩ := lexes.of_token found
        obtain ⟨tokens,left⟩ := ih valid' (by omega) later
        exact ⟨congrArg (t::·) tokens,left⟩
      | stop =>
        obtain ⟨rfl,rfl⟩ := lexes.of_stop found
        exact ⟨rfl,valid',rfl⟩

theorem yylexAll_lexes {ts : List τ} {left : Option (List α)} (valid : s.Valid) (lexes : Lexes rules s.text ts left) :
    (s.yylexAll rules).1 = ts ∧ (s.yylexAll rules).2.Left left :=
  drain_lexes valid (Nat.lt_succ_self _) lexes

/-! ### The end-of-file indicator -/

theorem getNextBuffer_eof (ended : s.eof = true) : s.getNextBuffer.eof = true := by
  unfold getNextBuffer
  split
  · exact ended
  · simp [fread,ended]

theorem step_eof (rules : Rules α τ) (ended : s.eof = true) : (s.step rules).2.eof = true := by
  unfold step lastMatch
  split
  · exact ended
  · split
    · exact getNextBuffer_eof ended
    · split <;> exact getNextBuffer_eof ended

theorem drain_eof (rules : Rules α τ) (fuel : Nat) (ended : s.eof = true) : (drain rules fuel s).2.eof = true := by
  induction fuel generalizing s with
  | zero => exact ended
  | succ fuel ih =>
    have ended' := step_eof rules ended
    rw [drain]
    generalize s.step rules = next at ended' ⊢
    obtain ⟨x,s'⟩ := next
    cases x with
    | skip => exact ih ended'
    | token t => exact ih ended'
    | stop => exact ended'

/-- A file of less than a block is read to its end before its first match. -/
theorem yylexAll_eof (rules : Rules α τ) (valid : s.Valid) (start : s.buf = []) (unread : s.pending = false)
    (short : s.file.length < 8192) : (s.yylexAll rules).2.eof = true := by
  have unmatched : rules.scan false s.buf = none := by
    cases found : rules.scan false s.buf with
    | none => rfl
    | some match_ =>
      have shorter := rules.shorter found
      rw [start] at shorter
      exact absurd shorter (Nat.not_lt_zero _)
  have room : min 8192 (s.grown-s.buf.length-1) = 8192 := by
    have size := valid.size
    have larger := (room_grown valid).2
    rw [start,List.length_nil]
    omega
  have ended : s.getNextBuffer.eof = true := by
    unfold getNextBuffer
    rw [if_neg (by simp [unread]),room]
    simp [fread,short]
  have stepped : (s.step rules).2.eof = true := by
    unfold step lastMatch
    rw [unmatched]
    dsimp only
    split
    · exact ended
    · split <;> exact ended
  rw [yylexAll,drain]
  generalize s.step rules = next at stepped ⊢
  obtain ⟨x,s'⟩ := next
  cases x with
  | skip => exact drain_eof rules _ stepped
  | token t => exact drain_eof rules _ stepped
  | stop => exact stepped

end Scanner

end Smtdv.Lib.Flex
