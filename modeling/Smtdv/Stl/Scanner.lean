import Mathlib.Data.List.TakeWhile
import Smtdv.Lib.Flex
import Smtdv.Stl.Grammar

/-! The rules of `dpi_smtdv_parser.l` on the characters of a file. -/
namespace Smtdv.Stl
open Lib.Flex

/-- A word is a keyword, or else a number, or else a name: the rules in their order. -/
def classify (text : List Char) (nonempty : text ≠ []) (chars : text.all isSChar = true) : Token :=
  match known : Keyword.all.find? fun word => text = word.text.toList with
  | some word => .keyword word
  | none =>
    if hex : text.all isTChar = true then .tidentifier ⟨text,nonempty,hex⟩
    else .sidentifier ⟨text,nonempty,chars,by simpa using hex,fun word member => by
      simpa using List.find?_eq_none.mp known word member⟩

theorem all_word {c : Char} (word : isSChar c = true) (rest : List Char) :
    (c::rest.takeWhile isSChar).all isSChar = true := by
  rw [List.all_cons,word,Bool.true_and,List.all_eq_true]
  exact fun d member => List.mem_takeWhile_imp member

def wordToken (c : Char) (word : isSChar c = true) (rest : List Char) : Token :=
  classify (c::rest.takeWhile isSChar) (List.cons_ne_nil _ _) (all_word word rest)

/-- A word goes on as long as its characters do; `r` goes on to `r/w`, which nothing prolongs. -/
def scanWord (atEnd : Bool) (c : Char) (word : isSChar c = true) (rest : List Char) :
    Option (Lexeme Token × List Char) :=
  match rest.dropWhile isSChar with
  | [] => if atEnd then some (.token (wordToken c word rest),[]) else none
  | d::after =>
    if c = 'r' ∧ rest.takeWhile isSChar = [] ∧ d = '/' then
      match after with
      | [] => if atEnd then some (.token (wordToken c word rest),d::after) else none
      | e::more => if e = 'w' then some (.token (.keyword .rw),more) else some (.token (wordToken c word rest),d::after)
    else some (.token (wordToken c word rest),d::after)

/-- The rules for single characters. The last one takes any character that no other rule takes; after
a NUL the scanner looks at one more character. -/
def scanChar (atEnd : Bool) (c : Char) (rest : List Char) : Option (Lexeme Token × List Char) :=
  if c = ' ' ∨ c = '\t' then some (.skip,rest)
  else if c = '\n' then some (.token .ret,rest)
  else if c = ',' then some (.token .tcomma,rest)
  else if c = '(' then some (.token .tlparen,rest)
  else if c = ')' then some (.token .trparen,rest)
  else if c = '#' then some (.token .comment,rest)
  else if c = '\x00' ∧ rest = [] ∧ atEnd = false then none
  else some (.stop,rest)

def scan (atEnd : Bool) : List Char → Option (Lexeme Token × List Char)
  | [] => none
  | c::rest => if word : isSChar c = true then scanWord atEnd c word rest else scanChar atEnd c rest

theorem length_dropWhile_le (rest : List Char) : (rest.dropWhile isSChar).length ≤ rest.length :=
  (List.dropWhile_sublist _).length_le

theorem scanWord_shorter {atEnd : Bool} {c : Char} {word : isSChar c = true} {text left : List Char}
    {x : Lexeme Token} (found : scanWord atEnd c word text = some (x,left)) : left.length ≤ text.length := by
  have bound := length_dropWhile_le text
  unfold scanWord at found
  split at found
  · split at found <;> simp_all
  · rename_i d after shape
    rw [shape,List.length_cons] at bound
    split at found
    · split at found
      · split at found
        · simp only [Option.some.injEq,Prod.mk.injEq] at found
          rw [← found.2]
          exact bound
        · exact absurd found (by simp)
      · rename_i e more
        simp only [List.length_cons] at bound
        split at found <;> simp only [Option.some.injEq,Prod.mk.injEq] at found <;> rw [← found.2]
        · omega
        · simpa using bound
    · simp only [Option.some.injEq,Prod.mk.injEq] at found
      rw [← found.2]
      exact bound

theorem scanChar_left {atEnd : Bool} {c : Char} {text left : List Char} {x : Lexeme Token}
    (found : scanChar atEnd c text = some (x,left)) : left = text := by
  unfold scanChar at found
  split_ifs at found <;> simp_all

theorem takeWhile_append_of_left {text : List Char} (back : List Char) {d : Char} {after : List Char}
    (shape : text.dropWhile isSChar = d::after) :
    (text ++ back).takeWhile isSChar = text.takeWhile isSChar ∧ (text ++ back).dropWhile isSChar = d::(after ++ back) := by
  induction text with
  | nil => exact absurd shape (by simp)
  | cons c rest ih =>
    cases inside : isSChar c with
    | true =>
      rw [List.dropWhile_cons_of_pos inside] at shape
      obtain ⟨taken,dropped⟩ := ih shape
      simp [inside,taken,dropped]
    | false =>
      rw [List.dropWhile_cons_of_neg (by simp [inside])] at shape
      obtain ⟨rfl,rfl⟩ := List.cons.inj shape
      simp [inside]

theorem wordToken_append {c : Char} (word : isSChar c = true) {text back : List Char}
    (same : (text ++ back).takeWhile isSChar = text.takeWhile isSChar) :
    wordToken c word (text ++ back) = wordToken c word text := by
  unfold wordToken
  congr 2

theorem scanWord_stable {c : Char} {word : isSChar c = true} {text left : List Char} {x : Lexeme Token}
    (found : scanWord false c word text = some (x,left)) (back : List Char) :
    scanWord true c word (text ++ back) = some (x,left ++ back) := by
  unfold scanWord at found
  split at found
  · exact absurd found (by simp)
  · rename_i d after shape
    obtain ⟨taken,dropped⟩ := takeWhile_append_of_left back shape
    unfold scanWord
    rw [dropped,taken,wordToken_append word taken]
    dsimp only
    split at found
    · rename_i slash
      rw [if_pos slash]
      split at found
      · exact absurd found (by simp)
      · rename_i e more
        rw [List.cons_append]
        dsimp only
        split at found
        · rename_i final
          simp only [Option.some.injEq,Prod.mk.injEq] at found
          obtain ⟨rfl,rfl⟩ := found
          rw [if_pos final]
        · rename_i other
          simp only [Option.some.injEq,Prod.mk.injEq] at found
          obtain ⟨rfl,rfl⟩ := found
          rw [if_neg other]
          rfl
    · rename_i other
      simp only [Option.some.injEq,Prod.mk.injEq] at found
      obtain ⟨rfl,rfl⟩ := found
      rw [if_neg other]
      rfl

theorem scanChar_stable {c : Char} {text left : List Char} {x : Lexeme Token}
    (found : scanChar false c text = some (x,left)) (back : List Char) :
    scanChar true c (text ++ back) = some (x,left ++ back) := by
  unfold scanChar at found ⊢
  split_ifs at found ⊢ <;> simp_all

theorem scan_total {text : List Char} (nonempty : text ≠ []) : (scan true text).isSome := by
  cases text with
  | nil => exact absurd rfl nonempty
  | cons c rest =>
    rw [scan]
    split
    · unfold scanWord
      split
      · rfl
      · split
        · split
          · rfl
          · split <;> rfl
        · rfl
    · unfold scanChar
      split_ifs <;> simp_all

theorem scan_shorter {atEnd : Bool} {text left : List Char} {x : Lexeme Token}
    (found : scan atEnd text = some (x,left)) : left.length < text.length := by
  cases text with
  | nil => exact absurd found (by simp [scan])
  | cons c rest =>
    rw [scan] at found
    split at found
    · exact Nat.lt_succ_of_le (scanWord_shorter found)
    · rw [scanChar_left found]
      exact Nat.lt_succ_self _

theorem scan_stable {front left : List Char} {x : Lexeme Token} (found : scan false front = some (x,left))
    (back : List Char) : scan true (front ++ back) = some (x,left ++ back) := by
  cases front with
  | nil => exact absurd found (by simp [scan])
  | cons c rest =>
    rw [scan] at found
    rw [List.cons_append,scan]
    split at found
    · rename_i word
      rw [dif_pos word]
      exact scanWord_stable found back
    · rename_i other
      rw [dif_neg other]
      exact scanChar_stable found back

/-- `dpi_smtdv_parser.l`. -/
def rules : Rules Char Token where
  scan := scan
  empty := rfl
  total _ := scan_total
  shorter := scan_shorter
  stable := scan_stable

end Smtdv.Stl
