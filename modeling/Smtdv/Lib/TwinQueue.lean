import Mathlib.Data.List.Sort
import Mathlib.Order.Defs.LinearOrder
import Mathlib.Tactic.Common

/-! Two copies of one priority queue, each sorted by its own reader. The readers see the
same order as long as nothing is entered before an item that one of them has taken and
the other has not. -/
namespace Smtdv.Lib.TwinQueue

variable {α κ : Type*} [LinearOrder κ]

/-- A stable sort by priority, the lowest first. -/
def sort (prio : α → κ) (q : List α) : List α := q.insertionSort fun a b => prio a ≤ prio b

theorem sort_eq_nil {prio : α → κ} {q : List α} : sort prio q = [] ↔ q = [] := by
  rw [← List.length_eq_zero_iff,sort,List.length_insertionSort,List.length_eq_zero_iff]

def push (x : α) (front : Bool) (q : List α) : List α := if front then x::q else q ++ [x]

/-- Entering an item into a sorted queue, before or after the items of its priority. -/
def enter (prio : α → κ) (x : α) (front : Bool) : List α → List α
  | [] => [x]
  | a::rest =>
    if prio x < prio a ∨ (front = true ∧ prio x ≤ prio a) then x::a::rest
    else a::enter prio x front rest

theorem enter_front (prio : α → κ) (x : α) (q : List α) :
    q.orderedInsert (fun a b => prio a ≤ prio b) x = enter prio x true q := by
  induction q with
  | nil => rfl
  | cons a rest ih =>
    by_cases before : prio x ≤ prio a
    · simp [enter,before]
    · have after : ¬ prio x < prio a := fun less => before less.le
      simp [enter,before,after,ih]

theorem enter_back_insert (prio : α → κ) (x a : α) (q : List α) :
    enter prio a true (enter prio x false q) = enter prio x false (enter prio a true q) := by
  induction q with
  | nil =>
    rcases lt_or_ge (prio x) (prio a) with before | after
    · simp [enter,before,not_le.mpr before,not_lt.mpr before.le]
    · simp [enter,after,not_lt.mpr after]
  | cons b rest ih =>
    rcases lt_or_ge (prio x) (prio b) with xb | bx <;> rcases le_or_gt (prio a) (prio b) with ab | ba
    · rcases lt_or_ge (prio x) (prio a) with xa | ax
      · simp [enter,xb,ab,xa,not_le.mpr xa,not_lt.mpr xa.le]
      · simp [enter,xb,ab,ax,not_lt.mpr ax]
    · have xa := xb.trans ba
      simp [enter,xb,not_le.mpr ba,not_lt.mpr ba.le,not_le.mpr xa,not_lt.mpr xa.le]
    · have ax := ab.trans bx
      simp [enter,ab,not_lt.mpr bx,not_lt.mpr ax]
    · simp [enter,not_lt.mpr bx,not_le.mpr ba,not_lt.mpr ba.le,ih]

theorem sort_push (prio : α → κ) (x : α) (front : Bool) (q : List α) :
    sort prio (push x front q) = enter prio x front (sort prio q) := by
  cases front with
  | true => exact enter_front prio x (sort prio q)
  | false =>
    simp only [push,Bool.false_eq_true,if_false]
    induction q with
    | nil => rfl
    | cons a rest ih =>
      have first (l : List α) : sort prio (a::l) = enter prio a true (sort prio l) :=
        enter_front prio a (sort prio l)
      rw [List.cons_append,first,first,ih,enter_back_insert]

theorem sort_sorted (prio : α → κ) (q : List α) : (sort prio q).Pairwise fun a b => prio a ≤ prio b :=
  have : IsTrans α fun a b => prio a ≤ prio b := ⟨fun _ _ _ => le_trans⟩
  have : Std.Total fun a b : α => prio a ≤ prio b := ⟨fun a b => le_total (prio a) (prio b)⟩
  List.pairwise_insertionSort _ q

/-- What is left after a take is sorted already. -/
theorem sort_rest (prio : α → κ) (q : List α) (x : α) (rest : List α) (sorted : sort prio q = x::rest) :
    sort prio rest = rest :=
  List.Pairwise.insertionSort_eq (List.Pairwise.of_cons (sorted ▸ sort_sorted prio q))

/-- The item stays behind one that is out already. -/
def Behind (prio : α → κ) (x : α) (front : Bool) (a : α) : Prop :=
  ¬ (prio x < prio a ∨ (front = true ∧ prio x ≤ prio a))

instance (prio : α → κ) (x : α) (front : Bool) (a : α) : Decidable (Behind prio x front a) :=
  inferInstanceAs (Decidable (¬ _))

theorem enter_behind (prio : α → κ) (x : α) (front : Bool) (ahead q : List α)
    (behind : ∀ a ∈ ahead, Behind prio x front a) :
    enter prio x front (ahead ++ q) = ahead ++ enter prio x front q := by
  induction ahead with
  | nil => rfl
  | cons a rest ih =>
    obtain ⟨first,others⟩ := List.forall_mem_cons.mp behind
    rw [List.cons_append,enter,if_neg first,ih others,List.cons_append]

/-- The items one reader has taken and the other has not. -/
def outstanding (firstTaken secondTaken : List α) : List α :=
  firstTaken.drop secondTaken.length ++ secondTaken.drop firstTaken.length

theorem mem_outstanding_comm {firstTaken secondTaken : List α} {x : α} :
    x ∈ outstanding firstTaken secondTaken ↔ x ∈ outstanding secondTaken firstTaken := by
  simp only [outstanding,List.mem_append]
  exact or_comm

/-- One reader is ahead of the other, and the other still finds what is outstanding at
the head of its queue. -/
def Twin (prio : α → κ) (first second firstTaken secondTaken : List α) : Prop :=
  (firstTaken = secondTaken ++ outstanding firstTaken secondTaken ∧
    sort prio second = outstanding firstTaken secondTaken ++ sort prio first) ∨
  (secondTaken = firstTaken ++ outstanding firstTaken secondTaken ∧
    sort prio first = outstanding firstTaken secondTaken ++ sort prio second)

theorem outstanding_append (taken ahead : List α) : outstanding (taken ++ ahead) taken = ahead := by
  simp [outstanding]

theorem outstanding_append' (taken ahead : List α) : outstanding taken (taken ++ ahead) = ahead := by
  simp [outstanding]

theorem Twin.ahead (prio : α → κ) (first second taken ahead : List α)
    (queue : sort prio second = ahead ++ sort prio first) :
    Twin prio first second (taken ++ ahead) taken := by
  left
  rw [outstanding_append]
  exact ⟨rfl,queue⟩

theorem Twin.behind (prio : α → κ) (first second taken ahead : List α)
    (queue : sort prio first = ahead ++ sort prio second) :
    Twin prio first second taken (taken ++ ahead) := by
  right
  rw [outstanding_append']
  exact ⟨rfl,queue⟩

theorem Twin.symm {prio : α → κ} {first second firstTaken secondTaken : List α}
    (twin : Twin prio first second firstTaken secondTaken) :
    Twin prio second first secondTaken firstTaken := by
  rcases twin with ⟨taken,queue⟩ | ⟨taken,queue⟩
  · rw [taken]
    exact .behind prio second first secondTaken _ queue
  · rw [taken]
    exact .ahead prio second first firstTaken _ queue

theorem Twin.push {prio : α → κ} {first second firstTaken secondTaken : List α}
    (twin : Twin prio first second firstTaken secondTaken) (x : α) (front : Bool)
    (behind : ∀ a ∈ outstanding firstTaken secondTaken, Behind prio x front a) :
    Twin prio (push x front first) (push x front second) firstTaken secondTaken := by
  rcases twin with ⟨taken,queue⟩ | ⟨taken,queue⟩
  · refine .inl ⟨taken,?_⟩
    rw [sort_push,sort_push,queue,enter_behind prio x front _ _ behind]
  · refine .inr ⟨taken,?_⟩
    rw [sort_push,sort_push,queue,enter_behind prio x front _ _ behind]

theorem Twin.take {prio : α → κ} {first second firstTaken secondTaken : List α}
    (twin : Twin prio first second firstTaken secondTaken) (x : α) (rest : List α)
    (sorted : sort prio first = x::rest) : Twin prio rest second (firstTaken ++ [x]) secondTaken := by
  have left := sort_rest prio first x rest sorted
  rcases twin with ⟨taken,queue⟩ | ⟨taken,queue⟩
  · rw [taken,List.append_assoc]
    apply Twin.ahead
    rw [queue,sorted,left,List.append_assoc]
    rfl
  · rw [taken]
    generalize outstanding firstTaken secondTaken = ahead at queue ⊢
    cases ahead with
    | nil =>
      rw [List.append_nil]
      apply Twin.ahead
      rw [left,List.singleton_append,← sorted,queue,List.nil_append]
    | cons y others =>
      rw [sorted,List.cons_append] at queue
      obtain ⟨rfl,remaining⟩ := List.cons.inj queue
      have here : firstTaken ++ x::others = (firstTaken ++ [x]) ++ others := by simp
      rw [here]
      apply Twin.behind
      rw [left,remaining]

theorem Twin.agree {prio : α → κ} {first second firstTaken secondTaken : List α}
    (twin : Twin prio first second firstTaken secondTaken) (k : Nat) (a b : α)
    (left : firstTaken[k]? = some a) (right : secondTaken[k]? = some b) : a = b := by
  rcases twin with ⟨taken,_⟩ | ⟨taken,_⟩
  · rw [taken,List.getElem?_append_left (List.getElem?_eq_some_iff.mp right).1,right] at left
    exact (Option.some.inj left).symm
  · rw [taken,List.getElem?_append_left (List.getElem?_eq_some_iff.mp left).1,left] at right
    exact Option.some.inj right

end Smtdv.Lib.TwinQueue
