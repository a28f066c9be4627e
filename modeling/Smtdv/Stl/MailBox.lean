import Mathlib.Data.List.Nodup
import Smtdv.Lib.Machine
import Smtdv.Stl.Wrapper

/-! `SMTDV_MailBox` under calls of `push` and `next` in any order. -/
namespace Smtdv.Stl.MailBox
open Lib

inductive Call
  | push (tt : Nat)
  | next
  deriving DecidableEq

/-- A mailbox, and the transfers that `next` has returned. -/
structure Served where
  box : MailBox
  delivered : List Nat := []
  deriving DecidableEq

def step (s : Served) : Call → Served
  | .push tt => {s with box := s.box.push tt}
  | .next => {box := s.box.next.2, delivered := s.delivered ++ s.box.next.1.toList}

def after (instName : List Char) (calls : List Call) : Served :=
  Machine.run step {box := {instName := instName}} calls

def Call.transfer : Call → Option Nat
  | push tt => some tt
  | next => none

def pushed (calls : List Call) : List Nat := calls.filterMap Call.transfer

/-- At every point the transfers returned are the first ones pushed, each as often as it was pushed at
most, and `next` returns null only when they are all of them. -/
structure Fifo (instName : List Char) (calls : List Call) : Prop where
  order : ∀ before, before <+: calls → (after instName before).delivered <+: pushed before
  once : ∀ tt, (after instName calls).delivered.count tt ≤ (pushed calls).count tt
  null : ∀ before, before ++ [.next] <+: calls → (after instName before).box.next.1 = none →
    (after instName before).delivered = pushed before

/-- A transfer has been asked for. -/
def Begun (calls : List Call) : Prop := ∃ a, List.Sublist [.push a,.next] calls

/-- A transfer has been pushed after one was asked for. -/
def Resumed (calls : List Call) : Prop := ∃ a b, List.Sublist [.push a,.next,.push b] calls

/-- No transfer is pushed between two calls of `next`, the first of them after a push. -/
def Settled (calls : List Call) : Prop := ∀ a b, ¬List.Sublist [.push a,.next,.push b,.next] calls

theorem concat_sublist_concat {α : Type*} {xs ys : List α} {x y : α} :
    (xs ++ [x]).Sublist (ys ++ [y]) ↔ (xs ++ [x]).Sublist ys ∨ (x = y ∧ xs.Sublist ys) := by
  have flip (zs : List α) : (xs ++ [x]).Sublist zs ↔ (x::xs.reverse).Sublist zs.reverse := by
    rw [← List.reverse_sublist,List.reverse_append,List.reverse_singleton,List.singleton_append]
  rw [flip,flip,List.reverse_append,List.reverse_singleton,List.singleton_append,List.cons_sublist_cons',
    List.reverse_sublist]

theorem pushed_push (calls : List Call) (tt : Nat) : pushed (calls ++ [.push tt]) = pushed calls ++ [tt] := by
  simp [pushed,Call.transfer]

theorem pushed_next (calls : List Call) : pushed (calls ++ [.next]) = pushed calls := by
  simp [pushed,Call.transfer]

theorem push_mem {calls : List Call} {tt : Nat} : .push tt ∈ calls ↔ tt ∈ pushed calls := by
  rw [pushed,List.mem_filterMap]
  constructor
  · exact fun inside => ⟨.push tt,inside,rfl⟩
  · rintro ⟨call,inside,same⟩
    cases call with
    | push other =>
      obtain rfl := Option.some.inj same
      exact inside
    | next => contradiction

theorem begun_push (calls : List Call) (tt : Nat) : Begun (calls ++ [.push tt]) ↔ Begun calls := by
  refine exists_congr fun a => ?_
  rw [show [.push a,.next] = [.push a] ++ [Call.next] from rfl,concat_sublist_concat]
  simp

theorem begun_next (calls : List Call) : Begun (calls ++ [.next]) ↔ pushed calls ≠ [] := by
  constructor
  · rintro ⟨a,before⟩
    rw [show [.push a,.next] = [.push a] ++ [Call.next] from rfl,concat_sublist_concat] at before
    have inside : .push a ∈ calls := before.elim (fun both => both.subset List.mem_cons_self)
      fun both => List.singleton_sublist.mp both.2
    exact List.ne_nil_of_mem (push_mem.mp inside)
  · intro filled
    obtain ⟨a,inside⟩ := List.exists_mem_of_ne_nil _ filled
    exact ⟨a,(List.singleton_sublist.mpr (push_mem.mpr inside)).append (List.Sublist.refl [Call.next])⟩

theorem resumed_push (calls : List Call) (tt : Nat) : Resumed (calls ++ [.push tt]) ↔ Begun calls := by
  constructor
  · rintro ⟨a,b,before⟩
    rw [show [.push a,.next,.push b] = [.push a,.next] ++ [Call.push b] from rfl,concat_sublist_concat] at before
    exact ⟨a,before.elim ((List.sublist_append_left _ _).trans ·) fun both => both.2⟩
  · rintro ⟨a,before⟩
    exact ⟨a,tt,before.append (List.Sublist.refl [Call.push tt])⟩

theorem resumed_next (calls : List Call) : Resumed (calls ++ [.next]) ↔ Resumed calls := by
  refine exists_congr fun a => exists_congr fun b => ?_
  rw [show [.push a,.next,.push b] = [.push a,.next] ++ [Call.push b] from rfl,concat_sublist_concat]
  simp

theorem settled_push (calls : List Call) (tt : Nat) : Settled (calls ++ [.push tt]) ↔ Settled calls := by
  refine forall_congr' fun a => forall_congr' fun b => not_congr ?_
  rw [show [.push a,.next,.push b,.next] = [.push a,.next,.push b] ++ [Call.next] from rfl,concat_sublist_concat]
  simp

theorem settled_next (calls : List Call) : Settled (calls ++ [.next]) ↔ ¬Resumed calls := by
  rw [Resumed,not_exists]
  refine forall_congr' fun a => ?_
  rw [not_exists]
  refine forall_congr' fun b => not_congr ?_
  rw [show [.push a,.next,.push b,.next] = [.push a,.next,.push b] ++ [Call.next] from rfl,concat_sublist_concat]
  exact ⟨fun before => before.elim ((List.sublist_append_left _ _).trans ·) fun both => both.2,fun before => .inr ⟨rfl,before⟩⟩

theorem after_concat (instName : List Char) (calls : List Call) (call : Call) :
    after instName (calls ++ [call]) = step (after instName calls) call := Machine.run_concat _ _ _ _

theorem next_mVec (ft : MailBox) : ft.next.2.mVec = ft.mVec := by
  unfold next
  split <;> rfl

theorem after_mVec (instName : List Char) (calls : List Call) :
    (after instName calls).box.mVec = pushed calls := by
  induction calls using List.reverseRecOn with
  | nil => rfl
  | append_singleton calls call ih =>
    rw [after_concat]
    cases call with
    | push tt => rw [pushed_push,← ih]; rfl
    | next => rw [pushed_next,← ih]; exact next_mVec _

/-- The iterator stands behind what has been returned, or again at the first transfer when a push
has come after that. -/
inductive Stage (calls : List Call) (s : Served) : Prop
  | level (it : Nat) (stands : s.box.At it) (returned : s.delivered = s.box.mVec.take it)
      (begun : Begun calls ↔ 0 < it) (once : ¬Resumed calls)
  | back (stands : s.box.At 0) (resumed : Resumed calls) (some : s.delivered ≠ [])
      (returned : s.delivered <+: s.box.mVec) (more : s.delivered.length < s.box.mVec.length)

variable {instName : List Char} {calls : List Call}

theorem Stage.order (stage : Stage calls (after instName calls)) :
    (after instName calls).delivered <+: pushed calls := by
  rw [← after_mVec instName calls]
  cases stage with
  | level it stands returned begun once => exact returned ▸ List.take_prefix _ _
  | back stands resumed some returned more => exact returned

theorem Stage.push (tt : Nat) (stage : Stage calls (after instName calls)) :
    Stage (calls ++ [.push tt]) (after instName (calls ++ [.push tt])) := by
  rw [after_concat]
  have grown : (step (after instName calls) (.push tt)).box.mVec = (after instName calls).box.mVec ++ [tt] := rfl
  have same : (step (after instName calls) (.push tt)).delivered = (after instName calls).delivered := rfl
  cases stage with
  | level it stands returned begun once =>
    by_cases fresh : it = 0
    · subst fresh
      have first : ¬Begun calls := fun before => Nat.lt_irrefl 0 (begun.mp before)
      refine .level 0 (at_push _ _) (same.trans (by simpa using returned)) ?_ ?_
      · exact (begun_push calls tt).trans begun
      · exact fun resumed => first ((resumed_push calls tt).mp resumed)
    · have before : Begun calls := begun.mpr (Nat.pos_of_ne_zero fresh)
      have filled : (after instName calls).box.mVec ≠ [] := by
        obtain ⟨a,inside⟩ := before
        rw [after_mVec]
        exact List.ne_nil_of_mem (push_mem.mp (inside.subset List.mem_cons_self))
      have size : ((after instName calls).box.mVec.take it).length ≤ (after instName calls).box.mVec.length :=
        List.length_take_le' _ _
      refine .back (at_push _ _) ((resumed_push calls tt).mpr before) ?_ ?_ ?_
      · rw [same,returned,ne_eq,List.take_eq_nil_iff]
        exact fun none => none.elim fresh filled
      · rw [same,grown,returned]
        exact (List.take_prefix _ _).trans (List.prefix_append _ _)
      · rw [same,grown,returned,List.length_append,List.length_singleton]
        omega
  | back stands resumed some returned more =>
    obtain ⟨a,b,before⟩ := resumed
    refine .back (at_push _ _) ⟨a,b,before.trans (List.sublist_append_left _ _)⟩ some ?_ ?_
    · rw [same,grown]
      exact returned.trans (List.prefix_append _ _)
    · rw [same,grown,List.length_append]
      omega

/-- A call of `next` that does not come behind a late push returns the next transfer, or null after
the last one. -/
theorem Stage.next (once : ¬Resumed calls) (stage : Stage calls (after instName calls)) :
    Stage (calls ++ [.next]) (after instName (calls ++ [.next])) ∧
      ((after instName calls).box.next.1 = none → (after instName calls).delivered = pushed calls) := by
  rw [after_concat,← after_mVec instName calls]
  cases stage with
  | back stands resumed some returned more => exact absurd resumed once
  | level it stands returned begun _ =>
    have late : ¬Resumed (calls ++ [.next]) := fun resumed => once ((resumed_next calls).mp resumed)
    rcases Nat.lt_or_ge it (after instName calls).box.mVec.length with before | done
    · obtain ⟨reply,vec,stands⟩ := next_at stands before
      refine ⟨.level (it+1) stands ?_ ?_ late,fun null => ?_⟩
      · change (after instName calls).delivered ++ (after instName calls).box.next.1.toList = _
        rw [reply,returned,show (step (after instName calls) .next).box.mVec = _ from vec,List.take_add_one]
      · refine (begun_next calls).trans (iff_of_true ?_ (Nat.succ_pos it))
        rw [← after_mVec instName calls]
        exact List.ne_nil_of_length_pos (by omega)
      · rw [reply,List.getElem?_eq_none_iff] at null
        omega
    · obtain rfl : it = (after instName calls).box.mVec.length := Nat.le_antisymm stands.1 done
      have all : (after instName calls).delivered = (after instName calls).box.mVec := by
        rw [returned,List.take_length]
      have still : step (after instName calls) .next = after instName calls := by
        unfold step
        rw [next_end stands,Option.toList_none,List.append_nil]
      rw [still]
      refine ⟨.level _ stands returned ?_ late,fun _ => all⟩
      rw [begun_next,← after_mVec instName calls,List.length_pos_iff]

/-- A call of `next` behind a late push returns the first transfer a second time. -/
theorem Stage.again (resumed : Resumed calls) (stage : Stage calls (after instName calls)) :
    ¬((after instName (calls ++ [.next])).delivered <+: pushed calls ∧ (pushed calls).Nodup) := by
  rintro ⟨order,distinct⟩
  rw [after_concat,← after_mVec instName calls] at order
  rw [← after_mVec instName calls] at distinct
  cases stage with
  | level it stands returned begun once => exact once resumed
  | back stands _ some returned more =>
    have filled : 0 < (after instName calls).box.mVec.length := by omega
    obtain ⟨reply,-,-⟩ := next_at stands filled
    change (after instName calls).delivered ++ (after instName calls).box.next.1.toList <+: _ at order
    rw [reply,List.getElem?_eq_getElem filled,Option.toList_some] at order
    have first := List.prefix_iff_getElem?.mp order (after instName calls).delivered.length (by simp)
    rw [List.getElem_append_right (Nat.le_refl _),List.getElem_singleton,List.getElem?_eq_getElem more] at first
    have place := distinct.getElem_inj_iff.mp (Option.some.inj first)
    exact some (List.eq_nil_of_length_eq_zero place)

theorem stage (instName : List Char) (calls : List Call) (settled : Settled calls) :
    Stage calls (after instName calls) := by
  induction calls using List.reverseRecOn with
  | nil => exact .level 0 ⟨Nat.le_refl 0,rfl⟩ rfl (by simp [Begun]) (by simp [Resumed])
  | append_singleton calls call ih =>
    cases call with
    | push tt => exact (ih ((settled_push calls tt).mp settled)).push tt
    | next =>
      have once : ¬Resumed calls := (settled_next calls).mp settled
      refine ((ih ?_).next once).1
      intro a b before
      exact once ⟨a,b,(List.sublist_append_left [Call.push a,.next,.push b] [.next]).trans before⟩

/-- Whatever is pushed, the mailbox is a queue if no transfer is pushed after one was asked for and
before another is; with transfers that differ it is a queue only then. -/
theorem fifo_iff (instName : List Char) (calls : List Call) : (Settled calls → Fifo instName calls) ∧
    ((pushed calls).Nodup → Fifo instName calls → Settled calls) := by
  constructor
  · intro settled
    have stages {before : List Call} (inside : before <+: calls) : Stage before (after instName before) :=
      stage instName before fun a b late => settled a b (late.trans inside.sublist)
    refine ⟨fun before inside => (stages inside).order,fun tt => ?_,fun before inside => ?_⟩
    · exact (stages (List.prefix_refl _)).order.sublist.count_le tt
    · have once : ¬Resumed before := by
        rw [← settled_next]
        exact fun a b late => settled a b (late.trans inside.sublist)
      exact ((stages ((List.prefix_append _ _).trans inside)).next once).2
  · intro distinct fifo
    induction calls using List.reverseRecOn with
    | nil => simp [Settled]
    | append_singleton calls call ih =>
      have before : pushed calls <+: pushed (calls ++ [call]) := by
        unfold pushed
        rw [List.filterMap_append]
        exact List.prefix_append _ _
      have settled : Settled calls := by
        refine ih (distinct.sublist before.sublist) ⟨fun first inside => ?_,fun tt => ?_,fun first inside => ?_⟩
        · exact fifo.order first (inside.trans (List.prefix_append _ _))
        · exact (fifo.order calls (List.prefix_append _ _)).sublist.count_le tt
        · exact fifo.null first (inside.trans (List.prefix_append _ _))
      cases call with
      | push tt => exact (settled_push calls tt).mpr settled
      | next =>
        rw [settled_next]
        intro resumed
        rw [pushed_next] at distinct
        have order := fifo.order _ (List.prefix_refl _)
        rw [pushed_next] at order
        exact (stage instName calls settled).again resumed ⟨order,distinct⟩

/-- A transfer pushed between two calls of `next` brings the first one back. -/
theorem push_between_not_fifo : ¬Fifo [] [.push 0,.next,.push 1,.next] := by
  intro fifo
  exact absurd (fifo.order _ (List.prefix_refl _)) (by decide)

end Smtdv.Stl.MailBox
