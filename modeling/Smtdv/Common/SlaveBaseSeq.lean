import Mathlib.Data.List.Induction
import Mathlib.Data.List.Range
import Smtdv.Lib.Machine
import Smtdv.Common.Types

/-! `smtdv_slave_base_seq`: the loop that takes the monitored items, and the handlers of write
items that it forks. A forked handler starts once the loop blocks, and `mitem` is read then. -/
namespace Smtdv
open Lib

namespace SlaveBaseSeq

/-- Where `rcv_from_mon` is: at `get`, blocked in it, in a read handler, or past a fatal error. -/
inductive RcvPc
  | get | blocked | reading | fatal
  deriving DecidableEq

structure State where
  /- the items delivered, and those that are complete -/
  items : List TrsType := []
  completed : List Nat := []
  /- the number of items taken by `get`, and the last of them -/
  fetched : Nat := 0
  mitem : Nat := 0
  rcv : RcvPc := .get
  /- handlers forked since the loop last blocked, those that may start, those that wait for their item -/
  forked : Nat := 0
  ready : Nat := 0
  writers : List Nat := []
  mbox : List Nat := []
  /- the items passed to `do_read_item` and to `do_write_item` -/
  reads : List Nat := []
  writes : List Nat := []
  deriving DecidableEq

/-- A read handler that an extension overrides may block. -/
inductive Action
  | deliver (trs : TrsType)
  | complete (r : Nat)
  | get (blocks : Bool)
  | finishRead
  | start
  | finishWrite (w : Nat)
  deriving DecidableEq

def block (s : State) (rcv : RcvPc) : State := {s with rcv := rcv, ready := s.ready+s.forked, forked := 0}

/-- A turn of the loop. -/
def rcvFromMon (s : State) (blocks : Bool) : State :=
  if s.rcv = .get ∨ s.rcv = .blocked then
    match s.items[s.fetched]? with
    | none => block s .blocked
    | some trs =>
      let s := {s with fetched := s.fetched+1, mitem := s.fetched, rcv := .get}
      match trs with
      | .rd =>
        let s := {s with reads := s.reads ++ [s.mitem]}
        if blocks then block s .reading else {s with mbox := s.mbox ++ [s.mitem]}
      | .wr => {s with forked := s.forked+1}
      | .rdwr => {s with rcv := .fatal}
  else s

/-- `post_do_read_item`, of a handler that has blocked. -/
def finishRead (s : State) : State :=
  if s.rcv = .reading then {s with rcv := .get, mbox := s.mbox ++ [s.mitem]} else s

/-- A forked process calls `do_write_item(mitem)`. -/
def start (s : State) : State :=
  if 0 < s.ready then
    {s with
      ready := s.ready-1, writes := s.writes ++ [s.mitem]
      mbox := s.mbox ++ [s.mitem], writers := s.writers ++ [s.mitem]}
  else s

/-- `mid_do_write_item` returns. -/
def finishWrite (s : State) (w : Nat) : State :=
  if w ∈ s.writers ∧ w ∈ s.completed then {s with writers := s.writers.erase w} else s

def step (s : State) : Action → State
  | .deliver trs => {s with items := s.items ++ [trs]}
  | .complete r => {s with completed := r::s.completed}
  | .get blocks => rcvFromMon s blocks
  | .finishRead => finishRead s
  | .start => start s
  | .finishWrite w => finishWrite s w

def after (actions : List Action) : State := Machine.run step {} actions

/-- The items of a kind that have been taken. -/
def taken (items : List TrsType) (fetched : Nat) (trs : TrsType) : List Nat :=
  (List.range fetched).filter fun r => items[r]? = some trs

/-- The items, the handlers they have been passed to, and how many forked handlers are to start. -/
@[ext] structure Handling where
  items : List TrsType
  fetched : Nat
  mitem : Nat
  toStart : Nat
  reads : List Nat
  writes : List Nat

def handling (s : State) : Handling := ⟨s.items,s.fetched,s.mitem,s.forked+s.ready,s.reads,s.writes⟩

namespace Handling

/-- Each item taken has been passed to its handler once, but for handlers that are to start. -/
structure Once (h : Handling) : Prop where
  reads : h.reads = taken h.items h.fetched .rd
  nodup : h.writes.Nodup
  writes : h.writes ⊆ taken h.items h.fetched .wr
  all : h.toStart = 0 → taken h.items h.fetched .wr ⊆ h.writes

def take (h : Handling) (trs : TrsType) : Handling :=
  {h with
    fetched := h.fetched+1, mitem := h.fetched
    toStart := h.toStart+if trs = .wr then 1 else 0
    reads := h.reads ++ if trs = .rd then [h.fetched] else []}

def start (h : Handling) : Handling := {h with toStart := h.toStart-1, writes := h.writes ++ [h.mitem]}

/-- The handler that is to start, if there is one, will find its item. -/
structure Inv (h : Handling) : Prop where
  fetched : h.fetched ≤ h.items.length
  reads : h.reads = taken h.items h.fetched .rd
  pending : h.toStart ≤ 1
  writes : taken h.items h.fetched .wr = h.writes ++ List.replicate h.toStart h.mitem

/-- A write item that no handler will find any more. -/
def Lost (h : Handling) : Prop := ∃ w ∈ taken h.items h.fetched .wr, w ∉ h.writes ∧ w < h.mitem

end Handling

/-- The loop takes an item only when no forked handler is to start. -/
def Alone (s : State) : Action → Prop
  | .get _ => s.rcv = .get ∨ s.rcv = .blocked → s.fetched < s.items.length → s.forked+s.ready = 0
  | _ => True

instance (s : State) : (a : Action) → Decidable (Alone s a)
  | .get _ => inferInstanceAs (Decidable (_ → _ → _))
  | .deliver _ | .complete _ | .finishRead | .start | .finishWrite _ => isTrue trivial

theorem taken_deliver {items : List TrsType} {fetched : Nat} (inside : fetched ≤ items.length) (more trs : TrsType) :
    taken (items ++ [more]) fetched trs = taken items fetched trs := by
  apply List.filter_congr
  intro r before
  rw [List.getElem?_append_left (lt_of_lt_of_le (List.mem_range.mp before) inside)]

theorem taken_fetch {items : List TrsType} {fetched : Nat} {trs : TrsType} (next : items[fetched]? = some trs)
    (other : TrsType) :
    taken items (fetched+1) other = taken items fetched other ++ if trs = other then [fetched] else [] := by
  rw [taken,List.range_succ,List.filter_append,taken]
  congr 1
  by_cases same : trs = other <;> simp [next,same]

theorem lt_of_mem_taken {items : List TrsType} {fetched r : Nat} {trs : TrsType} (inside : r ∈ taken items fetched trs) :
    r < fetched := List.mem_range.mp (List.mem_filter.mp inside).1

theorem taken_nodup (items : List TrsType) (fetched : Nat) (trs : TrsType) : (taken items fetched trs).Nodup :=
  List.nodup_range.filter _

theorem handling_block (s : State) (rcv : RcvPc) : handling (block s rcv) = handling s := by
  apply Handling.ext <;> try rfl
  change 0+(s.ready+s.forked) = s.forked+s.ready
  omega

theorem rcvFromMon_take (s : State) (blocks : Bool) (running : s.rcv = .get ∨ s.rcv = .blocked) {trs : TrsType}
    (next : s.items[s.fetched]? = some trs) : handling (rcvFromMon s blocks) = (handling s).take trs := by
  rw [rcvFromMon,if_pos running]
  simp only [next]
  cases trs with
  | rd =>
    cases blocks
    · rfl
    · exact handling_block _ _
  | wr =>
    apply Handling.ext <;> try rfl
    · change s.forked+1+s.ready = s.forked+s.ready+1
      omega
    · exact (List.append_nil _).symm
  | rdwr =>
    apply Handling.ext <;> try rfl
    exact (List.append_nil _).symm

theorem rcvFromMon_else (s : State) (blocks : Bool)
    (none : ¬((s.rcv = .get ∨ s.rcv = .blocked) ∧ s.fetched < s.items.length)) :
    handling (rcvFromMon s blocks) = handling s := by
  rw [rcvFromMon]
  split
  case isTrue running =>
    have empty : s.items[s.fetched]? = .none := by
      rw [List.getElem?_eq_none_iff,← not_lt]
      exact fun more => none ⟨running,more⟩
    rw [empty]
    exact handling_block s _
  case isFalse => rfl

/-- What a step does to the items and their handlers. -/
theorem step_cases (s : State) (a : Action) :
    handling (step s a) = handling s ∨
      (∃ trs, handling (step s a) = {handling s with items := s.items ++ [trs]}) ∨
      0 < (handling s).toStart ∧ handling (step s a) = (handling s).start ∨
      ∃ trs, s.items[s.fetched]? = some trs ∧ (Alone s a → (handling s).toStart = 0) ∧
        handling (step s a) = (handling s).take trs := by
  cases a with
  | deliver trs => exact .inr (.inl ⟨trs,rfl⟩)
  | complete r => exact .inl rfl
  | get blocks =>
    by_cases takes : (s.rcv = .get ∨ s.rcv = .blocked) ∧ s.fetched < s.items.length
    · have next := List.getElem?_eq_getElem takes.2
      exact .inr (.inr (.inr ⟨_,next,fun alone => alone takes.1 takes.2,rcvFromMon_take s blocks takes.1 next⟩))
    · exact .inl (rcvFromMon_else s blocks takes)
  | finishRead =>
    left
    simp only [step,finishRead]
    split <;> rfl
  | start =>
    simp only [step,start]
    split
    case isTrue ready =>
      refine .inr (.inr (.inl ⟨Nat.add_pos_right _ ready,?_⟩))
      apply Handling.ext <;> try rfl
      exact (Nat.add_sub_assoc ready _).symm
    case isFalse => exact .inl rfl
  | finishWrite w =>
    left
    simp only [step,finishWrite]
    split <;> rfl

namespace Handling

theorem Inv.once {h : Handling} (inv : Inv h) : Once h := by
  have parts : (h.writes ++ List.replicate h.toStart h.mitem).Nodup := inv.writes ▸ taken_nodup _ _ _
  refine ⟨inv.reads,(List.nodup_append.mp parts).1,?_,?_⟩
  · rw [inv.writes]
    exact List.subset_append_left _ _
  · intro started
    rw [inv.writes,started,List.replicate_zero,List.append_nil]
    exact List.Subset.refl _

theorem Inv.deliver {h : Handling} (inv : Inv h) (trs : TrsType) : Inv {h with items := h.items ++ [trs]} := by
  refine ⟨?_,?_,inv.pending,?_⟩
  · rw [List.length_append]
    exact Nat.le_add_right_of_le inv.fetched
  · exact inv.reads.trans (taken_deliver inv.fetched _ _).symm
  · exact (taken_deliver inv.fetched _ _).trans inv.writes

theorem Inv.take {h : Handling} (inv : Inv h) {trs : TrsType} (next : h.items[h.fetched]? = some trs)
    (alone : h.toStart = 0) : Inv (h.take trs) := by
  have writes := inv.writes
  rw [alone,List.replicate_zero,List.append_nil] at writes
  refine ⟨(List.getElem?_eq_some_iff.mp next).1,?_,?_,?_⟩
  · change _ = taken h.items (h.fetched+1) .rd
    rw [taken_fetch next,← inv.reads]
    rfl
  · simp only [Handling.take,alone]
    split <;> decide
  · change taken h.items (h.fetched+1) .wr = h.writes ++ List.replicate (h.toStart+_) h.fetched
    rw [taken_fetch next,writes,alone]
    split <;> rfl

theorem Inv.start {h : Handling} (inv : Inv h) (some : 0 < h.toStart) : Inv h.start := by
  have one : h.toStart = 1 := Nat.le_antisymm inv.pending some
  refine ⟨inv.fetched,inv.reads,?_,?_⟩
  · simp only [Handling.start,one]
    decide
  · have writes := inv.writes
    rw [one] at writes
    simp only [Handling.start,one]
    rw [writes]
    exact (List.append_nil _).symm

/-- The item of the handler that is to start is not the last one any more. -/
theorem Inv.take_lost {h : Handling} (inv : Inv h) {trs : TrsType} (next : h.items[h.fetched]? = some trs)
    (pending : h.toStart ≠ 0) : Lost (h.take trs) := by
  have one : h.toStart = 1 := Nat.le_antisymm inv.pending (Nat.pos_of_ne_zero pending)
  have writes := inv.writes
  rw [one,List.replicate_one] at writes
  have inside : h.mitem ∈ taken h.items h.fetched .wr := writes ▸ List.mem_append_right _ (List.mem_singleton_self _)
  have unhandled : h.mitem ∉ h.writes := by
    have nodup := taken_nodup h.items h.fetched .wr
    rw [writes] at nodup
    intro handled
    exact (List.nodup_append.mp nodup).2.2 _ handled _ (List.mem_singleton_self _) rfl
  refine ⟨h.mitem,?_,unhandled,lt_of_mem_taken inside⟩
  change h.mitem ∈ taken h.items (h.fetched+1) .wr
  rw [taken_fetch next]
  exact List.mem_append_left _ inside

theorem Lost.not_once {h : Handling} (lost : Lost h) (started : h.toStart = 0) : ¬Once h := by
  intro once
  obtain ⟨w,inside,unhandled,-⟩ := lost
  exact unhandled (once.all started inside)

theorem Lost.deliver {h : Handling} (lost : Lost h) (trs : TrsType) : Lost {h with items := h.items ++ [trs]} := by
  obtain ⟨w,inside,unhandled,before⟩ := lost
  refine ⟨w,?_,unhandled,before⟩
  have here := (List.mem_filter.mp inside).2
  rw [decide_eq_true_eq] at here
  apply List.mem_filter.mpr
  refine ⟨(List.mem_filter.mp inside).1,?_⟩
  rw [decide_eq_true_eq]
  exact (List.getElem?_append_left (List.getElem?_eq_some_iff.mp here).1).trans here

theorem Lost.take {h : Handling} (lost : Lost h) {trs : TrsType} (next : h.items[h.fetched]? = some trs) :
    Lost (h.take trs) := by
  obtain ⟨w,inside,unhandled,-⟩ := lost
  refine ⟨w,?_,unhandled,lt_of_mem_taken inside⟩
  change w ∈ taken h.items (h.fetched+1) .wr
  rw [taken_fetch next]
  exact List.mem_append_left _ inside

theorem Lost.start {h : Handling} (lost : Lost h) : Lost h.start := by
  obtain ⟨w,inside,unhandled,before⟩ := lost
  refine ⟨w,inside,?_,before⟩
  intro handled
  rcases List.mem_append.mp handled with old | new
  · exact unhandled old
  · exact before.ne (List.mem_singleton.mp new)

end Handling

theorem step_inv (s : State) (a : Action) (inv : (handling s).Inv) (alone : Alone s a) : (handling (step s a)).Inv := by
  rcases step_cases s a with same | ⟨trs,deliver⟩ | ⟨some,start⟩ | ⟨trs,next,free,take⟩
  · exact same ▸ inv
  · exact deliver ▸ inv.deliver trs
  · exact start ▸ inv.start some
  · exact take ▸ inv.take next (free alone)

theorem step_lost (s : State) (a : Action) (inv : (handling s).Inv) (early : ¬Alone s a) : (handling (step s a)).Lost := by
  cases a with
  | get blocks =>
    rw [Alone,Classical.not_imp,Classical.not_imp] at early
    obtain ⟨running,more,pending⟩ := early
    have next := List.getElem?_eq_getElem more
    rw [step,rcvFromMon_take s blocks running next]
    exact inv.take_lost next pending
  | deliver _ | complete _ | finishRead | start | finishWrite _ => exact absurd trivial early

theorem lost_step (s : State) (a : Action) (lost : (handling s).Lost) : (handling (step s a)).Lost := by
  rcases step_cases s a with same | ⟨trs,deliver⟩ | ⟨-,start⟩ | ⟨trs,next,-,take⟩
  · exact same ▸ lost
  · exact deliver ▸ lost.deliver trs
  · exact start ▸ lost.start
  · exact take ▸ lost.take next

theorem initial_inv : (handling {}).Inv := ⟨Nat.le_refl _,rfl,Nat.zero_le _,rfl⟩

/-- At every point of every run in which items are taken alone each of them has been handled once;
a run in which one is not, and whose forked handlers have all started, has lost an item. -/
theorem once_iff (actions : List Action) :
    (Machine.Meets step Alone {} actions → ∀ before, before <+: actions → (handling (after before)).Once) ∧
      ((handling (after actions)).toStart = 0 → (handling (after actions)).Once → Machine.Meets step Alone {} actions) := by
  constructor
  · rintro met before ⟨rest,rfl⟩
    exact (Machine.run_invariant step_inv initial_inv ((Machine.meets_append _ _ _ _ _).mp met).1).once
  · intro started once
    apply (Machine.meets_or step_inv step_lost lost_step initial_inv actions).resolve_right
    intro lost
    exact lost.not_once started once

/-- Two write items that wait behind a read: the second is handled twice. -/
theorem not_once_overwritten :
    ¬(handling (after [.deliver .rd,.deliver .wr,.deliver .wr,.get true,.finishRead,.get false,.get false,.get false,
      .start,.start])).Once := by
  intro once
  exact absurd once.nodup (by decide)

end SlaveBaseSeq

end Smtdv
