import Smtdv.Ahb.Monitor

/-! The bursts on a conformant bus, read off its signals beat by beat: an address is accepted
and a data phase ends in the cycles with a high `hready`, and every response but `OKAY` takes
two cycles. -/
namespace Smtdv.Ahb
open Lib

variable {aw dw : Nat}

/-- The beats of a burst of a fixed length; `INCR` has none. -/
def BstType.beats : BstType → Option Nat
  | .single => some 1
  | .incr => none
  | .wrap4 | .incr4 => some 4
  | .wrap8 | .incr8 => some 8
  | .wrap16 | .incr16 => some 16

theorem BstType.beats_eq_none {bstType : BstType} : bstType.beats = none ↔ bstType = .incr := by
  cases bstType <;> simp [beats]

theorem getBstLen_beats {bstType : BstType} {n : Nat} (fixed : bstType.beats = some n) :
    getBstLen bstType ([] : List (BitVec aw))+1 = n := by
  cases bstType with
  | incr => contradiction
  | single | wrap4 | incr4 | wrap8 | incr8 | wrap16 | incr16 => exact Option.some.inj fixed

/-- A `NONSEQ` or an `IDLE` ends the burst before it. -/
def HTrans.ends : HTrans → Bool
  | .nonseq | .idle => true
  | .seq | .busy => false

/-- A burst so far: the cycle of its `NONSEQ`, the `haddr` of its beats, the data of the beats
answered `OKAY`, and another response to one of them. -/
structure Burst (aw dw : Nat) where
  head : Sample aw dw
  addrs : List (BitVec aw)
  data : List (BitVec dw) := []
  resp : Option TrxRsp := none
  deriving DecidableEq

/-- What the data phase is doing: none is open, a beat waits for its response, or the
response is in its second cycle. -/
inductive Phase
  | free
  | beat
  | second (r : TrxRsp)
  deriving DecidableEq

/-- The beats accepted and not yet answered. -/
def Phase.owed : Phase → Nat
  | .free => 0
  | .beat | .second _ => 1

/-- The bursts that are over, in order, and the one that is not. -/
structure Bus (aw dw : Nat) where
  closed : List (Burst aw dw) := []
  current : Option (Burst aw dw) := none
  phase : Phase := .free
  deriving DecidableEq

namespace Burst

def Open (β : Burst aw dw) : Prop := ∀ n, β.head.hburst.beats = some n → β.addrs.length < n

def Over (β : Burst aw dw) : Prop :=
  β.resp ≠ none ∨ ∀ n, β.head.hburst.beats = some n → β.addrs.length = n

instance (β : Burst aw dw) : Decidable β.Open := by
  unfold Open
  cases β.head.hburst.beats with
  | none => exact isTrue nofun
  | some n => exact decidable_of_iff (β.addrs.length < n) (by simp)

instance (β : Burst aw dw) : Decidable β.Over := by
  unfold Over
  cases β.head.hburst.beats with
  | none => exact isTrue (.inr nofun)
  | some n => exact decidable_of_iff (β.resp ≠ none ∨ β.addrs.length = n) (by simp)

/-- Its `NONSEQ` is accepted. -/
def start (c : Sample aw dw) : Burst aw dw := {head := c, addrs := [c.haddr]}

/-- A `SEQ` is accepted. -/
def goOn (β : Burst aw dw) (c : Sample aw dw) : Burst aw dw := {β with addrs := β.addrs ++ [c.haddr]}

/-- A data phase ends with `OKAY`. -/
def deliver (β : Burst aw dw) (c : Sample aw dw) : Burst aw dw :=
  {β with data := β.data ++ [if β.head.hwrite then c.hwdata else c.hrdata]}

/-- A data phase ends with another response. -/
def refuse (β : Burst aw dw) (r : TrxRsp) : Burst aw dw := {β with resp := some r}

end Burst

namespace Bus

/-- All bursts whose `NONSEQ` has been accepted. -/
def bursts (b : Bus aw dw) : List (Burst aw dw) := b.closed ++ b.current.toList

/-- The data phase ends. -/
def finish (b : Bus aw dw) (c : Sample aw dw) : Bus aw dw :=
  match b.phase with
  | .free => b
  | .beat => {b with current := b.current.map (·.deliver c), phase := .free}
  | .second r => {b with current := b.current.map (·.refuse r), phase := .free}

/-- The address phase is accepted. -/
def accept (b : Bus aw dw) (c : Sample aw dw) : Bus aw dw :=
  match c.htrans with
  | .nonseq => ⟨b.bursts,some (.start c),.beat⟩
  | .seq => {b with current := b.current.map (·.goOn c), phase := .beat}
  | .busy => b
  | .idle => ⟨b.bursts,none,.free⟩

/-- A cycle with a low `hready`. -/
def hold (b : Bus aw dw) (c : Sample aw dw) : Bus aw dw :=
  if c.hresp = .okay then b else {b with phase := .second c.hresp}

def step (b : Bus aw dw) (c : Sample aw dw × Bool) : Bus aw dw :=
  if c.1.hready then (b.finish c.1).accept c.1 else b.hold c.1

def after (trace : List (Sample aw dw × Bool)) : Bus aw dw := Machine.run step {} trace

/-- What the slave may answer. Only after an `ERROR` the master need not turn to `IDLE`. -/
def Answers (b : Bus aw dw) (c : Sample aw dw) : Prop :=
  match b.phase with
  | .free => c.hresp = .okay
  | .beat => c.hresp = .okay ∨ c.hready = false
  | .second r => c.hready = true ∧ c.hresp = r ∧ (r = .error ∨ c.htrans = .idle)

/-- What the master may have accepted, once the data phase has ended. -/
def Offers (b : Bus aw dw) (c : Sample aw dw) : Prop :=
  match b.current with
  | none => c.htrans.ends = true
  | some β => if c.htrans.ends then β.Over else β.Open

def Allows (b : Bus aw dw) (c : Sample aw dw × Bool) : Prop :=
  b.Answers c.1 ∧ (c.1.hready = true → (b.finish c.1).Offers c.1)

instance (b : Bus aw dw) (c : Sample aw dw) : Decidable (b.Answers c) := by
  unfold Answers
  cases b.phase <;> infer_instance

instance (b : Bus aw dw) (c : Sample aw dw) : Decidable (b.Offers c) := by
  unfold Offers
  cases b.current <;> infer_instance

instance (b : Bus aw dw) (c : Sample aw dw × Bool) : Decidable (b.Allows c) :=
  inferInstanceAs (Decidable (_ ∧ _))

def Conformant (trace : List (Sample aw dw × Bool)) : Prop := Machine.Meets step Allows {} trace

instance (trace : List (Sample aw dw × Bool)) : Decidable (Conformant trace) :=
  inferInstanceAs (Decidable (Machine.Meets _ _ _ _))

/-! ### The bursts of a trace -/

theorem finish_heads (b : Bus aw dw) (c : Sample aw dw) :
    (b.finish c).bursts.map Burst.head = b.bursts.map Burst.head := by
  obtain ⟨closed,_ | β,phase⟩ := b <;> cases phase <;> simp [finish,bursts,Burst.deliver,Burst.refuse]

theorem accept_heads (b : Bus aw dw) (c : Sample aw dw) :
    (b.accept c).bursts.map Burst.head = b.bursts.map Burst.head ++ if c.htrans = .nonseq then [c] else [] := by
  obtain ⟨closed,_ | β,phase⟩ := b <;> cases trans : c.htrans <;>
    simp [accept,bursts,trans,Burst.start,Burst.goOn]

/-- The cycles in which a `NONSEQ` is accepted. -/
def nonseqs (trace : List (Sample aw dw × Bool)) : List (Sample aw dw) :=
  (trace.map Prod.fst).filter fun c => c.hready && decide (c.htrans = .nonseq)

theorem heads_after (trace : List (Sample aw dw × Bool)) : (after trace).bursts.map Burst.head = nonseqs trace := by
  induction trace using List.reverseRecOn with
  | nil => rfl
  | append_singleton trace c ih =>
    rw [after,Machine.run_concat,nonseqs,List.map_append,List.filter_append,← nonseqs,← ih]
    change (step (after trace) c).bursts.map Burst.head = _
    unfold step
    cases ready : c.1.hready with
    | false =>
      have same : ((after trace).hold c.1).bursts = (after trace).bursts := by
        unfold hold
        split <;> rfl
      simp [same,ready]
    | true =>
      rw [if_pos rfl,accept_heads,finish_heads]
      by_cases nonseq : c.1.htrans = .nonseq <;> simp [ready,nonseq]

/-! ### The bursts it can have -/

/-- During a data phase the addresses are one ahead of the data. -/
structure Going (β : Burst aw dw) (phase : Phase) : Prop where
  unrefused : β.resp = none
  started : 0 < β.addrs.length
  bounded : ∀ n, β.head.hburst.beats = some n → β.addrs.length ≤ n
  ahead : β.addrs.length = β.data.length + phase.owed

/-- All its beats were answered `OKAY`. -/
structure Whole (β : Burst aw dw) : Prop where
  unrefused : β.resp = none
  started : 0 < β.addrs.length
  full : ∀ n, β.head.hburst.beats = some n → β.addrs.length = n
  answered : β.data.length = β.addrs.length

/-- Its last accepted beat was answered otherwise. -/
structure Refused (β : Burst aw dw) : Prop where
  refused : β.resp ≠ none
  bounded : ∀ n, β.head.hburst.beats = some n → β.addrs.length ≤ n
  ahead : β.addrs.length = β.data.length+1

structure Wf (b : Bus aw dw) : Prop where
  closed : ∀ β ∈ b.closed, Whole β ∨ Refused β
  second : b.phase ≠ .second .okay
  idle : b.current = none → b.phase = .free
  going : ∀ β, b.current = some β → Going β b.phase

theorem initial_wf : ({} : Bus aw dw).Wf := 
  ⟨fun _ member => (List.not_mem_nil member).elim,by simp,fun _ => rfl,fun _ current => by cases current⟩

theorem Going.start (c : Sample aw dw) : Going (.start c) .beat := by
  refine ⟨rfl,by simp [Burst.start],fun n fixed => ?_,rfl⟩
  change c.hburst.beats = some n at fixed
  cases burst : c.hburst <;> simp [burst,BstType.beats] at fixed <;> simp [Burst.start,← fixed]

theorem Going.deliver {β : Burst aw dw} (going : Going β .beat) (c : Sample aw dw) : Going (β.deliver c) .free := by
  refine ⟨going.unrefused,going.started,going.bounded,?_⟩
  simpa [Burst.deliver,Phase.owed] using going.ahead

theorem Going.goOn {β : Burst aw dw} (going : Going β .free) (opened : β.Open) (c : Sample aw dw) :
    Going (β.goOn c) .beat := by
  refine ⟨going.unrefused,by simp [Burst.goOn],fun n fixed => ?_,?_⟩
  · simpa [Burst.goOn] using Nat.succ_le_of_lt (opened n fixed)
  · simpa [Burst.goOn,Phase.owed] using going.ahead

theorem Going.whole {β : Burst aw dw} (going : Going β .free) (ended : β.Over) : Whole β := by
  refine ⟨going.unrefused,going.started,?_,by simpa [Phase.owed] using going.ahead.symm⟩
  exact ended.resolve_left (not_not_intro going.unrefused)

theorem Going.refuse {β : Burst aw dw} {r : TrxRsp} (going : Going β (.second r)) : Refused (β.refuse r) :=
  ⟨by simp [Burst.refuse],going.bounded,going.ahead⟩

theorem finish_free {b : Bus aw dw} (free : b.phase = .free) (c : Sample aw dw) : b.finish c = b := by
  simp [finish,free]

theorem Wf.finish {b : Bus aw dw} (wf : b.Wf) (first : ∀ r, b.phase ≠ .second r) (c : Sample aw dw) :
    (b.finish c).Wf ∧ (b.finish c).phase = .free := by
  cases phase : b.phase with
  | free => simpa [finish_free phase,phase] using wf
  | second r => exact absurd phase (first r)
  | beat =>
    simp only [Bus.finish,phase,and_true]
    refine ⟨wf.closed,by simp,fun _ => rfl,fun β current => ?_⟩
    obtain ⟨α,before,rfl⟩ := Option.map_eq_some_iff.mp current
    have going := wf.going α before
    rw [phase] at going
    exact going.deliver c

theorem Wf.bursts_whole {b : Bus aw dw} (wf : b.Wf) (free : b.phase = .free)
    (ended : ∀ β, b.current = some β → β.Over) : ∀ β ∈ b.bursts, Whole β ∨ Refused β := by
  intro β member
  rcases List.mem_append.mp member with member | member
  · exact wf.closed β member
  · have current := Option.mem_toList.mp member
    have going := wf.going β current
    rw [free] at going
    exact .inl (going.whole (ended β current))

theorem Wf.accept {b : Bus aw dw} (wf : b.Wf) (free : b.phase = .free) {c : Sample aw dw} (offers : b.Offers c) :
    (b.accept c).Wf := by
  have ended (ends : c.htrans.ends = true) (β : Burst aw dw) (current : b.current = some β) : β.Over := by
    simpa [Offers,current,ends] using offers
  cases trans : c.htrans with
  | nonseq =>
    simp only [Bus.accept,trans]
    refine ⟨wf.bursts_whole free (ended (by simp [trans,HTrans.ends])),by simp,
      fun current => (Option.some_ne_none _ current).elim,fun β current => ?_⟩
    cases current
    exact .start c
  | idle =>
    simp only [Bus.accept,trans]
    exact ⟨wf.bursts_whole free (ended (by simp [trans,HTrans.ends])),by simp,
      fun _ => rfl,fun _ current => by cases current⟩
  | busy => simpa only [Bus.accept,trans] using wf
  | seq =>
    simp only [Bus.accept,trans]
    cases current : b.current with
    | none => simp [Offers,current,trans,HTrans.ends] at offers
    | some β =>
      have going := wf.going β current
      rw [free] at going
      have opened : β.Open := by simpa [Offers,current,trans,HTrans.ends] using offers
      refine ⟨wf.closed,by simp,fun current => (Option.some_ne_none _ current).elim,fun α same => ?_⟩
      cases same
      exact going.goOn opened c

/-- The master turns to `IDLE` in the second cycle of every response. -/
def Cuts (b : Bus aw dw) (c : Sample aw dw × Bool) : Prop := ∀ r, b.phase = .second r → c.1.htrans = .idle

theorem Wf.hold {b : Bus aw dw} (wf : b.Wf) {c : Sample aw dw} (answers : b.Answers c)
    (low : c.hready = false) : (b.hold c).Wf := by
  unfold Bus.hold
  split
  · exact wf
  · next other =>
    have phase : b.phase = .beat := by
      cases phase : b.phase <;> simp_all [Answers]
    refine ⟨wf.closed,by simpa using other,fun current => ?_,fun β current => ?_⟩
    · simpa [phase] using wf.idle current
    · have going := wf.going β current
      rw [phase] at going
      exact ⟨going.unrefused,going.started,going.bounded,going.ahead⟩

theorem Wf.step {b : Bus aw dw} (wf : b.Wf) {c : Sample aw dw × Bool} (allowed : b.Allows c) (cuts : b.Cuts c) :
    (b.step c).Wf := by
  unfold Bus.step
  split
  · next ready =>
    by_cases second : ∃ r, b.phase = .second r
    · obtain ⟨r,second⟩ := second
      simp only [Bus.accept,cuts r second]
      refine ⟨fun β member => ?_,by simp,fun _ => rfl,fun _ current => by cases current⟩
      simp only [bursts,Bus.finish,second,List.mem_append,Option.mem_toList] at member
      rcases member with member | member
      · exact wf.closed β member
      · obtain ⟨α,before,rfl⟩ := Option.map_eq_some_iff.mp member
        have going := wf.going α before
        rw [second] at going
        exact .inr going.refuse
    · obtain ⟨finished,free⟩ := wf.finish (not_exists.mp second) c.1
      exact finished.accept free (allowed.2 ready)
  · next low => exact wf.hold allowed.1 (by simpa using low)

end Bus

end Smtdv.Ahb
