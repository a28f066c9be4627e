import Smtdv.Ahb.Collected

/-! Responses other than `OKAY`. The second wait of the address collector for a `SPLIT` or an
`ERROR` is for a low `hready`, which never comes, and it has closed an item whose addresses
are all accepted before any response to the last of them. What is left is a `RETRY` before
the last beat. -/
namespace Smtdv.Ahb
open Lib

variable {aw dw : Nat}

/-- Both collectors have closed the item with the response, and it has the beats of the burst. -/
structure ClosedWith (r : TrxRsp) (β : Burst aw dw) (item : CollItem aw dw) : Prop where
  addrComplete : item.addrComplete = true
  dataComplete : item.dataComplete = true
  rsp : item.rsp = some r
  addrs : item.addrs = β.addrs
  data : item.dataBeat = β.data.map packData

/-- Every `NONSEQ` has its item, and the item of an interrupted burst is closed. -/
def Resynced (bursts : List (Burst aw dw)) (items : List (CollItem aw dw)) : Prop :=
  List.Forall₂ (fun β item => item.addr = β.head.haddr ∧ ∀ r, β.resp = some r → ClosedWith r β item) bursts items

namespace Bus

/-- The second cycle of a response is that of a `RETRY` to a beat of a burst of a fixed
length, and not to its last beat. -/
def Retries (b : Bus aw dw) (_ : Sample aw dw × Bool) : Prop :=
  match b.phase,b.current with
  | .second r,some β => r = .retry ∧ β.head.hburst ≠ .incr ∧ β.Open
  | _,_ => True

instance (b : Bus aw dw) (c : Sample aw dw × Bool) : Decidable (b.Retries c) :=
  have pairs : ∀ phase current, Decidable (Retries ⟨b.closed,current,phase⟩ c)
    | .second _,some _ => inferInstanceAs (Decidable (_ ∧ _))
    | .second _,none | .free,_ | .beat,_ => inferInstanceAs (Decidable True)
  pairs b.phase b.current

/-- What a run with no other response than such a `RETRY` can do to a burst. -/
def RetriedEarly (β : Burst aw dw) : Prop := ∀ r, β.resp = some r → r = .retry ∧ β.full = false

theorem Retries.early {b : Bus aw dw} {c : Sample aw dw × Bool} (retries : b.Retries c) {r : TrxRsp}
    (second : b.phase = .second r) {β : Burst aw dw} (current : b.current = some β) :
    r = .retry ∧ β.full = false := by
  simp only [Retries,second,current] at retries
  obtain ⟨retry,fixed,opened⟩ := retries
  obtain ⟨n,beats⟩ := Option.ne_none_iff_exists'.mp (fun none => fixed (incr_beats.mpr none))
  have len := Burst.bstLen_beats beats
  have short := opened n beats
  exact ⟨retry,Burst.full_eq_false.mpr (by omega)⟩

theorem Retries.closes {b : Bus aw dw} (wf : b.Wf) {c : Sample aw dw × Bool} (allowed : b.Allows c)
    (retries : b.Retries c) : b.Closes c := by
  intro r second
  cases current : b.current with
  | none =>
    have free := wf.idle current
    rw [second] at free
    cases free
  | some β =>
    have retry := (retries.early second current).1
    have answers := allowed.1
    simp only [Answers,second] at answers
    exact ⟨answers.2.2.resolve_left (by simp [retry]),.inl retry⟩

theorem finish_early {b : Bus aw dw} (wf : b.Wf) {c : Sample aw dw × Bool} (retries : b.Retries c)
    {β : Burst aw dw} (current : (b.finish c.1).current = some β) : RetriedEarly β := by
  cases phase : b.phase with
  | free =>
    rw [finish_free phase] at current
    intro r refused
    rw [(wf.going β current).unrefused] at refused
    cases refused
  | beat =>
    simp only [finish,phase] at current
    obtain ⟨α,before,rfl⟩ := Option.map_eq_some_iff.mp current
    intro r refused
    rw [Burst.deliver_resp,(wf.going α before).unrefused] at refused
    cases refused
  | second r =>
    simp only [finish,phase] at current
    obtain ⟨α,before,rfl⟩ := Option.map_eq_some_iff.mp current
    intro r' refused
    cases refused
    have early := retries.early phase before
    exact early

theorem step_early {b : Bus aw dw} (wf : b.Wf) {c : Sample aw dw × Bool} (retries : b.Retries c)
    (held : ∀ β ∈ b.closed, RetriedEarly β) : ∀ β ∈ (b.step c).closed, RetriedEarly β := by
  have kept : (b.finish c.1).closed = b.closed := by cases phase : b.phase <;> simp [finish,phase]
  have moved : ∀ β ∈ (b.finish c.1).bursts, RetriedEarly β := by
    intro β member
    rcases List.mem_append.mp member with old | new
    · exact held β (kept ▸ old)
    · exact finish_early wf retries (Option.mem_toList.mp new)
  unfold step
  split
  · cases trans : c.1.htrans with
    | nonseq | idle => simpa only [accept,trans] using moved
    | seq | busy => simpa only [accept,trans,kept] using held
  · unfold hold
    split <;> exact held

/-- The monitor is that of the bus and the refused bursts are those of early `RETRY`s. -/
theorem after_early {trace : List (Sample aw dw × Bool)}
    (met : Machine.Meets step (fun b c => b.Allows c ∧ b.Retries c) {} trace) :
    Monitor.after trace = (after trace).view ∧ (after trace).Wf ∧ ∀ β ∈ (after trace).closed, RetriedEarly β := by
  induction trace using List.reverseRecOn with
  | nil => exact ⟨rfl,initial_wf,fun _ member => (List.not_mem_nil member).elim⟩
  | append_singleton trace c ih =>
    obtain ⟨before,allowed,retries⟩ := (Machine.meets_concat _ _ _ _ _).mp met
    obtain ⟨same,wf,early⟩ := ih before
    have closes := retries.closes wf allowed
    rw [Monitor.after,after,Machine.run_concat,Machine.run_concat]
    exact ⟨(congrArg (·.step c) same).trans (step_view wf allowed closes),wf.step allowed closes.cuts,
      step_early wf retries early⟩

theorem closedWith {β : Burst aw dw} (proper : Proper β) (early : RetriedEarly β) {r : TrxRsp}
    (refused : β.resp = some r) (pending : Option TrxRsp) : ClosedWith r β (β.item pending) := by
  have short := Burst.full_eq_false.mp (early r refused).2
  have answered := proper.answered
  refine ⟨by simp [Burst.item,refused],by simp [Burst.item,refused],?_,List.take_of_length_le (by omega),?_⟩
  · simp [Burst.item,refused,(early r refused).2]
  · exact congrArg (List.map packData) (List.take_of_length_le (by omega))

end Bus

/-- In a run whose only responses beside `OKAY` are `RETRY`s before the last beat of bursts of
fixed lengths, every interrupted item is closed with its response and every `NONSEQ` is
collected, in every state reached. -/
theorem resynced_of_retries (trace : List (Sample aw dw × Bool)) (conformant : Bus.Conformant trace)
    (retries : Machine.Meets Bus.step Bus.Retries {} trace) :
    Resynced (Bus.after trace).bursts (Monitor.after trace).items := by
  obtain ⟨same,wf,early⟩ := Bus.after_early (conformant.and retries)
  rw [same]
  refine List.Forall₂.imp ?_ ((List.forall₂_and_left _ _).mpr ⟨fun β member => member,Bus.view_items _⟩)
  rintro β item ⟨member,pending,rfl⟩
  refine ⟨rfl,fun r refused => Bus.closedWith (wf.proper β member) ?_ refused pending⟩
  rcases List.mem_append.mp member with closed | current
  · exact early β closed
  · have unrefused := (wf.going β (Option.mem_toList.mp current)).unrefused
    rw [unrefused] at refused
    cases refused

/-- A burst of four beats is answered at its first beat, and a single read follows. -/
def refusedFirst (r : TrxRsp) : List (Sample 8 8 × Bool) := [
  ({htrans := .nonseq, haddr := 4, hwrite := true, hburst := .incr4},true),
  ({hready := false, hresp := r, htrans := .seq, haddr := 5, hwrite := true, hburst := .incr4, hwdata := 1},true),
  ({hresp := r, hwdata := 1},false),
  ({htrans := .nonseq, haddr := 9},true),
  ({hrdata := 5},true)]

theorem refusedFirst_resynced :
    Resynced (Bus.after (refusedFirst .retry)).bursts (Monitor.after (refusedFirst .retry)).items :=
  resynced_of_retries (refusedFirst .retry) (by decide) (by decide)

/-- After an `ERROR` the address collector still listens on the interrupted item, and swallows
the `NONSEQ`. -/
theorem refusedFirst_not_resynced : Bus.Conformant (refusedFirst .error) ∧
    ¬ Resynced (Bus.after (refusedFirst .error)).bursts (Monitor.after (refusedFirst .error)).items :=
  ⟨by decide,fun all => absurd all.length_eq (by decide)⟩

end Smtdv.Ahb
