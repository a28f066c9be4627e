import Smtdv.Ahb.Collect

/-! The items of a trace whose responses are all `OKAY`. A burst of a fixed length is
collected whole; an `INCR` burst is given a `bst_len` of zero and collected as its first beat. -/
namespace Smtdv.Ahb
open Lib

variable {aw dw : Nat}

structure HasControls (β : Burst aw dw) (item : CollItem aw dw) : Prop where
  addr : item.addr = β.head.haddr
  trsT : item.trsT = if β.head.hwrite then .wr else .rd
  trxSize : item.trxSize = β.head.hsize
  bstType : item.bstType = β.head.hburst
  trxPrt : item.trxPrt = β.head.hprot
  hmastlock : item.hmastlock = β.head.hmastlock

/-- The item has the controls and all the beats of the burst. -/
structure Records (β : Burst aw dw) (item : CollItem aw dw) : Prop extends HasControls β item where
  addrs : item.addrs = β.addrs
  data : item.dataBeat = β.data.map packData

/-- The item has the controls and the first beat of the burst. -/
structure RecordsFirst (β : Burst aw dw) (item : CollItem aw dw) : Prop extends HasControls β item where
  addrs : item.addrs = β.addrs.take 1
  data : item.dataBeat = (β.data.take 1).map packData

/-- An item written to the port: as many addresses and data beats as its `bst_len` says. -/
structure Finished (item : CollItem aw dw) : Prop where
  addrs : item.addrs.length = item.bstLen+1
  data : item.dataBeat.length = item.bstLen+1
  rsp : item.rsp = some .okay
  success : item.success = true

def Burst.complete (β : Burst aw dw) : Bool := decide (β.head.hburst.beats = some β.data.length)

/-- The data the item waits for are in: those of the first beat of an `INCR`, or all. -/
def Burst.collectable (β : Burst aw dw) : Bool :=
  if β.head.hburst = .incr then decide (β.data ≠ []) else β.complete

def AllOkay (trace : List (Sample aw dw × Bool)) : Prop := ∀ c ∈ trace, c.1.hresp = .okay

/-- No burst of undefined length starts on the trace. -/
def FixedLength (trace : List (Sample aw dw × Bool)) : Prop :=
  ∀ c ∈ trace, c.1.htrans = .nonseq → c.1.hburst ≠ .incr

instance (trace : List (Sample aw dw × Bool)) : Decidable (AllOkay trace) :=
  inferInstanceAs (Decidable (∀ c ∈ trace, _))

instance (trace : List (Sample aw dw × Bool)) : Decidable (FixedLength trace) :=
  inferInstanceAs (Decidable (∀ c ∈ trace, _))

namespace Bus

theorem finish_noSecond (b : Bus aw dw) (c : Sample aw dw) : (b.finish c).phase = .free := by
  cases phase : b.phase <;> simp [finish,phase]

theorem okay_noSecond {b : Bus aw dw} (none : ∀ r, b.phase ≠ .second r) {c : Sample aw dw × Bool}
    (okay : c.1.hresp = .okay) : ∀ r, (b.step c).phase ≠ .second r := by
  unfold step
  split
  · have free := finish_noSecond b c.1
    generalize b.finish c.1 = finished at free ⊢
    cases trans : c.1.htrans <;> simp [accept,trans,free]
  · simpa [hold,okay] using none

theorem meets_okay {trace : List (Sample aw dw × Bool)} (okay : AllOkay trace) :
    ∀ b : Bus aw dw, Machine.Meets step (fun _ c => c.1.hresp = .okay) b trace := by
  induction trace with
  | nil => exact fun b => trivial
  | cons c rest ih =>
    exact fun b => ⟨okay c List.mem_cons_self,ih (fun c' member => okay c' (List.mem_cons_of_mem c member)) _⟩

theorem meets_closes {trace : List (Sample aw dw × Bool)} (conformant : Conformant trace) (okay : AllOkay trace) :
    Machine.Meets step (fun b c => b.Allows c ∧ b.Closes c) {} trace := by
  refine @Machine.Meets.under _ _ step (fun b c => b.Allows c ∧ c.1.hresp = .okay) _
    (fun b => ∀ r, b.phase ≠ .second r) (fun b c none met => okay_noSecond none met.2)
    (fun b c none met => ⟨met.1,fun r second => absurd second (none r)⟩) {} trace (by simp) ?_
  exact conformant.and (meets_okay okay {})

/-- What is known of every burst. -/
structure Proper (β : Burst aw dw) : Prop where
  bounded : ∀ n, β.head.hburst.beats = some n → β.addrs.length ≤ n
  answered : β.data.length ≤ β.addrs.length
  started : 0 < β.addrs.length

theorem Wf.proper {b : Bus aw dw} (wf : b.Wf) (β : Burst aw dw) (member : β ∈ b.bursts) : Proper β := by
  rcases List.mem_append.mp member with member | member
  · rcases wf.closed β member with whole | refused
    · exact ⟨fun n fixed => (whole.full n fixed).le,whole.answered.le,whole.started⟩
    · have ahead := refused.ahead
      exact ⟨refused.bounded,by omega,by omega⟩
  · have going := wf.going β (Option.mem_toList.mp member)
    have ahead := going.ahead
    exact ⟨going.bounded,by omega,going.started⟩

theorem incr_beats {β : Burst aw dw} : β.head.hburst = .incr ↔ β.head.hburst.beats = none :=
  BstType.beats_eq_none.symm

theorem Proper.served {β : Burst aw dw} (proper : Proper β) : β.served = β.collectable := by
  unfold Burst.served Burst.collectable Burst.complete
  split
  · next incr =>
    rw [Burst.bstLen_incr (incr_beats.mp incr)]
    cases β.data <;> simp
  · next other =>
    obtain ⟨n,fixed⟩ := Option.ne_none_iff_exists'.mp (fun none => other (incr_beats.mpr none))
    have len := Burst.bstLen_beats fixed
    have bounded := proper.bounded n fixed
    have answered := proper.answered
    rw [fixed,decide_eq_decide,Option.some.injEq]
    omega

theorem hasControls (β : Burst aw dw) (pending : Option TrxRsp) : HasControls β (β.item pending) :=
  ⟨rfl,rfl,rfl,rfl,rfl,rfl⟩

theorem Proper.records {β : Burst aw dw} (proper : Proper β) (fixed : β.head.hburst ≠ .incr)
    (pending : Option TrxRsp) : Records β (β.item pending) := by
  obtain ⟨n,beats⟩ := Option.ne_none_iff_exists'.mp (fun none => fixed (incr_beats.mpr none))
  have len := Burst.bstLen_beats beats
  have bounded := proper.bounded n beats
  have answered := proper.answered
  refine ⟨hasControls β pending,List.take_of_length_le (by omega),?_⟩
  exact congrArg (List.map packData) (List.take_of_length_le (by omega))

theorem recordsFirst {β : Burst aw dw} (incr : β.head.hburst = .incr) (pending : Option TrxRsp) :
    RecordsFirst β (β.item pending) := by
  have len := Burst.bstLen_incr (incr_beats.mp incr)
  refine ⟨hasControls β pending,?_,?_⟩ <;> simp [Burst.item,len]

theorem Proper.finished {β : Burst aw dw} (proper : Proper β) (served : β.served = true)
    (pending : Option TrxRsp) : Finished (β.item pending) := by
  have enough := Burst.served_eq_true.mp served
  have answered := proper.answered
  have full : β.full = true := Burst.full_eq_true.mpr (by omega)
  refine ⟨?_,?_,by simp [Burst.item,full],served⟩ <;> simp [Burst.item] <;> omega

/-! ### The items written to the port -/

theorem collected_from {R : Burst aw dw → CollItem aw dw → Prop} {bursts : List (Burst aw dw)}
    {items : List (CollItem aw dw)} (related : List.Forall₂ R bursts items) : ∀ before : List (CollItem aw dw),
    List.Forall₂ R (bursts.filter Burst.served)
      ((((bursts.zipIdx before.length).filter fun entry => entry.1.served).map Prod.snd).map
        fun h => (before ++ items)[h]?.getD default) := by
  induction related with
  | nil => exact fun before => .nil
  | @cons β item bursts items first rest ih =>
    intro before
    have tail := ih (before ++ [item])
    rw [List.length_append,List.length_singleton,List.append_assoc,List.singleton_append] at tail
    cases served : β.served with
    | false => simpa [List.zipIdx_cons,served] using tail
    | true => simpa [List.zipIdx_cons,served] using ⟨first,by simpa using tail⟩

/-- What relates the bursts and their items relates those whose data are in and the items at
the port. -/
theorem collected_related {R : Burst aw dw → CollItem aw dw → Prop} {bursts : List (Burst aw dw)}
    {items : List (CollItem aw dw)} (related : List.Forall₂ R bursts items) :
    List.Forall₂ R (bursts.filter Burst.served) ((collectedOf bursts).map fun h => items[h]?.getD default) :=
  collected_from related []

theorem view_items (b : Bus aw dw) :
    List.Forall₂ (fun β item => ∃ pending, item = β.item pending) b.bursts b.view.items := by
  refine List.rel_append ?_ ?_
  · rw [List.forall₂_map_right_iff,List.forall₂_same]
    exact fun β _ => ⟨none,rfl⟩
  · cases b.current with
    | none => exact .nil
    | some β => exact .cons ⟨_,rfl⟩ .nil

theorem okay_items {trace : List (Sample aw dw × Bool)} (conformant : Conformant trace) (okay : AllOkay trace)
    {R : Burst aw dw → CollItem aw dw → Prop}
    (each : ∀ β ∈ (after trace).bursts, Proper β → ∀ pending, R β (β.item pending)) :
    List.Forall₂ R (after trace).bursts (Monitor.after trace).items := by
  obtain ⟨same,wf⟩ := after_view (meets_closes conformant okay)
  rw [same]
  have proper := wf.proper
  refine List.Forall₂.imp ?_ ((List.forall₂_and_left _ _).mpr ⟨fun β member => member,view_items (after trace)⟩)
  rintro β item ⟨member,pending,rfl⟩
  exact each β member (proper β member) pending

theorem okay_collected {trace : List (Sample aw dw × Bool)} (conformant : Conformant trace) (okay : AllOkay trace)
    {R : Burst aw dw → CollItem aw dw → Prop}
    (each : ∀ β ∈ (after trace).bursts, Proper β → ∀ pending, R β (β.item pending)) :
    List.Forall₂ (fun β item => R β item ∧ Finished item) ((after trace).bursts.filter Burst.collectable)
      ((Monitor.after trace).collected.map (Monitor.after trace).item) := by
  obtain ⟨same,wf⟩ := after_view (meets_closes conformant okay)
  have related := okay_items conformant okay (R := fun β item => R β item ∧ (β.served = true → Finished item))
    fun β member proper pending => ⟨each β member proper pending,fun served => proper.finished served pending⟩
  have filtered : (after trace).bursts.filter Burst.served = (after trace).bursts.filter Burst.collectable :=
    List.filter_congr fun β member => (wf.proper β member).served
  have written := collected_related related
  have port : (Monitor.after trace).collected = collectedOf (after trace).bursts := by rw [same]; rfl
  rw [← port] at written
  rw [← filtered]
  refine List.Forall₂.imp ?_ ((List.forall₂_and_left _ _).mpr ⟨fun β member => member,written⟩)
  exact fun β item held => ⟨held.2.1,held.2.2 (List.mem_filter.mp held.1).2⟩

theorem head_mem {trace : List (Sample aw dw × Bool)} {β : Burst aw dw} (member : β ∈ (after trace).bursts) :
    β.head.htrans = .nonseq ∧ ∃ c ∈ trace, c.1 = β.head := by
  have head : β.head ∈ nonseqs trace := heads_after trace ▸ List.mem_map_of_mem member
  obtain ⟨accepted,nonseq⟩ := List.mem_filter.mp head
  obtain ⟨c,inside,same⟩ := List.mem_map.mp accepted
  exact ⟨by simpa using (Bool.and_eq_true_iff.mp nonseq).2,c,inside,same⟩

end Bus

/-- Bursts of fixed lengths: one item for each `NONSEQ`, in order, with the addresses and the
data of its beats, and the complete ones at the port with as many as `bst_len` says. -/
theorem fixed_collected (trace : List (Sample aw dw × Bool)) (conformant : Bus.Conformant trace)
    (okay : AllOkay trace) (fixed : FixedLength trace) :
    (Bus.after trace).bursts.map Burst.head = Bus.nonseqs trace ∧
    List.Forall₂ Records (Bus.after trace).bursts (Monitor.after trace).items ∧
    List.Forall₂ (fun β item => Records β item ∧ Finished item) ((Bus.after trace).bursts.filter Burst.complete)
      ((Monitor.after trace).collected.map (Monitor.after trace).item) := by
  have other (β : Burst aw dw) (member : β ∈ (Bus.after trace).bursts) : β.head.hburst ≠ .incr := by
    obtain ⟨nonseq,c,inside,same⟩ := Bus.head_mem member
    exact same ▸ fixed c inside (by rw [same,nonseq])
  have each (β : Burst aw dw) (member : β ∈ (Bus.after trace).bursts) (proper : Bus.Proper β) :=
    proper.records (other β member)
  have filtered : (Bus.after trace).bursts.filter Burst.complete =
      (Bus.after trace).bursts.filter Burst.collectable :=
    List.filter_congr fun β member => by simp [Burst.collectable,other β member]
  exact ⟨Bus.heads_after trace,Bus.okay_items conformant okay each,
    filtered ▸ Bus.okay_collected conformant okay each⟩

/-- A write burst of four beats with a wait state and a `BUSY`, and a read right behind it. -/
def backToBack : List (Sample 8 8 × Bool) := [
  ({htrans := .nonseq, haddr := 4, hwrite := true, hburst := .incr4},true),
  ({hready := false, htrans := .seq, haddr := 5, hwrite := true, hburst := .incr4, hwdata := 1},false),
  ({htrans := .seq, haddr := 5, hwrite := true, hburst := .incr4, hwdata := 1},true),
  ({htrans := .busy, haddr := 6, hwrite := true, hburst := .incr4, hwdata := 2},false),
  ({htrans := .seq, haddr := 6, hwrite := true, hburst := .incr4},false),
  ({htrans := .seq, haddr := 7, hwrite := true, hburst := .incr4, hwdata := 3},true),
  ({htrans := .nonseq, haddr := 9, hwdata := 4},false),
  ({hrdata := 5},true)]

theorem backToBack_collected :
    (Bus.after backToBack).bursts.map Burst.head = Bus.nonseqs backToBack ∧
    List.Forall₂ Records (Bus.after backToBack).bursts (Monitor.after backToBack).items ∧
    List.Forall₂ (fun β item => Records β item ∧ Finished item)
      ((Bus.after backToBack).bursts.filter Burst.complete)
      ((Monitor.after backToBack).collected.map (Monitor.after backToBack).item) :=
  fixed_collected backToBack (by decide) (by decide) (by decide)

/-- One item for each burst, in order. Of an `INCR` it has the first beat, which is at the
port once its data are in. -/
theorem incr_collected (trace : List (Sample aw dw × Bool)) (conformant : Bus.Conformant trace)
    (okay : AllOkay trace) :
    (Bus.after trace).bursts.map Burst.head = Bus.nonseqs trace ∧
    List.Forall₂ (fun β item => if β.head.hburst = .incr then RecordsFirst β item else Records β item)
      (Bus.after trace).bursts (Monitor.after trace).items ∧
    List.Forall₂ (fun β item =>
        (if β.head.hburst = .incr then RecordsFirst β item else Records β item) ∧ Finished item)
      ((Bus.after trace).bursts.filter Burst.collectable)
      ((Monitor.after trace).collected.map (Monitor.after trace).item) := by
  have each (β : Burst aw dw) (_ : β ∈ (Bus.after trace).bursts) (proper : Bus.Proper β) (pending : Option TrxRsp) :
      if β.head.hburst = .incr then RecordsFirst β (β.item pending) else Records β (β.item pending) := by
    split
    · next incr => exact Bus.recordsFirst incr pending
    · next other => exact proper.records other pending
  exact ⟨Bus.heads_after trace,Bus.okay_items conformant okay each,Bus.okay_collected conformant okay each⟩

def incrPair : List (Sample 8 8 × Bool) := [
  ({htrans := .nonseq, haddr := 4, hburst := .incr},true),
  ({htrans := .seq, haddr := 5, hburst := .incr, hrdata := 1},true),
  ({hrdata := 2},true)]

theorem incrPair_collected :
    (Bus.after incrPair).bursts.map Burst.head = Bus.nonseqs incrPair ∧
    List.Forall₂ (fun β item => if β.head.hburst = .incr then RecordsFirst β item else Records β item)
      (Bus.after incrPair).bursts (Monitor.after incrPair).items ∧
    List.Forall₂ (fun β item =>
        (if β.head.hburst = .incr then RecordsFirst β item else Records β item) ∧ Finished item)
      ((Bus.after incrPair).bursts.filter Burst.collectable)
      ((Monitor.after incrPair).collected.map (Monitor.after incrPair).item) :=
  incr_collected incrPair (by decide) (by decide)

theorem records_addrs {bursts : List (Burst aw dw)} {items : List (CollItem aw dw)}
    (all : List.Forall₂ Records bursts items) : items.map CollItem.addrs = bursts.map Burst.addrs := by
  induction all with
  | nil => rfl
  | cons first _ ih => exact congrArg₂ List.cons first.addrs ih

/-- The second beat of the pair is in no item. -/
theorem incrPair_not_records : Bus.Conformant incrPair ∧ AllOkay incrPair ∧
    ¬ List.Forall₂ Records (Bus.after incrPair).bursts (Monitor.after incrPair).items := by
  exact ⟨by decide,by decide,fun all => absurd (records_addrs all) (by decide)⟩

end Smtdv.Ahb
