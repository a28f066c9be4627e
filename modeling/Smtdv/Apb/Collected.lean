import Smtdv.Apb.Monitor

/-! The transfers on a conformant bus and the items collected of them. A collector waits for
`pready` only from the edge after the one at which it has seen the access phase, so what it
collects are the transfers when each of them has a wait state. -/
namespace Smtdv.Apb
open Lib

variable {aw dw : Nat}

/-- A transfer, with the data and the error of the cycle that ends it. -/
structure Transfer (aw dw : Nat) where
  addr : BitVec aw
  write : Bool
  data : BitVec dw
  err : Bool
  deriving DecidableEq

/-- Between transfers, after the setup cycle of one, or after some wait states of its access. -/
inductive Phase (aw dw : Nat)
  | idle
  | setup (s : Sample aw dw)
  | access (s : Sample aw dw)
  deriving DecidableEq

structure Bus (aw dw : Nat) where
  phase : Phase aw dw := .idle
  transfers : List (Transfer aw dw) := []
  deriving DecidableEq

namespace Bus

def accessed (b : Bus aw dw) (s c : Sample aw dw) : Bus aw dw :=
  if c.pready then ⟨.idle,b.transfers ++ [⟨c.paddr,c.prwd,if c.prwd then c.pwdata else c.prdata,c.pslverr⟩]⟩
  else {b with phase := .access s}

def step (b : Bus aw dw) (c : Sample aw dw × Bool) : Bus aw dw :=
  match b.phase with
  | .idle => if c.1.psel = 0 then b else {b with phase := .setup c.1}
  | .setup s | .access s => b.accessed s c.1

def after (trace : List (Sample aw dw × Bool)) : Bus aw dw := Machine.run step {} trace

def oneHot (psel : BitVec 16) : Bool := (List.range 16).any fun i => decide (psel = 1#16 <<< i)

def Holds (s c : Sample aw dw) : Prop :=
  c.psel = s.psel ∧ c.penable = true ∧ c.paddr = s.paddr ∧ c.prwd = s.prwd ∧
    (s.prwd = true → c.pwdata = s.pwdata)

def Allows (b : Bus aw dw) (c : Sample aw dw × Bool) : Prop :=
  match b.phase with
  | .idle => c.1.penable = false ∧ (c.1.psel = 0 ∨ oneHot c.1.psel = true)
  | .setup s | .access s => Holds s c.1

/-- The first cycle of an access phase is a wait state. -/
def Waits (b : Bus aw dw) (c : Sample aw dw × Bool) : Prop :=
  match b.phase with
  | .setup _ => c.1.pready = false
  | _ => True

instance (s c : Sample aw dw) : Decidable (Holds s c) := inferInstanceAs (Decidable (_ ∧ _))

instance (b : Bus aw dw) (c : Sample aw dw × Bool) : Decidable (b.Allows c) := by
  unfold Allows
  split <;> infer_instance

instance (b : Bus aw dw) (c : Sample aw dw × Bool) : Decidable (b.Waits c) := by
  unfold Waits
  split <;> infer_instance

def Conformant (trace : List (Sample aw dw × Bool)) : Prop := Machine.Meets step Allows {} trace

instance (trace : List (Sample aw dw × Bool)) : Decidable (Conformant trace) :=
  inferInstanceAs (Decidable (Machine.Meets _ _ _ _))

end Bus

structure Shows (t : Transfer aw dw) (item : CollItem aw dw) : Prop where
  addr : item.addr = t.addr
  addrs : item.addrs = [t.addr]
  trsT : item.trsT = if t.write then .wr else .rd
  data : item.dataBeat = [packData t.data]
  rsp : item.rsp = some (if t.err then .error else .okay)

def Collects (trace : List (Sample aw dw × Bool)) : Prop :=
  List.Forall₂ Shows (Bus.after trace).transfers (Monitor.after trace).collected

/-- The collector of the direction of an access phase has its item. -/
def Tracks (m : Monitor aw dw) : Phase aw dw → Prop
  | .idle => m.wr = none ∧ m.rd = none
  | .setup s => m.wr = none ∧ m.rd = none ∧ s.psel ≠ 0
  | .access s => s.psel ≠ 0 ∧ (if s.prwd then m.wr = some (populateBeginItem .wr s) ∧ m.rd = none
      else m.wr = none ∧ m.rd = some (populateBeginItem .rd s))

theorem collect_idle {dir : TrsType} {c : Sample aw dw} (quiet : begins dir c = false) :
    collect dir none c = (none,[]) := by
  simp [collect,quiet]

theorem begins_low {dir : TrsType} {c : Sample aw dw} (low : c.penable = false) : begins dir c = false := by
  simp [begins,low]

theorem step_quiet {m : Monitor aw dw} {c : Sample aw dw × Bool} (idle : m.wr = none ∧ m.rd = none)
    (low : c.1.penable = false) : m.step c = m := by
  obtain ⟨wr,rd,collected⟩ := m
  obtain ⟨rfl,rfl⟩ := idle
  have quiet (dir : TrsType) : collect dir none c.1 = (none,[]) := collect_idle (begins_low low)
  cases order : c.2 <;> simp [Monitor.step,Monitor.writeEdge,Monitor.readEdge,order,quiet]

theorem step_begins {m : Monitor aw dw} {s : Sample aw dw} {c : Sample aw dw × Bool} (idle : m.wr = none ∧ m.rd = none)
    (selected : s.psel ≠ 0) (holds : Bus.Holds s c.1) :
    Tracks (m.step c) (.access s) ∧ (m.step c).collected = m.collected := by
  obtain ⟨wr,rd,collected⟩ := m
  obtain ⟨rfl,rfl⟩ := idle
  obtain ⟨psel,enabled,addr,dir,_⟩ := holds
  have selected : ¬ s.psel = 0#16 := selected
  cases write : s.prwd <;> cases order : c.2 <;>
    simp [Tracks,Monitor.step,Monitor.writeEdge,Monitor.readEdge,order,collect,begins,psel,enabled,dir,write,selected,
      populateBeginItem,addr]

theorem step_waits {m : Monitor aw dw} {s : Sample aw dw} {c : Sample aw dw × Bool} (tracks : Tracks m (.access s))
    (holds : Bus.Holds s c.1) (low : c.1.pready = false) : m.step c = m := by
  obtain ⟨wr,rd,collected⟩ := m
  obtain ⟨psel,enabled,addr,dir,_⟩ := holds
  obtain ⟨selected,works⟩ := tracks
  cases write : s.prwd <;> simp only [write,if_true,Bool.false_eq_true,if_false] at works <;>
    obtain ⟨rfl,rfl⟩ := works <;> cases order : c.2 <;>
    simp [Monitor.step,Monitor.writeEdge,Monitor.readEdge,order,collect,begins,psel,enabled,dir,write,low]

theorem step_ends {m : Monitor aw dw} {s : Sample aw dw} {c : Sample aw dw × Bool} (tracks : Tracks m (.access s))
    (holds : Bus.Holds s c.1) (ready : c.1.pready = true) :
    Tracks (m.step c) .idle ∧ ∃ item, (m.step c).collected = m.collected ++ [item] ∧
      Shows ⟨c.1.paddr,c.1.prwd,if c.1.prwd then c.1.pwdata else c.1.prdata,c.1.pslverr⟩ item := by
  obtain ⟨wr,rd,collected⟩ := m
  obtain ⟨psel,enabled,addr,dir,_⟩ := holds
  obtain ⟨selected,works⟩ := tracks
  cases write : s.prwd with
  | true =>
    simp only [write,if_true] at works
    obtain ⟨rfl,rfl⟩ := works
    refine ⟨?_,(populateBeginItem .wr s).populateEndItem .wr c.1,?_,?_⟩
    · cases order : c.2 <;>
        simp [Tracks,Monitor.step,Monitor.writeEdge,Monitor.readEdge,order,collect,begins,dir,write,ready]
    · cases order : c.2 <;>
        simp [Monitor.step,Monitor.writeEdge,Monitor.readEdge,order,collect,begins,dir,write,ready]
    · constructor <;> simp [populateBeginItem,CollItem.populateEndItem,addr,dir,write]
  | false =>
    simp only [write,Bool.false_eq_true,if_false] at works
    obtain ⟨rfl,rfl⟩ := works
    refine ⟨?_,(populateBeginItem .rd s).populateEndItem .rd c.1,?_,?_⟩
    · cases order : c.2 <;>
        simp [Tracks,Monitor.step,Monitor.writeEdge,Monitor.readEdge,order,collect,begins,dir,write,ready]
    · cases order : c.2 <;>
        simp [Monitor.step,Monitor.writeEdge,Monitor.readEdge,order,collect,begins,dir,write,ready]
    · constructor <;> simp [populateBeginItem,CollItem.populateEndItem,addr,dir,write]

/-- What one edge does to a monitor that keeps up with the bus. -/
theorem step_tracks {m : Monitor aw dw} {b : Bus aw dw} {c : Sample aw dw × Bool} (tracks : Tracks m b.phase)
    (shows : List.Forall₂ Shows b.transfers m.collected) (allowed : b.Allows c) (waits : b.Waits c) :
    Tracks (m.step c) (b.step c).phase ∧ List.Forall₂ Shows (b.step c).transfers (m.step c).collected := by
  obtain ⟨phase,transfers⟩ := b
  cases phase with
  | idle =>
    obtain ⟨low,hot⟩ := allowed
    rw [step_quiet tracks low]
    by_cases unselected : c.1.psel = 0
    · simp only [Bus.step,if_pos unselected]
      exact ⟨tracks,shows⟩
    · simp only [Bus.step,if_neg unselected]
      exact ⟨⟨tracks.1,tracks.2,unselected⟩,shows⟩
  | setup s =>
    have low : c.1.pready = false := waits
    obtain ⟨begun,same⟩ := step_begins ⟨tracks.1,tracks.2.1⟩ tracks.2.2 allowed
    rw [same]
    simpa [Bus.step,Bus.accessed,low] using ⟨begun,shows⟩
  | access s =>
    cases ready : c.1.pready with
    | false =>
      rw [step_waits tracks allowed ready]
      simpa [Bus.step,Bus.accessed,ready] using ⟨tracks,shows⟩
    | true =>
      obtain ⟨idle,item,appended,last⟩ := step_ends tracks allowed ready
      rw [appended]
      simpa [Bus.step,Bus.accessed,ready] using ⟨idle,List.rel_append shows (.cons last .nil)⟩

theorem after_tracks {trace : List (Sample aw dw × Bool)}
    (met : Machine.Meets Bus.step (fun b c => b.Allows c ∧ b.Waits c) {} trace) :
    Tracks (Monitor.after trace) (Bus.after trace).phase ∧ Collects trace := by
  induction trace using List.reverseRecOn with
  | nil => exact ⟨⟨rfl,rfl⟩,.nil⟩
  | append_singleton trace c ih =>
    obtain ⟨before,allowed,waits⟩ := (Machine.meets_concat _ _ _ _ _).mp met
    obtain ⟨tracks,shows⟩ := ih before
    rw [Collects,Monitor.after,Bus.after,Machine.run_concat,Machine.run_concat]
    exact step_tracks tracks shows allowed waits

/-- A transfer without a wait state is on the bus when the collector has only begun its item. -/
theorem step_misses {m : Monitor aw dw} {b : Bus aw dw} {c : Sample aw dw × Bool} (tracks : Tracks m b.phase)
    (shows : List.Forall₂ Shows b.transfers m.collected) (allowed : b.Allows c) (misses : ¬ b.Waits c) :
    ¬ List.Forall₂ Shows (b.step c).transfers (m.step c).collected := by
  obtain ⟨phase,transfers⟩ := b
  cases phase with
  | idle | access s => exact absurd trivial misses
  | setup s =>
    have ready : c.1.pready = true := by simpa [Bus.Waits] using misses
    obtain ⟨_,same⟩ := step_begins ⟨tracks.1,tracks.2.1⟩ tracks.2.2 allowed
    intro all
    have lengths := all.length_eq
    have before := shows.length_eq
    simp [Bus.step,Bus.accessed,ready,same,before] at lengths

/-- The items collected are the transfers, in every state of a conformant trace, if and only if
every transfer has a wait state. -/
theorem collected_iff (trace : List (Sample aw dw × Bool)) (conformant : Bus.Conformant trace) :
    (∀ before, before <+: trace → Collects before) ↔ Machine.Meets Bus.step Bus.Waits {} trace := by
  refine Machine.prefixes_iff (fun before inside waits => ?_) (fun before c inside waits misses last => ?_)
  · obtain ⟨rest,rfl⟩ := inside
    have begun := ((Machine.meets_append _ _ _ _ _).mp conformant).1
    exact (after_tracks (begun.and waits)).2
  · obtain ⟨rest,rfl⟩ := inside
    obtain ⟨begun,allowed⟩ := (Machine.meets_concat _ _ _ _ _).mp ((Machine.meets_append _ _ _ _ _).mp conformant).1
    obtain ⟨tracks,shows⟩ := after_tracks (begun.and waits)
    refine step_misses tracks shows allowed misses ?_
    rwa [Collects,Monitor.after,Bus.after,Machine.run_concat,Machine.run_concat] at last

def writeRead (ready : Bool) : List (Sample 8 8 × Bool) := [
  ({psel := 1, prwd := true, paddr := 4, pwdata := 1},true),
  ({psel := 1, penable := true, prwd := true, paddr := 4, pwdata := 1, pready := ready},false)] ++
  (if ready then [] else [
    ({psel := 1, penable := true, prwd := true, paddr := 4, pwdata := 1, pready := true},true)]) ++ [
  ({psel := 2, paddr := 5},true),
  ({psel := 2, penable := true, paddr := 5},false),
  ({psel := 2, penable := true, paddr := 5, prdata := 7, pready := true, pslverr := true},false)]

theorem writeRead_collected : (∀ before, before <+: writeRead false → Collects before) ↔
    Machine.Meets Bus.step Bus.Waits {} (writeRead false) :=
  collected_iff (writeRead false) (by decide)

/-- Without a wait state the write is given up with the data of the read behind it. -/
theorem writeRead_not_collected : Bus.Conformant (writeRead true) ∧ ¬ Collects (writeRead true) := by
  refine ⟨by decide,fun all => ?_⟩
  have first := all.get (i := 0) (by decide) (by decide)
  exact absurd first.data (by decide)

end Smtdv.Apb
