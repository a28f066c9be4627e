import Mathlib.Data.List.Chain
import Smtdv.Apb.Driven
import Smtdv.Apb.Collected

/-! What the monitor makes of the transfers of the driver, whatever the slave answers. The setup of a transfer may
take any number of cycles or be skipped, and its first access cycle has to be a wait state. -/
namespace Smtdv.Apb
open Lib

variable {aw dw : Nat}

def Sample.ended (c : Sample aw dw) : Bool := decide (c.psel ≠ 0) && c.penable && c.pready

def Sample.transfer (c : Sample aw dw) : Transfer aw dw :=
  ⟨c.paddr,c.prwd,if c.prwd then c.pwdata else c.prdata,c.pslverr⟩

def transfersOf (cycles : List (Sample aw dw)) : List (Transfer aw dw) :=
  (cycles.filter Sample.ended).map Sample.transfer

theorem transfersOf_concat (cycles : List (Sample aw dw)) (c : Sample aw dw) :
    transfersOf (cycles ++ [c]) = transfersOf cycles ++ if c.ended then [c.transfer] else [] := by
  rw [transfersOf,List.filter_append,List.map_append,← transfersOf]
  cases ended : c.ended <;> simp [ended]

/-- No access phase has `pready` in its first cycle. -/
def Waited (cycles : List (Sample aw dw)) : Prop :=
  cycles.IsChain fun c d => c.penable = false → d.penable = true → d.pready = false

theorem waited_concat (cycles : List (Sample aw dw)) (c d : Sample aw dw) :
    Waited (cycles ++ [c] ++ [d]) ↔
      Waited (cycles ++ [c]) ∧ (c.penable = false → d.penable = true → d.pready = false) := by
  rw [Waited,List.isChain_append]
  simp [Waited]

theorem Waited.concat {cycles : List (Sample aw dw)} {d : Sample aw dw} (waited : Waited cycles)
    (waits : ∀ c ∈ cycles.getLast?, c.penable = false → d.penable = true → d.pready = false) :
    Waited (cycles ++ [d]) := by
  refine List.isChain_append.mpr ⟨waited,.singleton _,fun c last e first => ?_⟩
  obtain rfl : d = e := Option.some.inj first
  exact waits c last

/-- The transfer has the address and the direction of the item, and the data of a write. -/
structure Carries (item : Item aw dw) (t : Transfer aw dw) : Prop where
  addr : t.addr = item.addr
  write : t.write = decide (item.trsT = .wr)
  data : item.trsT = .wr → t.data = unpackData (item.dataBeat.getD 0 default)

theorem ShowsItem.carries {mapCfgs : List MapCfg} {item : Item aw dw} {wdata : BitVec dw} {c : Sample aw dw}
    (shown : ShowsItem mapCfgs item wdata c) : Carries item c.transfer := by
  refine ⟨shown.paddr,shown.prwd,fun write => ?_⟩
  have high : c.prwd = true := by rw [shown.prwd,decide_eq_true write]
  change (if c.prwd then c.pwdata else c.prdata) = _
  rw [if_pos high,shown.pwdata,shown.data write]

theorem ShowsItem.holds {mapCfgs : List MapCfg} {item : Item aw dw} {wdata : BitVec dw} {s c : Sample aw dw}
    (before : ShowsItem mapCfgs item wdata s) (shown : ShowsItem mapCfgs item wdata c) (enabled : c.penable = true) :
    Bus.Holds s c := by
  obtain ⟨id,_,found,psel⟩ := before.psel
  obtain ⟨id',_,found',psel'⟩ := shown.psel
  have same : id' = id := Option.some.inj (found'.symm.trans found)
  refine ⟨by rw [psel',psel,same],enabled,shown.paddr.trans before.paddr.symm,shown.prwd.trans before.prwd.symm,
    fun _ => shown.pwdata.trans before.pwdata.symm⟩

theorem ended_of_low {c : Sample aw dw} (low : c.penable = false) : c.ended = false := by
  simp [Sample.ended,low]

theorem ended_of_selected {c : Sample aw dw} (selected : c.psel ≠ 0) (enabled : c.penable = true) :
    c.ended = c.pready := by
  rw [Sample.ended,decide_eq_true selected,enabled]
  rfl

/-- The transfers that have ended are those of the items before the one on the bus. -/
def Progress (items : List (Item aw dw)) (pos : Pos aw dw) (transfers : List (Transfer aw dw)) : Prop :=
  match pos with
  | .idle => List.Forall₂ Carries items transfers
  | .setup item _ | .access item _ => ∃ before, items = before ++ [item] ∧ List.Forall₂ Carries before transfers

theorem Progress.begun {items : List (Item aw dw)} {pos : Pos aw dw} {transfers : List (Transfer aw dw)}
    {item : Item aw dw} {wdata : BitVec dw} (progress : Progress items pos transfers) (begun : pos.Of item wdata) :
    ∃ before, items = before ++ [item] ∧ List.Forall₂ Carries before transfers := by
  rcases begun with rfl | rfl <;> exact progress

variable {bare : Prop}

theorem BusTrace.progress {mapCfgs : List MapCfg} {items : List (Item aw dw)} {pos : Pos aw dw}
    {cycles : List (Sample aw dw)} (trace : BusTrace bare mapCfgs items pos cycles) :
    Progress items pos (transfersOf cycles) := by
  induction trace with
  | start => exact .nil
  | idle c before unselected disabled ih =>
    rw [transfersOf_concat,ended_of_low disabled]
    simpa using ih
  | skip item wdata c may before disabled ih => exact ⟨_,rfl,ih⟩
  | setup c before shown disabled ih =>
    rw [transfersOf_concat,ended_of_low disabled]
    exact ⟨_,rfl,by simpa [Progress] using ih⟩
  | hold c before shown disabled ih =>
    rw [transfersOf_concat,ended_of_low disabled]
    simpa using ih
  | wait c before begun shown enabled low ih =>
    rw [transfersOf_concat,ended_of_selected shown.selected enabled,low]
    simpa [Progress] using ih.begun begun
  | done c before begun shown enabled high ih =>
    obtain ⟨earlier,rfl,carried⟩ := ih.begun begun
    rw [transfersOf_concat,ended_of_selected shown.selected enabled,high]
    exact List.rel_append carried (.cons shown.carries .nil)

theorem BusTrace.last_setup {mapCfgs : List MapCfg} {items : List (Item aw dw)} {item : Item aw dw}
    {wdata : BitVec dw} {cycles : List (Sample aw dw)}
    (trace : BusTrace bare mapCfgs items (.setup item wdata) cycles) :
    ∃ before c, cycles = before ++ [c] ∧ c.penable = false := by
  cases trace with
  | skip _ _ c may before disabled => exact ⟨_,c,rfl,disabled⟩
  | setup c before shown disabled => exact ⟨_,c,rfl,disabled⟩
  | hold c before shown disabled => exact ⟨_,c,rfl,disabled⟩

theorem BusTrace.last_access {mapCfgs : List MapCfg} {items : List (Item aw dw)} {item : Item aw dw}
    {wdata : BitVec dw} {cycles : List (Sample aw dw)}
    (trace : BusTrace bare mapCfgs items (.access item wdata) cycles) :
    ∃ before c, cycles = before ++ [c] ∧ c.penable = true := by
  cases trace with
  | wait c before begun shown enabled low => exact ⟨_,c,rfl,enabled⟩

def Attends (mapCfgs : List MapCfg) (m : Monitor aw dw) : Pos aw dw → Prop
  | .idle | .setup _ _ => m.wr = none ∧ m.rd = none
  | .access item wdata => ∃ s, ShowsItem mapCfgs item wdata s ∧ Tracks m (.access s)

theorem waited_before {cycles : List (Sample aw dw)} {c : Sample aw dw} (waited : Waited (cycles ++ [c])) :
    Waited cycles := (List.isChain_append.mp waited).1

theorem samples_concat {samples : List (Sample aw dw × Bool)} {cycles : List (Sample aw dw)} {c : Sample aw dw}
    (same : samples.map Prod.fst = cycles ++ [c]) :
    ∃ before order, samples = before ++ [(c,order)] ∧ before.map Prod.fst = cycles := by
  obtain ⟨before,last,rfl,start,single⟩ := List.map_eq_append_iff.mp same
  obtain ⟨⟨d,order⟩,rfl,rfl⟩ := List.map_eq_singleton_iff.mp single
  exact ⟨before,order,rfl,start⟩

theorem after_concat (samples : List (Sample aw dw × Bool)) (c : Sample aw dw × Bool) :
    Monitor.after (samples ++ [c]) = (Monitor.after samples).step c := Machine.run_concat _ _ _ _

/-- A monitor keeps up with a bus on which every access phase has a wait state. -/
theorem BusTrace.attends {mapCfgs : List MapCfg} {items : List (Item aw dw)} {pos : Pos aw dw}
    {cycles : List (Sample aw dw)} (trace : BusTrace bare mapCfgs items pos cycles) (waited : Waited cycles)
    {samples : List (Sample aw dw × Bool)} (same : samples.map Prod.fst = cycles) :
    Attends mapCfgs (Monitor.after samples) pos ∧
      List.Forall₂ Shows (transfersOf cycles) (Monitor.after samples).collected := by
  induction trace generalizing samples with
  | start =>
    rw [List.map_eq_nil_iff.mp same]
    exact ⟨⟨rfl,rfl⟩,.nil⟩
  | idle c before unselected disabled ih | setup c before shown disabled ih | hold c before shown disabled ih =>
    obtain ⟨samples,order,rfl,start⟩ := samples_concat same
    obtain ⟨closed,shows⟩ := ih (waited_before waited) start
    rw [after_concat,step_quiet closed disabled,transfersOf_concat,ended_of_low disabled]
    exact ⟨closed,by simpa using shows⟩
  | skip item wdata c may before disabled ih => exact ih waited same
  | @wait _ cycles pos item wdata c before begun shown enabled low ih =>
    obtain ⟨samples,order,rfl,start⟩ := samples_concat same
    obtain ⟨attends,shows⟩ := ih (waited_before waited) start
    rw [after_concat,transfersOf_concat,ended_of_selected shown.selected enabled,low]
    rcases begun with rfl | rfl
    · obtain ⟨tracks,kept⟩ := step_begins (c := (c,order)) attends shown.selected (shown.holds shown enabled)
      rw [kept]
      exact ⟨⟨c,shown,tracks⟩,by simpa using shows⟩
    · obtain ⟨s,first,tracks⟩ := attends
      rw [step_waits tracks (first.holds shown enabled) low]
      exact ⟨⟨s,first,tracks⟩,by simpa using shows⟩
  | @done _ cycles pos item wdata c before begun shown enabled high ih =>
    obtain ⟨samples,order,rfl,start⟩ := samples_concat same
    obtain ⟨attends,shows⟩ := ih (waited_before waited) start
    rw [after_concat,transfersOf_concat,ended_of_selected shown.selected enabled,high]
    rcases begun with rfl | rfl
    · obtain ⟨earlier,d,rfl,disabled⟩ := before.last_setup
      have low := ((waited_concat _ _ _).mp waited).2 disabled enabled
      exact absurd high (by simp [low])
    · obtain ⟨s,first,tracks⟩ := attends
      obtain ⟨closed,item,appended,last⟩ := step_ends (c := (c,order)) tracks (first.holds shown enabled) high
      rw [appended]
      exact ⟨closed,List.rel_append shows (.cons last .nil)⟩

/-- A transfer that ends in the first cycle of its access phase is not collected with that cycle. -/
theorem BusTrace.misses {mapCfgs : List MapCfg} {items : List (Item aw dw)} {pos : Pos aw dw}
    {cycles : List (Sample aw dw)} {c d : Sample aw dw} (trace : BusTrace bare mapCfgs items pos (cycles ++ [d] ++ [c]))
    (waited : Waited (cycles ++ [d])) (disabled : d.penable = false) (enabled : c.penable = true)
    (high : c.pready = true) {samples : List (Sample aw dw × Bool)} {order : Bool}
    (same : samples.map Prod.fst = cycles ++ [d]) :
    ¬ List.Forall₂ Shows (transfersOf (cycles ++ [d] ++ [c])) (Monitor.after (samples ++ [(c,order)])).collected := by
  generalize whole : cycles ++ [d] ++ [c] = all at trace
  cases trace with
  | start => simp at whole
  | idle e before unselected low | setup e before shown low | hold e before shown low =>
    obtain ⟨rfl,rfl⟩ := List.append_singleton_inj.mp whole
    exact absurd enabled (by simp [low])
  | skip _ _ e may before low =>
    obtain ⟨rfl,rfl⟩ := List.append_singleton_inj.mp whole
    exact absurd enabled (by simp [low])
  | wait e before begun shown _ low =>
    obtain ⟨rfl,rfl⟩ := List.append_singleton_inj.mp whole
    exact absurd high (by simp [low])
  | @done _ _ pos item wdata e before begun shown _ _ =>
    obtain ⟨rfl,rfl⟩ := List.append_singleton_inj.mp whole
    obtain ⟨attends,shows⟩ := before.attends waited same
    rcases begun with rfl | rfl
    · intro all
      obtain ⟨_,kept⟩ := step_begins (c := (c,order)) attends shown.selected (shown.holds shown enabled)
      have ends : c.ended = true := (ended_of_selected shown.selected enabled).trans high
      have lengths := all.length_eq
      have earlier := shows.length_eq
      rw [transfersOf_concat,ends,after_concat,kept] at lengths
      simp [earlier] at lengths
    · obtain ⟨earlier,f,same,enabled⟩ := before.last_access
      obtain ⟨rfl,rfl⟩ := List.append_singleton_inj.mp same
      exact absurd disabled (by simp [enabled])

theorem BusTrace.before {mapCfgs : List MapCfg} {items : List (Item aw dw)} {pos : Pos aw dw}
    {cycles : List (Sample aw dw)} {c : Sample aw dw} (trace : BusTrace bare mapCfgs items pos (cycles ++ [c])) :
    ∃ items pos, BusTrace bare mapCfgs items pos cycles := by
  generalize whole : cycles ++ [c] = all at trace
  induction trace with
  | start => simp at whole
  | skip _ _ _ _ _ _ ih => exact ih whole
  | idle e before | setup e before | hold e before | wait e before | done e before =>
    obtain ⟨rfl,_⟩ := List.append_singleton_inj.mp whole
    exact ⟨_,_,before⟩

def Observed (samples : List (Sample aw dw × Bool)) : Prop :=
  List.Forall₂ Shows (transfersOf (samples.map Prod.fst)) (Monitor.after samples).collected

/-- On the bus of the driver the monitor observes the transfers all the time if and only if each of them has
a wait state. -/
theorem BusTrace.observed_iff {mapCfgs : List MapCfg} {items : List (Item aw dw)} {pos : Pos aw dw}
    {samples : List (Sample aw dw × Bool)} (trace : BusTrace bare mapCfgs items pos (samples.map Prod.fst)) :
    (∀ before, before <+: samples → Observed before) ↔ Waited (samples.map Prod.fst) := by
  induction samples using List.reverseRecOn generalizing items pos with
  | nil =>
    refine iff_of_true (fun before inside => ?_) .nil
    rw [List.prefix_nil.mp inside]
    exact .nil
  | append_singleton samples c ih =>
    have whole : (samples ++ [c]).map Prod.fst = samples.map Prod.fst ++ [c.1] := List.map_append
    rw [whole] at trace ⊢
    obtain ⟨_,_,earlier⟩ := trace.before
    have shorter := ih earlier
    constructor
    · intro all
      have waited := shorter.mp fun before inside => all before (inside.trans (List.prefix_append _ _))
      rcases List.eq_nil_or_concat samples with rfl | ⟨first,d,rfl⟩
      · exact .singleton _
      · rw [List.concat_eq_append,List.map_append,List.map_singleton] at trace waited ⊢
        refine (waited_concat _ _ _).mpr ⟨waited,fun disabled enabled => ?_⟩
        by_contra early
        rw [Bool.not_eq_false] at early
        have whole : (first ++ [d]).map Prod.fst = first.map Prod.fst ++ [d.1] := by simp
        have last := all _ (List.prefix_refl _)
        have missed := @BusTrace.misses aw dw bare _ _ _ _ _ _ trace waited disabled enabled early _ c.2 whole
        exact missed (by simpa [Observed] using last)
    · intro waited before inside
      rcases List.prefix_concat_iff.mp inside with rfl | inside
      · have now := (trace.attends waited whole).2
        rwa [← whole] at now
      · exact shorter.mpr (waited_before waited) before inside

namespace Driver

theorem Inv.carries {s : Driver aw dw} (inv : s.Inv bare) : List.Forall₂ Carries s.driven (transfersOf s.cycles) := by
  rcases inv.onBus with trace | ⟨item,wdata,pos,_,begun,trace⟩
  · exact trace.progress
  · obtain ⟨before,same,carried⟩ := trace.progress.begun begun
    obtain ⟨rfl,_⟩ := List.append_singleton_inj.mp same
    exact carried

theorem Inv.trace {s : Driver aw dw} (inv : s.Inv bare) : ∃ items pos, BusTrace bare s.mapCfgs items pos s.cycles := by
  rcases inv.onBus with trace | ⟨_,_,_,_,_,trace⟩
  · exact ⟨_,_,trace⟩
  · exact ⟨_,_,trace⟩

/-- In every run of the driver, against any slave, the transfers on the bus are those of the items driven, and the
monitor collects them, each with its end, if and only if each has a wait state. -/
theorem observed_iff_waited (mapCfgs : List MapCfg) (hasBlock blockPsel blockPenable : Bool)
    (actions : List (Action aw dw)) (samples : List (Sample aw dw × Bool))
    (fitting : Machine.Meets step Fitting (initial mapCfgs hasBlock blockPsel blockPenable) actions)
    (sampled : samples.map Prod.fst =
      (Machine.run step (initial mapCfgs hasBlock blockPsel blockPenable) actions).cycles) :
    List.Forall₂ Carries (Machine.run step (initial mapCfgs hasBlock blockPsel blockPenable) actions).driven
      (transfersOf (samples.map Prod.fst)) ∧
    ((∀ before, before <+: samples → Observed before) ↔ Waited (samples.map Prod.fst)) := by
  have keep (s : Driver aw dw) (a : Action aw dw) (inv : s.Inv True) (fitting : s.Fitting a) : (s.step a).Inv True :=
    step_inv s a inv ⟨fitting,.inl trivial⟩
  have inv := Machine.run_invariant keep (initial_inv mapCfgs hasBlock blockPsel blockPenable) fitting
  obtain ⟨items,pos,trace⟩ := inv.trace
  rw [← sampled] at trace
  exact ⟨sampled ▸ inv.carries,trace.observed_iff⟩

def answeredLate : List (Action 8 8) :=
  [.wake,.posedge false 0 false,.arrive ⟨.wr,4,[fun _ => 7],0,0,0,0⟩,.arrive ⟨.rd,8,[],0,0,0,0⟩,.wake,
    .posedge false 0 false,.posedge false 0 false,.posedge true 0 false,.wake,.wake,
    .posedge false 0 false,.posedge false 0 false,.posedge true 9 true]

def lateSamples : List (Sample 8 8 × Bool) :=
  (Machine.run step (initial [⟨3,0,64⟩] false false false) answeredLate).cycles.map fun c => (c,c.prwd)

theorem lateSamples_observed : (lateSamples.map Prod.fst).length = 7 ∧ Observed lateSamples := by
  have sampled : lateSamples.map Prod.fst =
      (Machine.run step (initial [⟨3,0,64⟩] false false false) answeredLate).cycles := by
    simp [lateSamples,Function.comp_def]
  have observed := observed_iff_waited [⟨3,0,64⟩] false false false answeredLate lateSamples
    (by decide) sampled
  have waited : Waited (lateSamples.map Prod.fst) := by
    rw [sampled]
    unfold Waited
    decide
  exact ⟨by decide,observed.2.mpr waited _ (List.prefix_refl _)⟩

end Driver

end Smtdv.Apb
