import Smtdv.Apb.Driver

/-! The transfers the driver makes. The setup outputs of an item that is started between two
edges become visible with the next edge only, at which the thread already drives the access
phase: the items are transferred as the protocol has it where a delay keeps the two apart, and
without a setup elsewhere. -/
namespace Smtdv.Apb
open Lib

variable {aw dw : Nat}

/-- The cycle shows the item, with `wdata` on the write data. -/
structure ShowsItem (mapCfgs : List MapCfg) (item : Item aw dw) (wdata : BitVec dw) (c : Sample aw dw) : Prop where
  paddr : c.paddr = item.addr
  prwd : c.prwd = decide (item.trsT = .wr)
  psel : ∃ id < 16, findSlave mapCfgs (item.addr.toNat % 2^32) = some id ∧ c.psel = 1#16 <<< id
  pwdata : c.pwdata = wdata
  data : item.trsT = .wr → wdata = unpackData (item.dataBeat.getD 0 default)

/-- Between transfers, or in a transfer after some cycles of its setup or of its access phase. -/
inductive Pos (aw dw : Nat)
  | idle
  | setup (item : Item aw dw) (wdata : BitVec dw)
  | access (item : Item aw dw) (wdata : BitVec dw)

def Pos.Of (pos : Pos aw dw) (item : Item aw dw) (wdata : BitVec dw) : Prop :=
  pos = .setup item wdata ∨ pos = .access item wdata

/-- The cycles of a bus on which the items are transferred one after the other, each with at
least one setup cycle and access cycles up to the first one with `pready`. -/
inductive ApbTrace (mapCfgs : List MapCfg) : List (Item aw dw) → Pos aw dw → List (Sample aw dw) → Prop
  | start : ApbTrace mapCfgs [] .idle []
  | idle {items : List (Item aw dw)} {cycles : List (Sample aw dw)} (c : Sample aw dw)
      (before : ApbTrace mapCfgs items .idle cycles) (unselected : c.psel = 0) (disabled : c.penable = false) :
      ApbTrace mapCfgs items .idle (cycles ++ [c])
  | setup {items : List (Item aw dw)} {cycles : List (Sample aw dw)} {item : Item aw dw} {wdata : BitVec dw}
      (c : Sample aw dw) (before : ApbTrace mapCfgs items .idle cycles)
      (shown : ShowsItem mapCfgs item wdata c) (disabled : c.penable = false) :
      ApbTrace mapCfgs (items ++ [item]) (.setup item wdata) (cycles ++ [c])
  | hold {items : List (Item aw dw)} {cycles : List (Sample aw dw)} {item : Item aw dw} {wdata : BitVec dw}
      (c : Sample aw dw) (before : ApbTrace mapCfgs items (.setup item wdata) cycles)
      (shown : ShowsItem mapCfgs item wdata c) (disabled : c.penable = false) :
      ApbTrace mapCfgs items (.setup item wdata) (cycles ++ [c])
  | wait {items : List (Item aw dw)} {cycles : List (Sample aw dw)} {pos : Pos aw dw} {item : Item aw dw}
      {wdata : BitVec dw} (c : Sample aw dw) (before : ApbTrace mapCfgs items pos cycles)
      (begun : pos.Of item wdata) (shown : ShowsItem mapCfgs item wdata c) (enabled : c.penable = true)
      (low : c.pready = false) : ApbTrace mapCfgs items (.access item wdata) (cycles ++ [c])
  | done {items : List (Item aw dw)} {cycles : List (Sample aw dw)} {pos : Pos aw dw} {item : Item aw dw}
      {wdata : BitVec dw} (c : Sample aw dw) (before : ApbTrace mapCfgs items pos cycles)
      (begun : pos.Of item wdata) (shown : ShowsItem mapCfgs item wdata c) (enabled : c.penable = true)
      (high : c.pready = true) : ApbTrace mapCfgs items .idle (cycles ++ [c])

/-- The same of a bus on which, where it may be bare, an access phase can also follow an idle cycle: the setup of the
item is skipped. -/
inductive BusTrace (bare : Prop) (mapCfgs : List MapCfg) : List (Item aw dw) → Pos aw dw → List (Sample aw dw) → Prop
  | start : BusTrace bare mapCfgs [] .idle []
  | idle {items : List (Item aw dw)} {cycles : List (Sample aw dw)} (c : Sample aw dw)
      (before : BusTrace bare mapCfgs items .idle cycles) (unselected : c.psel = 0) (disabled : c.penable = false) :
      BusTrace bare mapCfgs items .idle (cycles ++ [c])
  | skip {items : List (Item aw dw)} {cycles : List (Sample aw dw)} (item : Item aw dw) (wdata : BitVec dw)
      (c : Sample aw dw) (may : bare) (before : BusTrace bare mapCfgs items .idle (cycles ++ [c]))
      (disabled : c.penable = false) : BusTrace bare mapCfgs (items ++ [item]) (.setup item wdata) (cycles ++ [c])
  | setup {items : List (Item aw dw)} {cycles : List (Sample aw dw)} {item : Item aw dw} {wdata : BitVec dw}
      (c : Sample aw dw) (before : BusTrace bare mapCfgs items .idle cycles)
      (shown : ShowsItem mapCfgs item wdata c) (disabled : c.penable = false) :
      BusTrace bare mapCfgs (items ++ [item]) (.setup item wdata) (cycles ++ [c])
  | hold {items : List (Item aw dw)} {cycles : List (Sample aw dw)} {item : Item aw dw} {wdata : BitVec dw}
      (c : Sample aw dw) (before : BusTrace bare mapCfgs items (.setup item wdata) cycles)
      (shown : ShowsItem mapCfgs item wdata c) (disabled : c.penable = false) :
      BusTrace bare mapCfgs items (.setup item wdata) (cycles ++ [c])
  | wait {items : List (Item aw dw)} {cycles : List (Sample aw dw)} {pos : Pos aw dw} {item : Item aw dw}
      {wdata : BitVec dw} (c : Sample aw dw) (before : BusTrace bare mapCfgs items pos cycles)
      (begun : pos.Of item wdata) (shown : ShowsItem mapCfgs item wdata c) (enabled : c.penable = true)
      (low : c.pready = false) : BusTrace bare mapCfgs items (.access item wdata) (cycles ++ [c])
  | done {items : List (Item aw dw)} {cycles : List (Sample aw dw)} {pos : Pos aw dw} {item : Item aw dw}
      {wdata : BitVec dw} (c : Sample aw dw) (before : BusTrace bare mapCfgs items pos cycles)
      (begun : pos.Of item wdata) (shown : ShowsItem mapCfgs item wdata c) (enabled : c.penable = true)
      (high : c.pready = true) : BusTrace bare mapCfgs items .idle (cycles ++ [c])

/-- A bus that is nowhere bare keeps the protocol. -/
theorem BusTrace.apb {mapCfgs : List MapCfg} {items : List (Item aw dw)} {pos : Pos aw dw}
    {cycles : List (Sample aw dw)} (trace : BusTrace False mapCfgs items pos cycles) :
    ApbTrace mapCfgs items pos cycles := by
  induction trace with
  | start => exact .start
  | idle c _ unselected disabled ih => exact .idle c ih unselected disabled
  | skip _ _ _ may => exact may.elim
  | setup c _ shown disabled ih => exact .setup c ih shown disabled
  | hold c _ shown disabled ih => exact .hold c ih shown disabled
  | wait c _ begun shown enabled low ih => exact .wait c ih begun shown enabled low
  | done c _ begun shown enabled high ih => exact .done c ih begun shown enabled high

def opening (cycles : List (Sample aw dw)) : Option (Sample aw dw) := cycles.find? fun c => c.psel ≠ 0

theorem opening_concat (cycles : List (Sample aw dw)) (c : Sample aw dw) :
    opening (cycles ++ [c]) = (opening cycles).or (if c.psel = 0 then none else some c) := by
  by_cases unselected : c.psel = 0
  · have rejected : decide (c.psel ≠ 0) = false := by simpa using unselected
    simp only [opening,List.find?_append,List.find?_cons,rejected,if_pos unselected,List.find?_nil]
  · have accepted : decide (c.psel ≠ 0) = true := by simpa using unselected
    simp only [opening,List.find?_append,List.find?_cons,accepted,if_neg unselected]

theorem ShowsItem.selected {mapCfgs : List MapCfg} {item : Item aw dw} {wdata : BitVec dw} {c : Sample aw dw}
    (shown : ShowsItem mapCfgs item wdata c) : c.psel ≠ 0 := by
  obtain ⟨id,bound,_,psel⟩ := shown.psel
  have bits : ∀ id < 16, 1#16 <<< id ≠ 0 := by decide
  rw [psel]
  exact bits id bound

theorem ApbTrace.opens {mapCfgs : List MapCfg} {items : List (Item aw dw)} {pos : Pos aw dw}
    {cycles : List (Sample aw dw)} (trace : ApbTrace mapCfgs items pos cycles) :
    (opening cycles = none → pos = .idle) ∧ ∀ c, opening cycles = some c → c.penable = false := by
  induction trace with
  | start => exact ⟨fun _ => rfl,fun c first => (Option.some_ne_none c first.symm).elim⟩
  | idle c before unselected disabled ih =>
    rw [opening_concat,if_pos unselected,Option.or_none]
    exact ⟨fun _ => rfl,ih.2⟩
  | @setup _ cycles _ _ c before shown disabled ih | @hold _ cycles _ _ c before shown disabled ih =>
    rw [opening_concat,if_neg shown.selected]
    cases first : opening cycles with
    | none =>
      refine ⟨fun absent => (Option.some_ne_none c absent).elim,fun d here => ?_⟩
      rw [← Option.some.inj here]
      exact disabled
    | some d => exact ⟨fun absent => (Option.some_ne_none d absent).elim,fun e here => ih.2 e (first.trans here)⟩
  | @wait _ cycles _ _ _ c before begun shown enabled low ih
  | @done _ cycles _ _ _ c before begun shown enabled high ih =>
    rw [opening_concat,if_neg shown.selected]
    cases first : opening cycles with
    | none =>
      have idle := ih.1 first
      subst idle
      rcases begun with begun | begun <;> cases begun
    | some d => exact ⟨fun absent => (Option.some_ne_none d absent).elim,fun e here => ih.2 e (first.trans here)⟩

def Vif.Quiet (vif : Vif aw dw) : Prop := vif.psel = 0 ∧ vif.penable = false

def Vif.Presents (vif : Vif aw dw) (mapCfgs : List MapCfg) (item : Item aw dw) : Prop :=
  ShowsItem mapCfgs item vif.pwdata (vif.sampled false 0 false)

theorem Vif.Presents.sampled {vif : Vif aw dw} {mapCfgs : List MapCfg} {item : Item aw dw}
    (presents : vif.Presents mapCfgs item) (pready : Bool) (prdata : BitVec dw) (pslverr : Bool) :
    ShowsItem mapCfgs item vif.pwdata (vif.sampled pready prdata pslverr) :=
  ⟨presents.paddr,presents.prwd,presents.psel,presents.pwdata,presents.data⟩

/-- The slave of the item has its own bit of `psel`. -/
def Fits (mapCfgs : List MapCfg) (item : Item aw dw) : Prop :=
  ∃ id < 16, findSlave mapCfgs (item.addr.toNat % 2^32) = some id

theorem populateSetupItem_presents (mapCfgs : List MapCfg) (item : Item aw dw) (fits : Fits mapCfgs item)
    (known : item.trsT ≠ .rdwr) (vif : Vif aw dw) :
    (populateSetupItem mapCfgs item vif).Presents mapCfgs item := by
  obtain ⟨id,bound,found⟩ := fits
  have bit : sel mapCfgs item.addr = 1#16 <<< id := by simp only [sel,found]
  rcases direction : item.trsT with _ | _ | _
  · refine ⟨?_,?_,⟨id,bound,found,?_⟩,?_,fun write => ?_⟩ <;>
      simp_all [populateSetupItem,populateSetupReadItem,Vif.sampled]
  · refine ⟨?_,?_,⟨id,bound,found,?_⟩,?_,fun write => ?_⟩ <;>
      simp_all [populateSetupItem,populateSetupWriteItem,Vif.sampled]
  · exact absurd direction known

theorem populateSetupItem_penable (mapCfgs : List MapCfg) (item : Item aw dw) (vif : Vif aw dw) :
    (populateSetupItem mapCfgs item vif).penable = vif.penable := by
  cases direction : item.trsT <;> simp only [populateSetupItem,direction] <;> rfl

namespace Driver

/-- The items driven to the end are those transferred, and the transfer of the item the thread
has may have begun. -/
def OnBus (s : Driver aw dw) : Prop :=
  ApbTrace s.mapCfgs s.driven .idle s.cycles ∨
  ∃ item wdata pos, s.thread.item = some item ∧ pos.Of item wdata ∧
    ApbTrace s.mapCfgs (s.driven ++ [item]) pos s.cycles

/-- Every item pushed has been transferred, is being transferred or waits, each in one copy. -/
structure Transferred (s : Driver aw dw) : Prop where
  once : s.arrived.Perm (s.driven ++ s.thread.item.toList ++ s.mbox)
  onBus : s.OnBus

def Mapped (s : Driver aw dw) : Action aw dw → Prop
  | .arrive item => (findSlave s.mapCfgs (item.addr.toNat % 2^32)).isSome = true
  | _ => True

/-- `psel` has a bit for the slave of an item that is pushed, and setup outputs still waiting
for an edge are followed there by a delay of `penable`. -/
def Spared (s : Driver aw dw) : Action aw dw → Prop
  | .arrive item => ∀ id ∈ findSlave s.mapCfgs (item.addr.toNat % 2^32), id < 16
  | .posedge _ _ _ =>
    match s.thread with
    | .setup item => s.pending.isEmpty = false → s.blockPenable = true ∧ 0 < item.penableL2H
    | _ => True
  | _ => True

/-- `psel` has a bit for the slave of an item that is pushed. -/
def Fitting (s : Driver aw dw) : Action aw dw → Prop
  | .arrive item => Fits s.mapCfgs item
  | _ => True

instance (s : Driver aw dw) (a : Action aw dw) : Decidable (s.Fitting a) := by
  unfold Fitting Fits
  split <;> infer_instance

instance (s : Driver aw dw) (a : Action aw dw) : Decidable (s.Mapped a) := by
  unfold Mapped
  split <;> infer_instance

instance (s : Driver aw dw) (a : Action aw dw) : Decidable (s.Spared a) := by
  unfold Spared
  split
  next => infer_instance
  next => split <;> infer_instance
  next => infer_instance

/-- What the outputs, the drives under way and the trace are at each place of the thread. -/
def Follows (s : Driver aw dw) (bare : Prop) : Prop :=
  match s.thread with
  | .block | .get | .cyc _ | .psel _ _ =>
    s.pending = [] ∧ s.vif.Quiet ∧ BusTrace bare s.mapCfgs s.driven .idle s.cycles
  | .setup item =>
    ((s.pending = [] ∧ s.vif.Presents s.mapCfgs item ∧ s.vif.penable = false) ∨
      (s.pending = [populateSetupItem s.mapCfgs item] ∧ s.vif.Quiet)) ∧
    BusTrace bare s.mapCfgs s.driven .idle s.cycles
  | .penable item _ =>
    s.pending = [] ∧ s.vif.Presents s.mapCfgs item ∧ s.vif.penable = false ∧
    (BusTrace bare s.mapCfgs s.driven .idle s.cycles ∨
      BusTrace bare s.mapCfgs (s.driven ++ [item]) (.setup item s.vif.pwdata) s.cycles)
  | .access item =>
    s.pending = [] ∧ s.vif.Presents s.mapCfgs item ∧ s.vif.penable = true ∧
    ∃ pos, pos.Of item s.vif.pwdata ∧ BusTrace bare s.mapCfgs (s.driven ++ [item]) pos s.cycles

/-- The items of the run can be driven, none is lost, and the outputs follow the thread. -/
structure Inv (s : Driver aw dw) (bare : Prop) : Prop where
  once : s.arrived.Perm (s.driven ++ s.thread.item.toList ++ s.mbox)
  fits : ∀ item ∈ s.arrived, Fits s.mapCfgs item ∧ item.trsT ≠ .rdwr
  follows : s.Follows bare

structure Kept (s t : Driver aw dw) : Prop where
  mapCfgs : t.mapCfgs = s.mapCfgs
  mbox : t.mbox = s.mbox
  arrived : t.arrived = s.arrived
  driven : t.driven = s.driven
  cycles : t.cycles = s.cycles

theorem drive_kept (s : Driver aw dw) (f : Vif aw dw → Vif aw dw) : Kept s (s.drive f) := by
  unfold drive
  split <;> exact ⟨rfl,rfl,rfl,rfl,rfl⟩

theorem drive_atEdge (s : Driver aw dw) (f : Vif aw dw → Vif aw dw) (edge : s.atEdge = true) :
    s.drive f = {s with vif := f s.vif} := if_pos edge

theorem repeatPsel_kept (s : Driver aw dw) (item : Item aw dw) (n : Nat) :
    Kept s (s.repeatPsel item n) ∧ (s.repeatPsel item n).thread.item = some item := by
  cases n with
  | zero =>
    obtain ⟨mapCfgs,mbox,arrived,driven,cycles⟩ := drive_kept s (populateSetupItem s.mapCfgs item)
    exact ⟨⟨mapCfgs,mbox,arrived,driven,cycles⟩,rfl⟩
  | succ n => exact ⟨⟨rfl,rfl,rfl,rfl,rfl⟩,rfl⟩

theorem repeatPenable_kept (s : Driver aw dw) (item : Item aw dw) (n : Nat) :
    Kept s (s.repeatPenable item n) ∧ (s.repeatPenable item n).thread.item = some item := by
  cases n with
  | zero =>
    obtain ⟨mapCfgs,mbox,arrived,driven,cycles⟩ := drive_kept s populateAccessItem
    exact ⟨⟨mapCfgs,mbox,arrived,driven,cycles⟩,rfl⟩
  | succ n => exact ⟨⟨rfl,rfl,rfl,rfl,rfl⟩,rfl⟩

theorem waitCyc_kept (s : Driver aw dw) (item : Item aw dw) :
    Kept s (s.waitCyc item) ∧ (s.waitCyc item).thread.item = some item := by
  unfold waitCyc
  split
  · exact repeatPsel_kept s item _
  · exact ⟨⟨rfl,rfl,rfl,rfl,rfl⟩,rfl⟩

structure Idle (s : Driver aw dw) (bare : Prop) : Prop where
  pending : s.pending = []
  quiet : s.vif.Quiet
  trace : BusTrace bare s.mapCfgs s.driven .idle s.cycles

variable {bare : Prop}

theorem repeatPsel_follows (s : Driver aw dw) (item : Item aw dw) (n : Nat) (idle : s.Idle bare)
    (fits : Fits s.mapCfgs item ∧ item.trsT ≠ .rdwr) : (s.repeatPsel item n).Follows bare := by
  obtain ⟨pending,quiet,trace⟩ := idle
  cases n with
  | succ n => exact ⟨pending,quiet,trace⟩
  | zero =>
    by_cases edge : s.atEdge = true
    · have presents := populateSetupItem_presents s.mapCfgs item fits.1 fits.2 s.vif
      have penable := (populateSetupItem_penable s.mapCfgs item s.vif).trans quiet.2
      simp only [repeatPsel,drive_atEdge s _ edge]
      exact ⟨.inl ⟨pending,presents,penable⟩,trace⟩
    · simp only [repeatPsel,drive,edge,Bool.false_eq_true,if_false]
      exact ⟨.inr ⟨by rw [pending]; rfl,quiet⟩,trace⟩

theorem waitCyc_follows (s : Driver aw dw) (item : Item aw dw) (idle : s.Idle bare)
    (fits : Fits s.mapCfgs item ∧ item.trsT ≠ .rdwr) : (s.waitCyc item).Follows bare := by
  unfold waitCyc
  split
  · exact repeatPsel_follows s item _ idle fits
  · exact ⟨idle.pending,idle.quiet,idle.trace⟩

theorem repeatPenable_follows (s : Driver aw dw) (item : Item aw dw) (n : Nat) (edge : s.atEdge = true)
    (pending : s.pending = []) (presents : s.vif.Presents s.mapCfgs item) (disabled : s.vif.penable = false)
    (trace : BusTrace bare s.mapCfgs (s.driven ++ [item]) (.setup item s.vif.pwdata) s.cycles) :
    (s.repeatPenable item n).Follows bare := by
  cases n with
  | succ n => exact ⟨pending,presents,disabled,.inr trace⟩
  | zero =>
    simp only [repeatPenable,drive_atEdge s _ edge]
    refine ⟨pending,?_,rfl,.setup item s.vif.pwdata,.inl rfl,trace⟩
    exact ⟨presents.paddr,presents.prwd,presents.psel,presents.pwdata,presents.data⟩

theorem sample_vif {s : Driver aw dw} (pending : s.pending = []) (pready : Bool) (prdata : BitVec dw) (pslverr : Bool) :
    (s.sample pready prdata pslverr).vif = s.vif := by
  simp only [sample,pending,List.foldl_nil]

theorem Idle.sample {s : Driver aw dw} (idle : s.Idle bare) (pready : Bool) (prdata : BitVec dw) (pslverr : Bool) :
    (s.sample pready prdata pslverr).Idle bare := by
  obtain ⟨pending,quiet,trace⟩ := idle
  have vif := sample_vif pending pready prdata pslverr
  exact ⟨rfl,vif ▸ quiet,.idle _ trace quiet.1 quiet.2⟩

theorem posedge_follows (s : Driver aw dw) (pready : Bool) (prdata : BitVec dw) (pslverr : Bool)
    (follows : s.Follows bare) (fits : ∀ item, s.thread.item = some item → Fits s.mapCfgs item ∧ item.trsT ≠ .rdwr)
    (spared : bare ∨ Spared s (.posedge pready prdata pslverr)) :
    ((s.sample pready prdata pslverr).edge pready).Follows bare := by
  have same : (s.sample pready prdata pslverr).thread = s.thread := rfl
  cases thread : s.thread with
  | block | get | cyc =>
    simp only [Follows,thread] at follows
    obtain ⟨pending,quiet,trace⟩ := Idle.sample ⟨follows.1,follows.2.1,follows.2.2⟩ pready prdata pslverr
    simp only [edge,same,thread,Follows]
    exact ⟨pending,quiet,trace⟩
  | psel item n =>
    simp only [Follows,thread] at follows
    have idle := Idle.sample ⟨follows.1,follows.2.1,follows.2.2⟩ pready prdata pslverr
    simp only [edge,same,thread]
    exact repeatPsel_follows _ item n idle (fits item (by rw [thread]; rfl))
  | setup item =>
    simp only [Follows,thread] at follows
    simp only [edge,same,thread]
    obtain ⟨⟨pending,presents,disabled⟩ | ⟨pending,quiet⟩,trace⟩ := follows
    · have vif := sample_vif pending pready prdata pslverr
      apply repeatPenable_follows _ item _ rfl rfl
      · exact vif ▸ presents
      · exact vif ▸ disabled
      · rw [vif]
        exact .setup _ trace (presents.sampled pready prdata pslverr) disabled
    · -- the setup outputs are visible after this edge only: a delay of `penable` keeps them, or the setup is skipped
      have vif : (s.sample pready prdata pslverr).vif = populateSetupItem s.mapCfgs item s.vif := by
        simp only [sample,pending,List.foldl_cons,List.foldl_nil]
      obtain ⟨fit,known⟩ := fits item (by rw [thread]; rfl)
      have presents := populateSetupItem_presents s.mapCfgs item fit known s.vif
      have passes : BusTrace bare s.mapCfgs s.driven .idle (s.cycles ++ [s.vif.sampled pready prdata pslverr]) :=
        .idle _ trace quiet.1 quiet.2
      cases count : if (s.sample pready prdata pslverr).blockPenable then item.penableL2H.toNat else 0 with
      | succ n =>
        refine ⟨rfl,vif ▸ presents,?_,.inl passes⟩
        exact vif ▸ (populateSetupItem_penable s.mapCfgs item s.vif).trans quiet.2
      | zero =>
        have may : bare := by
          refine spared.resolve_right fun spared => ?_
          simp only [Spared,thread,pending,List.isEmpty_cons,true_implies] at spared
          have block : (s.sample pready prdata pslverr).blockPenable = true := spared.1
          rw [if_pos block] at count
          omega
        simp only [repeatPenable,
          drive_atEdge _ populateAccessItem (show (s.sample pready prdata pslverr).atEdge = true from rfl)]
        refine ⟨rfl,?_,rfl,.setup item (populateAccessItem (s.sample pready prdata pslverr).vif).pwdata,.inl rfl,
          .skip item _ _ may passes quiet.2⟩
        rw [vif]
        exact ⟨presents.paddr,presents.prwd,presents.psel,presents.pwdata,presents.data⟩
  | penable item n =>
    simp only [Follows,thread] at follows
    obtain ⟨pending,presents,disabled,trace⟩ := follows
    have vif := sample_vif pending pready prdata pslverr
    have shown := presents.sampled pready prdata pslverr
    simp only [edge,same,thread]
    apply repeatPenable_follows _ item n rfl rfl
    · exact vif ▸ presents
    · exact vif ▸ disabled
    · rw [vif]
      rcases trace with trace | trace
      · exact .setup _ trace shown disabled
      · exact .hold _ trace shown disabled
  | access item =>
    simp only [Follows,thread] at follows
    obtain ⟨pending,presents,enabled,pos,begun,trace⟩ := follows
    have vif := sample_vif pending pready prdata pslverr
    have shown := presents.sampled pready prdata pslverr
    simp only [edge,same,thread]
    cases pready with
    | false =>
      simp only [Bool.false_eq_true,if_false,Follows,same,thread]
      refine ⟨rfl,vif ▸ presents,vif ▸ enabled,.access item s.vif.pwdata,?_,?_⟩
      · exact .inr (by rw [vif])
      · exact .wait _ trace begun shown enabled rfl
    | true =>
      rw [if_pos rfl,drive_atEdge _ _ rfl]
      exact ⟨rfl,⟨rfl,rfl⟩,.done _ trace begun shown enabled rfl⟩

def ledger (s : Driver aw dw) : List (Item aw dw) := s.driven ++ s.thread.item.toList ++ s.mbox

theorem Inv.moved {s t : Driver aw dw} (inv : s.Inv bare) (mapCfgs : t.mapCfgs = s.mapCfgs)
    (arrived : t.arrived = s.arrived) (same : s.ledger.Perm t.ledger) (follows : t.Follows bare) : t.Inv bare :=
  ⟨arrived ▸ inv.once.trans same,by rw [mapCfgs,arrived]; exact inv.fits,follows⟩

theorem Inv.fits_of_mem {s : Driver aw dw} (inv : s.Inv bare) (item : Item aw dw) (inside : item ∈ s.ledger) :
    Fits s.mapCfgs item ∧ item.trsT ≠ .rdwr :=
  inv.fits item (inv.once.mem_iff.mpr inside)

theorem posedge_ledger (s : Driver aw dw) (pready : Bool) (prdata : BitVec dw) (pslverr : Bool) :
    ((s.sample pready prdata pslverr).edge pready).mapCfgs = s.mapCfgs ∧
    ((s.sample pready prdata pslverr).edge pready).arrived = s.arrived ∧
    ((s.sample pready prdata pslverr).edge pready).ledger = s.ledger := by
  have same : (s.sample pready prdata pslverr).thread = s.thread := rfl
  cases thread : s.thread with
  | block | get | cyc =>
    simp only [edge,same,thread]
    exact ⟨rfl,rfl,rfl⟩
  | psel item n =>
    obtain ⟨kept,has⟩ := repeatPsel_kept (s.sample pready prdata pslverr) item n
    simp only [edge,same,thread]
    exact ⟨kept.mapCfgs,kept.arrived,by simp only [ledger,kept.driven,has,kept.mbox,thread]; rfl⟩
  | setup item =>
    obtain ⟨kept,has⟩ := repeatPenable_kept (s.sample pready prdata pslverr) item
      (if (s.sample pready prdata pslverr).blockPenable then item.penableL2H.toNat else 0)
    simp only [edge,same,thread]
    exact ⟨kept.mapCfgs,kept.arrived,by simp only [ledger,kept.driven,has,kept.mbox,thread]; rfl⟩
  | penable item n =>
    obtain ⟨kept,has⟩ := repeatPenable_kept (s.sample pready prdata pslverr) item n
    simp only [edge,same,thread]
    exact ⟨kept.mapCfgs,kept.arrived,by simp only [ledger,kept.driven,has,kept.mbox,thread]; rfl⟩
  | access item =>
    simp only [edge,same,thread]
    cases pready with
    | false => exact ⟨rfl,rfl,rfl⟩
    | true =>
      rw [if_pos rfl,drive_atEdge _ _ rfl]
      refine ⟨rfl,rfl,?_⟩
      simp only [ledger,thread,Thread.item,Option.toList_none,Option.toList_some,List.append_nil]
      rfl

theorem waitCyc_ledger (s : Driver aw dw) (item : Item aw dw) :
    (s.waitCyc item).ledger = s.driven ++ [item] ++ s.mbox := by
  obtain ⟨kept,has⟩ := waitCyc_kept s item
  rw [ledger,kept.driven,has,kept.mbox]
  rfl

theorem negedge_inv (s : Driver aw dw) (inv : s.Inv bare) : s.negedge.Inv bare := by
  have follows := inv.follows
  cases thread : s.thread with
  | cyc item =>
    have fits := inv.fits_of_mem item (by simp [ledger,thread,Thread.item])
    simp only [Follows,thread] at follows
    have kept := (waitCyc_kept {s with atEdge := false, cyc := s.cyc+1} item).1
    have wakes : s.negedge = {s with atEdge := false, cyc := s.cyc+1}.waitCyc item := by
      simp only [negedge,thread]
    rw [wakes]
    apply inv.moved kept.mapCfgs kept.arrived
    · rw [waitCyc_ledger,ledger,thread]
      rfl
    · exact waitCyc_follows _ item ⟨follows.1,follows.2.1,follows.2.2⟩ fits
  | block | get | psel | setup | penable | access =>
    have wakes : s.negedge = {s with atEdge := false, cyc := s.cyc+1} := by simp only [negedge,thread]
    rw [wakes]
    exact inv.moved rfl rfl (.refl _) inv.follows

theorem take_inv (s : Driver aw dw) (item : Item aw dw) (rest : List (Item aw dw)) (inv : s.Inv bare)
    (thread : s.thread = .get) (sorted : TwinQueue.sort Item.prio s.mbox = item::rest) :
    ({s with mbox := rest}.waitCyc item).Inv bare := by
  have taken : s.mbox.Perm (item::rest) := by
    rw [← sorted]
    exact (List.perm_insertionSort _ _).symm
  have fits := inv.fits_of_mem item (by simp [ledger,taken.mem_iff])
  have follows := inv.follows
  simp only [Follows,thread] at follows
  have kept := (waitCyc_kept {s with mbox := rest} item).1
  apply inv.moved kept.mapCfgs kept.arrived
  · rw [waitCyc_ledger,ledger,thread]
    simp only [Thread.item,Option.toList_none,List.append_nil,List.append_assoc,List.singleton_append]
    exact taken.append_left _
  · exact waitCyc_follows _ item ⟨follows.1,follows.2.1,follows.2.2⟩ fits

theorem wake_inv (s : Driver aw dw) (inv : s.Inv bare) : s.wake.Inv bare := by
  have follows := inv.follows
  unfold wake
  split
  next thread =>
    split
    · exact inv
    · refine inv.moved rfl rfl ?_ (by simpa only [Follows,thread] using follows)
      rw [ledger,thread]
      rfl
  next thread =>
    split
    · exact inv
    next item rest sorted => exact take_inv s item rest inv thread sorted
  next => exact inv

theorem driveBus_inv (s : Driver aw dw) (item : Item aw dw) (inv : s.Inv bare) (fits : Fits s.mapCfgs item) :
    (s.driveBus item).Inv bare := by
  have pushed (known : item.trsT ≠ .rdwr) :
      Inv {s with mbox := s.mbox ++ [item], arrived := s.arrived ++ [item]} bare := by
    refine ⟨?_,?_,inv.follows⟩
    · rw [← List.append_assoc]
      exact inv.once.append_right [item]
    · intro other inside
      rcases List.mem_append.mp inside with before | last
      · exact inv.fits other before
      · rw [List.mem_singleton.mp last]
        exact ⟨fits,known⟩
  unfold driveBus
  split
  next direction => exact pushed (by rw [direction]; decide)
  next direction => exact pushed (by rw [direction]; decide)
  next => exact inv

theorem step_inv (s : Driver aw dw) (a : Action aw dw) (inv : s.Inv bare)
    (allowed : s.Fitting a ∧ (bare ∨ s.Spared a)) :
    (s.step a).Inv bare := by
  obtain ⟨fitting,spared⟩ := allowed
  cases a with
  | posedge pready prdata pslverr =>
    by_cases busy : s.runnable = true
    · rw [step,if_pos busy]
      exact inv
    · rw [step,if_neg busy]
      obtain ⟨mapCfgs,arrived,ledger⟩ := posedge_ledger s pready prdata pslverr
      refine inv.moved mapCfgs arrived (.of_eq ledger.symm) ?_
      refine posedge_follows s pready prdata pslverr inv.follows (fun item has => ?_) spared
      exact inv.fits_of_mem item (by simp [Driver.ledger,has])
  | negedge =>
    by_cases busy : s.runnable = true
    · rw [step,if_pos busy]
      exact inv
    · rw [step,if_neg busy]
      exact negedge_inv s inv
  | leave =>
    by_cases busy : s.runnable = true
    · rw [step,if_pos busy]
      exact inv
    · rw [step,if_neg busy]
      exact inv.moved rfl rfl (.refl _) inv.follows
  | arrive item => exact driveBus_inv s item inv fitting
  | configure hasBlock blockPsel blockPenable => exact inv.moved rfl rfl (.refl _) inv.follows
  | wake => exact wake_inv s inv

theorem Inv.onBus {s : Driver aw dw} (inv : s.Inv bare) :
    BusTrace bare s.mapCfgs s.driven .idle s.cycles ∨
      ∃ item wdata pos, s.thread.item = some item ∧ pos.Of item wdata ∧
        BusTrace bare s.mapCfgs (s.driven ++ [item]) pos s.cycles := by
  have follows := inv.follows
  cases thread : s.thread with
  | block | get | cyc | psel =>
    simp only [Follows,thread] at follows
    exact .inl follows.2.2
  | setup =>
    simp only [Follows,thread] at follows
    exact .inl follows.2
  | penable item n =>
    simp only [Follows,thread] at follows
    obtain ⟨_,_,_,trace | trace⟩ := follows
    · exact .inl trace
    · exact .inr ⟨item,_,_,rfl,.inl rfl,trace⟩
  | access item =>
    simp only [Follows,thread] at follows
    obtain ⟨_,_,_,pos,begun,trace⟩ := follows
    exact .inr ⟨item,_,pos,rfl,begun,trace⟩

theorem initial_inv (mapCfgs : List MapCfg) (hasBlock blockPsel blockPenable : Bool) :
    Inv (initial mapCfgs hasBlock blockPsel blockPenable : Driver aw dw) bare :=
  ⟨.refl _,fun _ inside => (List.not_mem_nil inside).elim,⟨rfl,⟨rfl,rfl⟩,.start⟩⟩

/-- Every run in which setup and access drives are kept apart transfers each item once, in every
state it reaches. -/
theorem transferred_of_spared (mapCfgs : List MapCfg) (hasBlock blockPsel blockPenable : Bool)
    (actions : List (Action aw dw))
    (mapped : Machine.Meets step Mapped (initial mapCfgs hasBlock blockPsel blockPenable) actions)
    (spared : Machine.Meets step Spared (initial mapCfgs hasBlock blockPsel blockPenable) actions) :
    Transferred (Machine.run step (initial mapCfgs hasBlock blockPsel blockPenable) actions) := by
  have keep (s : Driver aw dw) (a : Action aw dw) (inv : s.Inv False) (allowed : s.Mapped a ∧ s.Spared a) :
      (s.step a).Inv False := by
    refine step_inv s a inv ⟨?_,.inr allowed.2⟩
    cases a with
    | arrive item =>
      obtain ⟨id,found⟩ := Option.isSome_iff_exists.mp allowed.1
      exact ⟨id,allowed.2 id found,found⟩
    | posedge | negedge | leave | configure | wake => trivial
  have inv := Machine.run_invariant keep (initial_inv mapCfgs hasBlock blockPsel blockPenable) (mapped.and spared)
  refine ⟨inv.once,inv.onBus.imp BusTrace.apb ?_⟩
  rintro ⟨item,wdata,pos,has,begun,trace⟩
  exact ⟨item,wdata,pos,has,begun,trace.apb⟩

/-- A write that is pushed between two edges, and a read behind it. -/
def lateStart (blockPenable : Bool) : List (Action 8 8) :=
  [.configure false false blockPenable,.wake,.posedge false 0 false,.leave,
    .arrive ⟨.wr,4,[fun _ => 7],0,0,0,1⟩,.wake,.arrive ⟨.rd,8,[],0,0,0,1⟩,
    .posedge true 0 false,.negedge,.posedge false 0 false,.negedge,.posedge true 0 false,
    .wake,.wake,.negedge,.posedge false 0 false,.posedge false 0 false,.posedge true 9 false]

theorem lateStart_transferred :
    Transferred (Machine.run step (initial [⟨3,0,64⟩] false false false) (lateStart true)) :=
  transferred_of_spared [⟨3,0,64⟩] false false false (lateStart true) (by decide) (by decide)

/-- Without the delay the write has no setup cycle. -/
theorem lateStart_not_transferred :
    Machine.Meets step Mapped (initial [⟨3,0,64⟩] false false false) (lateStart false) ∧
    ¬ Transferred (Machine.run step (initial [⟨3,0,64⟩] false false false) (lateStart false)) := by
  refine ⟨by decide,fun transferred => ?_⟩
  have unprepared : (opening (Machine.run step (initial [⟨3,0,64⟩] false false false) (lateStart false)).cycles).any
      (fun c => c.penable) = true := by decide
  obtain ⟨c,first,enabled⟩ := (Option.any_eq_true _ _).mp unprepared
  have opens : c.penable = false := by
    rcases transferred.onBus with trace | ⟨item,wdata,pos,_,_,trace⟩
    · exact trace.opens.2 c first
    · exact trace.opens.2 c first
  exact absurd enabled (by simp [opens])

end Driver

end Smtdv.Apb
