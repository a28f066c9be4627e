import Smtdv.Apb.Edges
import Smtdv.Apb.Env

/-! The bench in all its runs. Each access phase gets its wait state, since the slave hears of a transfer from its
monitor, and the items that the master's monitor collects are the history of two memories. -/
namespace Smtdv.Apb
open Lib

variable {aw dw : Nat}

def Thread.accessing : Thread aw dw → Option (Item aw dw)
  | .access item => some item
  | _ => none

namespace Driver

theorem drive_frame (s : Driver aw dw) (f : Vif aw dw → Vif aw dw) :
    (s.drive f).atEdge = s.atEdge ∧ (s.atEdge = false → (s.drive f).vif = s.vif) := by
  unfold drive
  split
  next edge => exact ⟨rfl,fun low => absurd edge (by simp [low])⟩
  next => exact ⟨rfl,fun _ => rfl⟩

theorem waitCyc_frame (s : Driver aw dw) (item : Item aw dw) :
    (s.waitCyc item).thread.accessing = none ∧ (s.waitCyc item).atEdge = s.atEdge ∧
      (s.atEdge = false → (s.waitCyc item).vif = s.vif) := by
  unfold waitCyc
  split
  · unfold repeatPsel
    split
    · exact ⟨rfl,drive_frame s _⟩
    · exact ⟨rfl,rfl,fun _ => rfl⟩
  · exact ⟨rfl,rfl,fun _ => rfl⟩

theorem posedge_cycles (s : Driver aw dw) (pready : Bool) (prdata : BitVec dw) (pslverr : Bool) :
    ((s.sample pready prdata pslverr).edge pready).cycles = s.cycles ++ [s.vif.sampled pready prdata pslverr] := by
  rw [edge]
  split
  next item n thread => exact (repeatPsel_kept (s.sample pready prdata pslverr) item n).1.cycles
  next item thread => exact (repeatPenable_kept (s.sample pready prdata pslverr) item _).1.cycles
  next item n thread => exact (repeatPenable_kept (s.sample pready prdata pslverr) item n).1.cycles
  next item thread =>
    split
    · exact (drive_kept (s.sample pready prdata pslverr) populateEndItem).cycles
    · rfl
  next => rfl

/-- What a step other than a rising edge leaves as it is. -/
structure Settles (s t : Driver aw dw) : Prop where
  mapCfgs : t.mapCfgs = s.mapCfgs
  cycles : t.cycles = s.cycles
  accessing : t.thread.accessing = s.thread.accessing
  vif : s.atEdge = false ∨ s.thread.accessing ≠ none → t.vif = s.vif
  atEdge : s.atEdge = false → t.atEdge = false

theorem waitCyc_settles (s : Driver aw dw) (item : Item aw dw) (outside : s.thread.accessing = none) :
    Settles s (s.waitCyc item) := by
  obtain ⟨accessing,edge,vif⟩ := waitCyc_frame s item
  have kept := (waitCyc_kept s item).1
  exact ⟨kept.mapCfgs,kept.cycles,accessing.trans outside.symm,fun low => vif (low.resolve_right (absurd outside)),
    edge.trans⟩

theorem negedge_settles (s : Driver aw dw) :
    Settles s s.negedge ∧ s.negedge.vif = s.vif ∧ s.negedge.atEdge = false := by
  cases thread : s.thread with
  | cyc item =>
    have wakes : s.negedge = {s with atEdge := false, cyc := s.cyc+1}.waitCyc item := by simp only [negedge,thread]
    have outside : Thread.accessing {s with atEdge := false, cyc := s.cyc+1}.thread = none := by
      rw [thread]
      rfl
    obtain ⟨mapCfgs,cycles,accessing,vif,edge⟩ := waitCyc_settles {s with atEdge := false, cyc := s.cyc+1} item outside
    rw [wakes]
    exact ⟨⟨mapCfgs,cycles,accessing,fun _ => vif (.inl rfl),fun _ => edge rfl⟩,vif (.inl rfl),edge rfl⟩
  | block | get | psel | setup | penable | access =>
    have wakes : s.negedge = {s with atEdge := false, cyc := s.cyc+1} := by simp only [negedge,thread]
    rw [wakes]
    exact ⟨⟨rfl,rfl,rfl,fun _ => rfl,fun _ => rfl⟩,rfl,rfl⟩

theorem wake_settles (s : Driver aw dw) : Settles s s.wake := by
  unfold wake
  split
  next thread =>
    have outside : s.thread.accessing = none := by rw [thread]; rfl
    split
    · exact ⟨rfl,rfl,rfl,fun _ => rfl,id⟩
    · exact ⟨rfl,rfl,outside.symm,fun _ => rfl,id⟩
  next thread =>
    have outside : s.thread.accessing = none := by rw [thread]; rfl
    split
    · exact ⟨rfl,rfl,rfl,fun _ => rfl,id⟩
    next item rest sorted =>
      obtain ⟨mapCfgs,cycles,accessing,vif,edge⟩ := waitCyc_settles {s with mbox := rest} item outside
      exact ⟨mapCfgs,cycles,accessing,vif,edge⟩
  next => exact ⟨rfl,rfl,rfl,fun _ => rfl,id⟩

theorem driveBus_settles (s : Driver aw dw) (item : Item aw dw) : Settles s (s.driveBus item) := by
  unfold driveBus
  split <;> exact ⟨rfl,rfl,rfl,fun _ => rfl,id⟩

theorem step_mapCfgs (s : Driver aw dw) (a : Action aw dw) : (s.step a).mapCfgs = s.mapCfgs := by
  cases a with
  | posedge pready prdata pslverr =>
    rw [step]
    split
    · rfl
    · exact (posedge_ledger s pready prdata pslverr).1
  | negedge =>
    rw [step]
    split
    · rfl
    · exact s.negedge_settles.1.mapCfgs
  | leave =>
    rw [step]
    split <;> rfl
  | arrive item => exact (s.driveBus_settles item).mapCfgs
  | configure hasBlock blockPsel blockPenable => rfl
  | wake => exact s.wake_settles.mapCfgs

variable {bare : Prop}

theorem Inv.disabled {s : Driver aw dw} (inv : s.Inv bare) (outside : s.thread.accessing = none) :
    s.vif.penable = false := by
  have follows := inv.follows
  cases thread : s.thread with
  | block | get | cyc | psel =>
    simp only [Follows,thread] at follows
    exact follows.2.1.2
  | setup =>
    simp only [Follows,thread] at follows
    obtain ⟨⟨_,_,disabled⟩ | ⟨_,quiet⟩,_⟩ := follows
    · exact disabled
    · exact quiet.2
  | penable =>
    simp only [Follows,thread] at follows
    exact follows.2.2.1
  | access item =>
    rw [thread] at outside
    cases outside

theorem Inv.enabled {s : Driver aw dw} (inv : s.Inv bare) {item : Item aw dw} (thread : s.thread = .access item) :
    s.pending = [] ∧ s.vif.Presents s.mapCfgs item ∧ s.vif.penable = true := by
  have follows := inv.follows
  simp only [Follows,thread] at follows
  exact ⟨follows.1,follows.2.1,follows.2.2.1⟩

/-- The cycle that the next rising edge would sample goes on with the trace. -/
theorem Inv.sampled {s : Driver aw dw} (inv : s.Inv bare) (pready : Bool) (prdata : BitVec dw) (pslverr : Bool) :
    ∃ items pos, BusTrace bare s.mapCfgs items pos (s.cycles ++ [s.vif.sampled pready prdata pslverr]) ∧
      ((pos = .idle ∧ (items = s.driven ∨ ∃ item, s.thread = .access item ∧ items = s.driven ++ [item])) ∨
        ∃ item wdata, pos.Of item wdata ∧ items = s.driven ++ [item]) := by
  have follows := inv.follows
  cases thread : s.thread with
  | block | get | cyc | psel =>
    simp only [Follows,thread] at follows
    obtain ⟨_,quiet,trace⟩ := follows
    exact ⟨_,_,.idle _ trace quiet.1 quiet.2,.inl ⟨rfl,.inl rfl⟩⟩
  | setup item =>
    simp only [Follows,thread] at follows
    obtain ⟨⟨_,presents,disabled⟩ | ⟨_,quiet⟩,trace⟩ := follows
    · exact ⟨_,_,.setup _ trace (presents.sampled pready prdata pslverr) disabled,.inr ⟨item,_,.inl rfl,rfl⟩⟩
    · exact ⟨_,_,.idle _ trace quiet.1 quiet.2,.inl ⟨rfl,.inl rfl⟩⟩
  | penable item n =>
    simp only [Follows,thread] at follows
    obtain ⟨_,presents,disabled,trace | trace⟩ := follows
    · exact ⟨_,_,.setup _ trace (presents.sampled pready prdata pslverr) disabled,.inr ⟨item,_,.inl rfl,rfl⟩⟩
    · exact ⟨_,_,.hold _ trace (presents.sampled pready prdata pslverr) disabled,.inr ⟨item,_,.inl rfl,rfl⟩⟩
  | access item =>
    simp only [Follows,thread] at follows
    obtain ⟨_,presents,enabled,pos,begun,trace⟩ := follows
    have shown := presents.sampled pready prdata pslverr
    cases pready with
    | false => exact ⟨_,_,.wait _ trace begun shown enabled rfl,.inr ⟨item,_,.inr rfl,rfl⟩⟩
    | true => exact ⟨_,_,.done _ trace begun shown enabled rfl,.inl ⟨rfl,.inr ⟨item,rfl,rfl⟩⟩⟩

end Driver

theorem Thread.accessing_some {thread : Thread aw dw} {item : Item aw dw} (accessing : thread.accessing = some item) :
    thread = .access item := by
  cases thread with
  | access other => rw [Option.some.inj accessing]
  | block | get | cyc | psel | setup | penable => cases accessing

def slaveOf (mapCfgs : List MapCfg) (addr : BitVec aw) : Option Nat := findSlave mapCfgs (addr.toNat % 2^32)

def storeTransfer (mapCfgs : List MapCfg) (maps : Nat → ByteMap aw) (t : Transfer aw dw) : Nat → ByteMap aw :=
  fun i => if slaveOf mapCfgs t.addr = some i then written (maps i) t else maps i

def ReadsLatest (mapCfgs : List MapCfg) (maps : Nat → ByteMap aw) (t : Transfer aw dw) : Prop :=
  t.write = false → ∀ i, slaveOf mapCfgs t.addr = some i → t.data = unpackData (beatAt dw (maps i) t.addr)

def memories (mapCfgs : List MapCfg) (transfers : List (Transfer aw dw)) : Nat → ByteMap aw :=
  Machine.run (storeTransfer mapCfgs) (fun _ _ => 0) transfers

namespace Env

/-- What a slave has to have stored by now. -/
def map (e : Env aw dw) (i : Fin 2) : ByteMap aw := memories e.master.mapCfgs (transfersOf e.seen) i.val

/-- The bus is that of a slave, and so is the address on it. -/
structure Selects (e : Env aw dw) (i : Fin 2) : Prop where
  psel : e.master.vif.psel = 1#16 <<< i.val
  slave : slaveOf e.master.mapCfgs e.master.vif.paddr = some i.val

/-- No slave has anything of a transfer, one has it open, or one has answered and waits for the edge. -/
inductive Stage (e : Env aw dw) : Prop
  | resting (all : ∀ i, (e.slaves i).Resting (e.map i)) (early : e.master.thread.accessing = none ∨ e.clk = true)
  | opened (i : Fin 2) (item : Item aw dw) (thread : e.master.thread = .access item) (selects : e.Selects i)
      (others : ∀ j ≠ i, (e.slaves j).Resting (e.map j))
      (later : ∃ before c, e.seen = before ++ [c] ∧ c.penable = true)
      (inv : (e.slaves i).Inv (some (dirOf e.now,e.now.paddr)) (e.map i))
      (high : (e.slaves i).drv.thread.finishing = true → e.clk = true)
  | answered (i : Fin 2) (item : Item aw dw) (thread : e.master.thread = .access item) (selects : e.Selects i)
      (others : ∀ j ≠ i, (e.slaves j).Resting (e.map j))
      (inv : (e.slaves i).Inv none (e.map i)) (finishing : (e.slaves i).drv.thread.finishing = true)
      (low : e.clk = false)

structure Inv (e : Env aw dw) : Prop where
  master : e.master.Inv True
  routed : ∀ item ∈ e.master.arrived, ∃ i : Fin 2, slaveOf e.master.mapCfgs item.addr = some i.val
  edges : e.clk = false → e.master.atEdge = false
  high : e.clk = true → e.master.cycles = {}::e.seen
  low : e.clk = false → e.master.cycles ++ [e.now] = {}::e.seen
  stage : e.Stage
  latest : Machine.Meets (storeTransfer e.master.mapCfgs) (ReadsLatest e.master.mapCfgs) (fun _ _ => 0)
    (transfersOf e.seen)
  waited : Waited ({}::e.seen)
  mon : ∃ samples, samples.map Prod.fst = e.seen ∧ e.mon = Monitor.after samples

theorem Selects.responder {e : Env aw dw} {i : Fin 2} (selects : e.Selects i) :
    responder e.master.vif.psel = i := by
  have own : ∀ i : Fin 2, Env.responder (1#16 <<< i.val) = i := by decide
  rw [selects.psel,own]

theorem Selects.view {e : Env aw dw} {i : Fin 2} (selects : e.Selects i) :
    (e.view i).psel ≠ 0 ∧ ∀ j ≠ i, (e.view j).psel = 0 := by
  have bits : ∀ i j : Fin 2, 1#16 <<< i.val &&& 1#16 <<< j.val = if j = i then 1#16 <<< i.val else 0 := by decide
  have set : ∀ i : Fin 2, 1#16 <<< i.val ≠ 0 := by decide
  constructor
  · change e.master.vif.psel &&& 1#16 <<< i.val ≠ 0
    rw [selects.psel,bits,if_pos rfl]
    exact set i
  · intro j apart
    change e.master.vif.psel &&& 1#16 <<< j.val = 0
    rw [selects.psel,bits,if_neg apart]

theorem Selects.response {e : Env aw dw} {i : Fin 2} (selects : e.Selects i) :
    e.response = (e.slaves i).drv.vif := by
  rw [Env.response,selects.responder]

theorem Inv.selects {e : Env aw dw} (inv : e.Inv) {item : Item aw dw} (thread : e.master.thread = .access item) :
    ∃ i, e.Selects i := by
  obtain ⟨_,presents,_⟩ := inv.master.enabled thread
  have inside : item ∈ e.master.arrived := by
    rw [inv.master.once.mem_iff,thread]
    simp [Thread.item]
  obtain ⟨i,slave⟩ := inv.routed item inside
  obtain ⟨id,_,found,psel⟩ := presents.psel
  obtain rfl : id = i.val := Option.some.inj (found.symm.trans slave)
  refine ⟨i,psel,?_⟩
  rw [show e.master.vif.paddr = item.addr from presents.paddr]
  exact slave

theorem quiet_parts {e : Env aw dw} (quiet : e.runnable = false) :
    e.master.runnable = false ∧ ∀ i, (e.slaves i).runnable = false := by
  rw [runnable,Bool.or_eq_false_iff,Bool.or_eq_false_iff] at quiet
  obtain ⟨⟨master,first⟩,second⟩ := quiet
  exact ⟨master,Fin.forall_fin_two.mpr ⟨first,second⟩⟩

theorem Stage.slave {e : Env aw dw} (stage : e.Stage) (i : Fin 2) : ∃ transit, (e.slaves i).Inv transit (e.map i) := by
  cases stage with
  | resting all early => exact ⟨_,(all i).inv⟩
  | opened j item thread selects others later inv high | answered j item thread selects others inv finishing low =>
    by_cases here : i = j
    · exact ⟨_,here ▸ inv⟩
    · exact ⟨_,(others i here).inv⟩

theorem Inv.settles {e : Env aw dw} (inv : e.Inv) (master : Driver aw dw) (settles : e.master.Settles master)
    (kept : master.Inv True)
    (routed : ∀ item ∈ master.arrived, ∃ i : Fin 2, slaveOf master.mapCfgs item.addr = some i.val) :
    Inv {e with master := master} := by
  have map (i : Fin 2) : Env.map {e with master := master} i = e.map i := by
    rw [Env.map,settles.mapCfgs]
    rfl
  have now (same : master.vif = e.master.vif) : Env.now {e with master := master} = e.now := by
    simp only [Env.now,Env.response,same]
  have selects (i : Fin 2) (thread : e.master.thread.accessing ≠ none) (selects : e.Selects i) :
      Selects {e with master := master} i := by
    refine ⟨?_,?_⟩
    · rw [← selects.psel]
      exact congrArg Vif.psel (settles.vif (.inr thread))
    · rw [← selects.slave]
      simp only [settles.mapCfgs,settles.vif (.inr thread)]
  obtain ⟨_,_,edges,high,low,stage,latest,waited,mon⟩ := inv
  refine ⟨kept,routed,fun low => settles.atEdge (edges low),fun clk => settles.cycles.trans (high clk),fun clk => ?_,?_,
    by rw [settles.mapCfgs]; exact latest,waited,mon⟩
  · rw [now (settles.vif (.inl (edges clk)))]
    change master.cycles ++ [e.now] = {}::e.seen
    rw [settles.cycles]
    exact low clk
  · cases stage with
    | resting all early =>
      refine .resting (fun i => by rw [map]; exact all i) ?_
      rw [settles.accessing]
      exact early
    | opened i item thread chosen others later inv high =>
      have accessing : e.master.thread.accessing = some item := by rw [thread]; rfl
      have busy : e.master.thread.accessing ≠ none := by rw [accessing]; exact Option.some_ne_none _
      refine .opened i item (Thread.accessing_some (settles.accessing.trans accessing)) (selects i busy chosen)
        (fun j apart => by rw [map]; exact others j apart) later ?_ high
      rw [map,now (settles.vif (.inr busy))]
      exact inv
    | answered i item thread chosen others inv finishing low =>
      have accessing : e.master.thread.accessing = some item := by rw [thread]; rfl
      have busy : e.master.thread.accessing ≠ none := by rw [accessing]; exact Option.some_ne_none _
      refine .answered i item (Thread.accessing_some (settles.accessing.trans accessing)) (selects i busy chosen)
        (fun j apart => by rw [map]; exact others j apart) ?_ finishing low
      rw [map]
      exact inv

theorem Inv.slaveStep {e : Env aw dw} (inv : e.Inv) (i : Fin 2) (a : SlaveAction) :
    Inv {e with slaves := Function.update e.slaves i ((e.slaves i).step a)} := by
  obtain ⟨vif,thread⟩ := (e.slaves i).step_drv a
  have drv (j : Fin 2) : (Function.update e.slaves i ((e.slaves i).step a) j).drv.vif = (e.slaves j).drv.vif ∧
      (Function.update e.slaves i ((e.slaves i).step a) j).drv.thread.finishing =
        (e.slaves j).drv.thread.finishing := by
    by_cases here : j = i
    · rw [here,Function.update_self]
      exact ⟨vif,thread⟩
    · rw [Function.update_of_ne here]
      exact ⟨rfl,rfl⟩
  have keeps (j : Fin 2) {transit : SlaveAgent.Transit aw} (held : (e.slaves j).Inv transit (e.map j)) :
      (Function.update e.slaves i ((e.slaves i).step a) j).Inv transit (e.map j) := by
    by_cases here : j = i
    · subst here
      rw [Function.update_self]
      exact held.step a
    · rw [Function.update_of_ne here]
      exact held
  have rests (j : Fin 2) (resting : (e.slaves j).Resting (e.map j)) :
      (Function.update e.slaves i ((e.slaves i).step a) j).Resting (e.map j) :=
    ⟨keeps j resting.inv,(drv j).2.trans resting.idle⟩
  have now : Env.now {e with slaves := Function.update e.slaves i ((e.slaves i).step a)} = e.now := by
    simp only [Env.now,Env.response,(drv _).1]
  obtain ⟨master,routed,edges,high,low,stage,latest,waited,mon⟩ := inv
  refine ⟨master,routed,edges,high,fun clk => ?_,?_,latest,waited,mon⟩
  · rw [now]
    exact low clk
  · cases stage with
    | resting all early => exact .resting (fun j => rests j (all j)) early
    | opened j item thread chosen others later inv high =>
      refine .opened j item thread ⟨chosen.psel,chosen.slave⟩ (fun l apart => rests l (others l apart)) later ?_
        fun finishing => high ((drv j).2.symm.trans finishing)
      rw [now]
      exact keeps j inv
    | answered j item thread chosen others inv finishing low =>
      exact .answered j item thread ⟨chosen.psel,chosen.slave⟩ (fun l apart => rests l (others l apart)) (keeps j inv)
        ((drv j).2.trans finishing) low

theorem Inv.leave {e : Env aw dw} (inv : e.Inv) (quiet : e.runnable = false) : e.leave.Inv := by
  obtain ⟨idle,_⟩ := quiet_parts quiet
  have master : e.master.step .leave = {e.master with atEdge := false} := by rw [Driver.step,if_neg (by simp [idle])]
  have moved := inv.settles {e.master with atEdge := false} ⟨rfl,rfl,rfl,fun _ => rfl,fun _ => rfl⟩
    (Driver.Inv.moved inv.master rfl rfl (.refl _) inv.master.follows) inv.routed
  rw [Env.leave,master]
  obtain ⟨master,routed,edges,high,low,stage,latest,waited,mon⟩ := moved
  refine ⟨master,routed,fun _ => rfl,high,low,?_,latest,waited,mon⟩
  cases stage with
  | resting all early => exact .resting (fun i => ⟨(all i).inv.leave,(all i).idle⟩) early
  | opened i item thread chosen others later inv high =>
    exact .opened i item thread ⟨chosen.psel,chosen.slave⟩
      (fun j apart => ⟨(others j apart).inv.leave,(others j apart).idle⟩)
      later inv.leave high
  | answered i item thread chosen others inv finishing low =>
    exact .answered i item thread ⟨chosen.psel,chosen.slave⟩
      (fun j apart => ⟨(others j apart).inv.leave,(others j apart).idle⟩) inv.leave finishing low

/-- Past a rising edge the transfer that was answered is off the bus, and one that is open may have been answered. -/
theorem Inv.posedge {e : Env aw dw} (inv : e.Inv) (opt : Fin 2 → Bool) (quiet : e.runnable = false)
    (low : e.clk = false) : (e.posedge opt).Inv := by
  obtain ⟨idle,_⟩ := quiet_parts quiet
  have master : e.master.step (.posedge e.response.pready e.response.prdata e.response.pslverr) =
      (e.master.sample e.response.pready e.response.prdata e.response.pslverr).edge e.response.pready := by
    rw [Driver.step,if_neg (by simp [idle])]
  have fits (item : Item aw dw) (has : e.master.thread.item = some item) :
      Fits e.master.mapCfgs item ∧ item.trsT ≠ .rdwr :=
    inv.master.fits_of_mem item (by simp [Driver.ledger,has])
  have follows := Driver.posedge_follows e.master e.response.pready e.response.prdata e.response.pslverr
    inv.master.follows fits (.inl trivial)
  obtain ⟨mapCfgs,arrived,ledger⟩ := Driver.posedge_ledger e.master e.response.pready e.response.prdata
    e.response.pslverr
  have kept := inv.master.moved mapCfgs arrived (.of_eq ledger.symm) follows
  have map (i : Fin 2) : (e.posedge opt).map i = e.map i := by
    rw [Env.map,Env.posedge]
    simp only [master,mapCfgs]
    rfl
  have rests (i : Fin 2) (held : (e.slaves i).Inv none (e.map i)) :
      ((e.posedge opt).slaves i).Resting ((e.posedge opt).map i) := by
    rw [map]
    exact held.rests (e.view i) (opt i)
  refine ⟨?_,?_,fun high => (Bool.noConfusion high),fun _ => ?_,fun high => (Bool.noConfusion high),?_,?_,inv.waited,
    inv.mon⟩
  · rw [Env.posedge,master]
    exact kept
  · simp only [Env.posedge,master,mapCfgs,arrived]
    exact inv.routed
  · simp only [Env.posedge,master,Driver.posedge_cycles]
    exact inv.low low
  · cases inv.stage with
    | resting all early => exact .resting (fun i => rests i (all i).inv) (.inr rfl)
    | answered i item thread chosen others held finishing low =>
      refine .resting (fun j => ?_) (.inr rfl)
      by_cases here : j = i
      · exact rests j (here ▸ held)
      · exact rests j (others j here).inv
    | opened i item thread chosen others later held high =>
      obtain ⟨pending,_,enabled⟩ := inv.master.enabled thread
      have waiting : (e.slaves i).drv.thread.finishing = false := by
        by_contra finishing
        rw [Bool.not_eq_false] at finishing
        exact absurd ((high finishing).symm.trans low) Bool.true_eq_false.mp
      have unanswered : e.response.pready = false := by
        rw [chosen.response,held.prompt.ready]
        exact waiting
      have same : (e.master.sample e.response.pready e.response.prdata e.response.pslverr).thread =
        e.master.thread := rfl
      have stays : (e.posedge opt).master = e.master.sample e.response.pready e.response.prdata e.response.pslverr := by
        rw [Env.posedge,master,Driver.edge,same,thread]
        simp only [unanswered,Bool.false_eq_true,if_false]
      have vif : (e.posedge opt).master.vif = e.master.vif := by
        rw [stays]
        exact Driver.sample_vif pending _ _ _
      refine .opened i item (by rw [stays,same,thread]) ⟨by rw [vif]; exact chosen.psel,?_⟩
        (fun j apart => rests j (others j apart).inv) later ?_ fun _ => rfl
      · rw [vif,stays]
        exact chosen.slave
      · have shows : dirOf (e.posedge opt).now = dirOf e.now ∧ (e.posedge opt).now.paddr = e.now.paddr := by
          constructor
          · change (if (e.posedge opt).master.vif.prwd then TrsType.wr else TrsType.rd) = _
            rw [vif]
            rfl
          · exact congrArg Vif.paddr vif
        rw [shows.1,shows.2,map]
        exact held.access (opt i) waiting chosen.view.1 enabled
  · simp only [Env.posedge,master,mapCfgs]
    exact inv.latest

theorem memories_concat (mapCfgs : List MapCfg) (transfers : List (Transfer aw dw)) (t : Transfer aw dw) :
    memories mapCfgs (transfers ++ [t]) = storeTransfer mapCfgs (memories mapCfgs transfers) t :=
  Machine.run_concat _ _ _ _

theorem seen_quiet {e : Env aw dw} (order : Bool) (choice : Fin 2 → Choice) (goes : e.now.ended = false) :
    transfersOf (e.negedge order choice).seen = transfersOf e.seen := by
  change transfersOf (e.seen ++ [e.now]) = _
  rw [transfersOf_concat,goes]
  exact List.append_nil _

theorem Inv.counted {e : Env aw dw} (inv : e.Inv) (order : Bool) (choice : Fin 2 → Choice)
    (quiet : e.runnable = false) :
    (e.negedge order choice).master = e.master.negedge ∧ (e.negedge order choice).now = e.now ∧
      (e.negedge order choice).master.Inv True ∧ (e.negedge order choice).master.mapCfgs = e.master.mapCfgs := by
  obtain ⟨idle,_⟩ := quiet_parts quiet
  obtain ⟨settles,vif,_⟩ := e.master.negedge_settles
  have master : (e.negedge order choice).master = e.master.negedge := by
    rw [Env.negedge,Driver.step,if_neg (by simp [idle])]
  have slaves (i : Fin 2) : ((e.negedge order choice).slaves i).drv.vif = (e.slaves i).drv.vif := by
    obtain ⟨transit,held⟩ := inv.stage.slave i
    exact (held.negedge_drv (e.view i) (choice i)).1
  refine ⟨master,?_,?_,?_⟩
  · simp only [Env.now,Env.response,master,vif,slaves]
  · rw [master]
    exact Driver.negedge_inv e.master inv.master
  · rw [master]
    exact settles.mapCfgs

theorem Inv.negedge_of {e : Env aw dw} (inv : e.Inv) (order : Bool) (choice : Fin 2 → Choice)
    (quiet : e.runnable = false) (high : e.clk = true) (stage : (e.negedge order choice).Stage)
    (latest : Machine.Meets (storeTransfer e.master.mapCfgs) (ReadsLatest e.master.mapCfgs) (fun _ _ => 0)
      (transfersOf (e.negedge order choice).seen))
    (waits : ∀ c ∈ ({}::e.seen).getLast?, c.penable = false → e.now.penable = true → e.now.pready = false) :
    (e.negedge order choice).Inv := by
  obtain ⟨master,now,kept,mapCfgs⟩ := inv.counted order choice quiet
  obtain ⟨settles,_,edge⟩ := e.master.negedge_settles
  obtain ⟨samples,same,mon⟩ := inv.mon
  refine ⟨kept,?_,fun _ => ?_,fun low => (Bool.noConfusion low),fun _ => ?_,stage,?_,?_,samples ++ [(e.now,order)],?_,
    ?_⟩
  · rw [mapCfgs,master]
    intro item inside
    apply inv.routed
    have arrived : e.master.negedge.arrived = e.master.arrived := by
      cases thread : e.master.thread <;> simp only [Driver.negedge,thread]
      exact (Driver.waitCyc_kept _ _).1.arrived
    rwa [arrived] at inside
  · rw [master]
    exact edge
  · rw [now,master,settles.cycles,inv.high high]
    rfl
  · rw [mapCfgs]
    exact latest
  · exact inv.waited.concat waits
  · change (samples ++ [(e.now,order)]).map Prod.fst = e.seen ++ [e.now]
    rw [List.map_append,same]
    rfl
  · rw [after_concat,← mon]
    rfl

/-- At a falling edge the monitors see the transfer begin, go on or end. -/
theorem Inv.negedge {e : Env aw dw} (inv : e.Inv) (order : Bool) (choice : Fin 2 → Choice) (quiet : e.runnable = false)
    (high : e.clk = true) : (e.negedge order choice).Inv := by
  obtain ⟨_,idle⟩ := quiet_parts quiet
  obtain ⟨master,now,kept,mapCfgs⟩ := inv.counted order choice quiet
  obtain ⟨settles,vif,_⟩ := e.master.negedge_settles
  have goes (quiet : e.now.ended = false) (i : Fin 2) : (e.negedge order choice).map i = e.map i := by
    rw [Env.map,mapCfgs,seen_quiet order choice quiet]
    rfl
  have latest (quiet : e.now.ended = false) : Machine.Meets (storeTransfer e.master.mapCfgs)
      (ReadsLatest e.master.mapCfgs) (fun _ _ => 0) (transfersOf (e.negedge order choice).seen) := by
    rw [seen_quiet order choice quiet]
    exact inv.latest
  have chooses (i : Fin 2) (chosen : e.Selects i) : (e.negedge order choice).Selects i := by
    refine ⟨?_,?_⟩
    · rw [master,vif]
      exact chosen.psel
    · rw [mapCfgs,master,vif]
      exact chosen.slave
  have stays (item : Item aw dw) (thread : e.master.thread = .access item) :
      (e.negedge order choice).master.thread = .access item := by
    apply Thread.accessing_some
    rw [master,settles.accessing,thread]
    rfl
  have rests (i : Fin 2) (same : (e.negedge order choice).map i = e.map i)
      (unseen : (e.view i).psel = 0 ∨ (e.view i).penable = false) (resting : (e.slaves i).Resting (e.map i)) :
      ((e.negedge order choice).slaves i).Resting ((e.negedge order choice).map i) := by
    obtain ⟨held,thread⟩ := resting.inv.quiet (choice i) unseen
    rw [same]
    exact ⟨held,(congrArg SlaveThread.finishing thread).trans resting.idle⟩
  cases inv.stage with
  | resting all early =>
    cases accessing : e.master.thread.accessing with
    | none =>
      have disabled := inv.master.disabled accessing
      have quiet : e.now.ended = false := ended_of_low disabled
      refine inv.negedge_of order choice ‹_› high (.resting (fun i => rests i (goes quiet i) (.inr disabled) (all i))
        (.inl ?_))
        (latest quiet) fun _ _ _ enabled => ?_
      · rw [master,settles.accessing]
        exact accessing
      · exact absurd (disabled.symm.trans enabled) Bool.false_ne_true
    | some item =>
      have thread := Thread.accessing_some accessing
      obtain ⟨i,chosen⟩ := inv.selects thread
      obtain ⟨_,_,enabled⟩ := inv.master.enabled thread
      have unanswered : e.now.pready = false := by
        change e.response.pready = false
        rw [chosen.response]
        exact (all i).pready
      have quiet : e.now.ended = false := by simp [Sample.ended,unanswered]
      obtain ⟨held,same⟩ := (all i).begins (choice i) chosen.view.1 enabled ((all i).inv.quiet_writers (idle i))
      have low : ((e.negedge order choice).slaves i).drv.thread.finishing = false :=
        (congrArg SlaveThread.finishing same).trans (all i).idle
      refine inv.negedge_of order choice ‹_› high (.opened i item (stays item thread) (chooses i chosen)
        (fun j apart => rests j (goes quiet j) (.inl (chosen.view.2 j apart)) (all j)) ⟨e.seen,e.now,rfl,enabled⟩ ?_
        fun finishing => absurd (low.symm.trans finishing) Bool.false_ne_true) (latest quiet) fun _ _ _ _ => unanswered
      rw [now,goes quiet]
      exact held
  | opened i item thread chosen others later held answers =>
    obtain ⟨_,_,enabled⟩ := inv.master.enabled thread
    have ready : e.now.pready = (e.slaves i).drv.thread.finishing := by
      rw [← held.prompt.ready,← chosen.response]
      rfl
    cases finishing : (e.slaves i).drv.thread.finishing with
    | false =>
      rw [finishing] at ready
      have quiet : e.now.ended = false := by simp [Sample.ended,ready]
      obtain ⟨held',same⟩ := held.waits (c := e.view i) (choice i) (held.prompt.ready.trans finishing)
      have low : ((e.negedge order choice).slaves i).drv.thread.finishing = false :=
        (congrArg SlaveThread.finishing same).trans finishing
      refine inv.negedge_of order choice ‹_› high (.opened i item (stays item thread) (chooses i chosen)
        (fun j apart => rests j (goes quiet j) (.inl (chosen.view.2 j apart)) (others j apart))
          ⟨e.seen,e.now,rfl,enabled⟩ ?_
        fun finishing => absurd (low.symm.trans finishing) Bool.false_ne_true) (latest quiet) fun _ _ _ _ => ready
      rw [now,goes quiet]
      exact held'
    | true =>
      rw [finishing] at ready
      have selected : e.now.psel ≠ 0 := by
        have set : ∀ i : Fin 2, 1#16 <<< i.val ≠ 0 := by decide
        change e.master.vif.psel ≠ 0
        rw [chosen.psel]
        exact set i
      have ends : e.now.ended = true := (ended_of_selected selected enabled).trans ready
      have seen : transfersOf (e.negedge order choice).seen = transfersOf e.seen ++ [e.now.transfer] := by
        change transfersOf (e.seen ++ [e.now]) = _
        rw [transfersOf_concat,if_pos ends]
      have map (j : Fin 2) : (e.negedge order choice).map j =
          if j = i then written (e.map j) e.now.transfer else e.map j := by
        rw [Env.map,mapCfgs,seen,memories_concat,storeTransfer]
        have slave : slaveOf e.master.mapCfgs e.now.transfer.addr = some i.val := chosen.slave
        simp only [slave,Option.some.injEq,Fin.val_inj,eq_comm (a := i)]
        rfl
      have transfer : (e.view i).transfer = e.now.transfer := by
        simp only [Sample.transfer,Env.now,Env.view,chosen.response]
        rfl
      have held' := held.ends (c := e.view i) (choice i) finishing (held.prompt.ready.trans finishing)
      refine inv.negedge_of order choice ‹_› high (.answered i item (stays item thread) (chooses i chosen)
        (fun j apart => rests j ((map j).trans (if_neg apart)) (.inl (chosen.view.2 j apart)) (others j apart))
          ?_ ?_ rfl)
        ?_ ?_
      · rw [map,if_pos rfl,← transfer]
        exact held'
      · exact (congrArg SlaveThread.finishing (held.negedge_drv (e.view i) (choice i)).2).trans finishing
      · rw [seen]
        refine (Machine.meets_concat _ _ _ _ _).mpr ⟨inv.latest,fun read j slave => ?_⟩
        have read : e.now.prwd = false := read
        obtain rfl : i.val = j := Option.some.inj (chosen.slave.symm.trans slave)
        have data : e.now.transfer.data = (e.slaves i).drv.vif.prdata := by
          rw [← chosen.response]
          exact if_neg (by simp [read])
        rw [data]
        exact held.answers (by rw [dirOf,read]; rfl) finishing
      · obtain ⟨before,c,split,last⟩ := later
        intro d final disabled
        rw [split,← List.cons_append,List.getLast?_concat] at final
        rw [← Option.some.inj final] at disabled
        exact absurd (last.symm.trans disabled) Bool.true_eq_false.mp
  | answered i item thread chosen others held finishing low => exact absurd (high.symm.trans low) Bool.true_eq_false.mp

/-- The address of an item that is pushed is mapped to one of the two slaves. -/
def Routed (e : Env aw dw) : EnvAction aw dw → Prop
  | .arrive item => ∃ i : Fin 2, slaveOf e.master.mapCfgs item.addr = some i.val
  | _ => True

instance (e : Env aw dw) (a : EnvAction aw dw) : Decidable (e.Routed a) := by
  unfold Routed
  split <;> infer_instance

theorem step_inv (e : Env aw dw) (a : EnvAction aw dw) (inv : e.Inv) (routed : e.Routed a) : (e.step a).Inv := by
  cases a with
  | posedge opt =>
    rw [step]
    split
    · exact inv
    next passes =>
      simp only [Bool.or_eq_true,not_or,Bool.not_eq_true] at passes
      exact inv.posedge opt passes.1 passes.2
  | negedge order choice =>
    rw [step]
    split
    · exact inv
    next passes =>
      simp only [Bool.or_eq_true,not_or,Bool.not_eq_true,Bool.not_eq_false'] at passes
      exact inv.negedge order choice passes.1 passes.2
  | leave =>
    rw [step]
    split
    · exact inv
    next passes => exact inv.leave (Bool.not_eq_true _ ▸ passes)
  | arrive item =>
    obtain ⟨i,slave⟩ := routed
    have fits : Fits e.master.mapCfgs item := ⟨i.val,by omega,slave⟩
    refine inv.settles _ (e.master.driveBus_settles item) (e.master.driveBus_inv item inv.master fits) ?_
    change ∀ other ∈ (e.master.driveBus item).arrived, ∃ i : Fin 2,
      slaveOf (e.master.driveBus item).mapCfgs other.addr = some i.val
    rw [(e.master.driveBus_settles item).mapCfgs]
    intro other inside
    unfold Driver.driveBus at inside
    split at inside
    · rcases List.mem_append.mp inside with old | new
      · exact inv.routed other old
      · exact ⟨i,List.mem_singleton.mp new ▸ slave⟩
    · rcases List.mem_append.mp inside with old | new
      · exact inv.routed other old
      · exact ⟨i,List.mem_singleton.mp new ▸ slave⟩
    · exact inv.routed other inside
  | configure hasBlock blockPsel blockPenable =>
    exact inv.settles _ ⟨rfl,rfl,rfl,fun _ => rfl,id⟩
      (Driver.Inv.moved inv.master rfl rfl (.refl _) inv.master.follows) inv.routed
  | wake =>
    have arrived : e.master.wake.arrived = e.master.arrived := by
      unfold Driver.wake
      split
      · split <;> rfl
      · split
        · rfl
        · exact (Driver.waitCyc_kept _ _).1.arrived
      · rfl
    refine inv.settles _ e.master.wake_settles (e.master.wake_inv inv.master) ?_
    change ∀ item ∈ e.master.wake.arrived, ∃ i : Fin 2, slaveOf e.master.wake.mapCfgs item.addr = some i.val
    rw [arrived,e.master.wake_settles.mapCfgs]
    exact inv.routed
  | slave i a => exact inv.slaveStep i a

theorem initial_resting (blockPready hasError : Bool) :
    (SlaveAgent.initial blockPready hasError : SlaveAgent aw dw).Resting fun _ => 0 := by
  refine ⟨⟨⟨rfl,SlaveBaseSeq.initial_inv,Nat.le_refl 0,.inl rfl,List.not_mem_nil,?_,?_,?_,?_,Nat.zero_le 1⟩,
    ⟨rfl,rfl,fun _ other => by cases other⟩,⟨fun _ => rfl,?_,.inl rfl⟩,⟨rfl,rfl,fun _ => rfl,?_⟩⟩,rfl⟩
  · exact fun _ inside => (List.not_mem_nil inside).elim
  · exact fun forks => absurd forks (Nat.lt_irrefl 0)
  · exact fun _ inside => (List.not_mem_nil inside).elim
  · exact fun _ inside => (List.not_mem_nil inside).elim
  · exact fun _ inside => (List.not_mem_nil inside).elim
  · exact fun ends => absurd ends (SlaveAgent.not_stores rfl)

theorem initial_inv (mapCfgs : List MapCfg) (hasBlock blockPsel blockPenable : Bool) (config : Fin 2 → Bool × Bool) :
    Inv (initial mapCfgs hasBlock blockPsel blockPenable config : Env aw dw) := by
  refine ⟨Driver.initial_inv mapCfgs hasBlock blockPsel blockPenable,fun _ inside => (List.not_mem_nil inside).elim,
    fun _ => rfl,fun high => Bool.noConfusion high,fun _ => rfl,
    .resting (fun i => initial_resting (config i).1 (config i).2) (.inl rfl),trivial,.singleton _,[],rfl,rfl⟩

def after (mapCfgs : List MapCfg) (hasBlock blockPsel blockPenable : Bool) (config : Fin 2 → Bool × Bool)
    (actions : List (EnvAction aw dw)) : Env aw dw :=
  Machine.run step (initial mapCfgs hasBlock blockPsel blockPenable config) actions

/-- The actions route every item to a slave. -/
def Admissible (mapCfgs : List MapCfg) (hasBlock blockPsel blockPenable : Bool) (config : Fin 2 → Bool × Bool)
    (actions : List (EnvAction aw dw)) : Prop :=
  Machine.Meets step Routed (initial mapCfgs hasBlock blockPsel blockPenable config) actions

theorem step_mapCfgs (e : Env aw dw) (a : EnvAction aw dw) : (e.step a).master.mapCfgs = e.master.mapCfgs := by
  cases a with
  | posedge opt | negedge order choice | leave =>
    rw [step]
    split
    · rfl
    · exact e.master.step_mapCfgs _
  | arrive item => exact e.master.step_mapCfgs (.arrive item)
  | configure hasBlock blockPsel blockPenable => rfl
  | wake => exact e.master.step_mapCfgs .wake
  | slave i a => rfl

theorem after_mapCfgs (mapCfgs : List MapCfg) (hasBlock blockPsel blockPenable : Bool) (config : Fin 2 → Bool × Bool)
    (actions : List (EnvAction aw dw)) :
    (after mapCfgs hasBlock blockPsel blockPenable config actions).master.mapCfgs = mapCfgs := by
  have keep (e : Env aw dw) (a : EnvAction aw dw) (same : e.master.mapCfgs = mapCfgs) :
      (e.step a).master.mapCfgs = mapCfgs := (step_mapCfgs e a).trans same
  exact Machine.run_induction keep actions rfl

theorem after_inv {mapCfgs : List MapCfg} {hasBlock blockPsel blockPenable : Bool} {config : Fin 2 → Bool × Bool}
    {actions : List (EnvAction aw dw)}
    (admissible : Admissible mapCfgs hasBlock blockPsel blockPenable config actions) :
    (after mapCfgs hasBlock blockPsel blockPenable config actions).Inv :=
  Machine.run_invariant step_inv (initial_inv mapCfgs hasBlock blockPsel blockPenable config) admissible

/-- What has been seen at the falling edges is a trace of the items driven, and at most of the one under way. -/
theorem Inv.traced {e : Env aw dw} (inv : e.Inv) :
    ∃ items pos, BusTrace True e.master.mapCfgs items pos ({}::e.seen) ∧
      ∃ done, List.Forall₂ Carries done (transfersOf e.seen) ∧
        (done = e.master.driven ∨ ∃ item, e.master.thread = .access item ∧ done = e.master.driven ++ [item]) := by
  have same : transfersOf ({}::e.seen) = transfersOf e.seen := rfl
  cases clk : e.clk with
  | true =>
    obtain ⟨items,pos,trace⟩ := inv.master.trace
    have carried := inv.master.carries
    rw [inv.high clk] at trace carried
    exact ⟨items,pos,trace,_,carried,.inl rfl⟩
  | false =>
    obtain ⟨items,pos,trace,place⟩ := inv.master.sampled e.response.pready e.response.prdata e.response.pslverr
    have now : e.master.cycles ++ [e.master.vif.sampled e.response.pready e.response.prdata e.response.pslverr] =
        {}::e.seen := inv.low clk
    rw [now] at trace
    refine ⟨items,pos,trace,?_⟩
    have progress := trace.progress
    rw [same] at progress
    rcases place with ⟨rfl,done⟩ | ⟨item,wdata,begun,rfl⟩
    · exact ⟨items,progress,done⟩
    · obtain ⟨before,split,carried⟩ := progress.begun begun
      obtain ⟨rfl,_⟩ := List.append_singleton_inj.mp split
      exact ⟨_,carried,.inl rfl⟩

theorem Inv.collected {e : Env aw dw} (inv : e.Inv) : List.Forall₂ Shows (transfersOf e.seen) e.mon.collected := by
  obtain ⟨samples,same,mon⟩ := inv.mon
  obtain ⟨items,pos,trace,_⟩ := inv.traced
  have whole : (({},true)::samples).map Prod.fst = {}::e.seen := by rw [List.map_cons,same]
  have shows := (trace.attends inv.waited whole).2
  rw [mon]
  exact shows

end Env

end Smtdv.Apb
