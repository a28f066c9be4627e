import Smtdv.Apb.Loop
import Smtdv.Common.RegAdapter

/-! What the bench gives its scoreboards: the items that the master's monitor collects are those driven, in their
order, and each read has the bytes that the writes before it have left in its slave. -/
namespace Smtdv.Apb
open Lib

variable {aw dw : Nat}

/-- The item collected is the whole of the transfer of the item driven. -/
structure Delivers (item : Item aw dw) (collected : CollItem aw dw) : Prop where
  addr : collected.addr = item.addr
  trsT : collected.trsT = item.trsT
  data : item.trsT = .wr → collected.dataBeat = [packData (unpackData (item.dataBeat.getD 0 default))]
  rsp : collected.rsp.isSome = true

def storeItem (mapCfgs : List MapCfg) (maps : Nat → ByteMap aw) (item : CollItem aw dw) : Nat → ByteMap aw :=
  fun i =>
    if slaveOf mapCfgs item.addr = some i ∧ item.trsT = .wr ∧ item.rsp = some .okay then
      storeAt (maps i) item.addr (List.ofFn (item.dataBeat.getD 0 default))
    else maps i

def LatestItem (mapCfgs : List MapCfg) (maps : Nat → ByteMap aw) (item : CollItem aw dw) : Prop :=
  item.trsT = .rd → ∀ i, slaveOf mapCfgs item.addr = some i → item.dataBeat = [beatAt dw (maps i) item.addr]

theorem storeItem_shows {mapCfgs : List MapCfg} {t : Transfer aw dw} {item : CollItem aw dw} (shows : Shows t item)
    (maps : Nat → ByteMap aw) : storeTransfer mapCfgs maps t = storeItem mapCfgs maps item := by
  funext i
  rw [storeTransfer,storeItem,shows.addr,shows.trsT,shows.rsp,shows.data,written]
  by_cases slave : slaveOf mapCfgs t.addr = some i
  · cases t.write <;> cases t.err <;> simp [slave]
  · simp [slave]

theorem latestItem_shows {mapCfgs : List MapCfg} {t : Transfer aw dw} {item : CollItem aw dw} (shows : Shows t item)
    {maps : Nat → ByteMap aw} (latest : ReadsLatest mapCfgs maps t) : LatestItem mapCfgs maps item := by
  intro read i slave
  rw [shows.addr] at slave ⊢
  have low : t.write = false := by
    have trsT := shows.trsT
    rw [read] at trsT
    cases write : t.write with
    | false => rfl
    | true =>
      rw [write] at trsT
      cases trsT
  rw [shows.data,latest low i slave,packData_unpackData]

theorem delivers_of {item : Item aw dw} {t : Transfer aw dw} {collected : CollItem aw dw} (known : item.trsT ≠ .rdwr)
    (carries : Carries item t) (shows : Shows t collected) : Delivers item collected := by
  refine ⟨shows.addr.trans carries.addr,?_,fun write => ?_,?_⟩
  · rw [shows.trsT,carries.write]
    cases trsT : item.trsT with
    | rd | wr => rfl
    | rdwr => exact absurd trsT known
  · rw [shows.data,carries.data write]
  · rw [shows.rsp]
    rfl

theorem delivers_all {items : List (Item aw dw)} {transfers : List (Transfer aw dw)} {collected : List (CollItem aw dw)}
    (known : ∀ item ∈ items, item.trsT ≠ .rdwr) (carried : List.Forall₂ Carries items transfers)
    (shows : List.Forall₂ Shows transfers collected) : List.Forall₂ Delivers items collected := by
  induction carried generalizing collected with
  | nil =>
    cases shows
    exact .nil
  | cons carries _ ih =>
    cases shows with
    | cons first rest =>
      exact .cons (delivers_of (known _ List.mem_cons_self) carries first)
        (ih (fun item inside => known item (List.mem_cons_of_mem _ inside)) rest)

namespace Env

/-- The items driven to the end, and the one under way when the monitor has already seen its end. -/
def Done (e : Env aw dw) (items : List (Item aw dw)) : Prop :=
  items = e.master.driven ∨ ∃ item, e.master.thread = .access item ∧ items = e.master.driven ++ [item]

/-- In every admissible run each access phase has a wait state, so the monitor of the master collects each item
driven once, in the order in which they are driven, and no other. -/
theorem delivered_of_admissible (mapCfgs : List MapCfg) (hasBlock blockPsel blockPenable : Bool)
    (config : Fin 2 → Bool × Bool) (actions : List (EnvAction aw dw))
    (admissible : Admissible mapCfgs hasBlock blockPsel blockPenable config actions) :
    let e := after mapCfgs hasBlock blockPsel blockPenable config actions
    Waited e.seen ∧ (∃ items, e.Done items ∧ List.Forall₂ Delivers items e.mon.collected) ∧
      e.master.arrived.Perm (e.master.driven ++ e.master.thread.item.toList ++ e.master.mbox) := by
  intro e
  have inv : e.Inv := after_inv admissible
  obtain ⟨_,_,_,items,carried,done⟩ := inv.traced
  refine ⟨inv.waited.tail,⟨items,done,delivers_all (fun item inside => ?_) carried inv.collected⟩,inv.master.once⟩
  apply (inv.master.fits_of_mem item _).2
  rw [Driver.ledger]
  rcases done with rfl | ⟨last,thread,rfl⟩
  · simp [inside]
  · rw [thread]
    rcases List.mem_append.mp inside with old | new
    · simp [old]
    · simp [List.mem_singleton.mp new,Thread.item]

/-- A write and a read of one byte, each answered after one wait state. -/
def writtenThenRead : List (EnvAction 8 8) :=
  let still : Fin 2 → Choice := fun _ => ⟨true,false,0,0,false⟩
  let noErr : Fin 2 → Bool := fun _ => false
  let low := responder 1
  let high := responder 2
  [.wake,.slave low .get,.slave high .get,.posedge noErr,
    .arrive ⟨.wr,16,[fun _ => 7],0,0,0,0⟩,.arrive ⟨.rd,16,[],0,0,0,0⟩,
    .wake,.negedge true still,.posedge noErr,.negedge true still,
    .slave high .get,.slave high .get,.slave high .start,.slave high .note,.slave high .wake,
    .posedge noErr,.negedge true still,
    .slave high (.store 0),.posedge noErr,.wake,.wake,.negedge true still,.posedge noErr,.negedge true still,
    .slave high .get,.slave high .get,.slave high .note,.slave high .wake,.posedge noErr,.negedge true still]

theorem writtenThenRead_admissible :
    Admissible [⟨0,0,15⟩,⟨1,16,31⟩] false false false (fun _ => (false,false)) writtenThenRead := by
  unfold Admissible
  decide +kernel

theorem writtenThenRead_delivered :
    let e := after [⟨0,0,15⟩,⟨1,16,31⟩] false false false (fun _ => (false,false)) writtenThenRead
    e.mon.collected.length = 2 ∧ Waited e.seen := by
  refine ⟨by decide +kernel,?_⟩
  exact (delivered_of_admissible [⟨0,0,15⟩,⟨1,16,31⟩] false false false (fun _ => (false,false)) writtenThenRead
    writtenThenRead_admissible).1

/-- In every admissible run the items that the monitor of the master collects are a history of the memories of the
slaves: each read has the bytes of the latest writes without an error before it. -/
theorem latest_of_admissible (mapCfgs : List MapCfg) (hasBlock blockPsel blockPenable : Bool)
    (config : Fin 2 → Bool × Bool) (actions : List (EnvAction aw dw))
    (admissible : Admissible mapCfgs hasBlock blockPsel blockPenable config actions) :
    Machine.Meets (storeItem mapCfgs) (LatestItem mapCfgs) (fun _ _ => 0)
      (after mapCfgs hasBlock blockPsel blockPenable config actions).mon.collected := by
  have inv := after_inv admissible
  have latest := inv.latest
  have collected := inv.collected
  rw [after_mapCfgs] at latest
  have same (maps : Nat → ByteMap aw) (t : Transfer aw dw) (item : CollItem aw dw) (shows : Shows t item) :
      storeTransfer mapCfgs maps t = storeItem mapCfgs maps item := storeItem_shows shows maps
  have gives (maps : Nat → ByteMap aw) (t : Transfer aw dw) (item : CollItem aw dw) (shows : Shows t item)
      (latest : ReadsLatest mapCfgs maps t) : LatestItem mapCfgs maps item := latestItem_shows shows latest
  exact Machine.Meets.rel same gives collected latest

theorem writtenThenRead_latest :
    let e := after [⟨0,0,15⟩,⟨1,16,31⟩] false false false (fun _ => (false,false)) writtenThenRead
    e.mon.collected.map (fun item => (item.trsT,item.dataBeat)) = [(.wr,[fun _ => 7]),(.rd,[fun _ => 7])] ∧
      Machine.Meets (storeItem [⟨0,0,15⟩,⟨1,16,31⟩]) (LatestItem [⟨0,0,15⟩,⟨1,16,31⟩]) (fun _ _ => 0)
        e.mon.collected := by
  refine ⟨by decide +kernel,?_⟩
  exact latest_of_admissible [⟨0,0,15⟩,⟨1,16,31⟩] false false false (fun _ => (false,false)) writtenThenRead
    writtenThenRead_admissible

end Env

end Smtdv.Apb
