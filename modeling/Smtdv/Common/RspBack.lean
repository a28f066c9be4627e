import Smtdv.Common.ThreadHandler
import Smtdv.Common.Types
import Smtdv.Lib.TwinQueue

/-! A master agent from the sequencer to `smtdv_rsp_back`. Requests are recorded in `bbox` as they arrive, driven by
priority and monitored; the response thread takes each item that the monitor begins, waits until both collectors have
completed it, and updates the first of `bbox` with it. -/
namespace Smtdv
open Lib

variable {dw : Nat}

/-- A request, or the clone of one that is driven again; `id` tells which. -/
structure Request (dw : Nat) where
  id : Nat
  prio : Int
  dataBeat : List (Beat dw) := []
  rsp : TrxRsp := .okay
  deriving DecidableEq

/-- A monitored item, with the request whose driving produced it. Its `rsp` is random until a collector sets it. -/
structure MonItem (dw : Nat) where
  origin : Nat
  dataBeat : List (Beat dw) := []
  rsp : TrxRsp := .okay
  addrComplete : Bool := false
  dataComplete : Bool := false
  deriving DecidableEq

def MonItem.complete (mitem : MonItem dw) : Bool := mitem.addrComplete && mitem.dataComplete

/-- `smtdv_driver::update_rsp_back`. -/
def updateRspBack (ritem : Request dw) (mitem : MonItem dw) : Request dw :=
  {ritem with dataBeat := mitem.dataBeat, rsp := mitem.rsp}

/-- The master agents: driver, monitor and the thread of the monitor that writes `item_callback_port`. -/
inductive Master
  | ahb | apb
  deriving DecidableEq

def Master.drv : Master → Cls
  | .ahb => .ahbMasterDriver
  | .apb => .apbMasterDriver

def Master.mon : Master → Cls
  | .ahb => .ahbMonitor
  | .apb => .apbMonitor

/-- The thread runs in the component. -/
def Component.runs (c : Component) (name : ThreadName) : Bool :=
  (c.bkHandler ++ c.thHandler).any fun th => decide (th.name = name ∧ 0 < th.running)

def Master.monitors (master : Master) (mon : Component) : Bool :=
  match master with
  | .ahb => mon.runs .ahbCollectAddrItems && mon.runs .ahbCollectDataItems
  | .apb => mon.runs .apbCollectWriteItems && mon.runs .apbCollectReadItems

/-- `populate_begin_item` or `populate_nonseq_item`: an APB item has its address at once. -/
def Master.beginItem (master : Master) (origin : Nat) : MonItem dw := {origin := origin, addrComplete := master = .apb}

/-- The end of an item; `listening` when the AHB address collector still listens on it. That collector sets the
response of one that it listens on, but of the responses other than OKAY it sees only the end of a RETRY; the data
collector sets that of OKAY only. -/
def Master.endItem (master : Master) (listening : Bool) (dataBeat : List (Beat dw)) (rsp : TrxRsp)
    (mitem : MonItem dw) : MonItem dw :=
  {mitem with
    dataBeat := dataBeat
    rsp := if master = .apb ∨ rsp = .okay ∨ listening then rsp else mitem.rsp
    addrComplete := mitem.addrComplete || (listening && rsp = .retry)
    dataComplete := true}

/-- The responses that the monitor hands on as they were. -/
def Master.hands : Master → TrxRsp → Bool
  | .ahb,rsp => rsp = .okay
  | .apb,rsp => rsp = .okay ∨ rsp = .error

structure Agent (dw : Nat) where
  drv : Component
  mon : Component
  bbox : List (Request dw) := []
  /- the pushes that `drive_bus` and `redrive_bus` have forked, the box the thread takes from
  (`addrbox` or `mbox`), the items taken, and those begun on the bus, each with the item of the monitor -/
  forks : List (Request dw × Bool) := []
  box : List (Request dw) := []
  taken : List (Request dw) := []
  bus : List (Request dw × Option Nat) := []
  /- the items of the monitor, numbered as they are created, and the one that `ahb_collect_addr_items` listens on -/
  items : List (MonItem dw) := []
  listens : Option Nat := none
  /- `fifo_mon_drv`, and the item that `smtdv_rsp_back` has taken from it -/
  fifo : List Nat := []
  item : Option Nat := none
  /- the number of requests so far, how the bus has answered them, and the updates: the request, and the
  item it was updated with -/
  requests : Nat := 0
  answers : List (Nat × List (Beat dw) × TrxRsp) := []
  updated : List (Request dw × MonItem dw) := []

/-- `beginItem` begins the first item taken, and the monitor may miss it; `addrDone` is the end of the address
collector's `listen_OKAY`; `finish` ends the first item on the bus. -/
inductive AgentAction (dw : Nat)
  | request (prio : Int)
  | push (k : Nat)
  | take
  | beginItem (seen : Bool)
  | addrDone
  | finish (dataBeat : List (Beat dw)) (rsp : TrxRsp)
  | get
  | respond
  | reset (e : Component.Event)

namespace Agent

/-- `get_next_item`, the push to `bbox`, and `drive_bus`. -/
def request (s : Agent dw) (prio : Int) : Agent dw :=
  let req : Request dw := {id := s.requests, prio := prio}
  {s with bbox := s.bbox ++ [req], forks := s.forks ++ [(req,false)], requests := s.requests+1}

/-- A forked push; `redrive_bus` pushes to the front. -/
def push (s : Agent dw) (k : Nat) : Agent dw :=
  match s.forks[k]? with
  | none => s
  | some (item,front) => {s with forks := s.forks.eraseIdx k, box := TwinQueue.push item front s.box}

/-- `async_prio_get`. -/
def take (s : Agent dw) : Agent dw :=
  match TwinQueue.sort Request.prio s.box with
  | [] => s
  | item::rest => {s with box := rest, taken := s.taken ++ [item]}

/-- The first item taken begins. A monitor that sees it writes a new item to `item_callback_port`; one whose address
collector still listens on an item does not. -/
def beginItem (s : Agent dw) (master : Master) (seen : Bool) : Agent dw :=
  match s.taken with
  | [] => s
  | item::rest =>
    if seen && master.monitors s.mon && s.listens.isNone then
      {s with
        taken := rest
        bus := s.bus ++ [(item,some s.items.length)]
        items := s.items ++ [master.beginItem item.id]
        listens := if master = .ahb then some s.items.length else none
        fifo := s.fifo ++ [s.items.length]}
    else {s with taken := rest, bus := s.bus ++ [(item,none)]}

/-- `populate_okay_item` and `populate_complete_item` of the address collector. -/
def addrDone (s : Agent dw) : Agent dw :=
  match s.listens with
  | none => s
  | some h =>
    {s with items := s.items.modify h fun mitem => {mitem with rsp := .okay, addrComplete := true}, listens := none}

/-- The address collector listens on the item. -/
def listening (s : Agent dw) (mitem : Option Nat) : Bool := mitem.isSome && decide (s.listens = mitem)

/-- The first item on the bus ends. With OKAY that is after its last address, for which `listen_OKAY` of the data
collector waits. One that is retried or split is driven again. -/
def finish (s : Agent dw) (master : Master) (dataBeat : List (Beat dw)) (rsp : TrxRsp) : Agent dw :=
  match s.bus with
  | [] => s
  | (item,mitem)::rest =>
    if rsp = .okay ∧ s.listening mitem then s
    else {s with
      bus := rest
      items := match mitem with
        | none => s.items
        | some h => s.items.modify h (master.endItem (s.listening mitem) dataBeat rsp)
      listens := if rsp = .retry ∧ s.listening mitem then none else s.listens
      forks := if rsp = .retry ∨ rsp = .split then s.forks ++ [({item with prio := -1},true)] else s.forks
      answers := s.answers ++ [(item.id,dataBeat,rsp)]}

/-- `smtdv_rsp_back::run` up to its `wait`. -/
def get (s : Agent dw) : Agent dw :=
  match s.item,s.fifo with
  | none,h::fifo => if s.drv.runs .smtdvRspBack then {s with item := some h, fifo := fifo} else s
  | _,_ => s

/-- The item of the response thread, when it is complete. -/
def awaited (s : Agent dw) : Option (MonItem dw) :=
  (s.item.bind fun h => s.items[h]?).filter MonItem.complete

/-- The rest of its turn: `async_get(0)`, `async_delete(0)` and the update. -/
def respond (s : Agent dw) : Agent dw :=
  match s.awaited,s.bbox with
  | some mitem,ritem::bbox =>
    if s.drv.runs .smtdvRspBack then
      {s with item := none, bbox := bbox, updated := s.updated ++ [(updateRspBack ritem mitem,mitem)]}
    else s
  | _,_ => s

/-- `resetn` changes. When it falls `disable fork` ends what is under way, and `reset_driver`
deletes the box but not `bbox`. -/
def reset (s : Agent dw) (master : Master) (e : Component.Event) : Agent dw :=
  let s' := {s with drv := s.drv.step master.drv e, mon := s.mon.step master.mon e}
  match e with
  | .assert =>
    if s.drv.resetn then {s' with forks := [], box := [], taken := [], bus := [], listens := none, item := none} else s'
  | .deassert => s'

/-- While `resetn` is low there is no process that could go on. -/
def step (master : Master) (s : Agent dw) : AgentAction dw → Agent dw
  | .request prio => if s.drv.resetn then s.request prio else s
  | .push k => s.push k
  | .take => s.take
  | .beginItem seen => s.beginItem master seen
  | .addrDone => s.addrDone
  | .finish dataBeat rsp => s.finish master dataBeat rsp
  | .get => s.get
  | .respond => s.respond
  | .reset e => s.reset master e

def initial (master : Master) (resetn : Bool) : Agent dw where
  drv := .initial master.drv resetn
  mon := .initial master.mon resetn

def after (master : Master) (resetn : Bool) (actions : List (AgentAction dw)) : Agent dw :=
  Machine.run (step master) (initial master resetn) actions

/-- The response thread has something to do. -/
def responds (s : Agent dw) : Bool :=
  s.drv.runs .smtdvRspBack && if s.item = none then !s.fifo.isEmpty else s.awaited.isSome && !s.bbox.isEmpty

/-- No request waits to be driven or is being driven, and the response thread has done what it can. -/
structure Quiet (s : Agent dw) : Prop where
  forks : s.forks = []
  box : s.box = []
  taken : s.taken = []
  bus : s.bus = []
  done : s.responds = false

/-- Every request was updated with its own item, and so with what the bus has answered it, and none is outstanding
that is not in flight. -/
structure Paired (s : Agent dw) : Prop where
  own : ∀ pair ∈ s.updated, pair.1.id = pair.2.origin ∧ pair.1.dataBeat = pair.2.dataBeat ∧
    pair.1.rsp = pair.2.rsp ∧ (pair.1.id,pair.1.dataBeat,pair.1.rsp) ∈ s.answers
  emptied : s.Quiet → s.bbox = []

/-- Requests come while the monitor and the response thread run, reach the box in turn, none of them outranking one
that still waits there, are seen by the monitor as they begin and end with a response that it hands on; `resetn` falls
while none is outstanding. -/
def InTurn (master : Master) (s : Agent dw) : AgentAction dw → Prop
  | .request _ => s.drv.resetn = true → s.drv.runs .smtdvRspBack = true ∧ master.monitors s.mon = true
  | .push k => k = 0 ∧ ∀ push ∈ s.forks.head?, ∀ item ∈ s.box, item.prio ≤ push.1.prio
  | .beginItem seen => seen = true ∧ s.listens = none
  | .finish _ rsp => master.hands rsp = true
  | .reset .assert => s.bbox = []
  | .take | .addrDone | .get | .respond | .reset .deassert => True

instance (master : Master) (s : Agent dw) (a : AgentAction dw) : Decidable (s.InTurn master a) := by
  unfold InTurn
  split <;> infer_instance

/-- The item of a request that has ended has what the bus has answered. -/
def Over (s : Agent dw) (entry : Nat × Nat) : Prop :=
  ∃ mitem, s.items[entry.1]? = some mitem ∧ mitem.origin = entry.2 ∧ mitem.complete = true ∧
    (entry.2,mitem.dataBeat,mitem.rsp) ∈ s.answers

/-- The monitor has the item of a request on the bus, and the address of it or listens for it. -/
def Begun (s : Agent dw) (entry : Request dw × Option Nat) : Prop :=
  ∃ h mitem, entry.2 = some h ∧ s.items[h]? = some mitem ∧ mitem.origin = entry.1.id ∧ mitem.dataComplete = false ∧
    (mitem.addrComplete = true ∨ s.listens = some h)

/-- The outstanding requests stand in one line, from those whose items have ended to those that are still to be pushed,
and so do the items of the monitor. -/
structure Line (s : Agent dw) (past : List (Nat × Nat)) : Prop where
  requests : s.bbox.map Request.id = past.map Prod.snd ++ s.bus.map (fun entry => entry.1.id) ++
    s.taken.map Request.id ++ s.box.map Request.id ++ s.forks.map fun push => push.1.id
  items : s.item.toList ++ s.fifo = past.map Prod.fst ++ s.bus.filterMap Prod.snd
  distinct : (past.map Prod.fst ++ s.bus.filterMap Prod.snd).Nodup
  past : ∀ entry ∈ past, s.Over entry
  begun : ∀ entry ∈ s.bus, s.Begun entry

structure PairInv (master : Master) (s : Agent dw) : Prop where
  line : ∃ past, s.Line past
  listens : ∀ h, s.listens = some h → master = .ahb ∧ ∃ entry ∈ s.bus, entry.2 = some h
  back : ∀ push ∈ s.forks, push.2 = false
  sorted : s.box.Pairwise fun a b => a.prio ≤ b.prio
  own : ∀ pair ∈ s.updated, pair.1.id = pair.2.origin ∧ pair.1.dataBeat = pair.2.dataBeat ∧
    pair.1.rsp = pair.2.rsp ∧ (pair.1.id,pair.1.dataBeat,pair.1.rsp) ∈ s.answers
  together : s.mon.resetn = s.drv.resetn
  up : s.bbox ≠ [] → s.drv.resetn = true ∧ s.drv.runs .smtdvRspBack = true ∧ master.monitors s.mon = true

theorem request_inv (master : Master) (s : Agent dw) (prio : Int) (inv : s.PairInv master) (high : s.drv.resetn = true)
    (runs : s.drv.runs .smtdvRspBack = true ∧ master.monitors s.mon = true) :
    (s.request prio).PairInv master := by
  obtain ⟨past,line⟩ := inv.line
  refine ⟨⟨past,⟨?_,line.items,line.distinct,line.past,line.begun⟩⟩,inv.listens,fun push inside => ?_,inv.sorted,
    inv.own,inv.together,fun _ => ⟨high,runs⟩⟩
  · simp only [request,List.map_append,line.requests,List.append_assoc]
    rfl
  · rcases List.mem_append.mp inside with old | new
    · exact inv.back push old
    · rw [List.mem_singleton.mp new]

theorem push_inv (master : Master) (s : Agent dw) (inv : s.PairInv master)
    (behind : ∀ push ∈ s.forks.head?, ∀ item ∈ s.box, item.prio ≤ push.1.prio) :
    (s.push 0).PairInv master := by
  obtain ⟨past,line⟩ := inv.line
  have back := inv.back
  cases forks : s.forks with
  | nil =>
    simp only [push,forks,List.getElem?_nil]
    exact inv
  | cons first rest =>
    obtain ⟨item,front⟩ := first
    have requests := line.requests
    rw [forks] at requests back behind
    have last : front = false := back (item,front) (List.mem_cons_self ..)
    subst last
    simp only [push,forks,List.getElem?_cons_zero,List.eraseIdx_cons_zero,TwinQueue.push,Bool.false_eq_true,if_false]
    refine ⟨⟨past,⟨?_,line.items,line.distinct,line.past,line.begun⟩⟩,inv.listens,
      fun push inside => back push (List.mem_cons_of_mem _ inside),?_,inv.own,inv.together,inv.up⟩
    · simp only [requests,List.map_append,List.map_cons,List.map_nil,List.append_assoc,List.singleton_append]
    · refine List.pairwise_append.mpr ⟨inv.sorted,List.pairwise_singleton _ _,fun a inside b new => ?_⟩
      rw [List.mem_singleton.mp new]
      exact behind (item,false) rfl a inside

theorem take_inv (master : Master) (s : Agent dw) (inv : s.PairInv master) : s.take.PairInv master := by
  have sorted : TwinQueue.sort Request.prio s.box = s.box := List.Pairwise.insertionSort_eq inv.sorted
  obtain ⟨past,line⟩ := inv.line
  have requests := line.requests
  have order := inv.sorted
  simp only [take,sorted]
  cases box : s.box with
  | nil =>
    simp only
    exact inv
  | cons item rest =>
    rw [box] at requests order
    refine ⟨⟨past,⟨?_,line.items,line.distinct,line.past,line.begun⟩⟩,inv.listens,inv.back,order.of_cons,inv.own,
      inv.together,inv.up⟩
    simp only [requests,List.map_append,List.map_cons,List.map_nil,List.append_assoc,List.cons_append,List.nil_append]

theorem mem_handles {bus : List (Request dw × Option Nat)} {h : Nat} :
    h ∈ bus.filterMap Prod.snd ↔ ∃ entry ∈ bus, entry.2 = some h :=
  List.mem_filterMap

/-- The items that stand in the line exist. -/
theorem Line.inside {s : Agent dw} {past : List (Nat × Nat)} (line : s.Line past) {h : Nat}
    (member : h ∈ past.map Prod.fst ++ s.bus.filterMap Prod.snd) : h < s.items.length := by
  rcases List.mem_append.mp member with ended | running
  · obtain ⟨entry,inside,rfl⟩ := List.mem_map.mp ended
    obtain ⟨mitem,found,_⟩ := line.past entry inside
    exact (List.getElem?_eq_some_iff.mp found).1
  · obtain ⟨entry,inside,same⟩ := mem_handles.mp running
    obtain ⟨k,mitem,other,found,_⟩ := line.begun entry inside
    obtain rfl := Option.some.inj (same.symm.trans other)
    exact (List.getElem?_eq_some_iff.mp found).1

/-- An item on the bus is none of those that have ended. -/
theorem Line.apart {s : Agent dw} {past : List (Nat × Nat)} (line : s.Line past) {entry : Nat × Nat}
    (inside : entry ∈ past) {running : Request dw × Option Nat} (begun : running ∈ s.bus) {h : Nat}
    (same : running.2 = some h) : entry.1 ≠ h :=
  (List.nodup_append.mp line.distinct).2.2 _ (List.mem_map_of_mem inside) h (mem_handles.mpr ⟨running,begun,same⟩)

theorem beginItem_inv (master : Master) (s : Agent dw) (inv : s.PairInv master) (free : s.listens = none) :
    (s.beginItem master true).PairInv master := by
  obtain ⟨past,line⟩ := inv.line
  have requests := line.requests
  cases taken : s.taken with
  | nil =>
    simp only [beginItem,taken]
    exact inv
  | cons item rest =>
    rw [taken] at requests
    have outstanding : s.bbox ≠ [] := by
      intro none
      rw [none] at requests
      simp at requests
    simp only [beginItem,taken,(inv.up outstanding).2.2,free,Option.isNone_none,Bool.and_self,if_true]
    have old {h : Nat} {mitem : MonItem dw} (found : s.items[h]? = some mitem) :
        (s.items ++ [master.beginItem item.id])[h]? = some mitem := by
      rw [List.getElem?_append_left (List.getElem?_eq_some_iff.mp found).1,found]
    have new : (s.items ++ [master.beginItem item.id])[s.items.length]? = some (master.beginItem item.id) := by simp
    refine ⟨⟨past,⟨?_,?_,?_,fun entry inside => ?_,fun entry inside => ?_⟩⟩,fun h here => ?_,inv.back,inv.sorted,
      inv.own,inv.together,inv.up⟩
    · simp only [requests,List.map_append,List.map_cons,List.map_nil,List.append_assoc,List.cons_append,
        List.nil_append]
    · rw [← List.append_assoc,line.items,List.filterMap_append,List.append_assoc]
      rfl
    · rw [List.filterMap_append,← List.append_assoc]
      refine List.nodup_append.mpr ⟨line.distinct,List.nodup_singleton _,fun h inside k last same => ?_⟩
      rw [List.mem_singleton.mp last] at same
      exact absurd (line.inside inside) (by omega)
    · obtain ⟨mitem,found,rest⟩ := line.past entry inside
      exact ⟨mitem,old found,rest⟩
    · rcases List.mem_append.mp inside with before | last
      · obtain ⟨h,mitem,same,found,origin,running,addr⟩ := line.begun entry before
        refine ⟨h,mitem,same,old found,origin,running,.inl (addr.resolve_right ?_)⟩
        rw [free]
        exact Option.some_ne_none h ∘ Eq.symm
      · rw [List.mem_singleton.mp last]
        refine ⟨_,_,rfl,new,rfl,rfl,?_⟩
        cases master with
        | ahb => exact .inr rfl
        | apb => exact .inl rfl
    · cases master with
      | ahb => exact ⟨rfl,_,List.mem_append_right _ (List.mem_singleton_self _),here⟩
      | apb => cases here

theorem addrDone_inv (master : Master) (s : Agent dw) (inv : s.PairInv master) : s.addrDone.PairInv master := by
  obtain ⟨past,line⟩ := inv.line
  cases listens : s.listens with
  | none =>
    simp only [addrDone,listens]
    exact inv
  | some h =>
    obtain ⟨_,running,onBus,own⟩ := inv.listens h listens
    simp only [addrDone,listens]
    refine ⟨⟨past,⟨line.requests,line.items,line.distinct,fun entry inside => ?_,fun entry inside => ?_⟩⟩,
      fun k here => (Option.some_ne_none k here.symm).elim,inv.back,inv.sorted,inv.own,inv.together,inv.up⟩
    · obtain ⟨mitem,found,rest⟩ := line.past entry inside
      exact ⟨mitem,(List.getElem?_modify_ne _ _ (line.apart inside onBus own).symm).trans found,rest⟩
    · obtain ⟨k,mitem,same,found,origin,waits,addr⟩ := line.begun entry inside
      by_cases here : h = k
      · subst here
        refine ⟨h,_,same,(List.getElem?_modify_eq _ _ _).trans (congrArg _ found),origin,waits,.inl rfl⟩
      · refine ⟨k,mitem,same,(List.getElem?_modify_ne _ _ here).trans found,origin,waits,.inl (addr.resolve_right ?_)⟩
        rw [listens]
        exact here ∘ Option.some.inj

/-- An item that the collector is done with ends complete and with the response that the monitor hands on. -/
theorem endItem_hands (master : Master) (dataBeat : List (Beat dw)) (rsp : TrxRsp) (mitem : MonItem dw)
    (hands : master.hands rsp = true) (addr : mitem.addrComplete = true) :
    (master.endItem false dataBeat rsp mitem).complete = true ∧
      (master.endItem false dataBeat rsp mitem).rsp = rsp := by
  refine ⟨by simp [Master.endItem,MonItem.complete,addr],?_⟩
  cases master with
  | ahb =>
    have okay : rsp = .okay := by simpa [Master.hands] using hands
    simp [Master.endItem,okay]
  | apb => simp [Master.endItem]

/-- An end that is handed on is not of an item that the collector listens on: on AHB it waits for the last address,
and the collector of APB does not listen. -/
theorem PairInv.unheard {master : Master} {s : Agent dw} (inv : s.PairInv master) {rsp : TrxRsp} {h : Nat}
    (hands : master.hands rsp = true) (goes : ¬ (rsp = .okay ∧ s.listening (some h) = true)) :
    s.listening (some h) = false := by
  cases master with
  | ahb =>
    have okay : rsp = .okay := by simpa [Master.hands] using hands
    simpa [okay] using goes
  | apb =>
    refine Bool.eq_false_iff.mpr fun listens => ?_
    have here : s.listens = some h := by simpa [listening] using listens
    cases (inv.listens h here).1

/-- The first item on the bus joins those that have ended. -/
theorem Line.ended {s : Agent dw} {past : List (Nat × Nat)} (line : s.Line past) {item : Request dw} {h : Nat}
    {rest : List (Request dw × Option Nat)} (bus : s.bus = (item,some h)::rest) {mitem : MonItem dw}
    (found : s.items[h]? = some mitem) (change : MonItem dw → MonItem dw) (origin : (change mitem).origin = item.id)
    (complete : (change mitem).complete = true) :
    Line {s with
      bus := rest
      items := s.items.modify h change
      answers := s.answers ++ [(item.id,(change mitem).dataBeat,(change mitem).rsp)]} (past ++ [(h,item.id)]) := by
  have first : (item,some h) ∈ s.bus := by rw [bus]; exact List.mem_cons_self
  have others (k : Nat) (other : k ≠ h) : (s.items.modify h change)[k]? = s.items[k]? :=
    List.getElem?_modify_ne _ _ (Ne.symm other)
  have items := line.items
  have distinct := line.distinct
  rw [bus,List.filterMap_cons] at items distinct
  refine ⟨?_,?_,?_,fun entry inside => ?_,fun entry inside => ?_⟩
  · simp only [line.requests,bus,List.map_append,List.map_cons,List.map_nil,List.append_assoc,List.cons_append,
      List.nil_append]
  · simpa using items
  · simpa using distinct
  · rcases List.mem_append.mp inside with old | last
    · obtain ⟨other,there,origin,complete,answered⟩ := line.past entry old
      refine ⟨other,?_,origin,complete,List.mem_append_left _ answered⟩
      rw [others _ (line.apart old first rfl),there]
    · rw [List.mem_singleton.mp last]
      refine ⟨change mitem,?_,origin,complete,List.mem_append_right _ (List.mem_singleton_self _)⟩
      rw [List.getElem?_modify_eq,found]
      rfl
  · obtain ⟨k,other,same,there,rest⟩ := line.begun entry (by rw [bus]; exact List.mem_cons_of_mem _ inside)
    refine ⟨k,other,same,?_,rest⟩
    rw [others k ?_,there]
    rintro rfl
    have tail := (List.nodup_cons.mp (List.nodup_append.mp distinct).2.1).1
    exact tail (mem_handles.mpr ⟨entry,inside,same⟩)

theorem finish_inv (master : Master) (s : Agent dw) (dataBeat : List (Beat dw)) (rsp : TrxRsp)
    (inv : s.PairInv master) (hands : master.hands rsp = true) : (s.finish master dataBeat rsp).PairInv master := by
  obtain ⟨past,line⟩ := inv.line
  cases bus : s.bus with
  | nil =>
    simp only [finish,bus]
    exact inv
  | cons first rest =>
    obtain ⟨item,handle⟩ := first
    obtain ⟨h,mitem,rfl,found,origin,running,addr⟩ := line.begun (item,handle) (by rw [bus]; exact List.mem_cons_self)
    simp only [finish,bus]
    split
    next waits => exact inv
    next goes =>
      have silent := inv.unheard hands goes
      have unheard : s.listens ≠ some h := by
        intro here
        simp [listening,here] at silent
      have again : ¬ (rsp = .retry ∨ rsp = .split) := by
        cases master <;> cases rsp <;> simp [Master.hands] at hands ⊢
      obtain ⟨complete,same⟩ := endItem_hands master dataBeat rsp mitem hands (addr.resolve_right unheard)
      have ended := line.ended bus found (master.endItem false dataBeat rsp) origin complete
      rw [same] at ended
      simp only [silent,Bool.false_eq_true,and_false,if_false,if_neg again]
      refine ⟨⟨past ++ [(h,item.id)],ended.requests,ended.items,ended.distinct,ended.past,ended.begun⟩,fun k here => ?_,
        inv.back,inv.sorted,fun pair inside => ?_,inv.together,inv.up⟩
      · obtain ⟨ahb,entry,inside,same⟩ := inv.listens k here
        rw [bus] at inside
        rcases List.mem_cons.mp inside with rfl | later
        · exact absurd (here.trans same.symm) unheard
        · exact ⟨ahb,entry,later,same⟩
      · obtain ⟨id,data,response,answered⟩ := inv.own pair inside
        exact ⟨id,data,response,List.mem_append_left _ answered⟩

theorem get_inv (master : Master) (s : Agent dw) (inv : s.PairInv master) : s.get.PairInv master := by
  obtain ⟨past,line⟩ := inv.line
  rw [get]
  split
  next h fifo item queue =>
    split
    next runs =>
      have items := line.items
      rw [item,queue] at items
      exact ⟨⟨past,⟨line.requests,items,line.distinct,line.past,line.begun⟩⟩,inv.listens,inv.back,inv.sorted,inv.own,
        inv.together,inv.up⟩
    next => exact inv
  next => exact inv

/-- The response thread has waited for an item that has ended, which is that of the oldest request. -/
theorem respond_inv (master : Master) (s : Agent dw) (inv : s.PairInv master) : s.respond.PairInv master := by
  obtain ⟨past,line⟩ := inv.line
  rw [respond]
  split
  next mitem ritem bbox awaited requests =>
    have more := inv.up (by rw [requests]; exact List.cons_ne_nil _ _)
    rw [if_pos more.2.1]
    obtain ⟨waited,complete⟩ := Option.filter_eq_some_iff.mp awaited
    obtain ⟨h,item,found⟩ := Option.bind_eq_some_iff.mp waited
    have items := line.items
    rw [item] at items
    cases past with
    | nil =>
      -- an item that is complete is not on the bus
      obtain ⟨entry,inside,same⟩ := mem_handles.mp (show h ∈ s.bus.filterMap Prod.snd by
        rw [List.map_nil,List.nil_append] at items
        rw [← items]
        exact List.mem_cons_self)
      obtain ⟨k,other,here,there,_,running,_⟩ := line.begun entry inside
      obtain rfl := Option.some.inj (same.symm.trans here)
      obtain rfl := Option.some.inj (found.symm.trans there)
      rw [MonItem.complete,running,Bool.and_false] at complete
      cases complete
    | cons entry past =>
      obtain ⟨rfl,fifo⟩ := List.cons.inj items
      have ids := line.requests
      rw [requests] at ids
      obtain ⟨id,ids⟩ := List.cons.inj ids
      obtain ⟨other,there,origin,_,answered⟩ := line.past entry List.mem_cons_self
      obtain rfl := Option.some.inj (found.symm.trans there)
      refine ⟨⟨past,⟨ids,fifo,(List.nodup_cons.mp line.distinct).2,
        fun entry inside => line.past entry (List.mem_cons_of_mem _ inside),line.begun⟩⟩,inv.listens,inv.back,
        inv.sorted,fun pair inside => ?_,inv.together,fun _ => more⟩
      rcases List.mem_append.mp inside with old | new
      · exact inv.own pair old
      · rw [List.mem_singleton.mp new]
        exact ⟨id.trans origin.symm,rfl,rfl,by rw [updateRspBack,id]; exact answered⟩
  next => exact inv

end Agent

namespace Component

theorem step_resetn (cls : Cls) (c : Component) (e : Event) : (c.step cls e).resetn = decide (e = .deassert) := by
  cases e with
  | assert =>
    by_cases high : c.resetn = true
    · simp only [step,high,if_true,stop,reset_resetn]
      rfl
    · simp only [step,high]
      simpa using high
  | deassert =>
    by_cases high : c.resetn = true
    · simp only [step,high,if_true]
      rfl
    · simp only [step,high]
      rfl

end Component

namespace Agent

theorem reset_inv (master : Master) (s : Agent dw) (e : Component.Event) (inv : s.PairInv master)
    (idle : e = .assert → s.bbox = []) : (s.reset master e).PairInv master := by
  obtain ⟨past,line⟩ := inv.line
  have together : (s.mon.step master.mon e).resetn = (s.drv.step master.drv e).resetn := by
    rw [Component.step_resetn,Component.step_resetn]
  cases e with
  | assert =>
    have none := idle rfl
    have requests := line.requests
    rw [none,List.map_nil] at requests
    obtain ⟨ended,bus,_⟩ : past = [] ∧ s.bus = [] ∧ s.taken = [] ∧ s.box = [] ∧ s.forks = [] := by
      simpa using requests.symm
    have items := line.items
    rw [ended,bus] at items
    have fifo := (List.append_eq_nil_iff.mp items).2
    by_cases high : s.drv.resetn = true
    · simp only [reset,high,if_true]
      refine ⟨⟨[],⟨by simp [none],by simp [fifo],.nil,by simp,by simp⟩⟩,by simp,by simp,List.Pairwise.nil,inv.own,
        together,fun some => absurd none some⟩
    · simp only [reset,high]
      exact ⟨⟨past,⟨line.requests,line.items,line.distinct,line.past,line.begun⟩⟩,inv.listens,inv.back,inv.sorted,
        inv.own,together,fun some => absurd none some⟩
  | deassert =>
    refine ⟨⟨past,⟨line.requests,line.items,line.distinct,line.past,line.begun⟩⟩,inv.listens,inv.back,inv.sorted,
      inv.own,together,fun some => ?_⟩
    obtain ⟨high,runs,monitors⟩ := inv.up some
    have drv : s.drv.step master.drv .deassert = s.drv := by simp only [Component.step,high,if_true]
    have mon : s.mon.step master.mon .deassert = s.mon := by
      simp only [Component.step,inv.together.trans high,if_true]
    simp only [reset,drv,mon]
    exact ⟨high,runs,monitors⟩

theorem step_inv (master : Master) (s : Agent dw) (a : AgentAction dw) (inv : s.PairInv master)
    (inTurn : s.InTurn master a) : (s.step master a).PairInv master := by
  cases a with
  | request prio =>
    by_cases high : s.drv.resetn = true
    · rw [step,if_pos high]
      exact request_inv master s prio inv high (inTurn high)
    · rw [step,if_neg high]
      exact inv
  | push k =>
    obtain ⟨rfl,behind⟩ := inTurn
    exact push_inv master s inv behind
  | take => exact take_inv master s inv
  | beginItem seen =>
    obtain ⟨rfl,free⟩ := inTurn
    exact beginItem_inv master s inv free
  | addrDone => exact addrDone_inv master s inv
  | finish dataBeat rsp => exact finish_inv master s dataBeat rsp inv inTurn
  | get => exact get_inv master s inv
  | respond => exact respond_inv master s inv
  | reset e =>
    apply reset_inv master s e inv
    rintro rfl
    exact inTurn

theorem PairInv.paired {master : Master} {s : Agent dw} (inv : s.PairInv master) : s.Paired := by
  obtain ⟨past,line⟩ := inv.line
  refine ⟨inv.own,fun quiet => ?_⟩
  by_contra outstanding
  have requests := line.requests
  have items := line.items
  have done := quiet.done
  rw [quiet.bus,quiet.taken,quiet.box,quiet.forks] at requests
  rw [quiet.bus] at items
  rw [responds,(inv.up outstanding).2.1,Bool.true_and] at done
  cases past with
  | nil => exact outstanding (by simpa using requests)
  | cons entry past =>
    -- the first item has ended, so the thread can take it or is done waiting for it
    cases item : s.item with
    | none =>
      rw [item] at items
      rw [if_pos item,show s.fifo = _ from items] at done
      cases done
    | some h =>
      rw [item] at items
      obtain ⟨rfl,_⟩ := List.cons.inj items
      obtain ⟨mitem,found,_,complete,_⟩ := line.past entry List.mem_cons_self
      have awaited : s.awaited = some mitem := by simp [awaited,item,found,complete]
      rw [if_neg (by rw [item]; exact Option.some_ne_none _),awaited] at done
      exact outstanding (by simpa using done)

theorem initial_resetn (cls : Cls) (resetn : Bool) : (Component.initial cls resetn).resetn = resetn := by
  cases resetn with
  | true => rfl
  | false => exact (Component.reset_resetn cls _).trans rfl

/-- Two requests that wait for the bus together, of the priorities given. -/
def together (first second : Int) : List (AgentAction 8) :=
  [.reset .deassert,.request first,.request second,.push 0,.push 0,.take,.beginItem true,.addrDone,.take,
    .beginItem true,.get,.finish [fun _ => 1] .okay,.respond,.addrDone,.finish [fun _ => 2] .okay,.get,.respond,
    .reset .assert,.reset .deassert]

/-- An AHB transfer answered with ERROR is returned as one answered with OKAY. -/
example : ¬ (after .ahb false ([.reset .deassert,.request 0,.push 0,.take,.beginItem true,.addrDone,.get,
    .finish [fun _ => 1] .error,.respond] : List (AgentAction 8))).Paired :=
  fun paired => absurd paired.own (by decide)

/-- For a burst that ends with ERROR before its last address the response thread waits without end. -/
example : ¬ (after .ahb false ([.reset .deassert,.request 0,.push 0,.take,.beginItem true,.get,
    .finish [fun _ => 1] .error] : List (AgentAction 8))).Paired :=
  fun paired => absurd (paired.emptied ⟨rfl,rfl,rfl,rfl,by decide⟩) (by decide)

end Agent

end Smtdv
