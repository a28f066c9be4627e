import Smtdv.Apb.SlaveAgent

/-! The slave agent has at most the one item of the transfer under way between its monitor and its bus.
The invariant says where that item is and what it holds, beside a map of the bytes written so far. -/
namespace Smtdv.Apb
open Lib

variable {aw dw : Nat}

/-- The thread has answered, and waits for the edge that ends the transfer. -/
def SlaveThread.finishing : SlaveThread aw dw → Bool
  | .finish _ => true
  | _ => false

theorem SlaveThread.finishing_item {thread : SlaveThread aw dw} (finishing : thread.finishing = true) :
    ∃ item, thread = .finish item := by
  cases thread with
  | finish item => exact ⟨item,rfl⟩
  | get | access | pready | cyc => cases finishing

/-- The bytes from an address on are stored, the last one where two come to one address. -/
def storeAt (map : ByteMap aw) (addr : BitVec aw) (data : List (BitVec 8)) : ByteMap aw :=
  fun other => (Memory.covering addr data other).getD (map other)

def beatAt (dw : Nat) (map : ByteMap aw) (addr : BitVec aw) : Beat dw := fun i => map (addr + BitVec.ofNat aw i.val)

namespace SlaveAgent

def last (s : SlaveAgent aw dw) : SlaveObject aw dw := s.object (s.objects.length-1)

/-- The places an item passes between the monitor and the bus: the fifo of the sequencer, the processes of the
sequence, its `mbox`, the `mbox` of the driver and its thread. -/
def load (s : SlaveAgent aw dw) : Nat :=
  (s.base.items.length-s.base.fetched)+(s.base.forked+s.base.ready)+(s.base.mbox.length-s.noted)+
    s.drv.mbox.length+s.drv.thread.item.toList.length

/-- The write whose process is past its item, but has not stored it. -/
def stores (s : SlaveAgent aw dw) : Prop := ∃ w ∈ s.base.writers, w ∈ s.base.completed

theorem not_stores {s : SlaveAgent aw dw} (idle : s.base.writers = []) : ¬ s.stores := by
  rintro ⟨w,inside,_⟩
  rw [idle] at inside
  cases inside

/-- The processes and the boxes have no item but the last. -/
structure Piped (s : SlaveAgent aw dw) : Prop where
  kinds : s.base.items = s.objects.map fun item => item.trsT
  handled : (SlaveBaseSeq.handling s.base).Inv
  noted : s.noted ≤ s.base.mbox.length
  running : s.base.rcv = .get ∨ s.base.rcv = .blocked
  plain : TrsType.rdwr ∉ s.base.items
  boxed : ∀ r ∈ s.base.mbox.drop s.noted, r+1 = s.objects.length
  forks : 0 < s.base.forked+s.base.ready →
    s.base.mitem+1 = s.objects.length ∧ s.last.trsT = .wr ∧ s.base.writers = []
  writers : ∀ w ∈ s.base.writers,
    s.base.writers = [w] ∧ w+1 = s.objects.length ∧ w < s.base.fetched ∧ s.last.trsT = .wr
  completed : ∀ r ∈ s.base.completed, r < s.objects.length
  load : s.load ≤ 1

/-- The driver answers at a rising edge, so its drives never wait for one. -/
structure Prompt (s : SlaveAgent aw dw) : Prop where
  pending : s.drv.pending = []
  ready : s.drv.vif.pready = s.drv.thread.finishing
  timely : ∀ item, s.drv.thread ≠ .cyc item

/-- Between transfers, and from the end that the monitor sees to the edge at which the driver sees it. -/
structure Closed (s : SlaveAgent aw dw) : Prop where
  item : ∀ dir, s.item dir = none
  ended : ∀ w ∈ s.base.writers, w ∈ s.base.completed
  load : s.load = 0 ∨ s.drv.thread.finishing = true

/-- The monitor has the item of the transfer under way, which is the last. -/
structure Opened (s : SlaveAgent aw dw) (dir : TrsType) (addr : BitVec aw) (map : ByteMap aw) : Prop where
  begun : 0 < s.objects.length
  item : s.item dir = some (s.objects.length-1)
  others : ∀ other ≠ dir, s.item other = none
  trsT : s.last.trsT = dir
  addrs : s.last.addrs = [addr]
  bgCyc : s.last.bgCyc ≤ s.drv.cyc
  incomplete : s.objects.length-1 ∉ s.base.completed
  load : s.load = 1
  copies : ∀ item ∈ s.drv.mbox ++ s.drv.thread.item.toList, item = s.last.req
  fresh : s.base.fetched < s.base.items.length → s.last.dataBeat = []
  read : dir = .rd → s.base.fetched = s.base.items.length → s.last.dataBeat = [beatAt dw map addr]
  write : dir = .wr → s.base.fetched = s.base.items.length → s.base.forked+s.base.ready = 0 →
    s.objects.length-1 ∈ s.base.writers
  answer : dir = .rd → s.drv.thread.finishing = true → s.drv.vif.prdata = unpackData (beatAt dw map addr)

/-- The transfer that the monitor has open: its direction and address, or none. -/
abbrev Transit (aw : Nat) := Option (TrsType × BitVec aw)

def At (s : SlaveAgent aw dw) (map : ByteMap aw) : Transit aw → Prop
  | none => s.Closed
  | some (dir,addr) => s.Opened dir addr map

/-- The memory has the bytes of the map, when the write that has ended is stored. -/
structure Stored (s : SlaveAgent aw dw) (map : ByteMap aw) : Prop where
  free : s.mem.hasLock = false
  failed : s.mem.failed = false
  settled : ¬ s.stores → s.mem.contents = map
  due : s.stores → (midDoWriteItem s.mem s.last).1.contents = map

structure Inv (s : SlaveAgent aw dw) (transit : Transit aw) (map : ByteMap aw) : Prop where
  piped : s.Piped
  prompt : s.Prompt
  place : s.At map transit
  stored : s.Stored map

theorem Piped.no_writers {s : SlaveAgent aw dw} (piped : s.Piped)
    (none : s.last.trsT ≠ .wr ∨ s.base.fetched < s.objects.length) : s.base.writers = [] := by
  rw [List.eq_nil_iff_forall_not_mem]
  intro w inside
  obtain ⟨_,here,taken,write⟩ := piped.writers w inside
  rcases none with other | more
  · exact other write
  · omega

theorem drop_noted {s : SlaveAgent aw dw} {r : Nat} (next : s.base.mbox[s.noted]? = some r) :
    r ∈ s.base.mbox.drop s.noted := by
  rw [List.mem_iff_getElem?]
  exact ⟨0,by rw [List.getElem?_drop]; exact next⟩

theorem Piped.known {s : SlaveAgent aw dw} (piped : s.Piped) {r : Nat} (next : s.base.mbox[s.noted]? = some r) :
    (s.object r).req.trsT ≠ .rdwr := by
  have here := piped.boxed r (drop_noted next)
  intro other
  apply piped.plain
  rw [piped.kinds,← other]
  refine List.mem_map.mpr ⟨s.object r,?_,rfl⟩
  rw [object,List.getElem?_eq_getElem (by omega),Option.getD_some]
  exact List.getElem_mem _

theorem kinds_set (objects : List (SlaveObject aw dw)) (r : Nat) (item : SlaveObject aw dw)
    (same : item.trsT = (objects[r]?.getD default).trsT) :
    (objects.set r item).map (fun item => item.trsT) = objects.map fun item => item.trsT := by
  rw [List.map_set]
  by_cases inside : r < objects.length
  · rw [same,List.getElem?_eq_getElem inside,Option.getD_some]
    have width : r < (objects.map fun item => item.trsT).length := by simpa using inside
    have kept := List.set_getElem_self width
    rwa [List.getElem_map] at kept
  · exact List.set_eq_of_length_le (by simpa using inside)

theorem last_set (objects : List (SlaveObject aw dw)) (r : Nat) (item : SlaveObject aw dw)
    (final : r+1 = objects.length) :
    (objects.set r item)[(objects.set r item).length-1]?.getD default = item := by
  rw [List.length_set,show objects.length-1 = r from by omega,List.getElem?_set_self (by omega),Option.getD_some]

theorem midDoReadItem_eq (m : Memory aw) (item : SlaveObject aw dw) (addr : BitVec aw) (addrs : item.addrs = [addr])
    (free : m.hasLock = false) :
    (midDoReadItem m item).2 =
      {item with dataBeat := beatAt dw m.contents addr::item.dataBeat.tail, memComplete := true} ∧
    (midDoReadItem m item).1.contents = m.contents ∧
    (midDoReadItem m item).1.hasLock = false ∧ (midDoReadItem m item).1.failed = m.failed := by
  obtain ⟨bytes,kept,lock,failed⟩ := m.lock.memLoadByte_eq (item.addrs.getD 0 0) (dw >>> 3)
  refine ⟨?_,kept,rfl,?_⟩
  · have beat : (fun i : Fin (dw/8) => (m.lock.memLoadByte (item.addrs.getD 0 0) (dw >>> 3)).2.getD i.val 0) =
        beatAt dw m.contents addr := by
      funext i
      have width : dw >>> 3 = dw/8 := Nat.shiftRight_eq_div_pow dw 3
      rw [bytes,width,List.getD_eq_getElem _ _ (by simp),List.getElem_map,List.getElem_range,addrs]
      rfl
    rw [midDoReadItem]
    simp only [beat]
  · simp only [midDoReadItem,Memory.unlock,lock,failed]
    simp [Memory.lock,free]

theorem midDoWriteItem_eq (m : Memory aw) (item : SlaveObject aw dw) (addr : BitVec aw) (addrs : item.addrs = [addr])
    (free : m.hasLock = false) :
    (midDoWriteItem m item).1.contents =
      (if item.success then storeAt m.contents addr (List.ofFn (item.dataBeat.getD 0 default)) else m.contents) ∧
    (midDoWriteItem m item).1.hasLock = false ∧ (midDoWriteItem m item).1.failed = m.failed := by
  cases success : item.success with
  | false =>
    simp only [midDoWriteItem,success,Bool.false_eq_true,if_false]
    refine ⟨rfl,rfl,?_⟩
    simp [Memory.unlock,Memory.lock,free]
  | true =>
    have first : item.addrs.getD 0 0 = addr := by rw [addrs]; rfl
    obtain ⟨lock,failed⟩ := m.lock.memStoreByte_lock addr (List.ofFn (item.dataBeat.getD 0 default)) item.bgCyc.toNat
    simp only [midDoWriteItem,success,if_true,first]
    refine ⟨?_,rfl,?_⟩
    · funext other
      exact m.lock.contents_memStoreByte addr other _ _
    · simp only [Memory.unlock,lock,failed]
      simp [Memory.lock,free]

theorem Inv.free {s : SlaveAgent aw dw} {transit : Transit aw} {map : ByteMap aw} (inv : s.Inv transit map) :
    s.mem.hasLock = false := inv.stored.free

/-- An item between the monitor and the driver's thread belongs to the transfer that the monitor has open. -/
theorem Inv.opened {s : SlaveAgent aw dw} {transit : Transit aw} {map : ByteMap aw} (inv : s.Inv transit map)
    (busy : s.drv.thread.item.toList.length < s.load) : ∃ dir addr, transit = some (dir,addr) := by
  obtain ⟨piped,_,place,_⟩ := inv
  cases transit with
  | some pair => exact ⟨pair.1,pair.2,rfl⟩
  | none =>
    have place : s.Closed := place
    have bound := piped.load
    rcases place.load with empty | finishing
    · omega
    · obtain ⟨item,thread⟩ := SlaveThread.finishing_item finishing
      rw [thread] at busy
      exact absurd bound (Nat.not_le.mpr busy)

theorem get_none {s : SlaveAgent aw dw} (running : s.base.rcv = .get ∨ s.base.rcv = .blocked)
    (next : s.base.items[s.base.fetched]? = none) : s.get = {s with base := SlaveBaseSeq.block s.base .blocked} := by
  have turn (blocks : Bool) : SlaveBaseSeq.rcvFromMon s.base blocks = SlaveBaseSeq.block s.base .blocked := by
    rw [SlaveBaseSeq.rcvFromMon,if_pos running]
    simp only [next]
  rw [get]
  simp only [turn]
  exact if_pos (.inl rfl)

theorem get_write {s : SlaveAgent aw dw} (running : s.base.rcv = .get ∨ s.base.rcv = .blocked)
    (next : s.base.items[s.base.fetched]? = some .wr) : s.get = {s with
      base := {s.base with
        fetched := s.base.fetched+1, mitem := s.base.fetched, rcv := .get, forked := s.base.forked+1}} := by
  have turn (blocks : Bool) : SlaveBaseSeq.rcvFromMon s.base blocks = {s.base with
      fetched := s.base.fetched+1, mitem := s.base.fetched, rcv := .get, forked := s.base.forked+1} := by
    rw [SlaveBaseSeq.rcvFromMon,if_pos running]
    simp only [next]
  rw [get]
  simp only [turn]
  simp

theorem get_read {s : SlaveAgent aw dw} (running : s.base.rcv = .get ∨ s.base.rcv = .blocked)
    (next : s.base.items[s.base.fetched]? = some .rd) (free : s.mem.hasLock = false) : s.get = {s with
      base := {s.base with
        fetched := s.base.fetched+1, mitem := s.base.fetched, rcv := .get
        reads := s.base.reads ++ [s.base.fetched], mbox := s.base.mbox ++ [s.base.fetched]}
      mem := (midDoReadItem s.mem (s.object s.base.fetched)).1
      objects := s.objects.set s.base.fetched (midDoReadItem s.mem (s.object s.base.fetched)).2} := by
  have turn : SlaveBaseSeq.rcvFromMon s.base false = {s.base with
      fetched := s.base.fetched+1, mitem := s.base.fetched, rcv := .get
      reads := s.base.reads ++ [s.base.fetched], mbox := s.base.mbox ++ [s.base.fetched]} := by
    rw [SlaveBaseSeq.rcvFromMon,if_pos running]
    simp only [next]
    rfl
  rw [get]
  simp only [free,turn]
  exact if_neg (by simp)

theorem Inv.get {s : SlaveAgent aw dw} {transit : Transit aw} {map : ByteMap aw} (inv : s.Inv transit map) :
    s.get.Inv transit map := by
  obtain ⟨piped,prompt,place,stored⟩ := id inv
  have alone : SlaveBaseSeq.Alone s.base (.get false) := by
    intro _ more
    have bound := piped.load
    rw [load] at bound
    omega
  have handled := SlaveBaseSeq.step_inv s.base (.get false) piped.handled alone
  have size : s.base.items.length = s.objects.length := by rw [piped.kinds,List.length_map]
  have bound := piped.load
  rw [load] at bound
  cases next : s.base.items[s.base.fetched]? with
  | none =>
    rw [SlaveBaseSeq.step,SlaveBaseSeq.rcvFromMon,if_pos piped.running] at handled
    simp only [next] at handled
    rw [get_none piped.running next]
    have same : load {s with base := SlaveBaseSeq.block s.base .blocked} = s.load := by
      simp only [load,SlaveBaseSeq.block]
      omega
    refine ⟨⟨piped.kinds,handled,piped.noted,.inr rfl,piped.plain,piped.boxed,fun forks => piped.forks ?_,piped.writers,
      piped.completed,same.trans_le piped.load⟩,⟨prompt.pending,prompt.ready,prompt.timely⟩,?_,
      ⟨stored.free,stored.failed,stored.settled,stored.due⟩⟩
    · simp only [SlaveBaseSeq.block] at forks
      omega
    · cases transit with
      | none =>
        have place : s.Closed := place
        exact ⟨place.item,place.ended,place.load.imp_left same.trans⟩
      | some pair =>
        have place : s.Opened pair.1 pair.2 map := place
        refine ⟨place.begun,place.item,place.others,place.trsT,place.addrs,place.bgCyc,place.incomplete,
          same.trans place.load,place.copies,place.fresh,place.read,fun write all idle => place.write write all ?_,
          place.answer⟩
        simp only [SlaveBaseSeq.block] at idle
        omega
  | some trs =>
    have inside := (List.getElem?_eq_some_iff.mp next).1
    obtain ⟨dir,addr,rfl⟩ := inv.opened (by rw [load]; omega)
    have place : s.Opened dir addr map := place
    have here : s.base.fetched = s.objects.length-1 := by omega
    have kind : s.last.trsT = trs := by
      rw [piped.kinds,List.getElem?_map,here] at next
      obtain ⟨item,found,trsT⟩ := Option.map_eq_some_iff.mp next
      rw [last,object,found]
      exact trsT
    rw [SlaveBaseSeq.step,SlaveBaseSeq.rcvFromMon,if_pos piped.running] at handled
    simp only [next] at handled
    have idle : s.base.mbox.drop s.noted = [] := List.drop_eq_nil_iff.mpr (by omega)
    cases trs with
    | rdwr => exact absurd (List.mem_of_getElem? next) piped.plain
    | wr =>
      have same : load {s with base := {s.base with
          fetched := s.base.fetched+1, mitem := s.base.fetched, rcv := .get, forked := s.base.forked+1}} = s.load := by
        simp only [load]
        omega
      rw [get_write piped.running next]
      have idle := piped.no_writers (.inr (by omega))
      refine ⟨⟨piped.kinds,handled,piped.noted,.inl rfl,piped.plain,piped.boxed,
        fun _ => ⟨?_,kind,idle⟩,fun w inside => ?_,
        piped.completed,same.trans_le piped.load⟩,⟨prompt.pending,prompt.ready,prompt.timely⟩,?_,
        ⟨stored.free,stored.failed,stored.settled,stored.due⟩⟩
      · change s.base.fetched+1 = s.objects.length
        omega
      · rw [show s.base.writers = [] from idle] at inside
        cases inside
      · refine ⟨place.begun,place.item,place.others,place.trsT,place.addrs,place.bgCyc,place.incomplete,
          same.trans place.load,place.copies,fun more => place.fresh (by omega),fun read => ?_,fun _ _ idle => ?_,
          place.answer⟩
        · rw [← place.trsT,kind] at read
          cases read
        · simp only at idle
          omega
    | rd =>
      have idle := piped.no_writers (.inl (by rw [kind]; decide))
      obtain ⟨loaded,kept,lock,failed⟩ := midDoReadItem_eq s.mem s.last addr place.addrs stored.free
      have current : s.object s.base.fetched = s.last := by rw [here]; rfl
      have same : load {s with
          base := {s.base with
            fetched := s.base.fetched+1, mitem := s.base.fetched, rcv := .get
            reads := s.base.reads ++ [s.base.fetched], mbox := s.base.mbox ++ [s.base.fetched]}} = s.load := by
        have noted := piped.noted
        simp only [load,List.length_append,List.length_singleton]
        omega
      have empty : s.drv.mbox ++ s.drv.thread.item.toList = [] := by
        rw [← List.length_eq_zero_iff,List.length_append]
        omega
      rw [get_read piped.running next stored.free,current,loaded]
      set item : SlaveObject aw dw := {s.last with
        dataBeat := beatAt dw s.mem.contents addr::s.last.dataBeat.tail, memComplete := true}
      have final := last_set s.objects s.base.fetched item (by omega)
      refine ⟨⟨?_,handled,?_,.inl rfl,piped.plain,fun r inside => ?_,fun forks => ?_,fun w inside => ?_,
        fun r inside => ?_,same.trans_le piped.load⟩,⟨prompt.pending,prompt.ready,prompt.timely⟩,?_,?_⟩
      · rw [kinds_set _ _ _ (by rw [here]; rfl)]
        exact piped.kinds
      · simp only [List.length_append]
        exact Nat.le_add_right_of_le piped.noted
      · rw [List.drop_append_of_le_length piped.noted] at inside
        rw [List.length_set]
        rcases List.mem_append.mp inside with old | new
        · exact piped.boxed r old
        · rw [List.mem_singleton.mp new]
          omega
      · simp only at forks
        omega
      · rw [show s.base.writers = [] from idle] at inside
        cases inside
      · rw [List.length_set]
        exact piped.completed r inside
      · have read : dir = .rd := place.trsT.symm.trans kind
        have contents := stored.settled (not_stores idle)
        constructor
        case begun | item | incomplete =>
          rw [List.length_set]
          first | exact place.begun | exact place.item | exact place.incomplete
        case others => exact place.others
        case trsT | addrs | bgCyc =>
          rw [last,SlaveAgent.object,final]
          first | exact place.trsT | exact place.addrs | exact place.bgCyc
        case load => exact same.trans place.load
        case copies =>
          intro other inside
          rw [show s.drv.mbox ++ s.drv.thread.item.toList = [] from empty] at inside
          cases inside
        case fresh =>
          intro more
          simp only at more
          omega
        case read =>
          intro _ _
          rw [last,SlaveAgent.object,final]
          change beatAt dw s.mem.contents addr::s.last.dataBeat.tail = _
          rw [place.fresh (by omega),contents]
          rfl
        case write =>
          intro write
          rw [read] at write
          cases write
        case answer => exact place.answer
      · exact ⟨lock,failed.trans stored.failed,fun _ => kept.trans (stored.settled (not_stores idle)),
          fun ends => absurd ends (not_stores idle)⟩

theorem Inv.start {s : SlaveAgent aw dw} {transit : Transit aw} {map : ByteMap aw} (inv : s.Inv transit map) :
    Inv {s with base := SlaveBaseSeq.start s.base} transit map := by
  obtain ⟨piped,prompt,place,stored⟩ := id inv
  have handled := SlaveBaseSeq.step_inv s.base .start piped.handled trivial
  rw [SlaveBaseSeq.step,SlaveBaseSeq.start] at handled
  rw [SlaveBaseSeq.start]
  split
  case isFalse => exact inv
  case isTrue ready =>
    rw [if_pos ready] at handled
    have size : s.base.items.length = s.objects.length := by rw [piped.kinds,List.length_map]
    have bound := piped.load
    rw [load] at bound
    obtain ⟨dir,addr,rfl⟩ := inv.opened (by rw [load]; omega)
    have place : s.Opened dir addr map := place
    obtain ⟨here,write,idle⟩ := piped.forks (by omega)
    have fetched := piped.handled.fetched
    change s.base.fetched ≤ s.base.items.length at fetched
    have noted := piped.noted
    have same : load {s with base := {s.base with
        ready := s.base.ready-1, writes := s.base.writes ++ [s.base.mitem]
        mbox := s.base.mbox ++ [s.base.mitem], writers := s.base.writers ++ [s.base.mitem]}} = s.load := by
      simp only [load,List.length_append,List.length_singleton]
      omega
    have writers : s.base.writers ++ [s.base.mitem] = [s.base.mitem] := by rw [idle]; rfl
    have final : s.base.mitem = s.objects.length-1 := by omega
    refine ⟨⟨piped.kinds,handled,?_,piped.running,piped.plain,fun r inside => ?_,fun forks => ?_,fun w inside => ?_,
      piped.completed,same.trans_le piped.load⟩,⟨prompt.pending,prompt.ready,prompt.timely⟩,
      ⟨place.begun,place.item,place.others,place.trsT,place.addrs,place.bgCyc,place.incomplete,same.trans place.load,
        place.copies,place.fresh,place.read,fun _ _ _ => ?_,place.answer⟩,
      ⟨stored.free,stored.failed,fun _ => stored.settled (not_stores idle),fun ends => ?_⟩⟩
    · simp only [List.length_append]
      exact Nat.le_add_right_of_le noted
    · rw [List.drop_append_of_le_length noted] at inside
      rcases List.mem_append.mp inside with old | new
      · exact piped.boxed r old
      · rw [List.mem_singleton.mp new]
        exact here
    · simp only at forks
      omega
    · simp only [writers] at inside ⊢
      rw [List.mem_singleton.mp inside]
      exact ⟨rfl,here,by omega,write⟩
    · simp only [writers,← final]
      exact List.mem_singleton_self _
    · obtain ⟨w,inside,complete⟩ := ends
      simp only [writers] at inside
      rw [List.mem_singleton.mp inside,final] at complete
      exact absurd complete place.incomplete

theorem midDoWriteItem_trsT (m : Memory aw) (item : SlaveObject aw dw) :
    (midDoWriteItem m item).2.trsT = item.trsT := by
  rw [midDoWriteItem]
  split <;> rfl

theorem midDoWriteItem_lock (m : Memory aw) (item : SlaveObject aw dw) (free : m.hasLock = false) :
    (midDoWriteItem m item).1.hasLock = false ∧ (midDoWriteItem m item).1.failed = m.failed := by
  rw [midDoWriteItem]
  split
  · obtain ⟨lock,failed⟩ := m.lock.memStoreByte_lock (item.addrs.getD 0 0) (List.ofFn (item.dataBeat.getD 0 default))
      item.bgCyc.toNat
    refine ⟨rfl,?_⟩
    simp only [Memory.unlock,lock,failed]
    simp [Memory.lock,free]
  · refine ⟨rfl,?_⟩
    simp [Memory.unlock,Memory.lock,free]

theorem Inv.store {s : SlaveAgent aw dw} {transit : Transit aw} {map : ByteMap aw} (inv : s.Inv transit map) (w : Nat) :
    (s.store w).Inv transit map := by
  obtain ⟨piped,prompt,place,stored⟩ := id inv
  have handled := SlaveBaseSeq.step_inv s.base (.finishWrite w) piped.handled trivial
  rw [SlaveAgent.store]
  split
  case isFalse => exact inv
  case isTrue ends =>
    obtain ⟨inside,complete,free⟩ := ends
    obtain ⟨single,here,taken,write⟩ := piped.writers w inside
    have turn : SlaveBaseSeq.finishWrite s.base w = {s.base with writers := []} := by
      rw [SlaveBaseSeq.finishWrite,if_pos ⟨inside,complete⟩,single]
      simp
    rw [SlaveBaseSeq.step,turn] at handled
    rw [turn]
    have current : s.object w = s.last := by rw [last,← here]; rfl
    rw [current]
    have final := last_set s.objects w (midDoWriteItem s.mem s.last).2 here
    have trsT := midDoWriteItem_trsT s.mem s.last
    obtain ⟨lock,failed⟩ := midDoWriteItem_lock s.mem s.last free
    cases transit with
    | some pair =>
      have place : s.Opened pair.1 pair.2 map := place
      rw [show w = s.objects.length-1 from by omega] at complete
      exact absurd complete place.incomplete
    | none =>
      have place : s.Closed := place
      refine ⟨⟨?_,handled,piped.noted,piped.running,piped.plain,fun r inside => ?_,fun forks => ?_,
        fun _ other => (List.not_mem_nil other).elim,fun r inside => ?_,piped.load⟩,
        ⟨prompt.pending,prompt.ready,prompt.timely⟩,
        ⟨place.item,fun _ other => (List.not_mem_nil other).elim,place.load⟩,
        ⟨lock,failed.trans stored.failed,fun _ => stored.due ⟨w,inside,complete⟩,
          fun ends => absurd ends (not_stores rfl)⟩⟩
      · rw [kinds_set _ _ _ (by rw [trsT,← current]; rfl)]
        exact piped.kinds
      · rw [List.length_set]
        exact piped.boxed r inside
      · have idle := (piped.forks forks).2.2
        simp [idle] at inside
      · rw [List.length_set]
        exact piped.completed r inside

theorem Inv.note {s : SlaveAgent aw dw} {transit : Transit aw} {map : ByteMap aw} (inv : s.Inv transit map) :
    s.note.Inv transit map := by
  obtain ⟨piped,prompt,place,stored⟩ := id inv
  rw [SlaveAgent.note]
  split
  next r request next =>
    have inside := (List.getElem?_eq_some_iff.mp next).1
    have bound := piped.load
    rw [load] at bound
    obtain ⟨dir,addr,rfl⟩ := inv.opened (by rw [load]; omega)
    have place : s.Opened dir addr map := place
    have here := piped.boxed r (drop_noted next)
    have current : s.object r = s.last := by rw [last,← here]; rfl
    have drives := s.drv.driveBus_known (piped.known next)
    rw [drives,current]
    have same : load {s with noted := s.noted+1, drv := {s.drv with mbox := s.drv.mbox ++ [s.last.req]}} = s.load := by
      simp only [load,List.length_append,List.length_singleton]
      omega
    refine ⟨⟨piped.kinds,piped.handled,inside,piped.running,piped.plain,fun r later => piped.boxed r ?_,piped.forks,
      piped.writers,piped.completed,same.trans_le piped.load⟩,⟨prompt.pending,prompt.ready,prompt.timely⟩,
      ⟨place.begun,place.item,place.others,place.trsT,place.addrs,place.bgCyc,place.incomplete,same.trans place.load,
        fun item among => ?_,place.fresh,place.read,place.write,place.answer⟩,
      ⟨stored.free,stored.failed,stored.settled,stored.due⟩⟩
    · rw [← List.drop_drop] at later
      exact List.mem_of_mem_drop later
    · rcases List.mem_append.mp among with box | thread
      · rcases List.mem_append.mp box with old | new
        · exact place.copies item (List.mem_append_left _ old)
        · exact List.mem_singleton.mp new
      · exact place.copies item (List.mem_append_right _ thread)
  next => exact inv

theorem Inv.wake {s : SlaveAgent aw dw} {transit : Transit aw} {map : ByteMap aw} (inv : s.Inv transit map) :
    Inv {s with drv := s.drv.wake} transit map := by
  obtain ⟨piped,prompt,place,stored⟩ := id inv
  rw [SlaveDriver.wake]
  split
  next thread =>
    split
    next => exact inv
    next item rest sorted =>
      have taken : s.drv.mbox.Perm (item::rest) := by
        rw [← sorted]
        exact (List.perm_insertionSort _ _).symm
      have length := taken.length_eq
      rw [List.length_cons] at length
      have bound := piped.load
      rw [load] at bound
      obtain rfl : rest = [] := List.length_eq_zero_iff.mp (by omega)
      have box := List.perm_singleton.mp taken
      obtain ⟨dir,addr,rfl⟩ := inv.opened (by rw [load,thread,SlaveThread.item]; simp only [Option.toList_none]; omega)
      have place : s.Opened dir addr map := place
      have same : load {s with drv := {s.drv with mbox := [], thread := .access item}} = s.load := by
        simp only [load,thread,box,SlaveThread.item,Option.toList_some,Option.toList_none,List.length_nil,
          List.length_singleton]
      refine ⟨⟨piped.kinds,piped.handled,piped.noted,piped.running,piped.plain,piped.boxed,piped.forks,
        piped.writers,piped.completed,same.trans_le piped.load⟩,⟨prompt.pending,?_,fun _ other => by cases other⟩,
        ⟨place.begun,place.item,place.others,place.trsT,place.addrs,place.bgCyc,place.incomplete,same.trans place.load,
          fun other among => place.copies other ?_,place.fresh,place.read,place.write,fun _ other => by cases other⟩,
        ⟨stored.free,stored.failed,stored.settled,stored.due⟩⟩
      · rw [prompt.ready,thread]
        rfl
      · rw [box]
        exact List.mem_append_left _ among
  next => exact inv

/-- No process moves the item of a transfer out of it, or the memory away from the bytes written. -/
theorem Inv.step {s : SlaveAgent aw dw} {transit : Transit aw} {map : ByteMap aw} (inv : s.Inv transit map)
    (a : SlaveAction) : (s.step a).Inv transit map := by
  cases a with
  | configure blockPready hasError =>
    obtain ⟨piped,prompt,place,stored⟩ := inv
    refine ⟨⟨piped.kinds,piped.handled,piped.noted,piped.running,piped.plain,piped.boxed,piped.forks,piped.writers,
      piped.completed,piped.load⟩,⟨prompt.pending,prompt.ready,prompt.timely⟩,?_,
      ⟨stored.free,stored.failed,stored.settled,stored.due⟩⟩
    cases transit with
    | none => exact ⟨place.item,place.ended,place.load⟩
    | some pair =>
      have place : s.Opened pair.1 pair.2 map := place
      exact ⟨place.begun,place.item,place.others,place.trsT,place.addrs,place.bgCyc,place.incomplete,place.load,
        place.copies,place.fresh,place.read,place.write,place.answer⟩
  | wake => exact inv.wake
  | get => exact inv.get
  | start => exact inv.start
  | store w => exact inv.store w
  | note => exact inv.note

end SlaveAgent

end Smtdv.Apb
