import Smtdv.Ahb.Bus

/-! What the two collectors hold of the bursts on the bus. The monitor is a function of the
bus: of each burst the item has as many addresses and data beats as its `bst_len` lets in,
and a collector listens to the burst that is still short of them. -/
namespace Smtdv.Ahb
open Lib

variable {aw dw : Nat}

namespace Burst

/-- The `bst_len` its item is given. -/
def bstLen (β : Burst aw dw) : Nat := getBstLen β.head.hburst ([] : List (BitVec aw))

def trsT (β : Burst aw dw) : TrsType := if β.head.hwrite then .wr else .rd

/-- The item has all the addresses it takes. -/
def full (β : Burst aw dw) : Bool := decide (β.bstLen < β.addrs.length)

/-- The item has all the data it takes. -/
def served (β : Burst aw dw) : Bool := decide (β.bstLen < β.data.length)

/-- The item of a burst; `pending` is a response in its second cycle. -/
def item (β : Burst aw dw) (pending : Option TrxRsp) : CollItem aw dw where
  addr := β.head.haddr
  trsT := β.trsT
  trxSize := β.head.hsize
  bstType := β.head.hburst
  trxPrt := β.head.hprot
  hmastlock := β.head.hmastlock
  bstLen := β.bstLen
  addrIdx := (β.addrs.take (β.bstLen+1)).length
  dataIdx := (β.data.take (β.bstLen+1)).length
  addrs := β.addrs.take (β.bstLen+1)
  dataBeat := (β.data.take (β.bstLen+1)).map packData
  rsp := if β.full then some .okay else β.resp.or pending
  retry := !β.full && β.resp.or pending == some .retry
  split := !β.full && β.resp.or pending == some .split
  error := !β.full && β.resp.or pending == some .error
  success := β.served
  addrComplete := β.full || β.resp.isSome
  dataComplete := β.served || β.resp.isSome

end Burst

/-- The response in its second cycle. -/
def Phase.pending : Phase → Option TrxRsp
  | .free | .beat => none
  | .second r => some r

def Burst.addrColl (β : Burst aw dw) (h : Nat) (phase : Phase) : AddrColl :=
  if β.full then .nonseq else .listen h phase.pending.toList

def Burst.dataColl (β : Burst aw dw) (h : Nat) (phase : Phase) : DataColl :=
  if β.served then .get else .listen h (decide (phase ≠ .free)) phase.pending.toList

/-- The items written to the port: one for each burst, while all its data are in. -/
def collectedOf (bursts : List (Burst aw dw)) : List Nat :=
  (bursts.zipIdx.filter fun entry => entry.1.served).map Prod.snd

def Bus.view (b : Bus aw dw) : Monitor aw dw where
  items := b.closed.map (·.item none) ++ (b.current.map (·.item b.phase.pending)).toList
  pbox := []
  addr := (b.current.map (·.addrColl b.closed.length b.phase)).getD .nonseq
  data := (b.current.map (·.dataColl b.closed.length b.phase)).getD .get
  collected := collectedOf b.bursts

/-! ### The items -/

namespace Burst

theorem bstLen_beats {β : Burst aw dw} {n : Nat} (fixed : β.head.hburst.beats = some n) : β.bstLen+1 = n :=
  getBstLen_beats fixed

theorem bstLen_incr {β : Burst aw dw} (incr : β.head.hburst.beats = none) : β.bstLen = 0 := by
  rw [bstLen,BstType.beats_eq_none.mp incr]
  rfl

theorem full_eq_false {β : Burst aw dw} : β.full = false ↔ β.addrs.length ≤ β.bstLen := by simp [full]

theorem full_eq_true {β : Burst aw dw} : β.full = true ↔ β.bstLen < β.addrs.length := by simp [full]

theorem served_eq_false {β : Burst aw dw} : β.served = false ↔ β.data.length ≤ β.bstLen := by simp [served]

theorem served_eq_true {β : Burst aw dw} : β.served = true ↔ β.bstLen < β.data.length := by simp [served]

@[simp] theorem goOn_head (β : Burst aw dw) (c : Sample aw dw) : (β.goOn c).head = β.head := rfl

@[simp] theorem goOn_resp (β : Burst aw dw) (c : Sample aw dw) : (β.goOn c).resp = β.resp := rfl

@[simp] theorem goOn_data (β : Burst aw dw) (c : Sample aw dw) : (β.goOn c).data = β.data := rfl

@[simp] theorem goOn_bstLen (β : Burst aw dw) (c : Sample aw dw) : (β.goOn c).bstLen = β.bstLen := rfl

@[simp] theorem goOn_trsT (β : Burst aw dw) (c : Sample aw dw) : (β.goOn c).trsT = β.trsT := rfl

@[simp] theorem goOn_served (β : Burst aw dw) (c : Sample aw dw) : (β.goOn c).served = β.served := rfl

@[simp] theorem goOn_length (β : Burst aw dw) (c : Sample aw dw) :
    (β.goOn c).addrs.length = β.addrs.length+1 := List.length_append

@[simp] theorem deliver_length (β : Burst aw dw) (c : Sample aw dw) :
    (β.deliver c).data.length = β.data.length+1 := List.length_append

@[simp] theorem deliver_head (β : Burst aw dw) (c : Sample aw dw) : (β.deliver c).head = β.head := rfl

@[simp] theorem deliver_resp (β : Burst aw dw) (c : Sample aw dw) : (β.deliver c).resp = β.resp := rfl

@[simp] theorem deliver_addrs (β : Burst aw dw) (c : Sample aw dw) : (β.deliver c).addrs = β.addrs := rfl

@[simp] theorem deliver_bstLen (β : Burst aw dw) (c : Sample aw dw) : (β.deliver c).bstLen = β.bstLen := rfl

@[simp] theorem deliver_trsT (β : Burst aw dw) (c : Sample aw dw) : (β.deliver c).trsT = β.trsT := rfl

@[simp] theorem deliver_full (β : Burst aw dw) (c : Sample aw dw) : (β.deliver c).full = β.full := rfl

@[simp] theorem refuse_head (β : Burst aw dw) (r : TrxRsp) : (β.refuse r).head = β.head := rfl

@[simp] theorem refuse_resp (β : Burst aw dw) (r : TrxRsp) : (β.refuse r).resp = some r := rfl

@[simp] theorem refuse_addrs (β : Burst aw dw) (r : TrxRsp) : (β.refuse r).addrs = β.addrs := rfl

@[simp] theorem refuse_data (β : Burst aw dw) (r : TrxRsp) : (β.refuse r).data = β.data := rfl

@[simp] theorem refuse_bstLen (β : Burst aw dw) (r : TrxRsp) : (β.refuse r).bstLen = β.bstLen := rfl

@[simp] theorem refuse_trsT (β : Burst aw dw) (r : TrxRsp) : (β.refuse r).trsT = β.trsT := rfl

@[simp] theorem refuse_full (β : Burst aw dw) (r : TrxRsp) : (β.refuse r).full = β.full := rfl

@[simp] theorem refuse_served (β : Burst aw dw) (r : TrxRsp) : (β.refuse r).served = β.served := rfl

/-- What the loop of the address collector does to an item with all its addresses. -/
def addrDone (item : CollItem aw dw) : CollItem aw dw := {item with rsp := some .okay, addrComplete := true}

/-- What the loop of the data collector does to an item with all its data. -/
def dataDone (item : CollItem aw dw) : CollItem aw dw :=
  {item with rsp := some .okay, success := true, dataComplete := true}

theorem item_start (c : Sample aw dw) :
    (if (start c).full then addrDone (.populateNonseqItem c) else .populateNonseqItem c) = (start c).item none := by
  have empty : (start c).served = false := by simp [served,start]
  have dir : (if c.hwrite then TrsType.wr else .rd) = (start c).trsT := rfl
  cases full : (start c).full <;>
    simp [item,full,empty,addrDone,CollItem.populateNonseqItem,dir] <;> simp [start,bstLen]

theorem item_goOn {β : Burst aw dw} (c : Sample aw dw) (unrefused : β.resp = none) (short : β.full = false) :
    (if (β.goOn c).full then addrDone ((β.item none).populateSeqItem c) else (β.item none).populateSeqItem c) =
      (β.goOn c).item none := by
  have fits := full_eq_false.mp short
  have all : (β.goOn c).addrs.take (β.bstLen+1) = β.addrs ++ [c.haddr] :=
    List.take_of_length_le (by simpa [goOn] using fits)
  have before : β.addrs.take (β.bstLen+1) = β.addrs := List.take_of_length_le (by omega)
  cases full : (β.goOn c).full <;>
    simp only [item,full,short,addrDone,CollItem.populateSeqItem,before,goOn_bstLen,all] <;>
    simp [unrefused]

theorem item_goOn_full {β : Burst aw dw} (c : Sample aw dw) (full : β.full = true) :
    (β.goOn c).item none = β.item none := by
  have enough := full_eq_true.mp full
  have still : (β.goOn c).full = true := full_eq_true.mpr (by simp; omega)
  have same : (β.goOn c).addrs.take (β.bstLen+1) = β.addrs.take (β.bstLen+1) :=
    List.take_append_of_le_length (by omega)
  simp [item,full,still,same]

theorem populateDataItem_item {β : Burst aw dw} (c : Sample aw dw) (unserved : β.served = false) :
    (β.item none).populateDataItem c =
      {β.item none with dataIdx := (β.deliver c).data.length, dataBeat := (β.deliver c).data.map packData} := by
  have fits := served_eq_false.mp unserved
  have before : β.data.take (β.bstLen+1) = β.data := List.take_of_length_le (by omega)
  have word : (if (β.item none).trsT = .wr then c.hwdata else c.hrdata) =
      (if β.head.hwrite then c.hwdata else c.hrdata) := by
    cases write : β.head.hwrite <;> simp [item,trsT,write]
  rw [CollItem.populateDataItem,word]
  simp [CollItem.packAt,item,before,deliver]

theorem item_deliver {β : Burst aw dw} (c : Sample aw dw) (unserved : β.served = false)
    (behind : β.data.length < β.addrs.length) :
    (if (β.deliver c).served then dataDone ((β.item none).populateDataItem c)
      else (β.item none).populateDataItem c) = (β.deliver c).item none := by
  have fits := served_eq_false.mp unserved
  have grown : (β.deliver c).data.take (β.bstLen+1) = (β.deliver c).data :=
    List.take_of_length_le (by simpa using fits)
  rw [populateDataItem_item c unserved]
  cases served : (β.deliver c).served with
  | false => simp [item,served,unserved,grown]
  | true =>
    have last := served_eq_true.mp served
    have full : β.full = true := full_eq_true.mpr (by rw [deliver_bstLen,deliver_length] at last; omega)
    simp [item,served,grown,full,dataDone]

theorem item_deliver_served {β : Burst aw dw} (c : Sample aw dw) (served : β.served = true) :
    (β.deliver c).item none = β.item none := by
  have enough := served_eq_true.mp served
  have still : (β.deliver c).served = true := served_eq_true.mpr (by simp; omega)
  have same : (β.deliver c).data.take (β.bstLen+1) = β.data.take (β.bstLen+1) :=
    List.take_append_of_le_length (by omega)
  simp [item,served,still,same]

theorem item_full {β : Burst aw dw} (pending : Option TrxRsp) (full : β.full = true) :
    β.item pending = β.item none := by
  simp [item,full]

theorem item_first {β : Burst aw dw} {r : TrxRsp} (unrefused : β.resp = none) (other : r ≠ .okay)
    (short : β.full = false) : (β.item none).populateResp r = β.item (some r) := by
  cases r <;> simp [item,CollItem.populateResp,unrefused,short] at other ⊢

theorem item_refuse_served {β : Burst aw dw} {r : TrxRsp} (full : β.full = true) (served : β.served = true) :
    β.item (some r) = (β.refuse r).item none := by
  simp [item,full,served]

theorem item_refuse_full {β : Burst aw dw} {r : TrxRsp} (full : β.full = true) :
    {β.item (some r) with dataComplete := true} = (β.refuse r).item none := by
  simp [item,full]

theorem item_refuse {β : Burst aw dw} {r : TrxRsp} (unrefused : β.resp = none) (short : β.full = false) :
    {β.item (some r) with addrComplete := true, dataComplete := true} = (β.refuse r).item none := by
  simp [item,unrefused,short]

end Burst

namespace Monitor

variable (done : List (CollItem aw dw)) (it : CollItem aw dw) (rest : List (CollItem aw dw)) (pbox : List Nat)
  (addr : AddrColl) (data : DataColl) (collected : List Nat)

@[simp] theorem item_at : (Monitor.mk (done ++ it::rest) pbox addr data collected).item done.length = it := by
  simp [item]

@[simp] theorem update_at (f : CollItem aw dw → CollItem aw dw) :
    (Monitor.mk (done ++ it::rest) pbox addr data collected).update done.length f =
      ⟨done ++ f it::rest,pbox,addr,data,collected⟩ := by
  simp [update,List.modify_eq_take_cons_drop]

theorem addrLoop_at (firsts : List TrxRsp) :
    (Monitor.mk (done ++ it::rest) pbox addr data collected).addrLoop done.length firsts =
      if it.addrIdx ≤ it.bstLen then ⟨done ++ it::rest,pbox,.listen done.length firsts,data,collected⟩
      else ⟨done ++ Burst.addrDone it::rest,pbox,.nonseq,data,collected⟩ := by
  simp only [addrLoop,item_at,update_at]
  rfl

theorem dataLoop_at (firsts : List TrxRsp) :
    (Monitor.mk (done ++ it::rest) pbox addr data collected).dataLoop done.length firsts =
      if it.dataIdx ≤ it.bstLen then ⟨done ++ it::rest,pbox,addr,.listen done.length false firsts,collected⟩
      else ⟨done ++ Burst.dataDone it::rest,pbox,addr,.get,collected ++ [done.length]⟩ := by
  simp only [dataLoop,dataComplete,item_at,update_at,if_true]
  rfl

variable (β : Burst aw dw) {c : Sample aw dw}

theorem addrEdge_seq (ready : c.hready = true) (okay : c.hresp = .okay) (seq : c.htrans = .seq)
    (unrefused : β.resp = none) (short : β.full = false) :
    (Monitor.mk (done ++ β.item none::rest) pbox (.listen done.length []) data collected).addrEdge c =
      ⟨done ++ (β.goOn c).item none::rest,pbox,(β.goOn c).addrColl done.length .beat,data,collected⟩ := by
  have fits := Burst.full_eq_false.mp short
  have idx : ((β.item none).populateSeqItem c).addrIdx = (β.goOn c).addrs.length := by
    simp [Burst.item,CollItem.populateSeqItem]
    omega
  have len : ((β.item none).populateSeqItem c).bstLen = (β.goOn c).bstLen := rfl
  simp only [addrEdge,addrListen,okay,ready,seq,if_true,update_at,addrLoop_at,idx,len,
    ← Burst.item_goOn c unrefused short]
  cases full : (β.goOn c).full with
  | false =>
    have more := Burst.full_eq_false.mp full
    rw [if_pos more]
    simp [Burst.addrColl,full,Phase.pending]
  | true =>
    have last := Burst.full_eq_true.mp full
    rw [if_neg (Nat.not_le_of_lt last)]
    simp [Burst.addrColl,full]

/-- Nothing for the address collector to do on the item it listens to. -/
theorem addrEdge_busy (okay : c.hresp = .okay) (busy : c.htrans ≠ .seq) (short : β.full = false) :
    (Monitor.mk (done ++ β.item none::rest) pbox (.listen done.length []) data collected).addrEdge c =
      ⟨done ++ β.item none::rest,pbox,.listen done.length [],data,collected⟩ := by
  have fits : (β.item none).addrIdx ≤ (β.item none).bstLen := by
    have := Burst.full_eq_false.mp short
    simp [Burst.item]
    omega
  cases ready : c.hready <;> simp [addrEdge,addrListen,okay,busy,ready,addrLoop_at,fits]

theorem addrEdge_nonseq (items : List (CollItem aw dw)) (ready : c.hready = true) (okay : c.hresp = .okay)
    (nonseq : c.htrans = .nonseq) :
    (Monitor.mk items pbox .nonseq data collected).addrEdge c =
      ⟨items ++ [(Burst.start c).item none],pbox ++ [items.length],(Burst.start c).addrColl items.length .beat,data,
        collected⟩ := by
  have idx : (CollItem.populateNonseqItem c).addrIdx = (Burst.start c).addrs.length := rfl
  have len : (CollItem.populateNonseqItem c).bstLen = (Burst.start c).bstLen := rfl
  simp only [addrEdge,addrNonseq,okay,ready,nonseq,and_self,if_true,addrLoop_at,idx,len,← Burst.item_start c]
  cases full : (Burst.start c).full with
  | false => simp [Burst.addrColl,full,Phase.pending,Burst.full_eq_false.mp full]
  | true => simp [Burst.addrColl,full,Nat.not_le_of_lt (Burst.full_eq_true.mp full)]

theorem addrEdge_none (items : List (CollItem aw dw))
    (other : ¬ (c.hready = true ∧ c.hresp = .okay ∧ c.htrans = .nonseq)) :
    (Monitor.mk items pbox .nonseq data collected).addrEdge c = ⟨items,pbox,.nonseq,data,collected⟩ := by
  simp only [addrEdge,addrNonseq,if_neg other]

theorem dataEdge_beat (ready : c.hready = true) (okay : c.hresp = .okay) (unserved : β.served = false)
    (behind : β.data.length < β.addrs.length) :
    (Monitor.mk (done ++ β.item none::rest) pbox addr (.listen done.length true []) collected).dataEdge c =
      ⟨done ++ (β.deliver c).item none::rest,pbox,addr,(β.deliver c).dataColl done.length .free,
        collected ++ if (β.deliver c).served then [done.length] else []⟩ := by
  have idx : ((β.item none).populateDataItem c).dataIdx = (β.deliver c).data.length := by
    rw [Burst.populateDataItem_item c unserved]
  have len : ((β.item none).populateDataItem c).bstLen = (β.deliver c).bstLen := rfl
  simp only [dataEdge,dataListen,okay,ready,if_true,Bool.and_self,update_at,dataLoop_at,idx,len,
    ← Burst.item_deliver c unserved behind]
  cases served : (β.deliver c).served with
  | false =>
    rw [if_pos (Burst.served_eq_false.mp served)]
    simp [Burst.dataColl,served,Phase.pending]
  | true =>
    rw [if_neg (Nat.not_le_of_lt (Burst.served_eq_true.mp served))]
    simp [Burst.dataColl,served]

/-- The second cycle of a `RETRY` for the address collector: its flag is already set. -/
theorem addrEdge_second (ready : c.hready = true) (resp : c.hresp = .retry) (idle : c.htrans = .idle)
    (again : it.retry = true) :
    (Monitor.mk (done ++ it::rest) pbox (.listen done.length [.retry]) data collected).addrEdge c =
      ⟨done ++ {it with addrComplete := true}::rest,pbox,.nonseq,data,collected⟩ := by
  simp [addrEdge,addrListen,addrSecond,ready,resp,idle,CollItem.populateResp,again]

theorem addrEdge_first (low : c.hready = false) (other : c.hresp ≠ .okay) :
    (Monitor.mk (done ++ it::rest) pbox (.listen done.length []) data collected).addrEdge c =
      ⟨done ++ it.populateResp c.hresp::rest,pbox,.listen done.length [c.hresp],data,collected⟩ := by
  simp [addrEdge,addrListen,low,other]

theorem dataEdge_second {r : TrxRsp} (awake : Bool) (ready : c.hready = true) (resp : c.hresp = r)
    (other : r ≠ .okay) (idle : c.htrans = .idle) (unsuccessful : it.success = false) :
    (Monitor.mk (done ++ it::rest) pbox addr (.listen done.length awake [r]) collected).dataEdge c =
      ⟨done ++ {it with dataComplete := true}::rest,pbox,addr,.get,collected⟩ := by
  simp [dataEdge,dataListen,dataComplete,ready,resp,other,idle,unsuccessful]

theorem dataEdge_first (h : Nat) (awake : Bool) (items : List (CollItem aw dw)) (low : c.hready = false)
    (other : c.hresp ≠ .okay) :
    (Monitor.mk items pbox addr (.listen h awake []) collected).dataEdge c =
      ⟨items,pbox,addr,.listen h awake [c.hresp],collected⟩ := by
  simp [dataEdge,dataListen,low,other]

theorem dataEdge_asleep (h : Nat) (items : List (CollItem aw dw)) (okay : c.hresp = .okay) :
    (Monitor.mk items pbox addr (.listen h false []) collected).dataEdge c =
      ⟨items,pbox,addr,.listen h false [],collected⟩ := by
  simp [dataEdge,dataListen,okay]

theorem dataEdge_get (items : List (CollItem aw dw)) :
    (Monitor.mk items pbox addr .get collected).dataEdge c = ⟨items,pbox,addr,.get,collected⟩ := rfl

theorem settle_listen (h : Nat) (firsts : List TrxRsp) (items : List (CollItem aw dw)) (awake : Bool) :
    ((Monitor.mk items [] addr (.listen h awake firsts) collected).dataGet).dataWait =
      ⟨items,[],addr,.listen h (awake || decide ((items[h]?.getD default).dataIdx < (items[h]?.getD default).addrIdx))
        firsts,collected⟩ := by
  cases awake <;> rfl

theorem settle_get (items : List (CollItem aw dw)) :
    ((Monitor.mk items [] addr .get collected).dataGet).dataWait = ⟨items,[],addr,.get,collected⟩ := rfl

theorem settle_take (h : Nat) (items : List (CollItem aw dw)) :
    ((Monitor.mk items [h] addr .get collected).dataGet).dataWait =
      ⟨items,[],addr,.listen h (decide ((items[h]?.getD default).dataIdx < (items[h]?.getD default).addrIdx))
        [],collected⟩ := rfl

theorem edges_wait (m : Monitor aw dw) (low : c.hready = false) (okay : c.hresp = .okay) :
    m.addrEdge c = m ∧ m.dataEdge c = m := by
  obtain ⟨items,pbox,addr,data,collected⟩ := m
  refine ⟨?_,?_⟩
  · cases addr <;> simp [addrEdge,addrNonseq,addrListen,low,okay]
  · cases data <;> simp [dataEdge,dataListen,low,okay]

/-- An edge at which both orders of the collectors come to the same. -/
theorem step_of {m after : Monitor aw dw} {c : Sample aw dw × Bool}
    (addrFirst : (m.addrEdge c.1).dataEdge c.1 = after) (dataFirst : (m.dataEdge c.1).addrEdge c.1 = after) :
    m.step c = after.dataGet.dataWait := by
  cases order : c.2 <;> simp [step,order,addrFirst,dataFirst]

theorem addrEdge_goOn (ready : c.hready = true) (okay : c.hresp = .okay) (seq : c.htrans = .seq)
    (unrefused : β.resp = none) :
    (Monitor.mk (done ++ β.item none::rest) pbox (β.addrColl done.length .free) data collected).addrEdge c =
      ⟨done ++ (β.goOn c).item none::rest,pbox,(β.goOn c).addrColl done.length .beat,data,collected⟩ := by
  cases full : β.full with
  | false =>
    simp only [Burst.addrColl,full,Phase.pending,Option.toList_none,Bool.false_eq_true,if_false]
    exact addrEdge_seq done rest pbox data collected β ready okay seq unrefused full
  | true =>
    have still : (β.goOn c).full = true := Burst.full_eq_true.mpr (by
      have := Burst.full_eq_true.mp full
      simp
      omega)
    simp only [Burst.addrColl,full,still,if_true,Burst.item_goOn_full c full]
    exact addrEdge_none pbox data collected _ (by simp [seq])

theorem addrEdge_stay (okay : c.hresp = .okay) (noSeq : c.htrans ≠ .seq) (noNonseq : c.htrans ≠ .nonseq) :
    (Monitor.mk (done ++ β.item none::rest) pbox (β.addrColl done.length .free) data collected).addrEdge c =
      ⟨done ++ β.item none::rest,pbox,β.addrColl done.length .free,data,collected⟩ := by
  cases full : β.full with
  | false =>
    simp only [Burst.addrColl,full,Phase.pending,Option.toList_none,Bool.false_eq_true,if_false]
    exact addrEdge_busy done rest pbox data collected β okay noSeq full
  | true =>
    simp only [Burst.addrColl,full,if_true]
    exact addrEdge_none pbox data collected _ (by simp [noNonseq])

theorem dataEdge_deliver (ready : c.hready = true) (okay : c.hresp = .okay)
    (behind : β.data.length < β.addrs.length) :
    (Monitor.mk (done ++ β.item none::rest) pbox addr (β.dataColl done.length .beat)
      (collected ++ if β.served then [done.length] else [])).dataEdge c =
      ⟨done ++ (β.deliver c).item none::rest,pbox,addr,(β.deliver c).dataColl done.length .free,
        collected ++ if (β.deliver c).served then [done.length] else []⟩ := by
  cases served : β.served with
  | false =>
    have base := dataEdge_beat done rest pbox addr collected β ready okay served behind
    simpa [Burst.dataColl,served,Phase.pending] using base
  | true =>
    have still : (β.deliver c).served = true := Burst.served_eq_true.mpr (by
      have := Burst.served_eq_true.mp served
      simp
      omega)
    simp [Burst.dataColl,served,still,Burst.item_deliver_served c served,dataEdge]

theorem dataEdge_free (h : Nat) (items : List (CollItem aw dw)) (okay : c.hresp = .okay) :
    (Monitor.mk items pbox addr (β.dataColl h .free) collected).dataEdge c =
      ⟨items,pbox,addr,β.dataColl h .free,collected⟩ := by
  cases served : β.served with
  | false => simpa [Burst.dataColl,served,Phase.pending] using dataEdge_asleep pbox addr collected h items okay
  | true => simp [Burst.dataColl,served,dataEdge]

end Monitor

/-! ### The simulation -/

namespace Bus

theorem collectedOf_concat (bursts : List (Burst aw dw)) (β : Burst aw dw) :
    collectedOf (bursts ++ [β]) = collectedOf bursts ++ if β.served then [bursts.length] else [] := by
  cases served : β.served <;>
    simp [collectedOf,List.zipIdx_append,List.filter_append,served]

/-- The item of the burst that goes on awaits data exactly in a data phase. -/
theorem Going.awaits {β : Burst aw dw} {phase : Phase} (going : Going β phase) (unserved : β.served = false)
    (pending : Option TrxRsp) :
    decide ((β.item pending).dataIdx < (β.item pending).addrIdx) = decide (phase ≠ .free) := by
  have fits := Burst.served_eq_false.mp unserved
  have ahead := going.ahead
  cases phase <;> simp [Burst.item,Phase.owed] at ahead ⊢ <;> omega

/-- The items of the bursts that are over. -/
def doneItems (closed : List (Burst aw dw)) : List (CollItem aw dw) := closed.map (·.item none)

theorem view_some (closed : List (Burst aw dw)) (β : Burst aw dw) (phase : Phase) :
    Bus.view ⟨closed,some β,phase⟩ =
      ⟨doneItems closed ++ [β.item phase.pending],[],β.addrColl (doneItems closed).length phase,
        β.dataColl (doneItems closed).length phase,
        collectedOf closed ++ if β.served then [(doneItems closed).length] else []⟩ := by
  simp [Bus.view,bursts,collectedOf_concat,doneItems]

theorem view_none (closed : List (Burst aw dw)) (β : Burst aw dw) (phase : Phase) :
    Bus.view ⟨closed ++ [β],none,phase⟩ =
      ⟨doneItems closed ++ [β.item none],[],.nonseq,.get,
        collectedOf closed ++ if β.served then [(doneItems closed).length] else []⟩ := by
  simp [Bus.view,bursts,collectedOf_concat,doneItems]

/-- Where the data collector stands once both have done what they can. -/
theorem settle_going (done : List (CollItem aw dw)) {β : Burst aw dw} {phase old : Phase} (going : Going β phase)
    (addr : AddrColl) (collected : List Nat) (same : old.pending = phase.pending)
    (asleep : old = .free ∨ old = phase) :
    (Monitor.mk (done ++ [β.item phase.pending]) [] addr (β.dataColl done.length old) collected).dataGet.dataWait =
      ⟨done ++ [β.item phase.pending],[],addr,β.dataColl done.length phase,collected⟩ := by
  cases served : β.served with
  | true => simp only [Burst.dataColl,served,if_true,Monitor.settle_get]
  | false =>
    have found : ((done ++ [β.item phase.pending])[done.length]?).getD default = β.item phase.pending := by
      simp
    simp only [Burst.dataColl,served,same,Bool.false_eq_true,if_false,Monitor.settle_listen,found,
      going.awaits served]
    rcases asleep with rfl | rfl <;> simp

theorem settle_view {b : Bus aw dw} (wf : b.Wf) : b.view.dataGet.dataWait = b.view := by
  obtain ⟨closed,_ | β,phase⟩ := b
  · rfl
  · rw [view_some]
    exact settle_going _ (wf.going β rfl) _ _ rfl (.inr rfl)

/-- Both collectors close the item of a response at its second cycle: a `RETRY` always, any
when the address collector is already done. -/
def Closes (b : Bus aw dw) (c : Sample aw dw × Bool) : Prop :=
  ∀ r, b.phase = .second r → c.1.htrans = .idle ∧ (r = .retry ∨ ∀ β, b.current = some β → β.full = true)

theorem step_wait {b : Bus aw dw} (wf : b.Wf) {c : Sample aw dw × Bool} (low : c.1.hready = false)
    (okay : c.1.hresp = .okay) : b.view.step c = (b.step c).view := by
  obtain ⟨addr,data⟩ := Monitor.edges_wait b.view low okay
  rw [Monitor.step_of (by rw [addr,data]) (by rw [data,addr])]
  simpa [Bus.step,hold,low,okay] using settle_view wf

theorem step_first (closed : List (Burst aw dw)) {β : Burst aw dw} (going : Going β .beat)
    {c : Sample aw dw × Bool} (low : c.1.hready = false) (other : c.1.hresp ≠ .okay) :
    (Bus.view ⟨closed,some β,.beat⟩).step c = Bus.view ⟨closed,some β,.second c.1.hresp⟩ := by
  have next : Going β (.second c.1.hresp) := ⟨going.unrefused,going.started,going.bounded,going.ahead⟩
  have data (addr : AddrColl) (items : List (CollItem aw dw)) (h : Nat) (collected : List Nat) :
      (Monitor.mk items [] addr (β.dataColl h .beat) collected).dataEdge c.1 =
        ⟨items,[],addr,β.dataColl h (.second c.1.hresp),collected⟩ := by
    cases served : β.served with
    | true => simp [Burst.dataColl,served,Monitor.dataEdge]
    | false => simp [Burst.dataColl,served,Phase.pending,Monitor.dataEdge_first _ _ _ _ _ _ low other]
  have addr (data : DataColl) (done : List (CollItem aw dw)) (collected : List Nat) :
      (Monitor.mk (done ++ [β.item none]) [] (β.addrColl done.length .beat) data collected).addrEdge c.1 =
        ⟨done ++ [β.item (some c.1.hresp)],[],β.addrColl done.length (.second c.1.hresp),data,collected⟩ := by
    cases full : β.full with
    | true =>
      simp only [Burst.addrColl,full,if_true,Burst.item_full (some c.1.hresp) full]
      exact Monitor.addrEdge_none [] data collected _ (by simp [low])
    | false =>
      have base := Monitor.addrEdge_first done (β.item none) [] [] data collected low other
      rw [Burst.item_first going.unrefused other full] at base
      simpa [Burst.addrColl,full,Phase.pending] using base
  rw [view_some,view_some]
  refine (Monitor.step_of ?_ ?_).trans (settle_going _ next _ _ rfl (.inr rfl))
  · exact (congrArg (·.dataEdge c.1) (addr _ _ _)).trans (data _ _ _ _)
  · exact (congrArg (·.addrEdge c.1) (data _ _ _ _)).trans (addr _ _ _)

/-- The second cycle of a response that both collectors close. -/
theorem step_second (closed : List (Burst aw dw)) {β : Burst aw dw} {r : TrxRsp} (going : Going β (.second r))
    (real : r ≠ .okay) {c : Sample aw dw × Bool} (ready : c.1.hready = true) (resp : c.1.hresp = r)
    (idle : c.1.htrans = .idle) (closes : r = .retry ∨ β.full = true) :
    (Bus.view ⟨closed,some β,.second r⟩).step c = Bus.view ⟨closed ++ [β.refuse r],none,.free⟩ := by
  have noNonseq : ¬ (c.1.hready = true ∧ c.1.hresp = .okay ∧ c.1.htrans = .nonseq) := by simp [idle]
  rw [view_some,view_none]
  generalize doneItems closed = done
  cases full : β.full with
  | true =>
    have addr (data : DataColl) (items : List (CollItem aw dw)) (collected : List Nat) :
        (Monitor.mk items [] .nonseq data collected).addrEdge c.1 = ⟨items,[],.nonseq,data,collected⟩ :=
      Monitor.addrEdge_none [] data collected items noNonseq
    have data (collected : List Nat) : (Monitor.mk (done ++ [β.item (some r)]) [] .nonseq
        (β.dataColl done.length (.second r)) collected).dataEdge c.1 =
        ⟨done ++ [(β.refuse r).item none],[],.nonseq,.get,collected⟩ := by
      cases served : β.served with
      | true =>
        simp only [Burst.dataColl,served,if_true,← Burst.item_refuse_served full served]
        rfl
      | false =>
        simp only [Burst.dataColl,served,Bool.false_eq_true,if_false,← Burst.item_refuse_full full]
        exact Monitor.dataEdge_second _ _ [] [] .nonseq _ true ready resp real idle (by simp [Burst.item,served])
    simp only [Burst.addrColl,full,if_true]
    exact Monitor.step_of ((congrArg (·.dataEdge c.1) (addr _ _ _)).trans (data _))
      ((congrArg (·.addrEdge c.1) (data _)).trans (addr _ _ _))
  | false =>
    have retry : r = .retry := closes.resolve_right (by simp [full])
    have unserved : β.served = false := by
      have ahead : β.addrs.length = β.data.length+1 := going.ahead
      have fits := Burst.full_eq_false.mp full
      exact Burst.served_eq_false.mpr (by omega)
    have again : (β.item (some r)).retry = true := by simp [Burst.item,full,going.unrefused,retry]
    simp only [Burst.addrColl,Burst.dataColl,full,unserved,Bool.false_eq_true,if_false,Phase.pending,
      Option.toList_some,Burst.refuse_served,← Burst.item_refuse going.unrefused full]
    subst retry
    refine @Monitor.step_of aw dw _ ⟨_,[],.nonseq,.get,_⟩ c ?_ ?_
    · rw [Monitor.addrEdge_second _ _ _ _ _ _ ready resp idle again]
      exact Monitor.dataEdge_second _ _ [] [] .nonseq _ true ready resp real idle unserved
    · rw [Monitor.dataEdge_second _ _ [] [] _ _ _ ready resp real idle unserved]
      exact Monitor.addrEdge_second _ _ [] [] _ _ ready resp idle again

theorem Whole.item_full {β : Burst aw dw} (whole : Whole β) : β.full = true := by
  refine Burst.full_eq_true.mpr ?_
  cases fixed : β.head.hburst.beats with
  | none => exact (Burst.bstLen_incr fixed).symm ▸ whole.started
  | some n =>
    have length := whole.full n fixed
    have len := Burst.bstLen_beats fixed
    omega

theorem Whole.item_served {β : Burst aw dw} (whole : Whole β) : β.served = true :=
  Burst.served_eq_true.mpr (whole.answered ▸ Burst.full_eq_true.mp whole.item_full)

/-- The burst after its data phase, if there is one, ends with `OKAY`. -/
def answered (β : Burst aw dw) (phase : Phase) (c : Sample aw dw) : Burst aw dw :=
  if phase = .beat then β.deliver c else β

theorem answered_goOn (β : Burst aw dw) (phase : Phase) (c : Sample aw dw) :
    answered (β.goOn c) phase c = (answered β phase c).goOn c := by
  unfold answered
  split <;> rfl

theorem dataEdge_answered (done rest : List (CollItem aw dw)) (pbox : List Nat) (addr : AddrColl)
    (collected : List Nat) (β : Burst aw dw) {phase : Phase} (first : ∀ r, phase ≠ .second r) {c : Sample aw dw}
    (ready : c.hready = true) (okay : c.hresp = .okay) (behind : phase = .beat → β.data.length < β.addrs.length) :
    (Monitor.mk (done ++ β.item none::rest) pbox addr (β.dataColl done.length phase)
      (collected ++ if β.served then [done.length] else [])).dataEdge c =
      ⟨done ++ (answered β phase c).item none::rest,pbox,addr,(answered β phase c).dataColl done.length .free,
        collected ++ if (answered β phase c).served then [done.length] else []⟩ := by
  cases phase with
  | second r => exact absurd rfl (first r)
  | free => exact Monitor.dataEdge_free pbox addr _ β done.length _ okay
  | beat => exact Monitor.dataEdge_deliver done rest pbox addr collected β ready okay (behind rfl)

theorem Going.answered {β : Burst aw dw} {phase : Phase} (going : Going β phase) (first : ∀ r, phase ≠ .second r)
    (c : Sample aw dw) : Going (answered β phase c) .free := by
  cases phase with
  | second r => exact absurd rfl (first r)
  | free => exact going
  | beat => exact going.deliver c

theorem Going.behind {β : Burst aw dw} {phase : Phase} (going : Going β phase) (beat : phase = .beat) :
    β.data.length < β.addrs.length := by
  have ahead := going.ahead
  subst beat
  simp only [Phase.owed] at ahead
  omega

/-- An edge at which the data phase ends with `OKAY`, or there is none, and the address phase
is accepted. -/
theorem step_accept (closed : List (Burst aw dw)) {β : Burst aw dw} {phase : Phase} (going : Going β phase)
    (first : ∀ r, phase ≠ .second r) {c : Sample aw dw × Bool} (ready : c.1.hready = true)
    (okay : c.1.hresp = .okay) (offers : Offers ⟨closed,some (answered β phase c.1),.free⟩ c.1) :
    (Bus.view ⟨closed,some β,phase⟩).step c = (Bus.accept ⟨closed,some (answered β phase c.1),.free⟩ c.1).view := by
  have next := going.answered first c.1
  have behind := going.behind
  have pending : phase.pending = none := by
    cases phase with
    | second r => exact absurd rfl (first r)
    | free | beat => rfl
  have colls (h : Nat) : β.addrColl h phase = β.addrColl h .free := by
    rw [Burst.addrColl,Burst.addrColl,pending]
    rfl
  have same (h : Nat) : (answered β phase c.1).addrColl h .free = β.addrColl h .free := by
    unfold answered
    split <;> rfl
  have sameNext (h : Nat) : (β.goOn c.1).addrColl h .beat = ((answered β phase c.1).goOn c.1).addrColl h .beat := by
    unfold answered
    split <;> rfl
  rw [view_some,colls,pending]
  cases trans : c.1.htrans with
  | seq =>
    have opened : (answered β phase c.1).Open := by simpa [Offers,trans,HTrans.ends] using offers
    simp only [Bus.accept,trans,Option.map_some]
    rw [view_some]
    generalize doneItems closed = done
    refine (Monitor.step_of ?_ ?_).trans (@settle_going aw dw done _ _ .free (next.goOn opened c.1) _ _ rfl (.inl rfl))
    · rw [Monitor.addrEdge_goOn _ [] [] _ _ β ready okay trans going.unrefused]
      refine (dataEdge_answered done [] [] _ (collectedOf closed) (β.goOn c.1) first ready okay fun beat => ?_).trans ?_
      · simpa using Nat.lt_succ_of_lt (behind beat)
      · rw [answered_goOn,sameNext]
        rfl
    · rw [dataEdge_answered _ [] [] _ _ β first ready okay behind,← same]
      exact Monitor.addrEdge_goOn _ [] [] _ _ (answered β phase c.1) ready okay trans next.unrefused
  | busy =>
    simp only [Bus.accept,trans]
    rw [view_some]
    generalize doneItems closed = done
    refine (Monitor.step_of ?_ ?_).trans (@settle_going aw dw done _ _ .free next _ _ rfl (.inl rfl))
    · rw [Monitor.addrEdge_stay _ [] [] _ _ β okay (by simp [trans]) (by simp [trans]),← same]
      exact dataEdge_answered _ [] [] _ _ β first ready okay behind
    · rw [dataEdge_answered _ [] [] _ _ β first ready okay behind,← same]
      exact Monitor.addrEdge_stay _ [] [] _ _ (answered β phase c.1) okay (by simp [trans]) (by simp [trans])
  | idle =>
    have whole := next.whole (by simpa [Offers,trans,HTrans.ends] using offers)
    have nonseq (h : Nat) : β.addrColl h .free = .nonseq := by
      rw [← same]
      simp [Burst.addrColl,whole.item_full]
    have get (h : Nat) : (answered β phase c.1).dataColl h .free = .get := by
      simp [Burst.dataColl,whole.item_served]
    have addr (data : DataColl) (items : List (CollItem aw dw)) (collected : List Nat) :
        (Monitor.mk items [] .nonseq data collected).addrEdge c.1 = ⟨items,[],.nonseq,data,collected⟩ :=
      Monitor.addrEdge_none [] data collected items (by simp [trans])
    have data := dataEdge_answered (doneItems closed) [] [] .nonseq (collectedOf closed) β first ready okay behind
    rw [get] at data
    simp only [Bus.accept,trans,nonseq]
    refine (Monitor.step_of ?_ ?_).trans (congrArg (·.dataGet.dataWait) (view_none closed _ .free).symm)
    · exact (congrArg (·.dataEdge c.1) (addr _ _ _)).trans data
    · exact (congrArg (·.addrEdge c.1) data).trans (addr _ _ _)
  | nonseq =>
    have whole := next.whole (by simpa [Offers,trans,HTrans.ends] using offers)
    have nonseq (h : Nat) : β.addrColl h .free = .nonseq := by
      rw [← same]
      simp [Burst.addrColl,whole.item_full]
    have get (h : Nat) : (answered β phase c.1).dataColl h .free = .get := by
      simp [Burst.dataColl,whole.item_served]
    have data (rest : List (CollItem aw dw)) (pbox : List Nat) (addr : AddrColl) :=
      dataEdge_answered (doneItems closed) rest pbox addr (collectedOf closed) β first ready okay behind
    simp only [get] at data
    simp only [Bus.accept,trans,nonseq]
    refine (@Monitor.step_of aw dw _
      ⟨doneItems closed ++ [(answered β phase c.1).item none,(Burst.start c.1).item none],
      [closed.length+1],(Burst.start c.1).addrColl (closed.length+1) .beat,.get,
      collectedOf closed ++ if (answered β phase c.1).served then [(doneItems closed).length] else []⟩ c ?_ ?_).trans ?_
    · rw [Monitor.addrEdge_nonseq _ _ _ _ ready okay trans,List.append_assoc]
      refine (data _ _ _).trans ?_
      simp [doneItems]
    · rw [data,Monitor.addrEdge_nonseq _ _ _ _ ready okay trans]
      simp [doneItems]
    · have empty : (Burst.start c.1).served = false := by simp [Burst.served,Burst.start]
      have going := Going.start c.1
      have found : (doneItems closed ++ [(answered β phase c.1).item none,(Burst.start c.1).item none])[closed.length+1]? =
          some ((Burst.start c.1).item none) := by
        simp [doneItems]
      have written : collectedOf (closed ++ [answered β phase c.1,.start c.1]) =
          collectedOf closed ++ if (answered β phase c.1).served then [closed.length] else [] := by
        rw [← List.singleton_append,← List.append_assoc,collectedOf_concat,collectedOf_concat]
        simp [empty]
      rw [Monitor.settle_take,found,Option.getD_some,going.awaits empty]
      simp [Bus.view,bursts,doneItems,Burst.dataColl,empty,Phase.pending,written]

/-- The first `NONSEQ`, or none, of a bus with no burst going on. -/
theorem step_rest (closed : List (Burst aw dw)) {c : Sample aw dw × Bool} (ready : c.1.hready = true)
    (okay : c.1.hresp = .okay) (ends : c.1.htrans.ends = true) :
    (Bus.view ⟨closed,none,.free⟩).step c = (Bus.accept ⟨closed,none,.free⟩ c.1).view := by
  have start : Bus.view ⟨closed,none,.free⟩ = ⟨doneItems closed,[],.nonseq,.get,collectedOf closed⟩ := by
    simp [Bus.view,bursts,doneItems]
  cases trans : c.1.htrans with
  | seq | busy => simp [trans,HTrans.ends] at ends
  | idle =>
    have edge := Monitor.addrEdge_none [] .get (collectedOf closed) (doneItems closed) (c := c.1) (by simp [trans])
    simp only [Bus.accept,trans,bursts,Option.toList_none,List.append_nil]
    rw [start]
    exact (Monitor.step_of (congrArg (·.dataEdge c.1) edge) edge).trans (Monitor.settle_get _ _ _)
  | nonseq =>
    have empty : (Burst.start c.1).served = false := by simp [Burst.served,Burst.start]
    have found : (doneItems closed ++ [(Burst.start c.1).item none])[(doneItems closed).length]? =
        some ((Burst.start c.1).item none) := by simp
    have edge := Monitor.addrEdge_nonseq [] .get (collectedOf closed) (doneItems closed) ready okay trans
    simp only [Bus.accept,trans]
    rw [start]
    refine (Monitor.step_of (congrArg (·.dataEdge c.1) edge) edge).trans ?_
    rw [Monitor.dataEdge_get,List.nil_append,Monitor.settle_take,found,Option.getD_some,(Going.start c.1).awaits empty]
    simp [Bus.view,bursts,collectedOf_concat,doneItems,Burst.dataColl,empty,Phase.pending]

/-- The monitor follows the bus, step by step. -/
theorem step_view {b : Bus aw dw} (wf : b.Wf) {c : Sample aw dw × Bool} (allowed : b.Allows c)
    (closes : b.Closes c) : b.view.step c = (b.step c).view := by
  obtain ⟨answers,offers⟩ := allowed
  cases ready : c.1.hready with
  | false =>
    by_cases okay : c.1.hresp = .okay
    · exact step_wait wf ready okay
    · obtain ⟨closed,current,phase⟩ := b
      cases phase with
      | free => exact absurd answers okay
      | second r => simp [Answers,ready] at answers
      | beat =>
        cases current with
        | none => cases wf.idle rfl
        | some β => simpa [Bus.step,hold,ready,okay] using step_first closed (wf.going β rfl) ready okay
  | true =>
    obtain ⟨closed,current,phase⟩ := b
    have offers := offers ready
    cases current with
    | none =>
      cases wf.idle rfl
      have ends : c.1.htrans.ends = true := offers
      simpa [Bus.step,Bus.finish,ready] using step_rest closed ready answers ends
    | some β =>
      have going := wf.going β rfl
      cases phase with
      | free => simpa [Bus.step,Bus.finish,ready,answered] using
          step_accept closed going (by simp) ready answers (by simpa [Bus.finish,answered] using offers)
      | beat =>
        have okay : c.1.hresp = .okay := answers.resolve_right (by simp [ready])
        simpa [Bus.step,Bus.finish,ready,answered] using
          step_accept closed going (by simp) ready okay (by simpa [Bus.finish,answered] using offers)
      | second r =>
        obtain ⟨idle,closed'⟩ := closes r rfl
        have real : r ≠ .okay := fun same => wf.second (congrArg Phase.second same)
        have both := step_second closed going real ready answers.2.1 idle (closed'.imp_right fun full => full β rfl)
        simpa [Bus.step,Bus.finish,Bus.accept,ready,idle,bursts] using both

theorem Closes.cuts {b : Bus aw dw} {c : Sample aw dw × Bool} (closes : b.Closes c) : b.Cuts c :=
  fun r second => (closes r second).1

/-- In every run whose responses are all closed the monitor is that of the bus. -/
theorem after_view {trace : List (Sample aw dw × Bool)}
    (met : Machine.Meets step (fun b c => b.Allows c ∧ b.Closes c) {} trace) :
    Monitor.after trace = (after trace).view ∧ (after trace).Wf := by
  induction trace using List.reverseRecOn with
  | nil => exact ⟨rfl,initial_wf⟩
  | append_singleton trace c ih =>
    obtain ⟨before,allowed,closes⟩ := (Machine.meets_concat _ _ _ _ _).mp met
    obtain ⟨same,wf⟩ := ih before
    rw [Monitor.after,after,Machine.run_concat,Machine.run_concat]
    exact ⟨(congrArg (·.step c) same).trans (step_view wf allowed closes),wf.step allowed closes.cuts⟩

end Bus

end Smtdv.Ahb
