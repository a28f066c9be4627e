import Smtdv.Ahb.Driver

/-! What each step of the driver can do: the cases every invariant is checked against. -/
namespace Smtdv.Ahb.Driver
open Lib

variable {aw dw : Nat}

/-- The flag a response sets in the item it is charged to. -/
def flagged (r : TrxRsp) (status : Status) : Status :=
  match r with
  | .okay => status
  | .error => {status with error := true}
  | .retry => {status with retry := true}
  | .split => {status with split := true}

/-- `addr_idx` after an edge at which the address phase is accepted. -/
def accepted (phase : OkayPhase) (status : Status) : Nat :=
  if phase = .busy then status.addrIdx else status.addrIdx+1

/-- The item of a redrive: the clone's number is that of the new cell. -/
def clone (s : Driver aw dw) (item : Handle aw dw) : Handle aw dw :=
  ⟨s.heap.next,{item.trx.clone with prio := -1}⟩

/-- The cell of the clone of an item. -/
def cloneStatus (status : Status) : Status := status.clone.resetIndex.resetStatus

inductive Effect (s : Driver aw dw) : Action aw dw → Driver aw dw → Prop
  /-- the action is not enabled -/
  | stutter (a : Action aw dw) : Effect s a s
  | posedge (sig : Sig) (settled : s.Settled) :
      Effect s (.posedge sig) {s with
        sig := sig
        addrArmed := match s.addr with | .listen _ _ _ => true | .wait => false
        dataArmed := match s.data with | .listen _ _ => true | _ => false
        cycles := s.cycles ++ [⟨s.vif,sig,s.presented⟩]}
  /-- no listener of the address thread goes on -/
  | addrStay (opt : Bool) (item : Handle aw dw) (phase : OkayPhase) (firsts : List TrxRsp)
      (armed : s.addrArmed = true) (listens : s.addr = .listen item phase firsts)
      (waits : s.sig.hgrant = true → s.sig.hresp = .okay → s.sig.hready = false)
      (unmoved : s.sig.hgrant = true → s.sig.hresp ≠ .okay → s.sig.hresp ∈ firsts → s.sig.hready = false)
      (unseen : s.sig.hgrant = true → s.sig.hresp ≠ .okay → s.sig.hresp ∉ firsts → s.sig.hready = true) :
      Effect s (.addrEdge opt) {s with addrArmed := false}
  /-- the last address is accepted -/
  | addrLast (opt : Bool) (item : Handle aw dw) (phase : OkayPhase) (firsts : List TrxRsp)
      (armed : s.addrArmed = true) (listens : s.addr = .listen item phase firsts)
      (okay : s.sig.hgrant = true ∧ s.sig.hresp = .okay ∧ s.sig.hready = true)
      (last : item.trx.bstLen < accepted phase (s.status item)) :
      Effect s (.addrEdge opt) {s with
        addrArmed := false
        heap := s.heap.modify item.id fun status =>
          {status with addrIdx := accepted phase status, addrComplete := true}
        addr := .wait
        vif := {s.vif with htrans := .idle}}
  /-- an address is accepted and `SEQ` or `BUSY` follows -/
  | addrNext (opt : Bool) (item : Handle aw dw) (phase : OkayPhase) (firsts : List TrxRsp) (busy : Bool)
      (armed : s.addrArmed = true) (listens : s.addr = .listen item phase firsts)
      (okay : s.sig.hgrant = true ∧ s.sig.hresp = .okay ∧ s.sig.hready = true)
      (more : accepted phase (s.status item) ≤ item.trx.bstLen) :
      Effect s (.addrEdge opt) {s with
        addrArmed := false
        heap := s.heap.modify item.id fun status =>
          {status with
            addrIdx := accepted phase status
            busyCnt := if busy then status.busyCnt-1 else status.busyCnt}
        addr := .listen item (if busy then .busy else .seq) firsts
        vif := {s.vif with
          haddr := item.trx.addrs.getD (accepted phase (s.status item)) 0
          htrans := if busy then .busy else .seq}}
  /-- the first cycle of an `ERROR` -/
  | addrError (opt : Bool) (item : Handle aw dw) (phase : OkayPhase) (firsts : List TrxRsp)
      (armed : s.addrArmed = true) (listens : s.addr = .listen item phase firsts)
      (first : s.sig.hgrant = true ∧ s.sig.hresp = .error ∧ s.sig.hready = false)
      (unseen : TrxRsp.error ∉ firsts) :
      Effect s (.addrEdge opt) {s with
        addrArmed := false
        heap := s.heap.modify item.id (flagged .error)
        addr := .listen item phase (.error::firsts)
        vif := {s.vif with htrans := .idle}
        charged := s.charged ++ [(item,.error)]}
  /-- the first cycle of a `RETRY` or a `SPLIT` -/
  | addrRedrive (opt : Bool) (item : Handle aw dw) (phase : OkayPhase) (firsts : List TrxRsp)
      (armed : s.addrArmed = true) (listens : s.addr = .listen item phase firsts)
      (resp : s.sig.hresp = .retry ∨ s.sig.hresp = .split)
      (first : s.sig.hgrant = true ∧ s.sig.hready = false) (unseen : s.sig.hresp ∉ firsts) :
      Effect s (.addrEdge opt) {s with
        addrArmed := false
        heap := (s.heap.modify item.id (flagged s.sig.hresp)).alloc
          (cloneStatus (flagged s.sig.hresp (s.status item)))
        forks := s.forks ++ [{item := s.clone item, front := true}]
        clones := s.clones ++ [(item,s.clone item)]
        addr := .listen item phase (s.sig.hresp::firsts)
        vif := {s.vif with htrans := .idle}
        charged := s.charged ++ [(item,s.sig.hresp)]}
  /-- the second cycle of a response -/
  | addrSecond (opt : Bool) (item : Handle aw dw) (phase : OkayPhase) (firsts : List TrxRsp)
      (armed : s.addrArmed = true) (listens : s.addr = .listen item phase firsts)
      (resp : s.sig.hresp ≠ .okay) (second : s.sig.hgrant = true ∧ s.sig.hready = true)
      (seen : s.sig.hresp ∈ firsts) :
      Effect s (.addrEdge opt) {s with
        addrArmed := false
        heap := s.heap.modify item.id fun status => {status with addrComplete := true}
        addr := .wait
        vif := {s.vif with htrans := .idle}}
  /-- no listener of the data thread goes on -/
  | dataStay (item : Handle aw dw) (firsts : List TrxRsp) (armed : s.dataArmed = true)
      (listens : s.data = .listen item firsts)
      (waits : s.sig.hresp = .okay → s.sig.hready = true →
        (s.status item).addrIdx ≤ (s.status item).dataIdx ∧ (s.status item).dataIdx ≤ item.trx.bstLen)
      (unmoved : s.sig.hgrant = true → s.sig.hresp ≠ .okay → s.sig.hresp ∈ firsts → s.sig.hready = false)
      (unseen : s.sig.hgrant = true → s.sig.hresp ≠ .okay → s.sig.hresp ∉ firsts → s.sig.hready = true) :
      Effect s .dataEdge {s with dataArmed := false}
  /-- nothing is left to drive -/
  | dataOver (item : Handle aw dw) (firsts : List TrxRsp) (armed : s.dataArmed = true)
      (listens : s.data = .listen item firsts) (okay : s.sig.hresp = .okay ∧ s.sig.hready = true)
      (caught : (s.status item).addrIdx ≤ (s.status item).dataIdx)
      (ended : item.trx.bstLen < (s.status item).dataIdx) :
      Effect s .dataEdge {s with
        dataArmed := false
        heap := s.heap.modify item.id fun status => {status with dataComplete := true}
        data := .wait}
  /-- a beat of data is driven -/
  | dataDrive (item : Handle aw dw) (firsts : List TrxRsp) (armed : s.dataArmed = true)
      (listens : s.data = .listen item firsts) (okay : s.sig.hresp = .okay ∧ s.sig.hready = true)
      (behind : (s.status item).dataIdx < (s.status item).addrIdx) :
      Effect s .dataEdge {s with
        dataArmed := false
        heap := s.heap.modify item.id fun status =>
          {status with
            dataIdx := status.dataIdx+1
            dataComplete := status.dataComplete || decide (item.trx.bstLen ≤ (s.status item).dataIdx)}
        data := if item.trx.bstLen ≤ (s.status item).dataIdx then .wait else .listen item firsts
        vif := {s.vif with
          hwdata := if item.trx.trsT = .wr then item.trx.dataBeat.getD (s.status item).dataIdx default
            else s.vif.hwdata}}
  | dataFirst (item : Handle aw dw) (firsts : List TrxRsp) (armed : s.dataArmed = true)
      (listens : s.data = .listen item firsts) (resp : s.sig.hresp ≠ .okay)
      (first : s.sig.hgrant = true ∧ s.sig.hready = false) (unseen : s.sig.hresp ∉ firsts) :
      Effect s .dataEdge {s with dataArmed := false, data := .listen item (s.sig.hresp::firsts)}
  | dataSecond (item : Handle aw dw) (firsts : List TrxRsp) (armed : s.dataArmed = true)
      (listens : s.data = .listen item firsts) (resp : s.sig.hresp ≠ .okay)
      (second : s.sig.hgrant = true ∧ s.sig.hready = true) (seen : s.sig.hresp ∈ firsts) :
      Effect s .dataEdge {s with
        dataArmed := false
        heap := s.heap.modify item.id fun status => {status with dataComplete := true}
        data := .wait
        closed := s.closed ++ [(item,s.sig.hresp)]}
  | driveBus (req : Trx aw dw) :
      Effect s (.driveBus req) {s with
        heap := s.heap.alloc {}
        forks := s.forks ++ [{item := ⟨s.heap.next,req⟩, front := false}]
        taken := s.taken ++ [⟨s.heap.next,req⟩]}
  | pushAddr (k : Nat) (fork : Fork aw dw) (there : s.forks[k]? = some fork) (left : fork.toAddr = true) :
      Effect s (.pushAddr k) {s with
        addrbox := push s.addrbox fork.item fork.front
        forks := pushed s.forks k fun fork => {fork with toAddr := false}}
  | pushData (k : Nat) (fork : Fork aw dw) (there : s.forks[k]? = some fork) (left : fork.toData = true) :
      Effect s (.pushData k) {s with
        databox := push s.databox fork.item fork.front
        forks := pushed s.forks k fun fork => {fork with toData := false}}
  | addrSkip (item : Handle aw dw) (rest : List (Handle aw dw)) (waits : s.addr = .wait)
      (sorted : prioSort s.addrbox = item::rest) (complete : (s.status item).addrComplete = true) :
      Effect s .addrGet {s with addrbox := rest, addrPops := s.addrPops ++ [item]}
  | addrTake (item : Handle aw dw) (rest : List (Handle aw dw)) (waits : s.addr = .wait)
      (sorted : prioSort s.addrbox = item::rest) (incomplete : (s.status item).addrComplete = false) :
      Effect s .addrGet {s with
        addrbox := rest
        addrPops := s.addrPops ++ [item]
        addr := .listen item .nonseq []
        vif := {s.vif with
          haddr := item.trx.addrs.getD (s.status item).addrIdx 0
          htrans := .nonseq
          hwrite := item.trx.trsT = .wr
          hsize := item.trx.trxSize
          hburst := item.trx.bstType
          hprot := item.trx.trxPrt
          hmastlock := item.trx.hmastlock}}
  | dataTake (item : Handle aw dw) (rest : List (Handle aw dw)) (waits : s.data = .wait)
      (sorted : prioSort s.databox = item::rest) :
      Effect s .dataGet {s with databox := rest, dataPops := s.dataPops ++ [item], data := .swap item}
  /-- the item is complete or has a response already -/
  | dataSkip (item : Handle aw dw) (swaps : s.data = .swap item)
      (done : (s.status item).dataComplete = true ∨ (s.status item).retry = true ∨
        (s.status item).split = true ∨ (s.status item).error = true) :
      Effect s .dataSwap {s with data := .wait}
  | dataEmpty (item : Handle aw dw) (swaps : s.data = .swap item)
      (clean : (s.status item).dataComplete = false ∧ (s.status item).retry = false ∧
        (s.status item).split = false ∧ (s.status item).error = false)
      (ended : item.trx.bstLen < (s.status item).dataIdx) :
      Effect s .dataSwap {s with
        heap := s.heap.modify item.id fun status => {status with dataComplete := true}
        data := .wait}
  | dataStart (item : Handle aw dw) (swaps : s.data = .swap item)
      (clean : (s.status item).dataComplete = false ∧ (s.status item).retry = false ∧
        (s.status item).split = false ∧ (s.status item).error = false)
      (left : (s.status item).dataIdx ≤ item.trx.bstLen) :
      Effect s .dataSwap {s with data := .listen item []}

theorem ne_okay_of_error {r : TrxRsp} (resp : r = .error) : r ≠ .okay := by
  intro okay
  cases resp.symm.trans okay

theorem ne_okay_of_redrive {r : TrxRsp} (resp : r = .retry ∨ r = .split) : r ≠ .okay := by
  intro okay
  rcases resp with resp | resp <;> cases resp.symm.trans okay

theorem addrLoop_effect (s : Driver aw dw) (item : Handle aw dw) (f : Status → Status)
    (firsts : List TrxRsp) (opt : Bool) :
    (s.setStatus item f).addrLoop item firsts opt =
      if item.trx.bstLen < (f (s.status item)).addrIdx then
        {s with
          heap := s.heap.modify item.id fun status => {f status with addrComplete := true}
          addr := .wait
          vif := {s.vif with htrans := .idle}}
      else
        let busy := s.hasBusy && !opt
        {s with
          heap := s.heap.modify item.id fun status =>
            {f status with busyCnt := if busy then (f status).busyCnt-1 else (f status).busyCnt}
          addr := .listen item (if busy then .busy else .seq) firsts
          vif := {s.vif with
            haddr := item.trx.addrs.getD (f (s.status item)).addrIdx 0
            htrans := if busy then .busy else .seq}} := by
  have idx : ((s.setStatus item f).status item).addrIdx = (f (s.status item)).addrIdx := by
    simp [setStatus,status]
  rw [addrLoop,idx]
  split
  · simp [addrComplete,populateDefaultItem,setStatus,Heap.modify_modify]
  · have flag : (s.setStatus item f).hasBusy = s.hasBusy := rfl
    rw [flag]
    cases s.hasBusy && !opt
    · simp [populateSeqItem,setStatus,status]
    · simp [populateBusyItem,setStatus,status,Heap.modify_modify]

theorem addrListen_okay (s : Driver aw dw) (item : Handle aw dw) (phase : OkayPhase)
    (firsts : List TrxRsp) (opt : Bool)
    (okay : s.sig.hgrant = true ∧ s.sig.hresp = .okay ∧ s.sig.hready = true) :
    s.addrListen item phase firsts opt =
      (s.setStatus item fun status => {status with addrIdx := accepted phase status}).addrLoop item firsts opt := by
  obtain ⟨grant,resp,ready⟩ := okay
  have same : s.setStatus item (fun status => status) = s := by simp [setStatus,Heap.modify_id]
  cases phase <;> simp [addrListen,grant,resp,ready,accepted,same]

theorem addrListen_stay (s : Driver aw dw) (item : Handle aw dw) (phase : OkayPhase)
    (firsts : List TrxRsp) (opt : Bool)
    (waits : s.sig.hgrant = true → s.sig.hresp = .okay → s.sig.hready = false)
    (unmoved : s.sig.hgrant = true → s.sig.hresp ≠ .okay → s.sig.hresp ∈ firsts → s.sig.hready = false)
    (unseen : s.sig.hgrant = true → s.sig.hresp ≠ .okay → s.sig.hresp ∉ firsts → s.sig.hready = true) :
    s.addrListen item phase firsts opt = s := by
  unfold addrListen
  split_ifs with grant okay ready seen second ready
  · rw [waits grant okay] at ready
    cases ready
  · rfl
  · rw [unmoved grant okay seen] at second
    cases second
  · rfl
  · rfl
  · exact absurd (unseen grant okay seen) ready
  · rfl

theorem addrListen_first (s : Driver aw dw) (item : Handle aw dw) (phase : OkayPhase)
    (firsts : List TrxRsp) (opt : Bool) (resp : s.sig.hresp ≠ .okay)
    (first : s.sig.hgrant = true ∧ s.sig.hready = false) (unseen : s.sig.hresp ∉ firsts) :
    s.addrListen item phase firsts opt = {s.populateResp item s.sig.hresp with
      addr := .listen item phase (s.sig.hresp::firsts)
      charged := s.charged ++ [(item,s.sig.hresp)]} := by
  obtain ⟨grant,waits⟩ := first
  have charged : (s.populateResp item s.sig.hresp).charged = s.charged := by cases s.sig.hresp <;> rfl
  have sig : (s.populateResp item s.sig.hresp).sig = s.sig := by cases s.sig.hresp <;> rfl
  simp [addrListen,grant,waits,resp,unseen,charged,sig]

theorem addrEdge_effect (s : Driver aw dw) (opt : Bool) : Effect s (.addrEdge opt) (s.step (.addrEdge opt)) := by
  rw [step]
  split
  · rename_i item phase firsts armed listens
    by_cases okay : s.sig.hgrant = true ∧ s.sig.hresp = .okay ∧ s.sig.hready = true
    · rw [addrListen_okay {s with addrArmed := false} item phase firsts opt okay,addrLoop_effect]
      split
      · exact .addrLast opt item phase firsts armed listens okay ‹_›
      · exact .addrNext opt item phase firsts (s.hasBusy && !opt) armed listens okay (Nat.le_of_not_lt ‹_›)
    by_cases second : s.sig.hresp ≠ .okay ∧ (s.sig.hgrant = true ∧ s.sig.hready = true) ∧ s.sig.hresp ∈ firsts
    · obtain ⟨resp,⟨grant,ready⟩,seen⟩ := second
      have computed : {s with addrArmed := false}.addrListen item phase firsts opt =
          {s with addrArmed := false}.addrComplete item := by
        simp [addrListen,grant,ready,resp,seen]
      rw [computed]
      exact .addrSecond opt item phase firsts armed listens resp ⟨grant,ready⟩ seen
    by_cases first : s.sig.hresp ≠ .okay ∧ (s.sig.hgrant = true ∧ s.sig.hready = false) ∧ s.sig.hresp ∉ firsts
    · obtain ⟨resp,⟨grant,waits⟩,unseen⟩ := first
      rw [addrListen_first {s with addrArmed := false} item phase firsts opt resp ⟨grant,waits⟩ unseen]
      cases kind : s.sig.hresp with
      | okay => exact absurd kind resp
      | error => exact .addrError opt item phase firsts armed listens ⟨grant,kind,waits⟩ (kind ▸ unseen)
      | retry | split =>
        have redrive := Effect.addrRedrive opt item phase firsts armed listens (by simp [kind]) ⟨grant,waits⟩ unseen
        have cell := Heap.modify_get_self s.heap item.id (flagged s.sig.hresp)
        rw [status,← cell,kind] at redrive
        exact redrive
    · have waits : s.sig.hgrant = true → s.sig.hresp = .okay → s.sig.hready = false := fun grant resp => by
        simpa [grant,resp] using okay
      have unmoved : s.sig.hgrant = true → s.sig.hresp ≠ .okay → s.sig.hresp ∈ firsts → s.sig.hready = false :=
        fun grant resp seen => by simpa [grant,resp,seen] using second
      have unseen : s.sig.hgrant = true → s.sig.hresp ≠ .okay → s.sig.hresp ∉ firsts → s.sig.hready = true :=
        fun grant resp unseen => by simpa [grant,resp,unseen] using first
      rw [addrListen_stay {s with addrArmed := false} item phase firsts opt waits unmoved unseen]
      exact .addrStay opt item phase firsts armed listens waits unmoved unseen
  · exact .stutter _

theorem dataLoop_effect (s : Driver aw dw) (item : Handle aw dw) (firsts : List TrxRsp) :
    s.dataLoop item firsts = if item.trx.bstLen < (s.status item).dataIdx then
      {s with
        heap := s.heap.modify item.id fun status => {status with dataComplete := true}
        data := .wait}
    else {s with data := .listen item firsts} := rfl

theorem dataListen_drive (s : Driver aw dw) (item : Handle aw dw) (firsts : List TrxRsp)
    (okay : s.sig.hresp = .okay ∧ s.sig.hready = true)
    (behind : (s.status item).dataIdx < (s.status item).addrIdx) :
    s.dataListen item firsts = {s with
      heap := s.heap.modify item.id fun status =>
        {status with
          dataIdx := status.dataIdx+1
          dataComplete := status.dataComplete || decide (item.trx.bstLen ≤ (s.status item).dataIdx)}
      data := if item.trx.bstLen ≤ (s.status item).dataIdx then .wait else .listen item firsts
      vif := {s.vif with
        hwdata := if item.trx.trsT = .wr then item.trx.dataBeat.getD (s.status item).dataIdx default
          else s.vif.hwdata}} := by
  have idx : ((s.populateDataItem item).status item).dataIdx = (s.status item).dataIdx+1 := by
    unfold populateDataItem
    split <;> simp [setStatus,status]
  have computed : s.dataListen item firsts = (s.populateDataItem item).dataLoop item firsts := by
    simp [dataListen,okay,behind]
  rw [computed,dataLoop_effect,idx]
  by_cases ended : item.trx.bstLen ≤ (s.status item).dataIdx
  · rw [if_pos (Nat.lt_succ_of_le ended),if_pos ended]
    by_cases write : item.trx.trsT = .wr <;> simp [populateDataItem,setStatus,write,ended,Heap.modify_modify]
  · rw [if_neg (fun less => ended (Nat.le_of_lt_succ less)),if_neg ended]
    by_cases write : item.trx.trsT = .wr <;> simp [populateDataItem,setStatus,write,ended]

theorem dataEdge_effect (s : Driver aw dw) : Effect s .dataEdge (s.step .dataEdge) := by
  rw [step]
  split
  · rename_i item firsts armed listens
    by_cases okay : s.sig.hresp = .okay ∧ s.sig.hready = true
    · by_cases behind : (s.status item).dataIdx < (s.status item).addrIdx
      · rw [dataListen_drive {s with dataArmed := false} item firsts okay behind]
        exact .dataDrive item firsts armed listens okay behind
      · have computed : {s with dataArmed := false}.dataListen item firsts =
            {s with dataArmed := false}.dataLoop item firsts := by
          have caught : ¬ ({s with dataArmed := false}.status item).dataIdx <
            ({s with dataArmed := false}.status item).addrIdx := behind
          simp [dataListen,okay,caught]
        rw [computed,dataLoop_effect]
        split
        · exact .dataOver item firsts armed listens okay (Nat.le_of_not_lt behind) ‹_›
        · have stay := Effect.dataStay item firsts armed listens
            (fun _ _ => ⟨Nat.le_of_not_lt behind,Nat.le_of_not_lt ‹_›⟩)
            (fun _ other => absurd okay.1 other) (fun _ other => absurd okay.1 other)
          rw [← listens]
          exact stay
    by_cases second : s.sig.hresp ≠ .okay ∧ (s.sig.hgrant = true ∧ s.sig.hready = true) ∧ s.sig.hresp ∈ firsts
    · obtain ⟨resp,⟨grant,ready⟩,seen⟩ := second
      have computed : {s with dataArmed := false}.dataListen item firsts =
          {{s with dataArmed := false}.dataComplete item with closed := s.closed ++ [(item,s.sig.hresp)]} := by
        simp [dataListen,grant,ready,resp,seen]
      rw [computed]
      exact .dataSecond item firsts armed listens resp ⟨grant,ready⟩ seen
    by_cases first : s.sig.hresp ≠ .okay ∧ (s.sig.hgrant = true ∧ s.sig.hready = false) ∧ s.sig.hresp ∉ firsts
    · obtain ⟨resp,⟨grant,waits⟩,unseen⟩ := first
      have computed : {s with dataArmed := false}.dataListen item firsts =
          {s with dataArmed := false, data := .listen item (s.sig.hresp::firsts)} := by
        simp [dataListen,grant,waits,resp,unseen]
      rw [computed]
      exact .dataFirst item firsts armed listens resp ⟨grant,waits⟩ unseen
    · have computed : {s with dataArmed := false}.dataListen item firsts = {s with dataArmed := false} := by
        unfold dataListen
        split_ifs with resp ready behind grant seen second' ready
        all_goals first | rfl | simp_all
      rw [computed]
      refine .dataStay item firsts armed listens ?_ ?_ ?_
      · intro resp ready
        exact absurd ⟨resp,ready⟩ okay
      · intro grant resp seen
        simpa [grant,resp,seen] using second
      · intro grant resp unseen
        simpa [grant,resp,unseen] using first
  · exact .stutter _

theorem step_effect (s : Driver aw dw) (a : Action aw dw) : Effect s a (s.step a) := by
  cases a with
  | posedge sig =>
    rw [step]
    split
    · exact .posedge sig ‹_›
    · exact .stutter _
  | addrEdge opt => exact addrEdge_effect s opt
  | dataEdge => exact dataEdge_effect s
  | driveBus req =>
    rw [step,driveBus]
    split
    · exact .driveBus req
    · exact .driveBus req
    · exact .stutter _
  | pushAddr k =>
    rw [step]
    split
    · split
      · exact .pushAddr k _ ‹_› ‹_›
      · exact .stutter _
    · exact .stutter _
  | pushData k =>
    rw [step]
    split
    · split
      · exact .pushData k _ ‹_› ‹_›
      · exact .stutter _
    · exact .stutter _
  | addrGet =>
    rw [step]
    split
    · rename_i item rest waits sorted
      rw [Driver.addrTake]
      split
      · exact .addrSkip item rest waits sorted ‹_›
      · rename_i incomplete
        exact .addrTake item rest waits sorted (eq_false_of_ne_true incomplete)
    · exact .stutter _
  | dataGet =>
    rw [step]
    split
    · exact .dataTake _ _ ‹_› ‹_›
    · exact .stutter _
  | dataSwap =>
    rw [step]
    split
    · rename_i item swaps
      simp only [dataLook]
      split
      · exact .dataSkip item swaps ‹_›
      · rename_i clean
        simp only [not_or,Bool.not_eq_true] at clean
        rw [dataLoop_effect]
        split
        · exact .dataEmpty item swaps clean ‹_›
        · exact .dataStart item swaps clean (Nat.le_of_not_lt ‹_›)
    · exact .stutter _

end Smtdv.Ahb.Driver
