import Smtdv.Ahb.Order
import Smtdv.Ahb.Trace

/-! Protocol conformance of the driver: while the bus is granted, the responses are `OKAY`
and the threads take their items in one order, the cycles on the bus are the trace of the
items. The two threads go through every item together, but for the moments between two
items and between the halves of an edge; `Stage` lists these moments. -/
namespace Smtdv.Ahb.Driver
open Lib

variable {aw dw : Nat}

/-- The bus is granted, the response is `OKAY`, and the address thread runs first. -/
def Smooth (s : Driver aw dw) : Action aw dw → Prop
  | .posedge sig => sig.hgrant = true ∧ sig.hresp = .okay
  | .dataEdge => s.addrArmed = false
  | _ => True

instance (s : Driver aw dw) (a : Action aw dw) : Decidable (Smooth s a) :=
  match a with
  | .posedge _ => inferInstanceAs (Decidable (_ ∧ _))
  | .dataEdge => inferInstanceAs (Decidable (_ = false))
  | .addrEdge _ | .driveBus _ | .pushAddr _ | .pushData _ | .addrGet | .dataGet | .dataSwap =>
    inferInstanceAs (Decidable True)

def Unflagged (heap : Heap Status) : Prop :=
  ∀ id, (heap.get id).retry = false ∧ (heap.get id).split = false ∧ (heap.get id).error = false

theorem Unflagged.modify {heap : Heap Status} (flags : Unflagged heap) (id : Nat) (f : Status → Status)
    (kept : ∀ status, (f status).retry = status.retry ∧ (f status).split = status.split ∧
      (f status).error = status.error) : Unflagged (heap.modify id f) := by
  intro other
  rw [Heap.modify_get_field heap id other f Status.retry fun status => (kept status).1,
    Heap.modify_get_field heap id other f Status.split fun status => (kept status).2.1,
    Heap.modify_get_field heap id other f Status.error fun status => (kept status).2.2]
  exact flags other

/-- An edge that is still to be looked at is `OKAY`. -/
structure Quiet (s : Driver aw dw) : Prop where
  sig : s.addrArmed = true ∨ s.dataArmed = true → s.sig.hgrant = true ∧ s.sig.hresp = .okay
  flags : Unflagged s.heap

theorem initial_quiet (hasBusy : Bool) : Quiet (initial hasBusy : Driver aw dw) where
  sig armed := by rcases armed with armed | armed <;> cases armed
  flags id := ⟨rfl,rfl,rfl⟩

theorem step_quiet (s : Driver aw dw) (a : Action aw dw) (quiet : Quiet s) (smooth : Smooth s a) :
    Quiet (s.step a) := by
  have effect := step_effect s a
  generalize s.step a = s' at effect ⊢
  have addr (armed : false = true ∨ s.dataArmed = true) := quiet.sig (.inr (armed.resolve_left (by decide)))
  have data (armed : s.addrArmed = true ∨ false = true) := quiet.sig (.inl (armed.resolve_right (by decide)))
  cases effect with
  | posedge sig settled => exact ⟨fun _ => smooth,quiet.flags⟩
  | addrStay => exact ⟨addr,quiet.flags⟩
  | addrLast | addrNext | addrSecond =>
    refine ⟨addr,?_⟩
    dsimp only
    refine quiet.flags.modify _ _ ?_
    exact fun _ => ⟨rfl,rfl,rfl⟩
  | addrError _ _ _ _ armed _ first => exact absurd (quiet.sig (.inl armed)).2 (ne_okay_of_error first.2.1)
  | addrRedrive _ _ _ _ armed _ resp => exact absurd (quiet.sig (.inl armed)).2 (ne_okay_of_redrive resp)
  | dataStay | dataFirst => exact ⟨data,quiet.flags⟩
  | dataOver | dataDrive | dataSecond =>
    refine ⟨data,?_⟩
    dsimp only
    refine quiet.flags.modify _ _ ?_
    exact fun _ => ⟨rfl,rfl,rfl⟩
  | dataEmpty =>
    refine ⟨quiet.sig,?_⟩
    dsimp only
    refine quiet.flags.modify _ _ ?_
    exact fun _ => ⟨rfl,rfl,rfl⟩
  | driveBus req =>
    refine ⟨quiet.sig,fun id => ?_⟩
    change ((s.heap.alloc {}).get id).retry = false ∧ ((s.heap.alloc {}).get id).split = false ∧
      ((s.heap.alloc {}).get id).error = false
    rw [Heap.alloc_get]
    split
    · exact ⟨rfl,rfl,rfl⟩
    · exact quiet.flags id
  | _ => exact ⟨quiet.sig,quiet.flags⟩

/-! ### Stages -/

/-- What the address thread presents while it waits in a phase of `listen_OKAY`. -/
def posAt (h : Handle aw dw) (phase : OkayPhase) (i : Nat) : Pos aw dw :=
  if phase = .busy then .busy h.trx i else .beat h.trx i

/-- The address thread is at beat `i` of the item both threads have taken last. -/
structure OnBeat (s : Driver aw dw) (h : Handle aw dw) (phase : OkayPhase) (i : Nat) : Prop where
  addr : s.addr = .listen h phase []
  pops : s.addrPops = s.dataPops
  idx : (s.status h).addrIdx = i
  bound : i ≤ h.trx.bstLen
  paused : phase = .busy → 0 < i
  shows : Presents s.vif (posAt h phase i)

/-- The address thread has finished, and may have taken its next item. -/
inductive Turn (s : Driver aw dw) : Pos aw dw → Prop
  | wait (addr : s.addr = .wait) (pops : s.addrPops = s.dataPops) (shows : Presents s.vif .idle) : Turn s .idle
  | taken (h : Handle aw dw) (addr : s.addr = .listen h .nonseq []) (pops : s.addrPops = s.dataPops ++ [h])
      (idx : (s.status h).addrIdx = 0) (shows : Presents s.vif (.beat h.trx 0)) : Turn s (.beat h.trx 0)

/-- The data thread is to listen on the item, or does. -/
def Works (s : Driver aw dw) (h : Handle aw dw) : Prop :=
  s.data = .listen h [] ∨
    s.data = .swap h ∧ (s.status h).dataIdx = 0 ∧ (s.status h).dataComplete = false

/-- What the data thread will find at the edge, the address thread being at beat `i` by now. -/
inductive Due (s : Driver aw dw) (h : Handle aw dw) (i : Nat) : Option (Beat dw) → Prop
  | held {owed : Option (Beat dw)} (low : s.sig.hready = false) (idx : (s.status h).dataIdx = i)
      (carries : Carries s.vif owed) : Due s h i owed
  | paused (high : s.sig.hready = true) (idx : (s.status h).dataIdx = i) : Due s h i none
  | beat (k : Nat) (high : s.sig.hready = true) (before : k + 1 = i) (idx : (s.status h).dataIdx = k) :
      Due s h i (h.trx.payload k)

inductive Stage (s : Driver aw dw) : Pos aw dw → Option (Beat dw) → Prop
  /-- the data thread has finished -/
  | free {pos : Pos aw dw} {owed : Option (Beat dw)} (turn : Turn s pos) (data : s.data = .wait)
      (carries : Carries s.vif owed) (still : s.addrArmed = false ∧ s.dataArmed = false)
      (trace : AhbTrace (s.addrPops.map Handle.trx) pos owed s.cycles) : Stage s pos owed
  /-- the data thread has taken the next item first -/
  | behind {owed : Option (Beat dw)} (h : Handle aw dw) (addr : s.addr = .wait) (data : Works s h)
      (pops : s.dataPops = s.addrPops ++ [h]) (idx : (s.status h).dataIdx = 0)
      (shows : Presents s.vif .idle) (carries : Carries s.vif owed)
      (still : s.addrArmed = false ∧ s.dataArmed = false)
      (trace : AhbTrace (s.addrPops.map Handle.trx) .idle owed s.cycles) : Stage s .idle owed
  /-- between two edges -/
  | both {owed : Option (Beat dw)} (h : Handle aw dw) (phase : OkayPhase) (i : Nat) (beat : OnBeat s h phase i)
      (data : Works s h) (idx : (s.status h).dataIdx = i) (carries : Carries s.vif owed)
      (still : s.addrArmed = false ∧ s.dataArmed = false)
      (trace : AhbTrace (s.addrPops.map Handle.trx) (posAt h phase i) owed s.cycles) :
      Stage s (posAt h phase i) owed
  /-- at an edge -/
  | armed {owed : Option (Beat dw)} (h : Handle aw dw) (phase : OkayPhase) (i : Nat) (beat : OnBeat s h phase i)
      (data : s.data = .listen h []) (idx : (s.status h).dataIdx = i) (carries : Carries s.vif owed)
      (both : s.addrArmed = true ∧ s.dataArmed = true) (c : Cycle aw dw) (before : List (Cycle aw dw))
      (cycles : s.cycles = before ++ [c]) (sampled : c.vif = s.vif ∧ c.sig = s.sig)
      (trace : AhbTrace (s.addrPops.map Handle.trx) (posAt h phase i) owed before) :
      Stage s (posAt h phase i) owed
  /-- the address thread has looked at the edge -/
  | after {owed : Option (Beat dw)} (h : Handle aw dw) (phase : OkayPhase) (i : Nat) (beat : OnBeat s h phase i)
      (data : s.data = .listen h []) (due : Due s h i owed)
      (half : s.addrArmed = false ∧ s.dataArmed = true)
      (trace : AhbTrace (s.addrPops.map Handle.trx) (posAt h phase i) owed s.cycles) :
      Stage s (posAt h phase i) owed
  /-- and has finished the item -/
  | late {pos : Pos aw dw} (h : Handle aw dw) (turn : Turn s pos) (data : s.data = .listen h [])
      (idx : (s.status h).addrIdx = h.trx.bstLen + 1 ∧ (s.status h).dataIdx = h.trx.bstLen)
      (high : s.sig.hready = true) (half : s.addrArmed = false ∧ s.dataArmed = true)
      (trace : AhbTrace (s.addrPops.map Handle.trx) pos (h.trx.payload h.trx.bstLen) s.cycles) :
      Stage s pos (h.trx.payload h.trx.bstLen)

/-! ### Steps outside the edges -/

/-- What a stage looks at. -/
structure Frame (s s' : Driver aw dw) : Prop where
  threads : s'.addr = s.addr ∧ s'.data = s.data
  armed : s'.addrArmed = s.addrArmed ∧ s'.dataArmed = s.dataArmed
  pops : s'.addrPops = s.addrPops ∧ s'.dataPops = s.dataPops
  wires : s'.sig = s.sig ∧ s'.vif = s.vif ∧ s'.cycles = s.cycles
  items : ∀ h, s.addr.item? = some h ∨ s.data.item? = some h → s'.status h = s.status h

theorem turn_frame {s s' : Driver aw dw} {pos : Pos aw dw} (frame : Frame s s') (turn : Turn s pos) :
    Turn s' pos := by
  obtain ⟨⟨thread,_⟩,_,⟨addrPops,dataPops⟩,⟨_,vif,_⟩,items⟩ := frame
  cases turn with
  | wait addr pops shows =>
    exact .wait (thread.trans addr) (by rw [addrPops,dataPops]; exact pops) (by rw [vif]; exact shows)
  | taken h addr pops idx shows =>
    have same := items h (.inl (by rw [addr]; rfl))
    exact .taken h (thread.trans addr) (by rw [addrPops,dataPops]; exact pops) (by rw [same]; exact idx)
      (by rw [vif]; exact shows)

theorem onBeat_frame {s s' : Driver aw dw} {h : Handle aw dw} {phase : OkayPhase} {i : Nat}
    (frame : Frame s s') (beat : OnBeat s h phase i) : OnBeat s' h phase i := by
  obtain ⟨⟨thread,_⟩,_,⟨addrPops,dataPops⟩,⟨_,vif,_⟩,items⟩ := frame
  obtain ⟨addr,pops,idx,bound,paused,shows⟩ := beat
  have same := items h (.inl (by rw [addr]; rfl))
  exact ⟨thread.trans addr,by rw [addrPops,dataPops]; exact pops,by rw [same]; exact idx,bound,paused,
    by rw [vif]; exact shows⟩

theorem works_item {s : Driver aw dw} {h : Handle aw dw} (works : Works s h) : s.data.item? = some h := by
  rcases works with listens | ⟨swaps,_⟩
  · rw [listens]
    rfl
  · rw [swaps]
    rfl

theorem works_frame {s s' : Driver aw dw} {h : Handle aw dw} (frame : Frame s s') (works : Works s h) :
    Works s' h := by
  have same := frame.items h (.inr (works_item works))
  rw [Works,frame.threads.2,same]
  exact works

theorem stage_frame {s s' : Driver aw dw} {pos : Pos aw dw} {owed : Option (Beat dw)} (frame : Frame s s')
    (stage : Stage s pos owed) : Stage s' pos owed := by
  have frame' := frame
  obtain ⟨⟨addrThread,dataThread⟩,⟨addrArmed,dataArmed⟩,⟨addrPops,dataPops⟩,⟨sig,vif,log⟩,items⟩ := frame'
  cases stage with
  | free turn data carries still trace =>
    exact .free (turn_frame frame turn) (dataThread.trans data) (by rwa [vif]) (by rwa [addrArmed,dataArmed])
      (by rwa [addrPops,log])
  | behind h addr data pops idx shows carries still trace =>
    have same := items h (.inr (works_item data))
    exact .behind h (addrThread.trans addr) (works_frame frame data) (by rwa [addrPops,dataPops]) (by rwa [same])
      (by rwa [vif]) (by rwa [vif]) (by rwa [addrArmed,dataArmed]) (by rwa [addrPops,log])
  | both h phase i beat data idx carries still trace =>
    have same := items h (.inr (works_item data))
    exact .both h phase i (onBeat_frame frame beat) (works_frame frame data) (by rwa [same]) (by rwa [vif])
      (by rwa [addrArmed,dataArmed]) (by rwa [addrPops,log])
  | armed h phase i beat data idx carries both c before cycles sampled trace =>
    have same := items h (.inr (by rw [data]; rfl))
    exact .armed h phase i (onBeat_frame frame beat) (dataThread.trans data) (by rwa [same]) (by rwa [vif])
      (by rwa [addrArmed,dataArmed]) c before (log.trans cycles) (by rwa [vif,sig]) (by rwa [addrPops])
  | after h phase i beat data due half trace =>
    have same := items h (.inr (by rw [data]; rfl))
    refine .after h phase i (onBeat_frame frame beat) (dataThread.trans data) ?_ (by rwa [addrArmed,dataArmed])
      (by rwa [addrPops,log])
    cases due with
    | held low idx carries => exact .held (by rwa [sig]) (by rwa [same]) (by rwa [vif])
    | paused high idx => exact .paused (by rwa [sig]) (by rwa [same])
    | beat k high before idx => exact .beat k (by rwa [sig]) before (by rwa [same])
  | late h turn data idx high half trace =>
    have same := items h (.inr (by rw [data]; rfl))
    exact .late h (turn_frame frame turn) (dataThread.trans data) (by rwa [same]) (by rwa [sig])
      (by rwa [addrArmed,dataArmed]) (by rwa [addrPops,log])

theorem SameOrder.concat {s : Driver aw dw} (same : SameOrder s) {pops : List (Handle aw dw)}
    {item h : Handle aw dw} (addr : s.addrPops = pops ++ [item]) (data : s.dataPops = pops ++ [h]) : item = h :=
  same pops.length item h (by simp [addr]) (by simp [data])

theorem stage_addrGet {s : Driver aw dw} {pos : Pos aw dw} {owed : Option (Beat dw)} (sound : Sound s)
    (stage : Stage s pos owed) (same : SameOrder (s.step .addrGet)) :
    ∃ pos, Stage (s.step .addrGet) pos owed := by
  have effect := step_effect s .addrGet
  generalize s.step .addrGet = s' at effect same ⊢
  cases effect with
  | stutter => exact ⟨pos,stage⟩
  | addrSkip item rest waits sorted complete =>
    have incomplete := (sound.untaken_addr item rest sorted).2
    rw [complete] at incomplete
    cases incomplete
  | addrTake item rest waits sorted =>
    have idx := (sound.untaken_addr item rest sorted).1
    have trx : (s.addrPops ++ [item]).map Handle.trx = s.addrPops.map Handle.trx ++ [item.trx] := by simp
    cases stage with
    | free turn data carries still trace =>
      cases turn with
      | taken h addr =>
        rw [waits] at addr
        cases addr
      | wait addr pops shows =>
        refine ⟨.beat item.trx 0,.free (.taken item rfl ?_ idx ?_) data carries still ?_⟩
        · exact congrArg (· ++ [item]) pops
        · exact ⟨by rw [idx],rfl,rfl,rfl,rfl,rfl,rfl⟩
        · exact trx ▸ trace.take item.trx
    | behind h addr data pops dataIdx shows carries still trace =>
      obtain rfl := same.concat rfl pops
      refine ⟨posAt item .nonseq 0,.both item .nonseq 0 ⟨rfl,pops.symm,idx,Nat.zero_le _,?_,?_⟩ data dataIdx carries
        still ?_⟩
      · intro busy
        cases busy
      · exact ⟨by rw [idx],rfl,rfl,rfl,rfl,rfl,rfl⟩
      · exact trx ▸ trace.take item.trx
    | both h phase i beat | armed h phase i beat | after h phase i beat =>
      have addr := beat.addr
      rw [waits] at addr
      cases addr
    | late h turn data dataIdx high half trace =>
      cases turn with
      | taken h addr =>
        rw [waits] at addr
        cases addr
      | wait addr pops shows =>
        refine ⟨.beat item.trx 0,.late h (.taken item rfl ?_ idx ?_) data dataIdx high half ?_⟩
        · exact congrArg (· ++ [item]) pops
        · exact ⟨by rw [idx],rfl,rfl,rfl,rfl,rfl,rfl⟩
        · exact trx ▸ trace.take item.trx

theorem stage_dataGet {s : Driver aw dw} {pos : Pos aw dw} {owed : Option (Beat dw)} (sound : Sound s)
    (stage : Stage s pos owed) (same : SameOrder (s.step .dataGet)) : Stage (s.step .dataGet) pos owed := by
  have effect := step_effect s .dataGet
  generalize s.step .dataGet = s' at effect same ⊢
  cases effect with
  | stutter => exact stage
  | dataTake item rest waits sorted =>
    obtain ⟨idx,incomplete⟩ := sound.untaken_data item rest sorted
    have busy {h : Handle aw dw} (listens : s.data = .listen h []) : False := by
      rw [waits] at listens
      cases listens
    have works {h : Handle aw dw} (data : Works s h) : False := by
      have item := works_item data
      rw [waits] at item
      cases item
    cases stage with
    | free turn data carries still trace =>
      cases turn with
      | wait addr pops shows =>
        refine .behind item addr (.inr ⟨rfl,idx,incomplete⟩) ?_ idx shows carries still trace
        exact congrArg (· ++ [item]) pops.symm
      | taken h addr pops addrIdx shows =>
        obtain rfl := same.concat pops rfl
        refine .both h .nonseq 0 ⟨addr,pops,addrIdx,Nat.zero_le _,?_,shows⟩ (.inr ⟨rfl,idx,incomplete⟩) idx carries
          still trace
        intro busy
        cases busy
    | behind h addr data => exact (works data).elim
    | both h phase i beat data => exact (works data).elim
    | armed h phase i beat data | after h phase i beat data => exact (busy data).elim
    | late h turn data => exact (busy data).elim

theorem stage_dataSwap {s : Driver aw dw} {pos : Pos aw dw} {owed : Option (Beat dw)} (quiet : Quiet s)
    (stage : Stage s pos owed) : Stage (s.step .dataSwap) pos owed := by
  -- only between taking an item and listening on it is there anything to do
  have ready (item : Handle aw dw) (swaps : s.data = .swap item) : (∃ h, Works s h) ∧
      ((s.status item).dataIdx = 0 ∧ (s.status item).dataComplete = false) := by
    have works {h : Handle aw dw} (data : Works s h) :
        (s.status item).dataIdx = 0 ∧ (s.status item).dataComplete = false := by
      rcases data with listens | ⟨swaps',fresh⟩
      · rw [swaps] at listens
        cases listens
      · rw [swaps] at swaps'
        cases swaps'
        exact fresh
    have idle {P : Prop} {h : Handle aw dw} (listens : s.data = .listen h []) : P := by
      rw [swaps] at listens
      cases listens
    cases stage with
    | free turn data =>
      rw [swaps] at data
      cases data
    | behind h addr data => exact ⟨⟨h,data⟩,works data⟩
    | both h phase i beat data => exact ⟨⟨h,data⟩,works data⟩
    | armed h phase i beat data | after h phase i beat data => exact idle data
    | late h turn data => exact idle data
  have effect := step_effect s .dataSwap
  generalize s.step .dataSwap = s' at effect ⊢
  cases effect with
  | stutter => exact stage
  | dataSkip item swaps done =>
    obtain ⟨retry,split,error⟩ := quiet.flags item.id
    have complete := (ready item swaps).2.2
    rw [status] at done complete
    simp [retry,split,error,complete] at done
  | dataEmpty item swaps clean ended =>
    rw [(ready item swaps).2.1] at ended
    exact absurd ended (Nat.not_lt_zero _)
  | dataStart item swaps =>
    cases stage with
    | free turn data =>
      rw [swaps] at data
      cases data
    | behind h addr data pops idx shows carries still trace =>
      obtain rfl : item = h := by
        have same := works_item data
        rw [swaps] at same
        exact Option.some.inj same
      exact .behind item addr (.inl rfl) pops idx shows carries still trace
    | both h phase i beat data idx carries still trace =>
      obtain rfl : item = h := by
        have same := works_item data
        rw [swaps] at same
        exact Option.some.inj same
      obtain ⟨addr,pops,addrIdx,bound,paused,shows⟩ := beat
      exact .both item phase i ⟨addr,pops,addrIdx,bound,paused,shows⟩ (.inl rfl) idx carries still trace
    | armed h phase i beat data | after h phase i beat data =>
      rw [swaps] at data
      cases data
    | late h turn data =>
      rw [swaps] at data
      cases data

/-! ### Edges -/

theorem carries_none (vif : Vif aw dw) : Carries vif none := by
  intro d owed
  cases owed

/-- At an edge both threads listen, or neither does. -/
theorem stage_posedge {s : Driver aw dw} {pos : Pos aw dw} {owed : Option (Beat dw)} (sound : Sound s)
    (stage : Stage s pos owed) (sig : Sig) : ∃ pos owed, Stage (s.step (.posedge sig)) pos owed := by
  have effect := step_effect s (.posedge sig)
  generalize s.step (.posedge sig) = s' at effect ⊢
  cases effect with
  | stutter => exact ⟨pos,owed,stage⟩
  | posedge _ settled =>
    obtain ⟨addrStill,dataStill,forks,addrDone,dataDone⟩ := settled
    have counts := sound.conserved.counts forks
    let c : Cycle aw dw := ⟨s.vif,sig,s.presented⟩
    cases stage with
    | free turn data carries still trace =>
      cases turn with
      | wait addr pops shows =>
        cases ready : sig.hready with
        | true =>
          refine ⟨.idle,none,.free (.wait addr pops shows) data (carries_none _) ?_
            (trace.idle c ⟨shows,carries⟩ ready)⟩
          dsimp only
          rw [addr,data]
          exact ⟨rfl,rfl⟩
        | false =>
          refine ⟨.idle,owed,.free (.wait addr pops shows) data carries ?_ (trace.wait c ⟨shows,carries⟩ ready)⟩
          dsimp only
          rw [addr,data]
          exact ⟨rfl,rfl⟩
      | taken h addr pops =>
        rw [data] at dataDone
        rw [dataDone,pops,List.length_append] at counts
        simp at counts
        omega
    | behind h addr data pops =>
      rw [addr] at addrDone
      rw [addrDone,pops,List.length_append] at counts
      simp at counts
      omega
    | both h phase i beat data idx carries still trace =>
      rcases data with listens | ⟨swaps,_⟩
      · refine ⟨posAt h phase i,owed,.armed h phase i ?_ listens idx carries ?_ c s.cycles rfl ⟨rfl,rfl⟩ trace⟩
        · exact ⟨beat.addr,beat.pops,beat.idx,beat.bound,beat.paused,beat.shows⟩
        · dsimp only
          rw [beat.addr,listens]
          exact ⟨rfl,rfl⟩
      · rw [swaps] at dataDone
        exact dataDone.elim
    | armed h phase i beat data idx carries both =>
      rw [both.1] at addrStill
      cases addrStill
    | after h phase i beat data due half =>
      rw [half.2] at dataStill
      cases dataStill
    | late h turn data idx high half =>
      rw [half.2] at dataStill
      cases dataStill

theorem stage_atEdge {s : Driver aw dw} {pos : Pos aw dw} {owed : Option (Beat dw)} (stage : Stage s pos owed)
    (armed : s.addrArmed = true) : ∃ h phase i, pos = posAt h phase i ∧ OnBeat s h phase i ∧
      s.data = .listen h [] ∧ (s.status h).dataIdx = i ∧ Carries s.vif owed ∧ s.dataArmed = true ∧
      ∃ c before, s.cycles = before ++ [c] ∧ c.sig = s.sig ∧
        (Presents c.vif (posAt h phase i) ∧ Carries c.vif owed) ∧
        AhbTrace (s.addrPops.map Handle.trx) (posAt h phase i) owed before := by
  have unarmed {P : Prop} (still : s.addrArmed = false) : P := by
    rw [armed] at still
    cases still
  cases stage with
  | free turn data carries still => exact unarmed still.1
  | behind h addr data pops idx shows carries still => exact unarmed still.1
  | both h phase i beat data idx carries still => exact unarmed still.1
  | armed h phase i beat data idx carries both c before cycles sampled trace =>
    refine ⟨h,phase,i,rfl,beat,data,idx,carries,both.2,c,before,cycles,sampled.2,?_,trace⟩
    rw [sampled.1]
    exact ⟨beat.shows,carries⟩
  | after h phase i beat data due half => exact unarmed half.1
  | late h turn data idx high half => exact unarmed half.1

theorem presents_controls {vif : Vif aw dw} {h : Handle aw dw} {phase : OkayPhase} {i : Nat}
    (shows : Presents vif (posAt h phase i)) : Controls vif h.trx := by
  cases phase with
  | nonseq | seq | busy => exact shows.2.2

theorem presents_next {vif : Vif aw dw} {h : Handle aw dw} {i : Nat} (controls : Controls vif h.trx)
    (later : 0 < i) (busy : Bool) :
    Presents {vif with haddr := h.trx.addrs.getD i 0, htrans := if busy then .busy else .seq}
      (posAt h (if busy then .busy else .seq) i) := by
  cases busy with
  | true => exact ⟨rfl,rfl,controls⟩
  | false =>
    refine ⟨rfl,?_,controls⟩
    rw [if_neg (Nat.ne_of_gt later)]
    rfl

theorem stage_addrEdge {s : Driver aw dw} {pos : Pos aw dw} {owed : Option (Beat dw)} (quiet : Quiet s)
    (stage : Stage s pos owed) (opt : Bool) : ∃ pos owed, Stage (s.step (.addrEdge opt)) pos owed := by
  have effect := step_effect s (.addrEdge opt)
  generalize s.step (.addrEdge opt) = s' at effect ⊢
  cases effect with
  | stutter => exact ⟨pos,owed,stage⟩
  | addrStay _ item phase' firsts armed listens waits =>
    obtain ⟨h,phase,i,rfl,beat,data,idx,carries,dataArmed,c,before,cycles,sampled,shown,trace⟩ :=
      stage_atEdge stage armed
    obtain ⟨grant,okay⟩ := quiet.sig (.inl armed)
    have low := waits grant okay
    refine ⟨posAt h phase i,owed,.after h phase i ?_ data (.held low idx carries) ⟨rfl,dataArmed⟩ ?_⟩
    · exact ⟨beat.addr,beat.pops,beat.idx,beat.bound,beat.paused,beat.shows⟩
    · have held := trace.wait c shown (by rw [sampled,low])
      exact cycles ▸ held
  | addrLast _ item phase' firsts armed listens okay last =>
    obtain ⟨h,phase,i,rfl,beat,data,idx,carries,dataArmed,c,before,cycles,sampled,shown,trace⟩ :=
      stage_atEdge stage armed
    obtain ⟨rfl,rfl,rfl⟩ : item = h ∧ phase' = phase ∧ firsts = [] := by
      simpa using listens.symm.trans beat.addr
    rw [accepted,beat.idx] at last
    have bound := beat.bound
    split at last
    · omega
    · rename_i free
      obtain rfl : i = item.trx.bstLen := by omega
      have shape : posAt item phase' item.trx.bstLen = .beat item.trx item.trx.bstLen := if_neg free
      rw [shape] at shown trace
      refine ⟨.idle,_,.late item (.wait rfl beat.pops rfl) data ?_ okay.2.2 ⟨rfl,dataArmed⟩ ?_⟩
      · dsimp only [status]
        rw [Heap.modify_get_self]
        exact ⟨by rw [accepted,if_neg free]; exact congrArg (· + 1) beat.idx,idx⟩
      · have finished := trace.last c shown (by rw [sampled,okay.2.2])
        exact cycles ▸ finished
  | addrNext _ item phase' firsts busy armed listens okay more =>
    obtain ⟨h,phase,i,rfl,beat,data,idx,carries,dataArmed,c,before,cycles,sampled,shown,trace⟩ :=
      stage_atEdge stage armed
    obtain ⟨rfl,rfl,rfl⟩ : item = h ∧ phase' = phase ∧ firsts = [] := by
      simpa using listens.symm.trans beat.addr
    have high : c.sig.hready = true := by rw [sampled,okay.2.2]
    have later : 0 < accepted phase' (s.status item) := by
      rw [accepted,beat.idx]
      split
      · exact beat.paused ‹_›
      · exact Nat.succ_pos i
    have next := presents_next (presents_controls beat.shows) later busy
    have follows (k : Nat) : posAt item (if busy then .busy else .seq) k = .beat item.trx k ∨
        posAt item (if busy then .busy else .seq) k = .busy item.trx k := by
      cases busy
      · exact .inl rfl
      · exact .inr rfl
    refine ⟨posAt item (if busy then .busy else .seq) (accepted phase' (s.status item)),
      if phase' = .busy then none else item.trx.payload i,
      .after item (if busy then .busy else .seq) (accepted phase' (s.status item)) ?_ data ?_ ⟨rfl,dataArmed⟩ ?_⟩
    · refine ⟨rfl,beat.pops,?_,more,fun _ => later,next⟩
      dsimp only [status]
      rw [Heap.modify_get_self]
    · by_cases paused : phase' = .busy
      · rw [if_pos paused]
        refine .paused okay.2.2 ?_
        dsimp only [status]
        rw [Heap.modify_get_self,accepted,if_pos paused]
        exact idx.trans beat.idx.symm
      · rw [if_neg paused]
        refine .beat i okay.2.2 ?_ ?_
        · rw [accepted,if_neg paused,beat.idx]
        · dsimp only [status]
          rw [Heap.modify_get_self]
          exact idx
    · dsimp only
      rw [cycles]
      by_cases paused : phase' = .busy
      · have shape : posAt item phase' i = .busy item.trx i := if_pos paused
        rw [shape] at shown trace
        rw [accepted,if_pos paused,beat.idx,if_pos paused]
        exact trace.busy c shown high _ (follows i)
      · have shape : posAt item phase' i = .beat item.trx i := if_neg paused
        rw [shape] at shown trace
        rw [accepted,if_neg paused,beat.idx] at more ⊢
        rw [if_neg paused]
        exact trace.next c shown high (by omega) _ (follows (i+1))
  | addrError _ _ _ _ armed _ first => exact absurd (quiet.sig (.inl armed)).2 (ne_okay_of_error first.2.1)
  | addrRedrive _ _ _ _ armed _ resp => exact absurd (quiet.sig (.inl armed)).2 (ne_okay_of_redrive resp)
  | addrSecond _ _ _ _ armed _ resp => exact absurd (quiet.sig (.inl armed)).2 resp

theorem turn_keep {s s' : Driver aw dw} {pos : Pos aw dw} (turn : Turn s pos)
    (addrSide : s'.addr = s.addr ∧ s'.addrPops = s.addrPops ∧ s'.dataPops = s.dataPops)
    (idx : ∀ h, (s'.status h).addrIdx = (s.status h).addrIdx)
    (vif : Presents s'.vif pos ↔ Presents s.vif pos) : Turn s' pos := by
  obtain ⟨thread,addrPops,dataPops⟩ := addrSide
  cases turn with
  | wait addr pops shows =>
    exact .wait (thread.trans addr) (by rw [addrPops,dataPops]; exact pops) (vif.mpr shows)
  | taken h addr pops here shows =>
    exact .taken h (thread.trans addr) (by rw [addrPops,dataPops]; exact pops) ((idx h).trans here)
      (vif.mpr shows)

theorem presents_hwdata (vif : Vif aw dw) (data : Beat dw) (pos : Pos aw dw) :
    Presents {vif with hwdata := data} pos ↔ Presents vif pos := by
  cases pos <;> rfl

theorem carries_payload (vif : Vif aw dw) (x : Trx aw dw) (k : Nat) :
    Carries {vif with hwdata := if x.trsT = .wr then x.dataBeat.getD k default else vif.hwdata} (x.payload k) := by
  intro d owed
  rw [Trx.payload] at owed
  split at owed
  · rename_i wr
    rw [← Option.some.inj owed]
    exact if_pos wr
  · cases owed

theorem stage_dataEdge {s : Driver aw dw} {pos : Pos aw dw} {owed : Option (Beat dw)} (quiet : Quiet s)
    (first : s.addrArmed = false) (stage : Stage s pos owed) : Stage (s.step .dataEdge) pos owed := by
  have effect := step_effect s .dataEdge
  generalize s.step .dataEdge = s' at effect ⊢
  have unarmed {P : Prop} (armed : s.dataArmed = true) (still : s.dataArmed = false) : P := by
    rw [armed] at still
    cases still
  cases effect with
  | stutter => exact stage
  | dataFirst _ _ armed _ resp | dataSecond _ _ armed _ resp => exact absurd (quiet.sig (.inr armed)).2 resp
  | dataStay item firsts armed listens waits =>
    have okay := (quiet.sig (.inr armed)).2
    cases stage with
    | free turn data carries still | behind h addr data pops idx shows carries still
    | both h phase i beat data idx carries still => exact unarmed armed still.2
    | armed h phase i beat data idx carries both =>
      rw [first] at both
      cases both.1
    | after h phase i beat data due half trace =>
      have beat' : OnBeat {s with dataArmed := false} h phase i :=
        ⟨beat.addr,beat.pops,beat.idx,beat.bound,beat.paused,beat.shows⟩
      cases due with
      | held low idx carries => exact .both h phase i beat' (.inl data) idx carries ⟨half.1,rfl⟩ trace
      | paused high idx => exact .both h phase i beat' (.inl data) idx (carries_none _) ⟨half.1,rfl⟩ trace
      | beat k high before idx =>
        obtain ⟨rfl,rfl⟩ : item = h ∧ firsts = [] := by simpa using listens.symm.trans data
        have caught := (waits okay high).1
        rw [beat.idx,idx] at caught
        omega
    | late h turn data idx high half trace =>
      obtain ⟨rfl,rfl⟩ : item = h ∧ firsts = [] := by simpa using listens.symm.trans data
      have caught := (waits okay high).1
      rw [idx.1,idx.2] at caught
      omega
  | dataOver item firsts armed listens okay caught ended =>
    cases stage with
    | free turn data carries still | behind h addr data pops idx shows carries still
    | both h phase i beat data idx carries still => exact unarmed armed still.2
    | armed h phase i beat data idx carries both =>
      rw [first] at both
      cases both.1
    | after h phase i beat data due half trace =>
      obtain ⟨rfl,rfl⟩ : item = h ∧ firsts = [] := by simpa using listens.symm.trans data
      have bound := beat.bound
      rw [beat.idx] at caught
      cases due with
      | held low idx | paused high idx | beat k high before idx => omega
    | late h turn data idx high half trace =>
      obtain ⟨rfl,rfl⟩ : item = h ∧ firsts = [] := by simpa using listens.symm.trans data
      omega
  | dataDrive item firsts armed listens okay behind =>
    cases stage with
    | free turn data carries still | behind h addr data pops idx shows carries still
    | both h phase i beat data idx carries still => exact unarmed armed still.2
    | armed h phase i beat data idx carries both =>
      rw [first] at both
      cases both.1
    | after h phase i beat data due half trace =>
      obtain ⟨rfl,rfl⟩ : item = h ∧ firsts = [] := by simpa using listens.symm.trans data
      have bound := beat.bound
      rw [beat.idx] at behind
      cases due with
      | held low =>
        rw [okay.2] at low
        cases low
      | paused high idx => omega
      | beat k high before idx =>
        have more : ¬ item.trx.bstLen ≤ (s.status item).dataIdx := by omega
        refine .both item phase i ⟨beat.addr,beat.pops,?_,beat.bound,beat.paused,?_⟩ (.inl (if_neg more)) ?_ ?_
          ⟨half.1,rfl⟩ trace
        · dsimp only [status]
          rw [Heap.modify_get_self]
          exact beat.idx
        · exact (presents_hwdata _ _ _).mpr beat.shows
        · dsimp only [status]
          rw [Heap.modify_get_self]
          exact (congrArg (· + 1) idx).trans before
        · dsimp only
          rw [idx]
          exact carries_payload s.vif item.trx k
    | late h turn data idx high half trace =>
      obtain ⟨rfl,rfl⟩ : item = h ∧ firsts = [] := by simpa using listens.symm.trans data
      refine .free ?_ (if_pos (Nat.le_of_eq idx.2.symm)) ?_ ⟨half.1,rfl⟩ trace
      · refine turn_keep turn ⟨rfl,rfl,rfl⟩ (fun other => ?_) (presents_hwdata _ _ _)
        dsimp only [status]
        refine Heap.modify_get_field _ _ _ _ Status.addrIdx ?_
        exact fun _ => rfl
      · dsimp only
        rw [idx.2]
        exact carries_payload s.vif item.trx item.trx.bstLen

/-! ### Runs -/

theorem initial_stage (hasBusy : Bool) : Stage (initial hasBusy : Driver aw dw) .idle none :=
  .free (.wait rfl rfl rfl) rfl (carries_none _) ⟨rfl,rfl⟩ .start

theorem step_stage (s : Driver aw dw) (a : Action aw dw) (sound : Sound s) (quiet : Quiet s)
    (smooth : Smooth s a) (same : SameOrder (s.step a)) (stage : ∃ pos owed, Stage s pos owed) :
    ∃ pos owed, Stage (s.step a) pos owed := by
  obtain ⟨pos,owed,stage⟩ := stage
  have framed (frame : Frame s (s.step a)) : ∃ pos owed, Stage (s.step a) pos owed :=
    ⟨pos,owed,stage_frame frame stage⟩
  cases a with
  | posedge sig => exact stage_posedge sound stage sig
  | addrEdge opt => exact stage_addrEdge quiet stage opt
  | dataEdge => exact ⟨pos,owed,stage_dataEdge quiet smooth stage⟩
  | addrGet =>
    obtain ⟨pos,stage⟩ := stage_addrGet sound stage same
    exact ⟨pos,owed,stage⟩
  | dataGet => exact ⟨pos,owed,stage_dataGet sound stage same⟩
  | dataSwap => exact ⟨pos,owed,stage_dataSwap quiet stage⟩
  | driveBus req =>
    apply framed
    have effect := step_effect s (.driveBus req)
    generalize s.step (.driveBus req) = s' at effect ⊢
    cases effect with
    | stutter => exact ⟨⟨rfl,rfl⟩,⟨rfl,rfl⟩,⟨rfl,rfl⟩,⟨rfl,rfl,rfl⟩,fun _ _ => rfl⟩
    | driveBus =>
      refine ⟨⟨rfl,rfl⟩,⟨rfl,rfl⟩,⟨rfl,rfl⟩,⟨rfl,rfl,rfl⟩,fun h item => ?_⟩
      exact alloc_status sound.objects (item.elim sound.objects.addrItem sound.objects.dataItem) _
  | pushAddr k | pushData k =>
    apply framed
    rw [step]
    split
    · split <;> exact ⟨⟨rfl,rfl⟩,⟨rfl,rfl⟩,⟨rfl,rfl⟩,⟨rfl,rfl,rfl⟩,fun _ _ => rfl⟩
    · exact ⟨⟨rfl,rfl⟩,⟨rfl,rfl⟩,⟨rfl,rfl⟩,⟨rfl,rfl,rfl⟩,fun _ _ => rfl⟩

/-- Once the address thread has looked at the last edge, the cycles so far are the trace of
the items taken. -/
theorem stage_trace {s : Driver aw dw} {pos : Pos aw dw} {owed : Option (Beat dw)} (stage : Stage s pos owed)
    (looked : s.addrArmed = false) : AhbTrace (s.addrPops.map Handle.trx) pos owed s.cycles := by
  cases stage with
  | free turn data carries still trace => exact trace
  | behind h addr data pops idx shows carries still trace => exact trace
  | both h phase i beat data idx carries still trace => exact trace
  | armed h phase i beat data idx carries both =>
    rw [looked] at both
    cases both.1
  | after h phase i beat data due half trace => exact trace
  | late h turn data idx high half trace => exact trace

/-- With the bus granted, `OKAY` responses and items taken in one order, the cycles on the
bus are the trace of the items. -/
theorem cycles_ahbTrace (hasBusy : Bool) (actions : List (Action aw dw))
    (smooth : Machine.Meets step Smooth (.initial hasBusy) actions) (same : SameOrder (after hasBusy actions))
    (looked : (after hasBusy actions).addrArmed = false) :
    ∃ pos owed, AhbTrace ((after hasBusy actions).addrPops.map Handle.trx) pos owed
      (after hasBusy actions).cycles := by
  let inv (s : Driver aw dw) : Prop := Sound s ∧ Quiet s ∧ (SameOrder s → ∃ pos owed, Stage s pos owed)
  have keep (s : Driver aw dw) (a : Action aw dw) (held : inv s) (smooth : Smooth s a) : inv (s.step a) :=
    ⟨step_sound s a held.1,step_quiet s a held.2.1 smooth,
      fun same => step_stage s a held.1 held.2.1 smooth same (held.2.2 same.before)⟩
  have initial : inv (initial hasBusy) :=
    ⟨initial_sound hasBusy,initial_quiet hasBusy,fun _ => ⟨.idle,none,initial_stage hasBusy⟩⟩
  have held : inv (after hasBusy actions) := Machine.run_invariant keep initial smooth
  obtain ⟨pos,owed,stage⟩ := held.2.2 same
  exact ⟨pos,owed,stage_trace stage looked⟩

/-- An edge, and the threads that look at it. -/
def edge (ready opt : Bool) : List (Action 8 8) :=
  [.posedge ⟨true,ready,.okay⟩,.addrEdge opt,.dataEdge]

/-- A write of two beats with a wait state and a pause, and a single write. -/
def paced : List (Action 8 8) :=
  arrive {single 0 1 with addrs := [4,8], dataBeat := [fun _ => 1,fun _ => 2], bstLen := 1} ++
    [.addrGet,.dataGet,.dataSwap] ++ edge false true ++ edge true false ++ edge true true ++
    arrive (single 0 3) ++ edge true true ++ [.dataGet,.addrGet,.dataSwap] ++ edge true true ++ edge true true

theorem paced_ahbTrace : ∃ pos owed,
    AhbTrace ((after true paced).addrPops.map Handle.trx) pos owed (after true paced).cycles :=
  cycles_ahbTrace true paced (by decide) (by decide) (by decide)

end Smtdv.Ahb.Driver
