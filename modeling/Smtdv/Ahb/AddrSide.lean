import Smtdv.Ahb.DataPhase

/-! The address thread against the bus: what it has charged and what it presents. -/
namespace Smtdv.Ahb
open Lib

variable {aw dw : Nat}

/-- A response whose second cycle is to come is in the data phase of a beat. -/
def Watch.Regular (w : Watch aw dw) : Prop :=
  ∀ r, w.pending = some r → r ≠ .okay ∧ ∃ h i, w.data = some (h,i) ∧ (h,r) ∈ w.responses

theorem Watch.next_regular (w : Watch aw dw) (c : Cycle aw dw) (allowed : w.Allows c.sig) :
    (w.next c).Regular := by
  intro r pending
  rw [Watch.next] at pending
  dsimp only at pending
  split at pending
  · rename_i first
    obtain rfl := Option.some.inj pending
    have parts : c.sig.hready = false ∧ c.sig.hresp ≠ .okay := by simpa [Sig.first] using first
    refine ⟨parts.2,?_⟩
    rw [Watch.Allows] at allowed
    split at allowed
    · rw [parts.1] at allowed
      cases allowed.1
    · obtain ⟨⟨h,i⟩,data⟩ := Option.isSome_iff_exists.mp (allowed.resolve_left parts.2).2
      exact ⟨h,i,by simp [Watch.next,parts.1,data],by simp [Watch.next,first,data]⟩
  · cases pending

theorem Watch.next_okay (w : Watch aw dw) (c : Cycle aw dw) (okay : c.sig.hresp = .okay) :
    w.next c = ⟨if c.sig.hready then (if c.sig.hgrant then c.beat else none) else w.data,none,w.responses⟩ := by
  simp [Watch.next,Sig.first,okay]

/-- `OKAY` comes only when no second cycle is to come. -/
theorem Watch.Regular.pending_okay {w : Watch aw dw} (regular : w.Regular) {sig : Sig} (allowed : w.Allows sig)
    (okay : sig.hresp = .okay) : w.pending = none := by
  cases pending : w.pending with
  | none => rfl
  | some r =>
    rw [Watch.Allows,pending] at allowed
    exact absurd (allowed.2.symm.trans okay) (regular r pending).1

theorem Watch.Allows.pending_low {w : Watch aw dw} {sig : Sig} (allowed : w.Allows sig)
    (low : sig.hready = false) : w.pending = none := by
  cases pending : w.pending with
  | none => rfl
  | some r =>
    rw [Watch.Allows,pending,low] at allowed
    cases allowed.1

def OkayPhase.htrans : OkayPhase → HTrans
  | .nonseq => .nonseq
  | .busy => .busy
  | .seq => .seq

def AddrThread.listening : AddrThread aw dw → Bool
  | .listen _ _ _ => true
  | .wait => false

namespace Driver

/-- What a thread has seen of the bus when it still is to look at the last cycle, or is not. -/
def seen (armed : Bool) (cycles : List (Cycle aw dw)) : Watch aw dw :=
  watch (if armed then cycles.dropLast else cycles)

@[simp] theorem seen_still (cycles : List (Cycle aw dw)) : seen false cycles = watch cycles := rfl

@[simp] theorem seen_armed (before : List (Cycle aw dw)) (c : Cycle aw dw) :
    seen true (before ++ [c]) = watch before := by
  simp [seen]

/-- The last cycle, when a thread still is to look at it. -/
structure Edge (s : Driver aw dw) (before : List (Cycle aw dw)) (c : Cycle aw dw) : Prop where
  cycles : s.cycles = before ++ [c]
  sig : c.sig = s.sig
  regular : (watch before).Regular
  allowed : (watch before).Allows c.sig
  granted : c.sig.hresp ≠ .okay → c.sig.hgrant = true
  early : c.sig.first = true → ∃ h i, (watch before).data = some (h,i) ∧ i < h.trx.bstLen
  works : s.addrArmed = true → s.addr ≠ .wait
  shown : s.addrArmed = true → c.beat = s.presented
  inData : ∀ h i, (watch before).data = some (h,i) → h ∈ s.objects

/-- Every item the address thread has taken is the one it listens on, charged with the
responses whose second cycle is to come, or is complete; and the flags of an item from the
sequencer are the responses it is charged with. -/
structure Accounts (s : Driver aw dw) : Prop where
  known : ∀ h r, (h,r) ∈ s.charged → h ∈ s.addrPops
  pops : ∀ h ∈ s.addrPops,
    (∃ phase firsts, s.addr = .listen h phase firsts ∧ ∀ r, (h,r) ∈ s.charged ↔ r ∈ firsts) ∨
      (s.status h).addrComplete = true ∧ ((s.status h).addrIdx = h.trx.bstLen + 1 ∨ ∃ r, (h,r) ∈ s.charged)
  marked : ∀ h r, (h,r) ∈ s.charged → (s.status h).flag r = true
  unmarked : ∀ h ∈ s.taken, ∀ r, (s.status h).flag r = true → (h,r) ∈ s.charged

structure AddrSide (s : Driver aw dw) : Prop where
  listens : ∀ h phase firsts, s.addr = .listen h phase firsts →
    (s.status h).addrIdx ≤ h.trx.bstLen ∧ (s.status h).addrComplete = false ∧
      firsts = (seen s.addrArmed s.cycles).pending.toList ∧ (∃ before, s.addrPops = before ++ [h]) ∧
      s.vif.htrans = if firsts = [] then phase.htrans else .idle
  waits : s.addr = .wait → (seen s.addrArmed s.cycles).pending = none
  beat : ∀ h i, (seen s.addrArmed s.cycles).data = some (h,i) →
    h ∈ s.addrPops ∧ (s.status h).addrIdx = i + 1 ∧ (i < h.trx.bstLen → s.addr.item? = some h)
  charged : s.charged = (seen s.addrArmed s.cycles).responses
  accounts : Accounts s

theorem initial_accounts (hasBusy : Bool) : Accounts (initial hasBusy : Driver aw dw) where
  known h r member := by cases member
  pops h member := by cases member
  marked h r member := by cases member
  unmarked h member := by cases member

theorem initial_addrSide (hasBusy : Bool) : AddrSide (initial hasBusy : Driver aw dw) where
  listens h phase firsts listens := by cases listens
  waits _ := rfl
  beat h i data := by cases data
  charged := rfl
  accounts := initial_accounts hasBusy

/-! ### Steps of the others -/

/-- A step that the address thread does not notice. -/
structure Unnoticed (s s' : Driver aw dw) : Prop where
  thread : s'.addr = s.addr ∧ s'.addrArmed = s.addrArmed ∧ s'.addrPops = s.addrPops
  bus : s'.cycles = s.cycles ∧ s'.vif.htrans = s.vif.htrans ∧ s'.charged = s.charged
  old : ∀ h ∈ s.objects, (s'.status h).addrIdx = (s.status h).addrIdx ∧
    (s'.status h).addrComplete = (s.status h).addrComplete ∧ ∀ r, (s'.status h).flag r = (s.status h).flag r
  new : ∀ h ∈ s'.taken, h ∉ s.objects → ∀ r, (s'.status h).flag r = false
  taken : ∀ h ∈ s'.taken, h ∈ s.taken ∨ h ∉ s.objects

theorem addrPops_known {s : Driver aw dw} (objects : Objects s) {h : Handle aw dw} (member : h ∈ s.addrPops) :
    h ∈ s.objects :=
  objects.known h (inUse_addrPops s member)

theorem accounts_unnoticed {s s' : Driver aw dw} (objects : Objects s) (unnoticed : Unnoticed s s')
    (accounts : Accounts s) : Accounts s' := by
  obtain ⟨⟨addr,_,pops⟩,⟨_,_,charged⟩,old,new,taken⟩ := unnoticed
  constructor
  · intro h r member
    rw [charged] at member
    rw [pops]
    exact accounts.known h r member
  · intro h member
    rw [pops] at member
    have same := old h (addrPops_known objects member)
    rw [addr,charged,same.1,same.2.1]
    exact accounts.pops h member
  · intro h r member
    rw [charged] at member
    rw [(old h (addrPops_known objects (accounts.known h r member))).2.2 r]
    exact accounts.marked h r member
  · intro h member r flag
    rcases taken h member with before | fresh
    · rw [(old h (List.mem_append_left _ before)).2.2 r] at flag
      rw [charged]
      exact accounts.unmarked h before r flag
    · rw [new h member fresh r] at flag
      cases flag

theorem addrSide_unnoticed {s s' : Driver aw dw} (objects : Objects s) (unnoticed : Unnoticed s s')
    (side : AddrSide s) : AddrSide s' := by
  have accounts := accounts_unnoticed objects unnoticed side.accounts
  obtain ⟨⟨addr,armed,pops⟩,⟨cycles,htrans,charged⟩,old,_,_⟩ := unnoticed
  refine ⟨?_,?_,?_,?_,accounts⟩
  · intro h phase firsts listens
    rw [addr] at listens
    have same := old h (objects.addrItem (by rw [listens]; rfl))
    rw [same.1,same.2.1,armed,cycles,pops,htrans]
    exact side.listens h phase firsts listens
  · intro waits
    rw [addr] at waits
    rw [armed,cycles]
    exact side.waits waits
  · intro h i data
    rw [armed,cycles] at data
    obtain ⟨member,idx,here⟩ := side.beat h i data
    rw [pops,(old h (addrPops_known objects member)).1,addr]
    exact ⟨member,idx,here⟩
  · rw [charged,armed,cycles]
    exact side.charged

/-- The steps of the address thread, and the clock. -/
def Own : Action aw dw → Prop
  | .posedge _ | .addrEdge _ | .addrGet => True
  | _ => False

theorem step_unnoticed (s : Driver aw dw) (a : Action aw dw) (objects : Objects s) (other : ¬ Own a) :
    Unnoticed s (s.step a) := by
  have effect := step_effect s a
  generalize s.step a = s' at effect ⊢
  have data (id : Nat) (f : Status → Status) (kept : ∀ status, (f status).addrIdx = status.addrIdx ∧
      (f status).addrComplete = status.addrComplete ∧ ∀ r, (f status).flag r = status.flag r)
      (h : Handle aw dw) : ((s.heap.modify id f).get h.id).addrIdx = (s.status h).addrIdx ∧
        ((s.heap.modify id f).get h.id).addrComplete = (s.status h).addrComplete ∧
        ∀ r, ((s.heap.modify id f).get h.id).flag r = (s.status h).flag r :=
    ⟨Heap.modify_get_field _ _ _ f Status.addrIdx fun status => (kept status).1,
      Heap.modify_get_field _ _ _ f Status.addrComplete fun status => (kept status).2.1,
      fun r => Heap.modify_get_field _ _ _ f (fun status => status.flag r) fun status => (kept status).2.2 r⟩
  have known (h : Handle aw dw) (member : h ∈ s.taken) (new : h ∉ s.objects) {P : Prop} : P :=
    absurd (List.mem_append_left _ member) new
  cases effect with
  | stutter | dataStay | dataFirst | pushAddr | pushData | dataTake | dataSkip | dataStart =>
    refine ⟨⟨rfl,rfl,rfl⟩,⟨rfl,rfl,rfl⟩,fun _ _ => ⟨rfl,rfl,fun _ => rfl⟩,?_,fun _ member => .inl member⟩
    exact fun h member new => known h member new
  | dataOver | dataDrive | dataSecond | dataEmpty =>
    refine ⟨⟨rfl,rfl,rfl⟩,⟨rfl,rfl,rfl⟩,fun h _ => ?_,?_,fun _ member => .inl member⟩
    · dsimp only [status]
      refine data _ _ ?_ h
      exact fun _ => ⟨rfl,rfl,fun r => by cases r <;> rfl⟩
    · exact fun h member new => known h member new
  | driveBus req =>
    refine ⟨⟨rfl,rfl,rfl⟩,⟨rfl,rfl,rfl⟩,fun h there => ?_,fun h member new r => ?_,fun h member => ?_⟩
    · dsimp only [status]
      rw [alloc_status objects there]
      exact ⟨rfl,rfl,fun _ => rfl⟩
    · rcases List.mem_append.mp member with before | made
      · exact known h before new
      · rw [List.mem_singleton.mp made]
        dsimp only [status]
        rw [Heap.alloc_get_next]
        cases r <;> rfl
    · rcases List.mem_append.mp member with before | made
      · exact .inl before
      · rw [List.mem_singleton.mp made]
        exact .inr (objects_new s objects _ rfl)
  | _ => exact absurd trivial other

theorem presented_unnoticed {s s' : Driver aw dw} (objects : Objects s) (unnoticed : Unnoticed s s') :
    s'.presented = s.presented := by
  obtain ⟨⟨addr,_,_⟩,⟨_,htrans,_⟩,old,_,_⟩ := unnoticed
  rw [presented,presented,addr,htrans]
  rcases s.addr.wait_or_listen with waits | ⟨item,phase,firsts,listens⟩
  · rw [waits]
    cases s.vif.htrans <;> rfl
  · rw [listens]
    have same := (old item (objects.addrItem (by rw [listens]; rfl))).1
    cases s.vif.htrans <;> simp [same]

/-! ### Steps of the address thread -/

theorem addrSide_addrGet {s : Driver aw dw} (sound : Sound s) (side : AddrSide s) : AddrSide (s.step .addrGet) := by
  have effect := step_effect s .addrGet
  generalize s.step .addrGet = s' at effect ⊢
  cases effect with
  | stutter => exact side
  | addrSkip item rest waits sorted complete =>
    have incomplete := (sound.untaken_addr item rest sorted).2
    rw [complete] at incomplete
    cases incomplete
  | addrTake item rest waits sorted incomplete =>
    have fresh := sound.conserved.addr_fresh item rest sorted
    have free : s.addr.item? = none := by rw [waits]; rfl
    constructor
    · intro h phase firsts listens
      cases listens
      refine ⟨?_,incomplete,?_,⟨s.addrPops,rfl⟩,rfl⟩
      · change (s.status item).addrIdx ≤ item.trx.bstLen
        rw [(sound.untaken_addr item rest sorted).1]
        exact Nat.zero_le _
      · rw [side.waits waits]
        rfl
    · intro waits'
      cases waits'
    · intro h i data
      obtain ⟨member,idx,here⟩ := side.beat h i data
      refine ⟨List.mem_append_left _ member,idx,fun more => ?_⟩
      rw [free] at here
      cases here more
    · exact side.charged
    · obtain ⟨known,pops,marked,unmarked⟩ := side.accounts
      refine ⟨fun h r member => List.mem_append_left _ (known h r member),fun h member => ?_,marked,unmarked⟩
      rcases List.mem_append.mp member with before | new
      · rcases pops h before with ⟨phase,firsts,listens,_⟩ | complete
        · rw [waits] at listens
          cases listens
        · exact .inr complete
      · obtain rfl := List.mem_singleton.mp new
        refine .inl ⟨.nonseq,[],rfl,fun r => ⟨fun charged => ?_,fun none => by cases none⟩⟩
        exact absurd (known h r charged) fresh

/-- When the address thread waits, nothing but `OKAY` is to be seen. -/
theorem addrSide_waits {s : Driver aw dw} (side : AddrSide s) (still : s.addrArmed = false)
    (waits : s.addr = .wait) (sig : Sig) (allowed : (watch s.cycles).Allows sig)
    (early : sig.first = true → ∃ h i, (watch s.cycles).data = some (h,i) ∧ i < h.trx.bstLen) :
    sig.hresp = .okay := by
  have pending := side.waits waits
  rw [still,seen_still] at pending
  rw [Watch.Allows,pending] at allowed
  rcases allowed with okay | ⟨low,_⟩
  · exact okay
  · by_contra resp
    obtain ⟨h,i,data,more⟩ := early (by simp [Sig.first,low,resp])
    have here := (side.beat h i (by rw [still]; exact data)).2.2 more
    rw [waits] at here
    cases here

theorem presented_waits {s : Driver aw dw} (waits : s.addr = .wait) : s.presented = none := by
  rw [presented,waits]
  cases s.vif.htrans <;> rfl

theorem addrSide_posedge {s : Driver aw dw} (side : AddrSide s) (sig : Sig)
    (allowed : (watch s.cycles).Allows sig)
    (early : sig.first = true → ∃ h i, (watch s.cycles).data = some (h,i) ∧ i < h.trx.bstLen) :
    AddrSide (s.step (.posedge sig)) := by
  have effect := step_effect s (.posedge sig)
  generalize s.step (.posedge sig) = s' at effect ⊢
  cases effect with
  | stutter => exact side
  | posedge _ settled =>
    let c : Cycle aw dw := ⟨s.vif,sig,s.presented⟩
    have still := settled.1
    -- a thread that listens has not looked at the new cycle, and one that waits sees nothing new in it
    have view : seen s.addr.listening (s.cycles ++ [c]) =
        if s.addr.item?.isSome then watch s.cycles else (watch s.cycles).next c := by
      cases s.addr with
      | wait => exact watch_concat s.cycles c
      | listen => exact seen_armed s.cycles c
    have old : seen s.addrArmed s.cycles = watch s.cycles := by rw [still]; rfl
    rcases s.addr.wait_or_listen with thread | ⟨item,phase,firsts,thread⟩
    · have okay := addrSide_waits side still thread sig allowed early
      have same : seen s.addr.listening (s.cycles ++ [c]) =
          ⟨if sig.hready then (if sig.hgrant then none else none) else (watch s.cycles).data,none,
            (watch s.cycles).responses⟩ := by
        have next := Watch.next_okay (watch s.cycles) c okay
        rw [view,thread]
        change (watch s.cycles).next c = _
        rw [next]
        change (⟨if sig.hready then (if sig.hgrant then s.presented else none) else _,_,_⟩ : Watch aw dw) = _
        rw [presented_waits thread]
      obtain ⟨listens,waits,beat,charged,⟨known,pops,marked,unmarked⟩⟩ := side
      refine ⟨?_,?_,?_,?_,⟨known,pops,marked,unmarked⟩⟩
      · intro h phase firsts there
        rw [thread] at there
        cases there
      · exact fun _ => congrArg Watch.pending same
      · intro h i there
        have data := (congrArg Watch.data same).symm.trans there
        rw [old] at beat
        cases ready : sig.hready
        · rw [ready] at data
          exact beat h i data
        · rw [ready] at data
          cases grant : sig.hgrant <;> rw [grant] at data <;> cases data
      · rw [old] at charged
        exact charged.trans (congrArg Watch.responses same).symm
    · have same : seen s.addr.listening (s.cycles ++ [c]) =
          seen s.addrArmed s.cycles := by
        rw [view,old,thread]
        rfl
      obtain ⟨listens,waits,beat,charged,⟨known,pops,marked,unmarked⟩⟩ := side
      rw [← same] at listens waits beat charged
      exact ⟨listens,waits,beat,charged,⟨known,pops,marked,unmarked⟩⟩

theorem presented_listens {s : Driver aw dw} {h : Handle aw dw} {phase : OkayPhase} {firsts : List TrxRsp}
    (listens : s.addr = .listen h phase firsts)
    (htrans : s.vif.htrans = if firsts = [] then phase.htrans else .idle) :
    s.presented = if firsts = [] ∧ phase ≠ .busy then some (h,(s.status h).addrIdx) else none := by
  rw [presented,listens,htrans]
  by_cases none : firsts = []
  · cases phase <;> simp [none,OkayPhase.htrans]
  · simp [none]

theorem presented_idx {s : Driver aw dw} {h : Handle aw dw} {i : Nat} (shown : s.presented = some (h,i)) :
    (s.status h).addrIdx = i := by
  rw [presented] at shown
  split at shown
  · obtain ⟨rfl,idx⟩ := Prod.mk.inj (Option.some.inj shown)
    exact idx
  · obtain ⟨rfl,idx⟩ := Prod.mk.inj (Option.some.inj shown)
    exact idx
  · cases shown

/-- What an edge tells the listeners of the address thread. -/
theorem addrSide_listens {s : Driver aw dw} {before : List (Cycle aw dw)} {c : Cycle aw dw} (side : AddrSide s)
    (edge : Edge s before c) (armed : s.addrArmed = true) {h : Handle aw dw} {phase : OkayPhase}
    {firsts : List TrxRsp} (listens : s.addr = .listen h phase firsts) :
    firsts = (watch before).pending.toList ∧
      c.beat = if firsts = [] ∧ phase ≠ .busy then some (h,(s.status h).addrIdx) else none := by
  obtain ⟨_,_,firsts',_,htrans⟩ := side.listens h phase firsts listens
  rw [armed,edge.cycles,seen_armed] at firsts'
  exact ⟨firsts',(edge.shown armed).trans (presented_listens listens htrans)⟩

/-- An `OKAY` edge: the threads' view moves on by a beat, or not at all. -/
theorem edge_okay {s : Driver aw dw} {before : List (Cycle aw dw)} {c : Cycle aw dw} (edge : Edge s before c)
    (okay : s.sig.hresp = .okay) : (watch before).pending = none ∧ watch s.cycles =
      ⟨if s.sig.hready then (if s.sig.hgrant then c.beat else none) else (watch before).data,none,
        (watch before).responses⟩ := by
  have sampled : c.sig.hresp = .okay := by rw [edge.sig]; exact okay
  refine ⟨edge.regular.pending_okay edge.allowed sampled,?_⟩
  rw [edge.cycles,watch_concat,Watch.next_okay _ _ sampled,edge.sig]

theorem Edge.view {s : Driver aw dw} {before : List (Cycle aw dw)} {c : Cycle aw dw} (edge : Edge s before c)
    (armed : s.addrArmed = true) : seen s.addrArmed s.cycles = watch before := by
  rw [armed,edge.cycles,seen_armed]

theorem AddrSide.here {s : Driver aw dw} (side : AddrSide s) {item : Handle aw dw} {phase : OkayPhase}
    {firsts : List TrxRsp} (listens : s.addr = .listen item phase firsts) : item ∈ s.addrPops := by
  obtain ⟨_,_,_,⟨before,pops⟩,_⟩ := side.listens item phase firsts listens
  rw [pops]
  exact List.mem_append_right _ (List.mem_singleton_self _)

/-- The first cycle of a response, in the data phase of a beat of the item on the bus. -/
theorem edge_first {s : Driver aw dw} {before : List (Cycle aw dw)} {c : Cycle aw dw} (edge : Edge s before c)
    (resp : s.sig.hresp ≠ .okay) (low : s.sig.hready = false) : (watch before).pending = none ∧
      ∃ h i, (watch before).data = some (h,i) ∧ i < h.trx.bstLen ∧ watch s.cycles =
        ⟨some (h,i),some s.sig.hresp,(watch before).responses ++ [(h,s.sig.hresp)]⟩ := by
  have first : c.sig.first = true := by simp [Sig.first,edge.sig,resp,low]
  have ready : c.sig.hready = false := by rw [edge.sig,low]
  obtain ⟨h,i,data,more⟩ := edge.early first
  refine ⟨edge.allowed.pending_low ready,h,i,data,more,?_⟩
  rw [edge.cycles,watch_concat,← edge.sig]
  simp [Watch.next,first,ready,data]

theorem edge_second {s : Driver aw dw} {before : List (Cycle aw dw)} {c : Cycle aw dw} (edge : Edge s before c)
    (resp : s.sig.hresp ≠ .okay) (high : s.sig.hready = true) : (watch before).pending = some s.sig.hresp ∧
      s.sig.hgrant = true ∧ watch s.cycles = ⟨c.beat,none,(watch before).responses⟩ := by
  have ready : c.sig.hready = true := by rw [edge.sig,high]
  have grant : c.sig.hgrant = true := edge.granted (by rw [edge.sig]; exact resp)
  have later : c.sig.first = false := by simp [Sig.first,ready]
  refine ⟨?_,by rw [← edge.sig]; exact grant,?_⟩
  · have allowed := edge.allowed
    rw [Watch.Allows,edge.sig] at allowed
    split at allowed
    · rename_i r pending
      rw [pending,allowed.2]
    · rcases allowed with okay | ⟨low,_⟩
      · exact absurd okay resp
      · rw [high] at low
        cases low
  · rw [edge.cycles,watch_concat]
    simp [Watch.next,later,ready,grant]

/-- The item that the address thread listens on is charged with the responses whose second cycle is to
come. -/
theorem Accounts.charged_iff {s : Driver aw dw} (accounts : Accounts s) {item : Handle aw dw}
    {phase : OkayPhase} {firsts : List TrxRsp} (listens : s.addr = .listen item phase firsts)
    (incomplete : (s.status item).addrComplete = false) (here : item ∈ s.addrPops) (r : TrxRsp) :
    (item,r) ∈ s.charged ↔ r ∈ firsts := by
  rcases accounts.pops item here with ⟨phase',firsts',listens',same⟩ | ⟨complete,_⟩
  · obtain ⟨_,_,rfl⟩ : item = item ∧ phase = phase' ∧ firsts = firsts' := by
      simpa using listens.symm.trans listens'
    exact same r
  · rw [incomplete] at complete
    cases complete

/-- The address thread moves on with its item, charging it with new responses. -/
theorem accounts_moved {s s' : Driver aw dw} (objects : Objects s) (accounts : Accounts s) {item : Handle aw dw}
    {phase : OkayPhase} {firsts : List TrxRsp} (listens : s.addr = .listen item phase firsts)
    (incomplete : (s.status item).addrComplete = false) (here : item ∈ s.addrPops)
    (new : List TrxRsp) (others : ∀ h ∈ s.objects, h ≠ item → s'.status h = s.status h)
    (flags : ∀ r, (s'.status item).flag r = true ↔ (s.status item).flag r = true ∨ r ∈ new)
    (same : s'.addrPops = s.addrPops ∧ s'.taken = s.taken)
    (log : s'.charged = s.charged ++ new.map fun r => (item,r))
    (own : (∃ phase, s'.addr = .listen item phase (new ++ firsts)) ∨ (s'.status item).addrComplete = true ∧
      ((s'.status item).addrIdx = item.trx.bstLen + 1 ∨ ∃ r, (item,r) ∈ s.charged)) : Accounts s' := by
  have before := accounts.charged_iff listens incomplete here
  obtain ⟨known,pops,marked,unmarked⟩ := accounts
  have charges (h : Handle aw dw) (r : TrxRsp) : (h,r) ∈ s'.charged ↔ (h,r) ∈ s.charged ∨ h = item ∧ r ∈ new := by
    rw [log,List.mem_append,List.mem_map]
    refine or_congr Iff.rfl ⟨?_,?_⟩
    · rintro ⟨r,member,same⟩
      cases same
      exact ⟨rfl,member⟩
    · rintro ⟨rfl,member⟩
      exact ⟨r,member,rfl⟩
  constructor
  · intro h r charged
    rw [same.1]
    rcases (charges h r).mp charged with old | ⟨rfl,_⟩
    · exact known h r old
    · exact here
  · intro h member
    rw [same.1] at member
    by_cases other : h = item
    · subst other
      rcases own with ⟨phase',listens'⟩ | ⟨complete,ended⟩
      · refine .inl ⟨phase',new ++ firsts,listens',fun r => ?_⟩
        rw [charges,before,List.mem_append]
        exact ⟨fun either => either.elim .inr fun new => .inl new.2,fun either => either.elim (fun new => .inr ⟨rfl,new⟩) .inl⟩
      · refine .inr ⟨complete,ended.imp_right ?_⟩
        exact fun ⟨r,old⟩ => ⟨r,(charges h r).mpr (.inl old)⟩
    · rcases pops h member with ⟨_,_,listens',_⟩ | ⟨complete,ended⟩
      · rw [listens] at listens'
        cases listens'
        exact absurd rfl other
      · rw [others h (addrPops_known objects member) other]
        refine .inr ⟨complete,ended.imp_right ?_⟩
        exact fun ⟨r,old⟩ => ⟨r,(charges h r).mpr (.inl old)⟩
  · intro h r charged
    by_cases other : h = item
    · subst other
      rw [flags]
      exact ((charges h r).mp charged).imp (marked h r) And.right
    · have old := ((charges h r).mp charged).resolve_right fun new => other new.1
      rw [others h (addrPops_known objects (known h r old)) other]
      exact marked h r old
  · intro h member r flag
    rw [same.2] at member
    rw [charges]
    by_cases other : h = item
    · subst other
      rw [flags] at flag
      exact flag.imp (unmarked h member r) fun new => ⟨rfl,new⟩
    · rw [others h (List.mem_append_left _ member) other] at flag
      exact .inl (unmarked h member r flag)

/-- It moves on with its item, or ends it, without a new response. -/
theorem accounts_kept {s s' : Driver aw dw} (objects : Objects s) (accounts : Accounts s) {item : Handle aw dw}
    {phase : OkayPhase} {firsts : List TrxRsp} (listens : s.addr = .listen item phase firsts)
    (incomplete : (s.status item).addrComplete = false) (here : item ∈ s.addrPops) (f : Status → Status)
    (kept : ∀ status r, (f status).flag r = status.flag r) (heap : s'.heap = s.heap.modify item.id f)
    (same : s'.addrPops = s.addrPops ∧ s'.taken = s.taken) (log : s'.charged = s.charged)
    (own : (∃ phase, s'.addr = .listen item phase firsts) ∨ (f (s.status item)).addrComplete = true ∧
      ((f (s.status item)).addrIdx = item.trx.bstLen + 1 ∨ ∃ r, (item,r) ∈ s.charged)) : Accounts s' := by
  have mine : s'.status item = f (s.status item) := by
    rw [status,heap,Heap.modify_get_self]
    rfl
  refine accounts_moved objects accounts listens incomplete here [] ?_ ?_ same ?_ ?_
  · intro h there other
    rw [status,heap,modify_status objects (addrPops_known objects here) there,if_neg other]
  · intro r
    rw [mine,kept]
    simp
  · rw [log]
    exact (List.append_nil _).symm
  · rwa [mine]

theorem flag_flagged (r r' : TrxRsp) (resp : r ≠ .okay) (status : Status) :
    (flagged r status).flag r' = true ↔ status.flag r' = true ∨ r' ∈ [r] := by
  cases r <;> cases r' <;> simp_all [flagged,Status.flag]

/-- The first cycle of a response is charged to the item in its data phase. -/
theorem addrSide_first {s s' : Driver aw dw} {before : List (Cycle aw dw)} {c : Cycle aw dw} (objects : Objects s)
    (side : AddrSide s) (edge : Edge s before c) (armed : s.addrArmed = true) {item : Handle aw dw}
    {phase : OkayPhase} {firsts : List TrxRsp} (listens : s.addr = .listen item phase firsts)
    (resp : s.sig.hresp ≠ .okay) (low : s.sig.hready = false)
    (mine : s'.status item = flagged s.sig.hresp (s.status item))
    (others : ∀ h ∈ s.objects, h ≠ item → s'.status h = s.status h)
    (same : s'.addrPops = s.addrPops ∧ s'.taken = s.taken)
    (thread : s'.addr = .listen item phase (s.sig.hresp::firsts) ∧ s'.addrArmed = false ∧
      s'.cycles = s.cycles ∧ s'.vif.htrans = .idle)
    (log : s'.charged = s.charged ++ [(item,s.sig.hresp)]) : AddrSide s' := by
  obtain ⟨bound,incomplete,_,pops,_⟩ := side.listens item phase firsts listens
  have firsts' := (addrSide_listens side edge armed listens).1
  obtain ⟨none,h,i,data,more,next⟩ := edge_first edge resp low
  rw [none] at firsts'
  obtain rfl : firsts = [] := firsts'
  have old := edge.view armed
  have new : seen s'.addrArmed s'.cycles = watch s.cycles := by rw [thread.2.1,thread.2.2.1,seen_still]
  obtain ⟨here,idx,works⟩ := side.beat h i (by rw [old,data])
  obtain rfl : item = h := by
    have same := works more
    rw [listens] at same
    exact Option.some.inj same
  have fields : (s'.status item).addrIdx = (s.status item).addrIdx ∧
      (s'.status item).addrComplete = (s.status item).addrComplete := by
    rw [mine]
    cases s.sig.hresp <;> exact ⟨rfl,rfl⟩
  refine ⟨?_,?_,?_,?_,?_⟩
  · intro h' phase' firsts' listens'
    rw [thread.1] at listens'
    cases listens'
    rw [fields.1,fields.2,new,next,same.1,thread.2.2.2]
    exact ⟨bound,incomplete,rfl,pops,rfl⟩
  · intro waits
    rw [thread.1] at waits
    cases waits
  · intro h' i' there
    rw [new,next] at there
    obtain ⟨rfl,rfl⟩ : item = h' ∧ i = i' := by simpa using there
    rw [same.1,fields.1,thread.1]
    exact ⟨here,idx,fun _ => rfl⟩
  · rw [new,next,log,side.charged,old]
  · refine accounts_moved objects side.accounts listens incomplete here [s.sig.hresp] others (fun r => ?_)
      same log (.inl ⟨phase,thread.1⟩)
    rw [mine]
    exact flag_flagged _ r resp _

/-- The address thread has looked at the last cycle, and there was no new response. -/
theorem addrSide_looked {s s' : Driver aw dw} {before : List (Cycle aw dw)} {c : Cycle aw dw} (side : AddrSide s)
    (edge : Edge s before c) (armed : s.addrArmed = true)
    (looked : s'.addrArmed = false ∧ s'.cycles = s.cycles ∧ s'.charged = s.charged)
    (none : (watch s.cycles).pending = none) (responses : (watch s.cycles).responses = (watch before).responses)
    (listens : ∀ h phase firsts, s'.addr = .listen h phase firsts → (s'.status h).addrIdx ≤ h.trx.bstLen ∧
      (s'.status h).addrComplete = false ∧ firsts = [] ∧ (∃ before, s'.addrPops = before ++ [h]) ∧
      s'.vif.htrans = phase.htrans)
    (beat : ∀ h i, (watch s.cycles).data = some (h,i) → h ∈ s'.addrPops ∧ (s'.status h).addrIdx = i + 1 ∧
      (i < h.trx.bstLen → s'.addr.item? = some h))
    (accounts : Accounts s') : AddrSide s' := by
  have view : seen s'.addrArmed s'.cycles = watch s.cycles := by rw [looked.1,looked.2.1,seen_still]
  refine ⟨fun h phase firsts thread => ?_,fun _ => ?_,fun h i data => ?_,?_,accounts⟩
  · obtain ⟨bound,incomplete,rfl,pops,htrans⟩ := listens h phase firsts thread
    rw [view,none]
    exact ⟨bound,incomplete,rfl,pops,htrans⟩
  · rw [view,none]
  · rw [view] at data
    exact beat h i data
  · rw [view,responses,looked.2.2,side.charged,edge.view armed]

/-- A thread that stays at an edge has seen `OKAY` there. -/
theorem okay_of_stay {s : Driver aw dw} {before : List (Cycle aw dw)} {c : Cycle aw dw} (edge : Edge s before c)
    {firsts : List TrxRsp} (pending : firsts = (watch before).pending.toList)
    (unmoved : s.sig.hgrant = true → s.sig.hresp ≠ .okay → s.sig.hresp ∈ firsts → s.sig.hready = false)
    (unseen : s.sig.hgrant = true → s.sig.hresp ≠ .okay → s.sig.hresp ∉ firsts → s.sig.hready = true) :
    s.sig.hresp = .okay := by
  by_contra resp
  cases ready : s.sig.hready with
  | false =>
    have grant : s.sig.hgrant = true := by
      rw [← edge.sig]
      exact edge.granted (by rw [edge.sig]; exact resp)
    rw [(edge_first edge resp ready).1] at pending
    rw [pending] at unseen
    rw [unseen grant resp List.not_mem_nil] at ready
    cases ready
  | true =>
    obtain ⟨second,grant,_⟩ := edge_second edge resp ready
    rw [second] at pending
    rw [pending] at unmoved
    rw [unmoved grant resp (by simp)] at ready
    cases ready

/-- At an `OKAY` edge at which nothing is accepted the data phase goes on, or ends with no beat after it. -/
theorem data_of_stay {s : Driver aw dw} {before : List (Cycle aw dw)} {c : Cycle aw dw} (edge : Edge s before c)
    (okay : s.sig.hresp = .okay) (waits : s.sig.hgrant = true → s.sig.hresp = .okay → s.sig.hready = false) :
    (watch s.cycles).data = if s.sig.hready then none else (watch before).data := by
  rw [(edge_okay edge okay).2]
  cases ready : s.sig.hready with
  | false => rfl
  | true =>
    cases grant : s.sig.hgrant with
    | false => rfl
    | true =>
      rw [waits grant okay] at ready
      cases ready

/-- At an `OKAY` edge of the thread that ends the data phase, the beat that it presents comes into its own. -/
theorem edge_accepts {s : Driver aw dw} {before : List (Cycle aw dw)} {c : Cycle aw dw} (side : AddrSide s)
    (edge : Edge s before c) (armed : s.addrArmed = true) {item : Handle aw dw} {phase : OkayPhase}
    {firsts : List TrxRsp} (listens : s.addr = .listen item phase firsts)
    (okay : s.sig.hgrant = true ∧ s.sig.hresp = .okay ∧ s.sig.hready = true) :
    firsts = [] ∧ watch s.cycles =
      ⟨if phase ≠ .busy then some (item,(s.status item).addrIdx) else none,none,(watch before).responses⟩ := by
  obtain ⟨pending,beat⟩ := addrSide_listens side edge armed listens
  obtain ⟨none,next⟩ := edge_okay edge okay.2.1
  rw [none] at pending
  obtain rfl : firsts = [] := pending
  refine ⟨rfl,?_⟩
  rw [next,beat,okay.1,okay.2.2]
  simp only [if_true,true_and]

theorem addrSide_addrEdge {s : Driver aw dw} (objects : Objects s) (side : AddrSide s)
    (edge : s.addrArmed = true → ∃ before c, Edge s before c) (opt : Bool) : AddrSide (s.step (.addrEdge opt)) := by
  have effect := step_effect s (.addrEdge opt)
  generalize s.step (.addrEdge opt) = s' at effect ⊢
  have others {item : Handle aw dw} (here : item ∈ s.addrPops) (f : Status → Status) (h : Handle aw dw)
      (there : h ∈ s.objects) (other : h ≠ item) : (s.heap.modify item.id f).get h.id = s.status h := by
    rw [modify_status objects (addrPops_known objects here) there,if_neg other]
  cases effect with
  | stutter => exact side
  | addrStay _ item phase firsts armed listens waits unmoved unseen =>
    obtain ⟨before,c,edge⟩ := edge armed
    have pending := (addrSide_listens side edge armed listens).1
    have okay := okay_of_stay edge pending unmoved unseen
    obtain ⟨none,next⟩ := edge_okay edge okay
    refine addrSide_looked side edge armed ⟨rfl,rfl,rfl⟩ (congrArg Watch.pending next)
      (by rw [next]) (fun h phase' firsts' listens' => ?_) (fun h i data => ?_) ?_
    · obtain ⟨bound,incomplete,_,pops,htrans⟩ := side.listens h phase' firsts' listens'
      have pending := (addrSide_listens side edge armed listens').1
      rw [none] at pending
      obtain rfl : firsts' = [] := pending
      exact ⟨bound,incomplete,rfl,pops,htrans⟩
    · rw [data_of_stay edge okay waits] at data
      split at data
      · cases data
      · exact side.beat h i (by rw [edge.view armed]; exact data)
    · exact ⟨side.accounts.known,side.accounts.pops,side.accounts.marked,side.accounts.unmarked⟩
  | addrLast _ item phase firsts armed listens okay last =>
    obtain ⟨before,c,edge⟩ := edge armed
    obtain ⟨bound,incomplete,_⟩ := side.listens item phase firsts listens
    have here := side.here listens
    obtain ⟨rfl,next⟩ := edge_accepts side edge armed listens okay
    have moved : accepted phase (s.status item) = (s.status item).addrIdx + 1 ∧ phase ≠ .busy := by
      rw [accepted] at last ⊢
      split at last
      · omega
      · rename_i free
        exact ⟨if_neg free,free⟩
    rw [moved.1] at last
    have idx : (s.status item).addrIdx = item.trx.bstLen := by omega
    refine addrSide_looked side edge armed ⟨rfl,rfl,rfl⟩ (congrArg Watch.pending next)
      (by rw [next]) (fun h phase' firsts' listens' => ?_) (fun h i data => ?_) ?_
    · cases listens'
    · rw [next] at data
      dsimp only at data
      rw [if_pos moved.2] at data
      obtain ⟨rfl,rfl⟩ : item = h ∧ (s.status item).addrIdx = i := by simpa using data
      refine ⟨here,?_,fun more => absurd more (by omega)⟩
      dsimp only [status]
      rw [Heap.modify_get_self]
      exact moved.1
    · apply accounts_kept objects side.accounts listens incomplete here
      case heap => dsimp only
      case same => exact ⟨rfl,rfl⟩
      case log => rfl
      case kept =>
        intro status r
        cases r <;> rfl
      case own => exact .inr ⟨rfl,.inl (moved.1.trans (congrArg (· + 1) idx))⟩
  | addrNext _ item phase firsts busy armed listens okay more =>
    obtain ⟨before,c,edge⟩ := edge armed
    obtain ⟨_,incomplete,_,pops,_⟩ := side.listens item phase firsts listens
    have here := side.here listens
    obtain ⟨rfl,next⟩ := edge_accepts side edge armed listens okay
    refine addrSide_looked side edge armed ⟨rfl,rfl,rfl⟩ (congrArg Watch.pending next)
      (by rw [next]) (fun h phase' firsts' listens' => ?_) (fun h i data => ?_) ?_
    · obtain ⟨rfl,rfl,rfl⟩ : item = h ∧ (if busy then OkayPhase.busy else .seq) = phase' ∧ [] = firsts' := by
        simpa using listens'
      dsimp only [status]
      rw [Heap.modify_get_self]
      refine ⟨more,incomplete,rfl,pops,?_⟩
      cases busy <;> rfl
    · rw [next] at data
      dsimp only at data
      split at data
      · rename_i free
        obtain ⟨rfl,rfl⟩ : item = h ∧ (s.status item).addrIdx = i := by simpa using data
        refine ⟨here,?_,fun _ => rfl⟩
        dsimp only [status]
        rw [Heap.modify_get_self]
        exact if_neg free
      · cases data
    · apply accounts_kept objects side.accounts listens incomplete here
      case heap => dsimp only
      case same => exact ⟨rfl,rfl⟩
      case log => rfl
      case kept =>
        intro status r
        cases r <;> rfl
      case own => exact .inl ⟨_,rfl⟩
  | addrSecond _ item phase firsts armed listens resp second seen' =>
    obtain ⟨before,c,edge⟩ := edge armed
    have incomplete := (side.listens item phase firsts listens).2.1
    have here := side.here listens
    have beat := (addrSide_listens side edge armed listens).2
    rw [if_neg fun none => List.ne_nil_of_mem seen' none.1] at beat
    obtain ⟨_,_,next⟩ := edge_second edge resp second.2
    rw [beat] at next
    refine addrSide_looked side edge armed ⟨rfl,rfl,rfl⟩ (congrArg Watch.pending next)
      (by rw [next]) (fun h phase' firsts' listens' => ?_) (fun h i data => ?_) ?_
    · cases listens'
    · rw [next] at data
      cases data
    · have charged := (side.accounts.charged_iff listens incomplete here s.sig.hresp).mpr seen'
      apply accounts_kept objects side.accounts listens incomplete here
      case heap => dsimp only
      case same => exact ⟨rfl,rfl⟩
      case log => rfl
      case kept =>
        intro status r
        cases r <;> rfl
      case own => exact .inr ⟨rfl,.inr ⟨_,charged⟩⟩
  | addrError _ item phase firsts armed listens first unseen =>
    obtain ⟨before,c,edge⟩ := edge armed
    have here := side.here listens
    have resp := ne_okay_of_error first.2.1
    refine addrSide_first objects side edge armed listens resp first.2.2 ?_ (others here _) ⟨rfl,rfl⟩
      ⟨?_,rfl,rfl,rfl⟩ ?_
    · dsimp only [status]
      rw [Heap.modify_get_self,first.2.1]
    · rw [first.2.1]
    · rw [first.2.1]
  | addrRedrive _ item phase firsts armed listens resp first unseen =>
    obtain ⟨before,c,edge⟩ := edge armed
    have here := side.here listens
    have other := ne_okay_of_redrive resp
    have old := addrPops_known objects here
    refine addrSide_first objects side edge armed listens other first.2 ?_ (fun h there distinct => ?_) ⟨rfl,rfl⟩
      ⟨rfl,rfl,rfl,rfl⟩ rfl
    · dsimp only [status]
      rw [redrive_status objects old old,if_pos rfl]
      rfl
    · dsimp only [status]
      rw [redrive_status objects old there,if_neg distinct]
      rfl

end Driver

end Smtdv.Ahb
