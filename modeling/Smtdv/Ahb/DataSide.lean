import Smtdv.Ahb.AddrSide

/-! The data thread against the bus: every beat that has been accepted and not driven is
the one in its data phase, so a response there finds the data thread on the item it is for,
or on none. -/
namespace Smtdv.Ahb
open Lib

variable {aw dw : Nat}

/-- Neither the data thread nor a response has finished the item. -/
def Status.Clean (status : Status) : Prop := status.dataComplete = false ∧ ∀ r, status.flag r = false

theorem Status.clean_iff (status : Status) : status.Clean ↔ status.dataComplete = false ∧
    status.retry = false ∧ status.split = false ∧ status.error = false := by
  refine and_congr_right fun _ => ⟨fun flags => ⟨flags .retry,flags .split,flags .error⟩,fun flags r => ?_⟩
  cases r with
  | okay => rfl
  | error => exact flags.2.2
  | retry => exact flags.1
  | split => exact flags.2.1

namespace Driver

structure DataSide (s : Driver aw dw) : Prop where
  listens : ∀ g firsts, s.data = .listen g firsts →
    (s.status g).dataIdx ≤ g.trx.bstLen ∧ (s.status g).dataComplete = false ∧
      (∀ r ∈ firsts, (seen s.dataArmed s.cycles).pending = some r ∧
        ∃ i, (seen s.dataArmed s.cycles).data = some (g,i)) ∧
      ∀ r, (s.status g).flag r = true → firsts ≠ [] ∨ s.dataArmed = true ∧ s.sig.first = true
  swaps : ∀ g, s.data = .swap g → (s.status g).dataIdx = 0 ∧ (s.status g).dataComplete = false
  last : ∀ g, s.data.item? = some g → ∃ before, s.dataPops = before ++ [g]
  pops : ∀ g ∈ s.dataPops, s.data.item? = some g ∨ ¬ (s.status g).Clean
  ended : ∀ g ∈ s.dataPops, (s.status g).dataComplete = true →
    (s.status g).dataIdx = g.trx.bstLen + 1 ∨ ∃ r, (g,r) ∈ (watch s.cycles).responses
  closed : ∀ pair ∈ s.closed, pair ∈ (watch s.cycles).responses
  behind : ∀ id, (s.heap.get id).dataIdx ≤ (s.heap.get id).addrIdx
  armed : s.dataArmed = true → ∃ g firsts, s.data = .listen g firsts
  owner : s.dataArmed = true → s.sig.first = true → ∀ h i, (watch s.cycles).data = some (h,i) →
    s.data.item? = some h
  known : s.addrArmed = true → s.sig.first = true → ∀ h i, (watch s.cycles).data = some (h,i) →
    h ∈ s.dataPops ∧ s.data ≠ .swap h
  heard : s.dataArmed = false → (watch s.cycles).pending ≠ none → ∀ h i, (watch s.cycles).data = some (h,i) →
    ∀ firsts, s.data = .listen h firsts → firsts ≠ []

/-- An accepted beat that has not been driven is in its data phase, or was until the edge
that the data thread is still to look at; and the data thread is on its item. -/
structure Lag (s : Driver aw dw) : Prop where
  beat : ∀ g ∈ s.objects, (s.status g).Clean → ∀ k, (s.status g).dataIdx ≤ k → k < (s.status g).addrIdx →
    (watch s.cycles).data = some (g,k) ∨
      s.dataArmed = true ∧ (seen s.dataArmed s.cycles).data = some (g,k)
  due : s.dataArmed = true → ∀ g ∈ s.objects, ∀ k, (s.status g).Clean → (seen s.dataArmed s.cycles).data = some (g,k) →
    (s.status g).dataIdx ≤ k → s.data.item? = some g

/-! ### Before an edge -/

/-- The item of the data thread, when another that the address thread has taken is still to
come to the data thread, comes before that one. -/
theorem SameOrder.earlier {s : Driver aw dw} (same : SameOrder s) {before : List (Handle aw dw)}
    {g h : Handle aw dw} (pops : s.dataPops = before ++ [g]) (taken : h ∈ s.addrPops) (waits : h ∉ s.dataPops) :
    ∃ m n : Nat, m < n ∧ s.addrPops[m]? = some g ∧ s.addrPops[n]? = some h := by
  obtain ⟨n,place⟩ := List.mem_iff_getElem?.mp taken
  have bound : n < s.addrPops.length := (List.getElem?_eq_some_iff.mp place).1
  have later : before.length < n := by
    by_contra early
    have inside : n < s.dataPops.length := by
      rw [pops,List.length_append]
      simp
      omega
    have there := List.getElem?_eq_getElem inside
    rw [← same n h s.dataPops[n] place there] at there
    exact waits (List.mem_of_getElem? there)
  have inside : before.length < s.addrPops.length := by omega
  have here := List.getElem?_eq_getElem inside
  refine ⟨before.length,n,later,?_,place⟩
  rw [here,same before.length _ g here (by simp [pops])]

/-- When the data thread is on an item the address thread has not taken, it has taken all
that the address thread has. -/
theorem SameOrder.ahead {s : Driver aw dw} (same : SameOrder s) {before : List (Handle aw dw)}
    {g h : Handle aw dw} (pops : s.dataPops = before ++ [g]) (new : g ∉ s.addrPops) (taken : h ∈ s.addrPops) :
    h ∈ s.dataPops := by
  by_contra waits
  obtain ⟨m,n,_,here,_⟩ := same.earlier pops taken waits
  exact new (List.mem_of_getElem? here)

/-- Both threads rest, and no fork is left: what the data thread has not taken waits for a
thread that is busy. -/
theorem settled_taken {s : Driver aw dw} (sound : Sound s) (settled : s.Settled) {g : Handle aw dw}
    (there : g ∈ s.objects) : g ∈ s.dataPops ∨ ∃ g' firsts, s.data = .listen g' firsts := by
  obtain ⟨_,_,forks,_,done⟩ := settled
  cases thread : s.data with
  | wait =>
    rw [thread] at done
    have perm := sound.conserved.data
    rw [forks,done] at perm
    exact .inl (perm.mem_iff.mpr there)
  | swap g' =>
    rw [thread] at done
    exact done.elim
  | listen g' firsts => exact .inr ⟨g',firsts,rfl⟩

/-- At rest an item of the data thread with a response is in its data phase. -/
theorem dataSide_flag {s : Driver aw dw} (data : DataSide s) (still : s.dataArmed = false) {g : Handle aw dw}
    {firsts : List TrxRsp} (listens : s.data = .listen g firsts) {r : TrxRsp} (flag : (s.status g).flag r = true) :
    ∃ r i, (watch s.cycles).pending = some r ∧ (watch s.cycles).data = some (g,i) := by
  obtain ⟨_,_,pending,flags⟩ := data.listens g firsts listens
  rw [still] at pending flags
  rcases flags r flag with some | ⟨armed,_⟩
  · obtain ⟨r',member⟩ := List.exists_mem_of_ne_nil firsts some
    obtain ⟨here,i,there⟩ := pending r' member
    exact ⟨r',i,here,there⟩
  · cases armed

/-- The data thread, when it has nothing more to drive of its item and is not in a response,
has an item the address thread is still to finish. -/
theorem dataSide_unfinished {s : Driver aw dw} (addr : AddrSide s) (data : DataSide s) (lag : Lag s)
    (sound : Sound s) (still : s.dataArmed = false) {g : Handle aw dw} {firsts : List TrxRsp}
    (listens : s.data = .listen g firsts) (taken : g ∈ s.addrPops) (other : s.addr.item? ≠ some g) :
    ∃ i, (watch s.cycles).data = some (g,i) := by
  obtain ⟨bound,incomplete,_,_⟩ := data.listens g firsts listens
  by_cases clean : ∀ r, (s.status g).flag r = false
  · rcases addr.accounts.pops g taken with ⟨phase,firsts',works,_⟩ | ⟨_,ended | ⟨r,charged⟩⟩
    · rw [works] at other
      exact absurd rfl other
    · rcases lag.beat g (addrPops_known sound.objects taken) ⟨incomplete,clean⟩ (s.status g).dataIdx
        (Nat.le_refl _) (by omega) with here | ⟨armed,_⟩
      · exact ⟨_,here⟩
      · rw [still] at armed
        cases armed
    · have flag := addr.accounts.marked g r charged
      rw [clean r] at flag
      cases flag
  · simp only [not_forall,Bool.not_eq_false] at clean
    obtain ⟨r,flag⟩ := clean
    obtain ⟨_,i,_,here⟩ := dataSide_flag data still listens flag
    exact ⟨i,here⟩

/-- The beat in its data phase, not driven, is one of the data thread's item. -/
theorem dataSide_due {s : Driver aw dw} (sound : Sound s) (addr : AddrSide s) (data : DataSide s) (lag : Lag s)
    (settled : s.Settled) (same : SameOrder s) {g : Handle aw dw} {k : Nat} (clean : (s.status g).Clean)
    (inData : (watch s.cycles).data = some (g,k)) : s.data.item? = some g := by
  have addrStill := settled.1
  have still := settled.2.1
  obtain ⟨taken,_,_⟩ := addr.beat g k (by rw [addrStill]; exact inData)
  by_cases popped : g ∈ s.dataPops
  · exact (data.pops g popped).resolve_right (not_not_intro clean)
  · rcases settled_taken sound settled (addrPops_known sound.objects taken) with popped' | ⟨g',firsts,listens⟩
    · exact absurd popped' popped
    · obtain ⟨before,pops⟩ := data.last g' (by rw [listens]; rfl)
      obtain ⟨m,n,earlier,here,there⟩ := same.earlier pops taken popped
      -- the address thread is past the item the data thread is on
      have past : s.addr.item? ≠ some g' := by
        intro works
        rcases s.addr.wait_or_listen with waits | ⟨item,phase,firsts',listens'⟩
        · rw [waits] at works
          cases works
        · rw [listens'] at works
          obtain rfl : item = g' := Option.some.inj works
          obtain ⟨_,_,_,⟨pre,addrPops⟩,_⟩ := addr.listens item phase firsts' listens'
          have nodup : s.addrPops.Nodup :=
            (List.nodup_append.mp (sound.conserved.addr.nodup_iff.mpr sound.conserved.nodup)).2.1
          have bound : n < s.addrPops.length := (List.getElem?_eq_some_iff.mp there).1
          have last : s.addrPops[pre.length]? = some item := by simp [addrPops]
          have place : m = pre.length := by
            obtain ⟨_,left⟩ := List.getElem?_eq_some_iff.mp here
            obtain ⟨_,right⟩ := List.getElem?_eq_some_iff.mp last
            exact (List.Nodup.getElem_inj_iff nodup).mp (left.trans right.symm)
          rw [addrPops,List.length_append] at bound
          simp at bound
          omega
      obtain ⟨i,here'⟩ := dataSide_unfinished addr data lag sound still listens (List.mem_of_getElem? here) past
      rw [inData] at here'
      cases here'
      exact absurd (by rw [pops]; simp) popped

/-- Before the first cycle of a response to a beat that is not the last of its item, the
data thread is on that item or on none. -/
theorem dataSide_owner {s : Driver aw dw} (sound : Sound s) (addr : AddrSide s) (data : DataSide s) (lag : Lag s)
    (settled : s.Settled) (same : SameOrder s) (pending : (watch s.cycles).pending = none) {h : Handle aw dw}
    {i : Nat} (inData : (watch s.cycles).data = some (h,i)) (more : i < h.trx.bstLen) (mine : h ∈ s.taken)
    {g : Handle aw dw} {firsts : List TrxRsp} (listens : s.data = .listen g firsts) : g = h := by
  have addrStill := settled.1
  have still := settled.2.1
  obtain ⟨taken,idx,works⟩ := addr.beat h i (by rw [addrStill]; exact inData)
  have works := works more
  by_contra other
  have past : s.addr.item? ≠ some g := by
    rw [works]
    exact fun same => other (Option.some.inj same).symm
  by_cases before : g ∈ s.addrPops
  · obtain ⟨k,here⟩ := dataSide_unfinished addr data lag sound still listens before past
    rw [inData] at here
    cases here
    exact other rfl
  · obtain ⟨pre,pops⟩ := data.last g (by rw [listens]; rfl)
    have popped := same.ahead pops before taken
    -- the data thread is done with the item the address thread is on
    have uncharged (r : TrxRsp) : (h,r) ∉ s.charged := by
      rcases addr.accounts.pops h taken with ⟨phase,firsts',listens',charges⟩ | ⟨complete,_⟩
      · obtain ⟨_,_,firsts'',_,_⟩ := addr.listens h phase firsts' listens'
        rw [addrStill,seen_still,pending] at firsts''
        rw [charges,firsts'']
        exact List.not_mem_nil
      · rcases s.addr.wait_or_listen with waits | ⟨item,phase,firsts',listens'⟩
        · rw [waits] at works
          cases works
        · rw [listens'] at works
          obtain rfl : item = h := Option.some.inj works
          rw [(addr.listens item phase firsts' listens').2.1] at complete
          cases complete
    have unflagged (r : TrxRsp) : (s.status h).flag r = false := by
      cases flag : (s.status h).flag r with
      | false => rfl
      | true => exact absurd (addr.accounts.unmarked h mine r flag) (uncharged r)
    rcases data.pops h popped with here | done
    · rw [listens] at here
      exact other (Option.some.inj here)
    · have complete : (s.status h).dataComplete = true := by
        by_contra incomplete
        exact done ⟨Bool.eq_false_iff.mpr incomplete,unflagged⟩
      rcases data.ended h popped complete with all | ⟨r,charged⟩
      · have behind := data.behind h.id
        change (s.status h).dataIdx ≤ (s.status h).addrIdx at behind
        omega
      · have log := addr.charged
        rw [addrStill,seen_still] at log
        exact uncharged r (by rw [log]; exact charged)

/-! ### Steps without the data thread -/

/-- A step in which the data thread has no part. -/
structure Aside (s s' : Driver aw dw) : Prop where
  thread : s'.data = s.data ∧ s'.dataArmed = s.dataArmed ∧ s'.dataPops = s.dataPops
  bus : s'.cycles = s.cycles ∧ s'.sig = s.sig ∧ s'.closed = s.closed
  armed : s'.addrArmed = true → s.addrArmed = true
  old : ∀ h ∈ s.objects, (s'.status h).dataIdx = (s.status h).dataIdx ∧
    (s'.status h).dataComplete = (s.status h).dataComplete ∧
    (∀ r, (s.status h).flag r = true → (s'.status h).flag r = true) ∧
    ∀ r, (s'.status h).flag r = true → (s.status h).flag r = true ∨ ∀ firsts, s.data = .listen h firsts →
      firsts ≠ [] ∨ s.dataArmed = true ∧ s.sig.first = true
  behind : ∀ id, (s'.heap.get id).dataIdx ≤ (s'.heap.get id).addrIdx

theorem dataPops_known {s : Driver aw dw} (objects : Objects s) {h : Handle aw dw} (member : h ∈ s.dataPops) :
    h ∈ s.objects :=
  objects.known h (inUse_dataPops s member)

theorem dataSide_aside {s s' : Driver aw dw} (objects : Objects s) (frame : Aside s s') (data : DataSide s) :
    DataSide s' := by
  obtain ⟨⟨thread,dataArmed,dataPops⟩,⟨cycles,sig,log⟩,addrArmed,old,lags⟩ := frame
  obtain ⟨listens,swaps,last,pops,ended,closed,_,armed,owner,known,heard⟩ := data
  refine ⟨?_,?_,?_,?_,?_,?_,lags,?_,?_,?_,?_⟩
  · intro g firsts here
    rw [thread] at here
    obtain ⟨bound,incomplete,pending,flags⟩ := listens g firsts here
    obtain ⟨idx,complete,_,new⟩ := old g (objects.dataItem (by rw [here]; rfl))
    rw [idx,complete,dataArmed,cycles,sig]
    refine ⟨bound,incomplete,pending,fun r flag => ?_⟩
    exact (new r flag).elim (flags r) fun first => first firsts here
  · intro g here
    rw [thread] at here
    obtain ⟨idx,complete,_⟩ := old g (objects.dataItem (by rw [here]; rfl))
    rw [idx,complete]
    exact swaps g here
  · rw [thread,dataPops]
    exact last
  · intro g member
    rw [dataPops] at member
    obtain ⟨_,complete,kept,_⟩ := old g (dataPops_known objects member)
    rw [thread]
    refine (pops g member).imp_right fun unclean clean => unclean ⟨complete ▸ clean.1,fun r => ?_⟩
    by_contra flag
    have kept := kept r (Bool.eq_true_of_not_eq_false flag)
    rw [clean.2 r] at kept
    cases kept
  · intro g member complete
    rw [dataPops] at member
    obtain ⟨idx,same,_⟩ := old g (dataPops_known objects member)
    rw [same] at complete
    rw [idx,cycles]
    exact ended g member complete
  · rw [log,cycles]
    exact closed
  · rw [dataArmed,thread]
    exact armed
  · rw [dataArmed,sig,cycles,thread]
    exact owner
  · intro here first
    rw [sig] at first
    rw [cycles,dataPops,thread]
    exact known (addrArmed here) first
  · rw [dataArmed,cycles,thread]
    exact heard

theorem initial_dataSide (hasBusy : Bool) : DataSide (initial hasBusy : Driver aw dw) where
  listens g firsts listens := by cases listens
  swaps g swaps := by cases swaps
  last g item := by cases item
  pops g member := by cases member
  ended g member := by cases member
  closed pair member := by cases member
  behind id := Nat.le_refl _
  armed armed := by cases armed
  owner armed := by cases armed
  known armed := by cases armed
  heard _ pending := absurd rfl pending

theorem initial_lag (hasBusy : Bool) : Lag (initial hasBusy : Driver aw dw) where
  beat g member := by cases member
  due armed := by cases armed

/-- The data thread has no part in the steps of the others, or of the address thread between edges. -/
theorem step_aside (s : Driver aw dw) (a : Action aw dw) (objects : Objects s) (data : DataSide s)
    (other : a = .addrGet ∨ (∃ req, a = .driveBus req) ∨ (∃ k, a = .pushAddr k) ∨ ∃ k, a = .pushData k) :
    Aside s (s.step a) ∧ (∀ h ∈ s.objects, (s.step a).status h = s.status h) ∧
      ∀ h ∈ (s.step a).objects, h ∉ s.objects → ((s.step a).status h).addrIdx = 0 := by
  have effect := step_effect s a
  generalize s.step a = s' at effect ⊢
  have idle (s' : Driver aw dw) (thread : s'.data = s.data ∧ s'.dataArmed = s.dataArmed ∧ s'.dataPops = s.dataPops)
      (bus : s'.cycles = s.cycles ∧ s'.sig = s.sig ∧ s'.closed = s.closed) (armed : s'.addrArmed = s.addrArmed)
      (old : ∀ h ∈ s.objects, s'.status h = s.status h)
      (behind : ∀ id, (s'.heap.get id).dataIdx ≤ (s'.heap.get id).addrIdx) : Aside s s' := by
    refine ⟨thread,bus,fun here => armed ▸ here,fun h there => ?_,behind⟩
    rw [old h there]
    exact ⟨rfl,rfl,fun _ flag => flag,fun _ flag => .inl flag⟩
  cases effect with
  | stutter | pushAddr | pushData | addrSkip | addrTake =>
    refine ⟨idle _ ⟨rfl,rfl,rfl⟩ ⟨rfl,rfl,rfl⟩ rfl (fun _ _ => rfl) data.behind,fun _ _ => rfl,?_⟩
    exact fun h member new => absurd member new
  | driveBus req =>
    have old (h : Handle aw dw) (there : h ∈ s.objects) := alloc_status objects there ({} : Status)
    refine ⟨idle _ ⟨rfl,rfl,rfl⟩ ⟨rfl,rfl,rfl⟩ rfl old (fun id => ?_),old,fun h member new => ?_⟩
    · dsimp only
      rw [Heap.alloc_get]
      split
      · exact Nat.le_refl _
      · exact data.behind id
    · have made : h = ⟨s.heap.next,req⟩ := by
        simp only [Driver.objects,List.mem_append,List.mem_singleton] at member new
        rcases member with (before | made) | before
        · exact absurd (.inl before) new
        · exact made
        · exact absurd (.inr before) new
      rw [made]
      dsimp only [status]
      rw [Heap.alloc_get_next]
  | _ => simp at other

theorem lag_aside {s s' : Driver aw dw} (frame : Aside s s')
    (old : ∀ h ∈ s.objects, s'.status h = s.status h)
    (new : ∀ h ∈ s'.objects, h ∉ s.objects → (s'.status h).addrIdx = 0)
    (inData : s.dataArmed = true → ∀ h k, (seen s.dataArmed s.cycles).data = some (h,k) → h ∈ s.objects)
    (lag : Lag s) : Lag s' := by
  obtain ⟨⟨thread,dataArmed,_⟩,⟨cycles,_,_⟩,_,_,_⟩ := frame
  constructor
  · intro g member clean k low high
    rw [cycles,dataArmed]
    by_cases before : g ∈ s.objects
    · rw [old g before] at clean low high
      exact lag.beat g before clean k low high
    · rw [new g member before] at high
      exact absurd high (Nat.not_lt_zero k)
  · intro armed g member k clean here low
    rw [dataArmed] at armed
    rw [dataArmed,cycles] at here
    have before := inData armed g k here
    rw [old g before] at clean low
    rw [thread]
    exact lag.due armed g before k clean here low

/-! ### Edges of the address thread -/

/-- An item with a new response is the data thread's in its data phase, or not the data thread's. -/
theorem dataSide_first {s : Driver aw dw} {before : List (Cycle aw dw)} {c : Cycle aw dw} (addr : AddrSide s)
    (data : DataSide s) (edge : Edge s before c) (armed : s.addrArmed = true) {item : Handle aw dw}
    {phase : OkayPhase} {firsts : List TrxRsp} (works : s.addr = .listen item phase firsts)
    (resp : s.sig.hresp ≠ .okay) (low : s.sig.hready = false) (firsts' : List TrxRsp)
    (listens : s.data = .listen item firsts') : firsts' ≠ [] ∨ s.dataArmed = true ∧ s.sig.first = true := by
  have first : s.sig.first = true := by simp [Sig.first,resp,low]
  cases dataArmed : s.dataArmed with
  | true => exact .inr ⟨rfl,first⟩
  | false =>
    obtain ⟨_,h,i,inData,more,next⟩ := edge_first edge resp low
    have view : seen s.addrArmed s.cycles = watch before := by rw [armed,edge.cycles,seen_armed]
    have mine := (addr.beat h i (by rw [view]; exact inData)).2.2 more
    rw [works] at mine
    obtain rfl : item = h := Option.some.inj mine
    exact .inl (data.heard dataArmed (by rw [next]; simp) item i (by rw [next]) firsts' listens)

theorem aside_first {s s' : Driver aw dw} (item : Handle aw dw)
    (thread : s'.data = s.data ∧ s'.dataArmed = s.dataArmed ∧ s'.dataPops = s.dataPops)
    (bus : s'.cycles = s.cycles ∧ s'.sig = s.sig ∧ s'.closed = s.closed) (armed : s'.addrArmed = false)
    (r : TrxRsp) (mine : s'.status item = flagged r (s.status item))
    (others : ∀ h ∈ s.objects, h ≠ item → s'.status h = s.status h)
    (noticed : ∀ firsts, s.data = .listen item firsts → firsts ≠ [] ∨ s.dataArmed = true ∧ s.sig.first = true)
    (behind : ∀ id, (s'.heap.get id).dataIdx ≤ (s'.heap.get id).addrIdx) : Aside s s' := by
  refine ⟨thread,bus,fun here => ?_,fun h there => ?_,behind⟩
  · rw [armed] at here
    cases here
  · by_cases same : h = item
    · subst same
      rw [mine]
      refine ⟨by cases r <;> rfl,by cases r <;> rfl,fun r' flag => ?_,fun _ _ => .inr noticed⟩
      cases r <;> cases r' <;> first | exact flag | rfl
    · rw [others h there same]
      exact ⟨rfl,rfl,fun _ flag => flag,fun _ flag => .inl flag⟩

theorem step_addrEdge_aside (s : Driver aw dw) (opt : Bool) (objects : Objects s) (addr : AddrSide s)
    (data : DataSide s) (edge : s.addrArmed = true → ∃ before c, Edge s before c) :
    Aside s (s.step (.addrEdge opt)) := by
  have effect := step_effect s (.addrEdge opt)
  generalize s.step (.addrEdge opt) = s' at effect ⊢
  have keep (f : Status → Status) (kept : ∀ status, (f status).dataIdx = status.dataIdx ∧
      (f status).dataComplete = status.dataComplete ∧ ∀ r, (f status).flag r = status.flag r) (id : Nat)
      (h : Handle aw dw) : ((s.heap.modify id f).get h.id).dataIdx = (s.status h).dataIdx ∧
        ((s.heap.modify id f).get h.id).dataComplete = (s.status h).dataComplete ∧
        (∀ r, (s.status h).flag r = true → ((s.heap.modify id f).get h.id).flag r = true) ∧
        ∀ r, ((s.heap.modify id f).get h.id).flag r = true → (s.status h).flag r = true ∨
          ∀ firsts, s.data = .listen h firsts → firsts ≠ [] ∨ s.dataArmed = true ∧ s.sig.first = true := by
    have flags (r : TrxRsp) : ((s.heap.modify id f).get h.id).flag r = (s.status h).flag r :=
      Heap.modify_get_field _ _ _ f (fun status => status.flag r) fun status => (kept status).2.2 r
    refine ⟨Heap.modify_get_field _ _ _ f Status.dataIdx fun status => (kept status).1,
      Heap.modify_get_field _ _ _ f Status.dataComplete fun status => (kept status).2.1,fun r flag => ?_,fun r flag => ?_⟩
    · rw [flags r,flag]
    · rw [flags r] at flag
      exact .inl flag
  have lags (f : Status → Status) (id : Nat) (kept : ∀ status, (f status).dataIdx = status.dataIdx ∧
      status.addrIdx ≤ (f status).addrIdx) (other : Nat) :
      ((s.heap.modify id f).get other).dataIdx ≤ ((s.heap.modify id f).get other).addrIdx := by
    rw [Heap.modify_get]
    split
    · rw [(kept _).1]
      exact (data.behind other).trans (kept _).2
    · exact data.behind other
  have down {P : Prop} (armed : false = true) : P := by cases armed
  have grows (phase : OkayPhase) (status : Status) : status.addrIdx ≤ accepted phase status := by
    rw [accepted]
    split <;> omega
  cases effect with
  | stutter =>
    exact ⟨⟨rfl,rfl,rfl⟩,⟨rfl,rfl,rfl⟩,id,fun _ _ => ⟨rfl,rfl,fun _ flag => flag,fun _ flag => .inl flag⟩,data.behind⟩
  | addrStay =>
    refine ⟨⟨rfl,rfl,rfl⟩,⟨rfl,rfl,rfl⟩,fun armed => ?_,
      fun _ _ => ⟨rfl,rfl,fun _ flag => flag,fun _ flag => .inl flag⟩,data.behind⟩
    cases armed
  | addrLast _ item phase | addrNext _ item phase =>
    refine ⟨⟨rfl,rfl,rfl⟩,⟨rfl,rfl,rfl⟩,fun armed => down armed,fun h _ => ?_,?_⟩
    · dsimp only [status]
      refine keep _ ?_ _ h
      exact fun _ => ⟨rfl,rfl,fun r => by cases r <;> rfl⟩
    · dsimp only
      refine lags _ _ ?_
      exact fun status => ⟨rfl,grows phase status⟩
  | addrSecond =>
    refine ⟨⟨rfl,rfl,rfl⟩,⟨rfl,rfl,rfl⟩,fun armed => down armed,fun h _ => ?_,?_⟩
    · dsimp only [status]
      refine keep _ ?_ _ h
      exact fun _ => ⟨rfl,rfl,fun r => by cases r <;> rfl⟩
    · dsimp only
      refine lags _ _ ?_
      exact fun status => ⟨rfl,Nat.le_refl _⟩
  | addrError _ item phase firsts armed listens first =>
    obtain ⟨before,c,edge⟩ := edge armed
    have item_known := objects.addrItem (h := item) (by rw [listens]; rfl)
    have resp := ne_okay_of_error first.2.1
    refine aside_first item ⟨rfl,rfl,rfl⟩ ⟨rfl,rfl,rfl⟩ rfl .error ?_ (fun h there other => ?_)
      (dataSide_first addr data edge armed listens resp first.2.2) ?_
    · dsimp only [status]
      rw [Heap.modify_get_self]
    · dsimp only [status]
      rw [modify_status objects item_known there,if_neg other]
      rfl
    · dsimp only
      refine lags _ _ ?_
      exact fun _ => ⟨rfl,Nat.le_refl _⟩
  | addrRedrive _ item phase firsts armed listens resp first =>
    obtain ⟨before,c,edge⟩ := edge armed
    have item_known := objects.addrItem (h := item) (by rw [listens]; rfl)
    have other := ne_okay_of_redrive resp
    refine aside_first item ⟨rfl,rfl,rfl⟩ ⟨rfl,rfl,rfl⟩ rfl s.sig.hresp ?_ (fun h there distinct => ?_)
      (dataSide_first addr data edge armed listens other first.2) (fun id => ?_)
    · dsimp only [status]
      rw [redrive_status objects item_known item_known,if_pos rfl]
      rfl
    · dsimp only [status]
      rw [redrive_status objects item_known there,if_neg distinct]
      rfl
    · dsimp only
      rw [Heap.alloc_get]
      split
      · exact Nat.le_refl _
      · refine lags _ _ ?_ id
        exact fun status => by cases s.sig.hresp <;> exact ⟨rfl,Nat.le_refl _⟩

/-- A new accepted beat of one item is in its data phase; other items are accepted and
driven as far as before, or have a response. -/
theorem lag_addrEdge {s : Driver aw dw} (objects : Objects s) (addr : AddrSide s) (lag : Lag s)
    (edge : s.addrArmed = true → ∃ before c, Edge s before c) (opt : Bool)
    (inData : s.dataArmed = true → ∀ h k, (seen s.dataArmed s.cycles).data = some (h,k) → h ∈ s.objects) :
    Lag (s.step (.addrEdge opt)) := by
  have effect := step_effect s (.addrEdge opt)
  generalize s.step (.addrEdge opt) = s' at effect ⊢
  -- the item of the address thread moves, and the beats it has more are in their data phase
  have moved (s' : Driver aw dw) (item : Handle aw dw) (here : item ∈ s.objects)
      (thread : s'.data = s.data ∧ s'.dataArmed = s.dataArmed ∧ s'.cycles = s.cycles)
      (members : ∀ h ∈ s'.objects, h ∈ s.objects ∨ ¬ (s'.status h).Clean)
      (others : ∀ h ∈ s.objects, h ≠ item → s'.status h = s.status h)
      (mine : (s'.status item).Clean → (s.status item).Clean ∧ (s'.status item).dataIdx = (s.status item).dataIdx ∧
        ∀ k, k < (s'.status item).addrIdx → k < (s.status item).addrIdx ∨
          (watch s.cycles).data = some (item,k)) : Lag s' := by
    obtain ⟨data,dataArmed,cycles⟩ := thread
    constructor
    · intro g member clean k low high
      rw [cycles,dataArmed]
      have before := (members g member).resolve_right (not_not_intro clean)
      by_cases same : g = item
      · subst same
        obtain ⟨clean',idx,more⟩ := mine clean
        rw [idx] at low
        exact (more k high).elim (lag.beat g before clean' k low) .inl
      · rw [others g before same] at clean low high
        exact lag.beat g before clean k low high
    · intro armed g member k clean there low
      rw [dataArmed] at armed
      rw [dataArmed,cycles] at there
      rw [data]
      have before := inData armed g k there
      by_cases same : g = item
      · subst same
        obtain ⟨clean',idx,_⟩ := mine clean
        rw [idx] at low
        exact lag.due armed g before k clean' there low
      · rw [others g before same] at clean low
        exact lag.due armed g before k clean there low
  have known {item : Handle aw dw} {phase : OkayPhase} {firsts : List TrxRsp}
      (listens : s.addr = .listen item phase firsts) : item ∈ s.objects := objects.addrItem (by rw [listens]; rfl)
  have others {item : Handle aw dw} (here : item ∈ s.objects) (f : Status → Status) (h : Handle aw dw)
      (there : h ∈ s.objects) (other : h ≠ item) : (s.heap.modify item.id f).get h.id = s.status h := by
    rw [modify_status objects here there,if_neg other]
  -- an accepted beat was the one presented
  have accept {item : Handle aw dw} {phase : OkayPhase} {firsts : List TrxRsp} (armed : s.addrArmed = true)
      (listens : s.addr = .listen item phase firsts)
      (okay : s.sig.hgrant = true ∧ s.sig.hresp = .okay ∧ s.sig.hready = true) (k : Nat)
      (high : k < accepted phase (s.status item)) : k < (s.status item).addrIdx ∨
        (watch s.cycles).data = some (item,k) := by
    obtain ⟨before,c,edge⟩ := edge armed
    obtain ⟨firsts',beat⟩ := addrSide_listens addr edge armed listens
    obtain ⟨none,next⟩ := edge_okay edge okay.2.1
    rw [none] at firsts'
    obtain rfl : firsts = [] := firsts'
    rw [okay.1,okay.2.2] at next
    rw [accepted] at high
    split at high
    · exact .inl high
    · rename_i free
      rcases Nat.lt_succ_iff_lt_or_eq.mp high with old | rfl
      · exact .inl old
      · right
        rw [next]
        dsimp only
        rw [if_pos rfl,if_pos rfl,beat,if_pos ⟨rfl,free⟩]
  have clean_flagged (r : TrxRsp) (resp : r ≠ .okay) (status : Status) : ¬ (flagged r status).Clean := by
    intro clean
    have flag := clean.2 r
    cases r with
    | okay => exact resp rfl
    | error | retry | split => cases flag
  cases effect with
  | stutter => exact lag
  | addrStay => exact ⟨lag.beat,lag.due⟩
  | addrLast _ item phase firsts armed listens okay | addrNext _ item phase firsts busy armed listens okay =>
    refine moved _ item (known listens) ⟨rfl,rfl,rfl⟩ (fun h there => .inl there) ?_ ?_
    · dsimp only [status]
      exact others (known listens) _
    · dsimp only [status]
      rw [Heap.modify_get_self]
      exact fun clean => ⟨⟨clean.1,fun r => by have := clean.2 r; cases r <;> exact this⟩,rfl,accept armed listens okay⟩
  | addrSecond _ item phase firsts armed listens =>
    refine moved _ item (known listens) ⟨rfl,rfl,rfl⟩ (fun h there => .inl there) ?_ ?_
    · dsimp only [status]
      exact others (known listens) _
    · dsimp only [status]
      rw [Heap.modify_get_self]
      exact fun clean => ⟨⟨clean.1,fun r => by have := clean.2 r; cases r <;> exact this⟩,rfl,fun k => .inl⟩
  | addrError _ item phase firsts armed listens first =>
    refine moved _ item (known listens) ⟨rfl,rfl,rfl⟩ (fun h there => .inl there) ?_ ?_
    · dsimp only [status]
      exact others (known listens) _
    · dsimp only [status]
      rw [Heap.modify_get_self]
      exact fun clean => absurd clean (clean_flagged .error (fun same => by cases same) _)
  | addrRedrive _ item phase firsts armed listens resp first =>
    have other := ne_okay_of_redrive resp
    refine moved _ item (known listens) ⟨rfl,rfl,rfl⟩ (fun h there => ?_) (fun h there distinct => ?_) ?_
    · simp only [Driver.objects,List.map_append,List.map_singleton,← List.append_assoc,List.mem_append,
        List.mem_singleton] at there
      rcases there with before | made
      · exact .inl (List.mem_append.mpr before)
      · right
        have number : h.id = (s.heap.modify item.id (flagged s.sig.hresp)).next := by rw [made]; rfl
        dsimp only [status]
        rw [number,Heap.alloc_get_next]
        intro clean
        have flag := clean.2 s.sig.hresp
        rcases resp with same | same <;> rw [same] at flag <;> cases flag
    · dsimp only [status]
      rw [redrive_status objects (known listens) there,if_neg distinct]
      rfl
    · dsimp only [status]
      rw [redrive_status objects (known listens) (known listens),if_pos rfl]
      exact fun clean => absurd clean (clean_flagged _ other _)

/-! ### Edges of the data thread -/

/-- What an edge tells the listeners of the data thread. -/
theorem dataSide_listens {s : Driver aw dw} {before : List (Cycle aw dw)} {c : Cycle aw dw} (data : DataSide s)
    (edge : Edge s before c) (armed : s.dataArmed = true) {g : Handle aw dw} {firsts : List TrxRsp}
    (listens : s.data = .listen g firsts) :
    (∀ r ∈ firsts, (watch before).pending = some r ∧ ∃ i, (watch before).data = some (g,i)) ∧
      ((watch before).pending = none → firsts = []) := by
  have pending := (data.listens g firsts listens).2.2.1
  rw [armed,edge.cycles,seen_armed] at pending
  refine ⟨pending,fun none => List.eq_nil_iff_forall_not_mem.mpr fun r member => ?_⟩
  have here := (pending r member).1
  rw [none] at here
  cases here

/-- An edge that the data thread stays at is no first cycle, and its listeners have seen none. -/
theorem dataSide_stays {s : Driver aw dw} {before : List (Cycle aw dw)} {c : Cycle aw dw} (data : DataSide s)
    (edge : Edge s before c) (armed : s.dataArmed = true) {g : Handle aw dw} {firsts : List TrxRsp}
    (listens : s.data = .listen g firsts)
    (unmoved : s.sig.hgrant = true → s.sig.hresp ≠ .okay → s.sig.hresp ∈ firsts → s.sig.hready = false)
    (unseen : s.sig.hgrant = true → s.sig.hresp ≠ .okay → s.sig.hresp ∉ firsts → s.sig.hready = true) :
    firsts = [] ∧ s.sig.first = false ∧ (watch s.cycles).pending = none := by
  obtain ⟨pending,empty⟩ := dataSide_listens data edge armed listens
  by_cases resp : s.sig.hresp = .okay
  · obtain ⟨none,next⟩ := edge_okay edge resp
    exact ⟨empty none,by simp [Sig.first,resp],by rw [next]⟩
  · have grant : s.sig.hgrant = true := by
      rw [← edge.sig]
      exact edge.granted (by rw [edge.sig]; exact resp)
    cases ready : s.sig.hready with
    | false =>
      obtain ⟨none,_⟩ := edge_first edge resp ready
      rw [empty none] at unseen
      rw [unseen grant resp List.not_mem_nil] at ready
      cases ready
    | true =>
      obtain ⟨here,_,next⟩ := edge_second edge resp ready
      refine ⟨?_,by simp [Sig.first,ready],by rw [next]⟩
      refine List.eq_nil_iff_forall_not_mem.mpr fun r member => ?_
      obtain rfl : s.sig.hresp = r := Option.some.inj (here.symm.trans (pending r member).1)
      rw [unmoved grant resp member] at ready
      cases ready

theorem dataSide_moved {s s' : Driver aw dw} (objects : Objects s) (data : DataSide s) {item : Handle aw dw}
    {firsts : List TrxRsp} (listens : s.data = .listen item firsts)
    (same : s'.dataPops = s.dataPops ∧ s'.cycles = s.cycles ∧ s'.dataArmed = false)
    (others : ∀ h ∈ s.objects, h ≠ item → s'.status h = s.status h)
    (behind : ∀ id, (s'.heap.get id).dataIdx ≤ (s'.heap.get id).addrIdx)
    (own : s'.data = .wait ∧ (s'.status item).dataComplete = true ∧
        ((s'.status item).dataIdx = item.trx.bstLen + 1 ∨ ∃ r, (item,r) ∈ (watch s.cycles).responses) ∨
      ∃ firsts', s'.data = .listen item firsts' ∧ (s'.status item).dataIdx ≤ item.trx.bstLen ∧
        (s'.status item).dataComplete = false ∧
        (∀ r ∈ firsts', (watch s.cycles).pending = some r ∧ ∃ i, (watch s.cycles).data = some (item,i)) ∧
        (∀ r, (s'.status item).flag r = true → firsts' ≠ []) ∧
        ((watch s.cycles).pending ≠ none → firsts' ≠ []))
    (closed : ∀ pair ∈ s'.closed, pair ∈ (watch s.cycles).responses)
    (known : s'.addrArmed = true → s'.sig.first = true → ∀ h i, (watch s.cycles).data = some (h,i) →
      h ∈ s.dataPops) : DataSide s' := by
  obtain ⟨dataPops,cycles,armed⟩ := same
  have view : seen s'.dataArmed s'.cycles = watch s.cycles := by rw [armed,cycles,seen_still]
  have idle {P : Prop} (here : s'.dataArmed = true) : P := by
    rw [armed] at here
    cases here
  have here : item ∈ s.dataPops := by
    obtain ⟨before,pops⟩ := data.last item (by rw [listens]; rfl)
    rw [pops]
    simp
  have thread : s'.data = .wait ∨ ∃ firsts', s'.data = .listen item firsts' := by
    rcases own with ⟨waits,_⟩ | ⟨firsts',listens',_⟩
    · exact .inl waits
    · exact .inr ⟨firsts',listens'⟩
  refine ⟨?_,?_,?_,?_,?_,?_,behind,idle,idle,?_,?_⟩
  · intro g firsts'' listens''
    rcases own with ⟨waits,_⟩ | ⟨firsts',listens',bound,incomplete,pending,flags,_⟩
    · rw [waits] at listens''
      cases listens''
    · rw [listens'] at listens''
      cases listens''
      rw [view]
      exact ⟨bound,incomplete,pending,fun r flag => .inl (flags r flag)⟩
  · intro g swaps
    rcases thread with waits | ⟨firsts',listens'⟩
    · rw [waits] at swaps
      cases swaps
    · rw [listens'] at swaps
      cases swaps
  · intro g works
    rcases thread with waits | ⟨firsts',listens'⟩
    · rw [waits] at works
      cases works
    · rw [listens'] at works
      obtain rfl := Option.some.inj works
      rw [dataPops]
      exact data.last item (by rw [listens]; rfl)
  · intro g member
    rw [dataPops] at member
    by_cases mine : g = item
    · subst mine
      rcases own with ⟨_,complete,_⟩ | ⟨firsts',listens',_⟩
      · refine .inr fun clean => ?_
        rw [clean.1] at complete
        cases complete
      · rw [listens']
        exact .inl rfl
    · rw [others g (dataPops_known objects member) mine]
      refine .inr ((data.pops g member).resolve_left fun works => ?_)
      rw [listens] at works
      exact mine (Option.some.inj works).symm
  · intro g member complete
    rw [dataPops] at member
    rw [cycles]
    by_cases mine : g = item
    · subst mine
      rcases own with ⟨_,_,ended⟩ | ⟨_,_,_,incomplete,_⟩
      · exact ended
      · rw [incomplete] at complete
        cases complete
    · rw [others g (dataPops_known objects member) mine] at complete ⊢
      exact data.ended g member complete
  · rw [cycles]
    exact closed
  · intro addrArmed first h i inData
    rw [cycles] at inData
    rw [dataPops]
    refine ⟨known addrArmed first h i inData,fun swaps => ?_⟩
    rcases thread with waits | ⟨firsts',listens'⟩
    · rw [waits] at swaps
      cases swaps
    · rw [listens'] at swaps
      cases swaps
  · intro _ pending h i inData firsts'' listens''
    rw [cycles] at pending
    rcases own with ⟨waits,_⟩ | ⟨firsts',listens',_,_,_,_,heard⟩
    · rw [waits] at listens''
      cases listens''
    · rw [listens'] at listens''
      cases listens''
      exact heard pending

theorem dataSide_dataEdge {s : Driver aw dw} (objects : Objects s) (data : DataSide s)
    (edge : s.dataArmed = true → ∃ before c, Edge s before c) : DataSide (s.step .dataEdge) := by
  have effect := step_effect s .dataEdge
  generalize s.step .dataEdge = s' at effect ⊢
  have others {item : Handle aw dw} {firsts : List TrxRsp} (listens : s.data = .listen item firsts)
      (f : Status → Status) (h : Handle aw dw) (there : h ∈ s.objects) (other : h ≠ item) :
      (s.heap.modify item.id f).get h.id = s.status h := by
    rw [modify_status objects (objects.dataItem (by rw [listens]; rfl)) there,if_neg other]
  have known (armed : s.addrArmed = true) (first : s.sig.first = true) (h : Handle aw dw) (i : Nat)
      (inData : (watch s.cycles).data = some (h,i)) := (data.known armed first h i inData).1
  cases effect with
  | stutter => exact data
  | dataStay item firsts armed listens waits unmoved unseen =>
    obtain ⟨before,c,edge⟩ := edge armed
    obtain ⟨bound,incomplete,_,flags⟩ := data.listens item firsts listens
    obtain ⟨rfl,first,none⟩ := dataSide_stays data edge armed listens unmoved unseen
    refine dataSide_moved objects data listens ⟨rfl,rfl,rfl⟩ (fun _ _ _ => rfl) data.behind
      (.inr ⟨[],listens,bound,incomplete,?_,?_,?_⟩) data.closed known
    · exact fun r member => absurd member List.not_mem_nil
    · refine fun r flag => (flags r flag).resolve_right ?_
      rw [first]
      exact fun both => by cases both.2
    · exact fun pending => absurd none pending
  | dataOver item firsts armed listens okay caught ended =>
    exact absurd ended (Nat.not_lt.mpr (data.listens item firsts listens).1)
  | dataDrive item firsts armed listens okay lags =>
    obtain ⟨before,c,edge⟩ := edge armed
    obtain ⟨bound,incomplete,_,flags⟩ := data.listens item firsts listens
    obtain ⟨none,next⟩ := edge_okay edge okay.1
    obtain rfl := (dataSide_listens data edge armed listens).2 none
    refine dataSide_moved objects data listens ⟨rfl,rfl,rfl⟩ ?_ (fun id => ?_) ?_ data.closed known
    · dsimp only [status]
      exact others listens _
    · dsimp only
      rw [Heap.modify_get]
      split
      · rename_i same
        rw [same]
        exact lags
      · exact data.behind id
    · dsimp only [status]
      rw [Heap.modify_get_self]
      by_cases last : item.trx.bstLen ≤ (s.status item).dataIdx
      · left
        refine ⟨if_pos last,?_,.inl ?_⟩
        · change ((s.status item).dataComplete || decide (item.trx.bstLen ≤ (s.status item).dataIdx)) = true
          rw [decide_eq_true last,Bool.or_true]
        · change (s.status item).dataIdx + 1 = _
          omega
      · right
        refine ⟨[],if_neg last,?_,?_,?_,?_,?_⟩
        · change (s.status item).dataIdx + 1 ≤ _
          omega
        · change ((s.status item).dataComplete || decide (item.trx.bstLen ≤ (s.status item).dataIdx)) = false
          rw [decide_eq_false last,Bool.or_false]
          exact incomplete
        · exact fun r member => absurd member List.not_mem_nil
        · intro r flag
          have flag' : (s.status item).flag r = true := by cases r <;> exact flag
          refine (flags r flag').resolve_right fun both => ?_
          have first := both.2
          simp [Sig.first,okay.1] at first
        · intro pending
          rw [next] at pending
          exact absurd rfl pending
  | dataFirst item firsts armed listens resp first unseen =>
    obtain ⟨before,c,edge⟩ := edge armed
    obtain ⟨bound,incomplete,_,_⟩ := data.listens item firsts listens
    obtain ⟨none,h,i,inData,_,next⟩ := edge_first edge resp first.2
    obtain rfl := (dataSide_listens data edge armed listens).2 none
    have mine : item = h := by
      have owner := data.owner armed (by simp [Sig.first,resp,first.2]) h i (by rw [next])
      rw [listens] at owner
      exact Option.some.inj owner
    subst mine
    refine dataSide_moved objects data listens ⟨rfl,rfl,rfl⟩ (fun _ _ _ => rfl) data.behind
      (.inr ⟨[s.sig.hresp],rfl,bound,incomplete,?_,?_,?_⟩) data.closed known
    · intro r member
      rw [List.mem_singleton.mp member,next]
      exact ⟨rfl,i,rfl⟩
    · exact fun _ _ => List.cons_ne_nil _ _
    · exact fun _ => List.cons_ne_nil _ _
  | dataSecond item firsts armed listens resp second seen' =>
    obtain ⟨before,c,edge⟩ := edge armed
    obtain ⟨pending,i,inData⟩ := (dataSide_listens data edge armed listens).1 _ seen'
    obtain ⟨_,_,next⟩ := edge_second edge resp second.2
    have answered : (item,s.sig.hresp) ∈ (watch s.cycles).responses := by
      obtain ⟨_,h,j,inData',charged⟩ := edge.regular _ pending
      rw [inData] at inData'
      cases inData'
      rw [next]
      exact charged
    refine dataSide_moved objects data listens ⟨rfl,rfl,rfl⟩ ?_ (fun id => ?_) (.inl ⟨rfl,?_,.inr ⟨_,answered⟩⟩)
      (fun pair member => ?_) known
    · dsimp only [status]
      exact others listens _
    · dsimp only
      rw [Heap.modify_get]
      split
      · exact data.behind _
      · exact data.behind id
    · dsimp only [status]
      rw [Heap.modify_get_self]
    · rcases List.mem_append.mp member with old | new
      · exact data.closed pair old
      · rw [List.mem_singleton.mp new]
        exact answered

/-- The beat a response is to has its item charged, so it is not clean. -/
theorem second_unclean {s : Driver aw dw} {before : List (Cycle aw dw)} {c : Cycle aw dw} (addr : AddrSide s)
    (edge : Edge s before c) (resp : s.sig.hresp ≠ .okay) (high : s.sig.hready = true) {g : Handle aw dw} {k : Nat}
    (inData : (watch before).data = some (g,k)) : ¬ (s.status g).Clean := by
  obtain ⟨pending,_,next⟩ := edge_second edge resp high
  obtain ⟨_,h,i,inData',answered⟩ := edge.regular _ pending
  rw [inData] at inData'
  cases inData'
  have charged : (g,s.sig.hresp) ∈ s.charged := by
    rw [addr.charged]
    cases armed : s.addrArmed with
    | true =>
      rw [edge.cycles,seen_armed]
      exact answered
    | false =>
      rw [seen_still,next]
      exact answered
  intro clean
  have flag := addr.accounts.marked g _ charged
  rw [clean.2] at flag
  cases flag

theorem lag_dataEdge {s : Driver aw dw} (objects : Objects s) (addr : AddrSide s) (data : DataSide s) (lag : Lag s)
    (edge : s.dataArmed = true → ∃ before c, Edge s before c) : Lag (s.step .dataEdge) := by
  have effect := step_effect s .dataEdge
  generalize s.step .dataEdge = s' at effect ⊢
  have down {P : Prop} (armed : false = true) : P := by cases armed
  have others {item : Handle aw dw} {firsts : List TrxRsp} (listens : s.data = .listen item firsts)
      (f : Status → Status) (h : Handle aw dw) (there : h ∈ s.objects) (other : h ≠ item) :
      (s.heap.modify item.id f).get h.id = s.status h := by
    rw [modify_status objects (objects.dataItem (by rw [listens]; rfl)) there,if_neg other]
  -- what was in its data phase until the edge is the data thread's item
  have due {before : List (Cycle aw dw)} {c : Cycle aw dw} (edge : Edge s before c) (armed : s.dataArmed = true)
      {item : Handle aw dw} {firsts : List TrxRsp} (listens : s.data = .listen item firsts) {g : Handle aw dw}
      (member : g ∈ s.objects) (clean : (s.status g).Clean) {k : Nat} (low : (s.status g).dataIdx ≤ k)
      (inData : (watch before).data = some (g,k)) : item = g := by
    have works := lag.due armed g member k clean (by rw [armed,edge.cycles,seen_armed]; exact inData) low
    rw [listens] at works
    exact Option.some.inj works
  have view {before : List (Cycle aw dw)} {c : Cycle aw dw} (edge : Edge s before c) (armed : s.dataArmed = true) :
      seen s.dataArmed s.cycles = watch before := by rw [armed,edge.cycles,seen_armed]
  cases effect with
  | stutter => exact lag
  | dataStay item firsts armed listens waits unmoved unseen =>
    obtain ⟨before,c,edge⟩ := edge armed
    refine ⟨fun g member clean k low high => .inl ?_,down⟩
    rcases lag.beat g member clean k low high with here | ⟨_,there⟩
    · exact here
    · rw [view edge armed] at there
      obtain rfl := due edge armed listens member clean low there
      have first := (dataSide_stays data edge armed listens unmoved unseen).2.1
      by_cases resp : s.sig.hresp = .okay
      · cases ready : s.sig.hready with
        | true => exact absurd ((waits resp ready).1) (Nat.not_le.mpr (lt_of_le_of_lt low high))
        | false =>
          rw [(edge_okay edge resp).2,ready]
          exact there
      · cases ready : s.sig.hready with
        | true => exact absurd clean (second_unclean addr edge resp ready there)
        | false => simp [Sig.first,resp,ready] at first
  | dataOver item firsts armed listens okay caught ended =>
    exact absurd ended (Nat.not_lt.mpr (data.listens item firsts listens).1)
  | dataDrive item firsts armed listens okay behind =>
    obtain ⟨before,c,edge⟩ := edge armed
    obtain ⟨_,next⟩ := edge_okay edge okay.1
    rw [okay.2] at next
    refine ⟨fun g member clean k low high => .inl ?_,down⟩
    by_cases mine : g = item
    · subst mine
      dsimp only [status] at clean low high
      rw [Heap.modify_get_self] at clean low high
      have incomplete := (data.listens g firsts listens).2.1
      have clean' : (s.status g).Clean := ⟨incomplete,fun r => by have := clean.2 r; cases r <;> exact this⟩
      change (s.status g).dataIdx + 1 ≤ k at low
      change k < (s.status g).addrIdx at high
      rcases lag.beat g member clean' k (by omega) high with here | ⟨_,there⟩
      · exact here
      -- the beat now driven and one more cannot both have been accepted
      · rw [view edge armed] at there
        rcases lag.beat g member clean' _ (Nat.le_refl _) behind with here | ⟨_,there'⟩
        · exfalso
          cases addrArmed : s.addrArmed with
          | true =>
            have idx := (addr.beat g k (by rw [addrArmed,edge.cycles,seen_armed]; exact there)).2.1
            rw [next] at here
            dsimp only at here
            rw [if_pos rfl] at here
            split at here
            · rw [edge.shown addrArmed] at here
              rw [presented_idx here] at behind
              exact absurd behind (Nat.lt_irrefl _)
            · cases here
          | false =>
            have idx := (addr.beat g _ (by rw [addrArmed,seen_still]; exact here)).2.1
            omega
        · rw [view edge armed,there] at there'
          cases there'
          omega
    · dsimp only [status] at clean low high
      rw [others listens _ g member mine] at clean low high
      rcases lag.beat g member clean k low high with here | ⟨_,there⟩
      · exact here
      · rw [view edge armed] at there
        exact absurd (due edge armed listens member clean low there).symm mine
  | dataFirst item firsts armed listens resp first unseen =>
    obtain ⟨before,c,edge⟩ := edge armed
    obtain ⟨_,h,i,inData,_,next⟩ := edge_first edge resp first.2
    refine ⟨fun g member clean k low high => .inl ?_,down⟩
    rcases lag.beat g member clean k low high with here | ⟨_,there⟩
    · exact here
    · rw [view edge armed,inData] at there
      change (watch s.cycles).data = _
      rw [next]
      exact there
  | dataSecond item firsts armed listens resp second seen' =>
    obtain ⟨before,c,edge⟩ := edge armed
    refine ⟨fun g member clean k low high => .inl ?_,down⟩
    by_cases mine : g = item
    · subst mine
      dsimp only [status] at clean
      rw [Heap.modify_get_self] at clean
      cases clean.1
    · dsimp only [status] at clean low high
      rw [others listens _ g member mine] at clean low high
      rcases lag.beat g member clean k low high with here | ⟨_,there⟩
      · exact here
      · rw [view edge armed] at there
        exact absurd (due edge armed listens member clean low there).symm mine

/-! ### Items of the data thread, and the clock -/

/-- Between edges a thread that is not listening has looked at the last one. -/
theorem dataSide_idle {s : Driver aw dw} (data : DataSide s) (idle : ∀ g firsts, s.data ≠ .listen g firsts) :
    s.dataArmed = false := by
  cases armed : s.dataArmed with
  | false => rfl
  | true =>
    obtain ⟨g,firsts,listens⟩ := data.armed armed
    exact absurd listens (idle g firsts)

theorem dataSide_dataGet {s : Driver aw dw} (sound : Sound s) (data : DataSide s) : DataSide (s.step .dataGet) := by
  have effect := step_effect s .dataGet
  generalize s.step .dataGet = s' at effect ⊢
  cases effect with
  | stutter => exact data
  | dataTake item rest waits sorted =>
    have still : s.dataArmed = false := dataSide_idle data fun g firsts listens => by
      rw [waits] at listens
      cases listens
    have idle {P : Prop} (armed : s.dataArmed = true) : P := by
      rw [still] at armed
      cases armed
    have fresh := sound.conserved.data_fresh item rest sorted
    have untaken := sound.untaken_data item rest sorted
    obtain ⟨listens,swaps,last,pops,ended,closed,behind,armed,owner,known,heard⟩ := data
    refine ⟨?_,?_,?_,?_,?_,closed,behind,idle,idle,?_,?_⟩
    · intro g firsts listens
      cases listens
    · intro g swaps
      cases swaps
      exact untaken
    · intro g works
      obtain rfl := Option.some.inj works
      exact ⟨s.dataPops,rfl⟩
    · intro g member
      rcases List.mem_append.mp member with before | new
      · rcases pops g before with works | done
        · rw [waits] at works
          cases works
        · exact .inr done
      · rw [List.mem_singleton.mp new]
        exact .inl rfl
    · intro g member complete
      rcases List.mem_append.mp member with before | new
      · exact ended g before complete
      · rw [List.mem_singleton.mp new] at complete
        change (s.status item).dataComplete = true at complete
        rw [untaken.2] at complete
        cases complete
    · intro addrArmed first h i inData
      have popped := (known addrArmed first h i inData).1
      refine ⟨List.mem_append_left _ popped,fun swaps => ?_⟩
      cases swaps
      exact fresh popped
    · intro _ _ h i _ firsts listens
      cases listens

theorem dataSide_dataSwap {s : Driver aw dw} (addr : AddrSide s) (data : DataSide s)
    (edge : s.addrArmed = true → ∃ before c, Edge s before c) (regular : (watch s.cycles).Regular) :
    DataSide (s.step .dataSwap) := by
  have effect := step_effect s .dataSwap
  generalize s.step .dataSwap = s' at effect ⊢
  have still (item : Handle aw dw) (swaps : s.data = .swap item) : s.dataArmed = false :=
    dataSide_idle data fun g firsts listens => by
      rw [swaps] at listens
      cases listens
  cases effect with
  | stutter => exact data
  | dataSkip item swaps done =>
    have still := still item swaps
    have idle {P : Prop} (armed : s.dataArmed = true) : P := by
      rw [still] at armed
      cases armed
    obtain ⟨listens,swaps',last,pops,ended,closed,behind,armed,owner,known,heard⟩ := data
    refine ⟨?_,?_,?_,?_,ended,closed,behind,idle,idle,?_,?_⟩
    · intro g firsts listens
      cases listens
    · intro g swaps
      cases swaps
    · intro g works
      cases works
    · intro g member
      refine .inr ((pops g member).elim (fun works clean => ?_) id)
      rw [swaps] at works
      obtain rfl : item = g := Option.some.inj works
      obtain ⟨complete,retry,split,error⟩ := (Status.clean_iff _).mp clean
      change (s.status item).dataComplete = false at complete
      change (s.status item).retry = false at retry
      change (s.status item).split = false at split
      change (s.status item).error = false at error
      simp [complete,retry,split,error] at done
    · intro addrArmed first h i inData
      refine ⟨(known addrArmed first h i inData).1,fun swaps => ?_⟩
      cases swaps
    · intro _ _ h i _ firsts listens
      cases listens
  | dataEmpty item swaps clean ended =>
    rw [(data.swaps item swaps).1] at ended
    exact absurd ended (Nat.not_lt_zero _)
  | dataStart item swaps clean left =>
    have still := still item swaps
    have idle {P : Prop} (armed : s.dataArmed = true) : P := by
      rw [still] at armed
      cases armed
    have clean' := (Status.clean_iff _).mpr clean
    obtain ⟨listens,swaps',last,pops,ended,closed,behind,armed,owner,known,heard⟩ := data
    refine ⟨?_,?_,?_,?_,ended,closed,behind,idle,idle,?_,?_⟩
    · intro g firsts listens
      cases listens
      refine ⟨left,clean.1,fun r member => absurd member List.not_mem_nil,fun r flag => ?_⟩
      cases flag.symm.trans (clean'.2 r)
    · intro g swaps
      cases swaps
    · intro g works
      obtain rfl := Option.some.inj works
      exact last item (by rw [swaps]; rfl)
    · intro g member
      refine (pops g member).imp_left fun works => ?_
      rw [swaps] at works
      exact works
    · intro addrArmed first h i inData
      refine ⟨(known addrArmed first h i inData).1,fun swaps => ?_⟩
      cases swaps
    -- an item with a response to come is charged already, or is not the one just taken
    · intro _ pending h i inData firsts listens
      exfalso
      cases listens
      cases addrArmed : s.addrArmed with
      | true =>
        obtain ⟨before,c,edge⟩ := edge addrArmed
        have first : s.sig.first = true := by
          by_contra later
          refine pending ?_
          change (watch s.cycles).pending = none
          rw [edge.cycles,watch_concat,Watch.next,edge.sig]
          exact if_neg later
        exact (known addrArmed first item i inData).2 swaps
      | false =>
        obtain ⟨r,some⟩ := Option.ne_none_iff_exists'.mp pending
        obtain ⟨_,h,j,inData',answered⟩ := regular r some
        obtain rfl : item = h := by
          have same := inData.symm.trans inData'
          cases same
          rfl
        have charged : (item,r) ∈ s.charged := by
          rw [addr.charged,addrArmed,seen_still]
          exact answered
        have flag := addr.accounts.marked item r charged
        rw [clean'.2 r] at flag
        cases flag

theorem lag_between {s : Driver aw dw} (data : DataSide s) (lag : Lag s) :
    Lag (s.step .dataGet) ∧ Lag (s.step .dataSwap) := by
  have still (idle : ∀ g firsts, s.data ≠ .listen g firsts) {P : Prop} (armed : s.dataArmed = true) : P := by
    rw [dataSide_idle data idle] at armed
    cases armed
  constructor
  · have effect := step_effect s .dataGet
    generalize s.step .dataGet = s' at effect ⊢
    cases effect with
    | stutter => exact lag
    | dataTake item rest waits sorted =>
      refine ⟨lag.beat,still fun g firsts listens => ?_⟩
      rw [waits] at listens
      cases listens
  · have effect := step_effect s .dataSwap
    generalize s.step .dataSwap = s' at effect ⊢
    cases effect with
    | stutter => exact lag
    | dataSkip item swaps | dataStart item swaps =>
      refine ⟨lag.beat,still fun g firsts listens => ?_⟩
      rw [swaps] at listens
      cases listens
    | dataEmpty item swaps clean ended =>
      rw [(data.swaps item swaps).1] at ended
      exact absurd ended (Nat.not_lt_zero _)

theorem next_first {w : Watch aw dw} {c : Cycle aw dw} (first : c.sig.first = true) : (w.next c).data = w.data := by
  have low : c.sig.hready = false := by
    rw [Sig.first,Bool.and_eq_true] at first
    simpa using first.1
  simp [Watch.next,low]

theorem spared_first {s : Driver aw dw} {sig : Sig} (allowed : (watch s.cycles).Allows sig)
    (spared : Spared s (.posedge sig)) (first : sig.first = true) : (watch s.cycles).pending = none ∧ SameOrder s ∧
      ∃ h i, (watch s.cycles).data = some (h,i) ∧ i < h.trx.bstLen ∧ (h ∈ s.taken ∨ s.data.item? = none) := by
  obtain ⟨low,resp⟩ : sig.hready = false ∧ sig.hresp ≠ .okay := by simpa [Sig.first] using first
  have none := allowed.pending_low low
  obtain ⟨_,spared⟩ := spared resp
  obtain ⟨same,beats⟩ := spared none
  rw [Watch.Allows,none] at allowed
  obtain ⟨⟨h,i⟩,data⟩ := Option.isSome_iff_exists.mp (allowed.resolve_left resp).2
  obtain ⟨more,mine⟩ := beats (h,i) data
  exact ⟨none,same,h,i,data,more,mine⟩

theorem data_posedge (s : Driver aw dw) : (∃ g firsts, s.data = .listen g firsts ∧
    (match s.data with | .listen _ _ => true | _ => false) = true) ∨
      (∀ g firsts, s.data ≠ .listen g firsts) ∧ (match s.data with | .listen _ _ => true | _ => false) = false := by
  cases s.data with
  | wait | swap =>
    refine .inr ⟨?_,rfl⟩
    intro g firsts listens
    cases listens
  | listen g firsts => exact .inl ⟨g,firsts,rfl,rfl⟩

theorem dataSide_posedge {s : Driver aw dw} (sound : Sound s) (addr : AddrSide s) (data : DataSide s)
    (lag : SameOrder s → Lag s) (sig : Sig) (allowed : (watch s.cycles).Allows sig)
    (spared : Spared s (.posedge sig)) : DataSide (s.step (.posedge sig)) := by
  have effect := step_effect s (.posedge sig)
  generalize s.step (.posedge sig) = s' at effect ⊢
  cases effect with
  | stutter => exact data
  | posedge _ settled =>
    let c : Cycle aw dw := ⟨s.vif,sig,s.presented⟩
    have addrStill := settled.1
    have still := settled.2.1
    have next : watch (s.cycles ++ [c]) = (watch s.cycles).next c := watch_concat s.cycles c
    have grown (pair : Handle aw dw × TrxRsp) (member : pair ∈ (watch s.cycles).responses) :
        pair ∈ (watch (s.cycles ++ [c])).responses := by
      rw [next]
      exact List.mem_append_left _ member
    -- the data thread is on the item in its data phase, when a response is about to come
    have owner (first : sig.first = true) (h : Handle aw dw) (i : Nat)
        (inData : (watch (s.cycles ++ [c])).data = some (h,i)) (g : Handle aw dw) (firsts : List TrxRsp)
        (listens : s.data = .listen g firsts) : g = h := by
      rw [next,next_first first] at inData
      obtain ⟨none,same,h',i',inData',more,mine | idle⟩ := spared_first allowed spared first
      · rw [inData] at inData'
        cases inData'
        exact dataSide_owner sound addr data (lag same) settled same none inData more mine listens
      · rw [listens] at idle
        cases idle
    rcases data_posedge s with ⟨g,firsts,thread,armed⟩ | ⟨idle,unarmed⟩
    · have view : seen (match s.data with | .listen _ _ => true | _ => false) (s.cycles ++ [c]) = seen s.dataArmed s.cycles := by
        rw [armed,still,seen_armed,seen_still]
      refine ⟨?_,data.swaps,data.last,data.pops,?_,?_,data.behind,?_,?_,?_,?_⟩
      · intro g' firsts' listens
        obtain ⟨bound,incomplete,pending,flags⟩ := data.listens g' firsts' listens
        rw [← view] at pending
        refine ⟨bound,incomplete,pending,fun r flag => .inl ?_⟩
        refine (flags r flag).resolve_right fun both => ?_
        rw [still] at both
        cases both.1
      · exact fun g' member complete => (data.ended g' member complete).imp_right fun ⟨r,old⟩ => ⟨r,grown _ old⟩
      · exact fun pair member => grown pair (data.closed pair member)
      · exact fun _ => ⟨g,firsts,thread⟩
      · intro _ first h i inData
        obtain rfl := owner first h i inData g firsts thread
        exact congrArg DataThread.item? thread
      · intro _ first h i inData
        obtain rfl := owner first h i inData g firsts thread
        obtain ⟨before,pops⟩ := data.last g (by rw [thread]; rfl)
        refine ⟨?_,fun swaps => ?_⟩
        · change g ∈ s.dataPops
          rw [pops]
          simp
        · change s.data = .swap g at swaps
          rw [thread] at swaps
          cases swaps
      · intro unarmed
        cases armed.symm.trans unarmed
    · have none {P : Prop} (armed : (match s.data with | .listen _ _ => true | _ => false) = true) : P := by
        rw [unarmed] at armed
        cases armed
      refine ⟨?_,data.swaps,data.last,data.pops,?_,?_,data.behind,none,none,?_,?_⟩
      · exact fun g firsts listens => absurd listens (idle g firsts)
      · exact fun g' member complete => (data.ended g' member complete).imp_right fun ⟨r,old⟩ => ⟨r,grown _ old⟩
      · exact fun pair member => grown pair (data.closed pair member)
      · intro _ first h i inData
        change (watch (s.cycles ++ [c])).data = some (h,i) at inData
        rw [next,next_first first] at inData
        have taken := (addr.beat h i (by rw [addrStill]; exact inData)).1
        refine ⟨(settled_taken sound settled (addrPops_known sound.objects taken)).resolve_right ?_,fun swaps => ?_⟩
        · exact fun ⟨g,firsts,listens⟩ => idle g firsts listens
        · have swapped := settled.2.2.2.2
          change s.data = .swap h at swaps
          rw [swaps] at swapped
          exact swapped
      · exact fun _ _ h i _ firsts listens => absurd listens (idle h firsts)

theorem lag_posedge {s : Driver aw dw} (sound : Sound s) (addr : AddrSide s) (data : DataSide s) (lag : Lag s)
    (same : SameOrder s) (sig : Sig) : Lag (s.step (.posedge sig)) := by
  have effect := step_effect s (.posedge sig)
  generalize s.step (.posedge sig) = s' at effect ⊢
  cases effect with
  | stutter => exact lag
  | posedge _ settled =>
    let c : Cycle aw dw := ⟨s.vif,sig,s.presented⟩
    have still := settled.2.1
    have inData {g : Handle aw dw} {k : Nat} (member : g ∈ s.objects) (clean : (s.status g).Clean)
        (low : (s.status g).dataIdx ≤ k) (high : k < (s.status g).addrIdx) : (watch s.cycles).data = some (g,k) := by
      refine (lag.beat g member clean k low high).resolve_right fun both => ?_
      rw [still] at both
      cases both.1
    rcases data_posedge s with ⟨g,firsts,thread,armed⟩ | ⟨idle,unarmed⟩
    · have view : seen (match s.data with | .listen _ _ => true | _ => false) (s.cycles ++ [c]) = watch s.cycles := by
        rw [armed,seen_armed]
      constructor
      · intro g' member clean k low high
        exact .inr ⟨armed,(congrArg Watch.data view).trans (inData member clean low high)⟩
      · intro _ g' _ k clean here _
        exact dataSide_due sound addr data lag settled same clean ((congrArg Watch.data view).symm.trans here)
    · constructor
      · intro g' member clean k low high
        have works := dataSide_due sound addr data lag settled same clean (inData member clean low high)
        exfalso
        cases thread : s.data with
        | wait =>
          rw [thread] at works
          cases works
        | swap g =>
          have swapped := settled.2.2.2.2
          rw [thread] at swapped
          exact swapped
        | listen g firsts => exact idle g firsts thread
      · intro armed
        cases unarmed.symm.trans armed

end Driver

end Smtdv.Ahb
