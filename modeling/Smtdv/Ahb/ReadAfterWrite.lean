import Smtdv.Ahb.SlaveRun

/-! A read loads what the writes before it have stored: the invariants of the processes of the
slave sequence, and what they give for the memory. -/
namespace Smtdv.Ahb.SlaveRun
open Lib Memory

variable {aw dw : Nat}

def kind (s : SlaveRun aw dw) (r : Nat) : Option TrsType := s.items[r]?.map fun item => item.trsT

/-- How far the bus, the loop and its forks are apart: at most the last two items are under way,
both only in the instant in which the last is asserted. -/
structure Paced (s : SlaveRun aw dw) : Prop where
  completed : s.completed ≤ s.items.length
  behind : s.items.length ≤ s.completed+1 ∨ s.items.length = s.completed+2 ∧ s.age = 0
  young : s.age = 0 → s.items.length = 0 ∨ s.completed < s.items.length
  fetched : s.fetched = s.items.length ∨ s.fetched+1 = s.items.length ∧ s.age = 0
  current : s.fetched = 0 ∨ s.mitem+1 = s.fetched
  forks : s.forked+s.ready = 0 ∨ s.forked+s.ready = 1 ∧ s.fetched = s.items.length ∧
    0 < s.items.length ∧ s.age = 0 ∧ s.kind s.mitem = some .wr ∧ s.mitem ∉ s.writers ∧
    (0 < s.forked → s.rcv = .get) ∧ (0 < s.ready → s.rcv = .blocked)
  swap : s.rcv = .swap → s.fetched = s.items.length ∧ 0 < s.items.length ∧ s.age = 0 ∧
    s.kind s.mitem = some .rd
  lock : s.rcv = .lock → 0 < s.fetched ∧ s.kind s.mitem = some .rd ∧
    (s.fetched+1 = s.items.length ∨ 0 < s.age)
  writers : ∀ w ∈ s.writers, w < s.fetched ∧ s.kind w = some .wr ∧
    (w+1 = s.items.length ∨ w+2 = s.items.length ∧ s.age = 0)
  nodup : s.writers.Nodup
  free : s.mem.hasLock = false
  failed : s.mem.failed = false
  plain : ∀ r, s.kind r ≠ some .rdwr
  ended : ∀ r < s.items.length, (s.item r).success = decide (r < s.completed) ∧
    s.ended r = decide (r < s.completed)

theorem kind_append {s : SlaveRun aw dw} {r : Nat} (inside : r < s.items.length) (item : SlaveItem aw dw) :
    (s.items ++ [item])[r]?.map (fun item => item.trsT) = s.kind r := by
  rw [List.getElem?_append_left inside,kind]

theorem lt_of_kind {s : SlaveRun aw dw} {r : Nat} {t : TrsType} (found : s.kind r = some t) :
    r < s.items.length := by
  by_contra past
  rw [kind,List.getElem?_eq_none (by omega)] at found
  cases found

theorem paced_assert {s : SlaveRun aw dw} (paced : s.Paced) (c : Sample aw dw) (bgCyc : Nat)
    (timed : s.Timed (.assert c bgCyc)) : (s.assert c bgCyc).Paced := by
  obtain ⟨-,room⟩ := timed
  have all : s.fetched = s.items.length := by
    rcases paced.fetched with all | ⟨_,young⟩
    · exact all
    · have := paced.young young
      omega
  have idle : s.forked+s.ready = 0 := by
    rcases paced.forks with idle | ⟨_,_,_,young,_⟩
    · exact idle
    · have := paced.young young
      omega
  have size : (s.assert c bgCyc).items.length = s.items.length+1 := by simp [assert]
  have kept {r : Nat} {t : TrsType} (found : s.kind r = some t) : (s.assert c bgCyc).kind r = some t :=
    (kind_append (lt_of_kind found) _).trans found
  have completed := paced.completed
  constructor
  · rw [size]
    exact Nat.le_succ_of_le completed
  · rw [size]
    change _ ≤ s.completed+1 ∨ _ = s.completed+2 ∧ _
    rcases room with room | ⟨room,_⟩
    · exact .inl (by omega)
    · exact .inr ⟨by omega,rfl⟩
  · intro _
    exact .inr (by rw [size]; exact Nat.lt_succ_of_le completed)
  · exact .inr ⟨by rw [size]; exact congrArg (·+1) all,rfl⟩
  · exact paced.current
  · exact .inl idle
  · intro swap
    obtain ⟨_,_,young,_⟩ := paced.swap swap
    have := paced.young young
    omega
  · intro lock
    obtain ⟨some,read,_⟩ := paced.lock lock
    exact ⟨some,kept read,.inl (by rw [size]; exact congrArg (·+1) all)⟩
  · intro w member
    obtain ⟨taken,write,place⟩ := paced.writers w member
    refine ⟨taken,kept write,.inr ⟨?_,rfl⟩⟩
    rw [size]
    rcases place with place | ⟨_,young⟩
    · omega
    · have := paced.young young
      omega
  · exact paced.nodup
  · exact paced.free
  · exact paced.failed
  · intro r
    rcases Nat.lt_trichotomy r s.items.length with old | rfl | past
    · exact fun found => paced.plain r ((kind_append old _).symm.trans found)
    · simp only [kind,assert,List.getElem?_concat_length,Option.map_some,ne_eq,Option.some.injEq]
      unfold CollItem.populateNonseqItem
      cases c.hwrite <;> simp
    · rw [kind,List.getElem?_eq_none (by rw [size]; omega)]
      simp
  · intro r inside
    rw [size] at inside
    change ((s.assert c bgCyc).item r).success = decide (r < s.completed) ∧
      (((s.assert c bgCyc).item r).addrComplete && ((s.assert c bgCyc).item r).dataComplete) =
        decide (r < s.completed)
    rcases Nat.lt_or_ge r s.items.length with old | new
    · have same : (s.assert c bgCyc).item r = s.item r := by
        simp [item,assert,List.getElem?_append_left old]
      rw [same]
      exact paced.ended r old
    · obtain rfl : r = s.items.length := by omega
      have fresh : (s.assert c bgCyc).item s.items.length =
          {CollItem.populateNonseqItem c with bgCyc := bgCyc} := by
        simp [item,assert]
      rw [fresh,decide_eq_false (by omega)]
      exact ⟨rfl,rfl⟩

theorem kind_complete (s : SlaveRun aw dw) (addrs : List (BitVec aw)) (dataBeat : List (Beat dw)) :
    (s.complete addrs dataBeat).kind = s.kind := by
  funext r
  rw [kind,kind,complete]
  by_cases here : s.completed = r
  · subst here
    rw [List.getElem?_modify_eq]
    cases s.items[s.completed]? <;> rfl
  · rw [List.getElem?_modify_ne _ _ here]

theorem item_complete_ne (s : SlaveRun aw dw) (addrs : List (BitVec aw)) (dataBeat : List (Beat dw))
    {r : Nat} (other : r ≠ s.completed) : (s.complete addrs dataBeat).item r = s.item r := by
  simp [item,complete,List.getElem?_modify_ne _ _ (Ne.symm other)]

theorem paced_complete {s : SlaveRun aw dw} (paced : s.Paced) (addrs : List (BitVec aw))
    (dataBeat : List (Beat dw)) (timed : s.Timed (.complete addrs dataBeat)) :
    (s.complete addrs dataBeat).Paced := by
  obtain ⟨open_,later⟩ := timed
  have size : (s.complete addrs dataBeat).items.length = s.items.length := by simp [complete]
  have kinds := kind_complete s addrs dataBeat
  have behind := paced.behind
  constructor
  · rw [size]
    exact open_
  · rw [size]
    change _ ≤ s.completed+1+1 ∨ _
    exact .inl (by omega)
  · intro young
    rw [size]
    change _ ∨ s.completed+1 < _
    have young : s.age = 0 := young
    by_cases last : s.completed+1 = s.items.length
    · have := later last
      omega
    · omega
  · rw [size]
    exact paced.fetched
  · exact paced.current
  · rw [size,kinds]
    exact paced.forks
  · rw [size,kinds]
    exact paced.swap
  · rw [size,kinds]
    exact paced.lock
  · rw [size,kinds]
    exact paced.writers
  · exact paced.nodup
  · exact paced.free
  · exact paced.failed
  · rw [kinds]
    exact paced.plain
  · intro r inside
    rw [size] at inside
    by_cases here : r = s.completed
    · subst here
      have done : (s.complete addrs dataBeat).item s.completed =
          {s.item s.completed with
            addrs := addrs, dataBeat := dataBeat, rsp := some .okay, success := true
            addrComplete := true, dataComplete := true} := by
        simp [item,complete,List.getElem?_eq_getElem open_]
      change ((s.complete addrs dataBeat).item s.completed).success = decide (s.completed < s.completed+1) ∧
        (((s.complete addrs dataBeat).item s.completed).addrComplete &&
          ((s.complete addrs dataBeat).item s.completed).dataComplete) =
          decide (s.completed < s.completed+1)
      rw [done,decide_eq_true (Nat.lt_succ_self _)]
      exact ⟨rfl,rfl⟩
    · have same := item_complete_ne s addrs dataBeat here
      have flags := paced.ended r inside
      have bound : decide (r < s.completed+1) = decide (r < s.completed) := by
        apply decide_eq_decide.mpr
        omega
      change ((s.complete addrs dataBeat).item r).success = decide (r < s.completed+1) ∧
        (((s.complete addrs dataBeat).item r).addrComplete &&
          ((s.complete addrs dataBeat).item r).dataComplete) = decide (r < s.completed+1)
      rw [same,bound]
      exact flags

/-- What a turn of the loop does: it finds nothing, a read or a write. -/
theorem get_cases (s : SlaveRun aw dw) :
    s.get = s ∨
    (s.rcv = .get ∨ s.rcv = .blocked) ∧
      (s.items.length ≤ s.fetched ∧ s.get = s.block .blocked ∨
      s.kind s.fetched = some .rd ∧
        s.get = {s with fetched := s.fetched+1, mitem := s.fetched}.block .swap ∨
      s.kind s.fetched = some .wr ∧
        s.get = {s with fetched := s.fetched+1, mitem := s.fetched, rcv := .get, forked := s.forked+1} ∨
      s.kind s.fetched = some .rdwr) := by
  unfold get
  split
  · rename_i runs
    refine .inr ⟨runs,?_⟩
    cases found : s.items[s.fetched]? with
    | none => exact .inl ⟨List.getElem?_eq_none_iff.mp found,rfl⟩
    | some item =>
      have known : s.kind s.fetched = some item.trsT := by rw [kind,found]; rfl
      cases type : item.trsT with
      | rd => exact .inr (.inl ⟨known.trans (congrArg some type),by simp only [type]⟩)
      | wr => exact .inr (.inr (.inl ⟨known.trans (congrArg some type),by simp only [type]⟩))
      | rdwr => exact .inr (.inr (.inr (known.trans (congrArg some type))))
  · exact .inl rfl

/-- An item taken is the last, asserted in this instant, and no fork is about to start. -/
theorem taken_last {s : SlaveRun aw dw} (paced : s.Paced) {t : TrsType} (found : s.kind s.fetched = some t) :
    s.fetched+1 = s.items.length ∧ s.age = 0 ∧ s.forked+s.ready = 0 := by
  have inside := lt_of_kind found
  rcases paced.fetched with all | ⟨last,young⟩
  · omega
  · refine ⟨last,young,?_⟩
    rcases paced.forks with idle | ⟨_,all,_⟩
    · exact idle
    · omega

/-- The write whose wait is over is that of an item that was transferred. -/
theorem success_of_ended {s : SlaveRun aw dw} (paced : s.Paced) {w : Nat} (inside : w < s.items.length)
    (ended : s.ended w = true) : (s.item w).success = true ∧ w < s.completed := by
  obtain ⟨success,flag⟩ := paced.ended w inside
  have complete : w < s.completed := of_decide_eq_true (flag.symm.trans ended)
  exact ⟨success.trans (decide_eq_true complete),complete⟩

theorem paced_get {s : SlaveRun aw dw} (paced : s.Paced) : s.get.Paced := by
  have taken : ∀ w ∈ s.writers, w < s.fetched+1 ∧ s.kind w = some .wr ∧
      (w+1 = s.items.length ∨ w+2 = s.items.length ∧ s.age = 0) := by
    intro w member
    obtain ⟨taken,write,place⟩ := paced.writers w member
    exact ⟨Nat.lt_succ_of_lt taken,write,place⟩
  rcases get_cases s with same | ⟨-,⟨empty,next⟩ | ⟨read,next⟩ | ⟨write,next⟩ | other⟩
  · rwa [same]
  · rw [next]
    refine {paced with forks := ?_, swap := ?_, lock := ?_}
    · rcases paced.forks with idle | ⟨one,all,some,young,write,fresh,-,-⟩
      · exact .inl (by change 0+(s.ready+s.forked) = 0; omega)
      · exact .inr ⟨by change 0+(s.ready+s.forked) = 1; omega,all,some,young,write,fresh,
          fun none => absurd none (Nat.lt_irrefl 0),fun _ => rfl⟩
    · exact fun swap => nomatch swap
    · exact fun lock => nomatch lock
  · obtain ⟨last,young,idle⟩ := taken_last paced read
    rw [next]
    refine {paced with fetched := ?_, current := ?_, forks := ?_, swap := ?_, lock := ?_, writers := ?_}
    · exact .inl last
    · exact .inr rfl
    · exact .inl (by change 0+(s.ready+s.forked) = 0; omega)
    · exact fun _ => ⟨last,by change 0 < s.items.length; omega,young,read⟩
    · exact fun lock => nomatch lock
    · exact taken
  · obtain ⟨last,young,idle⟩ := taken_last paced write
    have fresh : s.fetched ∉ s.writers :=
      fun member => absurd (paced.writers s.fetched member).1 (Nat.lt_irrefl _)
    rw [next]
    refine {paced with fetched := ?_, current := ?_, forks := ?_, swap := ?_, lock := ?_, writers := ?_}
    · exact .inl last
    · exact .inr rfl
    · refine .inr ⟨by change s.forked+1+s.ready = 1; omega,last,?_,young,write,fresh,fun _ => rfl,?_⟩
      · change 0 < s.items.length
        omega
      · intro some
        have some : 0 < s.ready := some
        omega
    · exact fun swap => nomatch swap
    · exact fun lock => nomatch lock
    · exact taken
  · exact absurd other (paced.plain _)

theorem paced_start {s : SlaveRun aw dw} (paced : s.Paced) : s.start.Paced := by
  unfold start
  split
  · rename_i some
    rcases paced.forks with idle | ⟨one,all,filled,young,write,fresh,-,-⟩
    · omega
    have last : s.mitem+1 = s.items.length := by
      have := paced.current
      omega
    refine {paced with forks := ?_, writers := ?_, nodup := ?_}
    · exact .inl (by change s.forked+(s.ready-1) = 0; omega)
    · intro w member
      rcases List.mem_append.mp member with old | new
      · exact paced.writers w old
      · obtain rfl := List.mem_singleton.mp new
        exact ⟨by change s.mitem < s.fetched; omega,write,.inl last⟩
    · exact List.nodup_append.mpr ⟨paced.nodup,List.nodup_singleton _,by
        intro w member other single same
        rw [List.mem_singleton.mp single] at same
        exact fresh (same ▸ member)⟩
  · exact paced

theorem paced_load {s : SlaveRun aw dw} (paced : s.Paced) : s.load.Paced := by
  unfold load
  split
  · obtain ⟨-,-,free,failed⟩ := midDoReadItem_eq s.mem (s.item s.mitem) paced.free
    rename_i waits
    refine {paced with forks := ?_, swap := ?_, lock := ?_, free := ?_, failed := ?_}
    · rcases paced.forks with idle | ⟨one,_,_,_,_,_,forked,ready⟩
      · exact .inl idle
      · have gets : s.rcv = .get ∨ s.rcv = .blocked := by
          rcases Nat.eq_zero_or_pos s.forked with none | some
          · exact .inr (ready (by omega))
          · exact .inl (forked some)
        rcases gets with gets | gets <;> rw [gets] at waits <;> cases waits.1
    · exact fun swap => nomatch swap
    · exact fun lock => nomatch lock
    · exact free
    · exact failed.trans paced.failed
  · exact paced

theorem paced_store {s : SlaveRun aw dw} (paced : s.Paced) (w : Nat) : (s.store w).Paced := by
  unfold store
  split
  · rename_i ready
    obtain ⟨member,ended,free⟩ := ready
    obtain ⟨success,-⟩ := success_of_ended paced (lt_of_kind (paced.writers w member).2.1) ended
    obtain ⟨-,free,failed⟩ := midDoWriteItem_eq s.mem (s.item w) success free
    refine {paced with forks := ?_, writers := ?_, nodup := ?_, free := ?_, failed := ?_}
    · rcases paced.forks with idle | ⟨one,all,some,young,write,fresh,forked,ready⟩
      · exact .inl idle
      · exact .inr ⟨one,all,some,young,write,fun old => fresh (List.mem_of_mem_erase old),forked,ready⟩
    · exact fun other old => paced.writers other (List.mem_of_mem_erase old)
    · exact paced.nodup.erase w
    · exact free
    · exact failed.trans paced.failed
  · exact paced

theorem paced_tick {s : SlaveRun aw dw} (paced : s.Paced) (timed : s.Timed .tick) : s.tick.Paced := by
  have timed : s.items.length ≤ s.completed+1 := timed
  unfold tick
  split
  · rename_i quiet
    obtain ⟨ready,blocked,waits⟩ := quiet
    have blocked : s.rcv = .swap ∨ s.rcv = .blocked ∧ s.items.length ≤ s.fetched := by
      rcases blocked with swap | empty | ⟨_,held⟩
      · exact .inl swap
      · exact .inr empty
      · rw [paced.free] at held
        cases held
    have all : s.fetched = s.items.length := by
      rcases blocked with swap | ⟨_,empty⟩
      · exact (paced.swap swap).1
      · have := paced.fetched
        omega
    have idle : s.forked+s.ready = 0 := by
      rcases paced.forks with idle | ⟨one,_,_,_,_,_,forked,_⟩
      · exact idle
      · have gets := forked (by omega)
        rcases blocked with swap | ⟨empty,_⟩
        · rw [gets] at swap
          cases swap
        · rw [gets] at empty
          cases empty
    refine {paced with behind := ?_, young := ?_, fetched := ?_, forks := ?_, swap := ?_, lock := ?_, writers := ?_}
    · exact .inl timed
    · exact fun young => absurd young (Nat.succ_ne_zero _)
    · exact .inl all
    · exact .inl idle
    · intro swap
      change (if s.rcv = .swap then RcvPc.lock else s.rcv) = .swap at swap
      split at swap
      · cases swap
      · contradiction
    · intro lock
      change (if s.rcv = .swap then RcvPc.lock else s.rcv) = .lock at lock
      split at lock
      · rename_i swap
        obtain ⟨_,some,_,read⟩ := paced.swap swap
        exact ⟨by change 0 < s.fetched; omega,read,.inr (Nat.succ_pos _)⟩
      · rcases blocked with swap | ⟨empty,_⟩
        · contradiction
        · rw [empty] at lock
          cases lock
    · intro w member
      obtain ⟨taken,write,place⟩ := paced.writers w member
      refine ⟨taken,write,.inl ?_⟩
      rcases place with last | ⟨previous,young⟩
      · exact last
      · -- the last item but one is complete, so its write has been stored
        have flags := (paced.ended w (lt_of_kind write)).2
        rcases waits w member with open_ | held
        · rw [open_] at flags
          have := of_decide_eq_false flags.symm
          omega
        · rw [paced.free] at held
          cases held
  · exact paced

theorem paced_step {s : SlaveRun aw dw} (paced : s.Paced) (a : SlaveAction aw dw) (timed : s.Timed a) :
    (s.step a).Paced := by
  cases a with
  | assert c bgCyc => exact paced_assert paced c bgCyc timed
  | complete addrs dataBeat => exact paced_complete paced addrs dataBeat timed
  | get => exact paced_get paced
  | start => exact paced_start paced
  | load => exact paced_load paced
  | store w => exact paced_store paced w
  | tick => exact paced_tick paced timed

/-- The write of an item has not reached the memory. -/
def Unstored (s : SlaveRun aw dw) (r : Nat) : Prop :=
  s.fetched ≤ r ∨ r ∈ s.writers ∨ r = s.mitem ∧ 0 < s.forked+s.ready

/-- The memory holds the writes among the items up to some number. -/
def StoredTo (s : SlaveRun aw dw) (k : Nat) : Prop :=
  k ≤ s.items.length ∧ (∀ r, s.kind r = some .wr → (r < k ↔ ¬s.Unstored r)) ∧ (∀ r < k, s.kind r = some .wr → r < s.completed) ∧
    ∀ other, s.mem.contents other = (latest (writesOf (s.items.take k)) other).getD 0

/-- A load that has taken place, of a read all of whose preceding writes are complete. -/
def Loaded (s : SlaveRun aw dw) (load : Nat × List (List (BitVec 8))) : Prop :=
  load.1 < s.fetched ∧ (∀ r < load.1, s.kind r = some .wr → r < s.completed) ∧
    load.2 = expected (s.item load.1) (writesOf (s.items.take load.1))

structure Held (s : SlaveRun aw dw) : Prop where
  stored : ∃ k, s.StoredTo k
  legal : ∀ r, s.kind r = some .rd →
    LegalBurst (s.item r).addr (s.item r).trxSize.ctorIdx (s.item r).bstLen (s.item r).bstType ∧
    ¬WrapsAtTop (s.item r).addr (s.item r).trxSize.ctorIdx (s.item r).bstLen (s.item r).bstType
  once : s.loads.map Prod.fst = (List.range s.served).filter fun r => (s.item r).trsT = .rd
  loaded : ∀ load ∈ s.loads, s.Loaded load

theorem trsT_eq_of_kind {s : SlaveRun aw dw} {r : Nat} {t : TrsType} (found : s.kind r = some t) :
    (s.item r).trsT = t := by
  rw [kind,Option.map_eq_some_iff] at found
  obtain ⟨item,there,rfl⟩ := found
  simp [SlaveRun.item,there]

/-- Only the writes among the items count. -/
theorem writesOf_take_congr (s : SlaveRun aw dw) {j k : Nat}
    (same : ∀ r, s.kind r = some .wr → (r < j ↔ r < k)) :
    writesOf (s.items.take j) = writesOf (s.items.take k) := by
  have grown (j k : Nat) (order : j ≤ k) (none : ∀ r, s.kind r = some .wr → r < k → r < j) :
      writesOf (s.items.take k) = writesOf (s.items.take j) := by
    have split : s.items.take k = s.items.take j ++ (s.items.take k).drop j := by
      have parts := List.take_append_drop j (s.items.take k)
      rw [List.take_take,Nat.min_eq_left order] at parts
      exact parts.symm
    have rest : writesOf ((s.items.take k).drop j) = [] := by
      apply List.flatMap_eq_nil_iff.mpr
      intro item member
      obtain ⟨i,found⟩ := List.mem_iff_getElem?.mp member
      rw [List.getElem?_drop,List.getElem?_take] at found
      split_ifs at found with below
      rw [if_neg]
      intro write
      have := none (j+i) (by rw [kind,found]; exact congrArg some write) below
      omega
    rw [split,writesOf,List.flatMap_append]
    change writesOf (s.items.take j) ++ writesOf ((s.items.take k).drop j) = _
    rw [rest,List.append_nil]
  rcases Nat.le_total j k with order | order
  · exact (grown j k order fun r write below => (same r write).mpr below).symm
  · exact grown k j order fun r write below => (same r write).mp below

/-- What follows a completion in the list of items changes no store before it. -/
theorem writesOf_complete (s : SlaveRun aw dw) (addrs : List (BitVec aw)) (dataBeat : List (Beat dw))
    (k : Nat) (past : s.kind s.completed = some .wr → k ≤ s.completed) :
    writesOf ((s.complete addrs dataBeat).items.take k) = writesOf (s.items.take k) := by
  rw [writesOf,writesOf,List.flatMap_def,List.flatMap_def]
  congr 1
  apply List.ext_getElem?
  intro i
  simp only [List.getElem?_map,List.getElem?_take,complete]
  by_cases here : s.completed = i
  · subst here
    rw [List.getElem?_modify_eq]
    split
    · rename_i below
      cases found : s.items[s.completed]? with
      | none => rfl
      | some item =>
        have read : item.trsT ≠ .wr := by
          intro write
          have := past (by rw [kind,found]; exact congrArg some write)
          omega
        simp [read]
    · rfl
  · rw [List.getElem?_modify_ne _ _ here]

theorem item_assert (s : SlaveRun aw dw) (c : Sample aw dw) (bgCyc : Nat) {r : Nat}
    (old : r < s.items.length) : (s.assert c bgCyc).item r = s.item r := by
  simp [item,assert,List.getElem?_append_left old]

theorem fetched_le {s : SlaveRun aw dw} (paced : s.Paced) : s.fetched ≤ s.items.length := by
  have := paced.fetched
  omega

theorem served_le (s : SlaveRun aw dw) : s.served ≤ s.fetched := by
  unfold served
  split <;> omega

theorem held_assert {s : SlaveRun aw dw} (paced : s.Paced) (held : s.Held) (c : Sample aw dw) (bgCyc : Nat)
    (timed : s.Timed (.assert c bgCyc)) (spared : s.Spared (.assert c bgCyc)) :
    (s.assert c bgCyc).Held := by
  obtain ⟨k,room,stored,done,contents⟩ := held.stored
  have taken := fetched_le paced
  have before {j : Nat} (inside : j ≤ s.items.length) :
      (s.assert c bgCyc).items.take j = s.items.take j := List.take_append_of_le_length inside
  have old {r : Nat} (inside : r < s.items.length) : (s.assert c bgCyc).kind r = s.kind r :=
    kind_append inside _
  have size : (s.assert c bgCyc).items.length = s.items.length+1 := by simp [assert]
  constructor
  · refine ⟨k,?_,?_,?_,?_⟩
    · rw [size]
      exact Nat.le_succ_of_le room
    · intro r write
      have inside := lt_of_kind write
      rw [size] at inside
      rcases Nat.lt_or_ge r s.items.length with here | new
      · exact stored r ((old here).symm.trans write)
      · exact ⟨fun below => by omega,fun reached => absurd (.inl (Nat.le_trans taken new)) reached⟩
    · intro r below write
      exact done r below ((old (by omega)).symm.trans write)
    · intro other
      rw [before room]
      exact contents other
  · intro r read
    have inside := lt_of_kind read
    rw [size] at inside
    rcases Nat.lt_or_ge r s.items.length with here | new
    · rw [item_assert s c bgCyc here]
      exact held.legal r ((old here).symm.trans read)
    · obtain rfl : r = s.items.length := by omega
      have fresh : (s.assert c bgCyc).item s.items.length =
          {CollItem.populateNonseqItem c with bgCyc := bgCyc} := by
        simp [item,assert]
      have reads := trsT_eq_of_kind read
      rw [fresh] at reads ⊢
      refine ⟨timed.1.2,spared ?_⟩
      by_contra writes
      simp [CollItem.populateNonseqItem,writes] at reads
  · have served : (s.assert c bgCyc).served = s.served := rfl
    rw [served]
    apply held.once.trans
    apply List.filter_congr
    intro r member
    have below := List.mem_range.mp member
    have := served_le s
    rw [item_assert s c bgCyc (by omega)]
  · intro load member
    obtain ⟨here,complete,bytes⟩ := held.loaded load member
    refine ⟨here,?_,?_⟩
    · intro r below write
      exact complete r below ((old (by omega)).symm.trans write)
    · rw [item_assert s c bgCyc (by omega),before (by omega)]
      exact bytes

/-- The fields that the first address phase settles stay. -/
theorem item_complete (s : SlaveRun aw dw) (addrs : List (BitVec aw)) (dataBeat : List (Beat dw)) (r : Nat) :
    let item := (s.complete addrs dataBeat).item r
    item.trsT = (s.item r).trsT ∧ item.addr = (s.item r).addr ∧ item.trxSize = (s.item r).trxSize ∧
      item.bstLen = (s.item r).bstLen ∧ item.bstType = (s.item r).bstType := by
  by_cases here : r = s.completed
  · subst here
    simp only [item,complete,List.getElem?_modify_eq]
    cases s.items[s.completed]? <;> exact ⟨rfl,rfl,rfl,rfl,rfl⟩
  · rw [item_complete_ne s addrs dataBeat here]
    exact ⟨rfl,rfl,rfl,rfl,rfl⟩

theorem held_complete {s : SlaveRun aw dw} (held : s.Held) (addrs : List (BitVec aw))
    (dataBeat : List (Beat dw)) : (s.complete addrs dataBeat).Held := by
  obtain ⟨k,room,stored,done,contents⟩ := held.stored
  have kinds := kind_complete s addrs dataBeat
  constructor
  · refine ⟨k,by simpa [complete] using room,?_,?_,?_⟩
    · rw [kinds]
      exact stored
    · rw [kinds]
      exact fun r below write => Nat.lt_succ_of_lt (done r below write)
    · intro other
      rw [writesOf_complete s addrs dataBeat k]
      · exact contents other
      · intro write
        by_contra below
        exact absurd (done s.completed (by omega) write) (Nat.lt_irrefl _)
  · rw [kinds]
    intro r read
    obtain ⟨-,addr,size,len,type⟩ := item_complete s addrs dataBeat r
    rw [addr,size,len,type]
    exact held.legal r read
  · apply held.once.trans
    apply List.filter_congr
    intro r _
    rw [(item_complete s addrs dataBeat r).1]
  · intro load member
    obtain ⟨here,complete,bytes⟩ := held.loaded load member
    refine ⟨here,?_,?_⟩
    · rw [kinds]
      exact fun r below write => Nat.lt_succ_of_lt (complete r below write)
    · obtain ⟨-,addr,size,len,type⟩ := item_complete s addrs dataBeat load.1
      rw [expected,addr,size,len,type,writesOf_complete s addrs dataBeat load.1]
      · exact bytes
      · intro write
        by_contra below
        exact absurd (complete s.completed (by omega) write) (Nat.lt_irrefl _)

/-- A step of the loop or of a fork that leaves the items, the memory and the loads as they are
keeps what they hold, if the same writes are left and the same reads served. -/
theorem held_of_same {s t : SlaveRun aw dw} (held : s.Held) (items : t.items = s.items)
    (completed : t.completed = s.completed) (mem : t.mem = s.mem) (loads : t.loads = s.loads)
    (fetched : s.fetched ≤ t.fetched)
    (left : ∀ r, s.kind r = some .wr → (t.Unstored r ↔ s.Unstored r))
    (served : (List.range t.served).filter (fun r => (s.item r).trsT = .rd) =
      (List.range s.served).filter fun r => (s.item r).trsT = .rd) : t.Held := by
  obtain ⟨k,room,stored,done,contents⟩ := held.stored
  have kinds : t.kind = s.kind := by
    funext r
    rw [kind,kind,items]
  have same : t.item = s.item := by
    funext r
    rw [item,item,items]
  constructor
  · refine ⟨k,by rwa [items],?_,?_,?_⟩
    · rw [kinds]
      exact fun r write => (stored r write).trans (not_congr (left r write)).symm
    · rw [kinds,completed]
      exact done
    · rw [mem,items]
      exact contents
  · rw [kinds,same]
    exact held.legal
  · rw [loads,same]
    exact held.once.trans served.symm
  · intro load member
    rw [loads] at member
    obtain ⟨here,complete,bytes⟩ := held.loaded load member
    refine ⟨Nat.lt_of_lt_of_le here fetched,?_,?_⟩
    · rw [kinds,completed]
      exact complete
    · rw [same,items]
      exact bytes

theorem served_between {s : SlaveRun aw dw} (runs : s.rcv = .get ∨ s.rcv = .blocked) :
    s.served = s.fetched := by
  unfold served
  rcases runs with runs | runs <;> simp [runs]

theorem held_get {s : SlaveRun aw dw} (paced : s.Paced) (held : s.Held) : s.get.Held := by
  rcases get_cases s with same | ⟨runs,⟨empty,next⟩ | ⟨read,next⟩ | ⟨write,next⟩ | other⟩
  · rwa [same]
  · rw [next]
    refine held_of_same held rfl rfl rfl rfl (Nat.le_refl _) ?_ ?_
    · intro r _
      change (_ ∨ _ ∨ _ ∧ 0 < 0+(s.ready+s.forked)) ↔ _
      rw [Nat.zero_add,Nat.add_comm]
      exact Iff.rfl
    · rw [served_between runs]
      rfl
  · obtain ⟨last,young,idle⟩ := taken_last paced read
    rw [next]
    refine held_of_same held rfl rfl rfl rfl (Nat.le_succ _) ?_ ?_
    · intro r write
      have other : r ≠ s.fetched := by
        rintro rfl
        rw [read] at write
        cases write
      change (s.fetched+1 ≤ r ∨ r ∈ s.writers ∨ r = s.fetched ∧ 0 < 0+(s.ready+s.forked)) ↔
        (s.fetched ≤ r ∨ r ∈ s.writers ∨ r = s.mitem ∧ 0 < s.forked+s.ready)
      by_cases waits : r ∈ s.writers
      · exact iff_of_true (.inr (.inl waits)) (.inr (.inl waits))
      · simp only [waits,false_or]
        omega
    · rw [served_between runs]
      rfl
  · obtain ⟨last,young,idle⟩ := taken_last paced write
    rw [next]
    refine held_of_same held rfl rfl rfl rfl (Nat.le_succ _) ?_ ?_
    · intro r _
      change (s.fetched+1 ≤ r ∨ r ∈ s.writers ∨ r = s.fetched ∧ 0 < s.forked+1+s.ready) ↔
        (s.fetched ≤ r ∨ r ∈ s.writers ∨ r = s.mitem ∧ 0 < s.forked+s.ready)
      by_cases waits : r ∈ s.writers
      · exact iff_of_true (.inr (.inl waits)) (.inr (.inl waits))
      · simp only [waits,false_or]
        omega
    · rw [served_between runs]
      change (List.range (s.fetched+1)).filter _ = _
      rw [List.range_succ,List.filter_append]
      simp [trsT_eq_of_kind write]
  · exact absurd other (paced.plain _)

theorem held_start {s : SlaveRun aw dw} (paced : s.Paced) (held : s.Held) : s.start.Held := by
  unfold start
  split
  · rename_i some
    have one : s.forked+s.ready = 1 := by
      rcases paced.forks with idle | ⟨one,_⟩
      · omega
      · exact one
    refine held_of_same held rfl rfl rfl rfl (Nat.le_refl _) ?_ ?_
    · intro r _
      change (s.fetched ≤ r ∨ r ∈ s.writers ++ [s.mitem] ∨ r = s.mitem ∧ 0 < s.forked+(s.ready-1)) ↔
        (s.fetched ≤ r ∨ r ∈ s.writers ∨ r = s.mitem ∧ 0 < s.forked+s.ready)
      rw [List.mem_append,List.mem_singleton]
      by_cases waits : r ∈ s.writers
      · exact iff_of_true (.inr (.inl (.inl waits))) (.inr (.inl waits))
      · simp only [waits,false_or]
        omega
    · rfl
  · exact held

theorem held_tick {s : SlaveRun aw dw} (held : s.Held) : s.tick.Held := by
  unfold tick
  split
  · refine held_of_same held rfl rfl rfl rfl (Nat.le_refl _) ?_ ?_
    · exact fun _ _ => Iff.rfl
    · have served : SlaveRun.served {s with age := s.age+1, rcv := if s.rcv = .swap then .lock else s.rcv} =
          s.served := by
        unfold SlaveRun.served
        by_cases swap : s.rcv = .swap <;> simp [swap]
      rw [served]
  · exact held

/-- When a read is past its delay, exactly the writes before it have been stored. -/
theorem stored_of_lock {s : SlaveRun aw dw} (paced : s.Paced) (lock : s.rcv = .lock) (r : Nat)
    (write : s.kind r = some .wr) : ¬s.Unstored r ↔ r < s.mitem := by
  obtain ⟨some,read,place⟩ := paced.lock lock
  have current := paced.current
  have inside := fetched_le paced
  have other : r ≠ s.mitem := by
    rintro rfl
    rw [read] at write
    cases write
  constructor
  · intro reached
    by_contra late
    exact reached (.inl (by omega))
  · rintro below (later | waits | ⟨same,_⟩)
    · omega
    · have := (paced.writers r waits).2.2
      omega
    · exact other same

theorem held_load {s : SlaveRun aw dw} (paced : s.Paced) (held : s.Held) : s.load.Held := by
  unfold load
  split
  · rename_i waits
    obtain ⟨lock,-⟩ := waits
    obtain ⟨some,read,-⟩ := paced.lock lock
    obtain ⟨k,room,stored,done,contents⟩ := held.stored
    obtain ⟨bytes,kept,-,-⟩ := midDoReadItem_eq s.mem (s.item s.mitem) paced.free
    have before (r : Nat) (write : s.kind r = Option.some .wr) : r < k ↔ r < s.mitem :=
      (stored r write).trans (stored_of_lock paced lock r write)
    have current := paced.current
    have here : s.mitem < s.fetched := by omega
    constructor
    · refine ⟨k,room,stored,done,?_⟩
      intro other
      exact (congrFun kept other).trans (contents other)
    · exact held.legal
    · have served : s.served = s.mitem := by
        unfold SlaveRun.served
        rw [if_pos (.inr lock)]
        omega
      have all (t : SlaveRun aw dw) (gets : t.rcv = .get) (same : t.fetched = s.fetched) :
          t.served = s.mitem+1 := by
        rw [served_between (.inl gets),same]
        omega
      rw [all]
      · change (s.loads ++ [(s.mitem,_)]).map Prod.fst =
          (List.range (s.mitem+1)).filter fun r => (s.item r).trsT = .rd
        rw [List.map_append,held.once,served,List.range_succ,List.filter_append]
        simp [trsT_eq_of_kind read]
      · rfl
      · rfl
    · intro load member
      rcases List.mem_append.mp member with old | new
      · exact held.loaded load old
      · obtain rfl := List.mem_singleton.mp new
        refine ⟨here,fun r below write => done r ((before r write).mpr below) write,?_⟩
        obtain ⟨legal,below⟩ := held.legal s.mitem read
        change (midDoReadItem s.mem (s.item s.mitem)).2 =
          expected (s.item s.mitem) (writesOf (s.items.take s.mitem))
        rw [bytes,postAddr_eq dw legal below,expected,← writesOf_take_congr s before]
        simp only [contents]
  · exact held

/-- When the write of an item goes on, exactly the writes before it have been stored. -/
theorem stored_of_ended {s : SlaveRun aw dw} (paced : s.Paced)
    (done : ∀ r, s.kind r = some .wr → ¬s.Unstored r → r < s.completed) {w : Nat} (member : w ∈ s.writers)
    (ended : s.ended w = true) (r : Nat) (write : s.kind r = some .wr) : ¬s.Unstored r ↔ r < w := by
  obtain ⟨taken,kind,place⟩ := paced.writers w member
  obtain ⟨-,complete⟩ := success_of_ended paced (lt_of_kind kind) ended
  have inside := lt_of_kind write
  have young := paced.young
  constructor
  · intro reached
    have early := done r write reached
    by_contra late
    rcases Nat.lt_or_eq_of_le (Nat.le_of_not_lt late) with later | rfl
    · omega
    · exact reached (.inr (.inl member))
  · rintro below (later | waits | ⟨same,some⟩)
    · omega
    · have := (paced.writers r waits).2.2
      omega
    · have forks := paced.forks
      have current := paced.current
      omega

theorem held_store {s : SlaveRun aw dw} (paced : s.Paced) (held : s.Held) (w : Nat) : (s.store w).Held := by
  unfold store
  split
  · rename_i ready
    obtain ⟨member,ended,-⟩ := ready
    obtain ⟨taken,kind,-⟩ := paced.writers w member
    obtain ⟨k,room,stored,done,contents⟩ := held.stored
    obtain ⟨success,complete⟩ := success_of_ended paced (lt_of_kind kind) ended
    have before := stored_of_ended paced (fun r write reached => done r ((stored r write).mpr reached) write)
      member ended
    obtain ⟨bytes,-,-⟩ := midDoWriteItem_eq s.mem (s.item w) success paced.free
    have inside := lt_of_kind kind
    constructor
    · refine ⟨w+1,inside,?_,?_,?_⟩
      · intro r write
        have now : (s.fetched ≤ r ∨ r ∈ s.writers.erase w ∨ r = s.mitem ∧ 0 < s.forked+s.ready) ↔
            s.Unstored r ∧ r ≠ w := by
          rw [paced.nodup.mem_erase_iff]
          have forks := paced.forks
          have current := paced.current
          by_cases same : r = w
          · subst same
            have fresh : r = s.mitem → s.forked+s.ready = 0 := by
              intro same
              rcases forks with idle | ⟨_,_,_,_,_,fresh,_⟩
              · exact idle
              · rw [same] at member
                exact absurd member fresh
            constructor
            · rintro (later | ⟨other,_⟩ | ⟨same,some⟩)
              · omega
              · exact absurd rfl other
              · have := fresh same
                omega
            · rintro ⟨_,other⟩
              exact absurd rfl other
          · simp [same,Unstored]
        change r < w+1 ↔ ¬(s.fetched ≤ r ∨ r ∈ s.writers.erase w ∨ r = s.mitem ∧ 0 < s.forked+s.ready)
        rw [now,not_and_or,before r write]
        omega
      · intro r below write
        rcases Nat.lt_or_eq_of_le (Nat.le_of_lt_succ below) with below | rfl
        · exact done r ((stored r write).mpr ((before r write).mpr below)) write
        · exact complete
      · intro other
        have same : writesOf (s.items.take k) = writesOf (s.items.take w) :=
          writesOf_take_congr s fun r write => (stored r write).trans (before r write)
        have last : writesOf (s.items.take (w+1)) = writesOf (s.items.take w) ++ (s.item w).writes := by
          have there : s.items[w]? = some (s.item w) := by
            simp [item,List.getElem?_eq_getElem inside]
          rw [List.take_add_one,there,writesOf,List.flatMap_append]
          simp [writesOf,trsT_eq_of_kind kind]
        rw [last,latest_append]
        refine (bytes other).trans ?_
        rw [contents other,same]
        cases latest (s.item w).writes other <;> rfl
    · exact held.legal
    · exact held.once
    · exact held.loaded
  · exact held

theorem held_step {s : SlaveRun aw dw} (paced : s.Paced) (held : s.Held) (a : SlaveAction aw dw)
    (timed : s.Timed a) (spared : s.Spared a) : (s.step a).Held := by
  cases a with
  | assert c bgCyc => exact held_assert paced held c bgCyc timed spared
  | complete addrs dataBeat => exact held_complete held addrs dataBeat
  | get => exact held_get paced held
  | start => exact held_start paced held
  | load => exact held_load paced held
  | store w => exact held_store paced held w
  | tick => exact held_tick held

theorem paced_initial : Paced ({} : SlaveRun aw dw) := by
  constructor <;> simp [kind]

theorem held_initial : Held ({} : SlaveRun aw dw) := by
  constructor
  · exact ⟨0,Nat.le_refl 0,by simp [kind],by simp,fun _ => rfl⟩
  · simp [kind]
  · rfl
  · simp

/-- In every run in which no read wraps at the top of the address space, each read is served
once, with the latest bytes of the writes before it, and the lock is free when it is taken. -/
theorem readsLatest_of_spared (actions : List (SlaveAction aw dw))
    (timed : Machine.Meets step Timed {} actions) (spared : Machine.Meets step Spared {} actions) :
    ReadsLatest (after actions) := by
  have keep (s : SlaveRun aw dw) (a : SlaveAction aw dw) (kept : s.Paced ∧ s.Held)
      (meets : s.Timed a ∧ s.Spared a) : (s.step a).Paced ∧ (s.step a).Held :=
    ⟨paced_step kept.1 a meets.1,held_step kept.1 kept.2 a meets.1 meets.2⟩
  obtain ⟨paced,held⟩ := Machine.run_invariant keep ⟨paced_initial,held_initial⟩ (timed.and spared)
  exact ⟨held.once,fun load member => (held.loaded load member).2.2,paced.failed⟩

/-- A write of a word and a read burst that is asserted in the instant the write is complete. -/
def backToBack (addr : BitVec 32) (start : BitVec 32) : List (SlaveAction 32 32) :=
  [.assert {htrans := .nonseq, haddr := addr, hwrite := true} 0,.get,.get,.start,.tick,
    .assert {htrans := .nonseq, haddr := start, hburst := .wrap4} 1,.get,
    .complete [addr] [fun j => BitVec.ofNat 8 (j.val+1)],.store 0,.tick,.load]

theorem readsLatest_backToBack : ReadsLatest (after (backToBack 0x1008 0x1004)) :=
  readsLatest_of_spared (backToBack 0x1008 0x1004) (by decide +kernel) (by decide +kernel)

/-- In the block at the top of the address space the second beat is read from its bottom. -/
theorem not_readsLatest_top :
    Machine.Meets step Timed {} (backToBack 0xFFFFFFF8 0xFFFFFFF4) ∧
    (after (backToBack 0xFFFFFFF8 0xFFFFFFF4)).loads =
      [(1,[[0,0,0,0],[0,0,0,0],[0,0,0,0],[0,0,0,0]])] ∧
    ¬ReadsLatest (after (backToBack 0xFFFFFFF8 0xFFFFFFF4)) := by
  refine ⟨by decide +kernel,by decide +kernel,?_⟩
  intro reads
  have latest := reads.latest
  revert latest
  decide +kernel

end Smtdv.Ahb.SlaveRun
