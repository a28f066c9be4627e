import Smtdv.Ahb.Collected
import Smtdv.Ahb.Lockstep
import Smtdv.Common.RegAdapter

/-! What the monitor of a master makes of the cycles of its driver, from one end of the agent to the other: the
bursts on the bus are the items driven, and the items collected are those whose data are in. -/
namespace Smtdv.Ahb
open Lib

variable {aw dw : Nat}

/-- What the monitor samples in a cycle of the driver, with the data that the slave returns. -/
def Cycle.sample (c : Cycle aw dw) (hrdata : BitVec dw) : Sample aw dw where
  hready := c.sig.hready
  hresp := c.sig.hresp
  htrans := c.vif.htrans
  haddr := c.vif.haddr
  hwrite := c.vif.hwrite
  hsize := c.vif.hsize
  hburst := c.vif.hburst
  hprot := c.vif.hprot
  hmastlock := c.vif.hmastlock
  hwdata := unpackData c.vif.hwdata
  hrdata := hrdata

/-- The samples of cycles, each with the data of the slave and the order of the collectors. -/
def samplesOf (obs : List (Cycle aw dw × BitVec dw × Bool)) : List (Sample aw dw × Bool) :=
  obs.map fun o => (o.1.sample o.2.1,o.2.2)

/-- An item of a fixed length, with a direction. -/
structure Trx.Shaped (x : Trx aw dw) : Prop where
  known : x.trsT ≠ .rdwr
  beats : x.bstType.beats = some (x.bstLen+1)

/-- So many addresses of the item are in the burst, and so many of its data. -/
structure Carried (x : Trx aw dw) (n m : Nat) (β : Burst aw dw) : Prop where
  haddr : β.head.haddr = x.addrs.getD 0 0
  hwrite : β.head.hwrite = decide (x.trsT = .wr)
  hsize : β.head.hsize = x.trxSize
  hburst : β.head.hburst = x.bstType
  hprot : β.head.hprot = x.trxPrt
  hmastlock : β.head.hmastlock = x.hmastlock
  addrs : β.addrs = (List.range n).map fun i => x.addrs.getD i 0
  count : β.data.length = m
  data : x.trsT = .wr → β.data = (List.range m).map fun i => unpackData (x.dataBeat.getD i default)

def Answered (x : Trx aw dw) (β : Burst aw dw) : Prop := Carried x (x.bstLen+1) (x.bstLen+1) β

/-- The beat that comes next, if there is one. -/
def Trx.following (x : Trx aw dw) (i : Nat) : Option (Trx aw dw × Nat) := if i ≤ x.bstLen then some (x,i) else none

theorem Trx.following_none {x : Trx aw dw} {i : Nat} (last : x.following (i+1) = none) (bound : i ≤ x.bstLen) :
    i = x.bstLen := by
  rw [following] at last
  split at last
  · cases last
  · omega

theorem Trx.following_some {x y : Trx aw dw} {i j : Nat} (next : x.following i = some (y,j)) :
    x = y ∧ i = j ∧ i ≤ x.bstLen := by
  rw [following] at next
  split at next
  next bound =>
    obtain ⟨rfl,rfl⟩ := Prod.mk.inj (Option.some.inj next)
    exact ⟨rfl,rfl,bound⟩
  next => cases next

/-- No data phase is open: the bursts are those of the items, and the last may go on with a beat. -/
inductive Settled : List (Trx aw dw) → Option (Trx aw dw × Nat) → Bus aw dw → Prop
  | rest {items : List (Trx aw dw)} {closed : List (Burst aw dw)} (all : List.Forall₂ Answered items closed) :
      Settled items none ⟨closed,none,.free⟩
  | part {items : List (Trx aw dw)} {closed : List (Burst aw dw)} {x : Trx aw dw} {i : Nat} {β : Burst aw dw}
      (all : List.Forall₂ Answered items closed) (bound : i ≤ x.bstLen) (carried : Carried x (i+1) (i+1) β) :
      Settled (items ++ [x]) (x.following (i+1)) ⟨closed,some β,.free⟩

/-- The bus has the items whose first address is accepted; the data phase owes the write data. -/
inductive Tracks : List (Trx aw dw) → Option (Trx aw dw × Nat) → Option (Beat dw) → Bus aw dw → Prop
  | free {items : List (Trx aw dw)} {next : Option (Trx aw dw × Nat)} {b : Bus aw dw}
      (settled : Settled items next b) : Tracks items next none b
  | beat {items : List (Trx aw dw)} {closed : List (Burst aw dw)} {x : Trx aw dw} {i : Nat} {β : Burst aw dw}
      (all : List.Forall₂ Answered items closed) (bound : i ≤ x.bstLen) (carried : Carried x (i+1) i β) :
      Tracks (items ++ [x]) (x.following (i+1)) (x.payload i) ⟨closed,some β,.beat⟩

theorem Settled.free {items : List (Trx aw dw)} {next : Option (Trx aw dw × Nat)} {b : Bus aw dw}
    (settled : Settled items next b) : b.phase = .free := by
  cases settled <;> rfl

theorem Settled.answered {items : List (Trx aw dw)} {next : Option (Trx aw dw × Nat)} {b : Bus aw dw}
    (settled : Settled items next b) (past : next = none) : List.Forall₂ Answered items b.bursts := by
  cases settled with
  | rest all => simpa [Bus.bursts] using all
  | part all bound carried =>
    rw [Trx.following_none past bound] at carried
    exact List.rel_append all (.cons carried .nil)

/-- A data phase ends. -/
theorem Carried.deliver {x : Trx aw dw} {n m : Nat} {β : Burst aw dw} (carried : Carried x n m β) (c : Sample aw dw)
    (data : x.trsT = .wr → c.hwdata = unpackData (x.dataBeat.getD m default)) : Carried x n (m+1) (β.deliver c) := by
  refine ⟨carried.haddr,carried.hwrite,carried.hsize,carried.hburst,carried.hprot,carried.hmastlock,carried.addrs,?_,
    fun write => ?_⟩
  · simp [Burst.deliver,carried.count]
  · have high : β.head.hwrite = true := by rw [carried.hwrite,decide_eq_true write]
    simp only [Burst.deliver,high,if_true,carried.data write,data write,List.range_succ,List.map_append,List.map_singleton]

/-- A beat is accepted. -/
theorem Carried.goOn {x : Trx aw dw} {n m : Nat} {β : Burst aw dw} (carried : Carried x n m β) {c : Sample aw dw}
    (haddr : c.haddr = x.addrs.getD n 0) : Carried x (n+1) m (β.goOn c) := by
  refine ⟨carried.haddr,carried.hwrite,carried.hsize,carried.hburst,carried.hprot,carried.hmastlock,?_,carried.count,
    carried.data⟩
  simp only [Burst.goOn,carried.addrs,haddr,List.range_succ,List.map_append,List.map_singleton]

/-- The first beat is accepted. -/
theorem Carried.start {x : Trx aw dw} {c : Cycle aw dw} (shown : Presents c.vif (.beat x 0)) (hrdata : BitVec dw) :
    Carried x 1 0 (.start (c.sample hrdata)) := by
  obtain ⟨haddr,_,hwrite,hsize,hburst,hprot,hmastlock⟩ := shown
  refine ⟨haddr,hwrite,hsize,hburst,hprot,hmastlock,?_,rfl,fun _ => rfl⟩
  change [c.vif.haddr] = _
  rw [haddr]
  rfl

theorem Tracks.finish {items : List (Trx aw dw)} {next : Option (Trx aw dw × Nat)} {owed : Option (Beat dw)}
    {b : Bus aw dw} (tracks : Tracks items next owed b) {c : Sample aw dw}
    (carries : ∀ d, owed = some d → c.hwdata = unpackData d) : Settled items next (b.finish c) := by
  cases tracks with
  | free settled =>
    rw [Bus.finish_free settled.free]
    exact settled
  | beat all bound carried =>
    refine .part all bound (carried.deliver c fun write => carries _ ?_)
    rw [Trx.payload,if_pos write]

theorem Settled.idle {items : List (Trx aw dw)} {b : Bus aw dw} (settled : Settled items none b) {c : Sample aw dw}
    (idle : c.htrans = .idle) : Tracks items none none (b.accept c) := by
  rw [Bus.accept,idle]
  exact .free (.rest (settled.answered rfl))

theorem Settled.nonseq {items : List (Trx aw dw)} {b : Bus aw dw} (settled : Settled items none b) {x : Trx aw dw}
    {c : Sample aw dw} (nonseq : c.htrans = .nonseq) (carried : Carried x 1 0 (.start c)) :
    Tracks (items ++ [x]) (x.following 1) (x.payload 0) (b.accept c) := by
  rw [Bus.accept,nonseq]
  exact .beat (settled.answered rfl) (Nat.zero_le _) carried

theorem Settled.seq {items : List (Trx aw dw)} {next : Option (Trx aw dw × Nat)} {b : Bus aw dw}
    (settled : Settled items next b) {x : Trx aw dw} {i : Nat} (goes : next = some (x,i)) {c : Sample aw dw}
    (seq : c.htrans = .seq) (haddr : c.haddr = x.addrs.getD i 0) :
    Tracks items (x.following (i+1)) (x.payload i) (b.accept c) := by
  cases settled with
  | rest all => cases goes
  | part all bound carried =>
    obtain ⟨rfl,rfl,room⟩ := Trx.following_some goes
    rw [Bus.accept,seq]
    exact .beat all room (carried.goOn haddr)

theorem Settled.started {items : List (Trx aw dw)} {next : Option (Trx aw dw × Nat)} {b : Bus aw dw}
    (settled : Settled items next b) {x : Trx aw dw} {i : Nat} (goes : next = some (x,i)) : ∃ before, i = before+1 := by
  cases settled with
  | rest all => cases goes
  | @part items closed y before β all bound carried =>
    obtain ⟨_,same,_⟩ := Trx.following_some goes
    exact ⟨before,same.symm⟩

theorem Settled.busy {items : List (Trx aw dw)} {next : Option (Trx aw dw × Nat)} {b : Bus aw dw}
    (settled : Settled items next b) {c : Sample aw dw} (busy : c.htrans = .busy) :
    Tracks items next none (b.accept c) := by
  rw [Bus.accept,busy]
  exact .free settled

/-- The master turns to another burst when the one before is over, and goes on only with one that is not. -/
theorem Settled.offers {items : List (Trx aw dw)} {next : Option (Trx aw dw × Nat)} {b : Bus aw dw}
    (settled : Settled items next b) (shaped : ∀ x ∈ items, x.Shaped) {c : Sample aw dw}
    (turns : c.htrans.ends = decide (next = none)) : b.Offers c := by
  cases settled with
  | rest all => exact turns
  | @part items closed x i β all bound carried =>
    have beats : β.head.hburst.beats = some (x.bstLen+1) := by
      rw [carried.hburst]
      exact (shaped x (List.mem_append_right _ (List.mem_singleton_self x))).beats
    have length : β.addrs.length = i+1 := by rw [carried.addrs,List.length_map,List.length_range]
    by_cases last : i = x.bstLen
    · have past : x.following (i+1) = none := by rw [Trx.following,if_neg (by omega)]
      simp only [Bus.Offers,turns,past,decide_true,if_true]
      refine .inr fun n fixed => ?_
      obtain rfl := Option.some.inj (beats.symm.trans fixed)
      rw [length,last]
    · have more : x.following (i+1) ≠ none := by
        rw [Trx.following,if_pos (by omega)]
        exact Option.some_ne_none _
      simp only [Bus.Offers,turns,decide_eq_false more,Bool.false_eq_true,if_false]
      intro n fixed
      obtain rfl := Option.some.inj (beats.symm.trans fixed)
      omega

theorem Tracks.answers {items : List (Trx aw dw)} {next : Option (Trx aw dw × Nat)} {owed : Option (Beat dw)}
    {b : Bus aw dw} (tracks : Tracks items next owed b) {c : Sample aw dw} (okay : c.hresp = .okay) : b.Answers c := by
  cases tracks with
  | free settled =>
    rw [Bus.Answers,settled.free]
    exact okay
  | beat all bound carried => exact .inl okay

/-- The items whose first address is accepted, and the beat that the master has still to present. -/
def Ahead (items : List (Trx aw dw)) (pos : Pos aw dw) (next : Option (Trx aw dw × Nat)) (taken : List (Trx aw dw)) :
    Prop :=
  match pos with
  | .idle => next = none ∧ items = taken
  | .beat x 0 => next = none ∧ items = taken ++ [x]
  | .beat x (i+1) => next = some (x,i+1) ∧ items = taken
  | .busy x i => next = some (x,i) ∧ items = taken

theorem Ahead.mem {items taken : List (Trx aw dw)} {pos : Pos aw dw} {next : Option (Trx aw dw × Nat)}
    (ahead : Ahead items pos next taken) {x : Trx aw dw} (inside : x ∈ taken) : x ∈ items := by
  cases pos with
  | idle | busy y i => exact ahead.2 ▸ inside
  | beat y i =>
    cases i with
    | zero => exact ahead.2 ▸ List.mem_append_left _ inside
    | succ i => exact ahead.2 ▸ inside

theorem samplesOf_concat (obs : List (Cycle aw dw × BitVec dw × Bool)) (o : Cycle aw dw × BitVec dw × Bool) :
    samplesOf (obs ++ [o]) = samplesOf obs ++ [(o.1.sample o.2.1,o.2.2)] := by
  rw [samplesOf,List.map_append]
  rfl

theorem Carries.sample {c : Cycle aw dw} {owed : Option (Beat dw)} (carries : Carries c.vif owed) (hrdata : BitVec dw) :
    ∀ d, owed = some d → (c.sample hrdata).hwdata = unpackData d := fun d some =>
  congrArg unpackData (carries d some)

/-- The state of a bus whose samples show the trace so far. -/
structure Shows (items : List (Trx aw dw)) (pos : Pos aw dw) (owed : Option (Beat dw))
    (samples : List (Sample aw dw × Bool)) : Prop where
  conformant : Bus.Conformant samples
  tracks : ∃ taken next, Ahead items pos next taken ∧ Tracks taken next owed (Bus.after samples)

/-- A cycle that the slave stretches. -/
theorem Shows.low {items : List (Trx aw dw)} {pos : Pos aw dw} {owed : Option (Beat dw)}
    {samples : List (Sample aw dw × Bool)} (shows : Shows items pos owed samples) {c : Sample aw dw × Bool}
    (okay : c.1.hresp = .okay) (low : c.1.hready = false) : Shows items pos owed (samples ++ [c]) := by
  obtain ⟨conformant,taken,next,ahead,tracks⟩ := shows
  have same : Bus.after (samples ++ [c]) = Bus.after samples := by
    rw [Bus.after,Machine.run_concat]
    simp [Bus.step,low,Bus.hold,okay,Bus.after]
  refine ⟨(Machine.meets_concat _ _ _ _ _).mpr ⟨conformant,tracks.answers okay,fun high => ?_⟩,taken,next,ahead,?_⟩
  · exact absurd (low.symm.trans high) Bool.false_ne_true
  · rw [same]
    exact tracks

/-- A cycle that ends. -/
theorem Shows.high {items items' : List (Trx aw dw)} {pos pos' : Pos aw dw} {owed owed' : Option (Beat dw)}
    {samples : List (Sample aw dw × Bool)} {c : Sample aw dw × Bool} (shows : Shows items pos owed samples)
    (okay : c.1.hresp = .okay) (high : c.1.hready = true) (carries : ∀ d, owed = some d → c.1.hwdata = unpackData d)
    (shaped : ∀ x ∈ items, x.Shaped)
    (goes : ∀ taken next b, Ahead items pos next taken → Settled taken next b →
      c.1.htrans.ends = decide (next = none) ∧
        ∃ taken' next', Ahead items' pos' next' taken' ∧ Tracks taken' next' owed' (b.accept c.1)) :
    Shows items' pos' owed' (samples ++ [c]) := by
  obtain ⟨conformant,taken,next,ahead,tracks⟩ := shows
  have settled := tracks.finish carries
  obtain ⟨turns,later⟩ := goes taken next _ ahead settled
  have step : Bus.after (samples ++ [c]) = ((Bus.after samples).finish c.1).accept c.1 := by
    rw [Bus.after,Machine.run_concat,Bus.step,if_pos high]
    rfl
  refine ⟨(Machine.meets_concat _ _ _ _ _).mpr ⟨conformant,tracks.answers okay,fun _ => ?_⟩,?_⟩
  · exact settled.offers (fun x inside => shaped x (ahead.mem inside)) turns
  · rw [step]
    exact later

/-- The address of a beat is accepted. -/
theorem Settled.accepts {items taken : List (Trx aw dw)} {next : Option (Trx aw dw × Nat)} {b : Bus aw dw}
    (settled : Settled taken next b) {x : Trx aw dw} {i : Nat} (ahead : Ahead items (.beat x i) next taken)
    {c : Cycle aw dw} (shown : Presents c.vif (.beat x i)) (hrdata : BitVec dw) :
    (c.sample hrdata).htrans.ends = decide (next = none) ∧
      Tracks items (x.following (i+1)) (x.payload i) (b.accept (c.sample hrdata)) := by
  obtain ⟨haddr,htrans,_⟩ := id shown
  cases i with
  | zero =>
    obtain ⟨rfl,rfl⟩ := ahead
    have nonseq : (c.sample hrdata).htrans = .nonseq := htrans
    exact ⟨by rw [nonseq]; rfl,settled.nonseq nonseq (.start shown hrdata)⟩
  | succ i =>
    obtain ⟨rfl,rfl⟩ := ahead
    have seq : (c.sample hrdata).htrans = .seq := htrans
    exact ⟨by rw [seq]; rfl,settled.seq rfl seq haddr⟩

/-- The samples of a trace of items of fixed lengths conform to the protocol, and their bursts are the items. -/
theorem AhbTrace.shows {items : List (Trx aw dw)} {pos : Pos aw dw} {owed : Option (Beat dw)}
    {cycles : List (Cycle aw dw)} (trace : AhbTrace items pos owed cycles)
    {obs : List (Cycle aw dw × BitVec dw × Bool)} (same : obs.map Prod.fst = cycles)
    (shaped : ∀ x ∈ items, x.Shaped) (okay : ∀ c ∈ cycles, c.sig.hresp = .okay) :
    Shows items pos owed (samplesOf obs) := by
  have last {c : Cycle aw dw} {cycles : List (Cycle aw dw)} {obs : List (Cycle aw dw × BitVec dw × Bool)}
      (same : obs.map Prod.fst = cycles ++ [c]) : ∃ before hrdata order,
        obs = before ++ [(c,hrdata,order)] ∧ before.map Prod.fst = cycles := by
    obtain ⟨before,rest,rfl,first,second⟩ := List.map_eq_append_iff.mp same
    obtain ⟨⟨_,hrdata,order⟩,rfl,rfl⟩ := List.map_eq_singleton_iff.mp second
    exact ⟨before,hrdata,order,rfl,first⟩
  induction trace generalizing obs with
  | start =>
    rw [List.map_eq_nil_iff.mp same]
    exact ⟨trivial,[],none,⟨rfl,rfl⟩,.free (.rest .nil)⟩
  | take x before ih =>
    obtain ⟨conformant,taken,next,ahead,tracks⟩ := ih same (fun y inside => shaped y (List.mem_append_left _ inside)) okay
    exact ⟨conformant,taken,next,⟨ahead.1,congrArg (· ++ [x]) ahead.2⟩,tracks⟩
  | wait c before shown low ih =>
    obtain ⟨before,hrdata,order,rfl,earlier⟩ := last same
    rw [samplesOf_concat]
    exact (ih earlier shaped fun c inside => okay c (List.mem_append_left _ inside)).low
      (okay c (List.mem_append_right _ (List.mem_singleton_self c))) low
  | idle c before shown high ih =>
    obtain ⟨before,hrdata,order,rfl,earlier⟩ := last same
    rw [samplesOf_concat]
    refine (ih earlier shaped fun c inside => okay c (List.mem_append_left _ inside)).high
      (okay c (List.mem_append_right _ (List.mem_singleton_self c))) high (Carries.sample shown.2 hrdata) shaped
      fun taken next b ahead settled => ?_
    obtain ⟨rfl,rfl⟩ := ahead
    have idle : (c.sample hrdata).htrans = .idle := shown.1
    exact ⟨by rw [idle]; rfl,_,_,⟨rfl,rfl⟩,settled.idle idle⟩
  | @next items x i owed cycles c before shown high more pos follows ih =>
    obtain ⟨before,hrdata,order,rfl,earlier⟩ := last same
    rw [samplesOf_concat]
    refine (ih earlier shaped fun c inside => okay c (List.mem_append_left _ inside)).high
      (okay c (List.mem_append_right _ (List.mem_singleton_self c))) high (Carries.sample shown.2 hrdata) shaped
      fun taken next b ahead settled => ?_
    obtain ⟨turns,tracks⟩ := settled.accepts ahead shown.1 hrdata
    refine ⟨turns,items,x.following (i+1),?_,tracks⟩
    rw [Trx.following,if_pos (Nat.succ_le_of_lt more)]
    rcases follows with rfl | rfl <;> exact ⟨rfl,rfl⟩
  | @last items x owed cycles c before shown high ih =>
    obtain ⟨before,hrdata,order,rfl,earlier⟩ := last same
    rw [samplesOf_concat]
    refine (ih earlier shaped fun c inside => okay c (List.mem_append_left _ inside)).high
      (okay c (List.mem_append_right _ (List.mem_singleton_self c))) high (Carries.sample shown.2 hrdata) shaped
      fun taken next b ahead settled => ?_
    obtain ⟨turns,tracks⟩ := settled.accepts ahead shown.1 hrdata
    refine ⟨turns,items,x.following (x.bstLen+1),⟨?_,rfl⟩,tracks⟩
    rw [Trx.following,if_neg (Nat.not_succ_le_self _)]
  | @busy items x i owed cycles c before shown high pos follows ih =>
    obtain ⟨before,hrdata,order,rfl,earlier⟩ := last same
    rw [samplesOf_concat]
    refine (ih earlier shaped fun c inside => okay c (List.mem_append_left _ inside)).high
      (okay c (List.mem_append_right _ (List.mem_singleton_self c))) high (Carries.sample shown.2 hrdata) shaped
      fun taken next b ahead settled => ?_
    obtain ⟨rfl,rfl⟩ := ahead
    have busy : (c.sample hrdata).htrans = .busy := shown.1.2.1
    refine ⟨by rw [busy]; rfl,_,_,?_,settled.busy busy⟩
    obtain ⟨i,rfl⟩ := settled.started rfl
    rcases follows with rfl | rfl <;> exact ⟨rfl,rfl⟩

theorem Carried.complete {x : Trx aw dw} {n m : Nat} {β : Burst aw dw} (carried : Carried x n m β)
    (shaped : x.Shaped) : β.complete = decide (m = x.bstLen+1) := by
  rw [Burst.complete,carried.hburst,shaped.beats,carried.count,decide_eq_decide,Option.some.injEq]
  exact eq_comm

theorem filter_answered {items : List (Trx aw dw)} {closed : List (Burst aw dw)}
    (all : List.Forall₂ Answered items closed) (shaped : ∀ x ∈ items, x.Shaped) :
    closed.filter Burst.complete = closed := by
  induction all with
  | nil => rfl
  | cons answered _ ih =>
    have complete := (answered.complete (shaped _ List.mem_cons_self)).trans (decide_eq_true rfl)
    rw [List.filter_cons_of_pos complete,ih fun x inside => shaped x (List.mem_cons_of_mem _ inside)]

/-- The items whose data are in, and at most one whose data phases are not over. -/
theorem Tracks.done {items : List (Trx aw dw)} {next : Option (Trx aw dw × Nat)} {owed : Option (Beat dw)}
    {b : Bus aw dw} (tracks : Tracks items next owed b) (shaped : ∀ x ∈ items, x.Shaped) :
    ∃ done rest, items = done ++ rest ∧ rest.length ≤ 1 ∧ List.Forall₂ Answered done (b.bursts.filter Burst.complete) := by
  have whole {items : List (Trx aw dw)} {bursts : List (Burst aw dw)} (all : List.Forall₂ Answered items bursts)
      (shaped : ∀ x ∈ items, x.Shaped) : ∃ done rest, items = done ++ rest ∧ rest.length ≤ 1 ∧
        List.Forall₂ Answered done (bursts.filter Burst.complete) := by
    refine ⟨items,[],(List.append_nil _).symm,Nat.zero_le 1,?_⟩
    rwa [filter_answered all shaped]
  have part {items : List (Trx aw dw)} {closed : List (Burst aw dw)} {x : Trx aw dw} {n m : Nat} {β : Burst aw dw}
      (all : List.Forall₂ Answered items closed) (carried : Carried x n m β) (less : m ≤ x.bstLen)
      (shaped : ∀ y ∈ items ++ [x], y.Shaped) : ∃ done rest, items ++ [x] = done ++ rest ∧ rest.length ≤ 1 ∧
        List.Forall₂ Answered done ((closed ++ [β]).filter Burst.complete) := by
    have open_ : β.complete = false := by
      rw [carried.complete (shaped x (List.mem_append_right _ (List.mem_singleton_self x))),decide_eq_false (by omega)]
    refine ⟨items,[x],rfl,Nat.le_refl 1,?_⟩
    rw [List.filter_append,filter_answered all fun y inside => shaped y (List.mem_append_left _ inside)]
    simpa [open_] using all
  cases tracks with
  | free settled =>
    cases settled with
    | rest all =>
      rw [Bus.bursts,Option.toList_none,List.append_nil]
      exact whole all shaped
    | @part items closed x i β all bound carried =>
      rcases bound.eq_or_lt with rfl | less
      · exact whole (List.rel_append all (.cons carried .nil)) shaped
      · exact part all carried less shaped
  | beat all bound carried => exact part all carried bound shaped

/-- The item collected is the item driven. -/
structure Delivers (x : Trx aw dw) (item : CollItem aw dw) : Prop where
  addr : item.addr = x.addrs.getD 0 0
  trsT : item.trsT = x.trsT
  trxSize : item.trxSize = x.trxSize
  bstType : item.bstType = x.bstType
  trxPrt : item.trxPrt = x.trxPrt
  hmastlock : item.hmastlock = x.hmastlock
  bstLen : item.bstLen = x.bstLen
  addrs : item.addrs = (List.range (x.bstLen+1)).map fun i => x.addrs.getD i 0
  count : item.dataBeat.length = x.bstLen+1
  data : x.trsT = .wr → item.dataBeat = (List.range (x.bstLen+1)).map fun i => x.dataBeat.getD i default
  rsp : item.rsp = some .okay
  success : item.success = true

theorem delivers_of {x : Trx aw dw} {β : Burst aw dw} {item : CollItem aw dw} (known : x.trsT ≠ .rdwr)
    (answered : Answered x β) (records : Records β item) (finished : Finished item) : Delivers x item := by
  have trsT : item.trsT = x.trsT := by
    rw [records.trsT,answered.hwrite]
    cases trsT : x.trsT with
    | rd | wr => rfl
    | rdwr => exact absurd trsT known
  have length : item.addrs.length = x.bstLen+1 := by
    rw [records.addrs,answered.addrs,List.length_map,List.length_range]
  refine ⟨records.addr.trans answered.haddr,trsT,records.trxSize.trans answered.hsize,records.bstType.trans answered.hburst,
    records.trxPrt.trans answered.hprot,records.hmastlock.trans answered.hmastlock,?_,
    records.addrs.trans answered.addrs,?_,fun write => ?_,finished.rsp,finished.success⟩
  · exact Nat.succ.inj (finished.addrs.symm.trans length)
  · rw [records.data,List.length_map,answered.count]
  · rw [records.data,answered.data write,List.map_map]
    exact List.map_congr_left fun i _ => packData_unpackData _

theorem delivers_all {items : List (Trx aw dw)} {bursts : List (Burst aw dw)} {collected : List (CollItem aw dw)}
    (shaped : ∀ x ∈ items, x.Shaped) (answered : List.Forall₂ Answered items bursts)
    (records : List.Forall₂ (fun β item => Records β item ∧ Finished item) bursts collected) :
    List.Forall₂ Delivers items collected := by
  induction answered generalizing collected with
  | nil =>
    cases records
    exact .nil
  | cons first _ ih =>
    cases records with
    | cons records rest =>
      exact .cons (delivers_of (shaped _ List.mem_cons_self).known first records.1 records.2)
        (ih (fun x inside => shaped x (List.mem_cons_of_mem _ inside)) rest)

theorem Carried.fixed {x : Trx aw dw} {n m : Nat} {β : Burst aw dw} (carried : Carried x n m β) (shaped : x.Shaped) :
    β.head.hburst ≠ .incr := by
  intro incr
  have beats := shaped.beats
  rw [← carried.hburst,incr] at beats
  cases beats

theorem fixed_answered {items : List (Trx aw dw)} {closed : List (Burst aw dw)}
    (all : List.Forall₂ Answered items closed) (shaped : ∀ x ∈ items, x.Shaped) :
    ∀ β ∈ closed, β.head.hburst ≠ .incr := by
  induction all with
  | nil => exact fun _ inside => (List.not_mem_nil inside).elim
  | cons first _ ih =>
    refine List.forall_mem_cons.mpr ⟨Carried.fixed first (shaped _ List.mem_cons_self),?_⟩
    exact ih fun x inside => shaped x (List.mem_cons_of_mem _ inside)

theorem Tracks.fixed {items : List (Trx aw dw)} {next : Option (Trx aw dw × Nat)} {owed : Option (Beat dw)}
    {b : Bus aw dw} (tracks : Tracks items next owed b) (shaped : ∀ x ∈ items, x.Shaped) :
    ∀ β ∈ b.bursts, β.head.hburst ≠ .incr := by
  have part {items : List (Trx aw dw)} {closed : List (Burst aw dw)} {x : Trx aw dw} {n m : Nat} {β : Burst aw dw}
      (all : List.Forall₂ Answered items closed) (carried : Carried x n m β) (shaped : ∀ y ∈ items ++ [x], y.Shaped) :
      ∀ γ ∈ closed ++ [β], γ.head.hburst ≠ .incr := by
    intro γ inside
    rcases List.mem_append.mp inside with old | new
    · exact fixed_answered all (fun y among => shaped y (List.mem_append_left _ among)) γ old
    · rw [List.mem_singleton.mp new]
      exact carried.fixed (shaped x (List.mem_append_right _ (List.mem_singleton_self x)))
  cases tracks with
  | free settled =>
    cases settled with
    | rest all =>
      rw [Bus.bursts,Option.toList_none,List.append_nil]
      exact fixed_answered all shaped
    | part all bound carried => exact part all carried shaped
  | beat all bound carried => exact part all carried shaped

/-- The bursts that the monitor collects from samples which show a trace. -/
theorem Shows.collected {items : List (Trx aw dw)} {pos : Pos aw dw} {owed : Option (Beat dw)}
    {samples : List (Sample aw dw × Bool)} (shows : Shows items pos owed samples) (shaped : ∀ x ∈ items, x.Shaped)
    (okay : AllOkay samples) : ∃ done rest, items = done ++ rest ∧ rest.length ≤ 2 ∧
      List.Forall₂ Delivers done ((Monitor.after samples).collected.map (Monitor.after samples).item) := by
  obtain ⟨conformant,taken,next,ahead,tracks⟩ := shows
  have within (x : Trx aw dw) (inside : x ∈ taken) : x.Shaped := shaped x (ahead.mem inside)
  have fixed := tracks.fixed within
  have filtered : (Bus.after samples).bursts.filter Burst.complete =
      (Bus.after samples).bursts.filter Burst.collectable :=
    List.filter_congr fun β member => by simp [Burst.collectable,fixed β member]
  have records := Bus.okay_collected conformant okay fun β member proper => proper.records (fixed β member)
  rw [← filtered] at records
  obtain ⟨done,rest,rfl,few,answered⟩ := tracks.done within
  have delivers := delivers_all (fun x inside => within x (List.mem_append_left _ inside)) answered records
  cases pos with
  | idle | busy x i => exact ⟨done,rest,ahead.2,few.trans (Nat.le_succ 1),delivers⟩
  | beat x i =>
    cases i with
    | zero => exact ⟨done,rest ++ [x],by rw [← List.append_assoc]; exact ahead.2,by simpa using few,delivers⟩
    | succ i => exact ⟨done,rest,ahead.2,few.trans (Nat.le_succ 1),delivers⟩

namespace Driver

theorem cycles_grow (s : Driver aw dw) (a : Action aw dw) :
    (s.step a).cycles = s.cycles ∨ ∃ sig, a = .posedge sig ∧ (s.step a).cycles = s.cycles ++ [⟨s.vif,sig,s.presented⟩] := by
  have effect := step_effect s a
  generalize s.step a = s' at effect ⊢
  cases effect with
  | posedge sig settled => exact .inr ⟨sig,rfl,rfl⟩
  | _ => exact .inl rfl

theorem cycles_okay {hasBusy : Bool} {actions : List (Action aw dw)}
    (smooth : Machine.Meets step Smooth (.initial hasBusy) actions) :
    ∀ c ∈ (after hasBusy actions).cycles, c.sig.hresp = .okay := by
  have keep (s : Driver aw dw) (a : Action aw dw) (okay : ∀ c ∈ s.cycles, c.sig.hresp = .okay) (smooth : Smooth s a) :
      ∀ c ∈ (s.step a).cycles, c.sig.hresp = .okay := by
    intro c inside
    rcases s.cycles_grow a with same | ⟨sig,rfl,more⟩
    · exact okay c (same ▸ inside)
    · rw [more] at inside
      rcases List.mem_append.mp inside with old | new
      · exact okay c old
      · rw [List.mem_singleton.mp new]
        exact smooth.2
  exact Machine.run_invariant keep (fun _ inside => (List.not_mem_nil inside).elim) smooth

/-- A write of four beats with a wait state, and a read behind it. -/
def fourThenOne : List (Action 8 8) :=
  arrive {single 0 1 with
      addrs := [4,5,6,7], dataBeat := [fun _ => 1,fun _ => 2,fun _ => 3,fun _ => 4], bstLen := 3
      trxSize := .b8, bstType := .incr4} ++
    arrive {single 0 2 with trsT := .rd, addrs := [9], dataBeat := []} ++ [.addrGet,.dataGet,.dataSwap] ++
    edge true true ++ edge false true ++ edge true true ++ edge true true ++ edge true true ++
    [.addrGet,.dataGet,.dataSwap] ++ edge true true ++ [.dataGet,.dataSwap] ++ edge true true ++ edge true true

def fourThenOneSeen : List (Cycle 8 8 × BitVec 8 × Bool) := (after false fourThenOne).cycles.map fun c => (c,9,true)

end Driver

end Smtdv.Ahb
