import Smtdv.Apb.Coherent

/-! How long a slave lets its master wait. Time passes on the bench only when no process can go on, so the driver of
the slave has the item of a transfer before the second cycle of its access phase, and `pready_L2H` bounds the rest. -/
namespace Smtdv.Apb
open Lib

variable {aw dw : Nat}

def Sample.waiting (c : Sample aw dw) : Bool := c.penable && !c.pready

def waits (cycles : List (Sample aw dw)) : Nat := (cycles.reverse.takeWhile Sample.waiting).length

theorem waits_concat (cycles : List (Sample aw dw)) (c : Sample aw dw) :
    waits (cycles ++ [c]) = if c.waiting then waits cycles+1 else 0 := by
  rw [waits,List.reverse_append,List.reverse_singleton,List.singleton_append,List.takeWhile_cons]
  split <;> rfl

/-- Wait states in a row are among those with which some beginning of the cycles ends. -/
theorem length_le_waits {before block : List (Sample aw dw)} (all : ∀ c ∈ block, c.waiting = true) :
    block.length ≤ waits (before ++ block) := by
  rw [waits,List.reverse_append,List.takeWhile_append_of_pos fun c inside => all c (List.mem_reverse.mp inside),
    List.length_append,List.length_reverse]
  exact Nat.le_add_right _ _

/-- After so many wait states of its transfer the thread needs no more than the bound allows. -/
def SlaveThread.Owes (bound waited : Nat) (clk : Bool) : SlaveThread aw dw → Prop
  | .get | .access _ => clk = false ∧ waited ≤ 1
  | .pready _ n => waited+n+(if clk then 1 else 0) ≤ bound+1
  | .finish _ => waited ≤ bound+1
  | .cyc _ => False

theorem SlaveThread.Owes.le {thread : SlaveThread aw dw} {bound waited : Nat} {clk : Bool}
    (owes : thread.Owes bound waited clk) : waited ≤ bound+1 := by
  cases thread with
  | get | access item => exact owes.2.trans (Nat.le_add_left 1 bound)
  | pready item n => exact Nat.le_of_add_right_le (Nat.le_of_add_right_le owes)
  | finish item => exact owes
  | cyc item => exact owes.elim

theorem SlaveThread.Owes.counts {thread : SlaveThread aw dw} {bound waited : Nat} (owes : thread.Owes bound waited true)
    (waiting : thread.finishing = false) : thread.Owes bound (waited+1) false := by
  cases thread with
  | get | access item => exact Bool.noConfusion owes.1
  | pready item n =>
    simp only [Owes,if_true,Bool.false_eq_true,if_false] at owes ⊢
    omega
  | finish item => cases waiting
  | cyc item => exact owes

theorem SlaveThread.get_of_item {thread : SlaveThread aw dw} (none : thread.item.toList = []) : thread = .get := by
  cases thread with
  | get => rfl
  | access | pready | cyc | finish => cases none

namespace SlaveAgent

/-- The processes that let an item go on. -/
structure Eager (s : SlaveAgent aw dw) (begun : Prop) : Prop where
  forked : 0 < s.base.forked → s.base.rcv ≠ .blocked
  request : begun → s.request = true ∨ s.drv.mbox ≠ [] ∨ s.drv.thread ≠ .get

def Drawn (s : SlaveAgent aw dw) (bound : Nat) : Prop := ∀ item ∈ s.objects, item.preadyL2H ≤ bound

theorem Drawn.object {s : SlaveAgent aw dw} {bound : Nat} (drawn : s.Drawn bound) (r : Nat) :
    (s.object r).preadyL2H ≤ bound := by
  rw [SlaveAgent.object]
  cases found : s.objects[r]? with
  | none => exact Int.natCast_nonneg bound
  | some item => exact drawn item (List.mem_of_getElem? found)

theorem Drawn.set {s : SlaveAgent aw dw} {bound : Nat} (drawn : s.Drawn bound) (r : Nat) (item : SlaveObject aw dw)
    (same : item.preadyL2H = (s.object r).preadyL2H) : ∀ other ∈ s.objects.set r item, other.preadyL2H ≤ bound := by
  intro other inside
  rcases List.mem_or_eq_of_mem_set inside with old | rfl
  · exact drawn other old
  · rw [same]
    exact drawn.object r

/-- An agent that has the item of a transfer, and no process that can go on, has it in its driver's thread. -/
theorem Eager.holds {s : SlaveAgent aw dw} {dir : TrsType} {addr : BitVec aw} {map : ByteMap aw} {begun : Prop}
    (eager : s.Eager begun) (inv : s.Inv (some (dir,addr)) map) (later : begun) (quiet : s.runnable = false) :
    s.drv.thread ≠ .get := by
  intro thread
  have place : s.Opened dir addr map := inv.place
  have one := place.load
  simp only [runnable,Bool.or_eq_false_iff,decide_eq_false_iff_not,Bool.and_eq_false_iff] at quiet
  obtain ⟨⟨⟨⟨⟨driver,idle⟩,more⟩,ready⟩,_⟩,noted⟩ := quiet
  have blocked : s.base.rcv = .blocked := inv.piped.running.resolve_left idle
  have forked : s.base.forked = 0 := by
    by_contra some
    exact eager.forked (Nat.pos_of_ne_zero some) blocked
  have box : s.drv.mbox = [] := by
    simpa [SlaveDriver.runnable,thread] using driver
  have request : s.request = true := by
    rcases eager.request later with request | held | held
    · exact request
    · exact absurd box held
    · exact absurd thread held
  have all : ¬ s.base.fetched < s.base.items.length := fun less => more ⟨blocked,less⟩
  have passed : ¬ s.noted < s.base.mbox.length := noted.resolve_left (by simp [request])
  rw [load,thread,box,forked] at one
  simp only [SlaveThread.item,Option.toList_none,List.length_nil] at one
  omega

theorem step_item (s : SlaveAgent aw dw) (a : SlaveAction) : (s.step a).item = s.item := by
  cases a with
  | configure blockPready hasError | wake | start => rfl
  | get =>
    simp only [step,get]
    split <;> rfl
  | store w =>
    simp only [step,store]
    split <;> rfl
  | note =>
    simp only [step,note]
    split <;> rfl

theorem step_thread (s : SlaveAgent aw dw) (a : SlaveAction) :
    (s.step a).drv.thread = s.drv.thread ∨ s.drv.thread = .get ∧ ∃ item, (s.step a).drv.thread = .access item := by
  cases a with
  | configure blockPready hasError | start => exact .inl rfl
  | wake =>
    simp only [step,SlaveDriver.wake]
    split
    next thread =>
      split
      next => exact .inl rfl
      next item rest sorted => exact .inr ⟨thread,item,rfl⟩
    next => exact .inl rfl
  | get =>
    simp only [step,get]
    split <;> exact .inl rfl
  | store w =>
    simp only [step,store]
    split <;> exact .inl rfl
  | note =>
    simp only [step,note,SlaveDriver.driveBus]
    split
    next => split <;> exact .inl rfl
    next => exact .inl rfl

theorem step_owes {s : SlaveAgent aw dw} {bound waited : Nat} {clk : Bool} (owes : s.drv.thread.Owes bound waited clk)
    (a : SlaveAction) : (s.step a).drv.thread.Owes bound waited clk := by
  rcases s.step_thread a with same | ⟨before,item,after⟩
  · rwa [same]
  · rw [before] at owes
    rw [after]
    exact owes

theorem step_drawn {s : SlaveAgent aw dw} {bound : Nat} (drawn : s.Drawn bound) (a : SlaveAction) :
    (s.step a).Drawn bound := by
  cases a with
  | configure blockPready hasError | wake | start => exact drawn
  | get =>
    simp only [step,get]
    split
    · exact drawn
    · exact drawn.set _ _ rfl
  | store w =>
    simp only [step,store]
    split
    · refine drawn.set _ _ ?_
      rw [midDoWriteItem]
      split <;> rfl
    · exact drawn
  | note =>
    simp only [step,note]
    split <;> exact drawn

theorem rcvFromMon_forked (base : SlaveBaseSeq.State) (blocks : Bool) (eager : 0 < base.forked → base.rcv ≠ .blocked) :
    0 < (SlaveBaseSeq.rcvFromMon base blocks).forked → (SlaveBaseSeq.rcvFromMon base blocks).rcv ≠ .blocked := by
  rw [SlaveBaseSeq.rcvFromMon]
  split
  case isFalse => exact eager
  case isTrue =>
    split
    next => exact fun forked => absurd forked (Nat.lt_irrefl 0)
    next trs next =>
      cases trs with
      | rd =>
        cases blocks with
        | true => exact fun forked => absurd forked (Nat.lt_irrefl 0)
        | false =>
          rintro _ ⟨⟩
      | wr | rdwr =>
        rintro _ ⟨⟩

theorem step_eager {s : SlaveAgent aw dw} {begun : Prop} (piped : s.Piped) (eager : s.Eager begun) (a : SlaveAction) :
    (s.step a).Eager begun := by
  obtain ⟨forked,request⟩ := eager
  cases a with
  | configure blockPready hasError => exact ⟨forked,request⟩
  | wake =>
    refine ⟨forked,fun later => ?_⟩
    simp only [step,SlaveDriver.wake]
    split
    next thread =>
      split
      next => exact request later
      next item rest sorted =>
        refine .inr (.inr ?_)
        rintro ⟨⟩
    next => exact request later
  | get =>
    have kept := rcvFromMon_forked s.base s.mem.hasLock forked
    simp only [step,get]
    split <;> exact ⟨kept,request⟩
  | start =>
    refine ⟨?_,request⟩
    simp only [step,SlaveBaseSeq.start]
    split <;> exact forked
  | store w =>
    simp only [step,store]
    split
    · refine ⟨?_,request⟩
      simp only [SlaveBaseSeq.finishWrite]
      split <;> exact forked
    · exact ⟨forked,request⟩
  | note =>
    simp only [step,note]
    split
    next r waits next =>
      refine ⟨forked,fun _ => .inr (.inl ?_)⟩
      have drives := s.drv.driveBus_known (piped.known next)
      rw [drives]
      exact List.append_ne_nil_of_right_ne_nil _ (List.cons_ne_nil _ _)
    next => exact ⟨forked,request⟩

/-- A rising edge of the access phase counts one of the draw, or answers. -/
theorem posedge_owes {s : SlaveAgent aw dw} {map : ByteMap aw} {c : Sample aw dw} {dir : TrsType} {addr : BitVec aw}
    {bound waited : Nat} (inv : s.Inv (some (dir,addr)) map) (opt : Bool) (drawn : s.Drawn bound)
    (taken : s.drv.thread ≠ .get) (waiting : s.drv.thread.finishing = false) (selected : c.psel ≠ 0)
    (enabled : c.penable = true) (owes : s.drv.thread.Owes bound waited false) :
    (s.posedge c opt).drv.thread.Owes bound waited true := by
  have place : s.Opened dir addr map := inv.place
  have timely := (inv.access opt waiting selected enabled).prompt.timely
  have counts (drv : SlaveDriver aw dw) (item : SlaveItem aw dw) (n : Nat) (room : waited+n ≤ bound+1)
      (timely : ∀ other, (drv.repeatPready item opt n).thread ≠ .cyc other) :
      (drv.repeatPready item opt n).thread.Owes bound waited true := by
    cases n with
    | zero =>
      rw [SlaveDriver.repeatPready,SlaveDriver.waitCyc] at timely ⊢
      split
      · exact room
      next late =>
        rw [if_neg late] at timely
        exact absurd rfl (timely item)
    | succ n => exact room
  rw [posedge,inv.prompt.sample] at timely ⊢
  cases thread : s.drv.thread with
  | get => exact absurd thread taken
  | access item =>
    rw [thread] at owes
    obtain rfl : item = s.last.req := place.copies item (by
      rw [thread]
      exact List.mem_append_right _ List.mem_cons_self)
    have draw : s.last.req.preadyL2H ≤ bound := drawn.object _
    simp only [SlaveDriver.edge,thread,decide_eq_true selected,enabled,Bool.and_self,if_true] at timely ⊢
    refine counts _ _ _ ?_ timely
    have first := owes.2
    split <;> omega
  | pready item n =>
    rw [thread] at owes
    simp only [SlaveDriver.edge,thread] at timely ⊢
    exact counts _ _ _ owes timely
  | cyc item => exact absurd thread (inv.prompt.timely item)
  | finish item =>
    rw [thread] at waiting
    cases waiting

theorem collect_base (s : SlaveAgent aw dw) (choice : Choice) (c : Sample aw dw) (dir : TrsType) :
    (s.collect choice c dir).base.forked = s.base.forked ∧ (s.collect choice c dir).base.rcv = s.base.rcv ∧
      (s.collect choice c dir).request = s.request := by
  rw [collect]
  split <;> split <;> exact ⟨rfl,rfl,rfl⟩

theorem collect_drawn {s : SlaveAgent aw dw} {bound : Nat} (drawn : s.Drawn bound) {choice : Choice}
    (draw : choice.preadyL2H ≤ bound) (c : Sample aw dw) (dir : TrsType) : (s.collect choice c dir).Drawn bound := by
  rw [collect]
  split
  · split
    · intro item inside
      rcases List.mem_append.mp inside with old | new
      · exact drawn item old
      · rw [List.mem_singleton.mp new]
        change (if dir = .wr then choice.preadyL2H else 0) ≤ _
        split
        · exact draw
        · exact Int.natCast_nonneg bound
    · exact drawn
  next r _ =>
    split
    · exact drawn.set r _ rfl
    · exact drawn

theorem negedge_drawn {s : SlaveAgent aw dw} {bound : Nat} (drawn : s.Drawn bound) {choice : Choice}
    (draw : choice.preadyL2H ≤ bound) (c : Sample aw dw) : (s.negedge c choice).Drawn bound := by
  rw [negedge]
  split
  · exact collect_drawn (collect_drawn drawn draw c .wr) draw c .rd
  · exact collect_drawn (collect_drawn drawn draw c .rd) draw c .wr

theorem negedge_eager {s : SlaveAgent aw dw} {transit : Transit aw} {map : ByteMap aw} {before begun : Prop}
    (inv : s.Inv transit map) (eager : s.Eager before) (earlier : begun → before) (c : Sample aw dw) (choice : Choice) :
    (s.negedge c choice).Eager begun := by
  have thread := (inv.negedge_drv c choice).2
  have drv (t : SlaveAgent aw dw) (same : t.drv = s.drv)
      (base : t.base.forked = s.base.forked ∧ t.base.rcv = s.base.rcv ∧ t.request = s.request) :
      Eager {t with drv := t.drv.negedge choice.opt} begun := by
    obtain ⟨forked,rcv,request⟩ := base
    rw [same,inv.prompt.negedge]
    refine ⟨?_,fun later => ?_⟩
    · rw [forked,rcv]
      exact eager.forked
    · rw [request]
      exact eager.request (earlier later)
  have twice (first second : TrsType) :
      ((s.collect choice c first).collect choice c second).base.forked = s.base.forked ∧
        ((s.collect choice c first).collect choice c second).base.rcv = s.base.rcv ∧
        ((s.collect choice c first).collect choice c second).request = s.request := by
    obtain ⟨forked,rcv,request⟩ := s.collect_base choice c first
    obtain ⟨forked',rcv',request'⟩ := (s.collect choice c first).collect_base choice c second
    exact ⟨forked'.trans forked,rcv'.trans rcv,request'.trans request⟩
  rw [negedge]
  split
  · exact drv _ (by rw [collect_drv,collect_drv]) (twice .wr .rd)
  · exact drv _ (by rw [collect_drv,collect_drv]) (twice .rd .wr)

end SlaveAgent

namespace Env

def Draws (bound : Nat) : EnvAction aw dw → Prop
  | .negedge _ choice => ∀ i, (choice i).preadyL2H ≤ bound
  | _ => True

instance (bound : Nat) (a : EnvAction aw dw) : Decidable (Draws bound a) :=
  match a with
  | .negedge _ choice => inferInstanceAs (Decidable (∀ i, (choice i).preadyL2H ≤ bound))
  | .posedge _ | .leave | .arrive _ | .configure _ _ _ | .wake | .slave _ _ => inferInstanceAs (Decidable True)

/-- How far the transfer under way has come. -/
structure Pace (e : Env aw dw) (bound : Nat) : Prop where
  drawn : ∀ i, (e.slaves i).Drawn bound
  eager : ∀ i, (e.slaves i).Eager (e.clk = true ∨ e.seen ≠ [])
  closed : (∀ i dir, (e.slaves i).item dir = none) → waits e.seen = 0
  owes : ∀ i dir, (e.slaves i).item dir ≠ none → (e.slaves i).drv.thread.Owes bound (waits e.seen) e.clk
  past : ∀ before, before <+: e.seen → waits before ≤ bound+1

theorem Selects.unique {e : Env aw dw} {i j : Fin 2} (here : e.Selects i) (there : e.Selects j) : i = j :=
  here.responder.symm.trans there.responder

theorem resting_items {s : SlaveAgent aw dw} {map : ByteMap aw} (inv : s.Inv none map) (dir : TrsType) :
    s.item dir = none := by
  have place : s.Closed := inv.place
  exact place.item dir

/-- An item is that of the transfer which the stage has open. -/
theorem Stage.holder {e : Env aw dw} (stage : e.Stage) {i : Fin 2} {dir : TrsType}
    (item : (e.slaves i).item dir ≠ none) :
    e.Selects i ∧ (∃ item, e.master.thread = .access item) ∧ e.seen ≠ [] ∧
      (e.slaves i).Inv (some (dirOf e.now,e.now.paddr)) (e.map i) ∧
      ((e.slaves i).drv.thread.finishing = true → e.clk = true) := by
  cases stage with
  | resting all early => exact absurd (resting_items (all i).inv dir) item
  | opened j other thread selects others later inv high =>
    by_cases here : i = j
    · subst here
      obtain ⟨before,c,split,_⟩ := later
      exact ⟨selects,⟨other,thread⟩,by simp [split],inv,high⟩
    · exact absurd (resting_items (others i here).inv dir) item
  | answered j other thread selects others inv finishing low =>
    by_cases here : i = j
    · exact absurd (resting_items (here ▸ inv) dir) item
    · exact absurd (resting_items (others i here).inv dir) item

/-- After a falling edge without an item the bus shows no wait state. -/
theorem Inv.idle {e : Env aw dw} (inv : e.Inv) (low : e.clk = false) (all : ∀ i dir, (e.slaves i).item dir = none) :
    e.now.waiting = false := by
  cases inv.stage with
  | resting _ early =>
    have disabled : e.now.penable = false := inv.master.disabled (early.resolve_right (by simp [low]))
    simp [Sample.waiting,disabled]
  | opened i item thread selects others later held high =>
    have place : (e.slaves i).Opened (dirOf e.now) e.now.paddr (e.map i) := held.place
    exact absurd (place.item.symm.trans (all i _)) (Option.some_ne_none _)
  | answered i item thread selects others held finishing low =>
    have ready : e.now.pready = true := by
      change e.response.pready = true
      rw [selects.response,held.prompt.ready]
      exact finishing
    simp [Sample.waiting,ready]

theorem Pace.posedge {e : Env aw dw} {bound : Nat} (pace : e.Pace bound) (inv : e.Inv) (opt : Fin 2 → Bool)
    (quiet : e.runnable = false) (low : e.clk = false) : (e.posedge opt).Pace bound := by
  obtain ⟨_,idle⟩ := quiet_parts quiet
  refine ⟨pace.drawn,fun i => ⟨(pace.eager i).forked,fun _ => .inl rfl⟩,pace.closed,fun i dir item => ?_,pace.past⟩
  obtain ⟨selects,⟨_,thread⟩,begun,held,high⟩ := inv.stage.holder item
  have waiting : (e.slaves i).drv.thread.finishing = false := by
    by_contra finishing
    rw [Bool.not_eq_false] at finishing
    exact absurd ((high finishing).symm.trans low) Bool.true_eq_false.mp
  have owes := pace.owes i dir item
  rw [low] at owes
  exact SlaveAgent.posedge_owes held (opt i) (pace.drawn i) ((pace.eager i).holds held (.inr begun) (idle i)) waiting
    selects.view.1 (inv.master.enabled thread).2.2 owes

theorem Pace.opened {e : Env aw dw} {bound : Nat} (pace : e.Pace bound) (inv : e.Inv) (order : Bool)
    (choice : Fin 2 → Choice) (quiet : e.runnable = false) (high : e.clk = true) {i : Fin 2} {dir : TrsType}
    (item : ((e.negedge order choice).slaves i).item dir ≠ none) :
    e.now.waiting = true ∧ ((e.negedge order choice).slaves i).drv.thread.Owes bound (waits e.seen+1) false := by
  obtain ⟨master,now,_,mapCfgs⟩ := inv.counted order choice quiet
  have vif := e.master.negedge_settles.2.1
  obtain ⟨selects,⟨_,thread⟩,_,held,early⟩ := (inv.negedge order choice quiet high).stage.holder item
  have idle : ((e.negedge order choice).slaves i).drv.thread.finishing = false := by
    by_contra finishing
    exact Bool.noConfusion (early (Bool.not_eq_false _ ▸ finishing))
  have enabled : e.now.penable = true := by
    rw [← now]
    exact ((inv.negedge order choice quiet high).master.enabled thread).2.2
  have low : e.now.pready = false := by
    rw [← now]
    change (e.negedge order choice).response.pready = false
    rw [selects.response,held.prompt.ready]
    exact idle
  refine ⟨by simp [Sample.waiting,enabled,low],?_⟩
  obtain ⟨transit,before⟩ := inv.stage.slave i
  have same : ((e.negedge order choice).slaves i).drv.thread = (e.slaves i).drv.thread :=
    (before.negedge_drv (e.view i) (choice i)).2
  rw [same] at idle ⊢
  by_cases held : ∃ dir, (e.slaves i).item dir ≠ none
  · obtain ⟨dir,held⟩ := held
    have owes := pace.owes i dir held
    rw [high] at owes
    exact owes.counts idle
  · push Not at held
    -- the other slave has no item either, as it is not selected
    have all (j : Fin 2) (dir : TrsType) : (e.slaves j).item dir = none := by
      by_contra item
      have there := (inv.stage.holder item).1
      have selects' : e.Selects i := by
        refine ⟨?_,?_⟩
        · rw [← selects.psel,master,vif]
        · rw [← selects.slave,mapCfgs,master,vif]
      exact item (there.unique selects' ▸ held dir)
    cases transit with
    | some pair =>
      have place : (e.slaves i).Opened pair.1 pair.2 (e.map i) := before.place
      exact absurd (place.item.symm.trans (held _)) (Option.some_ne_none _)
    | none =>
      have place : (e.slaves i).Closed := before.place
      have empty := place.load.resolve_right (by rw [idle]; exact Bool.false_ne_true)
      rw [SlaveAgent.load] at empty
      have thread : (e.slaves i).drv.thread = .get := SlaveThread.get_of_item (List.length_eq_zero_iff.mp (by omega))
      rw [pace.closed all,thread]
      exact ⟨rfl,Nat.le_refl 1⟩

theorem Pace.negedge {e : Env aw dw} {bound : Nat} (pace : e.Pace bound) (inv : e.Inv) (order : Bool)
    (choice : Fin 2 → Choice) (quiet : e.runnable = false) (high : e.clk = true)
    (draws : ∀ i, (choice i).preadyL2H ≤ bound) : (e.negedge order choice).Pace bound := by
  have counted : waits (e.negedge order choice).seen = if e.now.waiting then waits e.seen+1 else 0 := waits_concat _ _
  have owes (i : Fin 2) (dir : TrsType) (item : ((e.negedge order choice).slaves i).item dir ≠ none) :
      ((e.negedge order choice).slaves i).drv.thread.Owes bound (waits (e.negedge order choice).seen) false := by
    obtain ⟨waiting,owes⟩ := pace.opened inv order choice quiet high item
    rwa [counted,if_pos waiting]
  have closed (all : ∀ i dir, ((e.negedge order choice).slaves i).item dir = none) :
      waits (e.negedge order choice).seen = 0 := by
    rw [counted,if_neg]
    rw [Bool.not_eq_true,← (inv.counted order choice quiet).2.1]
    exact (inv.negedge order choice quiet high).idle rfl all
  refine ⟨fun i => SlaveAgent.negedge_drawn (pace.drawn i) (draws i) (e.view i),fun i => ?_,closed,owes,
    fun before inside => ?_⟩
  · obtain ⟨transit,held⟩ := inv.stage.slave i
    exact SlaveAgent.negedge_eager held (pace.eager i) (fun _ => .inl high) (e.view i) (choice i)
  · rcases List.prefix_concat_iff.mp inside with rfl | old
    · by_cases all : ∀ i dir, ((e.negedge order choice).slaves i).item dir = none
      · exact (closed all).trans_le (Nat.zero_le _)
      · push Not at all
        obtain ⟨i,dir,item⟩ := all
        exact (owes i dir item).le
    · exact pace.past before old

theorem step_pace (e : Env aw dw) (a : EnvAction aw dw) {bound : Nat} (inv : e.Inv) (pace : e.Pace bound)
    (draws : Draws bound a) : (e.step a).Pace bound := by
  cases a with
  | posedge opt =>
    rw [step]
    split
    · exact pace
    next passes =>
      simp only [Bool.or_eq_true,not_or,Bool.not_eq_true] at passes
      exact pace.posedge inv opt passes.1 passes.2
  | negedge order choice =>
    rw [step]
    split
    · exact pace
    next passes =>
      simp only [Bool.or_eq_true,not_or,Bool.not_eq_true,Bool.not_eq_false'] at passes
      exact pace.negedge inv order choice passes.1 passes.2 draws
  | leave =>
    rw [step]
    split
    · exact pace
    next => exact ⟨pace.drawn,fun i => ⟨(pace.eager i).forked,(pace.eager i).request⟩,pace.closed,pace.owes,pace.past⟩
  | arrive item | configure hasBlock blockPsel blockPenable | wake =>
    exact ⟨pace.drawn,pace.eager,pace.closed,pace.owes,pace.past⟩
  | slave i a =>
    obtain ⟨transit,held⟩ := inv.stage.slave i
    have item (j : Fin 2) : (Function.update e.slaves i ((e.slaves i).step a) j).item = (e.slaves j).item := by
      by_cases here : j = i
      · rw [here,Function.update_self,SlaveAgent.step_item]
      · rw [Function.update_of_ne here]
    have keeps (p : Fin 2 → SlaveAgent aw dw → Prop) (all : ∀ j, p j (e.slaves j)) (here : p i ((e.slaves i).step a))
        (j : Fin 2) : p j (Function.update e.slaves i ((e.slaves i).step a) j) := by
      by_cases same : j = i
      · rw [same,Function.update_self]
        exact here
      · rw [Function.update_of_ne same]
        exact all j
    refine ⟨keeps (fun _ s => s.Drawn bound) pace.drawn (SlaveAgent.step_drawn (pace.drawn i) a),
      keeps (fun _ s => s.Eager (e.clk = true ∨ e.seen ≠ [])) pace.eager
        (SlaveAgent.step_eager held.piped (pace.eager i) a),fun all => pace.closed fun j dir => ?_,
      keeps (fun _ s => ∀ dir, s.item dir ≠ none → s.drv.thread.Owes bound (waits e.seen) e.clk) pace.owes
        fun dir some => ?_,pace.past⟩
    · rw [← item]
      exact all j dir
    · rw [SlaveAgent.step_item] at some
      exact SlaveAgent.step_owes (pace.owes i dir some) a

theorem initial_pace (mapCfgs : List MapCfg) (hasBlock blockPsel blockPenable : Bool) (config : Fin 2 → Bool × Bool)
    (bound : Nat) : Pace (initial mapCfgs hasBlock blockPsel blockPenable config : Env aw dw) bound := by
  refine ⟨fun _ _ inside => (List.not_mem_nil inside).elim,fun _ => ⟨fun forked => absurd forked (Nat.lt_irrefl 0),?_⟩,
    fun _ => rfl,fun _ _ item => absurd rfl item,fun before inside => ?_⟩
  · rintro (high | seen)
    · exact Bool.noConfusion high
    · exact absurd rfl seen
  · rw [List.prefix_nil.mp inside]
    exact Nat.zero_le _

theorem after_pace {mapCfgs : List MapCfg} {hasBlock blockPsel blockPenable : Bool} {config : Fin 2 → Bool × Bool}
    {bound : Nat} {actions : List (EnvAction aw dw)}
    (admissible : Admissible mapCfgs hasBlock blockPsel blockPenable config actions)
    (draws : ∀ a ∈ actions, Draws bound a) :
    (after mapCfgs hasBlock blockPsel blockPenable config actions).Pace bound := by
  have keep (e : Env aw dw) (a : EnvAction aw dw) (kept : e.Inv ∧ e.Pace bound)
      (allowed : e.Routed a ∧ Draws bound a) : (e.step a).Inv ∧ (e.step a).Pace bound :=
    ⟨step_inv e a kept.1 allowed.1,step_pace e a kept.1 kept.2 allowed.2⟩
  have start : (initial mapCfgs hasBlock blockPsel blockPenable config : Env aw dw).Inv ∧
      (initial mapCfgs hasBlock blockPsel blockPenable config : Env aw dw).Pace bound :=
    ⟨initial_inv mapCfgs hasBlock blockPsel blockPenable config,
      initial_pace mapCfgs hasBlock blockPsel blockPenable config bound⟩
  exact (Machine.run_invariant keep start (Machine.Meets.and admissible (Machine.meets_of_forall draws))).2

/-- In every admissible run a master waits no longer than for the greatest draw and one cycle, which the slave takes
to hear of the transfer: a transfer whose access phase has come so far ends. -/
theorem waits_of_admissible (mapCfgs : List MapCfg) (hasBlock blockPsel blockPenable : Bool)
    (config : Fin 2 → Bool × Bool) (bound : Nat) (actions : List (EnvAction aw dw))
    (admissible : Admissible mapCfgs hasBlock blockPsel blockPenable config actions)
    (draws : ∀ a ∈ actions, Draws bound a) (before block rest : List (Sample aw dw))
    (seen : (after mapCfgs hasBlock blockPsel blockPenable config actions).seen = before ++ block ++ rest)
    (waiting : ∀ c ∈ block, c.waiting = true) : block.length ≤ bound+1 :=
  (length_le_waits waiting).trans ((after_pace admissible draws).past _ ⟨rest,seen.symm⟩)

theorem writtenThenRead_waits :
    let e := after [⟨0,0,15⟩,⟨1,16,31⟩] false false false (fun _ => (false,false)) writtenThenRead
    ∃ before c rest, e.seen = before ++ [c] ++ rest ∧ c.waiting = true ∧ [c].length ≤ 0+1 := by
  intro e
  have split : e.seen = e.seen.take 1 ++ [e.seen.getD 1 {}] ++ e.seen.drop 2 := by decide +kernel
  have waiting : (e.seen.getD 1 {}).waiting = true := by decide +kernel
  have draws : ∀ a ∈ writtenThenRead, Draws 0 a := by decide +kernel
  exact ⟨_,_,_,split,waiting,waits_of_admissible _ _ _ _ _ 0 _ writtenThenRead_admissible draws _ _ _ split
    (by simpa using waiting)⟩

end Env

end Smtdv.Apb
