import Smtdv.Apb.Observed
import Smtdv.Apb.Paced

/-! The slave agent at the edges of the clock: what a transfer makes of its invariant, from the falling edge at
which the monitor asserts it to the rising edge at which the driver gives up the bus. -/
namespace Smtdv.Apb
open Lib

variable {aw dw : Nat}

def dirOf (c : Sample aw dw) : TrsType := if c.prwd then .wr else .rd

theorem begins_dirOf (c : Sample aw dw) : begins (dirOf c) c = (decide (c.psel ≠ 0) && c.penable) := by
  cases write : c.prwd <;> simp [begins,dirOf,write]

theorem begins_other {c : Sample aw dw} {dir : TrsType} (known : dir ≠ .rdwr) (other : dir ≠ dirOf c) :
    begins dir c = false := by
  rw [dirOf] at other
  cases dir <;> cases write : c.prwd <;> simp_all [begins]

def written (map : ByteMap aw) (t : Transfer aw dw) : ByteMap aw :=
  if t.write && !t.err then storeAt map t.addr (List.ofFn (packData t.data)) else map

namespace SlaveAgent

theorem collect_other {s : SlaveAgent aw dw} {dir : TrsType} {c : Sample aw dw} (choice : Choice)
    (idle : s.item dir = none) (quiet : begins dir c = false) : s.collect choice c dir = s := by
  rw [collect]
  simp [idle,quiet]

theorem collect_item (s : SlaveAgent aw dw) (choice : Choice) (c : Sample aw dw) {dir other : TrsType}
    (apart : other ≠ dir) : (s.collect choice c dir).item other = s.item other := by
  rw [collect]
  split <;> split <;> simp [apart]

theorem collect_drv (s : SlaveAgent aw dw) (choice : Choice) (c : Sample aw dw) (dir : TrsType) :
    (s.collect choice c dir).drv = s.drv := by
  rw [collect]
  split <;> split <;> rfl

/-- A falling edge concerns the collector of the direction on the bus only. -/
theorem negedge_eq {s : SlaveAgent aw dw} {c : Sample aw dw} (choice : Choice)
    (idle : ∀ other ≠ dirOf c, s.item other = none) :
    s.negedge c choice = {s.collect choice c (dirOf c) with drv := s.drv.negedge choice.opt} := by
  have both (other : TrsType) (known : other ≠ .rdwr) (apart : other ≠ dirOf c) :
      s.collect choice c other = s ∧
        (s.collect choice c (dirOf c)).collect choice c other = s.collect choice c (dirOf c) := by
    have quiet := begins_other known apart
    exact ⟨collect_other choice (idle other apart) quiet,
      collect_other choice ((collect_item s choice c apart).trans (idle other apart)) quiet⟩
  have turns : (if choice.order then (s.collect choice c .wr).collect choice c .rd
      else (s.collect choice c .rd).collect choice c .wr) = s.collect choice c (dirOf c) := by
    cases write : c.prwd with
    | true =>
      have dir : dirOf c = .wr := by simp [dirOf,write]
      obtain ⟨before,after⟩ := both .rd (by decide) (by rw [dir]; decide)
      rw [dir] at after ⊢
      rw [before,after,ite_self]
    | false =>
      have dir : dirOf c = .rd := by simp [dirOf,write]
      obtain ⟨before,after⟩ := both .wr (by decide) (by rw [dir]; decide)
      rw [dir] at after ⊢
      rw [before,after,ite_self]
  rw [negedge]
  simp only [turns,collect_drv]

theorem Prompt.negedge {s : SlaveAgent aw dw} (prompt : s.Prompt) (opt : Bool) :
    s.drv.negedge opt = {s.drv with atEdge := false, cyc := s.drv.cyc+1} := by
  rw [SlaveDriver.negedge]
  split
  next item thread => exact absurd thread (prompt.timely item)
  next => rfl

theorem Inv.passes {s : SlaveAgent aw dw} {transit : Transit aw} {map : ByteMap aw} (inv : s.Inv transit map)
    (opt : Bool) : Inv {s with drv := s.drv.negedge opt} transit map := by
  obtain ⟨piped,prompt,place,stored⟩ := inv
  rw [prompt.negedge]
  refine ⟨⟨piped.kinds,piped.handled,piped.noted,piped.running,piped.plain,piped.boxed,piped.forks,piped.writers,
    piped.completed,piped.load⟩,⟨prompt.pending,prompt.ready,prompt.timely⟩,?_,
    ⟨stored.free,stored.failed,stored.settled,stored.due⟩⟩
  cases transit with
  | none => exact ⟨place.item,place.ended,place.load⟩
  | some pair =>
    have place : s.Opened pair.1 pair.2 map := place
    have later : s.last.bgCyc ≤ s.drv.cyc+1 := place.bgCyc.trans (Int.le_add_one (Int.le_refl _))
    exact ⟨place.begun,place.item,place.others,place.trsT,place.addrs,later,place.incomplete,place.load,
      place.copies,place.fresh,place.read,place.write,place.answer⟩

theorem last_append (objects : List (SlaveObject aw dw)) (item : SlaveObject aw dw) :
    (objects ++ [item])[(objects ++ [item]).length-1]?.getD default = item := by
  simp

/-- An agent that has nothing of a transfer: the bus belongs to none, or to another slave. -/
structure Resting (s : SlaveAgent aw dw) (map : ByteMap aw) : Prop where
  inv : s.Inv none map
  idle : s.drv.thread.finishing = false

theorem Resting.load {s : SlaveAgent aw dw} {map : ByteMap aw} (resting : s.Resting map) : s.load = 0 := by
  have place : s.Closed := resting.inv.place
  apply place.load.resolve_right
  rw [resting.idle]
  exact Bool.false_ne_true

theorem Resting.begins {s : SlaveAgent aw dw} {map : ByteMap aw} {c : Sample aw dw} (resting : s.Resting map)
    (choice : Choice) (selected : c.psel ≠ 0) (enabled : c.penable = true) (quiet : s.base.writers = []) :
    (s.negedge c choice).Inv (some (dirOf c,c.paddr)) map ∧ (s.negedge c choice).drv.thread = s.drv.thread := by
  have empty := resting.load
  obtain ⟨⟨piped,prompt,place,stored⟩,idle⟩ := resting
  have place : s.Closed := place
  rw [SlaveAgent.load] at empty
  have begun : Apb.begins (dirOf c) c = true := by rw [begins_dirOf,decide_eq_true selected,enabled]; rfl
  have handled := SlaveBaseSeq.step_inv s.base (.deliver (dirOf c)) piped.handled trivial
  have fetched := piped.handled.fetched
  change s.base.fetched ≤ s.base.items.length at fetched
  have size : s.base.items.length = s.objects.length := by rw [piped.kinds,List.length_map]
  have known : dirOf c ≠ .rdwr := by rw [dirOf]; split <;> decide
  have trsT : (s.beginItem (dirOf c) c choice).trsT = dirOf c := rfl
  rw [negedge_eq choice fun other _ => place.item other,prompt.negedge,collect]
  simp only [place.item,begun,if_true]
  have final := last_append s.objects (s.beginItem (dirOf c) c choice)
  have one : SlaveAgent.load {s with base := SlaveBaseSeq.step s.base (.deliver (dirOf c))} = 1 := by
    simp only [SlaveAgent.load,SlaveBaseSeq.step,List.length_append,List.length_singleton]
    omega
  have boxes : s.drv.mbox ++ s.drv.thread.item.toList = [] := by
    rw [← List.length_eq_zero_iff,List.length_append]
    omega
  refine ⟨⟨⟨?_,handled,piped.noted,piped.running,?_,fun r inside => ?_,fun forks => ?_,fun w inside => ?_,
    fun r inside => ?_,one.le⟩,⟨prompt.pending,prompt.ready,prompt.timely⟩,?_,
    ⟨stored.free,stored.failed,fun _ => stored.settled (not_stores quiet),fun ends => ?_⟩⟩,trivial⟩
  · rw [List.map_append]
    exact congrArg (· ++ [dirOf c]) piped.kinds
  · intro inside
    rcases List.mem_append.mp inside with old | new
    · exact piped.plain old
    · exact known (List.mem_singleton.mp new).symm
  · have nothing : s.base.mbox.drop s.noted = [] := List.drop_eq_nil_iff.mpr (by omega)
    rw [show (SlaveBaseSeq.step s.base (.deliver (dirOf c))).mbox.drop s.noted = [] from nothing] at inside
    cases inside
  · simp only [SlaveBaseSeq.step] at forks
    omega
  · rw [show (SlaveBaseSeq.step s.base (.deliver (dirOf c))).writers = [] from quiet] at inside
    cases inside
  · rw [List.length_append]
    exact Nat.lt_add_right _ (piped.completed r inside)
  · constructor
    case begun =>
      rw [List.length_append]
      exact Nat.succ_pos _
    case item => simp
    case others =>
      intro other apart
      exact (Function.update_of_ne apart _ _).trans (place.item other)
    case trsT | addrs =>
      rw [last,object,final]
      rfl
    case bgCyc =>
      rw [last,object,final]
      change (if choice.counted then s.drv.cyc+1 else s.drv.cyc) ≤ s.drv.cyc+1
      split <;> omega
    case incomplete =>
      rw [List.length_append]
      intro inside
      exact absurd (piped.completed _ inside) (by simp)
    case load => exact one
    case copies =>
      intro other among
      rw [show s.drv.mbox ++ s.drv.thread.item.toList = [] from boxes] at among
      cases among
    case fresh =>
      intro _
      rw [last,object,final]
      rfl
    case read | write =>
      intro _ all
      simp only [SlaveBaseSeq.step,List.length_append,List.length_singleton] at all
      omega
    case answer =>
      intro _ other
      exact absurd (idle.symm.trans other) Bool.false_ne_true
  · exact absurd ends (not_stores quiet)

theorem Inv.ends {s : SlaveAgent aw dw} {map : ByteMap aw} {c : Sample aw dw}
    (inv : s.Inv (some (dirOf c,c.paddr)) map) (choice : Choice) (finishing : s.drv.thread.finishing = true)
    (high : c.pready = true) : (s.negedge c choice).Inv none (written map c.transfer) := by
  obtain ⟨piped,prompt,place,stored⟩ := inv
  have place : s.Opened (dirOf c) c.paddr map := place
  have handled := SlaveBaseSeq.step_inv s.base (.complete (s.objects.length-1)) piped.handled trivial
  obtain ⟨item,thread⟩ := SlaveThread.finishing_item finishing
  have one := place.load
  rw [load,thread] at one
  change _+_+_+_+1 = 1 at one
  have fetched := piped.handled.fetched
  change s.base.fetched ≤ s.base.items.length at fetched
  have begun := place.begun
  have none : ¬ s.stores := by
    rintro ⟨w,inside,complete⟩
    rw [show w = s.objects.length-1 from Nat.eq_sub_of_add_eq (piped.writers w inside).2.1] at complete
    exact place.incomplete complete
  rw [negedge_eq choice place.others,prompt.negedge,collect]
  simp only [place.item,high,if_true]
  set ended : SlaveObject aw dw := {s.object (s.objects.length-1) with
    toCollItem := (s.object (s.objects.length-1)).toCollItem.populateEndItem (dirOf c) c}
  have final := last_set s.objects (s.objects.length-1) ended (by omega)
  have trsT : ended.trsT = dirOf c := place.trsT
  refine ⟨⟨?_,handled,piped.noted,piped.running,piped.plain,fun r inside => ?_,fun forks => ?_,fun w inside => ?_,
    fun r inside => ?_,piped.load⟩,⟨prompt.pending,prompt.ready,prompt.timely⟩,⟨fun dir => ?_,fun w inside => ?_,
    .inr finishing⟩,⟨stored.free,stored.failed,fun waiting => ?_,fun due => ?_⟩⟩
  · exact piped.kinds.trans (kinds_set s.objects (s.objects.length-1) ended rfl).symm
  · rw [List.length_set]
    exact piped.boxed r inside
  · simp only [SlaveBaseSeq.step] at forks
    omega
  · rw [last,object,final,List.length_set,trsT,← place.trsT]
    exact piped.writers w inside
  · rw [List.length_set]
    rcases List.mem_cons.mp inside with rfl | old
    · omega
    · exact piped.completed r old
  · by_cases here : dir = dirOf c
    · rw [here]
      exact Function.update_self _ _ _
    · exact (Function.update_of_ne here _ _).trans (place.others dir here)
  · have same := (piped.writers w inside).2.1
    rw [show w = s.objects.length-1 from by omega]
    exact List.mem_cons_self
  · -- without a process of the write to come the transfer was a read
    rw [written,Sample.transfer]
    cases write : c.prwd with
    | false => exact stored.settled none
    | true =>
      have dir : dirOf c = .wr := by rw [dirOf,write]; rfl
      have writer := place.write dir (by omega) (by omega)
      exact absurd ⟨_,writer,List.mem_cons_self⟩ waiting
  · obtain ⟨w,inside,_⟩ := due
    have dir : dirOf c = .wr := place.trsT.symm.trans (piped.writers w inside).2.2.2
    have write : c.prwd = true := by
      by_contra low
      rw [dirOf,if_neg low] at dir
      cases dir
    obtain ⟨contents,-,-⟩ := midDoWriteItem_eq s.mem ended c.paddr place.addrs stored.free
    rw [last,object,final,contents,stored.settled none,written,Sample.transfer,write]
    cases err : c.pslverr <;> simp [ended,CollItem.populateEndItem,dir,err]

theorem Inv.answers {s : SlaveAgent aw dw} {map : ByteMap aw} {dir : TrsType} {addr : BitVec aw}
    (inv : s.Inv (some (dir,addr)) map) (read : dir = .rd) (finishing : s.drv.thread.finishing = true) :
    s.drv.vif.prdata = unpackData (beatAt dw map addr) := by
  have place : s.Opened dir addr map := inv.place
  exact place.answer read finishing

theorem Inv.waits {s : SlaveAgent aw dw} {map : ByteMap aw} {c : Sample aw dw} {addr : BitVec aw}
    (inv : s.Inv (some (dirOf c,addr)) map) (choice : Choice) (low : c.pready = false) :
    (s.negedge c choice).Inv (some (dirOf c,addr)) map ∧ (s.negedge c choice).drv.thread = s.drv.thread := by
  have place : s.Opened (dirOf c) addr map := inv.place
  have same : s.collect choice c (dirOf c) = s := by
    rw [collect]
    simp [place.item,low]
  rw [negedge_eq choice place.others,same]
  refine ⟨inv.passes choice.opt,?_⟩
  rw [inv.prompt.negedge]

theorem Inv.quiet {s : SlaveAgent aw dw} {map : ByteMap aw} {c : Sample aw dw} (inv : s.Inv none map) (choice : Choice)
    (quiet : c.psel = 0 ∨ c.penable = false) :
    (s.negedge c choice).Inv none map ∧ (s.negedge c choice).drv.thread = s.drv.thread := by
  have place : s.Closed := inv.place
  have begun : Apb.begins (dirOf c) c = false := by
    rw [begins_dirOf]
    rcases quiet with unselected | disabled
    · simp [unselected]
    · simp [disabled]
  rw [negedge_eq choice fun other _ => place.item other,collect_other choice (place.item _) begun]
  refine ⟨inv.passes choice.opt,?_⟩
  rw [inv.prompt.negedge]

theorem Prompt.sample {s : SlaveAgent aw dw} (prompt : s.Prompt) :
    s.drv.sample = {s.drv with atEdge := true, pending := []} := by
  rw [SlaveDriver.sample,prompt.pending]
  rfl

theorem Inv.thread {s : SlaveAgent aw dw} {transit : Transit aw} {map : ByteMap aw} (inv : s.Inv transit map)
    (idle : s.drv.thread.finishing = false) (next : SlaveThread aw dw) (same : next.item = s.drv.thread.item)
    (waits : next.finishing = false) (timely : ∀ item, next ≠ .cyc item) :
    Inv {s with drv := {s.drv with atEdge := true, pending := [], thread := next}, request := true} transit map := by
  obtain ⟨piped,prompt,place,stored⟩ := inv
  have load : load {s with drv := {s.drv with atEdge := true, pending := [], thread := next}, request := true} =
      s.load := by
    simp only [load,same]
  refine ⟨⟨piped.kinds,piped.handled,piped.noted,piped.running,piped.plain,piped.boxed,piped.forks,piped.writers,
    piped.completed,load.trans_le piped.load⟩,⟨rfl,?_,timely⟩,?_,
    ⟨stored.free,stored.failed,stored.settled,stored.due⟩⟩
  · rw [prompt.ready,idle]
    exact waits.symm
  · cases transit with
    | none =>
      have place : s.Closed := place
      refine ⟨place.item,place.ended,.inl (load.trans (place.load.resolve_right ?_))⟩
      rw [idle]
      exact Bool.false_ne_true
    | some pair =>
      have place : s.Opened pair.1 pair.2 map := place
      refine ⟨place.begun,place.item,place.others,place.trsT,place.addrs,place.bgCyc,place.incomplete,
        load.trans place.load,?_,place.fresh,place.read,place.write,fun _ other => ?_⟩
      · simp only [same]
        exact place.copies
      · exact absurd (waits.symm.trans other) Bool.false_ne_true

/-- Past a rising edge the agent has nothing of a transfer that has ended, or of another slave. -/
theorem Inv.rests {s : SlaveAgent aw dw} {map : ByteMap aw} (inv : s.Inv none map) (c : Sample aw dw) (opt : Bool) :
    (s.posedge c opt).Resting map := by
  have place : s.Closed := inv.place
  have bound := inv.piped.load
  rw [posedge,inv.prompt.sample]
  cases thread : s.drv.thread with
  | get =>
    have idle : s.drv.thread.finishing = false := by rw [thread]; rfl
    simp only [SlaveDriver.edge,thread]
    exact ⟨inv.thread idle .get (by rw [thread]) rfl (fun _ other => by cases other),rfl⟩
  | cyc item => exact absurd thread (inv.prompt.timely item)
  | access item | pready item n =>
    have empty := place.load.resolve_right (by rw [thread]; exact Bool.false_ne_true)
    rw [load,thread] at empty
    exact absurd empty (Nat.succ_ne_zero _)
  | finish item =>
    obtain ⟨piped,prompt,_,stored⟩ := inv
    rw [load,thread] at bound
    change _+_+_+_+1 ≤ 1 at bound
    simp only [SlaveDriver.edge,thread,SlaveDriver.drive,if_true]
    have empty : load {s with drv := {s.drv with
        atEdge := true, pending := [], vif := populateDefaultItem s.drv.vif, thread := .get}} = 0 := by
      simp only [load,SlaveThread.item,Option.toList_none,List.length_nil]
      omega
    exact ⟨⟨⟨piped.kinds,piped.handled,piped.noted,piped.running,piped.plain,piped.boxed,piped.forks,piped.writers,
      piped.completed,empty.trans_le (Nat.zero_le 1)⟩,⟨rfl,rfl,fun _ other => by cases other⟩,
      ⟨place.item,place.ended,.inl empty⟩,⟨stored.free,stored.failed,stored.settled,stored.due⟩⟩,rfl⟩

theorem populateBegin_pready (item : SlaveItem aw dw) (hasError opt : Bool) (vif : SlaveVif dw) :
    (item.populateBegin hasError opt vif).pready = true := by
  rw [SlaveItem.populateBegin]
  cases item.trsT <;> rfl

theorem populateBegin_prdata {item : SlaveItem aw dw} (read : item.trsT = .rd) (hasError opt : Bool)
    (vif : SlaveVif dw) :
    (item.populateBegin hasError opt vif).prdata = unpackData (item.dataBeat.getD 0 default) := by
  rw [SlaveItem.populateBegin,read]
  rfl

/-- The wait for `bg_cyc` is over, as the monitor has counted no further than the driver. -/
theorem Inv.finish {s : SlaveAgent aw dw} {map : ByteMap aw} {dir : TrsType} {addr : BitVec aw}
    (inv : s.Inv (some (dir,addr)) map) (item : SlaveItem aw dw) (opt : Bool) (has : s.drv.thread.item = some item) :
    Inv {s with drv := SlaveDriver.waitCyc {s.drv with atEdge := true, pending := []} item opt, request := true}
      (some (dir,addr)) map := by
  obtain ⟨piped,prompt,place,stored⟩ := inv
  have place : s.Opened dir addr map := place
  obtain rfl : item = s.last.req := place.copies item (by rw [has]; exact List.mem_append_right _ List.mem_cons_self)
  have due : s.last.req.bgCyc ≤ s.drv.cyc := place.bgCyc
  rw [SlaveDriver.waitCyc,if_pos due,SlaveDriver.drive,if_pos rfl]
  have same : load {s with drv := {s.drv with
      atEdge := true, pending := [], vif := s.last.req.populateBegin s.drv.hasError opt s.drv.vif,
      thread := .finish s.last.req}, request := true} = s.load := by
    simp only [load,has]
    rfl
  have bound := place.load
  rw [load,has] at bound
  change _+_+_+_+1 = 1 at bound
  have fetched := piped.handled.fetched
  change s.base.fetched ≤ s.base.items.length at fetched
  refine ⟨⟨piped.kinds,piped.handled,piped.noted,piped.running,piped.plain,piped.boxed,piped.forks,piped.writers,
    piped.completed,same.trans_le piped.load⟩,⟨rfl,?_,fun _ other => by cases other⟩,
    ⟨place.begun,place.item,place.others,place.trsT,place.addrs,place.bgCyc,place.incomplete,same.trans place.load,
      ?_,place.fresh,place.read,place.write,fun read _ => ?_⟩,⟨stored.free,stored.failed,stored.settled,stored.due⟩⟩
  · exact populateBegin_pready _ _ _ _
  · have copies := place.copies
    rw [has] at copies
    exact copies
  · have beat := place.read read (by omega)
    have data : s.last.req.dataBeat = [beatAt dw map addr] := beat
    refine (populateBegin_prdata (place.trsT.trans read) _ _ _).trans ?_
    rw [data]
    rfl

/-- In a rising edge of its access phase an agent that has the item may answer. -/
theorem Inv.access {s : SlaveAgent aw dw} {map : ByteMap aw} {c : Sample aw dw} {dir : TrsType} {addr : BitVec aw}
    (inv : s.Inv (some (dir,addr)) map) (opt : Bool) (waiting : s.drv.thread.finishing = false) (selected : c.psel ≠ 0)
    (enabled : c.penable = true) : (s.posedge c opt).Inv (some (dir,addr)) map := by
  have waits (item : SlaveItem aw dw) (n : Nat) (has : s.drv.thread.item = some item) :
      Inv {s with
        drv := SlaveDriver.repeatPready {s.drv with atEdge := true, pending := []} item opt n, request := true}
        (some (dir,addr)) map := by
    cases n with
    | zero => exact inv.finish item opt has
    | succ n => exact inv.thread waiting (.pready item n) has.symm rfl (fun _ other => by cases other)
  rw [posedge,inv.prompt.sample]
  cases thread : s.drv.thread with
  | get =>
    simp only [SlaveDriver.edge,thread]
    exact inv.thread waiting .get (by rw [thread]) rfl (fun _ other => by cases other)
  | access item =>
    simp only [SlaveDriver.edge,thread,decide_eq_true selected,enabled,Bool.and_self,if_true]
    rw [← thread]
    exact waits item _ (by rw [thread]; rfl)
  | pready item n =>
    simp only [SlaveDriver.edge,thread]
    rw [← thread]
    exact waits item n (by rw [thread]; rfl)
  | cyc item => exact absurd thread (inv.prompt.timely item)
  | finish item =>
    rw [thread] at waiting
    cases waiting

theorem Resting.pready {s : SlaveAgent aw dw} {map : ByteMap aw} (resting : s.Resting map) :
    s.drv.vif.pready = false := resting.inv.prompt.ready.trans resting.idle

theorem step_drv (s : SlaveAgent aw dw) (a : SlaveAction) :
    (s.step a).drv.vif = s.drv.vif ∧ (s.step a).drv.thread.finishing = s.drv.thread.finishing := by
  cases a with
  | configure blockPready hasError => exact ⟨rfl,rfl⟩
  | wake =>
    simp only [step,SlaveDriver.wake]
    split
    next thread =>
      split
      next => exact ⟨rfl,rfl⟩
      next =>
        rw [thread]
        exact ⟨rfl,rfl⟩
    next => exact ⟨rfl,rfl⟩
  | get =>
    simp only [step,get]
    split <;> exact ⟨rfl,rfl⟩
  | start => exact ⟨rfl,rfl⟩
  | store w =>
    simp only [step,store]
    split <;> exact ⟨rfl,rfl⟩
  | note =>
    simp only [step,note,SlaveDriver.driveBus]
    split
    next => split <;> exact ⟨rfl,rfl⟩
    next => exact ⟨rfl,rfl⟩

theorem Inv.leave {s : SlaveAgent aw dw} {transit : Transit aw} {map : ByteMap aw} (inv : s.Inv transit map) :
    s.leave.Inv transit map := by
  obtain ⟨piped,prompt,place,stored⟩ := inv
  refine ⟨⟨piped.kinds,piped.handled,piped.noted,piped.running,piped.plain,piped.boxed,piped.forks,piped.writers,
    piped.completed,piped.load⟩,⟨prompt.pending,prompt.ready,prompt.timely⟩,?_,
    ⟨stored.free,stored.failed,stored.settled,stored.due⟩⟩
  cases transit with
  | none => exact ⟨place.item,place.ended,place.load⟩
  | some pair =>
    have place : s.Opened pair.1 pair.2 map := place
    exact ⟨place.begun,place.item,place.others,place.trsT,place.addrs,place.bgCyc,place.incomplete,place.load,
      place.copies,place.fresh,place.read,place.write,place.answer⟩

theorem Inv.negedge_drv {s : SlaveAgent aw dw} {transit : Transit aw} {map : ByteMap aw} (inv : s.Inv transit map)
    (c : Sample aw dw) (choice : Choice) :
    (s.negedge c choice).drv.vif = s.drv.vif ∧ (s.negedge c choice).drv.thread = s.drv.thread := by
  have drv (t : SlaveAgent aw dw) (same : t.drv = s.drv) :
      (t.drv.negedge choice.opt).vif = s.drv.vif ∧ (t.drv.negedge choice.opt).thread = s.drv.thread := by
    rw [same,inv.prompt.negedge]
    exact ⟨rfl,rfl⟩
  rw [negedge]
  split <;> exact drv _ (by rw [collect_drv,collect_drv])

/-- Before time passes a write that has ended is stored. -/
theorem Inv.quiet_writers {s : SlaveAgent aw dw} {map : ByteMap aw} (inv : s.Inv none map)
    (quiet : s.runnable = false) : s.base.writers = [] := by
  have place : s.Closed := inv.place
  rw [List.eq_nil_iff_forall_not_mem]
  intro w inside
  have runs : s.runnable = true := by
    have complete : (s.base.writers.any fun w => decide (w ∈ s.base.completed ∧ s.mem.hasLock = false)) = true :=
      List.any_eq_true.mpr ⟨w,inside,by simp [place.ended w inside,inv.free]⟩
    simp only [runnable,complete,Bool.or_true,Bool.true_or]
  exact absurd (quiet.symm.trans runs) Bool.false_ne_true

end SlaveAgent

end Smtdv.Apb
