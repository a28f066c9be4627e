import Smtdv.Lib.TwinQueue
import Smtdv.Ahb.Objects

/-! The two boxes of the driver as twin queues: when the address thread and the data
thread take their items in one order. -/
namespace Smtdv.Ahb.Driver
open Lib

variable {aw dw : Nat}

/-- The `k`-th items taken by the two threads are the same transfer. -/
def SameOrder (s : Driver aw dw) : Prop :=
  ∀ (k : Nat) (a b : Handle aw dw), s.addrPops[k]? = some a → s.dataPops[k]? = some b → a = b

theorem sameOrder_iff_zip (s : Driver aw dw) :
    SameOrder s ↔ ∀ pair ∈ s.addrPops.zip s.dataPops, pair.1 = pair.2 := by
  constructor
  · intro same pair member
    obtain ⟨k,place⟩ := List.mem_iff_getElem?.mp member
    obtain ⟨left,right⟩ := List.getElem?_zip_eq_some.mp place
    exact same k pair.1 pair.2 left right
  · intro same k a b left right
    exact same (a,b) (List.mem_of_getElem? (List.getElem?_zip_eq_some.mpr ⟨left,right⟩))

instance (s : Driver aw dw) : Decidable (SameOrder s) := decidable_of_iff' _ (sameOrder_iff_zip s)

/-- What the threads took in the same order they had taken in the same order before. -/
theorem SameOrder.before {s : Driver aw dw} {a : Action aw dw} (same : SameOrder (s.step a)) : SameOrder s := by
  obtain ⟨_,_,addrPops,dataPops⟩ := step_takes s a
  have later {pops pops' : List (Handle aw dw)} (grown : pops <+: pops') (k : Nat) (h : Handle aw dw)
      (here : pops[k]? = some h) : pops'[k]? = some h := by
    obtain ⟨inside,value⟩ := List.getElem?_eq_some_iff.mp here
    rw [List.prefix_iff_getElem?.mp grown k inside,value]
  intro k left right here there
  exact same k left right (later addrPops k left here) (later dataPops k right there)

/-- Neither push of the fork has run. -/
def Whole (fork : Fork aw dw) : Prop := fork.toAddr = true ∧ fork.toData = true

instance (fork : Fork aw dw) : Decidable (Whole fork) := inferInstanceAs (Decidable (_ ∧ _))

/-- No thread takes an item, and no other item is pushed, between the two pushes of one
item; and no item is pushed that would go before one which only one thread has taken. -/
def InOrder (s : Driver aw dw) : Action aw dw → Prop
  | .pushAddr k | .pushData k =>
    (∀ fork ∈ s.forks.eraseIdx k, Whole fork) ∧ ∀ fork ∈ s.forks[k]?,
      ∀ a ∈ TwinQueue.outstanding s.addrPops s.dataPops,
        TwinQueue.Behind Handle.prio fork.item fork.front a
  | .addrGet | .dataGet => ∀ fork ∈ s.forks, Whole fork
  | _ => True

instance (s : Driver aw dw) (a : Action aw dw) : Decidable (InOrder s a) := by
  cases a <;> unfold InOrder <;> infer_instance

/-! ### Half-done forks -/

def halfAddr (fork : Fork aw dw) : Bool := fork.toAddr && !fork.toData

def halfData (fork : Fork aw dw) : Bool := fork.toData && !fork.toAddr

theorem halfAddr_whole (fork : Fork aw dw) (whole : Whole fork) : halfAddr fork = false := by
  simp [halfAddr,whole.1,whole.2]

theorem halfData_whole (fork : Fork aw dw) (whole : Whole fork) : halfData fork = false := by
  simp [halfData,whole.1,whole.2]

theorem filter_whole (half : Fork aw dw → Bool) (none : ∀ fork, Whole fork → half fork = false)
    (forks : List (Fork aw dw)) (whole : ∀ fork ∈ forks, Whole fork) : forks.filter half = [] := by
  apply List.filter_eq_nil_iff.mpr
  intro fork member
  simp [none fork (whole fork member)]

theorem filter_single (half : Fork aw dw → Bool) (none : ∀ fork, Whole fork → half fork = false)
    (forks : List (Fork aw dw)) (k : Nat) (fork : Fork aw dw) (there : forks[k]? = some fork)
    (others : ∀ other ∈ forks.eraseIdx k, Whole other) :
    forks.filter half = if half fork then [fork] else [] := by
  induction forks generalizing k with
  | nil => simp at there
  | cons head rest ih =>
    cases k with
    | zero =>
      obtain rfl : head = fork := by simpa using there
      have tail := filter_whole half none rest (by simpa using others)
      by_cases mine : half head = true <;> simp [mine,tail]
    | succ k =>
      rw [List.eraseIdx_cons_succ,List.forall_mem_cons] at others
      rw [List.filter_cons_of_neg (by simp [none head others.1])]
      exact ih k (by simpa using there) others.2

theorem filter_pushed (half : Fork aw dw → Bool) (none : ∀ fork, Whole fork → half fork = false)
    (remains : ∀ fork, half fork = true → (fork.toAddr || fork.toData) = true)
    (forks : List (Fork aw dw)) (k : Nat) (f : Fork aw dw → Fork aw dw) (fork : Fork aw dw)
    (there : forks[k]? = some fork) (others : ∀ other ∈ forks.eraseIdx k, Whole other) :
    (pushed forks k f).filter half = if half (f fork) then [f fork] else [] := by
  have kept : (forks.modify k f).eraseIdx k = forks.eraseIdx k := by
    apply List.ext_getElem?
    intro i
    rw [List.getElem?_eraseIdx,List.getElem?_eraseIdx]
    split
    · exact List.getElem?_modify_ne f forks (by omega)
    · exact List.getElem?_modify_ne f forks (by omega)
  rw [pushed_filter half remains,filter_single half none (forks.modify k f) k (f fork) (by simp [there]) (by rwa [kept])]

/-! ### The invariant -/

/-- A box once the half-done forks have finished. -/
def filled (box : List (Handle aw dw)) (forks : List (Fork aw dw)) : List (Handle aw dw) :=
  forks.foldl (fun box fork => push box fork.item fork.front) box

def Twins (s : Driver aw dw) : Prop :=
  TwinQueue.Twin Handle.prio (filled s.addrbox (s.forks.filter halfAddr))
    (filled s.databox (s.forks.filter halfData)) s.addrPops s.dataPops

theorem twins_fork (s : Driver aw dw) (twins : Twins s) (item : Handle aw dw) (front : Bool) :
    TwinQueue.Twin Handle.prio
      (filled s.addrbox ((s.forks ++ [({item := item, front := front} : Fork aw dw)]).filter halfAddr))
      (filled s.databox ((s.forks ++ [({item := item, front := front} : Fork aw dw)]).filter halfData))
      s.addrPops s.dataPops := by
  simpa [Twins,List.filter_append,halfAddr,halfData] using twins

/-- One of the two pushes of a fork: the box it goes to gets the item, and the item waits for
the other push, or is in both boxes. -/
theorem twin_pushed {mine its : Fork aw dw → Bool} (mineWhole : ∀ fork, Whole fork → mine fork = false)
    (itsWhole : ∀ fork, Whole fork → its fork = false)
    (mineLeft : ∀ fork, mine fork = true → (fork.toAddr || fork.toData) = true)
    (itsLeft : ∀ fork, its fork = true → (fork.toAddr || fork.toData) = true)
    {forks : List (Fork aw dw)} {k : Nat} {fork : Fork aw dw} (there : forks[k]? = some fork)
    (others : ∀ other ∈ forks.eraseIdx k, Whole other) {f : Fork aw dw → Fork aw dw}
    (kept : (f fork).item = fork.item ∧ (f fork).front = fork.front) (idle : its fork = false)
    (gone : mine (f fork) = false) (half : its (f fork) = !mine fork)
    {first second firstTaken secondTaken : List (Handle aw dw)}
    (behind : ∀ a ∈ TwinQueue.outstanding firstTaken secondTaken,
      TwinQueue.Behind Handle.prio fork.item fork.front a)
    (twin : TwinQueue.Twin Handle.prio (filled first (forks.filter mine)) (filled second (forks.filter its))
      firstTaken secondTaken) :
    TwinQueue.Twin Handle.prio (filled (push first fork.item fork.front) ((pushed forks k f).filter mine))
      (filled second ((pushed forks k f).filter its)) firstTaken secondTaken := by
  rw [filter_single mine mineWhole forks k fork there others,
    filter_single its itsWhole forks k fork there others,idle] at twin
  rw [filter_pushed mine mineWhole mineLeft forks k f fork there others,
    filter_pushed its itsWhole itsLeft forks k f fork there others,gone,half]
  cases before : mine fork with
  | true => simpa [filled,before] using twin
  | false =>
    simp only [before,filled,Bool.false_eq_true,if_false,Bool.not_false,if_true,List.foldl_nil,
      List.foldl_cons] at twin ⊢
    rw [kept.1,kept.2]
    exact twin.push fork.item fork.front behind

theorem twins_pushAddr (s : Driver aw dw) (twins : Twins s) (k : Nat) (fork : Fork aw dw)
    (there : s.forks[k]? = some fork) (left : fork.toAddr = true) (ordered : InOrder s (.pushAddr k)) :
    TwinQueue.Twin Handle.prio
      (filled (push s.addrbox fork.item fork.front)
        ((pushed s.forks k fun fork => {fork with toAddr := false}).filter halfAddr))
      (filled s.databox ((pushed s.forks k fun fork => {fork with toAddr := false}).filter halfData))
      s.addrPops s.dataPops := by
  obtain ⟨others,behind⟩ := ordered
  refine twin_pushed halfAddr_whole halfData_whole ?_ ?_ there others ⟨rfl,rfl⟩ ?_ rfl ?_ (behind fork there) twins
  · simp +contextual [halfAddr]
  · simp +contextual [halfData]
  · simp [halfData,left]
  · simp [halfAddr,halfData,left]

theorem twins_pushData (s : Driver aw dw) (twins : Twins s) (k : Nat) (fork : Fork aw dw)
    (there : s.forks[k]? = some fork) (left : fork.toData = true) (ordered : InOrder s (.pushData k)) :
    TwinQueue.Twin Handle.prio
      (filled s.addrbox ((pushed s.forks k fun fork => {fork with toData := false}).filter halfAddr))
      (filled (push s.databox fork.item fork.front)
        ((pushed s.forks k fun fork => {fork with toData := false}).filter halfData))
      s.addrPops s.dataPops := by
  obtain ⟨others,behind⟩ := ordered
  apply TwinQueue.Twin.symm
  refine twin_pushed halfData_whole halfAddr_whole ?_ ?_ there others ⟨rfl,rfl⟩ ?_ rfl ?_ ?_ twins.symm
  · simp +contextual [halfData]
  · simp +contextual [halfAddr]
  · simp [halfAddr,left]
  · simp [halfAddr,halfData,left]
  · intro a outstanding
    exact behind fork there a (TwinQueue.mem_outstanding_comm.mp outstanding)

theorem twins_whole (s : Driver aw dw) (twins : Twins s) (whole : ∀ fork ∈ s.forks, Whole fork) :
    TwinQueue.Twin Handle.prio s.addrbox s.databox s.addrPops s.dataPops := by
  rwa [Twins,filter_whole _ halfAddr_whole s.forks whole,filter_whole _ halfData_whole s.forks whole] at twins

theorem step_twins (s : Driver aw dw) (a : Action aw dw) (twins : Twins s) (ordered : InOrder s a) :
    Twins (s.step a) := by
  have effect := step_effect s a
  generalize s.step a = s' at effect ⊢
  cases effect with
  | addrRedrive => exact twins_fork s twins _ true
  | driveBus => exact twins_fork s twins _ false
  | pushAddr k fork there left => exact twins_pushAddr s twins k fork there left ordered
  | pushData k fork there left => exact twins_pushData s twins k fork there left ordered
  | addrSkip item rest waits sorted | addrTake item rest waits sorted =>
    have taken := (twins_whole s twins ordered).take item rest sorted
    rw [Twins,filter_whole _ halfAddr_whole s.forks ordered,filter_whole _ halfData_whole s.forks ordered]
    exact taken
  | dataTake item rest waits sorted =>
    have taken := ((twins_whole s twins ordered).symm.take item rest sorted).symm
    rw [Twins,filter_whole _ halfAddr_whole s.forks ordered,filter_whole _ halfData_whole s.forks ordered]
    exact taken
  | _ => exact twins

theorem initial_twins (hasBusy : Bool) : Twins (initial hasBusy : Driver aw dw) :=
  .inl ⟨rfl,rfl⟩

def single (prio : Int) (data : BitVec 8) : Trx 8 8 where
  trsT := .wr
  addrs := [4]
  dataBeat := [fun _ => data]
  bstLen := 0
  prio := prio

/-- An item arrives and its pushes run. -/
def arrive (req : Trx 8 8) : List (Action 8 8) := [.driveBus req,.pushAddr 0,.pushData 0]

/-- Between the two threads taking an item of priority 5, one of priority 1 arrives. -/
def overtaken : List (Action 8 8) :=
  arrive (single 0 1) ++ [.addrGet,.dataGet,.dataSwap] ++ arrive (single 5 2) ++
    [.posedge ⟨true,true,.okay⟩,.addrEdge true,.addrGet] ++ arrive (single 1 3) ++ [.dataEdge,.dataGet]

/-- The same items, the last of them pushed after both threads have taken the one before. -/
def inTurn : List (Action 8 8) :=
  arrive (single 0 1) ++ [.addrGet,.dataGet,.dataSwap] ++ arrive (single 5 2) ++
    [.posedge ⟨true,true,.okay⟩,.addrEdge true,.addrGet,.dataEdge,.dataGet] ++ arrive (single 1 3)

end Smtdv.Ahb.Driver
