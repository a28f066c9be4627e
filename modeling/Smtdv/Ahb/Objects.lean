import Smtdv.Ahb.Steps

/-! The objects of a run: whatever the boxes, the forks and the threads hold came from
the sequencer or from a redrive, and is told apart by its number. -/
namespace Smtdv.Ahb

variable {aw dw : Nat}

def AddrThread.item? : AddrThread aw dw → Option (Handle aw dw)
  | .wait => none
  | .listen item _ _ => some item

theorem AddrThread.wait_or_listen (thread : AddrThread aw dw) :
    thread = .wait ∨ ∃ item phase firsts, thread = .listen item phase firsts := by
  cases thread with
  | wait => exact .inl rfl
  | listen item phase firsts => exact .inr ⟨item,phase,firsts,rfl⟩

def DataThread.item? : DataThread aw dw → Option (Handle aw dw)
  | .wait => none
  | .swap item | .listen item _ => some item

namespace Driver
open Lib

/-- The objects made so far. -/
def objects (s : Driver aw dw) : List (Handle aw dw) := s.taken ++ s.clones.map Prod.snd

def inUse (s : Driver aw dw) : List (Handle aw dw) :=
  s.addrbox ++ s.databox ++ s.forks.map Fork.item ++ s.addr.item?.toList ++ s.data.item?.toList ++
    s.addrPops ++ s.dataPops

structure Objects (s : Driver aw dw) : Prop where
  old : ∀ h ∈ s.objects, h.id < s.heap.next
  distinct : ∀ h ∈ s.objects, ∀ h' ∈ s.objects, h.id = h'.id → h = h'
  known : ∀ h ∈ s.inUse, h ∈ s.objects
  origins : ∀ pair ∈ s.clones, pair.1 ∈ s.objects

theorem initial_objects (hasBusy : Bool) : Objects (initial hasBusy : Driver aw dw) where
  old h member := by cases member
  distinct h member := by cases member
  known h member := by cases member
  origins pair member := by cases member

theorem pushed_items (forks : List (Fork aw dw)) (k : Nat) (f : Fork aw dw → Fork aw dw)
    (kept : ∀ fork, (f fork).item = fork.item) (h : Handle aw dw)
    (member : h ∈ (pushed forks k f).map Fork.item) : h ∈ forks.map Fork.item := by
  obtain ⟨fork,inside,rfl⟩ := List.mem_map.mp member
  obtain ⟨i,place⟩ := List.mem_iff_getElem?.mp (List.mem_filter.mp inside).1
  rw [List.getElem?_modify] at place
  obtain ⟨old,there,same⟩ := Option.map_eq_some_iff.mp place
  refine List.mem_map.mpr ⟨old,List.mem_of_getElem? there,?_⟩
  rw [← same]
  split
  · exact (kept old).symm
  · rfl

theorem mem_push (box : List (Handle aw dw)) (item : Handle aw dw) (front : Bool) (h : Handle aw dw) :
    h ∈ push box item front ↔ h = item ∨ h ∈ box := by
  cases front <;> simp [push,or_comm]

theorem mem_sorted (box : List (Handle aw dw)) (item : Handle aw dw) (rest : List (Handle aw dw))
    (sorted : prioSort box = item::rest) (h : Handle aw dw) : h ∈ box ↔ h = item ∨ h ∈ rest := by
  rw [← List.mem_cons,← sorted]
  exact (List.mem_insertionSort _).symm

theorem mem_inUse (s : Driver aw dw) (h : Handle aw dw) : h ∈ s.inUse ↔
    h ∈ s.addrbox ∨ h ∈ s.databox ∨ h ∈ s.forks.map Fork.item ∨ s.addr.item? = some h ∨
      s.data.item? = some h ∨ h ∈ s.addrPops ∨ h ∈ s.dataPops := by
  simp only [inUse,List.mem_append,Option.mem_toList,or_assoc]

section

variable (s : Driver aw dw) {h : Handle aw dw}

theorem inUse_addrbox (member : h ∈ s.addrbox) : h ∈ s.inUse := (mem_inUse s h).mpr (.inl member)

theorem inUse_databox (member : h ∈ s.databox) : h ∈ s.inUse := (mem_inUse s h).mpr (.inr (.inl member))

theorem inUse_fork (member : h ∈ s.forks.map Fork.item) : h ∈ s.inUse :=
  (mem_inUse s h).mpr (.inr (.inr (.inl member)))

theorem inUse_addr (item : s.addr.item? = some h) : h ∈ s.inUse :=
  (mem_inUse s h).mpr (.inr (.inr (.inr (.inl item))))

theorem inUse_data (item : s.data.item? = some h) : h ∈ s.inUse :=
  (mem_inUse s h).mpr (.inr (.inr (.inr (.inr (.inl item)))))

theorem inUse_addrPops (member : h ∈ s.addrPops) : h ∈ s.inUse :=
  (mem_inUse s h).mpr (.inr (.inr (.inr (.inr (.inr (.inl member))))))

theorem inUse_dataPops (member : h ∈ s.dataPops) : h ∈ s.inUse :=
  (mem_inUse s h).mpr (.inr (.inr (.inr (.inr (.inr (.inr member))))))

end

/-- An object is in use after a step when each place that holds it then had it from one before. -/
theorem inUse_of_places (s s' : Driver aw dw) (h : Handle aw dw) (member : h ∈ s'.inUse)
    (addrbox : h ∈ s'.addrbox → h ∈ s.inUse) (databox : h ∈ s'.databox → h ∈ s.inUse)
    (forks : h ∈ s'.forks.map Fork.item → h ∈ s.inUse) (addr : s'.addr.item? = some h → h ∈ s.inUse)
    (data : s'.data.item? = some h → h ∈ s.inUse) (addrPops : h ∈ s'.addrPops → h ∈ s.inUse)
    (dataPops : h ∈ s'.dataPops → h ∈ s.inUse) : h ∈ s.inUse := by
  rcases (mem_inUse s' h).mp member with place | place | place | place | place | place | place
  · exact addrbox place
  · exact databox place
  · exact forks place
  · exact addr place
  · exact data place
  · exact addrPops place
  · exact dataPops place

/-- A thread that waits, or goes on with its item, uses nothing new. -/
theorem inUse_threads (s s' : Driver aw dw) (h : Handle aw dw) (member : h ∈ s'.inUse)
    (kept : s'.addrbox = s.addrbox ∧ s'.databox = s.databox ∧ s'.forks.map Fork.item = s.forks.map Fork.item ∧
      s'.addrPops = s.addrPops ∧ s'.dataPops = s.dataPops)
    (addr : s'.addr.item? = some h → s.addr.item? = some h)
    (data : s'.data.item? = some h → s.data.item? = some h) : h ∈ s.inUse := by
  obtain ⟨addrbox,databox,forks,addrPops,dataPops⟩ := kept
  rw [mem_inUse,addrbox,databox,forks,addrPops,dataPops] at member
  rw [mem_inUse]
  exact member.imp_right (Or.imp_right (Or.imp_right (Or.imp addr (Or.imp_left data))))

/-- A step uses no object that was not in use before, but for the one it makes. -/
theorem step_inUse (s : Driver aw dw) (a : Action aw dw) (h : Handle aw dw) (member : h ∈ (s.step a).inUse) :
    h ∈ s.inUse ∨ (h.id = s.heap.next ∧ h ∈ (s.step a).objects) := by
  have effect := step_effect s a
  generalize s.step a = s' at effect member ⊢
  cases effect with
  | addrNext _ _ _ _ _ _ listens | addrError _ _ _ _ _ listens =>
    exact .inl (inUse_threads s _ h member ⟨rfl,rfl,rfl,rfl,rfl⟩ (fun same => by rw [listens]; exact same) id)
  | addrLast | addrSecond =>
    exact .inl (inUse_threads s _ h member ⟨rfl,rfl,rfl,rfl,rfl⟩ (fun none => by cases none) id)
  | dataOver | dataSecond | dataSkip | dataEmpty =>
    exact .inl (inUse_threads s _ h member ⟨rfl,rfl,rfl,rfl,rfl⟩ id (fun none => by cases none))
  | dataFirst _ _ _ listens | dataStart _ listens =>
    exact .inl (inUse_threads s _ h member ⟨rfl,rfl,rfl,rfl,rfl⟩ id (fun same => by rw [listens]; exact same))
  | dataDrive item _ _ listens =>
    refine .inl (inUse_threads s _ h member ⟨rfl,rfl,rfl,rfl,rfl⟩ id (fun same => ?_))
    change (if _ then DataThread.wait else _).item? = some h at same
    split at same
    · cases same
    · rw [listens]
      exact same
  | addrRedrive _ item _ _ _ listens =>
    rw [mem_inUse] at member
    simp only [List.map_append,List.mem_append,List.map_singleton,List.mem_singleton] at member
    rcases member with box | box | (forks | made) | here | there | pops | pops
    · exact .inl (inUse_addrbox s box)
    · exact .inl (inUse_databox s box)
    · exact .inl (inUse_fork s forks)
    · right
      rw [made]
      exact ⟨rfl,by simp [objects]⟩
    · exact .inl (inUse_addr s (by rw [listens]; exact here))
    · exact .inl (inUse_data s there)
    · exact .inl (inUse_addrPops s pops)
    · exact .inl (inUse_dataPops s pops)
  | driveBus req =>
    rw [mem_inUse] at member
    simp only [List.map_append,List.mem_append,List.map_singleton,List.mem_singleton] at member
    rcases member with box | box | (forks | made) | here | there | pops | pops
    · exact .inl (inUse_addrbox s box)
    · exact .inl (inUse_databox s box)
    · exact .inl (inUse_fork s forks)
    · right
      rw [made]
      exact ⟨rfl,by simp [objects]⟩
    · exact .inl (inUse_addr s here)
    · exact .inl (inUse_data s there)
    · exact .inl (inUse_addrPops s pops)
    · exact .inl (inUse_dataPops s pops)
  | pushAddr k fork there =>
    have item : fork.item ∈ s.forks.map Fork.item := List.mem_map.mpr ⟨fork,List.mem_of_getElem? there,rfl⟩
    refine .inl (inUse_of_places s _ h member ?_ (inUse_databox s) ?_ (inUse_addr s) (inUse_data s) (inUse_addrPops s)
      (inUse_dataPops s))
    · intro box
      rcases (mem_push _ _ _ _).mp box with rfl | box
      · exact inUse_fork s item
      · exact inUse_addrbox s box
    · intro forks
      refine inUse_fork s (pushed_items s.forks k _ ?_ h forks)
      exact fun _ => rfl
  | pushData k fork there =>
    have item : fork.item ∈ s.forks.map Fork.item := List.mem_map.mpr ⟨fork,List.mem_of_getElem? there,rfl⟩
    refine .inl (inUse_of_places s _ h member (inUse_addrbox s) ?_ ?_ (inUse_addr s) (inUse_data s) (inUse_addrPops s)
      (inUse_dataPops s))
    · intro box
      rcases (mem_push _ _ _ _).mp box with rfl | box
      · exact inUse_fork s item
      · exact inUse_databox s box
    · intro forks
      refine inUse_fork s (pushed_items s.forks k _ ?_ h forks)
      exact fun _ => rfl
  | addrSkip item rest waits sorted | addrTake item rest waits sorted =>
    have box := mem_sorted s.addrbox item rest sorted
    refine .inl (inUse_of_places s _ h member ?_ (inUse_databox s) (inUse_fork s) ?_ (inUse_data s) ?_ (inUse_dataPops s))
    · exact fun inside => inUse_addrbox s ((box h).mpr (.inr inside))
    · intro here
      first
      | exact inUse_addr s here
      | exact inUse_addrbox s ((box h).mpr (.inl (Option.some.inj here).symm))
    · intro pops
      rcases List.mem_append.mp pops with pops | new
      · exact inUse_addrPops s pops
      · exact inUse_addrbox s ((box h).mpr (.inl (List.mem_singleton.mp new)))
  | dataTake item rest waits sorted =>
    have box := mem_sorted s.databox item rest sorted
    refine .inl (inUse_of_places s _ h member (inUse_addrbox s) ?_ (inUse_fork s) (inUse_addr s) ?_ (inUse_addrPops s) ?_)
    · exact fun inside => inUse_databox s ((box h).mpr (.inr inside))
    · exact fun there => inUse_databox s ((box h).mpr (.inl (Option.some.inj there).symm))
    · intro pops
      rcases List.mem_append.mp pops with pops | new
      · exact inUse_dataPops s pops
      · exact inUse_databox s ((box h).mpr (.inl (List.mem_singleton.mp new)))
  | _ => exact .inl member

/-- A step makes at most one object, under the next number. -/
theorem step_made (s : Driver aw dw) (a : Action aw dw) : s.heap.next ≤ (s.step a).heap.next ∧
    ∃ made : Option (Handle aw dw), (∀ h, h ∈ (s.step a).objects ↔ h ∈ s.objects ∨ made = some h) ∧
      ∀ h, made = some h → h.id = s.heap.next ∧ s.heap.next < (s.step a).heap.next := by
  have effect := step_effect s a
  generalize s.step a = s' at effect ⊢
  cases effect with
  | addrRedrive _ item =>
    refine ⟨Nat.le_succ _,some (s.clone item),fun h => ?_,fun h made => ?_⟩
    · simp only [objects,List.map_append,List.mem_append,List.map_singleton,List.mem_singleton,
        Option.some.injEq,or_assoc,eq_comm]
    · obtain rfl := Option.some.inj made
      exact ⟨rfl,Nat.lt_succ_self _⟩
  | driveBus req =>
    refine ⟨Nat.le_succ _,some ⟨s.heap.next,req⟩,fun h => ?_,fun h made => ?_⟩
    · simp only [objects,List.mem_append,List.mem_singleton,Option.some.injEq,eq_comm,or_assoc]
      tauto
    · obtain rfl := Option.some.inj made
      exact ⟨rfl,Nat.lt_succ_self _⟩
  | _ => exact ⟨Nat.le_refl _,none,fun h => by simp [objects],fun h made => by cases made⟩

/-- The item of a new clone is the one the address thread listens on. -/
theorem step_clones (s : Driver aw dw) (a : Action aw dw) (pair : Handle aw dw × Handle aw dw)
    (member : pair ∈ (s.step a).clones) : pair ∈ s.clones ∨
      (pair.2 = s.clone pair.1 ∧ s.addr.item? = some pair.1) := by
  have effect := step_effect s a
  generalize s.step a = s' at effect member
  cases effect with
  | addrRedrive _ item _ _ _ listens =>
    rcases List.mem_append.mp member with old | new
    · exact .inl old
    · rw [List.mem_singleton.mp new,listens]
      exact .inr ⟨rfl,rfl⟩
  | _ => exact .inl member

theorem step_objects (s : Driver aw dw) (a : Action aw dw) (objects : Objects s) : Objects (s.step a) := by
  obtain ⟨grown,made,members,new⟩ := step_made s a
  have keep (h : Handle aw dw) (known : h ∈ s.objects) : h ∈ (s.step a).objects := (members h).mpr (.inl known)
  constructor
  · intro h member
    rcases (members h).mp member with known | here
    · exact (objects.old h known).trans_le grown
    · rw [(new h here).1]
      exact (new h here).2
  · intro h member h' member' same
    rcases (members h).mp member with known | here <;> rcases (members h').mp member' with known' | here'
    · exact objects.distinct h known h' known' same
    · have old := objects.old h known
      rw [same,(new h' here').1] at old
      exact absurd old (Nat.lt_irrefl _)
    · have old := objects.old h' known'
      rw [← same,(new h here).1] at old
      exact absurd old (Nat.lt_irrefl _)
    · exact Option.some.inj (here.symm.trans here')
  · intro h used
    rcases step_inUse s a h used with before | ⟨_,known⟩
    · exact keep h (objects.known h before)
    · exact known
  · intro pair member
    rcases step_clones s a pair member with old | ⟨_,listens⟩
    · exact keep _ (objects.origins pair old)
    · exact keep _ (objects.known _ (inUse_addr s listens))

theorem after_objects (hasBusy : Bool) (actions : List (Action aw dw)) : Objects (after hasBusy actions) :=
  Machine.run_induction step_objects actions (initial_objects hasBusy)

/-! ### No object is lost -/

/-- The items of the forks that have not pushed yet. -/
def toPush (left : Fork aw dw → Bool) (forks : List (Fork aw dw)) : List (Handle aw dw) :=
  (forks.filter left).map Fork.item

/-- On either side an object is still to be pushed, in the box or taken. -/
structure Conserved (s : Driver aw dw) : Prop where
  addr : (toPush Fork.toAddr s.forks ++ s.addrbox ++ s.addrPops).Perm s.objects
  data : (toPush Fork.toData s.forks ++ s.databox ++ s.dataPops).Perm s.objects
  nodup : s.objects.Nodup

theorem toPush_fork (left : Fork aw dw → Bool) (forks : List (Fork aw dw)) (fork : Fork aw dw)
    (mine : left fork = true) : toPush left (forks ++ [fork]) = toPush left forks ++ [fork.item] := by
  simp [toPush,List.filter_append,mine]

theorem pushed_filter (half : Fork aw dw → Bool)
    (remains : ∀ fork, half fork = true → (fork.toAddr || fork.toData) = true) (forks : List (Fork aw dw))
    (k : Nat) (f : Fork aw dw → Fork aw dw) : (pushed forks k f).filter half = (forks.modify k f).filter half := by
  rw [pushed,List.filter_filter]
  apply List.filter_congr
  intro other _
  cases mine : half other
  · rfl
  · rw [remains other mine]
    rfl

/-- The push on the other side changes nothing on this one. -/
theorem toPush_other (left : Fork aw dw → Bool) (forks : List (Fork aw dw)) (k : Nat)
    (f : Fork aw dw → Fork aw dw) (kept : ∀ fork, left (f fork) = left fork ∧ (f fork).item = fork.item)
    (remains : ∀ fork, left fork = true → (fork.toAddr || fork.toData) = true) :
    toPush left (pushed forks k f) = toPush left forks := by
  rw [toPush,pushed_filter left remains,toPush]
  induction forks generalizing k with
  | nil => cases k <;> rfl
  | cons fork rest ih =>
    cases k with
    | zero => by_cases mine : left fork = true <;> simp [kept,mine]
    | succ k => by_cases mine : left fork = true <;> simp [mine,ih k]

theorem toPush_here (left : Fork aw dw → Bool) (forks : List (Fork aw dw)) (k : Nat)
    (f : Fork aw dw → Fork aw dw) (fork : Fork aw dw) (there : forks[k]? = some fork) (mine : left fork = true)
    (cleared : left (f fork) = false)
    (remains : ∀ fork, left fork = true → (fork.toAddr || fork.toData) = true) :
    (toPush left forks).Perm (fork.item::toPush left (pushed forks k f)) := by
  rw [toPush,toPush,pushed_filter left remains]
  induction forks generalizing k with
  | nil => simp at there
  | cons head rest ih =>
    cases k with
    | zero =>
      obtain rfl : head = fork := by simpa using there
      simp [mine,cleared]
    | succ k =>
      have tail := ih k (by simpa using there)
      by_cases first : left head = true
      · simp only [List.modify_succ_cons,List.filter_cons_of_pos first,List.map_cons]
        exact (tail.cons _).trans (List.Perm.swap _ _ _)
      · simpa only [List.modify_succ_cons,List.filter_cons_of_neg first] using tail

theorem push_perm (box : List (Handle aw dw)) (item : Handle aw dw) (front : Bool) :
    (push box item front).Perm (item::box) := by
  cases front
  · exact List.perm_append_singleton item box
  · exact List.Perm.refl _

theorem pushed_perm (left left' box pops : List (Handle aw dw)) (item : Handle aw dw) (front : Bool)
    (moved : left.Perm (item::left')) :
    (left' ++ push box item front ++ pops).Perm (left ++ box ++ pops) := by
  apply List.Perm.append_right
  calc left' ++ push box item front
    _ |>.Perm (left' ++ item::box) := (push_perm box item front).append_left left'
    _ |>.Perm (item::(left' ++ box)) := List.perm_middle
    _ |>.Perm (left ++ box) := (moved.append_right box).symm

theorem taken_perm (left box rest pops : List (Handle aw dw)) (item : Handle aw dw)
    (sorted : prioSort box = item::rest) : (left ++ rest ++ (pops ++ [item])).Perm (left ++ box ++ pops) := by
  have front : box.Perm (item::rest) := sorted ▸ (List.perm_insertionSort _ box).symm
  have moved : (rest ++ (pops ++ [item])).Perm (box ++ pops) := by
    rw [← List.append_assoc]
    exact (List.perm_append_singleton item _).trans (front.append_right pops).symm
  simpa only [List.append_assoc] using moved.append_left left

theorem made_perm (left box pops objects : List (Handle aw dw)) (item : Handle aw dw)
    (perm : (left ++ box ++ pops).Perm objects) :
    (left ++ [item] ++ box ++ pops).Perm (objects ++ [item]) := by
  have front : (left ++ [item] ++ box ++ pops).Perm (item::(left ++ box ++ pops)) := by
    simp only [List.append_assoc,List.singleton_append]
    exact List.perm_middle
  exact front.trans ((perm.cons item).trans (List.perm_append_singleton item objects).symm)

theorem objects_new (s : Driver aw dw) (objects : Objects s) (item : Handle aw dw)
    (number : item.id = s.heap.next) : item ∉ s.objects :=
  fun member => absurd (objects.old item member) (by rw [number]; exact Nat.lt_irrefl _)

theorem nodup_made (objects : List (Handle aw dw)) (item : Handle aw dw) (nodup : objects.Nodup)
    (new : item ∉ objects) : (objects ++ [item]).Nodup :=
  (List.perm_append_singleton item objects).nodup_iff.mpr (List.nodup_cons.mpr ⟨new,nodup⟩)

theorem step_conserved (s : Driver aw dw) (a : Action aw dw) (objects : Objects s) (conserved : Conserved s) :
    Conserved (s.step a) := by
  have effect := step_effect s a
  generalize s.step a = s' at effect ⊢
  obtain ⟨addr,data,nodup⟩ := conserved
  have remainsAddr (fork : Fork aw dw) (mine : fork.toAddr = true) : (fork.toAddr || fork.toData) = true := by
    simp [mine]
  have remainsData (fork : Fork aw dw) (mine : fork.toData = true) : (fork.toAddr || fork.toData) = true := by
    simp [mine]
  cases effect with
  | addrRedrive opt item =>
    have more : s.objects ++ [s.clone item] =
        s.taken ++ (s.clones ++ [(item,s.clone item)]).map Prod.snd := by simp [Driver.objects]
    have new := objects_new s objects (s.clone item) rfl
    constructor
    · rw [Driver.objects,← more,toPush_fork Fork.toAddr _ _ rfl]
      exact made_perm _ _ _ _ _ addr
    · rw [Driver.objects,← more,toPush_fork Fork.toData _ _ rfl]
      exact made_perm _ _ _ _ _ data
    · rw [Driver.objects,← more]
      exact nodup_made _ _ nodup new
  | driveBus req =>
    let item : Handle aw dw := ⟨s.heap.next,req⟩
    have more : (s.objects ++ [item]).Perm (s.taken ++ [item] ++ s.clones.map Prod.snd) := by
      simp only [Driver.objects,List.append_assoc]
      exact (List.perm_append_comm).append_left s.taken
    have new := objects_new s objects (⟨s.heap.next,req⟩ : Handle aw dw) rfl
    constructor
    · rw [toPush_fork Fork.toAddr _ _ rfl]
      exact (made_perm _ _ _ _ _ addr).trans more
    · rw [toPush_fork Fork.toData _ _ rfl]
      exact (made_perm _ _ _ _ _ data).trans more
    · exact more.nodup_iff.mp (nodup_made _ _ nodup new)
  | pushAddr k fork there left =>
    constructor
    · exact (pushed_perm _ _ _ _ _ _ (toPush_here Fork.toAddr s.forks k _ fork there left rfl remainsAddr)).trans addr
    · have same := toPush_other Fork.toData s.forks k (fun fork => {fork with toAddr := false})
        (fun _ => ⟨rfl,rfl⟩) remainsData
      rw [same]
      exact data
    · exact nodup
  | pushData k fork there left =>
    constructor
    · have same := toPush_other Fork.toAddr s.forks k (fun fork => {fork with toData := false})
        (fun _ => ⟨rfl,rfl⟩) remainsAddr
      rw [same]
      exact addr
    · exact (pushed_perm _ _ _ _ _ _ (toPush_here Fork.toData s.forks k _ fork there left rfl remainsData)).trans data
    · exact nodup
  | addrSkip item rest waits sorted | addrTake item rest waits sorted =>
    exact ⟨(taken_perm _ _ _ _ _ sorted).trans addr,data,nodup⟩
  | dataTake item rest waits sorted =>
    exact ⟨addr,(taken_perm _ _ _ _ _ sorted).trans data,nodup⟩
  | _ => exact ⟨addr,data,nodup⟩

theorem initial_conserved (hasBusy : Bool) : Conserved (initial hasBusy : Driver aw dw) :=
  ⟨.refl _,.refl _,.nil⟩

theorem fresh_taken (left box rest pops objects : List (Handle aw dw)) (item : Handle aw dw)
    (perm : (left ++ box ++ pops).Perm objects) (nodup : objects.Nodup) (sorted : prioSort box = item::rest) :
    item ∉ pops := by
  have inside : item ∈ left ++ box :=
    List.mem_append_right left ((mem_sorted box item rest sorted item).mpr (.inl rfl))
  exact fun member => (List.nodup_append.mp (perm.nodup_iff.mpr nodup)).2.2 item inside item member rfl

/-- An item the address thread takes has not been taken before. -/
theorem Conserved.addr_fresh {s : Driver aw dw} (conserved : Conserved s) (item : Handle aw dw)
    (rest : List (Handle aw dw)) (sorted : prioSort s.addrbox = item::rest) : item ∉ s.addrPops :=
  fresh_taken _ _ _ _ _ _ conserved.addr conserved.nodup sorted

theorem Conserved.data_fresh {s : Driver aw dw} (conserved : Conserved s) (item : Handle aw dw)
    (rest : List (Handle aw dw)) (sorted : prioSort s.databox = item::rest) : item ∉ s.dataPops :=
  fresh_taken _ _ _ _ _ _ conserved.data conserved.nodup sorted

/-- With no fork left both sides have come by the same number of items. -/
theorem Conserved.counts {s : Driver aw dw} (conserved : Conserved s) (forks : s.forks = []) :
    s.addrbox.length + s.addrPops.length = s.databox.length + s.dataPops.length := by
  have addr := conserved.addr.length_eq
  have data := conserved.data.length_eq
  simp only [forks,toPush,List.filter_nil,List.map_nil,List.nil_append,List.length_append] at addr data
  omega

/-! ### Items not taken yet -/

/-- A thread works on items it has taken, and an item it has not taken is as it was made. -/
structure Fresh (s : Driver aw dw) : Prop where
  addrItem : ∀ h, s.addr.item? = some h → h ∈ s.addrPops
  dataItem : ∀ h, s.data.item? = some h → h ∈ s.dataPops
  addr : ∀ h ∈ s.objects, h ∉ s.addrPops → (s.status h).addrIdx = 0 ∧ (s.status h).addrComplete = false
  data : ∀ h ∈ s.objects, h ∉ s.dataPops → (s.status h).dataIdx = 0 ∧ (s.status h).dataComplete = false

theorem Objects.addrItem {s : Driver aw dw} (objects : Objects s) {h : Handle aw dw}
    (item : s.addr.item? = some h) : h ∈ s.objects :=
  objects.known h (inUse_addr s item)

theorem Objects.dataItem {s : Driver aw dw} (objects : Objects s) {h : Handle aw dw}
    (item : s.data.item? = some h) : h ∈ s.objects :=
  objects.known h (inUse_data s item)

/-- An update of one object leaves the others as they are. -/
theorem modify_status {s : Driver aw dw} (objects : Objects s) {item h : Handle aw dw}
    (here : item ∈ s.objects) (there : h ∈ s.objects) (f : Status → Status) :
    (s.heap.modify item.id f).get h.id = if h = item then f (s.status h) else s.status h := by
  rw [Heap.modify_get]
  by_cases same : h = item
  · rw [if_pos same,if_pos (congrArg Handle.id same)]
    rfl
  · rw [if_neg same,if_neg fun number => same (objects.distinct h there item here number)]
    rfl

theorem alloc_status {s : Driver aw dw} (objects : Objects s) {h : Handle aw dw} (there : h ∈ s.objects)
    (status : Status) : (s.heap.alloc status).get h.id = s.status h :=
  Heap.alloc_get_ne _ _ (Nat.ne_of_lt (objects.old h there))

/-- The same, when the update comes with a clone. -/
theorem redrive_status {s : Driver aw dw} (objects : Objects s) {item h : Handle aw dw}
    (here : item ∈ s.objects) (there : h ∈ s.objects) (f : Status → Status) (clone : Status) :
    ((s.heap.modify item.id f).alloc clone).get h.id = if h = item then f (s.status h) else s.status h := by
  have old : h.id ≠ (s.heap.modify item.id f).next := Nat.ne_of_lt (objects.old h there)
  rw [Heap.alloc_get_ne _ _ old,modify_status objects here there]

theorem initial_fresh (hasBusy : Bool) : Fresh (initial hasBusy : Driver aw dw) where
  addrItem h item := by cases item
  dataItem h item := by cases item
  addr h member := by cases member
  data h member := by cases member

/-- Only the data thread moves the data side of an item, and only of its own. -/
theorem data_cell (s : Driver aw dw) (a : Action aw dw) (objects : Objects s) (h : Handle aw dw)
    (there : h ∈ s.objects) (other : s.data.item? ≠ some h) :
    ((s.step a).status h).dataIdx = (s.status h).dataIdx ∧
      ((s.step a).status h).dataComplete = (s.status h).dataComplete := by
  have effect := step_effect s a
  generalize s.step a = s' at effect ⊢
  have mine (item : Handle aw dw) (works : s.data.item? = some item) : h ≠ item :=
    fun same => other (same ▸ works)
  have keep (id : Nat) (f : Status → Status)
      (kept : ∀ status, (f status).dataIdx = status.dataIdx ∧ (f status).dataComplete = status.dataComplete) :
      ((s.heap.modify id f).get h.id).dataIdx = (s.status h).dataIdx ∧
        ((s.heap.modify id f).get h.id).dataComplete = (s.status h).dataComplete :=
    ⟨Heap.modify_get_field _ _ _ f Status.dataIdx fun status => (kept status).1,
      Heap.modify_get_field _ _ _ f Status.dataComplete fun status => (kept status).2⟩
  cases effect with
  | addrLast | addrNext | addrSecond | addrError =>
    dsimp only [status]
    refine keep _ _ ?_
    exact fun _ => ⟨rfl,rfl⟩
  | addrRedrive opt item =>
    have old : h.id ≠ (s.heap.modify item.id (flagged s.sig.hresp)).next := Nat.ne_of_lt (objects.old h there)
    dsimp only [status]
    rw [Heap.alloc_get_ne _ _ old]
    exact keep _ _ fun status => by cases s.sig.hresp <;> exact ⟨rfl,rfl⟩
  | driveBus req =>
    dsimp only [status]
    rw [alloc_status objects there]
    exact ⟨rfl,rfl⟩
  | dataOver item firsts armed listens | dataDrive item firsts armed listens
  | dataSecond item firsts armed listens =>
    have works : s.data.item? = some item := by rw [listens]; rfl
    dsimp only [status]
    rw [modify_status objects (objects.dataItem works) there,if_neg (mine item works)]
    exact ⟨rfl,rfl⟩
  | dataEmpty item swaps =>
    have works : s.data.item? = some item := by rw [swaps]; rfl
    dsimp only [status]
    rw [modify_status objects (objects.dataItem works) there,if_neg (mine item works)]
    exact ⟨rfl,rfl⟩
  | _ => exact ⟨rfl,rfl⟩

/-- Only the address thread moves the address side of an item, and only of its own. -/
theorem addr_cell (s : Driver aw dw) (a : Action aw dw) (objects : Objects s) (h : Handle aw dw)
    (there : h ∈ s.objects) (other : s.addr.item? ≠ some h) :
    ((s.step a).status h).addrIdx = (s.status h).addrIdx ∧
      ((s.step a).status h).addrComplete = (s.status h).addrComplete ∧
      ((s.step a).status h).retry = (s.status h).retry ∧ ((s.step a).status h).split = (s.status h).split ∧
      ((s.step a).status h).error = (s.status h).error := by
  have effect := step_effect s a
  generalize s.step a = s' at effect ⊢
  have mine (item : Handle aw dw) (phase : OkayPhase) (firsts : List TrxRsp)
      (listens : s.addr = .listen item phase firsts) (f : Status → Status) :
      (s.heap.modify item.id f).get h.id = s.status h := by
    have works : s.addr.item? = some item := by rw [listens]; rfl
    have distinct : h ≠ item := fun same => other (same ▸ works)
    rw [modify_status objects (objects.addrItem works) there,if_neg distinct]
  cases effect with
  | addrLast opt item phase firsts armed listens | addrNext opt item phase firsts busy armed listens
  | addrSecond opt item phase firsts armed listens | addrError opt item phase firsts armed listens =>
    dsimp only [status]
    rw [mine item phase firsts listens]
    exact ⟨rfl,rfl,rfl,rfl,rfl⟩
  | addrRedrive opt item phase firsts armed listens =>
    have old : h.id ≠ (s.heap.modify item.id (flagged s.sig.hresp)).next := Nat.ne_of_lt (objects.old h there)
    dsimp only [status]
    rw [Heap.alloc_get_ne _ _ old,mine item phase firsts listens]
    exact ⟨rfl,rfl,rfl,rfl,rfl⟩
  | driveBus req =>
    dsimp only [status]
    rw [alloc_status objects there]
    exact ⟨rfl,rfl,rfl,rfl,rfl⟩
  | dataOver item | dataDrive item | dataSecond item | dataEmpty item =>
    have keep {β : Type} (field : Status → β) (f : Status → Status)
        (kept : ∀ status, field (f status) = field status) :
        field ((s.heap.modify item.id f).get h.id) = field (s.status h) :=
      Heap.modify_get_field _ _ _ f field kept
    dsimp only [status]
    refine ⟨keep Status.addrIdx _ ?_,keep Status.addrComplete _ ?_,keep Status.retry _ ?_,
      keep Status.split _ ?_,keep Status.error _ ?_⟩ <;> exact fun _ => rfl
  | _ => exact ⟨rfl,rfl,rfl,rfl,rfl⟩

theorem made_cell (s : Driver aw dw) (a : Action aw dw) (h : Handle aw dw) (new : h ∉ s.objects)
    (there : h ∈ (s.step a).objects) :
    ((s.step a).status h).addrIdx = 0 ∧ ((s.step a).status h).addrComplete = false ∧
      ((s.step a).status h).dataIdx = 0 ∧ ((s.step a).status h).dataComplete = false := by
  have effect := step_effect s a
  generalize s.step a = s' at effect there ⊢
  cases effect with
  | addrRedrive opt item =>
    have made : h = s.clone item := by
      have either := there
      simp only [Driver.objects,List.map_append,List.map_singleton,← List.append_assoc,List.mem_append,
        List.mem_singleton] at either
      rcases either with old | made
      · exact absurd (List.mem_append.mpr old) new
      · exact made
    have number : h.id = (s.heap.modify item.id (flagged s.sig.hresp)).next := by rw [made]; rfl
    dsimp only [status]
    rw [number,Heap.alloc_get_next]
    exact ⟨rfl,rfl,rfl,rfl⟩
  | driveBus req =>
    have made : h = ⟨s.heap.next,req⟩ := by
      simp only [Driver.objects,List.mem_append,List.mem_singleton] at there new
      rcases there with (old | made) | old
      · exact absurd (.inl old) new
      · exact made
      · exact absurd (.inr old) new
    rw [made]
    dsimp only [status]
    rw [Heap.alloc_get_next]
    exact ⟨rfl,rfl,rfl,rfl⟩
  | _ => exact absurd there new

theorem step_takes (s : Driver aw dw) (a : Action aw dw) :
    (∀ h, (s.step a).addr.item? = some h → s.addr.item? = some h ∨ h ∈ (s.step a).addrPops) ∧
    (∀ h, (s.step a).data.item? = some h → s.data.item? = some h ∨ h ∈ (s.step a).dataPops) ∧
    s.addrPops <+: (s.step a).addrPops ∧ s.dataPops <+: (s.step a).dataPops := by
  have effect := step_effect s a
  generalize s.step a = s' at effect ⊢
  have same (l : List (Handle aw dw)) : l <+: l := List.prefix_refl l
  cases effect with
  | addrNext _ _ _ _ _ _ listens | addrError _ _ _ _ _ listens | addrRedrive _ _ _ _ _ listens =>
    rw [listens]
    exact ⟨fun _ item => .inl item,fun _ item => .inl item,same _,same _⟩
  | addrLast | addrSecond =>
    refine ⟨fun h none => ?_,fun _ item => .inl item,same _,same _⟩
    cases none
  | dataOver | dataSecond | dataSkip | dataEmpty =>
    refine ⟨fun _ item => .inl item,fun h none => ?_,same _,same _⟩
    cases none
  | dataFirst _ _ _ listens | dataStart _ listens =>
    rw [listens]
    exact ⟨fun _ item => .inl item,fun _ item => .inl item,same _,same _⟩
  | dataDrive item _ _ listens =>
    rw [listens]
    refine ⟨fun _ item => .inl item,fun h works => ?_,same _,same _⟩
    change (if _ then DataThread.wait else _).item? = some h at works
    split at works
    · cases works
    · exact .inl works
  | addrSkip => exact ⟨fun _ item => .inl item,fun _ item => .inl item,List.prefix_append _ _,same _⟩
  | addrTake =>
    refine ⟨fun h works => .inr ?_,fun _ item => .inl item,List.prefix_append _ _,same _⟩
    obtain rfl := Option.some.inj works
    exact List.mem_append_right _ (List.mem_singleton.mpr rfl)
  | dataTake =>
    refine ⟨fun _ item => .inl item,fun h works => .inr ?_,same _,List.prefix_append _ _⟩
    obtain rfl := Option.some.inj works
    exact List.mem_append_right _ (List.mem_singleton.mpr rfl)
  | _ => exact ⟨fun _ item => .inl item,fun _ item => .inl item,same _,same _⟩

theorem step_fresh (s : Driver aw dw) (a : Action aw dw) (objects : Objects s) (fresh : Fresh s) :
    Fresh (s.step a) := by
  obtain ⟨addrTakes,dataTakes,addrPops,dataPops⟩ := step_takes s a
  constructor
  · intro h works
    exact (addrTakes h works).elim (fun before => addrPops.subset (fresh.addrItem h before)) id
  · intro h works
    exact (dataTakes h works).elim (fun before => dataPops.subset (fresh.dataItem h before)) id
  · intro h there untaken
    by_cases old : h ∈ s.objects
    · have before : h ∉ s.addrPops := fun taken => untaken (addrPops.subset taken)
      have kept := addr_cell s a objects h old fun works => before (fresh.addrItem h works)
      rw [kept.1,kept.2.1]
      exact fresh.addr h old before
    · have made := made_cell s a h old there
      exact ⟨made.1,made.2.1⟩
  · intro h there untaken
    by_cases old : h ∈ s.objects
    · have before : h ∉ s.dataPops := fun taken => untaken (dataPops.subset taken)
      have kept := data_cell s a objects h old fun works => before (fresh.dataItem h works)
      rw [kept.1,kept.2]
      exact fresh.data h old before
    · have made := made_cell s a h old there
      exact ⟨made.2.2.1,made.2.2.2⟩

/-- What every run keeps about its objects. -/
structure Sound (s : Driver aw dw) : Prop where
  objects : Objects s
  conserved : Conserved s
  fresh : Fresh s

/-- The next item of the address thread is as it was made. -/
theorem Sound.untaken_addr {s : Driver aw dw} (sound : Sound s) (item : Handle aw dw)
    (rest : List (Handle aw dw)) (sorted : prioSort s.addrbox = item::rest) :
    (s.status item).addrIdx = 0 ∧ (s.status item).addrComplete = false := by
  have inside : item ∈ s.addrbox := (mem_sorted s.addrbox item rest sorted item).mpr (.inl rfl)
  exact sound.fresh.addr item (sound.objects.known item (inUse_addrbox s inside))
    (sound.conserved.addr_fresh item rest sorted)

theorem Sound.untaken_data {s : Driver aw dw} (sound : Sound s) (item : Handle aw dw)
    (rest : List (Handle aw dw)) (sorted : prioSort s.databox = item::rest) :
    (s.status item).dataIdx = 0 ∧ (s.status item).dataComplete = false := by
  have inside : item ∈ s.databox := (mem_sorted s.databox item rest sorted item).mpr (.inl rfl)
  exact sound.fresh.data item (sound.objects.known item (inUse_databox s inside))
    (sound.conserved.data_fresh item rest sorted)

theorem initial_sound (hasBusy : Bool) : Sound (initial hasBusy : Driver aw dw) :=
  ⟨initial_objects hasBusy,initial_conserved hasBusy,initial_fresh hasBusy⟩

theorem step_sound (s : Driver aw dw) (a : Action aw dw) (sound : Sound s) : Sound (s.step a) :=
  ⟨step_objects s a sound.objects,step_conserved s a sound.objects sound.conserved,
    step_fresh s a sound.objects sound.fresh⟩

end Driver

end Smtdv.Ahb
