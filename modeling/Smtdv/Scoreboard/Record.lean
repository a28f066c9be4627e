import Smtdv.Scoreboard.Beats

/-! The reports of a run determine the queues of the pools: what was put where, and
which entries have been compared. This holds in every run. -/
namespace Smtdv.Scoreboard
open Lib

variable {aw dw : Nat}

/-- The entry as it was when it was put. -/
def fresh (it : Atomic aw dw) : Atomic aw dw := {it with hasCheckOnScb := false}

@[simp] theorem fresh_checked (it : Atomic aw dw) :
    fresh {it with hasCheckOnScb := true} = fresh it := rfl

/-- The entries put for one address, in order. -/
def puts (dir : TrsType) (addr : BitVec aw) (log : List (Event aw dw)) : List (Atomic aw dw) :=
  log.filterMap fun
    | .put d a _ aitem => if d = dir ∧ a = addr then some aitem else none
    | _ => none

@[simp] theorem puts_append (dir : TrsType) (addr : BitVec aw) (first second : List (Event aw dw)) :
    puts dir addr (first++second) = puts dir addr first ++ puts dir addr second :=
  List.filterMap_append

@[simp] theorem puts_put (dir d : TrsType) (addr a : BitVec aw) (pos : Nat) (aitem : Atomic aw dw) :
    puts dir addr [.put d a pos aitem] = if d = dir ∧ a = addr then [aitem] else [] := by
  by_cases same : d = dir ∧ a = addr <;> simp [puts,same]

@[simp] theorem puts_warnings (dir : TrsType) (addr : BitVec aw) (addrs : List (BitVec aw)) :
    puts dir addr (addrs.map (.warning : BitVec aw → Event aw dw)) = [] := by
  simp [puts,List.filterMap_map]

@[simp] theorem puts_popReports (dir d : TrsType) (a : BitVec aw) (id : String) (addr : BitVec aw) (pos : Nat)
    (it aitem : Atomic aw dw) : puts dir a (popReports d id addr pos it aitem) = [] := by
  unfold popReports
  split <;> rfl

/-- Compared entries stand before the others. -/
def Ordered (queue : List (Atomic aw dw)) : Prop :=
  queue.Pairwise fun it jt => jt.hasCheckOnScb = true → it.hasCheckOnScb = true

structure Record (dir : TrsType) (pool : Pool aw dw) (log : List (Event aw dw)) : Prop where
  opened : pool.hasFinalize = false
  queue : ∀ a, (queueAt pool a).map fresh = puts dir a log
  sentAt : ∀ a p r, ((a,p),r) ∈ sent dir log ↔ ∃ it, (queueAt pool a)[p]? = some it ∧ it.parent = r
  distinct : ((sent dir log).map Prod.fst).Nodup
  checkedAt : ∀ a p, (a,p) ∈ compared dir log ↔
    ∃ it, (queueAt pool a)[p]? = some it ∧ it.hasCheckOnScb = true
  ordered : ∀ a, Ordered (queueAt pool a)

theorem initial_record (dir : TrsType) : Record dir (Hash.empty : Pool aw dw) [] where
  opened := rfl
  queue _ := rfl
  sentAt a p r := by simp [sent,queueAt]
  distinct := .nil
  checkedAt a p := by simp [compared,queueAt]
  ordered _ := .nil

theorem Record.quiet {dir : TrsType} {pool : Pool aw dw} {log : List (Event aw dw)}
    (record : Record dir pool log) (more : List (Event aw dw)) (noSent : sent dir more = [])
    (noCompared : compared dir more = []) (noPuts : ∀ a, puts dir a more = []) :
    Record dir pool (log++more) where
  opened := record.opened
  queue a := by rw [puts_append,noPuts,List.append_nil,record.queue]
  sentAt := by rw [sent_append,noSent,List.append_nil]; exact record.sentAt
  distinct := by rw [sent_append,noSent,List.append_nil]; exact record.distinct
  checkedAt := by rw [compared_append,noCompared,List.append_nil]; exact record.checkedAt
  ordered := record.ordered

theorem putAtomic_entry (dir : TrsType) (pool : Pool aw dw) (opened : pool.hasFinalize = false)
    (addr : BitVec aw) (aitem : Atomic aw dw) (a : BitVec aw) (p : Nat) (it : Atomic aw dw) :
    (queueAt (putAtomic dir pool addr aitem).1 a)[p]? = some it ↔ (queueAt pool a)[p]? = some it ∨
      (a = addr ∧ p = (queueAt pool addr).length ∧ it = aitem) := by
  rw [putAtomic_queue dir pool opened addr aitem a]
  by_cases here : a = addr
  · subst here
    rcases lt_trichotomy p (queueAt pool a).length with inside | last | outside
    · simp [List.getElem?_append_left inside,Nat.ne_of_lt inside]
    · simp [last,eq_comm]
    · have beyond : (queueAt pool a ++ [aitem])[p]? = none := by
        apply List.getElem?_eq_none
        simpa using Nat.succ_le_of_lt outside
      simp [beyond,List.getElem?_eq_none outside.le,Nat.ne_of_gt outside]
  · simp [here]

theorem update_entry (pool : Pool aw dw) (addr : BitVec aw) (pos : Nat) (a : BitVec aw) (p : Nat)
    (it : Atomic aw dw) (found : (queueAt (pool.update addr (markChecked · pos)) a)[p]? = some it) :
    ∃ jt, (queueAt pool a)[p]? = some jt ∧ fresh it = fresh jt := by
  rw [update_queue] at found
  split at found
  · rw [markChecked_get] at found
    split at found
    · obtain ⟨jt,there,rfl⟩ := Option.map_eq_some_iff.mp found
      exact ⟨jt,there,rfl⟩
    · exact ⟨it,found,rfl⟩
  · exact ⟨it,found,rfl⟩

theorem Record.put {dir : TrsType} {pool : Pool aw dw} {log : List (Event aw dw)}
    (record : Record dir pool log) (addr : BitVec aw) (aitem : Atomic aw dw)
    (unseen : aitem.hasCheckOnScb = false) :
    Record dir (putAtomic dir pool addr aitem).1 (log++(putAtomic dir pool addr aitem).2) := by
  have queues := putAtomic_queue dir pool record.opened addr aitem
  have member := putAtomic_entry dir pool record.opened addr aitem
  constructor
  · rw [putAtomic_open,record.opened]
  · intro a
    rw [queues a,putAtomic_report dir pool record.opened,puts_append,puts_put,← record.queue]
    by_cases here : a = addr
    · subst here
      simp [fresh,← unseen]
    · simp [here,Ne.symm here]
  · intro a p r
    rw [putAtomic_report dir pool record.opened,sent_append,sent_put,if_pos rfl,List.mem_append,
      record.sentAt]
    simp only [member,List.mem_singleton,Prod.mk.injEq]
    constructor
    · rintro (⟨it,found,owner⟩ | ⟨⟨rfl,rfl⟩,rfl⟩)
      · exact ⟨it,.inl found,owner⟩
      · exact ⟨aitem,.inr ⟨rfl,rfl,rfl⟩,rfl⟩
    · rintro ⟨it,found | ⟨rfl,rfl,rfl⟩,owner⟩
      · exact .inl ⟨it,found,owner⟩
      · exact .inr ⟨⟨rfl,rfl⟩,owner.symm⟩
  · rw [putAtomic_report dir pool record.opened,sent_append,sent_put,if_pos rfl,List.map_append,
      List.map_singleton]
    refine List.nodup_append.mpr ⟨record.distinct,List.nodup_singleton _,?_⟩
    intro key old key' new same
    rw [List.mem_singleton.mp new] at same
    obtain ⟨⟨found,r⟩,entry,rfl⟩ := List.mem_map.mp old
    subst same
    obtain ⟨it,place,_⟩ := (record.sentAt _ _ r).mp entry
    exact absurd (List.getElem?_eq_some_iff.mp place).1 (Nat.lt_irrefl _)
  · intro a p
    rw [putAtomic_report dir pool record.opened,compared_append,compared_put,List.append_nil,
      record.checkedAt]
    simp only [member]
    constructor
    · rintro ⟨it,found,seen⟩
      exact ⟨it,.inl found,seen⟩
    · rintro ⟨it,found | ⟨rfl,rfl,rfl⟩,seen⟩
      · exact ⟨it,found,seen⟩
      · rw [unseen] at seen
        cases seen
  · intro a
    rw [queues a]
    split
    · refine List.pairwise_append.mpr ⟨record.ordered a,List.pairwise_singleton _ _,?_⟩
      intro it _ jt new seen
      rw [List.mem_singleton.mp new,unseen] at seen
      cases seen
    · exact record.ordered a

/-- The selected entry is either compared already or the first that is not. -/
theorem selected_before (bursts : Heap (Burst aw dw)) (queue : List (Atomic aw dw)) (pos : Nat)
    (selected : nocheckScbGet bursts queue = some pos) (p : Nat) (earlier : p < pos)
    (it : Atomic aw dw) (found : queue[p]? = some it) : it.hasCheckOnScb = true := by
  obtain ⟨_,_,passed⟩ := List.findIdx?_eq_some_iff_getElem.mp selected
  obtain ⟨inside,rfl⟩ := List.getElem?_eq_some_iff.mp found
  have skipped := passed p earlier
  rw [Bool.not_eq_true,Bool.or_eq_false_iff,Bool.not_eq_false'] at skipped
  exact skipped.1

theorem ordered_markChecked (bursts : Heap (Burst aw dw)) (queue : List (Atomic aw dw))
    (ordered : Ordered queue) (pos : Nat) (selected : nocheckScbGet bursts queue = some pos) :
    Ordered (markChecked queue pos) := by
  rw [Ordered,List.pairwise_iff_getElem] at ordered ⊢
  intro i j left right before seen
  have size : (markChecked queue pos).length = queue.length := by simp [markChecked]
  have read (k : Nat) (marked : k < (markChecked queue pos).length) (inside : k < queue.length) :
      ((markChecked queue pos)[k]).hasCheckOnScb = true ↔ k = pos ∨ (queue[k]).hasCheckOnScb = true := by
    simp only [markChecked,List.getElem_modify]
    split
    · rename_i place
      simp [place]
    · rename_i elsewhere
      simp [Ne.symm elsewhere]
  rw [read _ _ (size ▸ right)] at seen
  rw [read _ _ (size ▸ left)]
  rcases seen with rfl | seen
  · exact .inr (selected_before bursts queue j selected i before _ (List.getElem?_eq_getElem _))
  · exact .inr (ordered i j _ _ before seen)

theorem Record.pop {dir : TrsType} {pool : Pool aw dw} {log : List (Event aw dw)}
    (record : Record dir pool log) (id : String) (bursts : Heap (Burst aw dw)) (addr : BitVec aw) (pos : Nat)
    (selected : nocheckScbGet bursts (queueAt pool addr) = some pos) (it aitem : Atomic aw dw)
    (found : (queueAt pool addr)[pos]? = some it) :
    Record dir (pool.update addr (markChecked · pos)) (log++popReports dir id addr pos it aitem) := by
  have queues := update_queue pool addr pos
  constructor
  · exact record.opened
  · intro a
    rw [queues a,puts_append,puts_popReports,List.append_nil,← record.queue]
    split
    · apply List.ext_getElem?
      intro p
      rw [List.getElem?_map,List.getElem?_map,markChecked_get]
      split <;> simp [Function.comp_def]
    · rfl
  · intro a p r
    rw [sent_append,sent_popReports,List.append_nil,record.sentAt,queues a]
    split
    · rw [markChecked_get]
      split <;> simp
    · rfl
  · rw [sent_append,sent_popReports,List.append_nil]
    exact record.distinct
  · intro a p
    rw [compared_append,compared_popReports,if_pos rfl,List.mem_append,List.mem_singleton,record.checkedAt,
      queues a,Prod.mk.injEq]
    by_cases here : a = addr
    · subst here
      rw [if_pos rfl,markChecked_get]
      by_cases place : p = pos
      · subst place
        simp [found]
      · simp [place]
    · simp [here]
  · intro a
    rw [queues a]
    split
    · rename_i here
      subst here
      exact ordered_markChecked bursts _ (record.ordered a) pos selected
    · exact record.ordered a

end Smtdv.Scoreboard
