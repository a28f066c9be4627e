import Mathlib.Data.List.Basic
import Smtdv.Lib.Machine
import Smtdv.Lib.TwinQueue
import Smtdv.Common.SequenceItem

/-! `smtdv_cfg_label` and the label handler: every monitored item is given to every label, which
marks the rows of its table that the item visits and calls back when all rows are visited. -/
namespace Smtdv
open Lib

variable {aw dw : Nat}

/-- An item in the queue of the handler, with the full name of the component that has put it there.
It has the item type of a label or not. -/
structure LabelItem (aw dw : Nat) extends SequenceItem aw dw where
  prio : Int := 0
  cmp : String
  isT1 : Bool := true
  deriving DecidableEq

/-- `attr_t`. -/
structure RowAttr where
  matching : Bool
  depends : List Int := []
  visit : Bool := false
  clear : Bool
  deriving DecidableEq

/-- `row_t`. -/
structure Row (aw dw : Nat) where
  attr : RowAttr
  data : BitVec dw
  addr : BitVec aw
  trs : TrsType
  deriving DecidableEq

/-- A label, with the calls of `callback` and the rows of the system table it has left behind. -/
structure CfgLabel (aw dw : Nat) where
  rows : List (Row aw dw)
  cmp : String
  desc : String := ""
  item : Option (LabelItem aw dw) := none
  hasFinalize : Bool := false
  hasReady : Bool := false
  hasPass : Bool := false
  callbacks : Nat := 0
  populated : List (String × String) := []
  deriving DecidableEq

/-- `string::compare`. -/
def compareName (name other : String) : Int := if name = other then 0 else if name < other then -1 else 1

theorem compareName_eq_zero (name other : String) : compareName name other = 0 ↔ name = other := by
  unfold compareName
  split_ifs <;> simp [*]

/-- `unpack_data` of a beat of the item. -/
def LabelItem.unpack (item : LabelItem aw dw) (k : Nat) : BitVec dw := unpackData (item.dataBeat.getD k default)

namespace CfgLabel

def visited (rows : List (Row aw dw)) (dep : Nat) : Bool := (rows[dep]?.map fun row => row.attr.visit).getD false

/-- The range that a dependency is looked for in ends past the last row. -/
def go (rows : List (Row aw dw)) (row : Row aw dw) : Bool :=
  row.attr.depends.all fun dep => if 0 ≤ dep ∧ dep ≤ rows.length then visited rows dep.toNat else true

def mark (row : Row aw dw) : Row aw dw := {row with attr := {row.attr with visit := true}}

def record (row : Row aw dw) (data : BitVec dw) : Row aw dw := {mark row with data := data}

/-- What a beat at the address of the row does to it. -/
def hit (rows : List (Row aw dw)) (item : LabelItem aw dw) (row : Row aw dw) (k : Nat) : Row aw dw :=
  if go rows row then
    if row.attr.matching then
      if item.unpack k = row.data then mark row else row
    else record row (item.unpack k)
  else row

def visitBeat (rows : List (Row aw dw)) (item : LabelItem aw dw) (row : Row aw dw) (k : Nat) : Row aw dw :=
  if item.addrs[k]? = some row.addr then hit rows item row k else row

def updateRow (rows : List (Row aw dw)) (item : LabelItem aw dw) (row : Row aw dw) : Row aw dw :=
  if row.trs ≠ item.trsT then row else (List.range item.addrs.length).foldl (visitBeat rows item) row

/-- The rows are updated in their order, each with those before it as they then are. -/
def updateRows (rows : List (Row aw dw)) (item : LabelItem aw dw) : List (Row aw dw) :=
  (List.range rows.length).foldl (fun rows i => rows.modify i (updateRow rows item)) rows

def updateItem (l : CfgLabel aw dw) (bitem : LabelItem aw dw) : CfgLabel aw dw :=
  {l with hasReady := bitem.isT1, item := if bitem.isT1 then some bitem else l.item}

/-- The comparison of the names returns 0 for equal names. -/
def preDo (l : CfgLabel aw dw) : CfgLabel aw dw :=
  match l.item with
  | none => l
  | some item => if compareName l.cmp item.cmp = 0 then l else {l with rows := updateRows l.rows item}

def midDo (l : CfgLabel aw dw) : CfgLabel aw dw := {l with hasPass := l.rows.all fun row => row.attr.visit}

def callback (l : CfgLabel aw dw) : CfgLabel aw dw := {l with callbacks := l.callbacks+1}

def populate (l : CfgLabel aw dw) : CfgLabel aw dw := {l with populated := l.populated ++ [(l.cmp,l.desc)]}

def flushRow (row : Row aw dw) : Row aw dw := if row.attr.clear then {row with attr := {row.attr with visit := false}} else row

def flush (l : CfgLabel aw dw) : CfgLabel aw dw := {l with rows := l.rows.map flushRow}

def postDo (l : CfgLabel aw dw) : CfgLabel aw dw := if l.hasPass then l.callback.populate.flush else l

def run (l : CfgLabel aw dw) : CfgLabel aw dw :=
  let l := {l with hasFinalize := true}
  if l.hasReady then l.preDo.midDo.postDo else l

end CfgLabel

/-- `smtdv_label_handler`: the queue of items, and the labels, each on or off. -/
structure LabelHandler (aw dw : Nat) where
  itemQ : List (LabelItem aw dw) := []
  labelQ : List (Bool × CfgLabel aw dw)
  deriving DecidableEq

/-- `populate_item` of a monitor, and a turn of the loop of `spawn_labels`. -/
inductive LabelAction (aw dw : Nat)
  | populateItem (item : LabelItem aw dw)
  | spawnLabels
  deriving DecidableEq

namespace LabelHandler

def give (item : LabelItem aw dw) (label : Bool × CfgLabel aw dw) : Bool × CfgLabel aw dw :=
  if label.1 then (true,(label.2.updateItem item).run) else label

def spawnLabels (s : LabelHandler aw dw) : LabelHandler aw dw :=
  match TwinQueue.sort LabelItem.prio s.itemQ with
  | [] => s
  | item::rest => {itemQ := rest, labelQ := s.labelQ.map (give item)}

def step (s : LabelHandler aw dw) : LabelAction aw dw → LabelHandler aw dw
  | .populateItem item => {s with itemQ := s.itemQ ++ [item]}
  | .spawnLabels => s.spawnLabels

end LabelHandler

namespace CfgLabel

/-- The item satisfies the row: it has the row's direction, and at a beat the row's address and
data, and the rows on which the row depends are satisfied. -/
def Takes (rows : List (Row aw dw)) (item : LabelItem aw dw) (row : Row aw dw) : Prop :=
  item.isT1 ∧ row.trs = item.trsT ∧
    (∀ dep ∈ row.attr.depends, ∀ i < rows.length, dep = i → visited rows i) ∧
    ∃ k < item.addrs.length, item.addrs[k]? = some row.addr ∧ (row.attr.matching → item.unpack k = row.data)

instance (rows : List (Row aw dw)) (item : LabelItem aw dw) (row : Row aw dw) : Decidable (Takes rows item row) :=
  inferInstanceAs (Decidable (_ ∧ _ ∧ _ ∧ _))

/-- The rows satisfied after an item of the label's own component. -/
def satisfied (rows : List (Row aw dw)) (item : LabelItem aw dw) : List Bool :=
  rows.map fun row => row.attr.visit || decide (Takes rows item row)

def Completes (rows : List (Row aw dw)) (item : LabelItem aw dw) : Prop :=
  (∃ row ∈ rows, row.attr.visit = false) ∧ ∀ visit ∈ satisfied rows item, visit = true

instance (rows : List (Row aw dw)) (item : LabelItem aw dw) : Decidable (Completes rows item) :=
  inferInstanceAs (Decidable (_ ∧ _))

/-- What an item should do to a label. -/
structure Served (l : CfgLabel aw dw) (item : LabelItem aw dw) (l' : CfgLabel aw dw) : Prop where
  other : item.cmp ≠ l.cmp → l'.rows = l.rows ∧ l'.callbacks = l.callbacks
  rows : item.cmp = l.cmp → (l'.rows.map fun row => row.attr.visit) =
    if Completes l.rows item then l.rows.map fun row => !row.attr.clear else satisfied l.rows item
  callback : item.cmp = l.cmp → l'.callbacks = l.callbacks+if Completes l.rows item then 1 else 0

/-- The rows at which an item is looked at are as it would leave them. -/
def Settled (rows : List (Row aw dw)) (item : LabelItem aw dw) (row : Row aw dw) : Prop :=
  row.trs = item.trsT → go rows row →
    if row.attr.matching then
      ∀ k < item.addrs.length, item.addrs[k]? = some row.addr → item.unpack k = row.data → row.attr.visit = true
    else
      ∀ k ∈ ((List.range item.addrs.length).filter fun k => item.addrs[k]? = some row.addr).getLast?,
        row.attr.visit = true ∧ item.unpack k = row.data

/-- Nothing is to happen at an item, and nothing does. -/
def Inert (l : CfgLabel aw dw) (item : LabelItem aw dw) : Prop :=
  item.isT1 → (∃ row ∈ l.rows, row.attr.visit = false) ∧
    if item.cmp = l.cmp then ∀ row ∈ l.rows, row.attr.visit = false → ¬Takes l.rows item row
    else ∀ row ∈ l.rows, Settled l.rows item row

theorem mark_eq_self (row : Row aw dw) : mark row = row ↔ row.attr.visit = true := by
  constructor
  · intro same
    rw [← same]
    rfl
  · intro visit
    cases row with | mk attr data addr trs =>
    cases attr with | mk matching depends visited clear =>
    subst visit
    rfl

theorem record_eq_self (row : Row aw dw) (data : BitVec dw) :
    record row data = row ↔ row.attr.visit = true ∧ data = row.data := by
  constructor
  · intro same
    refine ⟨?_,?_⟩
    · rw [← same]
      rfl
    · exact congrArg Row.data same
  · rintro ⟨visit,rfl⟩
    exact (mark_eq_self row).mpr visit

theorem foldl_matching (rows : List (Row aw dw)) (item : LabelItem aw dw) (ks : List Nat) (row : Row aw dw)
    (matching : row.attr.matching = true) :
    ks.foldl (visitBeat rows item) row =
      if go rows row ∧ ∃ k ∈ ks, item.addrs[k]? = some row.addr ∧ item.unpack k = row.data then mark row else row := by
  induction ks generalizing row with
  | nil => simp
  | cons k ks ih =>
    rw [List.foldl_cons]
    by_cases here : go rows row ∧ item.addrs[k]? = some row.addr ∧ item.unpack k = row.data
    · have visits : visitBeat rows item row k = mark row := by
        rw [visitBeat,if_pos here.2.1,hit,if_pos here.1,if_pos matching,if_pos here.2.2]
      rw [visits,ih (mark row) matching]
      conv_rhs => rw [if_pos ⟨here.1,k,List.mem_cons_self ..,here.2⟩]
      split <;> rfl
    · have stays : visitBeat rows item row k = row := by
        unfold visitBeat hit
        split_ifs with addr ready data
        · exact absurd ⟨ready,addr,data⟩ here
        · rfl
        · rfl
        · rfl
      rw [stays,ih row matching]
      congr 1
      simp only [List.mem_cons,exists_eq_or_imp,eq_iff_iff,and_congr_right_iff]
      intro ready
      exact (or_iff_right fun now => here ⟨ready,now⟩).symm

theorem foldl_record (rows : List (Row aw dw)) (item : LabelItem aw dw) (ks : List Nat) (row : Row aw dw)
    (notMatching : ¬row.attr.matching = true) :
    ks.foldl (visitBeat rows item) row =
      if go rows row then
        match (ks.filter fun k => item.addrs[k]? = some row.addr).getLast? with
        | none => row
        | some k => record row (item.unpack k)
      else row := by
  induction ks using List.reverseRecOn with
  | nil => simp
  | append_singleton ks k ih =>
    rw [List.foldl_append,ih,List.foldl_cons,List.foldl_nil,List.filter_append]
    by_cases ready : go rows row
    case neg =>
      rw [if_neg ready,if_neg ready,visitBeat,hit,if_neg ready,ite_self]
    rw [if_pos ready,if_pos ready]
    by_cases addr : item.addrs[k]? = some row.addr
    · rw [List.filter_singleton,decide_eq_true addr,cond_true,List.getLast?_append,List.getLast?_singleton,Option.some_or]
      cases last : (ks.filter fun k => item.addrs[k]? = some row.addr).getLast? with
      | none =>
        change visitBeat rows item row k = record row (item.unpack k)
        rw [visitBeat,if_pos addr,hit,if_pos ready,if_neg notMatching]
      | some before =>
        change visitBeat rows item (record row (item.unpack before)) k = record row (item.unpack k)
        rw [visitBeat,if_pos (show _ = some (record row _).addr from addr),hit,
          if_pos (show go rows (record row _) = true from ready),
          if_neg (show ¬(record row _).attr.matching = true from notMatching)]
        rfl
    · rw [List.filter_singleton,decide_eq_false addr,cond_false,List.append_nil]
      cases last : (ks.filter fun k => item.addrs[k]? = some row.addr).getLast? with
      | none => exact if_neg addr
      | some before => exact if_neg addr

theorem updateRow_eq_self_iff (rows : List (Row aw dw)) (item : LabelItem aw dw) (row : Row aw dw) :
    updateRow rows item row = row ↔ Settled rows item row := by
  unfold updateRow Settled
  by_cases trs : row.trs = item.trsT
  case neg => simp [trs]
  rw [if_neg (not_not_intro trs)]
  cases matching : row.attr.matching with
  | true =>
    rw [foldl_matching rows item _ row matching]
    constructor
    · intro same _ ready
      rw [if_pos rfl]
      intro k inside addr data
      rw [if_pos ⟨ready,k,List.mem_range.mpr inside,addr,data⟩,mark_eq_self] at same
      exact same
    · intro settled
      split
      case isTrue visits =>
        obtain ⟨ready,k,inside,addr,data⟩ := visits
        have visit := settled trs ready
        rw [if_pos rfl] at visit
        exact (mark_eq_self row).mpr (visit k (List.mem_range.mp inside) addr data)
      case isFalse => rfl
  | false =>
    rw [foldl_record rows item _ row (Bool.eq_false_iff.mp matching)]
    simp only [trs,true_implies,Bool.false_eq_true,if_false]
    by_cases ready : go rows row
    case neg => simp [ready]
    rw [if_pos ready]
    cases last : ((List.range item.addrs.length).filter fun k => item.addrs[k]? = some row.addr).getLast? with
    | none => simp
    | some k => simp [record_eq_self,ready]

theorem modify_eq_self_iff {α : Type*} (xs : List α) (n : Nat) (f : α → α) :
    xs.modify n f = xs ↔ ∀ x, xs[n]? = some x → f x = x := by
  constructor
  · intro same x here
    have after := congrArg (fun ys => ys[n]?) same
    simp only [List.getElem?_modify_eq,here] at after
    exact Option.some.inj after
  · intro fixed
    apply List.ext_getElem?
    intro j
    rw [List.getElem?_modify]
    split
    case isTrue same =>
      subst same
      cases here : xs[n]? with
      | none => rfl
      | some x => exact congrArg some (fixed x here)
    case isFalse => exact id_map _

/-- The rows from the `n`-th on are not touched before their turn. -/
theorem updateRows_later (rows : List (Row aw dw)) (item : LabelItem aw dw) {n j : Nat} (later : n ≤ j) :
    ((List.range n).foldl (fun rows i => rows.modify i (updateRow rows item)) rows)[j]? = rows[j]? := by
  induction n with
  | zero => rfl
  | succ n ih =>
    rw [List.range_succ,List.foldl_append,List.foldl_cons,List.foldl_nil,List.getElem?_modify_ne _ _ (by omega),ih (by omega)]

theorem updateRows_upTo (rows : List (Row aw dw)) (item : LabelItem aw dw) (n : Nat) :
    (List.range n).foldl (fun rows i => rows.modify i (updateRow rows item)) rows = rows ↔
      ∀ i < n, ∀ row, rows[i]? = some row → updateRow rows item row = row := by
  induction n with
  | zero => simp
  | succ n ih =>
    rw [List.range_succ,List.foldl_append,List.foldl_cons,List.foldl_nil,Nat.forall_lt_succ_right,← ih]
    constructor
    · intro same
      have before : (List.range n).foldl (fun rows i => rows.modify i (updateRow rows item)) rows = rows := by
        apply List.ext_getElem?
        intro j
        by_cases now : n = j
        · exact updateRows_later rows item now.le
        · have after := congrArg (fun rows => rows[j]?) same
          simp only [List.getElem?_modify_ne _ _ now] at after
          exact after
      rw [before,modify_eq_self_iff] at same
      exact ⟨before,same⟩
    · intro ⟨before,fixed⟩
      rw [before]
      exact (modify_eq_self_iff _ _ _).mpr fixed

theorem updateRows_eq_self_iff (rows : List (Row aw dw)) (item : LabelItem aw dw) :
    updateRows rows item = rows ↔ ∀ row ∈ rows, Settled rows item row := by
  rw [updateRows,updateRows_upTo]
  simp only [updateRow_eq_self_iff,List.mem_iff_getElem?,forall_exists_index]
  constructor
  · intro settled row i here
    exact settled i (List.getElem?_eq_some_iff.mp here).1 row here
  · intro settled i _ row here
    exact settled row i here

/-- An item of another type leaves a label as it is. -/
theorem run_otherType (l : CfgLabel aw dw) (item : LabelItem aw dw) (other : item.isT1 = false) :
    (l.updateItem item).run = {l with hasReady := false, hasFinalize := true} := by
  simp [updateItem,run,other]

theorem postDo_midDo (l : CfgLabel aw dw) :
    (l.midDo.postDo.rows,l.midDo.postDo.callbacks) =
      if l.rows.all fun row => row.attr.visit then (l.rows.map flushRow,l.callbacks+1) else (l.rows,l.callbacks) := by
  rw [postDo]
  by_cases pass : (l.rows.all fun row => row.attr.visit) = true
  · rw [if_pos pass,if_pos (show l.midDo.hasPass = true from pass)]
    rfl
  · rw [if_neg pass,if_neg (show ¬l.midDo.hasPass = true from pass)]
    rfl

/-- What is left of a label's table and of its calls by an item of its type. -/
theorem run_isT1 (l : CfgLabel aw dw) (item : LabelItem aw dw) (isT1 : item.isT1 = true) :
    let rows := if l.cmp = item.cmp then l.rows else updateRows l.rows item
    ((l.updateItem item).run.rows,(l.updateItem item).run.callbacks) =
      if rows.all fun row => row.attr.visit then (rows.map flushRow,l.callbacks+1) else (rows,l.callbacks) := by
  intro rows
  have done : (({l.updateItem item with hasFinalize := true} : CfgLabel aw dw).preDo) =
      {l with rows := rows, hasReady := true, item := some item, hasFinalize := true} := by
    simp only [updateItem,isT1,if_true,preDo,compareName_eq_zero,rows]
    split <;> rfl
  have ready : (l.updateItem item).hasReady = true := isT1
  simp only [run,ready,if_true] at done ⊢
  rw [done]
  exact postDo_midDo _

theorem satisfied_eq_iff (rows : List (Row aw dw)) (item : LabelItem aw dw) :
    satisfied rows item = rows.map (fun row => row.attr.visit) ↔
      ∀ row ∈ rows, row.attr.visit = false → ¬Takes rows item row := by
  rw [satisfied,List.map_inj_left]
  apply forall_congr'
  intro row
  apply imp_congr_right
  intro _
  cases row.attr.visit <;> simp

theorem not_all_iff (rows : List (Row aw dw)) :
    ¬(rows.all fun row => row.attr.visit) = true ↔ ∃ row ∈ rows, row.attr.visit = false := by
  simp

theorem not_completes {rows : List (Row aw dw)} {item : LabelItem aw dw} (unvisited : ∃ row ∈ rows, row.attr.visit = false)
    (none : ∀ row ∈ rows, row.attr.visit = false → ¬Takes rows item row) : ¬Completes rows item := by
  intro completes
  obtain ⟨row,inside,visit⟩ := unvisited
  have all := completes.2
  rw [(satisfied_eq_iff rows item).mpr none] at all
  have visited := all _ (List.mem_map_of_mem inside)
  rw [visit] at visited
  exact Bool.false_ne_true visited

theorem served_own (l : CfgLabel aw dw) (item : LabelItem aw dw) (l' : CfgLabel aw dw) (own : l.cmp = item.cmp)
    (isT1 : item.isT1 = true) (after : (l'.rows,l'.callbacks) =
      if l.rows.all fun row => row.attr.visit then (l.rows.map flushRow,l.callbacks+1) else (l.rows,l.callbacks)) :
    Served l item l' ↔ Inert l item := by
  by_cases pass : (l.rows.all fun row => row.attr.visit) = true
  · rw [if_pos pass] at after
    obtain ⟨-,calls⟩ := Prod.mk.inj after
    constructor
    · intro served
      have fires := served.callback own.symm
      have done : ¬Completes l.rows item := fun completes => (not_all_iff _).mpr completes.1 pass
      rw [calls,if_neg done] at fires
      omega
    · intro inert
      exact absurd pass ((not_all_iff _).mpr (inert isT1).1)
  · rw [if_neg pass] at after
    obtain ⟨rows,calls⟩ := Prod.mk.inj after
    rw [Inert,if_pos own.symm,imp_iff_right isT1,and_iff_right ((not_all_iff _).mp pass),← satisfied_eq_iff]
    constructor
    · intro served
      have fires := served.callback own.symm
      have kept := served.rows own.symm
      by_cases completes : Completes l.rows item
      · rw [calls,if_pos completes] at fires
        omega
      · rw [rows,if_neg completes] at kept
        exact kept.symm
    · intro kept
      have stays := not_completes ((not_all_iff _).mp pass) ((satisfied_eq_iff _ _).mp kept)
      refine ⟨fun other => absurd own.symm other,fun _ => ?_,fun _ => ?_⟩
      · rw [if_neg stays,rows,kept]
      · rw [if_neg stays,calls]
        rfl

theorem served_other (l : CfgLabel aw dw) (item : LabelItem aw dw) (l' : CfgLabel aw dw) (other : l.cmp ≠ item.cmp)
    (isT1 : item.isT1 = true) (after : (l'.rows,l'.callbacks) =
      if (updateRows l.rows item).all fun row => row.attr.visit then
        ((updateRows l.rows item).map flushRow,l.callbacks+1)
      else (updateRows l.rows item,l.callbacks)) :
    Served l item l' ↔ Inert l item := by
  rw [Inert,if_neg other.symm,imp_iff_right isT1,← updateRows_eq_self_iff]
  by_cases pass : ((updateRows l.rows item).all fun row => row.attr.visit) = true
  · rw [if_pos pass] at after
    obtain ⟨-,calls⟩ := Prod.mk.inj after
    constructor
    · intro served
      have none := (served.other other.symm).2
      omega
    · intro ⟨unvisited,same⟩
      rw [same] at pass
      exact absurd pass ((not_all_iff _).mpr unvisited)
  · rw [if_neg pass] at after
    obtain ⟨rows,calls⟩ := Prod.mk.inj after
    constructor
    · intro served
      have same := (served.other other.symm).1
      rw [rows] at same
      rw [same] at pass
      exact ⟨(not_all_iff _).mp pass,same⟩
    · intro ⟨_,same⟩
      refine ⟨fun _ => ⟨rows.trans same,calls⟩,fun own => absurd own other.symm,fun own => absurd own other.symm⟩

/-- A label is served right exactly by the items at which nothing is to happen. -/
theorem served_iff (l : CfgLabel aw dw) (item : LabelItem aw dw) :
    Served l item (l.updateItem item).run ↔ Inert l item := by
  cases isT1 : item.isT1 with
  | false =>
    have none : ∀ row ∈ l.rows, row.attr.visit = false → ¬Takes l.rows item row := fun _ _ _ takes => by
      rw [Takes,isT1] at takes
      exact Bool.false_ne_true takes.1
    have stays : ¬Completes l.rows item := by
      intro completes
      exact not_completes completes.1 none completes
    rw [run_otherType l item isT1]
    refine ⟨fun _ castable => absurd castable (by simp [isT1]),fun _ => ⟨fun _ => ⟨rfl,rfl⟩,fun _ => ?_,fun _ => ?_⟩⟩
    · rw [if_neg stays]
      exact ((satisfied_eq_iff l.rows item).mpr none).symm
    · rw [if_neg stays]
      rfl
  | true =>
    have after := run_isT1 l item isT1
    generalize (l.updateItem item).run = l' at after
    by_cases own : l.cmp = item.cmp
    · simp only [if_pos own] at after
      exact served_own l item l' own isT1 after
    · simp only [if_neg own] at after
      exact served_other l item l' own isT1 after

end CfgLabel

namespace LabelHandler

/-- The item that the handler takes next. -/
def next (s : LabelHandler aw dw) : Option (LabelItem aw dw) := (TwinQueue.sort LabelItem.prio s.itemQ).head?

/-- The step does to every label that is on what the item taken should do to it. -/
def Right (s : LabelHandler aw dw) (a : LabelAction aw dw) : Prop :=
  a = .spawnLabels → ∀ item ∈ s.next, ∀ (i : Nat) (l : CfgLabel aw dw), s.labelQ[i]? = some (true,l) →
    ∃ l', (s.step a).labelQ[i]? = some (true,l') ∧ CfgLabel.Served l item l'

/-- Nothing is to happen at the item taken. -/
def Idle (s : LabelHandler aw dw) (a : LabelAction aw dw) : Prop :=
  a = .spawnLabels → ∀ item ∈ s.next, ∀ l, (true,l) ∈ s.labelQ → CfgLabel.Inert l item

theorem step_labelQ (s : LabelHandler aw dw) (item : LabelItem aw dw) (taken : item ∈ s.next) :
    (s.step .spawnLabels).labelQ = s.labelQ.map (give item) := by
  rw [step,spawnLabels]
  rw [next] at taken
  generalize TwinQueue.sort LabelItem.prio s.itemQ = sorted at *
  cases sorted with
  | nil => cases taken
  | cons first rest =>
    cases taken
    rfl

theorem right_iff (s : LabelHandler aw dw) (a : LabelAction aw dw) : Right s a ↔ Idle s a := by
  unfold Right Idle
  apply imp_congr_right
  rintro rfl
  apply forall_congr'
  intro item
  apply imp_congr_right
  intro taken
  rw [step_labelQ s item taken]
  have given (i : Nat) (l : CfgLabel aw dw) (here : s.labelQ[i]? = some (true,l)) :
      (s.labelQ.map (give item))[i]? = some (true,(l.updateItem item).run) := by
    rw [List.getElem?_map,here]
    rfl
  constructor
  · intro right l inside
    obtain ⟨i,here⟩ := List.mem_iff_getElem?.mp inside
    obtain ⟨l',there,served⟩ := right i l here
    rw [given i l here] at there
    cases there
    exact (CfgLabel.served_iff l item).mp served
  · intro idle i l here
    exact ⟨_,given i l here,(CfgLabel.served_iff l item).mpr (idle l (List.mem_of_getElem? here))⟩

/-- In a run from any tables every item does to every label what it should exactly if at no item
anything was to happen to a label that is on. -/
theorem run_right_iff (s : LabelHandler aw dw) (actions : List (LabelAction aw dw)) :
    Machine.Meets step Right s actions ↔ Machine.Meets step Idle s actions :=
  Machine.meets_iff (fun _ _ (_ : True) _ => trivial) (fun s a _ => right_iff s a) trivial actions

/-- A label of one row, and an item of a component that satisfies it. -/
def oneRow : CfgLabel 8 8 where
  rows := [{attr := {matching := false, depends := [-1], clear := true}, data := 0, addr := 4, trs := .wr}]
  cmp := "mon"

def writeAt (addr : BitVec 8) (cmp : String) : LabelItem 8 8 where
  trsT := .wr
  addrs := [addr]
  dataBeat := [fun _ => 7]
  cmp := cmp

/-- An item of the label's own component does not call the label, and one of another does. -/
theorem not_right_oneRow :
    ¬Machine.Meets step Right {labelQ := [(true,oneRow)]} [.populateItem (writeAt 4 "mon"),.spawnLabels] ∧
      ¬Machine.Meets step Right {labelQ := [(true,oneRow)]} [.populateItem (writeAt 4 "other"),.spawnLabels] := by
  constructor
  · intro met
    have inert := (right_iff _ _).mp met.2.1 rfl _ rfl oneRow (List.mem_singleton_self _)
    exact (inert rfl).2 _ (List.mem_singleton_self _) rfl (by decide)
  · intro met
    have inert := (right_iff _ _).mp met.2.1 rfl _ rfl oneRow (List.mem_singleton_self _)
    exact absurd ((inert rfl).2 _ (List.mem_singleton_self _) rfl rfl 0 rfl).1 (by decide)

end LabelHandler

end Smtdv
