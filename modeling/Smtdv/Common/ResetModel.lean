import Mathlib.Data.List.Nodup
import Mathlib.Logic.Relation
import Smtdv.Lib.Erase

/-! `smtdv_reset_comp_group`: the groups of components that are reset together. -/
namespace Smtdv
open Lib

/-- The children of each component. No component is below itself. -/
structure CompTree (α : Type*) where
  children : α → List α
  height : α → Nat
  below : ∀ comp, ∀ child ∈ children comp, height child < height comp

/-- `rst_type_t`. -/
inductive RstType
  | notValid | hwRst | swRst | allRst | pwrRst
  deriving DecidableEq

structure RstCompGroup (α : Type*) where
  rootCompQ : List α := []
  rootCompExQ : List α := []
  compsQ : List α := []

/-- The static tables. A group is registered under its name, and the reset types have the groups that are
registered; a component is registered with the name of its group. -/
structure RstTables (α : Type*) where
  grpRegistered : String → Option (RstCompGroup α) := fun _ => none
  hwRstAa : String → Bool := fun _ => false
  swRstAa : String → Bool := fun _ => false
  compRegistered : α → Option String := fun _ => none

inductive RstFatal (α : Type*)
  | notRegistered
  | hwExists (name : String)
  | swExists (name : String)
  | unsupported (typ : RstType)
  | compReference (comp : α) (size : Nat)
  | assigned (comp : α) (name : String)

inductive RstCall (α : Type*)
  | addComp (name : String) (comp : α)
  | addExceptComp (name : String) (comp : α)
  | setResetType (name : String) (typ : RstType)

variable {α : Type*}

namespace CompTree

def resolveCompsRecur (t : CompTree α) (root : α) : List α :=
  (t.children root).attach.flatMap fun child => child.1::t.resolveCompsRecur child.1
termination_by t.height root
decreasing_by exact t.below root child.1 child.2

/-- A component with those below it. -/
def withDescendants (t : CompTree α) (root : α) : List α := root::t.resolveCompsRecur root

/-- A component is another one or below it. -/
def Within (t : CompTree α) (root comp : α) : Prop :=
  Relation.ReflTransGen (fun parent child => child ∈ t.children parent) root comp

theorem mem_withDescendants (t : CompTree α) (root comp : α) : comp ∈ t.withDescendants root ↔ t.Within root comp := by
  induction root using resolveCompsRecur.induct t with
  | case1 root ih =>
    rw [withDescendants,resolveCompsRecur,List.mem_cons,List.mem_flatMap,Within,Relation.ReflTransGen.cases_head_iff]
    refine or_congr eq_comm ?_
    constructor
    · rintro ⟨child,-,inside⟩
      exact ⟨child.1,child.2,(ih child).mp inside⟩
    · rintro ⟨child,edge,path⟩
      exact ⟨⟨child,edge⟩,List.mem_attach _ _,(ih ⟨child,edge⟩).mpr path⟩

theorem mem_flatMap_withDescendants (t : CompTree α) (comps : List α) (comp : α) :
    comp ∈ comps.flatMap t.withDescendants ↔ ∃ root ∈ comps, t.Within root comp := by
  simp only [List.mem_flatMap,mem_withDescendants]

end CompTree

namespace RstTables

/-- The group of a name, or the one that is made when there is none. -/
def group (m : RstTables α) (name : String) : RstCompGroup α := (m.grpRegistered name).getD {}

def setGroup (m : RstTables α) (name : String) (grp : RstCompGroup α) : RstTables α :=
  {m with grpRegistered := Function.update m.grpRegistered name (some grp)}

theorem setGroup_group (m : RstTables α) (name other : String) (grp : RstCompGroup α) :
    (m.setGroup name grp).group other = if other = name then grp else m.group other := by
  change (Function.update m.grpRegistered name (some grp) other).getD {} = _
  rw [Function.update_apply]
  split <;> rfl

def addComp (m : RstTables α) (name : String) (comp : α) : RstTables α :=
  m.setGroup name {m.group name with rootCompQ := (m.group name).rootCompQ ++ [comp]}

def addExceptComp (m : RstTables α) (name : String) (comp : α) : RstTables α :=
  m.setGroup name {m.group name with rootCompExQ := (m.group name).rootCompExQ ++ [comp]}

section

variable [DecidableEq α]

/-- A component is taken out of a list in which it is found once. -/
def deleteComp (comps : List α) (comp : α) : Except (RstFatal α) (List α) :=
  match positionsOf (· = comp) comps with
  | [idx] => .ok (comps.eraseIdx idx)
  | idxs => .error (.compReference comp idxs.length)

def resolveComps (t : CompTree α) (grp : RstCompGroup α) : Except (RstFatal α) (RstCompGroup α) := do
  let comps := grp.compsQ ++ grp.rootCompQ.flatMap t.withDescendants
  let compsEx := grp.rootCompExQ.flatMap t.withDescendants
  let comps ← compsEx.foldlM deleteComp comps
  return {grp with compsQ := comps}

def registerComp (name : String) (registered : α → Option String) (comp : α) :
    Except (RstFatal α) (α → Option String) :=
  match registered comp with
  | some other => .error (.assigned comp other)
  | none => .ok (Function.update registered comp (some name))

def setRstDomain (m : RstTables α) (name : String) (grp : RstCompGroup α) : Except (RstFatal α) (RstTables α) := do
  let registered ← grp.compsQ.foldlM (registerComp name) m.compRegistered
  return {m.setGroup name grp with compRegistered := registered}

/-- The tables of the reset types. -/
def setType (m : RstTables α) (name : String) : RstType → Except (RstFatal α) (RstTables α)
  | .hwRst =>
    if m.hwRstAa name then .error (.hwExists name)
    else .ok {m with hwRstAa := Function.update m.hwRstAa name true}
  | .swRst =>
    if m.swRstAa name then .error (.swExists name)
    else .ok {m with swRstAa := Function.update m.swRstAa name true}
  | .allRst =>
    if m.hwRstAa name then .error (.hwExists name)
    else if m.swRstAa name then .error (.swExists name)
    else .ok {m with
      hwRstAa := Function.update m.hwRstAa name true, swRstAa := Function.update m.swRstAa name true}
  | typ => .error (.unsupported typ)

def setResetType (t : CompTree α) (m : RstTables α) (name : String) (typ : RstType) :
    Except (RstFatal α) (RstTables α) :=
  match m.grpRegistered name with
  | none => .error .notRegistered
  | some grp => do
    let m ← m.setType name typ
    let grp ← resolveComps t grp
    m.setRstDomain name grp

def step (t : CompTree α) (m : RstTables α) : RstCall α → Except (RstFatal α) (RstTables α)
  | .addComp name comp => .ok (m.addComp name comp)
  | .addExceptComp name comp => .ok (m.addExceptComp name comp)
  | .setResetType name typ => m.setResetType t name typ

/-- The tables after a run that does not end in a fatal report. -/
def after (t : CompTree α) (calls : List (RstCall α)) : Except (RstFatal α) (RstTables α) := calls.foldlM (step t) {}

end

/-- The components given to `add_comp` for a group. -/
def roots (name : String) (calls : List (RstCall α)) : List α :=
  calls.filterMap fun
    | .addComp other comp => if other = name then some comp else none
    | _ => none

/-- The components given to `add_except_comp`. -/
def excepted (name : String) (calls : List (RstCall α)) : List α :=
  calls.filterMap fun
    | .addExceptComp other comp => if other = name then some comp else none
    | _ => none

/-- A group has the root components and those below them, without the excepted ones and those below these. -/
structure Exact (t : CompTree α) (calls : List (RstCall α)) (name : String) (grp : RstCompGroup α) : Prop where
  once : grp.compsQ.Nodup
  comps : ∀ comp, comp ∈ grp.compsQ ↔ (∃ root ∈ roots name calls, t.Within root comp) ∧
    ¬∃ root ∈ excepted name calls, t.Within root comp

/-- The components registered with a group are those in its list, and no other group has them. -/
structure Apart (m : RstTables α) : Prop where
  listed : ∀ comp name, m.compRegistered comp = some name ↔ comp ∈ (m.group name).compsQ
  single : ∀ name name' comp, comp ∈ (m.group name).compsQ → comp ∈ (m.group name').compsQ → name = name'

/-- The root components of a group are those of the calls, its list holds components within them, and the
components registered with it are those of its list. -/
structure Inv (t : CompTree α) (calls : List (RstCall α)) (m : RstTables α) : Prop where
  rootCompQ : ∀ name, (m.group name).rootCompQ = roots name calls
  rootCompExQ : ∀ name, (m.group name).rootCompExQ = excepted name calls
  within : ∀ name, ∀ comp ∈ (m.group name).compsQ, ∃ root ∈ roots name calls, t.Within root comp
  listed : ∀ comp name, m.compRegistered comp = some name ↔ comp ∈ (m.group name).compsQ

variable {t : CompTree α} {calls : List (RstCall α)} {m : RstTables α}

theorem initial_inv (t : CompTree α) : Inv t [] ({} : RstTables α) :=
  ⟨fun _ => rfl,fun _ => rfl,fun _ _ => nofun,fun _ _ => ⟨nofun,nofun⟩⟩

theorem Inv.apart (inv : Inv t calls m) : Apart m := by
  refine ⟨inv.listed,fun name name' comp inside inside' => ?_⟩
  have first := (inv.listed comp name).mpr inside
  have second := (inv.listed comp name').mpr inside'
  exact Option.some.inj (first.symm.trans second)

theorem roots_concat (name : String) (calls : List (RstCall α)) (call : RstCall α) :
    roots name (calls ++ [call]) = roots name calls ++ roots name [call] := List.filterMap_append

theorem excepted_concat (name : String) (calls : List (RstCall α)) (call : RstCall α) :
    excepted name (calls ++ [call]) = excepted name calls ++ excepted name [call] := List.filterMap_append

/-- A call that sets a group, with the list it had, to the root components of the calls. -/
theorem Inv.setGroup (inv : Inv t calls m) {name : String} {call : RstCall α} {grp : RstCompGroup α}
    (rootCompQ : ∀ other, (if other = name then grp else m.group other).rootCompQ = roots other (calls ++ [call]))
    (rootCompExQ : ∀ other, (if other = name then grp else m.group other).rootCompExQ = excepted other (calls ++ [call]))
    (compsQ : grp.compsQ = (m.group name).compsQ) : Inv t (calls ++ [call]) (m.setGroup name grp) := by
  have same (other : String) : ((m.setGroup name grp).group other).compsQ = (m.group other).compsQ := by
    rw [setGroup_group]
    split
    case isTrue here => rw [compsQ,here]
    case isFalse => rfl
  refine ⟨fun other => ?_,fun other => ?_,fun other comp inside => ?_,fun comp other => ?_⟩
  · rw [setGroup_group,rootCompQ]
  · rw [setGroup_group,rootCompExQ]
  · rw [same] at inside
    obtain ⟨root,given,path⟩ := inv.within other comp inside
    rw [roots_concat]
    exact ⟨root,List.mem_append_left _ given,path⟩
  · rw [same]
    exact inv.listed comp other

theorem Inv.addComp (inv : Inv t calls m) (name : String) (comp : α) :
    Inv t (calls ++ [.addComp name comp]) (m.addComp name comp) := by
  refine inv.setGroup (fun other => ?_) (fun other => ?_) rfl
  · rw [roots_concat,← inv.rootCompQ]
    by_cases here : other = name
    · subst here
      simp [roots]
    · simp [roots,here,Ne.symm here]
  · rw [excepted_concat,← inv.rootCompExQ]
    by_cases here : other = name
    · subst here
      simp [excepted]
    · simp [excepted,here]

theorem Inv.addExceptComp (inv : Inv t calls m) (name : String) (comp : α) :
    Inv t (calls ++ [.addExceptComp name comp]) (m.addExceptComp name comp) := by
  refine inv.setGroup (fun other => ?_) (fun other => ?_) rfl
  · rw [roots_concat,← inv.rootCompQ]
    by_cases here : other = name
    · subst here
      simp [roots]
    · simp [roots,here]
  · rw [excepted_concat,← inv.rootCompExQ]
    by_cases here : other = name
    · subst here
      simp [excepted]
    · simp [excepted,here,Ne.symm here]

theorem bind_ok.{v} {ε : Type*} {β γ : Type v} {first : Except ε β} {next : β → Except ε γ} {result : γ}
    (ok : first >>= next = .ok result) : ∃ value, first = .ok value ∧ next value = .ok result := by
  cases first with
  | error fatal => cases ok
  | ok value => exact ⟨value,rfl,ok⟩

theorem setType_ok {name : String} {typ : RstType} {next : RstTables α} (ok : m.setType name typ = .ok next) :
    next.grpRegistered = m.grpRegistered ∧ next.compRegistered = m.compRegistered := by
  unfold setType at ok
  split at ok
  case h_4 => cases ok
  all_goals
    split_ifs at ok
    cases ok
    exact ⟨rfl,rfl⟩

section

variable [DecidableEq α]

theorem deleteComp_ok {comps left : List α} {comp : α} (ok : deleteComp comps comp = .ok left) :
    comps.count comp = 1 ∧ left = comps.filter (· ≠ comp) := by
  unfold deleteComp at ok
  split at ok
  case h_1 idx alone =>
    have single : comps.countP (· = comp) = 1 := by rw [← positionsOf_length,alone,List.length_singleton]
    have others := (eraseIdxs_exact_iff (· = comp) comps).mpr (Nat.le_of_eq single)
    rw [alone] at others
    refine ⟨single,(Except.ok.inj ok).symm.trans (others.trans ?_)⟩
    exact List.filter_congr fun x _ => (decide_not).symm
  case h_2 => cases ok

theorem deleteComps_ok {compsEx comps left : List α} (ok : compsEx.foldlM deleteComp comps = .ok left) :
    (∀ comp ∈ compsEx, comps.count comp = 1) ∧ left = comps.filter (· ∉ compsEx) := by
  induction compsEx generalizing comps with
  | nil =>
    cases ok
    exact ⟨fun comp inside => absurd inside List.not_mem_nil,by simp⟩
  | cons comp rest ih =>
    rw [List.foldlM_cons] at ok
    obtain ⟨next,deleted,ok⟩ := bind_ok ok
    obtain ⟨single,rfl⟩ := deleteComp_ok deleted
    obtain ⟨later,rfl⟩ := ih ok
    refine ⟨fun other inside => ?_,?_⟩
    · rcases List.mem_cons.mp inside with rfl | inside
      · exact single
      · have once := later other inside
        have apart : other ≠ comp := by
          rintro rfl
          rw [List.count_eq_zero.mpr (by simp)] at once
          contradiction
        rwa [List.count_filter (by simpa using apart)] at once
    · rw [List.filter_filter]
      refine List.filter_congr fun x _ => ?_
      rw [← Bool.decide_and,decide_eq_decide,List.mem_cons,not_or]
      exact and_comm

theorem registerComps_ok {name : String} {comps : List α} {registered result : α → Option String}
    (ok : comps.foldlM (registerComp name) registered = .ok result) :
    comps.Nodup ∧ (∀ comp ∈ comps, registered comp = none) ∧
      ∀ comp, result comp = if comp ∈ comps then some name else registered comp := by
  induction comps generalizing registered with
  | nil =>
    cases ok
    exact ⟨List.nodup_nil,fun comp inside => absurd inside List.not_mem_nil,fun comp => by simp⟩
  | cons comp rest ih =>
    rw [List.foldlM_cons] at ok
    obtain ⟨next,entered,ok⟩ := bind_ok ok
    unfold registerComp at entered
    cases free : registered comp with
    | some other => rw [free] at entered; cases entered
    | none =>
      rw [free] at entered
      cases entered
      obtain ⟨distinct,unused,all⟩ := ih ok
      have outside : comp ∉ rest := by
        intro inside
        have taken := unused comp inside
        rw [Function.update_self] at taken
        contradiction
      refine ⟨List.nodup_cons.mpr ⟨outside,distinct⟩,fun other inside => ?_,fun other => ?_⟩
      · rcases List.mem_cons.mp inside with rfl | inside
        · exact free
        · rw [← unused other inside,Function.update_of_ne]
          exact fun same => outside (same ▸ inside)
      · rw [all other]
        by_cases same : other = comp
        · subst same
          rw [if_neg outside,Function.update_self,if_pos List.mem_cons_self]
        · rw [Function.update_of_ne same]
          simp [same]

/-- The resolved list, when each of the excepted components has been found once. -/
theorem resolveComps_ok {grp resolved : RstCompGroup α} (ok : resolveComps t grp = .ok resolved) :
    resolved.rootCompQ = grp.rootCompQ ∧ resolved.rootCompExQ = grp.rootCompExQ ∧
      (∀ comp ∈ grp.rootCompExQ.flatMap t.withDescendants,
        (grp.compsQ ++ grp.rootCompQ.flatMap t.withDescendants).count comp = 1) ∧
      resolved.compsQ = (grp.compsQ ++ grp.rootCompQ.flatMap t.withDescendants).filter
        (· ∉ grp.rootCompExQ.flatMap t.withDescendants) := by
  obtain ⟨left,deleted,ok⟩ := bind_ok ok
  cases ok
  obtain ⟨once,rest⟩ := deleteComps_ok deleted
  exact ⟨rfl,rfl,once,rest⟩

/-- What setting the type of a group does when it does not end in a fatal report. -/
structure Resets (t : CompTree α) (m : RstTables α) (name : String) (resolved : RstCompGroup α) (next : RstTables α) : Prop where
  resolves : resolveComps t (m.group name) = .ok resolved
  distinct : resolved.compsQ.Nodup
  free : ∀ comp ∈ resolved.compsQ, m.compRegistered comp = none
  groups : ∀ other, next.group other = if other = name then resolved else m.group other
  registered : ∀ comp, next.compRegistered comp = if comp ∈ resolved.compsQ then some name else m.compRegistered comp

theorem setResetType_resets {name : String} {typ : RstType} {next : RstTables α}
    (ok : m.setResetType t name typ = .ok next) : ∃ resolved, Resets t m name resolved next := by
  unfold RstTables.setResetType at ok
  cases here : m.grpRegistered name with
  | none => rw [here] at ok; cases ok
  | some grp =>
    rw [here] at ok
    obtain ⟨typed,types,ok⟩ := bind_ok ok
    obtain ⟨resolved,resolves,ok⟩ := bind_ok ok
    obtain ⟨registered,registers,ok⟩ := bind_ok ok
    obtain ⟨tables,before⟩ := setType_ok types
    obtain ⟨distinct,free,all⟩ := registerComps_ok registers
    rw [before] at free all
    have own : m.group name = grp := by rw [group,here]; rfl
    cases ok
    refine ⟨resolved,by rwa [own],distinct,free,fun other => ?_,all⟩
    change (typed.setGroup name resolved).group other = _
    rw [setGroup_group,group,group,tables]

variable {name : String} {typ : RstType} {resolved : RstCompGroup α} {next : RstTables α}

/-- The list that the group had is empty: a component of it would be found twice, so it is not excepted, and it
is registered. -/
theorem Inv.empty (inv : Inv t calls m) (resets : Resets t m name resolved next) : (m.group name).compsQ = [] := by
  obtain ⟨-,-,once,list⟩ := resolveComps_ok resets.resolves
  refine List.eq_nil_iff_forall_not_mem.mpr fun comp inside => ?_
  have again : comp ∈ (m.group name).rootCompQ.flatMap t.withDescendants := by
    rw [t.mem_flatMap_withDescendants,inv.rootCompQ]
    exact inv.within name comp inside
  have kept : comp ∈ resolved.compsQ := by
    rw [list,List.mem_filter,decide_eq_true_eq]
    refine ⟨List.mem_append_right _ again,fun except => ?_⟩
    have single := once comp except
    rw [List.count_append] at single
    have first := List.count_pos_iff.mpr inside
    have second := List.count_pos_iff.mpr again
    omega
  have none := resets.free comp kept
  rw [(inv.listed comp name).mpr inside] at none
  contradiction

theorem Inv.exact (inv : Inv t calls m) (resets : Resets t m name resolved next) : Exact t calls name resolved := by
  obtain ⟨-,-,-,list⟩ := resolveComps_ok resets.resolves
  refine ⟨resets.distinct,fun comp => ?_⟩
  rw [list,inv.empty resets,List.nil_append,List.mem_filter,decide_eq_true_eq,t.mem_flatMap_withDescendants,
    t.mem_flatMap_withDescendants,inv.rootCompQ,inv.rootCompExQ]

/-- The components that are registered are again those of the lists. -/
theorem Inv.registers (inv : Inv t calls m) (resets : Resets t m name resolved next) (comp : α) (other : String) :
    next.compRegistered comp = some other ↔ comp ∈ (next.group other).compsQ := by
  rw [resets.registered,resets.groups]
  by_cases listed : comp ∈ resolved.compsQ
  · have unknown := resets.free comp listed
    rw [if_pos listed]
    by_cases same : other = name
    · rw [if_pos same,same]
      exact iff_of_true rfl listed
    · rw [if_neg same,← inv.listed,unknown]
      exact iff_of_false (fun equal => same (Option.some.inj equal).symm) nofun
  · rw [if_neg listed,inv.listed]
    by_cases same : other = name
    · rw [if_pos same,same,inv.empty resets]
      exact iff_of_false List.not_mem_nil listed
    · rw [if_neg same]

theorem Inv.setResetType (inv : Inv t calls m) (ok : m.setResetType t name typ = .ok next) :
    Inv t (calls ++ [.setResetType name typ]) next ∧ Exact t calls name (next.group name) := by
  obtain ⟨resolved,resets⟩ := setResetType_resets ok
  obtain ⟨rootCompQ,rootCompExQ,-,-⟩ := resolveComps_ok resets.resolves
  have exact := inv.exact resets
  refine ⟨⟨fun other => ?_,fun other => ?_,fun other comp inside => ?_,inv.registers resets⟩,?_⟩
  · rw [resets.groups,roots_concat,← inv.rootCompQ]
    split
    case isTrue same => rw [same,rootCompQ]; exact (List.append_nil _).symm
    case isFalse => exact (List.append_nil _).symm
  · rw [resets.groups,excepted_concat,← inv.rootCompExQ]
    split
    case isTrue same => rw [same,rootCompExQ]; exact (List.append_nil _).symm
    case isFalse => exact (List.append_nil _).symm
  · rw [roots_concat,show roots other [.setResetType name typ] = [] from rfl,List.append_nil]
    rw [resets.groups] at inside
    split at inside
    case isTrue same =>
      subst same
      exact ((exact.comps comp).mp inside).1
    case isFalse => exact inv.within other comp inside
  · rw [resets.groups,if_pos rfl]
    exact exact

theorem after_concat (t : CompTree α) (calls : List (RstCall α)) (call : RstCall α) :
    after t (calls ++ [call]) = after t calls >>= fun m => step t m call := by
  simp [after,List.foldlM_append]

theorem after_inv (t : CompTree α) {calls : List (RstCall α)} {m : RstTables α} (ok : after t calls = .ok m) :
    Inv t calls m := by
  induction calls using List.reverseRecOn generalizing m with
  | nil =>
    cases ok
    exact initial_inv t
  | append_singleton calls call ih =>
    rw [after_concat] at ok
    obtain ⟨before,earlier,ok⟩ := bind_ok ok
    cases call with
    | addComp name comp =>
      cases ok
      exact (ih earlier).addComp name comp
    | addExceptComp name comp =>
      cases ok
      exact (ih earlier).addExceptComp name comp
    | setResetType name typ => exact ((ih earlier).setResetType ok).1

/-- A run ends in a fatal report, or it resolves every group exactly and no component is in two of them. -/
theorem resolves_or_fatal (t : CompTree α) (calls : List (RstCall α)) :
    (∃ fatal, after t calls = .error fatal) ∨
      (∀ before name typ, before ++ [.setResetType name typ] <+: calls →
        ∃ m, after t (before ++ [.setResetType name typ]) = .ok m ∧ Exact t before name (m.group name)) ∧
      ∃ m, after t calls = .ok m ∧ Apart m := by
  cases ended : after t calls with
  | error fatal => exact .inl ⟨fatal,rfl⟩
  | ok m =>
    refine .inr ⟨?_,m,rfl,(after_inv t ended).apart⟩
    rintro before name typ ⟨rest,rfl⟩
    rw [after,List.foldlM_append] at ended
    obtain ⟨next,ok,-⟩ := bind_ok ended
    change after t (before ++ [.setResetType name typ]) = .ok next at ok
    refine ⟨next,ok,?_⟩
    rw [after_concat] at ok
    obtain ⟨earlier,reached,ok⟩ := bind_ok ok
    exact ((after_inv t reached).setResetType ok).2

end

end RstTables

end Smtdv
