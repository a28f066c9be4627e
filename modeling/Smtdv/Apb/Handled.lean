import Smtdv.Apb.Coherent

/-! What the sequence of a slave does with the items that its monitor asserts: each is passed to its handler once,
noted to the driver once and, where it is a write, stored once. -/
namespace Smtdv.Apb
open Lib

variable {aw dw : Nat}

namespace SlaveAgent

/-- The item that a step sends to the driver. -/
def noting (s : SlaveAgent aw dw) : SlaveAction → List Nat
  | .note =>
    match s.request,s.base.mbox[s.noted]? with
    | true,some r => [r]
    | _,_ => []
  | .configure _ _ | .wake | .get | .start | .store _ => []

/-- The write item that a step has stored. -/
def storing (s : SlaveAgent aw dw) : SlaveAction → List Nat
  | .store w => if w ∈ s.base.writers ∧ w ∈ s.base.completed ∧ s.mem.hasLock = false then [w] else []
  | .configure _ _ | .wake | .get | .start | .note => []

/-- Each item taken has been passed to its handler once, and from there it is noted once or waits in `mbox`, and a write
is stored once or waits in its process. When time passes nothing waits that can go on. -/
structure Handled (s : SlaveAgent aw dw) (out kept : List Nat) : Prop where
  once : (SlaveBaseSeq.handling s.base).Once
  noted : (out ++ s.base.mbox.drop s.noted).Perm (s.base.reads ++ s.base.writes)
  stored : (kept ++ s.base.writers).Perm s.base.writes
  failed : s.mem.failed = false
  settled : s.runnable = false →
    (∀ r < s.base.items.length, r ∈ s.base.reads ++ s.base.writes) ∧
    (s.request = true → ∀ r < s.base.items.length, r ∈ out) ∧
    ∀ w ∈ s.base.writes, w ∈ s.base.completed → w ∈ kept

/-- The boxes of the sequence, with what has been noted and stored in the run before. -/
structure Accounts (s : SlaveAgent aw dw) (out kept : List Nat) : Prop where
  noted : out = s.base.mbox.take s.noted
  boxed : s.base.mbox.Perm (s.base.reads ++ s.base.writes)
  stored : (kept ++ s.base.writers).Perm s.base.writes
  started : s.base.rcv = .blocked → s.base.forked = 0

theorem Accounts.moved {s t : SlaveAgent aw dw} {out kept : List Nat} (accounts : s.Accounts out kept)
    (base : t.base = {s.base with items := t.base.items, completed := t.base.completed}) (same : t.noted = s.noted) :
    t.Accounts out kept := by
  obtain ⟨noted,boxed,stored,started⟩ := accounts
  refine ⟨?_,?_,?_,?_⟩
  · rw [base,same]
    exact noted
  · rw [base]
    exact boxed
  · rw [base]
    exact stored
  · rw [base]
    exact started

theorem collect_moved (s : SlaveAgent aw dw) (choice : Choice) (c : Sample aw dw) (dir : TrsType) :
    (s.collect choice c dir).base = {s.base with
      items := (s.collect choice c dir).base.items, completed := (s.collect choice c dir).base.completed} ∧
    (s.collect choice c dir).noted = s.noted := by
  rw [collect]
  split
  · split <;> exact ⟨rfl,rfl⟩
  · split <;> exact ⟨rfl,rfl⟩

theorem Accounts.negedge {s : SlaveAgent aw dw} {out kept : List Nat} (accounts : s.Accounts out kept)
    (c : Sample aw dw) (choice : Choice) : (s.negedge c choice).Accounts out kept := by
  have turn {t : SlaveAgent aw dw} (before : t.Accounts out kept) (dir : TrsType) :
      (t.collect choice c dir).Accounts out kept :=
    before.moved (t.collect_moved choice c dir).1 (t.collect_moved choice c dir).2
  rw [SlaveAgent.negedge]
  split
  · exact (turn (turn accounts .wr) .rd).moved rfl rfl
  · exact (turn (turn accounts .rd) .wr).moved rfl rfl

theorem Accounts.get {s : SlaveAgent aw dw} {transit : Transit aw} {map : ByteMap aw} (inv : s.Inv transit map)
    {out kept : List Nat} (accounts : s.Accounts out kept) : s.get.Accounts out kept := by
  obtain ⟨noted,boxed,stored,started⟩ := accounts
  cases next : s.base.items[s.base.fetched]? with
  | none =>
    rw [get_none inv.piped.running next]
    exact ⟨noted,boxed,stored,fun _ => rfl⟩
  | some trs =>
    cases trs with
    | rdwr => exact absurd (List.mem_of_getElem? next) inv.piped.plain
    | wr =>
      rw [get_write inv.piped.running next]
      exact ⟨noted,boxed,stored,fun blocked => nomatch blocked⟩
    | rd =>
      rw [get_read inv.piped.running next inv.free]
      refine ⟨?_,?_,stored,fun blocked => nomatch blocked⟩
      · exact noted.trans (List.take_append_of_le_length inv.piped.noted).symm
      · refine (boxed.append_right _).trans ?_
        rw [List.append_assoc,List.append_assoc]
        exact List.perm_append_comm.append_left _

theorem Accounts.start {s : SlaveAgent aw dw} (inside : s.noted ≤ s.base.mbox.length) {out kept : List Nat}
    (accounts : s.Accounts out kept) : Accounts {s with base := SlaveBaseSeq.start s.base} out kept := by
  obtain ⟨noted,boxed,stored,started⟩ := id accounts
  rw [SlaveBaseSeq.start]
  split
  · refine ⟨?_,?_,?_,started⟩
    · exact noted.trans (List.take_append_of_le_length inside).symm
    · refine (boxed.append_right _).trans ?_
      rw [List.append_assoc]
    · rw [← List.append_assoc]
      exact stored.append_right _
  · exact accounts

theorem Accounts.store {s : SlaveAgent aw dw} {out kept : List Nat} (accounts : s.Accounts out kept) (w : Nat) :
    (s.store w).Accounts out (kept ++ s.storing (.store w)) := by
  obtain ⟨noted,boxed,stored,started⟩ := id accounts
  rw [SlaveAgent.store,storing]
  split
  case isTrue ends =>
    have turn : SlaveBaseSeq.finishWrite s.base w = {s.base with writers := s.base.writers.erase w} := by
      rw [SlaveBaseSeq.finishWrite,if_pos ⟨ends.1,ends.2.1⟩]
    rw [turn]
    refine ⟨noted,boxed,?_,started⟩
    rw [List.append_assoc]
    exact ((List.perm_cons_erase ends.1).symm.append_left kept).trans stored
  case isFalse =>
    rw [List.append_nil]
    exact accounts

theorem Accounts.note {s : SlaveAgent aw dw} {out kept : List Nat} (accounts : s.Accounts out kept) :
    s.note.Accounts (out ++ s.noting .note) kept := by
  obtain ⟨noted,boxed,stored,started⟩ := id accounts
  rw [SlaveAgent.note,noting]
  cases request : s.request with
  | false =>
    rw [List.append_nil]
    exact accounts
  | true =>
    cases next : s.base.mbox[s.noted]? with
    | none =>
      rw [List.append_nil]
      exact accounts
    | some r =>
      refine ⟨?_,boxed,stored,started⟩
      rw [noted]
      change _ = s.base.mbox.take (s.noted+1)
      rw [List.take_add_one,next]
      rfl

theorem Accounts.step {s : SlaveAgent aw dw} {transit : Transit aw} {map : ByteMap aw} (inv : s.Inv transit map)
    {out kept : List Nat} (accounts : s.Accounts out kept) (a : SlaveAction) :
    (s.step a).Accounts (out ++ s.noting a) (kept ++ s.storing a) := by
  cases a with
  | configure blockPready hasError | wake =>
    rw [noting,storing,List.append_nil,List.append_nil]
    exact accounts.moved rfl rfl
  | get =>
    rw [noting,storing,List.append_nil,List.append_nil]
    exact accounts.get inv
  | start =>
    rw [noting,storing,List.append_nil,List.append_nil]
    exact accounts.start inv.piped.noted
  | store w =>
    rw [noting,List.append_nil]
    exact accounts.store w
  | note =>
    rw [storing,List.append_nil]
    exact accounts.note

theorem Piped.mem_taken {s : SlaveAgent aw dw} (piped : s.Piped) {r : Nat} (inside : r < s.base.fetched) :
    r ∈ SlaveBaseSeq.taken s.base.items s.base.fetched .rd ∨
      r ∈ SlaveBaseSeq.taken s.base.items s.base.fetched .wr := by
  have bound : s.base.fetched ≤ s.base.items.length := piped.handled.fetched
  obtain ⟨trs,here⟩ : ∃ trs, s.base.items[r]? = some trs := ⟨_,List.getElem?_eq_getElem (inside.trans_le bound)⟩
  simp only [SlaveBaseSeq.taken,List.mem_filter,List.mem_range,inside,here,true_and,Option.some.injEq,decide_eq_true_eq]
  cases trs with
  | rd => exact .inl rfl
  | wr => exact .inr rfl
  | rdwr => exact absurd (List.mem_of_getElem? here) piped.plain

theorem Accounts.handled {s : SlaveAgent aw dw} {transit : Transit aw} {map : ByteMap aw} (inv : s.Inv transit map)
    {out kept : List Nat} (accounts : s.Accounts out kept) : s.Handled out kept := by
  have once := inv.piped.handled.once
  have parts : (out ++ s.base.mbox.drop s.noted).Perm (s.base.reads ++ s.base.writes) := by
    rw [accounts.noted,List.take_append_drop]
    exact accounts.boxed
  refine ⟨once,parts,accounts.stored,inv.stored.failed,fun quiet => ?_⟩
  simp only [runnable,Bool.or_eq_false_iff,Bool.and_eq_false_iff,decide_eq_false_iff_not,List.any_eq_false] at quiet
  obtain ⟨⟨⟨⟨⟨_,getting⟩,behind⟩,ready⟩,ending⟩,asks⟩ := quiet
  have blocked : s.base.rcv = .blocked := inv.piped.running.resolve_left getting
  have all : s.base.items.length ≤ s.base.fetched := not_lt.mp fun more => behind ⟨blocked,more⟩
  have idle : (SlaveBaseSeq.handling s.base).toStart = 0 := by
    change s.base.forked+s.base.ready = 0
    rw [accounts.started blocked]
    omega
  have reads : s.base.reads = SlaveBaseSeq.taken s.base.items s.base.fetched .rd := once.reads
  have each (r : Nat) (inside : r < s.base.items.length) : r ∈ s.base.reads ++ s.base.writes := by
    rcases inv.piped.mem_taken (inside.trans_le all) with read | write
    · exact List.mem_append_left _ (reads ▸ read)
    · exact List.mem_append_right _ (once.all idle write)
  refine ⟨each,fun request r inside => ?_,fun w inside complete => ?_⟩
  · have empty : s.base.mbox.drop s.noted = [] := by
      apply List.drop_eq_nil_iff.mpr
      exact not_lt.mp (asks.resolve_left (by simp [request]))
    rw [empty,List.append_nil] at parts
    exact parts.mem_iff.mpr (each r inside)
  · rcases List.mem_append.mp (accounts.stored.mem_iff.mpr inside) with old | waits
    · exact old
    · have going : ¬(w ∈ s.base.completed ∧ s.mem.hasLock = false) := by simpa using ending w waits
      exact absurd ⟨complete,inv.free⟩ going

end SlaveAgent

namespace Env

def logged (log : SlaveAgent aw dw → SlaveAction → List Nat) (i : Fin 2) (e : Env aw dw) : EnvAction aw dw → List Nat
  | .slave j a => if j = i then log (e.slaves i) a else []
  | .posedge _ | .negedge _ _ | .leave | .arrive _ | .configure _ _ _ | .wake => []

/-- What one of the slaves has given in a run from reset. -/
def logOf (log : SlaveAgent aw dw → SlaveAction → List Nat) (i : Fin 2) (mapCfgs : List MapCfg)
    (hasBlock blockPsel blockPenable : Bool) (config : Fin 2 → Bool × Bool) (actions : List (EnvAction aw dw)) :
    List Nat :=
  (Machine.answers (fun e a => (step e a,logged log i e a))
    (initial mapCfgs hasBlock blockPsel blockPenable config) actions).2.flatten

theorem logOf_concat (log : SlaveAgent aw dw → SlaveAction → List Nat) (i : Fin 2) (mapCfgs : List MapCfg)
    (hasBlock blockPsel blockPenable : Bool) (config : Fin 2 → Bool × Bool) (actions : List (EnvAction aw dw))
    (a : EnvAction aw dw) :
    logOf log i mapCfgs hasBlock blockPsel blockPenable config (actions ++ [a]) =
      logOf log i mapCfgs hasBlock blockPsel blockPenable config actions ++
        logged log i (after mapCfgs hasBlock blockPsel blockPenable config actions) a := by
  rw [logOf,Machine.answers_append,List.flatten_append,← logOf,Machine.answers_run step (logged log i),← after]
  exact congrArg _ (List.append_nil _)

theorem Inv.accounts {e : Env aw dw} (inv : e.Inv) (i : Fin 2) {out kept : List Nat}
    (accounts : (e.slaves i).Accounts out kept) (a : EnvAction aw dw) :
    ((e.step a).slaves i).Accounts (out ++ logged SlaveAgent.noting i e a)
      (kept ++ logged SlaveAgent.storing i e a) := by
  cases a with
  | slave j a =>
    rw [logged,logged,step]
    by_cases here : j = i
    · subst here
      obtain ⟨transit,slave⟩ := inv.stage.slave j
      rw [if_pos rfl,if_pos rfl]
      simp only [Function.update_self]
      exact accounts.step slave a
    · rw [if_neg here,if_neg here,List.append_nil,List.append_nil]
      simp only [Function.update_of_ne (Ne.symm here)]
      exact accounts
  | posedge opt | leave =>
    rw [logged,logged,List.append_nil,List.append_nil,step]
    split
    · exact accounts
    · exact accounts.moved rfl rfl
  | negedge order choice =>
    rw [logged,logged,List.append_nil,List.append_nil,step]
    split
    · exact accounts
    · exact accounts.negedge _ _
  | arrive | configure | wake =>
    rw [logged,logged,List.append_nil,List.append_nil]
    exact accounts

end Env

end Smtdv.Apb
