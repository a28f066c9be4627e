import Smtdv.Ahb.Driver

/-! The bus trace of a sequence of items, as the bus protocol has it. -/
namespace Smtdv.Ahb

variable {aw dw : Nat}

/-- What the master presents in a cycle: nothing, the address of a beat, or a pause before
the address of a beat. -/
inductive Pos (aw dw : Nat)
  | idle
  | beat (x : Trx aw dw) (i : Nat)
  | busy (x : Trx aw dw) (i : Nat)

def Controls (vif : Vif aw dw) (x : Trx aw dw) : Prop :=
  vif.hwrite = decide (x.trsT = .wr) ∧ vif.hsize = x.trxSize ∧ vif.hburst = x.bstType ∧
    vif.hprot = x.trxPrt ∧ vif.hmastlock = x.hmastlock

/-- The signals of the address phase. -/
def Presents (vif : Vif aw dw) : Pos aw dw → Prop
  | .idle => vif.htrans = .idle
  | .beat x i => vif.haddr = x.addrs.getD i 0 ∧ vif.htrans = (if i = 0 then .nonseq else .seq) ∧ Controls vif x
  | .busy x i => vif.haddr = x.addrs.getD i 0 ∧ vif.htrans = .busy ∧ Controls vif x

/-- The write data of the data phase, where there is any. -/
def Carries (vif : Vif aw dw) (owed : Option (Beat dw)) : Prop := ∀ d, owed = some d → vif.hwdata = d

/-- What `hwdata` owes during the data phase of a beat. -/
def Trx.payload (x : Trx aw dw) (i : Nat) : Option (Beat dw) :=
  if x.trsT = .wr then some (x.dataBeat.getD i default) else none

/-- The cycles so far are the trace of the items; the next cycle presents `pos` and
carries `owed`. A cycle whose `hready` is low is repeated as it is; when it is high the
address presented is accepted and its data phase begins. -/
inductive AhbTrace : List (Trx aw dw) → Pos aw dw → Option (Beat dw) → List (Cycle aw dw) → Prop
  | start : AhbTrace [] .idle none []
  | take {items : List (Trx aw dw)} {owed : Option (Beat dw)} {cycles : List (Cycle aw dw)} (x : Trx aw dw)
      (before : AhbTrace items .idle owed cycles) : AhbTrace (items ++ [x]) (.beat x 0) owed cycles
  | wait {items : List (Trx aw dw)} {pos : Pos aw dw} {owed : Option (Beat dw)} {cycles : List (Cycle aw dw)}
      (c : Cycle aw dw) (before : AhbTrace items pos owed cycles)
      (shown : Presents c.vif pos ∧ Carries c.vif owed) (low : c.sig.hready = false) :
      AhbTrace items pos owed (cycles ++ [c])
  | idle {items : List (Trx aw dw)} {owed : Option (Beat dw)} {cycles : List (Cycle aw dw)}
      (c : Cycle aw dw) (before : AhbTrace items .idle owed cycles)
      (shown : Presents c.vif .idle ∧ Carries c.vif owed) (high : c.sig.hready = true) :
      AhbTrace items .idle none (cycles ++ [c])
  | next {items : List (Trx aw dw)} {x : Trx aw dw} {i : Nat} {owed : Option (Beat dw)}
      {cycles : List (Cycle aw dw)} (c : Cycle aw dw) (before : AhbTrace items (.beat x i) owed cycles)
      (shown : Presents c.vif (.beat x i) ∧ Carries c.vif owed) (high : c.sig.hready = true)
      (more : i < x.bstLen) (pos : Pos aw dw) (follows : pos = .beat x (i+1) ∨ pos = .busy x (i+1)) :
      AhbTrace items pos (x.payload i) (cycles ++ [c])
  | last {items : List (Trx aw dw)} {x : Trx aw dw} {owed : Option (Beat dw)} {cycles : List (Cycle aw dw)}
      (c : Cycle aw dw) (before : AhbTrace items (.beat x x.bstLen) owed cycles)
      (shown : Presents c.vif (.beat x x.bstLen) ∧ Carries c.vif owed) (high : c.sig.hready = true) :
      AhbTrace items .idle (x.payload x.bstLen) (cycles ++ [c])
  | busy {items : List (Trx aw dw)} {x : Trx aw dw} {i : Nat} {owed : Option (Beat dw)}
      {cycles : List (Cycle aw dw)} (c : Cycle aw dw) (before : AhbTrace items (.busy x i) owed cycles)
      (shown : Presents c.vif (.busy x i) ∧ Carries c.vif owed) (high : c.sig.hready = true)
      (pos : Pos aw dw) (follows : pos = .beat x i ∨ pos = .busy x i) :
      AhbTrace items pos none (cycles ++ [c])

end Smtdv.Ahb
