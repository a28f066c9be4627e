import Smtdv.Ahb.Order

/-! Whose data phase is in progress: what the bus itself says about the responses, and
what the driver makes of them. -/
namespace Smtdv.Ahb
open Lib

variable {aw dw : Nat}

/-- The first of the two cycles of a response other than `OKAY`. -/
def Sig.first (sig : Sig) : Bool := !sig.hready && decide (sig.hresp ≠ .okay)

/-- The beat in its data phase, the response whose second cycle is to come, and the
responses so far with the items whose data phase they were given in. -/
structure Watch (aw dw : Nat) where
  data : Option (Handle aw dw × Nat) := none
  pending : Option TrxRsp := none
  responses : List (Handle aw dw × TrxRsp) := []

/-- When `hready` is high the beat presented enters its data phase. -/
def Watch.next (w : Watch aw dw) (c : Cycle aw dw) : Watch aw dw where
  data := if c.sig.hready then (if c.sig.hgrant then c.beat else none) else w.data
  pending := if c.sig.first then some c.sig.hresp else none
  responses := w.responses ++
    if c.sig.first then (w.data.map fun beat => (beat.1,c.sig.hresp)).toList else []

def watch (cycles : List (Cycle aw dw)) : Watch aw dw := cycles.foldl Watch.next {}

theorem watch_concat (cycles : List (Cycle aw dw)) (c : Cycle aw dw) :
    watch (cycles ++ [c]) = (watch cycles).next c := List.foldl_concat ..

/-- The slave answers with `OKAY`, or in two cycles in the data phase of some beat. -/
def Watch.Allows (w : Watch aw dw) (sig : Sig) : Prop :=
  match w.pending with
  | some r => sig.hready = true ∧ sig.hresp = r
  | none => sig.hresp = .okay ∨ sig.hready = false ∧ w.data.isSome = true

instance (w : Watch aw dw) (sig : Sig) : Decidable (w.Allows sig) := by
  unfold Watch.Allows
  cases w.pending <;> infer_instance

def Status.flag (status : Status) : TrxRsp → Bool
  | .okay => false
  | .error => status.error
  | .retry => status.retry
  | .split => status.split

namespace Driver

def Lawful (s : Driver aw dw) : Action aw dw → Prop
  | .posedge sig => (watch s.cycles).Allows sig
  | _ => True

instance (s : Driver aw dw) (a : Action aw dw) : Decidable (Lawful s a) :=
  match a with
  | .posedge sig => inferInstanceAs (Decidable ((watch s.cycles).Allows sig))
  | .addrEdge _ | .dataEdge | .driveBus _ | .pushAddr _ | .pushData _ | .addrGet | .dataGet | .dataSwap =>
    inferInstanceAs (Decidable True)

/-- A response other than `OKAY` comes while the bus is granted and the threads have taken
their items in one order, in the data phase of a beat that is not the last of its item, and
the item is no redrive or the data thread has nothing to do. -/
def Spared (s : Driver aw dw) : Action aw dw → Prop
  | .posedge sig => sig.hresp ≠ .okay → sig.hgrant = true ∧
      ((watch s.cycles).pending = none → SameOrder s ∧ ∀ beat ∈ (watch s.cycles).data,
        beat.2 < beat.1.trx.bstLen ∧ (beat.1 ∈ s.taken ∨ s.data.item? = none))
  | _ => True

instance (s : Driver aw dw) (a : Action aw dw) : Decidable (Spared s a) :=
  match a with
  | .posedge _ => inferInstanceAs (Decidable (_ → _))
  | .addrEdge _ | .dataEdge | .driveBus _ | .pushAddr _ | .pushData _ | .addrGet | .dataGet | .dataSwap =>
    inferInstanceAs (Decidable True)

/-- Responses are charged to the item in its data phase and to no other, and no item of the
sequencer is lost: it is still to be driven from its first beat, or being driven, or has been
driven to its last beat or has had a response of its own. -/
structure Attributed (s : Driver aw dw) : Prop where
  charged : s.addrArmed = false → s.charged = (watch s.cycles).responses
  marked : ∀ h ∈ s.taken, ∀ r, (s.status h).flag r = true ↔ (h,r) ∈ s.charged
  closed : ∀ pair ∈ s.closed, pair ∈ (watch s.cycles).responses
  addrKept : ∀ h ∈ s.taken, h ∈ toPush Fork.toAddr s.forks ++ s.addrbox ∧ (s.status h).addrIdx = 0 ∨
    s.addr.item? = some h ∨ (s.status h).addrIdx = h.trx.bstLen + 1 ∨ ∃ r, (h,r) ∈ (watch s.cycles).responses
  dataKept : ∀ h ∈ s.taken, h ∈ toPush Fork.toData s.forks ++ s.databox ∧ (s.status h).dataIdx = 0 ∨
    s.data.item? = some h ∨ (s.status h).dataIdx = h.trx.bstLen + 1 ∨ ∃ r, (h,r) ∈ (watch s.cycles).responses

/-- While the only beat of a single write is in its data phase, with another write on the
bus, the slave answers with an error. -/
def singleError : List (Action 8 8) :=
  arrive (single 0 1) ++ [.addrGet,.dataGet,.dataSwap] ++ arrive (single 0 2) ++
    [.posedge ⟨true,true,.okay⟩,.addrEdge true,.dataEdge,.addrGet,.dataGet,.dataSwap,
      .posedge ⟨true,false,.error⟩,.addrEdge true,.dataEdge]

end Driver

end Smtdv.Ahb
