import Smtdv.Common.Types
import Smtdv.Lib.Parity

/-! `uart_item` and `uart_base_cfg`. An item's bit `idx` is `data_beat[0][idx]`, which is a byte
of the packed beat: the low bit of lane `idx`. -/
namespace Smtdv.Uart
open Lib

/-- `parity_e`. -/
inductive ParityType
  | good | bad
  deriving DecidableEq, Repr

structure UartCfg where
  charLength : BitVec 2
  nbstop : BitVec 1
  parityEn : BitVec 1
  parityMode : BitVec 2
  deriving DecidableEq, Repr

namespace UartCfg

/-- `ConvToIntChrl`. -/
def charLenVal (cfg : UartCfg) : Nat :=
  match cfg.charLength with
  | 0 => 5
  | 1 => 6
  | 2 => 7
  | _ => 8

/-- `ConvToIntStpBt`. -/
def stopBitVal (cfg : UartCfg) : Nat :=
  match cfg.nbstop with
  | 0 => 1
  | _ => 2

end UartCfg

structure UartItem (dw : Nat) where
  dataBeat : List (Beat dw) := []
  startBit : Bool := false
  parity : Bool := false
  stopBits : BitVec 2 := 0
  errorBits : BitVec 4 := 0
  parityType : ParityType := .good
  deriving DecidableEq, Inhabited

/-- The two case statements of `calc_parity`. -/
def parityOfMode (parityMode : BitVec 2) (tempParity : Bool) : Bool :=
  let tempParity := if parityMode.getLsbD 0 then tempParity else !tempParity
  if parityMode.getLsbD 1 then !parityMode.getLsbD 0 else tempParity

def parityLanes (dw numOfDataBits : Nat) : Nat :=
  if numOfDataBits = 6 then 6 else if numOfDataBits = 7 then 7 else dw/8

def bitsOf (lane : BitVec 8) : List Bool := (List.range 8).map lane.getLsbD

namespace UartItem

variable {dw : Nat}

/-- `data_beat[0]`, which is all zeros in an item without one. -/
def beat (item : UartItem dw) : Beat dw := item.dataBeat.headD default

def lane (item : UartItem dw) (idx : Nat) : BitVec 8 :=
  if inside : idx < dw/8 then item.beat ⟨idx,inside⟩ else 0

def unpackData (item : UartItem dw) (idx : Nat) : Bool := (item.lane idx).getLsbD 0

/-- A first beat is added to an item that has none. -/
def packData (item : UartItem dw) (idx : Nat) (b : Bool) : UartItem dw :=
  {item with
    dataBeat := (fun i => if i.val = idx then (BitVec.ofBool b).setWidth 8 else item.beat i)::item.dataBeat.tail}

def calcParity (item : UartItem dw) (numOfDataBits : Nat) (parityMode : BitVec 2) : Bool :=
  let tempParity := Lib.parity ((List.range (parityLanes dw numOfDataBits)).flatMap fun idx => bitsOf (item.lane idx))
  match item.parityType with
  | .bad => !parityOfMode parityMode tempParity
  | .good => parityOfMode parityMode tempParity

end UartItem

end Smtdv.Uart
