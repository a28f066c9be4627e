import Smtdv.Uart.Item

/-! The frame that `uart_tx_drive_items` drives, one turn of the sample clock after the other, and
what `collect_item` of the monitor makes of the levels of the line. -/
namespace Smtdv.Uart
open Lib

variable {dw : Nat}

/-- What the driver does to the line at each tick from the bit `sent` on, in at most so many turns
of its loop: the loop over the stop bits takes a tick for each. -/
def driveItem (cfg : UartCfg) (item : UartItem dw) : Nat → Nat → List (Option Bool)
  | 0,_ => []
  | turns+1,sent =>
    if sent ≤ 1+cfg.charLenVal+cfg.parityEn.toNat+cfg.nbstop.toNat then
      if sent = 1+cfg.charLenVal+cfg.parityEn.toNat then
        let stops := (List.range cfg.nbstop.toNat).map fun i =>
          some (if item.errorBits.getLsbD i then false else item.stopBits.getLsbD i)
        (if stops = [] then [none] else stops) ++ driveItem cfg item turns (sent+cfg.nbstop.toNat+1)
      else
        let bit :=
          if sent = 0 then some item.startBit
          else if sent < 1+cfg.charLenVal then some (item.unpackData (sent-1))
          else if cfg.parityEn = 1 then some (item.calcParity cfg.charLenVal cfg.parityMode)
          else none
        bit::driveItem cfg item turns (sent+1)
    else []

/-- Every turn of the loop counts at least one bit. -/
def frame (cfg : UartCfg) (item : UartItem dw) : List (Option Bool) :=
  driveItem cfg item (2+cfg.charLenVal+cfg.parityEn.toNat+cfg.nbstop.toNat) 0

/-- The line keeps its level at a tick at which nothing is driven. -/
def levels (level : Bool) : List (Option Bool) → List Bool
  | [] => []
  | bit::bits => bit.getD level::levels (bit.getD level) bits

/-- `wait_for_sop`: the levels after the first fall of the line. -/
def waitForSop (serialD1 : Bool) : List Bool → Option (List Bool)
  | [] => none
  | serialB::rest => if serialD1 ∧ ¬serialB then some rest else waitForSop serialB rest

structure Collecting (dw : Nat) where
  rcvd : Nat := 0
  item : UartItem dw := {}
  errors : Nat := 0
  deriving DecidableEq

def Collecting.bit (cfg : UartCfg) (s : Collecting dw) (serialB : Bool) : Collecting dw :=
  let rcvd := s.rcvd+1
  let item := if rcvd ≤ cfg.charLenVal then s.item.packData (rcvd-1) serialB else s.item
  if rcvd = 1+cfg.charLenVal ∧ cfg.parityEn = 1 then
    { rcvd := rcvd, item := {item with parity := serialB}
      errors := if serialB = item.calcParity cfg.charLenVal cfg.parityMode then s.errors else s.errors+1 }
  else {s with rcvd := rcvd, item := item}

/-- The loop over the stop bits: one is already on the line. -/
def Collecting.stops (s : Collecting dw) (nbstop : Nat) (serial : List Bool) : Collecting dw :=
  {s with
    rcvd := s.rcvd+nbstop
    item := {s.item with
      stopBits := (List.range nbstop).foldl (fun bits i =>
        if serial[i]?.getD false then bits ||| BitVec.twoPow 2 i else bits &&& ~~~BitVec.twoPow 2 i) s.item.stopBits}}

/-- `collect_item`, in at most so many turns of its loop, with the levels it leaves. -/
def collectItem (cfg : UartCfg) : Nat → Collecting dw → List Bool → Option (Collecting dw × List Bool)
  | 0,_,_ => none
  | turns+1,s,serial =>
    if s.rcvd < 1+cfg.charLenVal+cfg.parityEn.toNat+cfg.nbstop.toNat then
      match serial with
      | [] => none
      | serialB::rest =>
        let s := s.bit cfg serialB
        if s.rcvd = 1+cfg.charLenVal+cfg.parityEn.toNat then
          if rest.length+1 < cfg.nbstop.toNat then none
          else
            collectItem cfg turns (s.stops cfg.nbstop.toNat serial)
              (if cfg.nbstop = 0 then rest else serial.drop cfg.nbstop.toNat)
        else collectItem cfg turns s rest
    else some (s,serial)

def collect (dw : Nat) (cfg : UartCfg) (serial : List Bool) : Option (Collecting dw × List Bool) :=
  (waitForSop true serial).bind fun rest =>
    collectItem cfg (2+cfg.charLenVal+cfg.parityEn.toNat+cfg.nbstop.toNat) {} rest

end Smtdv.Uart
