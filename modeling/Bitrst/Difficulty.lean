import Bitrst.Uint256
import Bitrst.Block

/-!
# Targets, retargeting and block times

`pow.rs`, `difficulty.rs` and `time.rs`: the compact encoding of targets, the
retarget of a full period and the timestamp rule.
-/

namespace Bitrst

/-! ## Targets -/

structure Target where
  threshold : Hash256
  deriving DecidableEq

/-- `array[offset..offset + bytes.len()].copy_from_slice(bytes)` on a zeroed array. -/
def spliceZeroed (offset : ℕ) (bytes : Bytes) : Hash256 :=
  ⟨(List.replicate offset 0 ++ bytes ++ List.replicate 32 0).take 32, by
    simp only [List.length_take, List.length_append, List.length_replicate]
    omega⟩

namespace Target

def fromBits (bits : UInt32) : Option Target :=
  let exponent := (bits >>> 24).toNat
  let mantissa := bits &&& 0x007fffff
  if mantissa = 0 ∨ bits &&& 0x00800000 ≠ 0 then none
  else if exponent ≤ 3 then
    let value := mantissa >>> UInt32.ofNat (8 * (3 - exponent))
    some ⟨spliceZeroed 0 ((u32ToLeBytes value).take 3)⟩
  else
    let offset := exponent - 3
    if 32 < offset + 3 then none
    else some ⟨spliceZeroed offset ((u32ToLeBytes mantissa).take 3)⟩

/-- The hash is at or below the threshold, both read little-endian. -/
def meets (target : Target) (hash : Hash256) : Bool :=
  cmpLe hash target.threshold != .gt

def toWork (target : Target) : Option Hash256 := workFromTarget target.threshold

/-- The index above the top nonzero byte, scanning down from `n`. -/
def significantSizeLoop (threshold : Bytes) : ℕ → Option ℕ
  | 0 => none
  | index + 1 =>
      if threshold.getD index 0 ≠ 0 then some (index + 1)
      else significantSizeLoop threshold index

def significantSize (threshold : Hash256) : Option ℕ :=
  significantSizeLoop threshold.toList 32

def toBits (target : Target) : Option UInt32 := do
  let bytes := target.threshold.toList
  let size ← significantSize target.threshold
  let mantissa : UInt32 :=
    if size ≤ 3 then
      let value : UInt64 := (List.range size).foldl
        (fun value index ↦ value ||| ((bytes.getD index 0).toUInt64 <<< UInt64.ofNat (8 * index))) 0
      (value <<< UInt64.ofNat (8 * (3 - size))).toUInt32
    else
      let offset := size - 3
      (bytes.getD offset 0).toUInt32 ||| ((bytes.getD (offset + 1) 0).toUInt32 <<< 8) |||
        ((bytes.getD (offset + 2) 0).toUInt32 <<< 16)
  let carries := mantissa &&& 0x00800000 ≠ 0
  let mantissa' := if carries then mantissa >>> 8 else mantissa
  let size' := if carries then size + 1 else size
  if 0x007fffff < mantissa' then none
  else some ((UInt32.ofNat size' <<< 24) ||| mantissa')

end Target

/-! ## Retargeting -/

def difficultyAdjustmentIntervalMainnet : ℕ := 2016

def difficultyAdjustmentInterval [Features] : ℕ :=
  if Features.testShortPeriod then 256 else difficultyAdjustmentIntervalMainnet

def targetBlockSpacing : UInt32 := 600

def targetTimespan : UInt32 := 2016 * targetBlockSpacing

def maxCompactBits : UInt32 := 0x1d00ffff

inductive DifficultyError
  | invalidPreviousBits (bits : UInt32)
  | encodingFailed
  | overflow
  deriving DecidableEq

def clampTimespan (actual target : UInt32) : UInt32 :=
  let minimum := target / 4
  let maximum := saturatingMulU32 target 4
  if actual < minimum then minimum else if maximum < actual then maximum else actual

/-- The threshold of `maxCompactBits`. -/
def maxTargetThreshold : Hash256 := spliceZeroed 26 [0xff, 0xff, 0x00]

theorem fromBits_maxCompactBits :
    Target.fromBits maxCompactBits = some ⟨maxTargetThreshold⟩ := by decide +kernel

def capToMaxTarget (threshold : Hash256) : Hash256 :=
  if cmpLe threshold maxTargetThreshold = .gt then maxTargetThreshold else threshold

/-- The byte products of `mul_div_threshold`, with the carry out of the last byte. -/
def mulBytes (numerator : UInt64) : Bytes → UInt64 → Option (Bytes × UInt64)
  | [], carry => some ([], carry)
  | byte :: rest, carry => do
      let product ← checkedMulU64 byte.toUInt64 numerator
      let scaled ← checkedAddU64 product carry
      let out ← mulBytes numerator rest (scaled >>> 8)
      some (scaled.toUInt8 :: out.1, out.2)

/-- The carry is spread over the `n` bytes above the threshold. -/
def spreadCarry : ℕ → UInt64 → Bytes × UInt64
  | 0, carry => ([], carry)
  | n + 1, carry =>
      let rest := spreadCarry n (carry >>> 8)
      (carry.toUInt8 :: rest.1, rest.2)

/-- Division of a little-endian number from the top byte down.  The bytes not
yet read come most significant first, so the length of the rest is the index
of the byte at hand; the quotient bytes are collected in `output`. -/
def divLeLoop (divisor : UInt64) : Bytes → UInt64 → Bytes → Option Bytes
  | [], _, output => some output
  | byte :: rest, remainder, output => do
      let shifted ← checkedMulU64 remainder 256
      let accumulator ← checkedAddU64 shifted byte.toUInt64
      let quotient := accumulator / divisor
      let remainder := accumulator % divisor
      if 32 ≤ rest.length then
        if quotient ≠ 0 then none else divLeLoop divisor rest remainder output
      else divLeLoop divisor rest remainder (quotient.toUInt8 :: output)

def divLeByU64 (input : Bytes) (divisor : UInt64) : Option Hash256 :=
  if divisor = 0 then none
  else (divLeLoop divisor input.reverse 0 []).map (spliceZeroed 0)

def mulDivThreshold (threshold : Hash256) (numerator denominator : UInt64) : Option Hash256 :=
  if denominator = 0 then none
  else do
    let low ← mulBytes numerator threshold.toList 0
    let high := spreadCarry 4 low.2
    if high.2 ≠ 0 then none else divLeByU64 (low.1 ++ high.1) denominator

def adjustBits (prevBits actualTimespan : UInt32) : Except DifficultyError UInt32 :=
  match Target.fromBits prevBits with
  | none => .error (.invalidPreviousBits prevBits)
  | some prevTarget =>
      let clamped := clampTimespan actualTimespan targetTimespan
      match mulDivThreshold prevTarget.threshold clamped.toUInt64 targetTimespan.toUInt64 with
      | none => .error .overflow
      | some scaled =>
          match (Target.mk (capToMaxTarget scaled)).toBits with
          | none => .error .encodingFailed
          | some bits => .ok bits

/-! ## Block times -/

def maxFutureBlockTime : UInt32 := 2 * 60 * 60

def validBlockTime (blockTime medianPastTime networkTime : UInt32) : Bool :=
  decide (medianPastTime < blockTime) &&
    decide (blockTime ≤ saturatingAddU32 networkTime maxFutureBlockTime)

end Bitrst
