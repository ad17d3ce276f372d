/-
This file embeds the generalized-index functions of `eip-4788-prover/dbg/src/main.rs`.
-/

import SmoothlyPool.Construction.Bytes32
import SmoothlyPool.Library.Checked

namespace SmoothlyPool.Prover

/-- An operation on `u64` values panics when its result does not fit. -/
inductive Panic where
  | overflow
deriving DecidableEq, Repr

def add (x y : Uint64) : Except Panic Uint64 := do
  Checked.require (x.toNat + y.toNat < 2 ^ 64) .overflow
  .ok (x + y)

def sub (x y : Uint64) : Except Panic Uint64 := do
  Checked.require (y.toNat ≤ x.toNat) .overflow
  .ok (x - y)

def mul (x y : Uint64) : Except Panic Uint64 := do
  Checked.require (x.toNat * y.toNat < 2 ^ 64) .overflow
  .ok (x * y)

/-- The shifts fill all bits below the highest one. -/
def floorPowerOfTwo (x : Uint64) : Except Panic Uint64 :=
  if x = 0 then .ok 0
  else do
    let x := x ||| (x >>> 1)
    let x := x ||| (x >>> 2)
    let x := x ||| (x >>> 4)
    let x := x ||| (x >>> 8)
    let x := x ||| (x >>> 16)
    let x := x ||| (x >>> 32)
    let x ← add x 1
    .ok (x >>> 1)

/-- The loop carries the result `o` of the indices before. -/
def concatLoop : List Uint64 → Uint64 → Except Panic Uint64
  | [], o => .ok o
  | i :: rest, o => do
      let product ← mul o (← floorPowerOfTwo i)
      let tail ← sub i (← floorPowerOfTwo i)
      concatLoop rest (← add product tail)

def concatGeneralizedIndices (indices : List Uint64) : Except Panic Uint64 := concatLoop indices 1

end SmoothlyPool.Prover
