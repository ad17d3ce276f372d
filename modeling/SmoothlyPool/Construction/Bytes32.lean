/-
This file fixes the 32-byte strings of the EVM and their SHA-256 pair hash.
-/

import Mathlib.Algebra.Ring.Nat
import Mathlib.Tactic.Common
import Mathlib.Logic.Function.Basic

namespace SmoothlyPool

/-- A word is one `uint256` value. -/
abbrev Word := BitVec 256

abbrev Uint64 := BitVec 64

abbrev Address := BitVec 160

/-- The type `B` of 32-byte strings contains the words.
`sha256` is the SHA-256 precompile on two concatenated 32-byte strings. -/
class Bytes32 (B : Type) where
  word : Word → B
  sha256 : B → B → B

open Bytes32

/-- The hash is collision free on pairs, and distinct words are distinct strings. -/
class CollisionFree (B : Type) [Bytes32 B] : Prop where
  word_injective : Function.Injective (word : Word → B)
  sha256_injective : Function.Injective2 (sha256 : B → B → B)

/-- This is the default value of a 32-byte slot. -/
def zero {B : Type} [Bytes32 B] : B := word 0

/-- The five rounds exchange bytes, pairs of bytes, and so on up to the two halves. -/
def toLittleEndian (v : Word) : Word :=
  let v :=
    ((v &&& 0xFF00FF00FF00FF00FF00FF00FF00FF00FF00FF00FF00FF00FF00FF00FF00FF00#256) >>> 8) |||
    ((v &&& 0x00FF00FF00FF00FF00FF00FF00FF00FF00FF00FF00FF00FF00FF00FF00FF00FF#256) <<< 8)
  let v :=
    ((v &&& 0xFFFF0000FFFF0000FFFF0000FFFF0000FFFF0000FFFF0000FFFF0000FFFF0000#256) >>> 16) |||
    ((v &&& 0x0000FFFF0000FFFF0000FFFF0000FFFF0000FFFF0000FFFF0000FFFF0000FFFF#256) <<< 16)
  let v :=
    ((v &&& 0xFFFFFFFF00000000FFFFFFFF00000000FFFFFFFF00000000FFFFFFFF00000000#256) >>> 32) |||
    ((v &&& 0x00000000FFFFFFFF00000000FFFFFFFF00000000FFFFFFFF00000000FFFFFFFF#256) <<< 32)
  let v :=
    ((v &&& 0xFFFFFFFFFFFFFFFF0000000000000000FFFFFFFFFFFFFFFF0000000000000000#256) >>> 64) |||
    ((v &&& 0x0000000000000000FFFFFFFFFFFFFFFF0000000000000000FFFFFFFFFFFFFFFF#256) <<< 64)
  (v >>> 128) ||| (v <<< 128)

/-- This is the overload of `toLittleEndian` on `bool`. -/
def toLittleEndianBool (v : Bool) : Word := if v then 1#256 <<< 248 else 0

/-- This is the cast `bytes32(uint256(uint160(feeRecipient)) << 96)`. -/
def leftAligned (feeRecipient : Address) : Word := feeRecipient.setWidth 256 <<< 96

end SmoothlyPool
