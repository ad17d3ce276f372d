/-
This file embeds the sort of `libraries/Arrays.sol` on the bytes of the memory.
-/

import SmoothlyPool.Construction.BeaconOracle
import SmoothlyPool.Library.ByteMemory

namespace SmoothlyPool.Memory

/-- The instruction reads 32 bytes. -/
def mload (ptr : Word) (memory : ℕ → BitVec 8) : Word := BeaconOracle.mload memory ptr.toNat

def mstore (ptr value : Word) (memory : ℕ → BitVec 8) : ℕ → BitVec 8 :=
  ByteMemory.store 32 memory ptr.toNat value

/-- An array starts with its length. -/
def arrayBegin (array : Word) : Word := array + 0x20

def arrayEnd (array : Word) (memory : ℕ → BitVec 8) : Word := arrayBegin array + mload array memory * 0x20

def swap (ptr1 ptr2 : Word) (memory : ℕ → BitVec 8) : ℕ → BitVec 8 :=
  let value1 := mload ptr1 memory
  let value2 := mload ptr2 memory
  mstore ptr2 value1 (mstore ptr1 value2 memory)

/-- The loop ends at the first iterator that is not below `finish`.
Its arithmetic wraps around, so it takes fuel. -/
def partitionLoop (comp : Word → Word → Bool) (pivot finish : Word) :
    ℕ → Word → Word → (ℕ → BitVec 8) → Option (Word × (ℕ → BitVec 8))
  | 0, _, _, _ => none
  | fuel + 1, it, pos, memory =>
      if it < finish then
        if comp (mload it memory) pivot then
          let pos := pos + 0x20
          partitionLoop comp pivot finish fuel (it + 0x20) pos (swap pos it memory)
        else partitionLoop comp pivot finish fuel (it + 0x20) pos memory
      else some (pos, memory)

/-- The subtraction wraps around too. -/
def quickSort (comp : Word → Word → Bool) : ℕ → Word → Word → (ℕ → BitVec 8) → Option (ℕ → BitVec 8)
  | 0, _, _, _ => none
  | fuel + 1, start, finish, memory =>
      if finish - start < 0x40 then some memory
      else do
        let pivot := mload start memory
        let (pos, memory) ← partitionLoop comp pivot finish fuel (start + 0x20) start memory
        let memory := swap start pos memory
        let memory ← quickSort comp fuel start pos memory
        quickSort comp fuel (pos + 0x20) finish memory

/-- The sort overrides the items of the array. -/
def sort (comp : Word → Word → Bool) (fuel : ℕ) (array : Word) (memory : ℕ → BitVec 8) : Option (ℕ → BitVec 8) :=
  quickSort comp fuel (arrayBegin array) (arrayEnd array memory) memory

def reverse (a b : Word) : Bool := a > b

def sortReverse (fuel : ℕ) (array : Word) (memory : ℕ → BitVec 8) : Option (ℕ → BitVec 8) :=
  sort reverse fuel array memory

end SmoothlyPool.Memory
