/-
This file embeds `libraries/Arrays.sol`.
-/

import SmoothlyPool.Construction.Bytes32
import SmoothlyPool.Construction.Revert

namespace SmoothlyPool

open Bytes32

/-- The map lives in transient storage.
The slot `keccak256(key)` holds the value and the slot `keccak256(key) + 32` holds the flag.
Slots of distinct keys are distinct. -/
structure HashMap (B : Type) where
  value : ℕ → B
  flag : ℕ → Bool

namespace HashMap

variable {B : Type} [Bytes32 B]

/-- Transient storage is zero when a transaction starts. -/
def empty : HashMap B := ⟨fun _ => zero, fun _ => false⟩

def set (key : ℕ) (value : B) (map : HashMap B) : HashMap B :=
  ⟨Function.update map.value key value, Function.update map.flag key true⟩

def get (key : ℕ) (map : HashMap B) : B := map.value key

def contains (key : ℕ) (map : HashMap B) : Bool := map.flag key

end HashMap

namespace Arrays

def concat (arr1 arr2 : List ℕ) : List ℕ := arr1 ++ arr2

def push (arr : List ℕ) (item : ℕ) : List ℕ := arr ++ [item]

def pop (arr : List ℕ) : Except Revert (List ℕ) := do
  Checked.require (0 < arr.length) .emptyArray
  .ok arr.dropLast

/-- An item of `arr1` is dropped when `arr2` contains it or when it occurs again later in `arr1`. -/
def difference : List ℕ → List ℕ → List ℕ
  | [], _ => []
  | item :: rest, arr2 =>
      let dup := arr2.contains item || rest.contains item
      if dup then difference rest arr2 else item :: difference rest arr2

/-- Memory positions count words from the first element of the array. -/
def mload (array : List ℕ) (ptr : ℕ) : ℕ := array.getD ptr 0

def swap (array : List ℕ) (ptr1 ptr2 : ℕ) : List ℕ :=
  let value1 := mload array ptr1
  let value2 := mload array ptr2
  (array.set ptr1 value2).set ptr2 value1

/-- The iterator moves each element that comes before the pivot below the final pivot position. -/
def partitionLoop (comp : ℕ → ℕ → Bool) (pivot : ℕ) : ℕ → ℕ → ℕ → List ℕ → ℕ × List ℕ
  | 0, _, pos, array => (pos, array)
  | remaining + 1, it, pos, array =>
      if comp (mload array it) pivot then
        partitionLoop comp pivot remaining (it + 1) (pos + 1) (swap array (pos + 1) it)
      else partitionLoop comp pivot remaining (it + 1) pos array

/-- The sort is in place on the segment from `begin` to `finish`.
Every recursive segment is shorter, so its length is enough fuel. -/
def quickSort (comp : ℕ → ℕ → Bool) : ℕ → ℕ → ℕ → List ℕ → List ℕ
  | 0, _, _, array => array
  | fuel + 1, start, finish, array =>
      if finish - start < 2 then array
      else
        let pivot := mload array start
        let (pos, array) := partitionLoop comp pivot (finish - start - 1) (start + 1) start array
        let array := swap array start pos
        let array := quickSort comp fuel start pos array
        quickSort comp fuel (pos + 1) finish array

def sort (array : List ℕ) (comp : ℕ → ℕ → Bool) : List ℕ :=
  quickSort comp array.length 0 array.length array

def reverse (a b : ℕ) : Bool := b < a

def sortReverse (array : List ℕ) : List ℕ := sort array reverse

end Arrays

end SmoothlyPool
