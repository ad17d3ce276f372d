/-
This file embeds the index loops of `libraries/Arrays.sol` and `libraries/Merkle.sol`.
Every access to an array is checked.  No counter reaches `2 ^ 256`, because it counts the items of an array.
-/

import SmoothlyPool.Construction.Merkle
import SmoothlyPool.Library.IndexLoop

namespace SmoothlyPool.Loops

open Bytes32 Arrays Merkle

/-- A loop reverts, or it stops with `Panic(0x32)`. -/
inductive Halt where
  | revert (reason : Revert)
  | outOfBounds
deriving DecidableEq, Repr

section Access

variable {α : Type}

def load (array : List α) (i : ℕ) : Except Halt α :=
  match array[i]? with
  | some item => .ok item
  | none => .error .outOfBounds

def store (array : List α) (i : ℕ) (item : α) : Except Halt (List α) := do
  Checked.require (i < array.length) .outOfBounds
  .ok (array.set i item)

/-- This is the subtraction `array.length - 1`. -/
def lastIndex (array : List α) : Except Halt ℕ := Checked.sub (.revert .arithmetic) array.length 1

end Access

/-- This is the loop `for(uint256 i = 0; i < count; i++) tmp[offset + i] = arr[i]`. -/
def copy (arr : List ℕ) (offset count : ℕ) (tmp : List ℕ) : Except Halt (List ℕ) :=
  IndexLoop.run (fun i tmp => do store tmp (offset + i) (← load arr i)) count 0 tmp

def concat (arr1 arr2 : List ℕ) : Except Halt (List ℕ) := do
  let tmp ← copy arr1 0 arr1.length (List.replicate (arr1.length + arr2.length) 0)
  copy arr2 arr1.length arr2.length tmp

def push (arr : List ℕ) (item : ℕ) : Except Halt (List ℕ) := do
  let tmp ← copy arr 0 arr.length (List.replicate (arr.length + 1) 0)
  store tmp (← lastIndex tmp) item

def pop (arr : List ℕ) : Except Halt (List ℕ) := do
  Checked.require (0 < arr.length) (.revert .emptyArray)
  let count ← lastIndex arr
  copy arr 0 count (List.replicate count 0)

/-- The inner loops of `difference` set the flag and break at the first copy of the item. -/
def search (arr : List ℕ) (item : ℕ) : ℕ → ℕ → Bool → Except Halt Bool
  | 0, _, dup => .ok dup
  | count + 1, x, dup => do
      let other ← load arr x
      if item = other then .ok true else search arr item count (x + 1) dup

def difference (arr1 arr2 : List ℕ) : Except Halt (List ℕ) :=
  IndexLoop.run (fun i tmp => do
    let item ← load arr1 i
    let dup ← search arr2 item arr2.length 0 false
    let dup ← search arr1 item (arr1.length - (i + 1)) (i + 1) dup
    if !dup then push tmp item else .ok tmp) arr1.length 0 []

/-- This is the loop `while(o[o.length - 1] > 1) o = o.push(next(o[o.length - 1]))`. -/
def climb (next : ℕ → ℕ) : ℕ → List ℕ → Except Halt (List ℕ)
  | 0, _ => .error (.revert .outOfGas)
  | fuel + 1, o => do
      let last ← load o (← lastIndex o)
      if 1 < last then climb next fuel (← push o (next last)) else .ok o

def getBranchIndices (index : ℕ) : Except Halt (List ℕ) := do
  let o ← store [0] 0 (generalizedIndexSibling index)
  pop (← climb (fun last => generalizedIndexSibling (generalizedIndexParent last)) (index.log2 + 1) o)

def getPathIndices (index : ℕ) : Except Halt (List ℕ) := do
  let o ← store [0] 0 index
  pop (← climb generalizedIndexParent (index.log2 + 1) o)

/-- The state holds `allHelperIndices` and `allPathIndices`. -/
def collect (state : List ℕ × List ℕ) (index : ℕ) : Except Halt (List ℕ × List ℕ) := do
  let allHelperIndices ← concat state.1 (← getBranchIndices index)
  let allPathIndices ← concat state.2 (← getPathIndices index)
  .ok (allHelperIndices, allPathIndices)

def getHelperIndices (indices : List ℕ) : Except Halt (List ℕ) := do
  let (allHelperIndices, allPathIndices) ←
    IndexLoop.run (fun i state => do collect state (← load indices i)) indices.length 0 ([], [])
  .ok (sortReverse (← difference allHelperIndices allPathIndices))

section Roots

variable {B : Type} [Bytes32 B]

def calculateMerkleRoot (proof : List B) (leaf : B) (index : ℕ) : Except Halt B := do
  let depth ← (Merkle.log2 index).mapError .revert
  Checked.require (proof.length = depth % 2 ^ 64) (.revert .invalidProof)
  IndexLoop.run (fun i leaf => do
    let sibling ← load proof i
    if 0 < index &&& (1 <<< i) then .ok (sha256 sibling leaf) else .ok (sha256 leaf sibling)) proof.length 0 leaf

/-- This is the loop `for(uint256 i = 0; i < keys.length; i++) keys[i].set(values[i])`. -/
def setAll (keys : List ℕ) (values : List B) (map : HashMap B) : Except Halt (HashMap B) :=
  IndexLoop.run (fun i map => do .ok (map.set (← load keys i) (← load values i))) keys.length 0 map

/-- This is the loop `while(pos < keys.length)`. -/
def scan : ℕ → List ℕ → ℕ → HashMap B → Except Halt (HashMap B)
  | 0, _, _, _ => .error (.revert .outOfGas)
  | fuel + 1, keys, pos, map =>
      if pos < keys.length then do
        let k ← load keys pos
        if canHash map k then scan fuel (← push keys (k / 2)) (pos + 1) (hashPair map k)
        else scan fuel keys (pos + 1) map
      else .ok map

def calculateMultiMerkleRoot (proof leaves : List B) (indices : List ℕ) (map : HashMap B) :
    Except Halt (B × HashMap B) := do
  Checked.require (leaves.length = indices.length) (.revert .invalidProof)
  let helperIndices ← getHelperIndices indices
  Checked.require (proof.length = helperIndices.length) (.revert .invalidProof)
  let keys := sortReverse (← concat helperIndices indices)
  let map ← setAll helperIndices proof map
  let map ← setAll indices leaves map
  let map ← scan (keyBudget keys + 1) keys 0 map
  .ok (map.get 1, map)

end Roots

end SmoothlyPool.Loops
