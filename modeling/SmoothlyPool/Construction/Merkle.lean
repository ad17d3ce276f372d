/-
This file embeds `libraries/Merkle.sol`.
-/

import SmoothlyPool.Construction.Arrays

namespace SmoothlyPool.Merkle

open Bytes32 Arrays

/-- The four comparisons find the 32-bit limb of the highest bit.
The smeared limb times the De Bruijn constant selects the table entry. -/
def log2 (x : ℕ) : Except Revert ℕ :=
  if x = 0 then .error .log2Undefined
  else
    let lt (a b : ℕ) : ℕ := if a < b then 1 else 0
    let r := lt 0xffffffffffffffffffffffffffffffff x <<< 7
    let r := r ||| (lt 0xffffffffffffffff (x >>> r) <<< 6)
    let r := r ||| (lt 0xffffffff (x >>> r) <<< 5)
    let x := x >>> r
    let x := x ||| (x >>> 1)
    let x := x ||| (x >>> 2)
    let x := x ||| (x >>> 4)
    let x := x ||| (x >>> 8)
    let x := x ||| (x >>> 16)
    let selected := (x * (0x07c4acdd <<< 224) % 2 ^ 256) >>> 251
    let table := 0x0009010a0d15021d0b0e10121619031e080c141c0f111807131b17061a05041f
    .ok (r ||| (if selected < 32 then (table >>> (8 * (31 - selected))) % 256 else 0))

section Single

variable {B : Type} [Bytes32 B]

/-- The loop hashes the branch from the level `i` upwards. -/
def merkleLoop (index : ℕ) : ℕ → List B → B → B
  | _, [], leaf => leaf
  | i, sibling :: rest, leaf =>
      if 0 < index &&& (1 <<< i) then merkleLoop index (i + 1) rest (sha256 sibling leaf)
      else merkleLoop index (i + 1) rest (sha256 leaf sibling)

def calculateMerkleRoot (proof : List B) (leaf : B) (index : ℕ) : Except Revert B := do
  let depth ← log2 index
  Checked.require (proof.length = depth % 2 ^ 64) .invalidProof
  .ok (merkleLoop index 0 proof leaf)

end Single

def generalizedIndexParent (index : ℕ) : ℕ := index / 2

def generalizedIndexSibling (index : ℕ) : ℕ := index ^^^ 1

/-- This is the loop `while(o[o.length - 1] > 1) o = o.push(next(o[o.length - 1]))`.
Each step halves the last item, so its logarithm is enough fuel. -/
def climb (next : ℕ → ℕ) : ℕ → List ℕ → List ℕ
  | 0, o => o
  | fuel + 1, o =>
      if 1 < o.getLastD 0 then climb next fuel (push o (next (o.getLastD 0))) else o

def getBranchIndices (index : ℕ) : Except Revert (List ℕ) :=
  pop (climb (fun last => generalizedIndexSibling (generalizedIndexParent last)) index.log2
    [generalizedIndexSibling index])

def getPathIndices (index : ℕ) : Except Revert (List ℕ) :=
  pop (climb generalizedIndexParent index.log2 [index])

/-- The loop collects the branches and the paths of all indices. -/
def collectIndices : List ℕ → List ℕ → List ℕ → Except Revert (List ℕ × List ℕ)
  | [], allHelperIndices, allPathIndices => .ok (allHelperIndices, allPathIndices)
  | index :: rest, allHelperIndices, allPathIndices => do
      let branch ← getBranchIndices index
      let path ← getPathIndices index
      collectIndices rest (concat allHelperIndices branch) (concat allPathIndices path)

def getHelperIndices (indices : List ℕ) : Except Revert (List ℕ) := do
  let (allHelperIndices, allPathIndices) ← collectIndices indices [] []
  .ok (sortReverse (difference allHelperIndices allPathIndices))

section Multi

variable {B : Type} [Bytes32 B]

/-- The loop `keys[i].set(values[i])` runs over both arrays. -/
def setAll : List ℕ → List B → HashMap B → HashMap B
  | key :: keys, value :: values, map => setAll keys values (map.set key value)
  | _, _, map => map

/-- The loop guard: the index and its sibling are set and the parent is not. -/
def canHash (map : HashMap B) (k : ℕ) : Bool :=
  map.contains k && map.contains (k ^^^ 1) && !map.contains (k / 2)

/-- The loop stores the hash of both children under the parent. -/
def hashPair (map : HashMap B) (k : ℕ) : HashMap B :=
  map.set (k / 2) (sha256 (map.get ((k ||| 1) ^^^ 1)) (map.get (k ||| 1)))

/-- The list holds the keys from `pos` on, and `push` appends the new parent to it. -/
def hashKeys : ℕ → List ℕ → HashMap B → Except Revert (HashMap B)
  | _, [], map => .ok map
  | 0, _ :: _, _ => .error .outOfGas
  | fuel + 1, k :: pending, map =>
      if canHash map k then hashKeys fuel (push pending (k / 2)) (hashPair map k)
      else hashKeys fuel pending map

/-- The loop `while(pos < keys.length)` scans an array that grows. -/
structure Scan (B : Type) where
  keys : List ℕ
  pos : ℕ
  map : HashMap B

/-- This is one pass of the loop, and there is none after the last key.
`hashKeys` makes all passes. -/
def Scan.next (scan : Scan B) : Option (Scan B) :=
  if inside : scan.pos < scan.keys.length then
    let k := scan.keys[scan.pos]
    if canHash scan.map k then some ⟨push scan.keys (k / 2), scan.pos + 1, hashPair scan.map k⟩
    else some ⟨scan.keys, scan.pos + 1, scan.map⟩
  else none

/-- Every appended key is a proper ancestor of a first key. -/
def keyBudget (keys : List ℕ) : ℕ := (keys.map fun k => k.log2 + 1).sum

def calculateMultiMerkleRoot (proof leaves : List B) (indices : List ℕ) (map : HashMap B) :
    Except Revert (B × HashMap B) := do
  Checked.require (leaves.length = indices.length) .invalidProof
  let helperIndices ← getHelperIndices indices
  Checked.require (proof.length = helperIndices.length) .invalidProof
  let keys := sortReverse (concat helperIndices indices)
  let map := setAll helperIndices proof map
  let map := setAll indices leaves map
  let map ← hashKeys (keyBudget keys) keys map
  .ok (map.get 1, map)

end Multi

end SmoothlyPool.Merkle
