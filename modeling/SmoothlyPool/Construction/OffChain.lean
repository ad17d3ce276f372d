/-
This file embeds the helper-index functions of `proofs/index.ts`.
A number is an exact integer, as every number between `-2 ^ 53` and `2 ^ 53` is in JavaScript.
-/

import SmoothlyPool.Construction.Bytes32

namespace SmoothlyPool.OffChain

/-- The operator `^` takes its operands to 32-bit signed integers. -/
def xor (x y : ℤ) : ℤ := (BitVec.ofInt 32 x ^^^ BitVec.ofInt 32 y).toInt

def generalizedIndexSibling (index : ℤ) : ℤ := xor index 1

/-- This is `Math.floor(index / 2)`. -/
def generalizedIndexParent (index : ℤ) : ℤ := index / 2

/-- This is the loop `while(o[o.length - 1] > 1) o.push(next(o[o.length - 1]))`.
Each step halves the last item at least, so the logarithm of the index is enough fuel. -/
def climb (next : ℤ → ℤ) : ℕ → List ℤ → List ℤ
  | 0, o => o
  | fuel + 1, o => if 1 < o.getLastD 0 then climb next fuel (o ++ [next (o.getLastD 0)]) else o

/-- The result `o.slice(0, o.length - 1)` lacks the last item. -/
def getBranchIndices (treeIndex : ℤ) : List ℤ :=
  (climb (fun last => generalizedIndexSibling (generalizedIndexParent last)) treeIndex.toNat.log2
    [generalizedIndexSibling treeIndex]).dropLast

def getPathIndices (treeIndex : ℤ) : List ℤ :=
  (climb generalizedIndexParent treeIndex.toNat.log2 [treeIndex]).dropLast

/-- The loop collects the branches and the paths of all indices. -/
def collectIndices : List ℤ → List ℤ → List ℤ → List ℤ × List ℤ
  | [], allHelperIndices, allPathIndices => (allHelperIndices, allPathIndices)
  | index :: rest, allHelperIndices, allPathIndices =>
      collectIndices rest (allHelperIndices ++ getBranchIndices index) (allPathIndices ++ getPathIndices index)

/-- The filter `indexOf(item) == x` keeps the first copy of each item. -/
def filterFirst (items : List ℤ) : List ℤ :=
  (items.zipIdx.filter fun (item, x) => items.idxOf item == x).map Prod.fst

/-- The comparator of the sort is `a - b`. -/
def getHelperIndices (indices : List ℤ) : List ℤ :=
  let (allHelperIndices, allPathIndices) := collectIndices indices [] []
  let allHelperIndices := filterFirst allHelperIndices
  ((allHelperIndices.filter fun x => !allPathIndices.contains x).mergeSort fun a b => a - b ≤ 0).reverse

end SmoothlyPool.OffChain
