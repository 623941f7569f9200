-- The merkle root of a block, as the one-pass computation of
-- `consensus/merkle.cpp` finds it.
import Junkcoin.Primitives
import Mathlib.Logic.Function.Basic

namespace junkcoin

variable (H : Hashes)

/-- The hash of two nodes of a merkle tree: their 64 bytes. -/
def hashNodes (left right : Uint256) : Uint256 := H.sha256d (left.bytes ++ right.bytes)

/-- Merge `h` with the subtrees below it, from `level` up to the first level
whose bit in `count` is set. -/
def mergeUp (inner : Nat → Uint256) (count : Nat) :
    (fuel : Nat) → (level : Nat) → (h : Uint256) → (mutated : Bool) → Nat × Uint256 × Bool
  | 0, level, h, mutated => (level, h, mutated)
  | fuel + 1, level, h, mutated =>
    if count.testBit level then (level, h, mutated)
    else mergeUp inner count fuel (level + 1) (hashNodes H (inner level) h)
      (mutated || inner level == h)

/-- The loop over the leaves. -/
def addLeaves : List Uint256 → (count : Nat) → (inner : Nat → Uint256) → (mutated : Bool) →
    Nat × (Nat → Uint256) × Bool
  | [], count, inner, mutated => (count, inner, mutated)
  | leaf :: leaves, count, inner, mutated =>
    let (level, h, mutated) := mergeUp H inner (count + 1) 32 0 leaf mutated
    addLeaves leaves (count + 1) (Function.update inner level h) mutated

/-- The sweep over the rightmost branch: a node without a sibling is merged
with itself. -/
def sweep (inner : Nat → Uint256) : (fuel : Nat) → (count level : Nat) → Uint256 → Uint256
  | 0, _, _, h => h
  | fuel + 1, count, level, h =>
    if count = 2 ^ level then h
    else
      let count := count + 2 ^ level
      let (level, h, _) := mergeUp H inner count 32 (level + 1) (hashNodes H h h) false
      sweep inner fuel count level h

def lowestBit (count : Nat) : (fuel : Nat) → (level : Nat) → Nat
  | 0, level => level
  | fuel + 1, level => if count.testBit level then level else lowestBit count fuel (level + 1)

/-- `ComputeMerkleRoot`: the root, and whether two equal siblings were seen. -/
def computeMerkleRoot (leaves : List Uint256) : Uint256 × Bool :=
  if leaves.isEmpty then (0, false)
  else
    let (count, inner, mutated) := addLeaves H leaves 0 (fun _ => 0) false
    let level := lowestBit count 32 0
    (sweep H inner 32 count level (inner level), mutated)

def blockMerkleRoot (block : CBlock) : Uint256 × Bool :=
  computeMerkleRoot H (block.vtx.map (·.getHash H))

/-- The witness hash of the coinbase counts as zero. -/
def blockWitnessMerkleRoot (block : CBlock) : Uint256 × Bool :=
  computeMerkleRoot H (0 :: block.vtx.tail.map (·.getWitnessHash H))

end junkcoin
