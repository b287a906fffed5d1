import Mathlib
import Xcelerator.Foundations.Machine
import Xcelerator.Foundations.PairwiseTree

/-! # Deterministic reductions

The canonical adjacent-pair sum, built level by level, and the reusable scratch
that forms it in place with strides and, on several workers, in blocks of 128
leaves. `F p` are the floats of precision `p`; their addition is any operation. -/

namespace Xcelerator.Numerics.PairwiseReduction
open Xcelerator.Foundations.Machine Xcelerator.Foundations.PairwiseTree

/-! ## Floats -/

/-- What the reductions use of a float library. Re-reading a value at its own precision copies
it. -/
structure Arithmetic (F : Nat → Type) where
  zero : (p : Nat) → F p
  withVal : (p : Nat) → {q : Nat} → F q → F p
  add : {p : Nat} → F p → F p → F p
  abs : {p : Nat} → F p → F p
  withVal_self : ∀ (p : Nat) (x : F p), withVal p x = x

structure Float (F : Nat → Type) where
  prec : Nat
  value : F prec

section
variable {F : Nat → Type} (A : Arithmetic F) {p : Nat}

/-! ## Fresh levels -/

def sumPair : List (F p) → Checked (F p)
  | [] => .error .outOfBounds
  | [left] => .ok left
  | left :: right :: _ => .ok (A.add left right)

def pairLevels : Nat → List (F p) → Checked (List (F p))
  | 0, level => .ok level
  | fuel + 1, level =>
    if 1 < level.length then do
      let next ← (chunks 2 level).mapM (sumPair A)
      pairLevels fuel next
    else .ok level

def pop (level : List (F p)) : Checked (F p) :=
  match level.getLast? with
  | some root => .ok root
  | none => .error .failedAssertion

/-- The levels shrink, so as many rounds as there are values empty the loop. -/
def deterministicPairwiseSumHp (values : List (Float F)) (precisionBits : Nat) :
    Checked (F precisionBits) :=
  if values.isEmpty then .ok (A.zero precisionBits)
  else do
    let level ← pairLevels A values.length (values.map fun value =>
      A.withVal precisionBits value.value)
    pop level

def consume : List (F p) → List (F p)
  | [] => []
  | [left] => [left]
  | left :: right :: leaves => A.add left right :: consume leaves

def ownedLevels : Nat → List (F p) → List (F p)
  | 0, values => values
  | fuel + 1, values => if 1 < values.length then ownedLevels fuel (consume A values) else values

/-- A leaf of another precision is read again at the one of the sum. -/
def atPrecision (precisionBits : Nat) (value : Float F) : F precisionBits :=
  if h : value.prec = precisionBits then h ▸ value.value else A.withVal precisionBits value.value

def deterministicPairwiseSumHpOwned (values : List (Float F)) (precisionBits : Nat) :
    Checked (F precisionBits) :=
  if values.isEmpty then .ok (A.zero precisionBits)
  else pop (ownedLevels A values.length (values.map (atPrecision A precisionBits)))

/-! ## In place -/

/-- One update of a pass: `split_at_mut`, then a slot of the left part from one of the right
part. -/
structure Update where
  accumulate : Bool
  split : Nat
  destination : Nat
  offset : Nat

def Update.source (update : Update) : Nat := update.split + update.offset

def Update.apply (values : List (F p)) (update : Update) : Checked (List (F p)) :=
  if update.split ≤ values.length ∧ update.destination < update.split then do
    let old ← read values update.destination
    let source ← read values update.source
    write values update.destination (if update.accumulate then A.add old source else source)
  else .error .outOfBounds

def pairUpdates (count stride i : Nat) : List Update :=
  ⟨false, 2 * i * stride, i * stride, 0⟩ ::
    if 2 * i + 1 < count then [⟨true, 2 * i * stride, i * stride, stride⟩] else []

/-- The updates of one pass, in order. -/
def passUpdates (count stride : Nat) : List Update :=
  ⟨true, stride, 0, 0⟩ :: (List.range' 1 ((count + 1) / 2 - 1)).flatMap (pairUpdates count stride)

def pass (values : List (F p)) (count stride : Nat) : Checked (List (F p)) :=
  (passUpdates count stride).foldlM (Update.apply A) values

def reduceStrided (values : List (F p)) (count stride : Nat) : Checked (List (F p)) :=
  if 1 < count then do
    let values ← pass A values count stride
    reduceStrided values ((count + 1) / 2) stride
  else .ok values
termination_by count
decreasing_by omega

/-! ## The scratch -/

structure PairwiseScratch (F : Nat → Type) (p : Nat) where
  values : List (F p)
  absoluteValues : List (F p)

def PairwiseScratch.new (F : Nat → Type) (p : Nat) : PairwiseScratch F p := ⟨[], []⟩

def resizeWith (values : List (F p)) (length : Nat) : List (F p) :=
  values ++ List.replicate (length - values.length) (A.zero p)

/-- The closure on each slot of a slice that starts at the given leaf. -/
def writeLeaves (leaf : Nat → F p → F p) (start : Nat) (slots : List (F p)) : List (F p) :=
  slots.mapIdx fun offset slot => leaf (start + offset) slot

def PairwiseScratch.sumBy (scratch : PairwiseScratch F p) (length : Nat) (leaf : Nat → F p → F p) :
    Checked (F p × PairwiseScratch F p) :=
  if length = 0 then .ok (A.zero p, scratch)
  else do
    let resized := if scratch.values.length < length then resizeWith A scratch.values length else
      scratch.values
    let values := writeLeaves leaf 0 (resized.take length) ++ resized.drop length
    let values ← reduceStrided A values length 1
    let result ← read values 0
    return (result, { scratch with values := values })

/-- Each block on its own slice; the slices are disjoint, so their order does not matter. -/
def reduceBlocks (leaf : Nat → F p → F p) (blockSize : Nat) (slots : List (F p)) :
    Checked (List (F p)) := do
  let blocks ← ((chunks blockSize slots).zipIdx).mapM fun block => do
    let values := writeLeaves leaf (block.2 * blockSize) block.1
    reduceStrided A values values.length 1
  return blocks.flatten

def block : Nat := 128

def PairwiseScratch.sumByIndexed (scratch : PairwiseScratch F p) (threads length : Nat)
    (leaf : Nat → F p → F p) : Checked (F p × PairwiseScratch F p) :=
  if length < 512 ∨ threads = 1 then scratch.sumBy A length leaf
  else do
    let resized := resizeWith A scratch.values (max scratch.values.length length)
    let reduced ← reduceBlocks A leaf block (resized.take length)
    let values ← reduceStrided A (reduced ++ resized.drop length)
      ((length + block - 1) / block) block
    let result ← read values 0
    return (result, { scratch with values := values })

def evaluate (leaf : Nat → F p → F p) (start : Nat) (slots absoluteSlots : List (F p)) :
    Checked (List (F p) × List (F p)) := do
  let values := writeLeaves leaf start slots
  let absolute := List.zipWith (fun value _ => A.abs (A.withVal p value)) values absoluteSlots
  let values ← reduceStrided A values values.length 1
  let absolute ← reduceStrided A absolute absolute.length 1
  return (values, absolute)

def evaluateBlocks (leaf : Nat → F p → F p) (blockSize : Nat) (slots absoluteSlots : List (F p)) :
    Checked (List (F p) × List (F p)) := do
  let blocks ← (((chunks blockSize slots).zip (chunks blockSize absoluteSlots)).zipIdx).mapM
      fun block =>
    evaluate A leaf (block.2 * blockSize) block.1.1 block.1.2
  return ((blocks.map Prod.fst).flatten, (blocks.map Prod.snd).flatten)

def PairwiseScratch.sumByWithAbsolute (scratch : PairwiseScratch F p) (threads length : Nat)
    (parallel : Bool) (leaf : Nat → F p → F p) : Checked ((F p × F p) × PairwiseScratch F p) :=
  if length = 0 then .ok ((A.zero p, A.zero p), scratch)
  else do
    let values := resizeWith A scratch.values (max scratch.values.length length)
    let absolute := resizeWith A scratch.absoluteValues (max scratch.absoluteValues.length length)
    let blockSize := if parallel ∧ length ≥ 512 ∧ threads > 1 then 128 else length
    let reduced ←
      if blockSize = length then evaluate A leaf 0 (values.take length) (absolute.take length)
      else evaluateBlocks A leaf blockSize (values.take length) (absolute.take length)
    let blocks := (length + blockSize - 1) / blockSize
    let values ← reduceStrided A (reduced.1 ++ values.drop length) blocks blockSize
    let absolute ← reduceStrided A (reduced.2 ++ absolute.drop length) blocks blockSize
    let sum ← read values 0
    let absoluteSum ← read absolute 0
    return ((sum, absoluteSum), ⟨values, absolute⟩)

end

end Xcelerator.Numerics.PairwiseReduction
