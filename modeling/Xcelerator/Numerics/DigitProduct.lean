import Xcelerator.Numerics.ModularProduct

/-! # Residue products from three INT8 matrix products

A canonical residue is centred and split into two balanced base-128 digits. The
digit matrices and their sums are packed into zero-padded `i8` tiles, multiplied
by an integer GEMM, and the three products are recombined modulo the prime. The
GEMM is a parameter: it is given the operands and the output buffer it
overwrites. Packing and recombination overwrite reused buffers chunk by chunk,
so the stale content is an argument here. The parallel and the serial traversal
of the chunks do the same work and are one definition. -/

namespace Xcelerator.Numerics.DigitProduct
open Xcelerator.Foundations Machine ModularProduct

/-! ## Shapes -/

/-- `padded` and `padded_reduction`: complete tiles of `tile` elements. -/
def paddedTo (tile value : Nat) : Result Nat := do
  let sum ← context (usize? (value + (tile - 1))) "CUDA dimension overflow"
  let value := sum / tile * tile
  ensure (value ≤ 2 ^ 31 - 1) "padded matrix exceeds CUDA index domain"
  return value

def padded (value : Nat) : Result Nat := paddedTo 16 value
def paddedReduction (value : Nat) : Result Nat := paddedTo 32 value

structure PipelineShape where
  m : Nat
  k : Nat
  n : Nat
  pm : Nat
  pk : Nat
  pn : Nat
  a : Nat
  b : Nat
  c : Nat
deriving DecidableEq, Repr

def PipelineShape.new (m k n : Nat) : Result PipelineShape := do
  ensure (0 < m && 0 < k && 0 < n) "CUDA dimensions must be positive"
  let pm ← padded m
  let pk ← paddedReduction k
  let pn ← padded n
  ensure (pk * 127 * 127 ≤ 2 ^ 31 - 1) "CUDA integer accumulation domain exceeded"
  ensure (pk * (4096 + 128 * (16129 + 4096 + 3969) + 16384 * 3969) ≤ 2 ^ 63 - 1)
    "CUDA integer recombination domain exceeded"
  let a ← context (usize? (pm * pk)) "CUDA operand shape overflow"
  let b ← context (usize? (pk * pn)) "CUDA operand shape overflow"
  let c ← context (usize? (pm * pn)) "CUDA product shape overflow"
  ensure (3 * a ≤ 2 ^ 63 - 1 && 3 * b ≤ 2 ^ 63 - 1 && 12 * c ≤ 2 ^ 63 - 1)
    "CUDA pipeline storage overflow"
  return { m, k, n, pm, pk, pn, a, b, c }

/-! ## Digits -/

/-- `as i8`. -/
def asI8 (x : Int) : Int := (x + 128) % 256 - 128

/-- `i8::checked_add`. -/
def addI8? (a b : Int) : Option Int :=
  if -128 ≤ a + b ∧ a + b ≤ 127 then some (a + b) else none

/-- The low and the high digit of one entry. -/
def packEntry (message : String) (prime value : Nat) : Result (Int × Int) := do
  ensure (value < prime) message
  let r ← checked (centered value prime)
  let hi := (r + 64) / 128
  return (asI8 (r - 128 * hi), asI8 hi)

/-- The loop over one chunk, for the indices that remain. -/
def packDigits (message : String) (source : Nat → Checked Nat) (prime : Nat) :
    List Nat → List Int → List Int → Result (List Int × List Int)
  | [], low, high => .ok (low, high)
  | t :: rest, low, high => do
    let value ← checked (source t)
    let digits ← packEntry message prime value
    let low ← checked (write low t digits.1)
    let high ← checked (write high t digits.2)
    packDigits message source prime rest low high

/-- `xs[k..].fill(0)`. -/
def fillFrom (k : Nat) (xs : List Int) : Checked (List Int) :=
  if k ≤ xs.length then .ok (xs.take k ++ List.replicate (xs.length - k) 0) else .error .outOfBounds

def packChunk (message : String) (source : Nat → Nat → Checked Nat) (count k prime index : Nat)
    (low high : List Int) : Result (List Int × List Int) :=
  if index < count then do
    let digits ← packDigits message (source index) prime (List.range k) low high
    let low ← checked (fillFrom k digits.1)
    let high ← checked (fillFrom k digits.2)
    return (low, high)
  else return (List.replicate low.length 0, List.replicate high.length 0)

/-- `chunks_mut(size)`. -/
def chunks {α : Type} (size : Nat) (xs : List α) : List (List α) :=
  (List.range ((xs.length + size - 1) / size)).map fun i => (xs.drop (i * size)).take size

/-- Both packings: `count` chunks of `k` entries each, padded to `pk`. -/
def packAll (message : String) (source : Nat → Nat → Checked Nat) (count k pk prime : Nat)
    (low high : List Int) : Result (List Int × List Int) := do
  checked (assert (pk != 0))
  let packed ← ((chunks pk low).zip (chunks pk high)).zipIdx.mapM fun chunk =>
    packChunk message source count k prime chunk.2 chunk.1.1 chunk.1.2
  return (packed.flatMap Prod.fst, packed.flatMap Prod.snd)

def packLeft (input : List Nat) (k pk prime : Nat) (low high : List Int) :
    Result (List Int × List Int) := do
  let m ← checked (divide input.length k)
  packAll "noncanonical left residue" (fun i t => read input (i * k + t)) m k pk prime low high

def packRight (input : List Nat) (n pk prime : Nat) (low high : List Int) :
    Result (List Int × List Int) := do
  let k ← checked (divide input.length n)
  packAll "noncanonical right residue" (fun j t => read input (t * n + j)) n k pk prime low high

/-- `*sum = low.checked_add(*high)` over three buffers of one length. -/
def writeSums : List Int → List Int → List Int → Result (List Int)
  | _ :: sums, low :: lows, high :: highs => do
    let sum ← context (addI8? low high) "INT8 digit-sum overflow"
    let rest ← writeSums sums lows highs
    return sum :: rest
  | sums, _, _ => .ok sums

/-! ## Recombination -/

def recombineEntry (c0 c2 cs : List Int) (pm prime i j : Nat) : Checked Nat := do
  let index ← unsigned 64 (j * pm + i)
  let low ← read c0 index
  let high ← read c2 index
  let sum ← read cs index
  let cross ← signed 64 ((← signed 64 (sum - low)) - high)
  let middle ← signed 64 (low + (← signed 64 (128 * cross)))
  let value ← signed 64 (middle + (← signed 64 (16384 * high)))
  return (value % (prime : Int)).toNat % 2 ^ 16

def recombineProducts (c0 c2 cs : List Int) (pm n prime : Nat) (result : List Nat) :
    Checked (List Nat) := do
  assert (n != 0)
  let rows ← (chunks n result).zipIdx.mapM fun row =>
    (List.range row.1.length).mapM fun j => recombineEntry c0 c2 cs pm prime row.2 j
  return rows.flatten

/-! ## The serial engine -/

structure HostBuffers where
  a0 : List Int
  a1 : List Int
  b0 : List Int
  b1 : List Int
  c0 : List Int
  c2 : List Int
  cs : List Int

/-- The shape a serial engine is created with. -/
structure EngineShape where
  m : Nat
  k : Nat
  n : Nat
  pm : Nat
  pk : Nat
  pn : Nat
deriving DecidableEq, Repr

def EngineShape.new (m k n : Nat) : Result EngineShape := do
  let pm ← padded m
  let pk ← paddedReduction k
  let pn ← padded n
  return { m, k, n, pm, pk, pn }

section
variable (gemm : List Int → List Int → List Int → Result (List Int))

def productInBuffers (shape : EngineShape) (a b : List Nat) (prime : Nat) (host : HostBuffers) :
    Result (List Nat × HostBuffers) := do
  ensure (a.length == shape.m * shape.k && b.length == shape.k * shape.n)
    "CUDA residue shape mismatch"
  ensure (3 ≤ prime && prime ≤ 16191) "CUDA residue modulus outside exact encoding domain"
  ensure (shape.pk * 127 * 127 ≤ 2 ^ 31 - 1) "CUDA integer accumulation domain exceeded"
  let left ← packLeft a shape.k shape.pk prime host.a0 host.a1
  let right ← packRight b shape.n shape.pk prime host.b0 host.b1
  let c0 ← gemm left.1 right.1 host.c0
  let c2 ← gemm left.2 right.2 host.c2
  let asum ← writeSums left.1 left.1 left.2
  let bsum ← writeSums right.1 right.1 right.2
  let cs ← gemm asum bsum host.cs
  let result ← checked
    (recombineProducts c0 c2 cs shape.pm shape.n prime (List.replicate (shape.m * shape.n) 0))
  return (result, { a0 := asum, a1 := left.2, b0 := bsum, b1 := right.2, c0, c2, cs })

/-! ## The pipeline -/

def packDigitBatch (a b : List Nat) (prime : Nat) (shape : PipelineShape) (aa bb : List Int) :
    Result (List Int × List Int) := do
  ensure (a.length == shape.m * shape.k && b.length == shape.k * shape.n)
    "CUDA residue shape mismatch"
  ensure (3 ≤ prime && prime ≤ 16191) "CUDA residue modulus outside exact encoding domain"
  ensure (aa.length == 3 * shape.a && bb.length == 3 * shape.b) "CUDA digit batch shape mismatch"
  let left ← packLeft a shape.k shape.pk prime (aa.take shape.a) ((aa.drop shape.a).take shape.a)
  let right ← packRight b shape.n shape.pk prime (bb.take shape.b) ((bb.drop shape.b).take shape.b)
  let asum ← writeSums ((aa.drop shape.a).drop shape.a) left.1 left.2
  let bsum ← writeSums ((bb.drop shape.b).drop shape.b) right.1 right.2
  return (left.1 ++ left.2 ++ asum, right.1 ++ right.2 ++ bsum)

/-- The strided batch: three products of consecutive operands, stored one after
another. -/
def batchedGemm (shape : PipelineShape) (aa bb cc : List Int) : Result (List Int) := do
  let slice (size : Nat) (xs : List Int) (i : Nat) := (xs.drop (i * size)).take size
  let products ← (List.range 3).mapM fun i =>
    gemm (slice shape.a aa i) (slice shape.b bb i) (slice shape.c cc i)
  return products.flatten

/-- One lane: packing, transfer and batched product, and recombination of the
pinned result. -/
def pipelineProduct (shape : PipelineShape) (a b : List Nat) (prime : Nat) (aa bb cc : List Int) :
    Result (List Nat) := do
  let packed ← packDigitBatch a b prime shape aa bb
  let products ← batchedGemm gemm shape packed.1 packed.2 cc
  checked (recombineProducts (products.take shape.c) ((products.drop shape.c).take shape.c)
    (products.drop (2 * shape.c)) shape.pm shape.n prime (List.replicate (shape.m * shape.n) 0))

end

end Xcelerator.Numerics.DigitProduct
