import Mathlib
import Xcelerator.Numerics.ModularProduct

/-! # The dynamic schedule of the CUDA residue products

Each admitted device is driven by a worker of its own. A worker keeps one
reserved prime index and claims further ones from a shared atomic counter, one
or two at a time. Initialisation, product and cleanup are parameters. Only the
claims touch shared state, so an interleaving is the order in which the workers
take their turns: a schedule is a list of workers, and a turn is an
initialisation, a claim with what follows it up to the next product, or a
product with the recording of its results. -/

namespace Xcelerator.Numerics.CudaScheduler
open Xcelerator.Foundations Machine ModularProduct

/-- A prime index and the outcome of its product. -/
abbrev IndexedCudaResidue := Nat × Result (List Nat)

structure CudaDeviceBatch where
  ordinal : Nat
  batch : List IndexedCudaResidue
  finished : Result Unit

structure CudaDeviceWork where
  ordinal : Nat
  successfulModuli : Nat
deriving DecidableEq, Repr

def isOk {α : Type} (x : Result α) : Bool :=
  match x with
  | .ok _ => true
  | .error _ => false

/-! ## Collection -/

/-- `sort_unstable_by_key`: the order is unique as long as no index repeats. -/
def sortByIndex (indexed : List IndexedCudaResidue) : List IndexedCudaResidue :=
  indexed.insertionSort fun x y => x.1 ≤ y.1

def expectIndex (entry : IndexedCudaResidue × Nat) : Result (List Nat) := do
  ensure (entry.1.1 == entry.2) "CUDA scheduler duplicated a residue"
  entry.1.2

def collectCudaResidues (batches : List (Result CudaDeviceBatch)) (moduli : Nat) :
    Result (List (List Nat) × List CudaDeviceWork) := do
  let batches ← batches.mapM id
  let work := batches.map fun b => ⟨b.ordinal, (b.batch.filter fun e => isOk e.2).length⟩
  let indexed := sortByIndex (batches.flatMap CudaDeviceBatch.batch)
  ensure (indexed.length == moduli) "CUDA scheduler omitted a residue"
  let residues ← indexed.zipIdx.mapM expectIndex
  let _ ← batches.mapM CudaDeviceBatch.finished
  return (residues, work)

/-! ## Workers -/

/-- Where the worker of one device stands. -/
inductive Worker (E : Type) where
  | waiting
  | claiming (engine : E) (indices : List Nat) (batch : List IndexedCudaResidue)
  | computing (engine : E) (indices : List Nat) (batch : List IndexedCudaResidue)
  | done (result : Result CudaDeviceBatch)

structure Scheduler (E : Type) (d : Nat) where
  next : Nat
  workers : Fin d → Worker E

/-- `start..start.saturating_add(take).min(moduli)`. -/
def claimed (start take moduli : Nat) : List Nat :=
  let stop := min (min (start + take) (2 ^ 64 - 1)) moduli
  List.range' start (stop - start)

/-- What a batch call records; a malformed reply fails every claimed prime. -/
def recorded (indices : List Nat) (values : List (Result (List Nat))) : List IndexedCudaResidue :=
  if values.length = indices.length then indices.zip values
  else indices.map fun index => (index, .error (.refused
    s!"CUDA batch returned {values.length} results for {indices.length} residues"))

/-- The three callbacks; `init` is the source's `initialize`. -/
structure Callbacks (E : Type) where
  init : Nat → Result E
  products : E → List Nat → E × List (Result (List Nat))
  finish : E → Result Unit

section
variable {E : Type} (devices : List Nat) (moduli batchSize : Nat) (callbacks : Callbacks E)

/-- One turn of the worker of device `first`, with the counter before and after. -/
def turn (first : Fin devices.length) (next : Nat) : Worker E → Nat × Worker E
  | .waiting =>
    match callbacks.init (devices.get first) with
    | .ok engine => (next, .claiming engine [first.val] [])
    | .error error => (next, .done (.error error))
  | .claiming engine indices batch =>
    let take := batchSize - indices.length
    -- the atomic fetch_add wraps
    let next' := if 0 < take then (next + take) % 2 ^ 64 else next
    let indices := if 0 < take then indices ++ claimed next take moduli else indices
    if indices.isEmpty then (next', .done (.ok ⟨devices.get first, batch, callbacks.finish engine⟩))
    else (next', .computing engine indices batch)
  | .computing engine indices batch =>
    let reply := callbacks.products engine indices
    (next, .claiming reply.1 [] (batch ++ recorded indices reply.2))
  | .done result => (next, .done result)

def turnOf (s : Scheduler E devices.length) (first : Fin devices.length) :
    Scheduler E devices.length :=
  let result := turn devices moduli batchSize callbacks first s.next (s.workers first)
  ⟨result.1, Function.update s.workers first result.2⟩

/-- The scheduler after a sequence of turns. -/
def run (schedule : List (Fin devices.length)) : Scheduler E devices.length :=
  schedule.foldl (turnOf devices moduli batchSize callbacks)
    ⟨devices.length, fun _ => .waiting⟩

def Worker.result? : Worker E → Option (Result CudaDeviceBatch)
  | .done result => some result
  | _ => none

/-- The batches in device order, once every worker is done. -/
def batches {d : Nat} (s : Scheduler E d) : Option (List (Result CudaDeviceBatch)) :=
  (List.finRange d).mapM fun first => (s.workers first).result?

/-- The outcome under a schedule; `none` while a worker still has turns to take. -/
def scheduledResidueBatches (schedule : List (Fin devices.length)) :
    Option (Result (List (List Nat) × List CudaDeviceWork)) :=
  let admitted : Result Unit := do
    ensure (!devices.isEmpty) "CUDA scheduler has no admitted device"
    ensure (batchSize == 1 || batchSize == 2) "CUDA scheduler batch size must be 1 or 2"
    ensure (devices.length ≤ moduli) "CUDA scheduler has more devices than residues"
  match admitted with
  | .error error => some (.error error)
  | .ok _ => (batches (run devices moduli batchSize callbacks schedule)).map
      (collectCudaResidues · moduli)

end

end Xcelerator.Numerics.CudaScheduler
