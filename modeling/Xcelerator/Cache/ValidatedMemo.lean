import Mathlib
import Xcelerator.Foundations.LeastRecent
import Xcelerator.Foundations.Machine

/-! # The validated-value memo

Values kept for a run, under a budget of bytes, with the sequence numbers of
their last use. Each operation runs under the lock, so a run is a list of
operations. The sequence counter is 64 bits wide and its overflow ends a run. -/

namespace Xcelerator.Cache.ValidatedMemo
open Xcelerator.Foundations.Machine Xcelerator.Foundations

section
variable {TypeId Artifact Digest : Type} [DecidableEq TypeId] [DecidableEq Artifact]
    [DecidableEq Digest]
variable {Val : TypeId → Type}

structure Key (TypeId Artifact Digest : Type) where
  payloadType : TypeId
  valueType : TypeId
  artifact : Artifact
  payloadDigest : Digest
  context : String
deriving DecidableEq

/-- A value together with its dynamic type. -/
abbrev Any (Val : TypeId → Type) := (t : TypeId) × Val t

def downcast (t : TypeId) (value : Any Val) : Option (Val t) :=
  if h : value.1 = t then some (h ▸ value.2) else none

structure Entry (Val : TypeId → Type) where
  value : Any Val
  bytes : Nat
  sequence : Nat

structure Memo (Artifact Digest : Type) (Val : TypeId → Type) where
  entries : List (Key TypeId Artifact Digest × Entry Val)
  recency : List (Nat × Key TypeId Artifact Digest)
  retained : Nat
  next : Nat

structure Binding (Val : TypeId → Type) where
  payloadType : TypeId
  reuse : String
  stronger : List String
  size : Any Val → Option Nat

/-! ## Maps -/

def find (entries : List (Key TypeId Artifact Digest × Entry Val))
    (k : Key TypeId Artifact Digest) :
    Option (Entry Val) := (entries.find? fun entry => entry.1 = k).map Prod.snd

def remove (entries : List (Key TypeId Artifact Digest × Entry Val))
    (k : Key TypeId Artifact Digest) :
    List (Key TypeId Artifact Digest × Entry Val) := entries.filter fun entry => entry.1 ≠ k

def setSequence (entries : List (Key TypeId Artifact Digest × Entry Val))
    (k : Key TypeId Artifact Digest)
    (sequence : Nat) : List (Key TypeId Artifact Digest × Entry Val) :=
  entries.map fun entry => if entry.1 = k then (entry.1, { entry.2 with sequence := sequence }) else
    entry

/-- Insertion into the map that is ordered by sequence number. -/
def insertRecency (recency : List (Nat × Key TypeId Artifact Digest)) (sequence : Nat)
    (k : Key TypeId Artifact Digest) : List (Nat × Key TypeId Artifact Digest) :=
  (recency.filter fun r => r.1 < sequence) ++ (sequence, k) :: recency.filter fun r =>
    sequence < r.1

/-! ## Operations -/

def Binding.key (binding : Binding Val) (valueType : TypeId) (artifact : Artifact) (digest : Digest)
    (context : String) : Key TypeId Artifact Digest :=
  ⟨binding.payloadType, valueType, artifact, digest, context⟩

def Binding.lookup (binding : Binding Val) (valueType : TypeId) (artifact : Artifact)
    (digest : Digest)
    (m : Memo Artifact Digest Val) : Checked (Option (Val valueType) × Memo Artifact Digest Val) :=
  let candidates := (binding.reuse :: binding.stronger).map (binding.key valueType artifact digest)
  match candidates.find? fun k => (find m.entries k).isSome with
  | none => .ok (none, m)
  | some key => do
    let next ← unsigned 64 (m.next + 1)
    match find m.entries key with
    | none => return (none, { m with next := next })
    | some entry =>
      return (downcast valueType entry.value,
        { m with
          entries := setSequence m.entries key m.next
          recency := insertRecency (m.recency.filter fun r => r.1 ≠ entry.sequence) m.next key
          next := next })

structure Room (Artifact Digest : Type) (Val : TypeId → Type) where
  recency : List (Nat × Key TypeId Artifact Digest)
  entries : List (Key TypeId Artifact Digest × Entry Val)
  retained : Nat
  evicted : List (Entry Val)

/-- The eviction loop. With no recency left it stops whatever the budget is. -/
def makeRoom (maximum bytes : Nat) : List (Nat × Key TypeId Artifact Digest) →
    List (Key TypeId Artifact Digest × Entry Val) → Nat → List (Entry Val) →
    Checked (Room Artifact Digest Val)
  | [], entries, retained, evicted => .ok ⟨[], entries, retained, evicted⟩
  | (sequence, old) :: recency, entries, retained, evicted =>
    if bytes > maximum - retained then
      match find entries old with
      | some entry => do
        let retained ← subtract retained entry.bytes
        makeRoom maximum bytes recency (remove entries old) retained (evicted ++ [entry])
      | none => makeRoom maximum bytes recency entries retained evicted
    else .ok ⟨(sequence, old) :: recency, entries, retained, evicted⟩

def Binding.insert (binding : Binding Val) (maximum : Nat) (artifact : Artifact) (digest : Digest)
    (context : String) (value : Any Val) (m : Memo Artifact Digest Val) :
    Checked (Memo Artifact Digest Val) :=
  match binding.size value with
  | none => .ok m
  | some bytes =>
    if bytes > maximum then .ok m
    else
      let key := binding.key value.1 artifact digest context
      if (find m.entries key).isSome then .ok m
      else do
        let room ← makeRoom maximum bytes m.recency m.entries m.retained []
        let next ← unsigned 64 (m.next + 1)
        let retained ← unsigned 64 (room.retained + bytes)
        return {
          entries := (key, ⟨value, bytes, m.next⟩) :: room.entries
          recency := insertRecency room.recency m.next key
          retained := retained
          next := next }

def Memo.empty : Memo Artifact Digest Val := ⟨[], [], 0, 0⟩

inductive Operation (Artifact Digest : Type) (Val : TypeId → Type) where
  | lookup (binding : Binding Val) (valueType : TypeId) (artifact : Artifact) (digest : Digest)
  | insert (binding : Binding Val) (artifact : Artifact) (digest : Digest) (context : String)
      (value : Any Val)
  | clear

def step (maximum : Nat) (m : Memo Artifact Digest Val) : Operation Artifact Digest Val →
    Checked (Memo Artifact Digest Val)
  | .lookup binding valueType artifact digest => do
    let (_, m) ← binding.lookup valueType artifact digest m
    return m
  | .insert binding artifact digest context value =>
    binding.insert maximum artifact digest context value m
  | .clear => .ok .empty

/-- The operations of one memo, in the order in which they took the lock. -/
def run (maximum : Nat) (operations : List (Operation Artifact Digest Val)) :
    Checked (Memo Artifact Digest Val) :=
  operations.foldlM (step maximum) .empty

/-! ## What the memo is for -/

/-- A stored value without its sequence number. -/
structure Item (Artifact Digest : Type) (Val : TypeId → Type) where
  key : Key TypeId Artifact Digest
  value : Any Val
  bytes : Nat

/-- A cache of items in the order of their last use. -/
abbrev Recent (Artifact Digest : Type) (Val : TypeId → Type) := List (Item Artifact Digest Val)

def Recent.find (items : Recent Artifact Digest Val) (k : Key TypeId Artifact Digest) :
    Option (Item Artifact Digest Val) :=
  items.find? fun item => item.key = k

def Recent.candidate (items : Recent Artifact Digest Val) (binding : Binding Val)
    (valueType : TypeId)
    (artifact : Artifact) (digest : Digest) : Option (Key TypeId Artifact Digest) :=
  ((binding.reuse :: binding.stronger).map (binding.key valueType artifact digest)).find? fun k =>
    (items.find k).isSome

def Recent.step (maximum : Nat) (items : Recent Artifact Digest Val) :
    Operation Artifact Digest Val →
    Recent Artifact Digest Val
  | .lookup binding valueType artifact digest =>
    match items.candidate binding valueType artifact digest with
    | none => items
    | some k => LeastRecent.touch Item.key k items
  | .insert binding artifact digest context value =>
    match binding.size value with
    | none => items
    | some bytes =>
      if bytes > maximum ∨ (items.find (binding.key value.1 artifact digest context)).isSome then
        items
      else LeastRecent.makeRoom Item.bytes maximum bytes items ++
        [⟨binding.key value.1 artifact digest context, value, bytes⟩]
  | .clear => []

end

end Xcelerator.Cache.ValidatedMemo
