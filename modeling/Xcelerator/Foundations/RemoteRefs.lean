import Mathlib.Logic.Function.Basic
import Mathlib.Tactic.Cases

/-! A remote of named refs over immutable commits. A commit is its parent and
its whole tree; refs move by creation, compare-and-swap, atomic compare-and-swap
of several refs, and deletion at an expected head. The identifier of a new
commit is an argument: the store is content-addressed, so the one thing known of
it is that no stored commit has it (`Fresh`). -/

namespace Xcelerator.Foundations.RemoteRefs

structure Commit (Id Path Doc : Type) where
  parent : Option Id
  files : Path → Option Doc

structure Remote (Id Branch Path Doc : Type) where
  refs : Branch → Option Id
  commits : Id → Option (Commit Id Path Doc)

/-- What a new tree changes: the parts written, then the paths removed. -/
structure Edit (Path Doc : Type) where
  parts : List (Path × Doc)
  deletePaths : List Path

structure Request (Id Branch Path Doc : Type) where
  branch : Branch
  expectedHead : Id
  edit : Edit Path Doc

variable {Id Branch Path Doc : Type}

namespace Remote
variable (remote : Remote Id Branch Path Doc)

def Fresh (id : Id) : Prop := remote.commits id = none

/-- The file at a path of a commit. -/
def file (id : Id) (path : Path) : Option Doc :=
  (remote.commits id).bind fun commit => commit.files path

/-- `ancestor` is on the chain of parents that ends in `id`. -/
inductive Ancestor (ancestor : Id) : Id → Prop where
  | self : Ancestor ancestor ancestor
  | parent {id parent commit} (h : remote.commits id = some commit)
      (hp : commit.parent = some parent)
    (ha : Ancestor ancestor parent) : Ancestor ancestor id

/-- Commits are never changed or removed. -/
def Extends (later : Remote Id Branch Path Doc) : Prop :=
  ∀ id commit, remote.commits id = some commit → later.commits id = some commit

variable {remote} {later : Remote Id Branch Path Doc}

theorem Extends.file_eq (h : remote.Extends later) {id : Id} {path : Path} {doc : Doc}
    (hf : remote.file id path = some doc) : later.file id path = some doc := by
  obtain ⟨commit, hc, hd⟩ := Option.bind_eq_some_iff.mp hf
  rw [file, h _ _ hc]
  exact hd

theorem Extends.known (h : remote.Extends later) {id : Id} (hk : ¬ remote.Fresh id) :
    ¬ later.Fresh id := by
  intro hf
  refine hk ?_
  cases hc : remote.commits id with
  | none => exact hc
  | some commit =>
    have hl := h _ _ hc
    rw [hf] at hl
    cases hl

theorem Extends.ancestor (h : remote.Extends later) {a b : Id} (ha : remote.Ancestor a b) :
    later.Ancestor a b := by
  induction ha with
  | self => exact .self
  | parent hc hp _ ih => exact .parent (h _ _ hc) hp ih

theorem Ancestor.trans {a b c : Id} (hab : remote.Ancestor a b) (hbc : remote.Ancestor b c) :
    remote.Ancestor a c := by
  induction hbc with
  | self => exact hab
  | parent hc hp _ ih => exact .parent hc hp ih

end Remote

/-! ## Operations -/

variable [DecidableEq Id] [DecidableEq Branch] [DecidableEq Path]

def Edit.apply (edit : Edit Path Doc) (files : Path → Option Doc) (path : Path) : Option Doc :=
  match edit.parts.lookup path with
  | some doc => some doc
  | none => if path ∈ edit.deletePaths then none else files path

namespace Remote
variable (remote : Remote Id Branch Path Doc)

/-- A new commit on a branch. -/
def advance (branch : Branch) (parent : Option Id) (edit : Edit Path Doc) (id : Id) :
    Remote Id Branch Path Doc where
  refs := Function.update remote.refs branch (some id)
  commits := Function.update remote.commits id (some {
    parent
    files := edit.apply fun path => parent.bind fun parent => remote.file parent path })

/-- A root commit, where the branch does not exist; `none` where it does. -/
def createIfAbsent (branch : Branch) (edit : Edit Path Doc) (id : Id) :
    Option (Remote Id Branch Path Doc) :=
  match remote.refs branch with
  | none => some (remote.advance branch none edit id)
  | some _ => none

/-- A child of the expected head, where the branch is at it; `none` on a conflict. -/
def compareAndSwap (request : Request Id Branch Path Doc) (id : Id) :
    Option (Remote Id Branch Path Doc) :=
  if remote.refs request.branch = some request.expectedHead then
    some (remote.advance request.branch (some request.expectedHead) request.edit id)
  else none

/-- Two refs moved together, or neither. -/
def compareAndSwapBoth (first second : Request Id Branch Path Doc) (firstId secondId : Id) :
    Option (Remote Id Branch Path Doc) :=
  if first.branch ≠ second.branch ∧ remote.refs first.branch = some first.expectedHead ∧
      remote.refs second.branch = some second.expectedHead then
    some ((remote.advance first.branch (some first.expectedHead) first.edit firstId).advance
      second.branch (some second.expectedHead) second.edit secondId)
  else none

def deleteIfHead (branch : Branch) (expectedHead : Id) : Option (Remote Id Branch Path Doc) :=
  if remote.refs branch = some expectedHead then
    some { remote with refs := Function.update remote.refs branch none }
  else none

end Remote

open Remote
variable {remote later : Remote Id Branch Path Doc}

/-! ## What one operation does -/

theorem createIfAbsent_some {branch : Branch} {edit : Edit Path Doc} {id : Id}
    (h : remote.createIfAbsent branch edit id = some later) :
    remote.refs branch = none ∧ later = remote.advance branch none edit id := by
  unfold createIfAbsent at h
  split at h
  · exact ⟨‹_›, (Option.some.inj h).symm⟩
  · cases h

theorem compareAndSwap_some {request : Request Id Branch Path Doc} {id : Id}
    (h : remote.compareAndSwap request id = some later) :
    remote.refs request.branch = some request.expectedHead ∧
      later = remote.advance request.branch (some request.expectedHead) request.edit id := by
  unfold compareAndSwap at h
  split at h
  · exact ⟨‹_›, (Option.some.inj h).symm⟩
  · cases h

theorem compareAndSwapBoth_some {first second : Request Id Branch Path Doc} {firstId secondId : Id}
    (h : remote.compareAndSwapBoth first second firstId secondId = some later) :
    first.branch ≠ second.branch ∧ remote.refs first.branch = some first.expectedHead ∧
      remote.refs second.branch = some second.expectedHead ∧
      later = (remote.advance first.branch (some first.expectedHead) first.edit firstId).advance
        second.branch (some second.expectedHead) second.edit secondId := by
  unfold compareAndSwapBoth at h
  split at h
  · rename_i hc
    exact ⟨hc.1, hc.2.1, hc.2.2, (Option.some.inj h).symm⟩
  · cases h

omit [DecidableEq Path] in
theorem deleteIfHead_some {branch : Branch} {head : Id}
    (h : remote.deleteIfHead branch head = some later) :
    remote.refs branch = some head ∧
      later = { remote with refs := Function.update remote.refs branch none } := by
  unfold deleteIfHead at h
  split at h
  · exact ⟨‹_›, (Option.some.inj h).symm⟩
  · cases h

@[simp] theorem advance_refs_self (branch : Branch) (parent : Option Id) (edit : Edit Path Doc)
    (id : Id) : (remote.advance branch parent edit id).refs branch = some id := by
  simp [advance]

theorem advance_refs_of_ne {branch other : Branch} (h : other ≠ branch) (parent : Option Id)
    (edit : Edit Path Doc) (id : Id) :
    (remote.advance branch parent edit id).refs other = remote.refs other := by
  simp [advance, h]

@[simp] theorem advance_commits_self (branch : Branch) (parent : Option Id) (edit : Edit Path Doc)
    (id : Id) :
    (remote.advance branch parent edit id).commits id = some {
      parent
      files := edit.apply fun path => parent.bind fun parent => remote.file parent path } := by
  simp [advance]

theorem advance_extends {id : Id} (hf : remote.Fresh id) (branch : Branch) (parent : Option Id)
    (edit : Edit Path Doc) : remote.Extends (remote.advance branch parent edit id) := by
  intro old commit h
  have hne : old ≠ id := by
    rintro rfl
    rw [hf] at h
    cases h
  simpa [advance, hne] using h

theorem Remote.Fresh.advance {id other : Id} (hf : remote.Fresh id) (hne : id ≠ other)
    (branch : Branch) (parent : Option Id) (edit : Edit Path Doc) :
    (remote.advance branch parent edit other).Fresh id := by
  simpa [Fresh, Remote.advance, hne] using hf

/-- The tree of a new commit. -/
theorem advance_file_self (branch : Branch) (parent : Option Id) (edit : Edit Path Doc) (id : Id)
    (path : Path) :
    (remote.advance branch parent edit id).file id path =
      edit.apply (fun path => parent.bind fun parent => remote.file parent path) path := by
  rw [file, advance_commits_self]
  rfl

/-- The old head of a branch stays in the history of a new commit on it. -/
theorem advance_ancestor {id head : Id} (branch : Branch) (edit : Edit Path Doc) :
    (remote.advance branch (some head) edit id).Ancestor head id :=
  .parent (advance_commits_self _ _ _ _) rfl .self

end Xcelerator.Foundations.RemoteRefs
