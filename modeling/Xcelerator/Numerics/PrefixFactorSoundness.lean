import Mathlib
import Xcelerator.Numerics.PrefixFactor

/-! # The factorization schedules agree

Both schedules build every row by the same recurrence over the accepted rows, so
a row is the same list whenever it is tested, and only tested rows are returned. -/

namespace Xcelerator.Numerics.PrefixFactor
open Xcelerator.Foundations.Machine Xcelerator.Foundations.PairwiseTree
  Xcelerator.Numerics.PairwiseReduction

section
variable {F : Nat → Type} (S : Scalars F) {d p : Nat}

/-! ## The recurrence -/

def terms (row diagonal pivotRow : List (F p)) (k : Nat) : List (F p) :=
  (List.range k).map fun i => S.mul (S.mul (slot S row i) (slot S diagonal i)) (slot S pivotRow i)

/-- The factor entry below the pivot `k`, from the earlier entries of its row and of the pivot
row. -/
def entry (matrix : Matrix F d) (diagonal pivotRow row : List (F p)) (j k : Nat) : F p :=
  S.div (S.sub (matrix.cell S p j k) (treeSum S.toArithmetic (terms S row diagonal pivotRow k)))
    (slot S diagonal k)

/-- The first entries of the row `j`, from the accepted rows and pivots. -/
def rowPrefix (matrix : Matrix F d) (lower : List (List (F p))) (diagonal : List (F p)) (j : Nat) :
    Nat → List (F p)
  | 0 => []
  | k + 1 => rowPrefix matrix lower diagonal j k ++
      [entry S matrix diagonal (lower.getD k []) (rowPrefix matrix lower diagonal j k) j k]

@[simp] theorem length_rowPrefix (matrix : Matrix F d) (lower : List (List (F p)))
    (diagonal : List (F p)) (j k : Nat) : (rowPrefix S matrix lower diagonal j k).length = k := by
  induction k with
  | zero => rfl
  | succ k ih => rw [rowPrefix, List.length_append, ih, List.length_singleton]

theorem slot_append {row : List (F p)} (rest : List (F p)) {i : Nat} (h : i < row.length) :
    slot S (row ++ rest) i = slot S row i := by
  rw [slot, slot, List.getD_append _ _ _ _ h]

theorem terms_congr {row row' diagonal diagonal' pivotRow : List (F p)} {k : Nat}
    (hrow : ∀ i < k, slot S row i = slot S row' i)
    (hdiagonal : ∀ i < k, slot S diagonal i = slot S diagonal' i) :
    terms S row diagonal pivotRow k = terms S row' diagonal' pivotRow k := by
  refine List.map_congr_left fun i hi => ?_
  rw [hrow i (List.mem_range.mp hi), hdiagonal i (List.mem_range.mp hi)]

/-- Accepting another row changes nothing before it. -/
theorem rowPrefix_append (matrix : Matrix F d) {lower : List (List (F p))} {diagonal : List (F p)}
    (hlength : diagonal.length = lower.length) (pivotRow : List (F p)) (pivot : F p)
    (j : Nat) {k : Nat} (hk : k ≤ lower.length) :
    rowPrefix S matrix (lower ++ [pivotRow]) (diagonal ++ [pivot]) j k =
      rowPrefix S matrix lower diagonal j k := by
  induction k with
  | zero => rfl
  | succ k ih =>
    have hslot : ∀ i ≤ k, slot S (diagonal ++ [pivot]) i = slot S diagonal i :=
      fun i hi => slot_append S _ (by omega)
    rw [rowPrefix, rowPrefix, ih (by omega), entry, entry, List.getD_append _ _ _ _ (by omega),
      hslot k le_rfl, terms_congr S (fun _ _ => rfl) fun i hi => hslot i (by omega)]

/-! ## Inner sums -/

theorem writes_leaf (row diagonal pivotRow : List (F p)) (k : Nat) :
    Writes (leaf S row diagonal pivotRow) (terms S row diagonal pivotRow k) := by
  intro i hi _
  simp [leaf, terms, S.withVal_self]

theorem length_terms (row diagonal pivotRow : List (F p)) (k : Nat) :
    (terms S row diagonal pivotRow k).length = k := by
  rw [terms, List.length_map, List.length_range]

theorem indexedSum_ok (scratch : PairwiseScratch F p) (threads : Nat)
    (row diagonal pivotRow : List (F p)) (k : Nat) :
    ∃ later, scratch.sumByIndexed S.toArithmetic threads k (leaf S row diagonal pivotRow) =
      .ok (treeSum S.toArithmetic (terms S row diagonal pivotRow k), later) := by
  have h := sumByIndexed_eq S.toArithmetic scratch threads (writes_leaf S row diagonal pivotRow k)
  rwa [length_terms] at h

theorem serialSum_ok (scratch : PairwiseScratch F p) (row diagonal pivotRow : List (F p))
    (k : Nat) :
    ∃ later, scratch.sumBy S.toArithmetic k (leaf S row diagonal pivotRow) =
      .ok (treeSum S.toArithmetic (terms S row diagonal pivotRow k), later) := by
  have h := sumBy_eq S.toArithmetic scratch (writes_leaf S row diagonal pivotRow k)
  rwa [length_terms] at h

/-! ## Pivots -/

/-- The test of a pivot reads the row before its diagonal only. -/
theorem inspectPivot_append (matrix : Matrix F d) (margin : Nat) {row : List (F p)}
    (rest diagonal : List (F p)) :
    inspectPivot S matrix margin (row ++ rest) diagonal row.length =
      inspectPivot S matrix margin row diagonal row.length := by
  have hcorrections : ((List.range row.length).map fun i =>
    S.mul (S.square (slot S (row ++ rest) i)) (slot S diagonal i)) =
      (List.range row.length).map fun i => S.mul (S.square (slot S row i)) (slot S diagonal i) :=
    List.map_congr_left fun i hi => by rw [slot_append S rest (List.mem_range.mp hi)]
  rw [inspectPivot, inspectPivot, hcorrections]

/-- A pivot test fails only where the margin exceeds the precision. -/
theorem inspectPivot_error {matrix : Matrix F d} {margin j : Nat} {row diagonal : List (F p)}
    {failure : Failure}
    (h : inspectPivot S matrix margin row diagonal j = .error failure) : p < margin := by
  by_contra hmargin
  simp only [inspectPivot, sum, deterministicPairwiseSumHpOwned_eq, lift, ok_bind,
    subtract_ok (Nat.le_of_not_lt hmargin)] at h
  split at h <;> cases h

/-! ## By rows -/

/-- What the first entries of a row come to: the failure of the first that is not finite, or all of
them. -/
theorem rowEntries_spec (matrix : Matrix F d) (threads j : Nat) (lower : List (List (F p)))
    (diagonal : List (F p)) (scratch : PairwiseScratch F p) {k : Nat} (hk : k ≤ j) :
    match (rowPrefix S matrix lower diagonal j k).findIdx? (fun value => !S.isFinite value) with
    | some i => (List.range k).foldlM (rowEntry S matrix threads j lower diagonal)
        (List.replicate (j + 1) (S.zero p), scratch) = .error (.nonfinite j i)
    | none => ∃ later, (List.range k).foldlM (rowEntry S matrix threads j lower diagonal)
        (List.replicate (j + 1) (S.zero p), scratch) =
        .ok (rowPrefix S matrix lower diagonal j k ++ List.replicate (j + 1 - k) (S.zero p),
            later) := by
  induction k with
  | zero => exact ⟨scratch, rfl⟩
  | succ k ih =>
    have hprevious := ih (by omega)
    rw [rowPrefix, List.findIdx?_append, List.range_succ, List.foldlM_append]
    cases hfind : (rowPrefix S matrix lower diagonal j k).findIdx? (fun value =>
      !S.isFinite value) with
    | some i =>
      rw [hfind] at hprevious
      simp only [hprevious, error_bind, Option.some_or]
    | none =>
      rw [hfind] at hprevious
      obtain ⟨later, hlater⟩ := hprevious
      obtain ⟨next, hnext⟩ := indexedSum_ok S later threads
        (rowPrefix S matrix lower diagonal j k ++ List.replicate (j + 1 - k) (S.zero p)) diagonal
          (lower.getD k []) k
      have hterms : terms S (rowPrefix S matrix lower diagonal j k ++ List.replicate (j + 1 - k)
        (S.zero p)) diagonal
          (lower.getD k []) k = terms S (rowPrefix S matrix lower diagonal j k) diagonal
              (lower.getD k []) k :=
        terms_congr S (fun i hi => slot_append S _ (by simpa using hi)) fun _ _ => rfl
      have hset : ∀ value : F p,
        (rowPrefix S matrix lower diagonal j k ++ List.replicate (j + 1 - k) (S.zero p)).set k
          value = rowPrefix S matrix lower diagonal j k ++ [value] ++
              List.replicate (j + 1 - (k + 1)) (S.zero p) := by
        intro value
        rw [List.set_append_right _ _ (by simp), length_rowPrefix, Nat.sub_self,
          show j + 1 - k = j + 1 - (k + 1) + 1 by omega, List.replicate_succ, List.set_cons_zero,
          List.append_assoc]
        rfl
      have hstep : rowEntry S matrix threads j lower diagonal
          (rowPrefix S matrix lower diagonal j k ++ List.replicate (j + 1 - k) (S.zero p),
            later) k =
          if S.isFinite (entry S matrix diagonal (lower.getD k [])
              (rowPrefix S matrix lower diagonal j k) j k) then
            .ok (rowPrefix S matrix lower diagonal j k ++
              [entry S matrix diagonal (lower.getD k [])
              (rowPrefix S matrix lower diagonal j k) j k] ++
              List.replicate (j + 1 - (k + 1)) (S.zero p), next)
          else .error (.nonfinite j k) := by
        simp only [rowEntry, hnext, lift, ok_bind, hterms, hset]
        rfl
      rw [hlater, ok_bind, List.foldlM_cons, hstep]
      by_cases hfinite : S.isFinite
        (entry S matrix diagonal (lower.getD k []) (rowPrefix S matrix lower diagonal j k) j k)
      · rw [if_pos hfinite]
        simp only [List.findIdx?_singleton, hfinite]
        exact ⟨next, rfl⟩
      · have hnot := Bool.eq_false_iff.mpr hfinite
        rw [if_neg hfinite]
        simp only [List.findIdx?_singleton, hnot]
        simp

/-! ## By columns -/

/-- The column `k` in consecutive rows from `start`. -/
def extended (matrix : Matrix F d) (k : Nat) (diagonal pivotRow : List (F p)) (start : Nat)
    (rows : List (List (F p))) :
    List (List (F p)) :=
  rows.mapIdx fun i row => row ++ [entry S matrix diagonal pivotRow row (start + i) k]

theorem columnRows_ok (matrix : Matrix F d) (threads k : Nat) (diagonal pivotRow : List (F p))
    (parallelInner : Bool)
    (start : Nat) (rows : List (List (F p))) (scratch : PairwiseScratch F p) :
    ∃ later, columnRows S matrix threads k diagonal pivotRow parallelInner start rows scratch =
      .ok (extended S matrix k diagonal pivotRow start rows, later) := by
  induction rows generalizing start scratch with
  | nil => exact ⟨scratch, rfl⟩
  | cons row rows ih =>
    have hentry : ∃ later, columnEntry S matrix threads k diagonal pivotRow parallelInner start
      row scratch =
        .ok (row ++ [entry S matrix diagonal pivotRow row start k], later) := by
      cases parallelInner with
      | true =>
        obtain ⟨later, hlater⟩ := indexedSum_ok S scratch threads row diagonal pivotRow k
        exact ⟨later, by simp only [columnEntry, if_pos, hlater, lift, ok_bind]; rfl⟩
      | false =>
        obtain ⟨later, hlater⟩ := serialSum_ok S scratch row diagonal pivotRow k
        exact ⟨later, by simp only [columnEntry, Bool.false_eq_true, if_false, hlater,
          lift, ok_bind]; rfl⟩
    obtain ⟨next, hnext⟩ := hentry
    obtain ⟨later, hlater⟩ := ih (start + 1) next
    refine ⟨later, ?_⟩
    simp only [columnRows, hnext, ok_bind, hlater, extended, List.mapIdx_cons, Nat.add_zero]
    simp only [Nat.add_comm, Nat.add_left_comm]
    rfl

theorem columnPending_ok (matrix : Matrix F d) (threads k : Nat) (diagonal pivotRow : List (F p))
    (pending : List (List (F p))) (workers : List (PairwiseScratch F p))
    (scratch : PairwiseScratch F p)
    (hworkers : (pending.length + rowBlock - 1) / rowBlock ≤ workers.length) :
    ∃ workers' scratch', columnPending S matrix threads k diagonal pivotRow pending
      workers scratch =
      .ok (extended S matrix k diagonal pivotRow (k + 1) pending, workers', scratch') ∧
      workers'.length = workers.length := by
  have hpositive : 0 < rowBlock := by decide
  rw [columnPending]
  split
  · have hlength := length_chunks hpositive pending
    have hblock : ∀ block ∈ ((chunks rowBlock pending).zip workers).zipIdx, ∃ result,
        columnRows S matrix threads k diagonal pivotRow false
          (k + 1 + block.2 * rowBlock) block.1.1 block.1.2 =
          .ok result ∧ result.1 = extended S matrix k diagonal pivotRow
              (k + 1 + block.2 * rowBlock) block.1.1 := by
      intro block _
      obtain ⟨later, hlater⟩ :=
        columnRows_ok S matrix threads k diagonal pivotRow false
          (k + 1 + block.2 * rowBlock) block.1.1 block.1.2
      exact ⟨_, hlater, rfl⟩
    obtain ⟨results, hresults, hall⟩ := mapM_exists hblock
    have hfirsts : results.map Prod.fst = (((chunks rowBlock pending).zip workers).zipIdx).map
        fun block =>
        extended S matrix k diagonal pivotRow (k + 1 + block.2 * rowBlock) block.1.1 := by
      rw [← List.forall₂_eq_eq_eq, List.forall₂_map_left_iff, List.forall₂_map_right_iff]
      exact hall
    have hzip : ((((chunks rowBlock pending).zip workers).zipIdx).map fun block =>
        extended S matrix k diagonal pivotRow (k + 1 + block.2 * rowBlock) block.1.1) =
        (chunks rowBlock pending).zipIdx.map fun block =>
          block.1.mapIdx fun i row =>
            row ++ [entry S matrix diagonal pivotRow row (k + 1 + (block.2 * rowBlock + i)) k] := by
      refine List.ext_getElem (by simp; omega) fun i _ _ => ?_
      simp [extended, Nat.add_assoc]
    have hflat : (results.map Prod.fst).flatten = extended S matrix k diagonal pivotRow
        (k + 1) pending := by
      rw [hfirsts, hzip, mapIdx_chunks (fun i row =>
        row ++ [entry S matrix diagonal pivotRow row (k + 1 + i) k])
        hpositive, flatten_chunks hpositive, Nat.zero_mul]
      simp only [extended, Nat.zero_add]
    have hcount : results.length = (chunks rowBlock pending).length := by
      rw [hall.length_eq, List.length_zipIdx, List.length_zip]
      omega
    have hdrop : (chunks rowBlock pending).drop workers.length = [] :=
      List.drop_of_length_le (by omega)
    refine ⟨results.map Prod.snd ++ workers.drop (chunks rowBlock pending).length, scratch, ?_, ?_⟩
    · simp only [hresults, ok_bind, hdrop, hflat, List.flatten_nil, List.append_nil]
      rfl
    · rw [List.length_append, List.length_map, List.length_drop]
      omega
  · obtain ⟨later, hlater⟩ :=
      columnRows_ok S matrix threads k diagonal pivotRow true (k + 1) pending scratch
    exact ⟨workers, later, by rw [hlater]; rfl, rfl⟩

/-- The columns before `k` are formed in every row, from the accepted ones. -/
structure Formed (matrix : Matrix F d) (k : Nat) (state : ColumnState F p) : Prop where
  rows : state.lower.length = d
  accepted : state.diagonal.length = k
  pending : ∀ j, k ≤ j → j < d →
    state.lower[j]? = some (rowPrefix S matrix (state.lower.take k) state.diagonal j k)
  workers : state.workers.length = (d + rowBlock - 1) / rowBlock

/-- Accepting the pivot `k` and forming its column. -/
theorem Formed.accept {matrix : Matrix F d} {k : Nat} {state : ColumnState F p}
    (h : Formed S matrix k state)
    (hk : k < d) (pivot scale : F p) {workers : List (PairwiseScratch F p)}
    (scratch : PairwiseScratch F p) (hworkers : workers.length = state.workers.length) :
    Formed S matrix (k + 1) ⟨state.lower.take k ++ (state.lower.getD k [] ++ [S.one p]) ::
      extended S matrix k (state.diagonal ++ [pivot]) (state.lower.getD k [] ++ [S.one p]) (k + 1)
        (state.lower.drop (k + 1)), state.diagonal ++ [pivot], state.scales ++ [scale], workers,
        scratch⟩ := by
  have htake : (state.lower.take k).length = k := by rw [List.length_take, h.rows]; omega
  have hextended : ∀ rows : List (List (F p)), (extended S matrix k (state.diagonal ++ [pivot])
      (state.lower.getD k [] ++ [S.one p]) (k + 1) rows).length = rows.length :=
        fun rows => by simp [extended]
  have haccepted : (state.lower.take k ++ (state.lower.getD k [] ++ [S.one p]) ::
      extended S matrix k (state.diagonal ++ [pivot]) (state.lower.getD k [] ++ [S.one p]) (k + 1)
        (state.lower.drop (k + 1))).take (k + 1) = state.lower.take k ++
            [state.lower.getD k [] ++ [S.one p]] := by
    rw [List.take_append, htake, List.take_of_length_le (by omega), Nat.add_sub_cancel_left,
      List.take_succ_cons, List.take_zero]
  refine ⟨?_, by simp [h.accepted], ?_, by rw [hworkers, h.workers]⟩
  · simp only [List.length_append, List.length_cons, hextended, htake, List.length_drop, h.rows]
    omega
  · intro j hj hjd
    have hrow := h.pending j (by omega) hjd
    have hget : (state.lower.drop (k + 1))[j - (k + 1)]? =
        some (rowPrefix S matrix (state.lower.take k) state.diagonal j k) := by
      rw [List.getElem?_drop, show k + 1 + (j - (k + 1)) = j by omega, hrow]
    simp only
    rw [haccepted, List.getElem?_append_right (by omega), htake, show j - k = j - (k + 1) + 1 by
      omega, List.getElem?_cons_succ, extended, List.getElem?_mapIdx, hget, Option.map_some,
      show k + 1 + (j - (k + 1)) = j by omega, rowPrefix,
      rowPrefix_append S matrix (by rw [h.accepted, htake]) _ pivot j (by omega),
      List.getD_append_right _ _ _ _ (by omega), htake, Nat.sub_self]
    rfl

/-! ## Agreement -/

/-- The accepted rows, pivots and scales are the same, and so is the reason to stop. -/
structure SameFactorization (rows columns : Factorization F p) : Prop where
  diagonal : rows.diagonal = columns.diagonal
  scales : rows.scales = columns.scales
  stopped : rows.stopped = columns.stopped
  lower : rows.lower.take rows.diagonal.length = columns.lower
  accepted : columns.lower.length = columns.diagonal.length

/-- Two schedules end alike: the same failure, or the same accepted prefix. -/
def Agree (margin : Nat) (rows columns : Except Failure (Factorization F p)) : Prop :=
  (∃ failure, rows = .error failure ∧ columns = .error failure ∧
    ((∃ row column, failure = .nonfinite row column) ∨ p < margin)) ∨
  ∃ f g, rows = .ok f ∧ columns = .ok g ∧ SameFactorization f g

theorem loops_agree (matrix : Matrix F d) (rowThreads columnThreads margin remaining k : Nat)
    (state : ColumnState F p) (scratch : PairwiseScratch F p) (hk : k + remaining = d)
    (h : Formed S matrix k state) :
    Agree margin
      (rowLoop S matrix rowThreads margin remaining k
        (state.lower.take k) state.diagonal state.scales scratch)
      (columnLoop S matrix columnThreads margin remaining k state) := by
  induction remaining generalizing k state scratch with
  | zero =>
    refine .inr ⟨_, _, rfl, rfl, rfl, rfl, rfl, ?_, ?_⟩
    · simp only
      rw [h.accepted, List.take_take, Nat.min_self]
    · simp only
      rw [List.length_take, h.rows, h.accepted]
      omega
  | succ remaining ih =>
    have hlt : k < d := by omega
    have hrow : state.lower.getD k [] =
        rowPrefix S matrix (state.lower.take k) state.diagonal k k := by
      rw [List.getD_eq_getElem?_getD, h.pending k le_rfl hlt, Option.getD_some]
    have hentries := rowEntries_spec S matrix rowThreads k
      (state.lower.take k) state.diagonal scratch (le_refl k)
    rw [rowLoop, columnLoop]
    simp only [hrow]
    cases hfind : (rowPrefix S matrix (state.lower.take k) state.diagonal k k).findIdx?
        (fun value => !S.isFinite value) with
    | some i =>
      rw [hfind] at hentries
      simp only at hentries
      rw [hentries]
      exact .inl ⟨.nonfinite k i, rfl, rfl, .inl ⟨k, i, rfl⟩⟩
    | none =>
      rw [hfind] at hentries
      obtain ⟨later, hlater⟩ := hentries
      have hinspect := @inspectPivot_append _ S d p matrix margin
        (rowPrefix S matrix (state.lower.take k)
        state.diagonal k k) (List.replicate (k + 1 - k) (S.zero p)) state.diagonal
      rw [length_rowPrefix] at hinspect
      simp only [hlater, ok_bind, hinspect]
      cases hpivot : inspectPivot S matrix margin
        (rowPrefix S matrix (state.lower.take k) state.diagonal k k)
          state.diagonal k with
      | error failure => exact .inl ⟨failure, rfl, rfl, .inr (inspectPivot_error S hpivot)⟩
      | ok pivot =>
        cases pivot with
        | stop stop =>
          refine .inr ⟨_, _, rfl, rfl, rfl, rfl, rfl, ?_, ?_⟩
          · simp only
            rw [h.accepted, List.take_append_of_le_length (by rw [List.length_take, h.rows]; omega),
              List.take_take, Nat.min_self]
          · simp only
            rw [List.length_take, h.rows, h.accepted]
            omega
        | accept pivot scale =>
          have hset : (rowPrefix S matrix (state.lower.take k) state.diagonal k k ++
              List.replicate (k + 1 - k) (S.zero p)).set k (S.one p) =
              rowPrefix S matrix (state.lower.take k) state.diagonal k k ++ [S.one p] := by
            rw [List.set_append_right _ _ (by simp), length_rowPrefix, Nat.sub_self,
              Nat.add_sub_cancel_left]
            rfl
          have hblocks : ((state.lower.drop (k + 1)).length + rowBlock - 1) / rowBlock ≤
              state.workers.length := by
            rw [h.workers, List.length_drop, h.rows]
            exact Nat.div_le_div_right (by omega)
          obtain ⟨workers, next, hpending, hworkers⟩ := columnPending_ok S matrix columnThreads k
            (state.diagonal ++ [pivot]) (state.lower.getD k [] ++ [S.one p])
            (state.lower.drop (k + 1)) state.workers
            state.scratch hblocks
          have hformed := h.accept S hlt pivot scale next hworkers
          rw [hrow] at hpending hformed
          simp only [hset, ok_bind, hpending]
          have hrest := ih (k + 1) _ later (by omega) hformed
          have htake : (state.lower.take k).length = k := by rw [List.length_take, h.rows]; omega
          simp only at hrest
          rwa [List.take_append, htake, List.take_of_length_le (by omega), Nat.add_sub_cancel_left,
            List.take_succ_cons, List.take_zero] at hrest

/-- **Schedules.** Whatever the scalar operations and the numbers of workers are, both schedules
fail at the same entry or return the same accepted prefix. -/
theorem schedules_agree (matrix : Matrix F d) (rowThreads columnThreads margin : Nat) :
    Agree margin (rowMajor S matrix p rowThreads margin)
    (columnMajor S matrix p columnThreads margin) := by
  have hformed : Formed S matrix 0
      (⟨List.replicate d [], [], [], List.replicate ((d + rowBlock - 1) / rowBlock) (.new F p),
        .new F p⟩ :
        ColumnState F p) := by
    refine ⟨List.length_replicate, rfl, fun j _ hj => ?_, List.length_replicate⟩
    rw [List.getElem?_replicate_of_lt hj]
    rfl
  exact loops_agree S matrix rowThreads columnThreads margin d 0 _ (.new F p) (by omega) hformed

end

end Xcelerator.Numerics.PrefixFactor
