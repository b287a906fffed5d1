import Mathlib
import Xcelerator.Numerics.ResidueTreeSoundness

/-! # The modular product is the integer product

`plan_ok` collects what the preflight has checked before the tree is built:
shapes, the index bound, and a modulus above twice every possible entry. From
there `modularEntries_ok` follows one entry through conversion, the centred
residue kernel, reconstruction and signed recentring. -/

namespace Xcelerator.Numerics.ModularProductSoundness
open Xcelerator.Foundations Machine Xcelerator.Numerics.ModularProduct
open Xcelerator.Numerics.ResidueTreeSoundness

/-! ## The residue kernel -/

/-- The balanced representative as an integer. -/
def balanced (p v : Nat) : Int := if v > p / 2 then (v : Int) - p else v

theorem centered_ok {v p : Nat} (hp : p ≤ 16191) (hv : v < p) :
    centered v p = .ok (balanced p v) := by
  unfold centered balanced
  split
  · exact signed_ok (by omega) (by omega)
  · rfl

theorem balanced_modEq (p v : Nat) : balanced p v ≡ v [ZMOD p] := by
  unfold balanced
  split
  · simp [Int.ModEq]
  · rfl

theorem balanced_abs {v p : Nat} (hp : p ≤ 16191) (hv : v < p) : |balanced p v| ≤ 8095 := by
  unfold balanced
  rw [abs_le]
  split <;> constructor <;> omega

/-- The dot product of row `i` and column `j` over the indices listed. -/
def dot (aa bb : List Int) (i k n j : Nat) (ts : List Nat) : Int :=
  (ts.map fun t => aa.getD (i * k + t) 0 * bb.getD (t * n + j) 0).sum

theorem dotLoop_ok {aa bb : List Int} {i k n j : Nat} (ha : ∀ t < k, i * k + t < aa.length)
    (hb : ∀ t < k, t * n + j < bb.length) (haa : ∀ x ∈ aa, |x| ≤ 8095) (hbb : ∀ x ∈ bb, |x| ≤ 8095)
    {ts : List Nat} (hts : ∀ t ∈ ts, t < k) (acc : Int)
    (hacc : |acc| + ts.length * 65529025 < 2 ^ 63) :
    dotLoop aa bb i k n j ts acc = .ok (acc + dot aa bb i k n j ts) := by
  induction ts generalizing acc with
  | nil => simp [dotLoop, dot]
  | cons t ts ih =>
    have ht := hts t (by simp)
    generalize hterm : aa.getD (i * k + t) 0 * bb.getD (t * n + j) 0 = term
    have hxy : |term| ≤ 65529025 := by
      rw [← hterm, abs_mul]
      calc _ ≤ (8095 : Int) * 8095 := mul_le_mul (haa _ (getD_mem 0 (ha t ht)))
            (hbb _ (getD_mem 0 (hb t ht))) (abs_nonneg _) (by norm_num)
        _ = 65529025 := by norm_num
    have hstep : |acc + term| ≤ |acc| + |term| := abs_add_le acc term
    rw [List.length_cons] at hacc
    push_cast at hacc
    have hlen : (0 : Int) ≤ ts.length := by positivity
    obtain ⟨h1, h2⟩ := abs_le.mp hxy
    obtain ⟨h3, h4⟩ := abs_le.mp (le_refl |acc + term|)
    have h5 := abs_nonneg acc
    rw [dotLoop, read_getD 0 (ha t ht), ok_bind, read_getD 0 (hb t ht), ok_bind, hterm,
      signed_ok (by omega) (by omega), ok_bind,
      signed_ok (by omega) (by omega), ok_bind,
      ih (fun u hu => hts u (by simp [hu])) _ (by omega)]
    rw [dot, dot, List.map_cons, List.sum_cons, hterm, Int.add_assoc]

/-- The entry `(i, j)` of the product of two row-major matrices. -/
def productEntry (a b : List Int) (inner columns i j : Nat) : Int :=
  ∑ t ∈ Finset.range inner, a.getD (i * inner + t) 0 * b.getD (t * columns + j) 0

theorem dot_eq_productEntry (a b : List Int) (inner columns i j : Nat) :
    dot a b i inner columns j (List.range inner) = productEntry a b inner columns i j := by
  rfl

theorem productEntry_modEq {a b c d : List Int} (inner columns i j : Nat) {m : Int}
    (ha : ∀ x, a.getD x 0 ≡ c.getD x 0 [ZMOD m]) (hb : ∀ x, b.getD x 0 ≡ d.getD x 0 [ZMOD m]) :
    productEntry a b inner columns i j ≡ productEntry c d inner columns i j [ZMOD m] := by
  refine Int.modEq_iff_dvd.mpr ?_
  unfold productEntry
  rw [← Finset.sum_sub_distrib]
  exact Finset.dvd_sum fun t _ => ((ha _).mul (hb _)).dvd

theorem getD_map_modEq {xs : List Int} {f : Int → Int} {m : Int} (h : ∀ x, f x ≡ x [ZMOD m])
    (h0 : f 0 = 0) (i : Nat) : (xs.map f).getD i 0 ≡ xs.getD i 0 [ZMOD m] := by
  rw [← h0, List.getD_map, h0]
  exact h _

/-- The exact product, row-major. -/
def exactEntries (left right : List Int) (rows inner columns : Nat) : List Int :=
  (List.range (rows * columns)).map fun e =>
    productEntry left right inner columns (e / columns) (e % columns)

/-- The residue of the exact product entry. -/
def entryResidue (left right : List Int) (inner columns i j p : Nat) : Nat :=
  (productEntry left right inner columns i j % (p : Int)).toNat

/-- The residues of a matrix modulo one prime. -/
def residueMatrix (values : List Int) (p : Nat) : List Nat :=
  values.map fun v => signedResidue v.natAbs (decide (v < 0)) p

/-- **The residue kernel.** On canonical residues no product and no partial sum
leaves `i64`, and each output is the residue of the exact entry. -/
theorem cpuResidueProduct_ok {left right : List Int} {m k n p : Nat} (hp3 : 3 ≤ p) (hp : p ≤ 16191)
    (hl : left.length = m * k) (hr : right.length = k * n) (hk : k ≤ 2 ^ 31)
    (hmn : m * n < 2 ^ 64) :
    cpuResidueProduct (residueMatrix left p) (residueMatrix right p) m k n p =
      .ok ((List.range (m * n)).map fun e => entryResidue left right k n (e / n) (e % n) p) := by
  have hcenter : ∀ values : List Int, (residueMatrix values p).mapM (centered · p) =
      .ok (values.map fun v => balanced p (signedResidue v.natAbs (decide (v < 0)) p)) := by
    intro values
    rw [mapM_ok (g := balanced p), residueMatrix, List.map_map]
    · rfl
    · intro v hv
      obtain ⟨x, _, rfl⟩ := List.mem_map.mp hv
      exact centered_ok hp (signedResidue_lt _ _ (by omega))
  have habs : ∀ values : List Int,
      ∀ x ∈ values.map fun v => balanced p (signedResidue v.natAbs (decide (v < 0)) p),
        |x| ≤ 8095 := by
    intro values x hx
    obtain ⟨v, _, rfl⟩ := List.mem_map.mp hx
    exact balanced_abs hp (signedResidue_lt _ _ (by omega))
  have hcong : ∀ (values : List Int) (i : Nat),
      (values.map fun v => balanced p (signedResidue v.natAbs (decide (v < 0)) p)).getD i 0 ≡
        values.getD i 0 [ZMOD p] := by
    intro values
    refine getD_map_modEq (fun v =>
      (balanced_modEq _ _).trans (signedResidue_modEq v (by omega))) ?_
    simp [signedResidue, balanced]
  unfold cpuResidueProduct
  rw [hcenter, ok_bind, hcenter, ok_bind, unsigned_ok hmn, ok_bind]
  refine mapM_ok fun e he => ?_
  have he := List.mem_range.mp he
  have hn : 0 < n := Nat.pos_of_ne_zero (by rintro rfl; simp at he)
  have hrow : e / n < m := Nat.div_lt_of_lt_mul (by rwa [Nat.mul_comm])
  have hcol : e % n < n := Nat.mod_lt _ hn
  rw [dotLoop_ok (by
      intro t ht
      rw [List.length_map, hl]
      calc e / n * k + t < e / n * k + k := by omega
        _ = (e / n + 1) * k := by ring
        _ ≤ m * k := Nat.mul_le_mul_right _ hrow) (by
      intro t ht
      rw [List.length_map, hr]
      calc t * n + e % n < t * n + n := by omega
        _ = (t + 1) * n := by ring
        _ ≤ k * n := Nat.mul_le_mul_right _ ht) (habs left) (habs right)
    (fun t ht => List.mem_range.mp ht) 0 (by rw [List.length_range]; simp; omega), ok_bind,
    Int.zero_add, dot_eq_productEntry]
  have hmod := productEntry_modEq k n (e / n) (e % n) (hcong left) (hcong right)
  rw [hmod.eq]
  have hlt : (productEntry left right k n (e / n) (e % n) % (p : Int)).toNat < 2 ^ 16 := by
    have := Int.emod_lt_of_pos (productEntry left right k n (e / n) (e % n)) (b := p) (by omega)
    omega
  rw [Nat.mod_eq_of_lt hlt]
  rfl


/-! ## The product -/

theorem converted_ok {primes : List Nat} {tree : Tree} (hr : Represents primes 0 tree)
    (hm : Moduli primes) (values : List Int) :
    converted values tree primes.length = .ok (values.map fun v =>
      primes.map (signedResidue v.natAbs (decide (v < 0)))) := by
  refine mapM_ok fun v _ => ?_
  rw [residues_ok hr hm _ _ (by simp)]
  simp [splice]

/-- The residues of the whole product modulo one prime, in entry order. -/
def residueRow (left right : List Int) (rows inner columns p : Nat) : List Nat :=
  (List.range (rows * columns)).map fun e =>
    entryResidue left right inner columns (e / columns) (e % columns) p

theorem cpuResidues_ok {primes : List Nat} (hm : Moduli primes) {left right : List Int}
    {rows inner columns : Nat} (hl : left.length = rows * inner)
    (hr : right.length = inner * columns) (hk : inner ≤ 2 ^ 31) (hcount : rows * columns < 2 ^ 64) :
    cpuResidues (left.map fun v => primes.map (signedResidue v.natAbs (decide (v < 0))))
        (right.map fun v => primes.map (signedResidue v.natAbs (decide (v < 0)))) primes
        rows inner columns =
      .ok (primes.map (residueRow left right rows inner columns)) := by
  have hcolumn : ∀ (values : List Int) (p index : Nat), primes[index]? = some p →
      (values.map fun v => primes.map (signedResidue v.natAbs (decide (v < 0)))).mapM
        (read · index) = .ok (residueMatrix values p) := by
    intro values p index hp
    rw [mapM_ok (g := fun row => row.getD index 0)]
    · simp [residueMatrix, Function.comp_def, hp]
    · intro row hrow
      obtain ⟨v, _, rfl⟩ := List.mem_map.mp hrow
      exact read_getD 0 (by simpa using (List.getElem?_eq_some_iff.mp hp).1)
  unfold cpuResidues
  rw [mapM_ok (g := residueRow left right rows inner columns ∘ Prod.fst), ← List.map_map,
    List.zipIdx_map_fst]
  rintro ⟨p, index⟩ hmem
  have hp : primes[index]? = some p := List.mem_zipIdx_iff_getElem?.mp hmem
  obtain ⟨h3, hb⟩ := hm.bounded p (List.mem_of_getElem? hp)
  dsimp only
  rw [hcolumn left p index hp, ok_bind, hcolumn right p index hp, ok_bind,
    cpuResidueProduct_ok h3 hb hl hr hk hcount]
  rfl

/-- One entry's residues, one per prime, are a column of the table. -/
theorem column_residueRow {primes : List Nat} (hm : Moduli primes) (left right : List Int)
    {rows columns e : Nat} (inner : Nat) (he : e < rows * columns) :
    Column (primes.map (residueRow left right rows inner columns)) e 0 primes.length
      fun k => entryResidue left right inner columns (e / columns) (e % columns)
        (primes.getD k 0) := by
  intro k _ hk
  rw [Nat.zero_add] at hk
  obtain ⟨h3, hb⟩ := hm.bounded _ (getD_mem 0 hk)
  constructor
  · have hrow : (primes.map (residueRow left right rows inner columns))[k]? =
        some (residueRow left right rows inner columns (primes.getD k 0)) := by
      rw [List.getElem?_map, List.getElem?_eq_getElem hk, List.getD_eq_getElem _ _ hk]
      rfl
    rw [residueAt, read_ok hrow, ok_bind]
    exact read_ok (by simp [residueRow, he])
  · have hlt := Int.emod_lt_of_pos
      (productEntry left right inner columns (e / columns) (e % columns))
      (b := primes.getD k 0) (by omega)
    show entryResidue left right inner columns (e / columns) (e % columns)
      (primes.getD k 0) < 2 ^ 16
    unfold entryResidue
    omega

/-- Entries are no larger than the bound the modulus was chosen for. -/
theorem productEntry_le {left right : List Int} {maxA maxB : Nat} (inner columns i j : Nat)
    (ha : ∀ v ∈ left, v.natAbs ≤ maxA) (hb : ∀ v ∈ right, v.natAbs ≤ maxB) :
    (productEntry left right inner columns i j).natAbs ≤ maxA * maxB * inner := by
  have hget : ∀ (xs : List Int) (m : Nat), (∀ v ∈ xs, v.natAbs ≤ m) →
      ∀ k, (xs.getD k 0).natAbs ≤ m := by
    intro xs m h k
    rcases Nat.lt_or_ge k xs.length with hk | hk
    · exact h _ (getD_mem 0 hk)
    · simp [List.getElem?_eq_none hk]
  have hterm : ∀ t, (left.getD (i * inner + t) 0 * right.getD (t * columns + j) 0).natAbs ≤
      maxA * maxB := fun t => by
    rw [Int.natAbs_mul]
    exact Nat.mul_le_mul (hget left maxA ha _) (hget right maxB hb _)
  have hsum : |productEntry left right inner columns i j| ≤
      ∑ _t ∈ Finset.range inner, (maxA * maxB : Int) := by
    refine (Finset.abs_sum_le_sum_abs _ _).trans (Finset.sum_le_sum fun t _ => ?_)
    rw [← Int.natCast_natAbs]
    exact_mod_cast hterm t
  rw [Finset.sum_const, Finset.card_range, nsmul_eq_mul, ← Int.natCast_natAbs] at hsum
  rw [Nat.mul_comm]
  exact_mod_cast hsum

/-- **Signed recentring.** A value below the modulus congruent to a small signed
number gives that number back. -/
theorem recentred {x M : Nat} {T : Int} (hx : x < M) (hT : 2 * T.natAbs < M)
    (h : (x : Int) ≡ T [ZMOD M]) : (if x > M / 2 then (x : Int) - M else x) = T := by
  obtain ⟨q, hq⟩ := h.dvd
  have hq1 : q < 1 := by
    by_contra hcon
    have : (M : Int) * 1 ≤ M * q := mul_le_mul_of_nonneg_left (by omega) (by omega)
    omega
  have hq2 : -2 < q := by
    by_contra hcon
    have : (M : Int) * q ≤ M * (-2) := mul_le_mul_of_nonneg_left (by omega) (by omega)
    omega
  obtain rfl | rfl : q = 0 ∨ q = -1 := by omega
  · rw [if_neg (by omega)]; omega
  · rw [if_pos (by omega)]; omega

/-- Every planned computation succeeds and returns the exact product. -/
theorem modularEntries_ok {left right : List Int} {rows inner columns : Nat} {plan : Plan}
    {tree : Tree} (hrep : Represents plan.primes 0 tree) (hm : Moduli plan.primes)
    (hmod : plan.modulus = plan.primes.prod) (hcount : plan.count = rows * columns)
    (hc64 : rows * columns < 2 ^ 64) (hl : left.length = rows * inner)
    (hr : right.length = inner * columns) (hk : inner ≤ 2 ^ 31)
    (hbound : ∀ i j, 2 * (productEntry left right inner columns i j).natAbs < plan.modulus) :
    modularEntries left right rows inner columns plan tree =
      .ok (exactEntries left right rows inner columns) := by
  unfold modularEntries
  rw [converted_ok hrep hm, ok_bind, converted_ok hrep hm, ok_bind, cpuResidues_ok hm hl hr hk hc64,
    ok_bind, hcount]
  refine mapM_ok fun e he => ?_
  obtain ⟨x, hx, hlt, hdigits⟩ := reconstruct_ok hrep hm
    (column_residueRow hm left right inner (List.mem_range.mp he))
  unfold reconstructed
  rw [hx, ok_bind, hmod]
  refine congrArg Except.ok (recentred hlt (hmod ▸ hbound _ _) (modulus_modEq hm fun p hp => ?_))
  obtain ⟨i, hi⟩ := List.getElem?_of_mem hp
  have hp0 : (p : Int) ≠ 0 := by exact_mod_cast (hm.prime p hp).pos.ne'
  have hd := Int.natCast_modEq_iff.mpr (hdigits i p hi)
  dsimp only at hd
  rw [Nat.zero_add, List.getD_eq_getElem?_getD, hi, Option.getD_some, entryResidue,
    Int.toNat_of_nonneg (Int.emod_nonneg _ hp0)] at hd
  exact hd.trans (Int.mod_modEq _ _)

/-- What a successful plan has checked. -/
structure Planned (left right : List Int) (rows inner columns : Nat) (plan : Plan) : Prop where
  left_length : left.length = rows * inner
  right_length : right.length = inner * columns
  count : plan.count = rows * columns
  count_lt : rows * columns < 2 ^ 64
  inner_le : inner ≤ 2 ^ 31
  moduli : Moduli plan.primes
  nonempty : plan.primes ≠ []
  modulus : plan.modulus = plan.primes.prod
  entry_le : ∀ i j, (productEntry left right inner columns i j).natAbs ≤ plan.bound / 2
  bound_lt : plan.bound < plan.modulus

theorem ensure_ok {condition : Bool} {message : String} {u : Unit}
    (h : ensure condition message = .ok u) : condition = true := by
  unfold ensure at h
  split at h
  · assumption
  · cases h

theorem context_ok {α : Type} {x : Option α} {message : String} {a : α}
    (h : context x message = .ok a) : x = some a := by
  cases x with
  | none => cases h
  | some b => cases h; rfl

theorem expect_ok {α : Type} {x : Option α} {a : α} (h : expect x = .ok a) : x = some a := by
  cases x with
  | none => cases h
  | some b => cases h; rfl

theorem usize_eq_some {x y : Nat} (h : usize? x = some y) : y = x ∧ x < 2 ^ 64 := by
  unfold usize? at h
  split at h
  · exact ⟨(Option.some.inj h).symm, ‹_›⟩
  · cases h

theorem natAbs_le_max {xs : List Int} {m : Nat} (h : (xs.map Int.natAbs).max? = some m) :
    ∀ v ∈ xs, v.natAbs ≤ m := by
  intro v hv
  exact (List.max?_eq_some_iff.mp h).2 _ (List.mem_map_of_mem hv)

theorem plan_ok {left right : List Int} {rows inner columns : Nat} {limits : ProductLimits}
    {p : Plan} (h : plan left right rows inner columns limits = .ok p) :
    Planned left right rows inner columns p := by
  unfold plan at h
  obtain ⟨_, _, h⟩ := bind_eq_ok h
  obtain ⟨_, _, h⟩ := bind_eq_ok h
  obtain ⟨_, hshape, h⟩ := bind_eq_ok h
  obtain ⟨count, hcount, h⟩ := bind_eq_ok h
  obtain ⟨_, _, h⟩ := bind_eq_ok h
  obtain ⟨padded, hpadded, h⟩ := bind_eq_ok h
  obtain ⟨_, hacc, h⟩ := bind_eq_ok h
  obtain ⟨_, _, h⟩ := bind_eq_ok h
  obtain ⟨maxA, hmaxA, h⟩ := bind_eq_ok h
  obtain ⟨maxB, hmaxB, h⟩ := bind_eq_ok h
  obtain ⟨_, _, h⟩ := bind_eq_ok h
  obtain ⟨_, _, h⟩ := bind_eq_ok h
  obtain ⟨_, _, h⟩ := bind_eq_ok h
  obtain ⟨_, _, h⟩ := bind_eq_ok h
  obtain ⟨_, _, h⟩ := bind_eq_ok h
  obtain ⟨⟨primes, modulus⟩, hprimes, h⟩ := bind_eq_ok h
  obtain ⟨_, _, h⟩ := bind_eq_ok h
  obtain ⟨_, _, h⟩ := bind_eq_ok h
  cases h
  have hshape := ensure_ok hshape
  rw [Bool.and_eq_true, beq_iff_eq, beq_iff_eq] at hshape
  obtain ⟨hcount, hcount_lt⟩ := usize_eq_some (context_ok hcount)
  obtain ⟨hpadded, _⟩ := usize_eq_some (context_ok hpadded)
  have hacc : padded / 4 * 4 * 127 * 127 ≤ 2 ^ 31 - 1 := of_decide_eq_true (ensure_ok hacc)
  obtain ⟨hmoduli, hne, hmodulus, hlt⟩ := choosePrimes_ok hprimes
  refine ⟨(usize_eq_some hshape.1).1, (usize_eq_some hshape.2).1, hcount, hcount_lt, by omega,
    hmoduli, hne, hmodulus, fun i j => ?_, hlt⟩
  have hle := productEntry_le inner columns i j
    (natAbs_le_max (expect_ok hmaxA)) (natAbs_le_max (expect_ok hmaxB))
  dsimp only
  omega


/-- The refusals `multiply` makes before any arithmetic, and what the process may
fail to supply: neither a fault nor the final magnitude check. -/
def Preflight : ProductError → Prop
  | .refused message => message ≠ violatesBound
  | .fault _ => False
  | _ => True

theorem ensure_refuses {condition : Bool} {message : String} (h : message ≠ violatesBound) :
    Refuses Preflight (ensure condition message) := by
  intro e he
  unfold ensure at he
  split at he <;> cases he
  exact h

theorem context_refuses {α : Type} {x : Option α} {message : String} (h : message ≠ violatesBound) :
    Refuses Preflight (context x message) := by
  intro e he
  cases x <;> cases he
  exact h

theorem admitWorkspace_refuses (required available : Nat) (stage : String) :
    Refuses Preflight (admitWorkspace required available stage) := by
  intro e he
  unfold admitWorkspace at he
  split at he <;> cases he
  trivial

theorem admitPlanning_refuses (boundBits : Nat) : Refuses Preflight (admitPlanning boundBits) := by
  intro e he
  unfold admitPlanning at he
  split at he <;> cases he
  trivial

theorem choosePrimes_refuses (bound : Nat) : Refuses Preflight (choosePrimes bound) := by
  intro e he
  unfold choosePrimes at he
  dsimp only at he
  split at he <;> cases he
  trivial

theorem supplied_refuses {α : Type} (x : Except String α) : Refuses Preflight (supplied x) := by
  intro e he
  cases x <;> cases he
  trivial

theorem expect_max_refuses {xs : List Int} (h : xs ≠ []) :
    Refuses Preflight (expect (xs.map Int.natAbs).max?) := by
  intro e he
  cases hmax : (xs.map Int.natAbs).max? with
  | some m => rw [hmax] at he; cases he
  | none => exact absurd (List.map_eq_nil_iff.mp (List.max?_eq_none_iff.mp hmax)) h

theorem plan_refuses (left right : List Int) (rows inner columns : Nat) (limits : ProductLimits) :
    Refuses Preflight (plan left right rows inner columns limits) := by
  unfold plan
  refine .bind (ensure_refuses (by decide)) fun _ hpos => ?_
  refine .bind (ensure_refuses (by decide)) fun _ _ => ?_
  refine .bind (ensure_refuses (by decide)) fun _ hshape => ?_
  -- positive dimensions leave no empty operand, so both maxima exist
  have hpos := ensure_ok hpos
  have hshape := ensure_ok hshape
  simp only [Bool.and_eq_true, decide_eq_true_eq, beq_iff_eq] at hpos hshape
  have hleft : left ≠ [] := fun h => by
    have hlen := (usize_eq_some hshape.1).1
    rw [h, List.length_nil] at hlen
    exact (Nat.mul_pos hpos.1.1 hpos.1.2).ne hlen
  have hright : right ≠ [] := fun h => by
    have hlen := (usize_eq_some hshape.2).1
    rw [h, List.length_nil] at hlen
    exact (Nat.mul_pos hpos.1.2 hpos.2).ne hlen
  refine .bind (context_refuses (by decide)) fun _ _ => ?_
  refine .bind (ensure_refuses (by decide)) fun _ _ => ?_
  refine .bind (context_refuses (by decide)) fun _ _ => ?_
  refine .bind (ensure_refuses (by decide)) fun _ _ => ?_
  refine .bind (ensure_refuses (by decide)) fun _ _ => ?_
  refine .bind (expect_max_refuses hleft) fun _ _ => ?_
  refine .bind (expect_max_refuses hright) fun _ _ => ?_
  refine .bind (ensure_refuses (by decide)) fun _ _ => ?_
  refine .bind (admitWorkspace_refuses _ _ _) fun _ _ => ?_
  refine .bind (admitWorkspace_refuses _ _ _) fun _ _ => ?_
  refine .bind (admitPlanning_refuses _) fun _ _ => ?_
  refine .bind (admitWorkspace_refuses _ _ _) fun _ _ => ?_
  refine .bind (choosePrimes_refuses _) fun _ _ => ?_
  refine .bind (ensure_refuses (by decide)) fun _ _ => ?_
  exact .bind (admitWorkspace_refuses _ _ _) fun _ _ => .ok _

/-- After a successful plan the tree is built, the entries are the exact product
and they pass the final magnitude check. -/
theorem planned_ok {egcd : Int → Int → ExtendedGcd} (hb : Bezout egcd) {left right : List Int}
    {rows inner columns : Nat} {p : Plan} (h : Planned left right rows inner columns p) :
    ∃ tree, Tree.build egcd p.primes 0 = .ok tree ∧
      modularEntries left right rows inner columns p tree =
        .ok (exactEntries left right rows inner columns) ∧
      ensure (!(exactEntries left right rows inner columns).any fun v => v.natAbs > p.bound / 2)
        violatesBound = .ok () := by
  obtain ⟨tree, hbuild, hrep⟩ := build_ok hb p.primes 0 h.moduli h.nonempty
  refine ⟨tree, hbuild, modularEntries_ok hrep h.moduli h.modulus h.count h.count_lt h.left_length
    h.right_length h.inner_le fun i j => ?_, ?_⟩
  · have := h.entry_le i j
    have := h.bound_lt
    omega
  · simp [ensure, exactEntries, h.entry_le]

@[simp] theorem checked_ok {α : Type} (a : α) : checked (.ok a) = .ok a := rfl

/-- A planned product is decided by what the process supplies; nothing after it refuses. -/
theorem multiply_planned {egcd : Int → Int → ExtendedGcd} (hb : Bezout egcd) (env : Environment)
    {left right : List Int} {rows inner columns : Nat} {limits : ProductLimits} {p : Plan}
    (hp : plan left right rows inner columns limits = .ok p) :
    multiply egcd env left right rows inner columns limits = do
      let _threshold ← supplied env.threshold
      supplied (env.pool limits.workers)
      return {
        entries := exactEntries left right rows inner columns
        rows, columns
        moduli := p.primes.length
        reconstructionBits := p.modulus.size
        requiredBoundBits := p.bound.size
        estimatedWorkspaceBytes := p.workspace
        backendUsed := .cpu } := by
  obtain ⟨tree, hbuild, hentries, hbounded⟩ := planned_ok hb (plan_ok hp)
  unfold multiply
  rw [hp, ok_bind, hbuild]
  refine congrArg _ (funext fun _ => ?_)
  rw [checked_ok, ok_bind]
  refine congrArg _ (funext fun _ => ?_)
  rw [hentries, checked_ok, ok_bind, hbounded, ok_bind]

theorem multiply_refuses {egcd : Int → Int → ExtendedGcd} (hb : Bezout egcd) (env : Environment)
    (left right : List Int) (rows inner columns : Nat) (limits : ProductLimits) :
    Refuses Preflight (multiply egcd env left right rows inner columns limits) := by
  cases hp : plan left right rows inner columns limits with
  | error e =>
    intro e' he
    unfold multiply at he
    rw [hp] at he
    cases he
    exact plan_refuses left right rows inner columns limits e hp
  | ok p =>
    rw [multiply_planned hb env hp]
    exact .bind (supplied_refuses _) fun _ _ => .bind (supplied_refuses _) fun _ _ => .ok _

theorem multiply_entries {egcd : Int → Int → ExtendedGcd} (hb : Bezout egcd) {env : Environment}
    {left right : List Int} {rows inner columns : Nat} {limits : ProductLimits}
    {out : ExactModularProduct}
    (h : multiply egcd env left right rows inner columns limits = .ok out) :
    out.entries = exactEntries left right rows inner columns := by
  cases hp : plan left right rows inner columns limits with
  | error e => unfold multiply at h; rw [hp] at h; cases h
  | ok p =>
    rw [multiply_planned hb env hp] at h
    obtain ⟨_, _, h⟩ := bind_eq_ok h
    obtain ⟨_, _, h⟩ := bind_eq_ok h
    cases h
    rfl

theorem exactEntries_getElem? {left right : List Int} {rows inner columns i j : Nat} (hi : i < rows)
    (hj : j < columns) :
    (exactEntries left right rows inner columns)[i * columns + j]? =
      some (productEntry left right inner columns i j) := by
  have hlt : i * columns + j < rows * columns := by
    calc i * columns + j < i * columns + columns := by omega
      _ = (i + 1) * columns := by ring
      _ ≤ rows * columns := Nat.mul_le_mul_right _ hi
  have hdiv : (i * columns + j) / columns = i := by
    rw [Nat.mul_comm, Nat.mul_add_div (by omega), Nat.div_eq_of_lt hj, Nat.add_zero]
  have hmod : (i * columns + j) % columns = j := by
    rw [Nat.mul_comm, Nat.mul_add_mod, Nat.mod_eq_of_lt hj]
  simp [exactEntries, hlt, hdiv, hmod]

/-- **Exactness of the modular product.** Whatever is returned is the integer
matrix product, entry by entry; the final magnitude refusal and every arithmetic
fault of the tree and the residue kernel are unreachable. -/
theorem multiply_exact (extendedGcd : Int → Int → ExtendedGcd) (hb : Bezout extendedGcd)
    (env : Environment) (left right : List Int) (rows inner columns : Nat)
    (limits : ProductLimits) :
    (∀ out, multiply extendedGcd env left right rows inner columns limits = .ok out →
      out.entries.length = rows * columns ∧ ∀ i < rows, ∀ j < columns,
        out.entries[i * columns + j]? = some (∑ t ∈ Finset.range inner,
          left.getD (i * inner + t) 0 * right.getD (t * columns + j) 0)) ∧
    multiply extendedGcd env left right rows inner columns limits ≠
      .error (.refused violatesBound) ∧
    ∀ f, multiply extendedGcd env left right rows inner columns limits ≠ .error (.fault f) := by
  have hrefuses := multiply_refuses hb env left right rows inner columns limits
  refine ⟨fun out hout => ?_, fun h => hrefuses _ h rfl, fun f h => hrefuses _ h⟩
  rw [multiply_entries hb hout]
  exact ⟨by simp [exactEntries], fun i hi j hj => exactEntries_getElem? hi hj⟩

/-- A 1x2 by 2x1 product with a negative entry. -/
theorem multiply_exact_row :
    ∃ out, multiply (fun a b => ⟨Int.gcd a b, Int.gcdA a b, Int.gcdB a b⟩)
        ⟨fun _ => .ok (), .ok 0⟩ [2, -3] [5, 7] 1 2 1 ⟨10 ^ 9, 64, 1000, 1⟩ = .ok out ∧
      out.entries[0]? = some (-11) := by
  have hok : (multiply (fun a b => ⟨Int.gcd a b, Int.gcdA a b, Int.gcdB a b⟩)
      ⟨fun _ => .ok (), .ok 0⟩ [2, -3] [5, 7] 1 2 1 ⟨10 ^ 9, 64, 1000, 1⟩).isOk = true := by
    decide +kernel
  generalize hm : multiply (fun a b => ⟨Int.gcd a b, Int.gcdA a b, Int.gcdB a b⟩)
      ⟨fun _ => .ok (), .ok 0⟩ [2, -3] [5, 7] 1 2 1 ⟨10 ^ 9, 64, 1000, 1⟩ = r at hok
  cases r with
  | error e => cases hok
  | ok out =>
    refine ⟨out, rfl, ?_⟩
    have := ((multiply_exact _ (fun a b => ⟨rfl, (Int.gcd_eq_gcd_ab a b).symm⟩) _ _ _ _ _ _ _).1
      out hm).2 0 (by decide) 0 (by decide)
    rw [this]
    decide

end Xcelerator.Numerics.ModularProductSoundness
