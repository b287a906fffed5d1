import Mathlib
import Xcelerator.Numerics.ModularProductSoundness
import Xcelerator.Numerics.WideProduct

/-! # Every backend and the limb route give the integer product

The device route differs from the host route in the residue matrices only, and
an exact device returns the same ones. A limb product adds up child products;
`digits_sum` puts a value together again and the matrix product is bilinear. -/

namespace Xcelerator.Numerics.WideProductSoundness
open Xcelerator.Foundations Machine Xcelerator.Numerics.ModularProduct
open Xcelerator.Numerics.ResidueTreeSoundness Xcelerator.Numerics.ModularProductSoundness
open Xcelerator.Numerics.WideProduct

/-! ## Backends -/

theorem checked_eq_ok {α : Type} {x : Checked α} {a : α} (h : checked x = .ok a) : x = .ok a := by
  cases x with
  | error e => cases h
  | ok b => cases h; rfl

/-- A selected device answers with the residues of the host kernel. -/
theorem residuesOn_exact {device : Device} (hd : device.Exact) {chosen : Option Nat}
    {a b : List (List Nat)} {primes : List Nat} {rows inner columns : Nat}
    {expected found : List (List Nat)}
    (hcpu : cpuResidues a b primes rows inner columns = .ok expected)
    (h : residuesOn device chosen a b primes rows inner columns = .ok found) :
    found = expected := by
  cases chosen with
  | some bytes => exact hd hcpu h
  | none =>
    rw [residuesOn, hcpu] at h
    cases h
    rfl

theorem multiplyOn_exact {device : Device} (hd : device.Exact) {egcd : Int → Int → ExtendedGcd}
    (hb : Bezout egcd) {env : Environment} {backend : ProductBackend} {left right : List Int}
    {rows inner columns : Nat} {limits : ProductLimits} {out : ExactModularProduct}
    (h : multiplyOn device egcd env backend left right rows inner columns limits = .ok out) :
    out.entries = exactEntries left right rows inner columns ∧ out.rows = rows ∧
      out.columns = columns := by
  unfold multiplyOn at h
  obtain ⟨p, hp, h⟩ := bind_eq_ok h
  obtain ⟨_, _, h⟩ := bind_eq_ok h
  obtain ⟨chosen, _, h⟩ := bind_eq_ok h
  obtain ⟨tree, htree, h⟩ := bind_eq_ok h
  obtain ⟨_, _, h⟩ := bind_eq_ok h
  obtain ⟨a, ha, h⟩ := bind_eq_ok h
  obtain ⟨b, hb', h⟩ := bind_eq_ok h
  obtain ⟨residues, hresidues, h⟩ := bind_eq_ok h
  obtain ⟨entries, hentries, h⟩ := bind_eq_ok h
  obtain ⟨_, _, h⟩ := bind_eq_ok h
  cases h
  refine ⟨?_, rfl, rfl⟩
  -- the host computation on the same plan, which is known to give the exact entries
  obtain ⟨tree', htree', hmodular, _⟩ := planned_ok hb (plan_ok hp)
  obtain rfl : tree' = tree := Except.ok.inj (htree'.symm.trans (checked_eq_ok htree))
  unfold modularEntries at hmodular
  obtain ⟨a', ha', hmodular⟩ := bind_eq_ok hmodular
  obtain rfl : a' = a := Except.ok.inj (ha'.symm.trans (checked_eq_ok ha))
  obtain ⟨b', hb'', hmodular⟩ := bind_eq_ok hmodular
  obtain rfl : b' = b := Except.ok.inj (hb''.symm.trans (checked_eq_ok hb'))
  obtain ⟨expected, hexpected, hmodular⟩ := bind_eq_ok hmodular
  obtain rfl : residues = expected := residuesOn_exact hd hexpected hresidues
  exact Except.ok.inj ((checked_eq_ok hentries).symm.trans hmodular)

/-! ## Digits -/

theorem digit_eq (width shift : Nat) (value : Int) :
    digit width shift value =
      value.sign * ((value.natAbs / 2 ^ shift % 2 ^ width : Nat) : Int) := by
  rw [digit, Nat.and_two_pow_sub_one_eq_mod, Nat.shiftRight_eq_div_pow]

@[simp] theorem digit_zero (width shift : Nat) : digit width shift 0 = 0 := by
  simp [digit_eq]

theorem natDigits_sum (width x n : Nat) :
    ∑ k ∈ Finset.range n, x / 2 ^ (k * width) % 2 ^ width * 2 ^ (k * width) =
      x % 2 ^ (n * width) := by
  induction n with
  | zero => simp [Nat.mod_one]
  | succ n ih =>
    have hpow (k : Nat) : 2 ^ (k * width) = (2 ^ width) ^ k := by rw [← pow_mul, mul_comm]
    rw [Finset.sum_range_succ, ih, hpow, hpow, Nat.mod_pow_succ]
    ring

/-- The digits of a value add up to it when there are enough of them. -/
theorem digits_sum {width n : Nat} {value : Int} (h : value.natAbs < 2 ^ (n * width)) :
    ∑ k ∈ Finset.range n, digit width (k * width) value * 2 ^ (k * width) = value := by
  calc ∑ k ∈ Finset.range n, digit width (k * width) value * 2 ^ (k * width)
      = value.sign * ((∑ k ∈ Finset.range n,
          value.natAbs / 2 ^ (k * width) % 2 ^ width * 2 ^ (k * width) : Nat) : Int) := by
        rw [Nat.cast_sum, Finset.mul_sum]
        refine Finset.sum_congr rfl fun k _ => ?_
        rw [digit_eq]
        push_cast
        ring
    _ = value.sign * value.natAbs := by rw [natDigits_sum, Nat.mod_eq_of_lt h]
    _ = value := Int.sign_mul_natAbs value

theorem natAbs_getD_lt_maxBits (values : List Int) (i : Nat) :
    (values.getD i 0).natAbs < 2 ^ maxBits values := by
  by_cases hi : i < values.length
  · have hmem : (values.getD i 0).natAbs.size ∈ values.map fun v => v.natAbs.size :=
      List.mem_map_of_mem (getD_mem 0 hi)
    refine Nat.size_le.mp ?_
    unfold maxBits
    cases hmax : (values.map fun v => v.natAbs.size).max? with
    | none => rw [List.max?_eq_none_iff.mp hmax] at hmem; cases hmem
    | some m => exact (List.max?_eq_some_iff.mp hmax).2 _ hmem
  · rw [List.getD_eq_default _ _ (by omega)]
    simp

/-! ## The sum of the child products -/

/-- The output accumulated so far, as a function of the entry. -/
def matrix (count : Nat) (f : Nat → Int) : List Int := (List.range count).map f

theorem accumulate_matrix (shift count : Nat) (f g : Nat → Int) :
    accumulate shift (matrix count f) (matrix count g) =
      matrix count fun e => f e + g e * 2 ^ shift := by
  simp [accumulate, matrix, List.zipWith_map, List.zipWith_self]

/-- A loop whose every turn adds `g k` adds all of them. -/
theorem foldlM_matrix {count : Nat} {step : List Int → Nat → Result (List Int)}
    {g : Nat → Nat → Int}
    (hstep : ∀ f k out, step (matrix count f) k = .ok out → out = matrix count fun e => f e + g k e)
    (n : Nat) (f : Nat → Int) {out : List Int}
    (h : (List.range n).foldlM step (matrix count f) = .ok out) :
    out = matrix count fun e => f e + ∑ k ∈ Finset.range n, g k e := by
  induction n generalizing out with
  | zero =>
    cases h
    simp
  | succ n ih =>
    rw [List.range_succ, List.foldlM_append] at h
    obtain ⟨mid, hmid, h⟩ := bind_eq_ok h
    rw [ih hmid, List.foldlM_cons] at h
    obtain ⟨last, hlast, h⟩ := bind_eq_ok h
    cases h
    rw [hstep _ _ _ hlast]
    simp only [Finset.sum_range_succ, add_assoc]

/-- The child product is the integer product of the matrices it is given. -/
def ExactChild (product : List Int → List Int → ProductLimits → Result (List Int))
    (rows inner columns : Nat) : Prop :=
  ∀ {a b limits entries}, product a b limits = .ok entries →
    entries = exactEntries a b rows inner columns

section
variable {product : List Int → List Int → ProductLimits → Result (List Int)}
  {rows inner columns : Nat} {plan : LimbPlan}

theorem limb_ok {width index : Nat} {values out : List Int}
    (h : limb width values index = .ok out) :
    out = values.map (digit width (index * width)) := by
  unfold limb at h
  obtain ⟨shift, hshift, h⟩ := bind_eq_ok h
  cases h
  rw [(usize_eq_some (context_ok hshift)).1]

theorem u64_eq_some {x y : Nat} (h : u64? x = some y) : y = x := by
  unfold u64? at h
  split at h
  · exact (Option.some.inj h).symm
  · cases h

theorem limbStep_ok (hx : ExactChild product rows inner columns)
    (hcount : plan.count = rows * columns) {right a : List Int} {aIndex bIndex : Nat}
    {f : Nat → Int} {out : List Int}
    (h : limbStep product plan right a aIndex (matrix plan.count f) bIndex = .ok out) :
    out = matrix plan.count fun e => f e + productEntry a
      (right.map (digit plan.width (bIndex * plan.width))) inner columns (e / columns) (e % columns)
        * 2 ^ ((aIndex + bIndex) * plan.width) := by
  unfold limbStep at h
  obtain ⟨b, hb, h⟩ := bind_eq_ok h
  obtain ⟨entries, hentries, h⟩ := bind_eq_ok h
  obtain ⟨_, _, h⟩ := bind_eq_ok h
  obtain ⟨index, hindex, h⟩ := bind_eq_ok h
  obtain ⟨shift, hshift, h⟩ := bind_eq_ok h
  cases h
  rw [(usize_eq_some (context_ok hshift)).1, u64_eq_some (context_ok hindex), hx hentries,
    limb_ok hb, exactEntries, ← hcount]
  exact accumulate_matrix _ _ _ _

theorem limbRow_ok (hx : ExactChild product rows inner columns)
    (hcount : plan.count = rows * columns) {left right : List Int} {aIndex : Nat}
    {f : Nat → Int} {out : List Int}
    (h : limbRow product plan left right (matrix plan.count f) aIndex = .ok out) :
    out = matrix plan.count fun e => f e + ∑ bIndex ∈ Finset.range plan.bLimbs,
      productEntry (left.map (digit plan.width (aIndex * plan.width)))
        (right.map (digit plan.width (bIndex * plan.width))) inner columns (e / columns)
        (e % columns)
        * 2 ^ ((aIndex + bIndex) * plan.width) := by
  unfold limbRow at h
  obtain ⟨a, ha, h⟩ := bind_eq_ok h
  rw [limb_ok ha] at h
  exact foldlM_matrix (fun f k out => limbStep_ok hx hcount) _ _ h

end

theorem getD_map_digit (values : List Int) (width shift i : Nat) :
    (values.map (digit width shift)).getD i 0 = digit width shift (values.getD i 0) := by
  have h := List.getD_map (f := digit width shift) (l := values) (n := i) (d := 0)
  rwa [digit_zero] at h

/-- The product of the values is the sum of the products of their digits. -/
theorem productEntry_digits {left right : List Int} {width aLimbs bLimbs : Nat}
    (ha : maxBits left ≤ aLimbs * width) (hb : maxBits right ≤ bLimbs * width)
    (inner columns i j : Nat) :
    ∑ aIndex ∈ Finset.range aLimbs, ∑ bIndex ∈ Finset.range bLimbs,
      productEntry (left.map (digit width (aIndex * width)))
        (right.map (digit width (bIndex * width))) inner columns i j *
          2 ^ ((aIndex + bIndex) * width)
      = productEntry left right inner columns i j := by
  have hwhole {values : List Int} {limbs : Nat} (h : maxBits values ≤ limbs * width) (x : Nat) :
      ∑ k ∈ Finset.range limbs, digit width (k * width) (values.getD x 0) * 2 ^ (k * width) =
        values.getD x 0 :=
    digits_sum ((natAbs_getD_lt_maxBits values x).trans_le (Nat.pow_le_pow_right (by norm_num) h))
  unfold productEntry
  simp only [getD_map_digit, Finset.sum_mul]
  simp_rw [Finset.sum_comm (s := Finset.range bLimbs) (t := Finset.range inner)]
  rw [Finset.sum_comm]
  refine Finset.sum_congr rfl fun t _ => ?_
  rw [← hwhole ha (i * inner + t), ← hwhole hb (t * columns + j), Finset.sum_mul_sum]
  refine Finset.sum_congr rfl fun aIndex _ => Finset.sum_congr rfl fun bIndex _ => ?_
  rw [hwhole ha, hwhole hb, add_mul, pow_add]
  ring

/-! ## The limb plan -/

/-- What the limb plan has checked. -/
structure LimbPlanned (left right : List Int) (rows inner columns : Nat) (plan : LimbPlan) :
    Prop where
  left_length : left.length = rows * inner
  right_length : right.length = inner * columns
  count : plan.count = rows * columns
  left_bits : maxBits left ≤ plan.aLimbs * plan.width
  right_bits : maxBits right ≤ plan.bLimbs * plan.width

theorem bits_le_limbs {bits width : Nat} (hw : 0 < width) :
    bits ≤ (max bits 1 + width - 1) / width * width := by
  have h := Nat.lt_div_mul_add (a := max bits 1 + width - 1) hw
  omega

theorem limbPlan_ok {left right : List Int} {rows inner columns : Nat} {limits : ProductLimits}
    {p : LimbPlan} (h : limbPlan left right rows inner columns limits = .ok p) :
    LimbPlanned left right rows inner columns p := by
  unfold limbPlan at h
  obtain ⟨_, _, h⟩ := bind_eq_ok h
  obtain ⟨_, _, h⟩ := bind_eq_ok h
  obtain ⟨_, hshape, h⟩ := bind_eq_ok h
  obtain ⟨count, hcount, h⟩ := bind_eq_ok h
  obtain ⟨_, _, h⟩ := bind_eq_ok h
  obtain ⟨_, _, h⟩ := bind_eq_ok h
  obtain ⟨_, _, h⟩ := bind_eq_ok h
  obtain ⟨_, _, h⟩ := bind_eq_ok h
  obtain ⟨_, _, h⟩ := bind_eq_ok h
  obtain ⟨digits, _, h⟩ := bind_eq_ok h
  obtain ⟨_, hwidth, h⟩ := bind_eq_ok h
  obtain ⟨_, _, h⟩ := bind_eq_ok h
  obtain ⟨_, _, h⟩ := bind_eq_ok h
  obtain ⟨_, _, h⟩ := bind_eq_ok h
  obtain ⟨_, _, h⟩ := bind_eq_ok h
  cases h
  have hshape := ensure_ok hshape
  rw [Bool.and_eq_true, beq_iff_eq, beq_iff_eq] at hshape
  have hwidth : 0 < digits / 2 := of_decide_eq_true (ensure_ok hwidth)
  exact ⟨(usize_eq_some hshape.1).1, (usize_eq_some hshape.2).1,
    (usize_eq_some (context_ok hcount)).1, bits_le_limbs hwidth, bits_le_limbs hwidth⟩

theorem multiplyWideEntriesWith_entries
    {product : List Int → List Int → ProductLimits → Result (List Int)} {left right : List Int}
    {rows inner columns : Nat} {limits : ProductLimits} {out : List Int}
    (hx : ExactChild product rows inner columns)
    (h : multiplyWideEntriesWith product left right rows inner columns limits = .ok out) :
    out = exactEntries left right rows inner columns := by
  unfold multiplyWideEntriesWith at h
  obtain ⟨plan, hplan, h⟩ := bind_eq_ok h
  have hp := limbPlan_ok hplan
  have hzero : List.replicate plan.count (0 : Int) = matrix plan.count fun _ => 0 := by
    simp [matrix]
  rw [hzero] at h
  rw [foldlM_matrix (fun f k out => limbRow_ok hx hp.count) _ _ h, hp.count]
  refine List.map_congr_left fun e _ => ?_
  rw [zero_add, productEntry_digits hp.left_bits hp.right_bits]

theorem multiplyWideEntries_entries {device : Device} (hd : device.Exact)
    {egcd : Int → Int → ExtendedGcd} (hb : Bezout egcd) {env : Environment}
    {backend : ProductBackend} {left right : List Int} {rows inner columns : Nat}
    {limits : ProductLimits} {out : List Int}
    (h : multiplyWideEntries device egcd env backend left right rows inner columns limits =
      .ok out) :
    out = exactEntries left right rows inner columns := by
  refine multiplyWideEntriesWith_entries ?_ h
  intro a b limits entries hentries
  obtain ⟨result, hresult, hentries⟩ := bind_eq_ok hentries
  cases hentries
  exact (multiplyOn_exact hd hb hresult).1

/-! ## The residue family -/

/-- Every prime of the family, in the order of the selection. -/
def familyPrimes : List Nat := (descending 16191).filter (prime ·)

theorem familyPrimes_nodup : familyPrimes.Nodup :=
  (((descending_pairwise 16191).imp fun h => Nat.ne_of_gt h).filter (prime ·))

/-- The family divides the primorial. -/
theorem familyPrimes_prod_le : familyPrimes.prod ≤ 4 ^ 16191 := by
  have hprod : familyPrimes.prod = ∏ p ∈ familyPrimes.toFinset, p := by
    rw [List.prod_toFinset _ familyPrimes_nodup, List.map_id']
  have hsub : familyPrimes.toFinset ⊆ (Finset.range (16191 + 1)).filter Nat.Prime := by
    intro p hp
    obtain ⟨hmem, hprime⟩ := List.mem_filter.mp (List.mem_toFinset.mp hp)
    exact Finset.mem_filter.mpr
      ⟨Finset.mem_range.mpr (Nat.lt_succ_of_le (mem_descending hmem)), (prime_sound hprime).1⟩
  calc familyPrimes.prod = ∏ p ∈ familyPrimes.toFinset, p := hprod
    _ ≤ primorial 16191 := Finset.prod_le_prod_of_subset_of_one_le' hsub fun p hp _ =>
        (Finset.mem_filter.mp hp).2.one_lt.le
    _ ≤ 4 ^ 16191 := primorial_le_four_pow 16191

theorem foldl_prod (l : List Nat) (product count : Nat) :
    (l.foldl (fun (product, count) p => (product * p, count + 1)) (product, count)).1 =
      product * l.prod := by
  induction l generalizing product count with
  | nil => simp
  | cons p rest ih => rw [List.foldl_cons, ih, List.prod_cons, mul_assoc]

-- The family is a closed list of primes. What is computed from it is proved for
-- any list or number first, so that the kernel never evaluates the product.
theorem capacityOf_fst (family : List Nat) :
    (capacityOf family).1 = (family.filter (prime ·)).prod.size - 1 := by
  have h := foldl_prod (family.reverse.filter (prime ·)) 1 0
  rw [one_mul, List.filter_reverse, List.prod_reverse] at h
  rw [← h, capacityOf, List.filter_reverse]

theorem reconstructionCapacity_eq : reconstructionCapacity.1 = familyPrimes.prod.size - 1 := by
  rw [reconstructionCapacity, capacityOf_fst, familyPrimes]

theorem familyPrimes_prod_pos : 0 < familyPrimes.prod :=
  List.prod_pos fun _ hp => (prime_sound (List.mem_filter.mp hp).2).1.pos

theorem two_pow_size_le {n : Nat} (h : 0 < n) : 2 ^ (n.size - 1) ≤ n := by
  have hsize : 0 < n.size := Nat.size_pos.mpr h
  exact Nat.lt_size.mp (by omega)

theorem size_pred_le {n e : Nat} (h : n ≤ 4 ^ e) : n.size - 1 ≤ 2 * e := by
  have hpow : (4 : Nat) ^ e = 2 ^ (2 * e) := by
    rw [pow_mul, show (2 : Nat) ^ 2 = 4 from rfl]
  have hlt : n < 2 ^ (2 * e + 1) :=
    (h.trans_eq hpow).trans_lt (Nat.pow_lt_pow_right (by norm_num) (Nat.lt_succ_self _))
  have hsize := Nat.size_le.mpr hlt
  omega

theorem two_pow_capacity_le : 2 ^ reconstructionCapacity.1 ≤ familyPrimes.prod := by
  rw [reconstructionCapacity_eq]
  exact two_pow_size_le familyPrimes_prod_pos

/-- The capacity stays inside the planning domain of `multiply`. -/
theorem reconstructionCapacity_le : reconstructionCapacity.1 ≤ 2 * 16191 := by
  rw [reconstructionCapacity_eq]
  exact size_pred_le familyPrimes_prod_le

/-- The selection stops above the bound or takes every prime left. -/
theorem choosePrimesLoop_covers (bound : Nat) (rest primes : List Nat) (product : Nat)
    (h : bound < product * rest.prod) :
    bound < (choosePrimesLoop bound rest primes product).2 := by
  induction rest generalizing primes product with
  | nil => simpa [choosePrimesLoop] using h
  | cons p rest ih =>
    rw [choosePrimesLoop]
    split
    · rename_i hstop
      rw [Bool.and_eq_true, decide_eq_true_eq] at hstop
      exact hstop.2
    · refine ih _ _ ?_
      rwa [List.prod_cons, ← mul_assoc] at h

theorem choosePrimesLoop_covers_one {bound : Nat} {rest : List Nat} (h : bound < rest.prod) :
    bound < (choosePrimesLoop bound rest [] 1).2 :=
  choosePrimesLoop_covers bound rest [] 1 (by rwa [one_mul])

theorem choosePrimes_covers {bound : Nat} (h : bound < 2 ^ reconstructionCapacity.1) :
    ∃ out, choosePrimes bound = .ok out := by
  have hcovers := choosePrimesLoop_covers_one (h.trans_le two_pow_capacity_le)
  unfold choosePrimes
  rw [familyPrimes] at hcovers
  dsimp only
  rw [if_neg (by omega)]
  exact ⟨_, rfl⟩

/-! ## Child calls -/

/-- The largest magnitude of a matrix. -/
def maxMagnitude (values : List Int) : Nat := (values.map Int.natAbs).max?.getD 0

/-- Operands a child product can reconstruct: digits of `width` bits whose dot
products, doubled, stay below the capacity of the residue family. -/
structure ChildOperands (width inner : Nat) (a b : List Int) : Prop where
  left_lt : ∀ x ∈ a, x.natAbs < 2 ^ width
  right_lt : ∀ x ∈ b, x.natAbs < 2 ^ width
  dot_lt : 2 * inner * maxMagnitude a * maxMagnitude b < 2 ^ reconstructionCapacity.1

theorem maxMagnitude_lt {values : List Int} {bound : Nat} (hpos : 0 < bound)
    (h : ∀ x ∈ values, x.natAbs < bound) : maxMagnitude values < bound := by
  unfold maxMagnitude
  cases hmax : (values.map Int.natAbs).max? with
  | none => exact hpos
  | some m =>
    obtain ⟨x, hx, rfl⟩ := List.mem_map.mp (List.max?_mem hmax)
    exact h x hx

theorem digit_natAbs_lt (width shift : Nat) (value : Int) :
    (digit width shift value).natAbs < 2 ^ width := by
  rw [digit_eq, Int.natAbs_mul, Int.natAbs_natCast]
  have hsign : value.sign.natAbs ≤ 1 := by
    rcases Int.sign_trichotomy value with h | h | h <;> rw [h] <;> decide
  calc value.sign.natAbs * (value.natAbs / 2 ^ shift % 2 ^ width)
      ≤ 1 * (value.natAbs / 2 ^ shift % 2 ^ width) := Nat.mul_le_mul_right _ hsign
    _ < 2 ^ width := by
      rw [one_mul]
      exact Nat.mod_lt _ (by positivity)

theorem limb_lt {width index : Nat} {values out : List Int}
    (h : limb width values index = .ok out) :
    ∀ x ∈ out, x.natAbs < 2 ^ width := by
  rw [limb_ok h]
  intro x hx
  obtain ⟨value, _, rfl⟩ := List.mem_map.mp hx
  exact digit_natAbs_lt width _ value

/-- The room the width formula leaves: twice the width, the bits of the inner
dimension and two more fit the capacity. -/
theorem limbPlan_width {left right : List Int} {rows inner columns : Nat} {limits : ProductLimits}
    {p : LimbPlan} (h : limbPlan left right rows inner columns limits = .ok p) :
    2 * p.width + inner.size + 2 ≤ reconstructionCapacity.1 := by
  unfold limbPlan at h
  obtain ⟨_, _, h⟩ := bind_eq_ok h
  obtain ⟨_, _, h⟩ := bind_eq_ok h
  obtain ⟨_, _, h⟩ := bind_eq_ok h
  obtain ⟨_, _, h⟩ := bind_eq_ok h
  obtain ⟨_, _, h⟩ := bind_eq_ok h
  obtain ⟨_, _, h⟩ := bind_eq_ok h
  obtain ⟨_, _, h⟩ := bind_eq_ok h
  obtain ⟨_, _, h⟩ := bind_eq_ok h
  obtain ⟨_, _, h⟩ := bind_eq_ok h
  obtain ⟨digits, hdigits, h⟩ := bind_eq_ok h
  obtain ⟨_, _, h⟩ := bind_eq_ok h
  obtain ⟨_, _, h⟩ := bind_eq_ok h
  obtain ⟨_, _, h⟩ := bind_eq_ok h
  obtain ⟨_, _, h⟩ := bind_eq_ok h
  obtain ⟨_, _, h⟩ := bind_eq_ok h
  cases h
  have hsub := context_ok hdigits
  unfold subtract? at hsub
  split at hsub
  · have := Option.some.inj hsub
    show 2 * (digits / 2) + inner.size + 2 ≤ _
    omega
  · cases hsub

theorem limbPlan_child {left right a b : List Int} {rows inner columns aIndex bIndex : Nat}
    {limits : ProductLimits} {p : LimbPlan}
    (h : limbPlan left right rows inner columns limits = .ok p)
    (ha : limb p.width left aIndex = .ok a) (hb : limb p.width right bIndex = .ok b) :
    ChildOperands p.width inner a b := by
  have hwidth := limbPlan_width h
  have hpos : 0 < 2 ^ p.width := by positivity
  have hA := maxMagnitude_lt hpos (limb_lt ha)
  have hB := maxMagnitude_lt hpos (limb_lt hb)
  refine ⟨limb_lt ha, limb_lt hb, ?_⟩
  calc 2 * inner * maxMagnitude a * maxMagnitude b
      ≤ 2 * 2 ^ inner.size * 2 ^ p.width * 2 ^ p.width := by
        gcongr
        exact (Nat.lt_size_self inner).le
    _ = 2 ^ (2 * p.width + inner.size + 1) := by ring
    _ < 2 ^ reconstructionCapacity.1 :=
        pow_lt_pow_right₀ (by norm_num) (lt_of_lt_of_le (Nat.lt_succ_self _) hwidth)

section
variable {product other : List Int → List Int → ProductLimits → Result (List Int)}

/-- Two child products that agree on such operands give the same limb product:
no other call is made. -/
theorem multiplyWideEntriesWith_congr {left right : List Int} {rows inner columns : Nat}
    {limits : ProductLimits} {p : LimbPlan}
    (h : limbPlan left right rows inner columns limits = .ok p)
    (hagree : ∀ a b, ChildOperands p.width inner a b →
      other a b p.childLimits = product a b p.childLimits) :
    multiplyWideEntriesWith other left right rows inner columns limits =
      multiplyWideEntriesWith product left right rows inner columns limits := by
  have hrow : limbRow other p left right = limbRow product p left right := by
    funext output aIndex
    unfold limbRow
    cases ha : limb p.width left aIndex with
    | error e => rfl
    | ok a =>
      rw [ok_bind, ok_bind]
      congr 1
      funext output bIndex
      unfold limbStep
      cases hb : limb p.width right bIndex with
      | error e => rfl
      | ok b => rw [ok_bind, ok_bind, hagree a b (limbPlan_child h ha hb)]
  unfold multiplyWideEntriesWith
  rw [h, ok_bind, ok_bind, hrow]

end

/-! ## No capacity refusal -/

/-- Not the marker that the single-pass domain is too small. -/
def WithinCapacity : ProductError → Prop
  | .reconstructionCapacity _ => False
  | _ => True

/-- The accelerator never raises the marker: only the planning of `multiply` can. -/
structure Device.Unmarked (device : Device) : Prop where
  plan : ∀ backend plan limits, Refuses WithinCapacity (device.cudaPlan backend plan limits)
  residues : ∀ a b primes rows inner columns,
    Refuses WithinCapacity (device.residues a b primes rows inner columns)

theorem ensure_within {condition : Bool} {message : String} :
    Refuses WithinCapacity (ensure condition message) := by
  intro e he
  unfold ensure at he
  split at he <;> cases he
  trivial

theorem context_within {α : Type} {x : Option α} {message : String} :
    Refuses WithinCapacity (context x message) := by
  intro e he
  cases x <;> cases he
  trivial

theorem expect_within {α : Type} {x : Option α} : Refuses WithinCapacity (expect x) := by
  intro e he
  cases x <;> cases he
  trivial

theorem admitWorkspace_within (required available : Nat) (stage : String) :
    Refuses WithinCapacity (admitWorkspace required available stage) := by
  intro e he
  unfold admitWorkspace at he
  split at he <;> cases he
  trivial

theorem supplied_within {α : Type} (x : Except String α) : Refuses WithinCapacity (supplied x) := by
  intro e he
  cases x <;> cases he
  trivial

theorem checked_within {α : Type} (x : Checked α) : Refuses WithinCapacity (checked x) := by
  intro e he
  cases x <;> cases he
  trivial

theorem maxMagnitude_eq {values : List Int} {m : Nat}
    (h : expect (values.map Int.natAbs).max? = .ok m) : m = maxMagnitude values := by
  rw [maxMagnitude, expect_ok h, Option.getD_some]

/-- The planning of a child call refuses for other reasons only. -/
theorem plan_within {a b : List Int} {rows inner columns width : Nat} (limits : ProductLimits)
    (hwidth : 2 * width + inner.size + 2 ≤ reconstructionCapacity.1)
    (h : ChildOperands width inner a b) :
    Refuses WithinCapacity (ModularProduct.plan a b rows inner columns limits) := by
  unfold ModularProduct.plan
  refine .bind ensure_within fun _ _ => ?_
  refine .bind ensure_within fun _ _ => ?_
  refine .bind ensure_within fun _ _ => ?_
  refine .bind context_within fun _ _ => ?_
  refine .bind ensure_within fun _ _ => ?_
  refine .bind context_within fun _ _ => ?_
  refine .bind ensure_within fun _ _ => ?_
  refine .bind ensure_within fun _ _ => ?_
  refine .bind expect_within fun maxA hmaxA => ?_
  refine .bind expect_within fun maxB hmaxB => ?_
  obtain rfl := maxMagnitude_eq hmaxA
  obtain rfl := maxMagnitude_eq hmaxB
  have hpos : 0 < 2 ^ width := by positivity
  have hA := Nat.size_le.mpr (maxMagnitude_lt hpos h.left_lt)
  have hB := Nat.size_le.mpr (maxMagnitude_lt hpos h.right_lt)
  have hroom : 2 * width + inner.size + 2 ≤ 2 * 16191 := hwidth.trans reconstructionCapacity_le
  clear hwidth
  refine .bind ensure_within fun _ _ => ?_
  refine .bind (admitWorkspace_within _ _ _) fun _ _ => ?_
  refine .bind (admitWorkspace_within _ _ _) fun _ _ => ?_
  refine .bind ?_ fun _ _ => ?_
  · intro e he
    rw [admitPlanning, if_neg (by omega)] at he
    cases he
  refine .bind (admitWorkspace_within _ _ _) fun _ _ => ?_
  refine .bind ?_ fun _ _ => ?_
  · have hdot : maxMagnitude a * maxMagnitude b * inner * 2 < 2 ^ reconstructionCapacity.1 := by
      have := h.dot_lt
      rwa [show 2 * inner * maxMagnitude a * maxMagnitude b =
        maxMagnitude a * maxMagnitude b * inner * 2 by ring] at this
    obtain ⟨out, hout⟩ := choosePrimes_covers hdot
    intro e he
    rw [hout] at he
    cases he
  refine .bind ensure_within fun _ _ => ?_
  exact .bind (admitWorkspace_within _ _ _) fun _ _ => .ok _

theorem multiplyOn_within {device : Device} (hd : Device.Unmarked device)
    (egcd : Int → Int → ExtendedGcd) (env : Environment) (backend : ProductBackend) {a b : List Int}
    {rows inner columns width : Nat} (limits : ProductLimits)
    (hwidth : 2 * width + inner.size + 2 ≤ reconstructionCapacity.1)
    (h : ChildOperands width inner a b) :
    Refuses WithinCapacity (multiplyOn device egcd env backend a b rows inner columns limits) := by
  unfold multiplyOn
  refine .bind (plan_within limits hwidth h) fun _ _ => ?_
  refine .bind (supplied_within _) fun _ _ => ?_
  refine .bind ?_ fun chosen _ => ?_
  · unfold selected
    split
    · exact hd.plan _ _ _
    · exact .ok _
  refine .bind (checked_within _) fun _ _ => ?_
  refine .bind (supplied_within _) fun _ _ => ?_
  refine .bind (checked_within _) fun _ _ => ?_
  refine .bind (checked_within _) fun _ _ => ?_
  refine .bind ?_ fun _ _ => ?_
  · cases chosen with
    | some bytes => exact hd.residues _ _ _ _ _ _
    | none => exact checked_within _
  refine .bind (checked_within _) fun _ _ => ?_
  exact .bind ensure_within fun _ _ => .ok _

/-- **Limb products.** With an exact child the result is the integer product. The
result depends on the child at digit operands below the capacity only, so every
call has such operands, and on them `multiply` does not refuse for capacity. -/
theorem multiplyWideEntriesWith_exact
    (product : List Int → List Int → ProductLimits → Result (List Int)) (left right : List Int)
    (rows inner columns : Nat) (limits : ProductLimits) :
    (∀ out, ExactChild product rows inner columns →
      multiplyWideEntriesWith product left right rows inner columns limits = .ok out →
      out = exactEntries left right rows inner columns) ∧
    ∀ plan, limbPlan left right rows inner columns limits = .ok plan →
      (∀ other : List Int → List Int → ProductLimits → Result (List Int),
        (∀ a b, ChildOperands plan.width inner a b →
          other a b plan.childLimits = product a b plan.childLimits) →
        multiplyWideEntriesWith other left right rows inner columns limits =
          multiplyWideEntriesWith product left right rows inner columns limits) ∧
      ∀ a b, ChildOperands plan.width inner a b →
        ∀ device : Device, Device.Unmarked device → ∀ egcd env backend message,
          multiplyOn device egcd env backend a b rows inner columns plan.childLimits ≠
            .error (.reconstructionCapacity message) := by
  refine ⟨fun out hx h => multiplyWideEntriesWith_entries hx h, fun plan hplan => ⟨?_, ?_⟩⟩
  · intro other hagree
    exact multiplyWideEntriesWith_congr hplan hagree
  · intro a b hab device hd egcd env backend message herror
    exact multiplyOn_within hd egcd env backend plan.childLimits (limbPlan_width hplan) hab _ herror

end Xcelerator.Numerics.WideProductSoundness
