import Mathlib
import Xcelerator.Numerics.MpfrBallSoundness

/-! # Soundness of complex balls

A ball encloses the complex numbers whose parts its components enclose. Every
operation reduces to the real ones; the power runs a squaring loop and the
polynomial Horner's rule. -/

namespace Xcelerator.Numerics.MpfrComplexSoundness
open Xcelerator.Foundations.Machine (bind_eq_ok ok_bind)
open Xcelerator.Numerics.Interval (Result Run lift lift_ok)
open Xcelerator.Numerics.MpfrFloat Xcelerator.Numerics.MpfrBall
  Xcelerator.Numerics.MpfrBallSoundness

def BallContains (a : MpfrComplexBall) (z : ℂ) : Prop :=
  Contains a.real z.re ∧ Contains a.imaginary z.im

def BallValid (a : MpfrComplexBall) : Prop := Valid a.real ∧ Valid a.imaginary

theorem ball_validate_iff {a : MpfrComplexBall} : a.validate = .ok () ↔ BallValid a := by
  unfold MpfrComplexBall.validate
  constructor
  · intro h
    obtain ⟨_, hr, h⟩ := bind_eq_ok h
    obtain ⟨_, hi, _⟩ := bind_eq_ok h
    exact ⟨validate_valid hr, validate_valid hi⟩
  · rintro ⟨hr, hi⟩
    rw [validate_iff.mpr hr, validate_iff.mpr hi, if_pos a.equalPrecision]
    rfl

theorem ball_new_ok {re im : MpfrInterval} {a : MpfrComplexBall}
    (h : MpfrComplexBall.new re im = .ok a) :
    (a.real = re ∧ a.imaginary = im) ∧ Valid re ∧ Valid im := by
  obtain ⟨_, hr, h⟩ := bind_eq_ok h
  obtain ⟨_, hi, h⟩ := bind_eq_ok h
  split at h
  · cases h
    exact ⟨⟨rfl, rfl⟩, validate_valid hr, validate_valid hi⟩
  · cases h

/-- A new ball encloses what its components enclose. -/
theorem ball_new_contains {re im : MpfrInterval} {a : MpfrComplexBall} {z : ℂ}
    (h : MpfrComplexBall.new re im = .ok a) (hr : Contains re z.re) (hi : Contains im z.im) :
    BallContains a z := by
  obtain ⟨⟨hre, him⟩, _⟩ := ball_new_ok h
  rw [BallContains, hre, him]
  exact ⟨hr, hi⟩

theorem requireCompatible_ok {a b : MpfrComplexBall} {u : Unit}
    (h : MpfrComplexBall.requireCompatible a b = .ok u) : BallValid a ∧ BallValid b := by
  obtain ⟨_, ha, h⟩ := bind_eq_ok h
  obtain ⟨_, hb, _⟩ := bind_eq_ok h
  exact ⟨ball_validate_iff.mp ha, ball_validate_iff.mp hb⟩

section
variable {m : Primitives} (hm : m.Correct) {a b c : MpfrComplexBall} {z w : ℂ}
include hm

theorem BallContains.add (hz : BallContains a z) (hw : BallContains b w)
    (h : MpfrComplexBall.add m a b = .ok c) : BallContains c (z + w) := by
  obtain ⟨_, _, h⟩ := bind_eq_ok h
  obtain ⟨_, hr, hi⟩ := ball_new_ok h
  exact ball_new_contains h (hz.1.add hm hw.1 hr) (hz.2.add hm hw.2 hi)

theorem BallContains.sub (hz : BallContains a z) (hw : BallContains b w)
    (h : MpfrComplexBall.sub m a b = .ok c) : BallContains c (z - w) := by
  obtain ⟨_, _, h⟩ := bind_eq_ok h
  obtain ⟨_, hr, hi⟩ := ball_new_ok h
  exact ball_new_contains h (hz.1.sub hm hw.1 hr) (hz.2.sub hm hw.2 hi)

theorem BallContains.mul (hz : BallContains a z) (hw : BallContains b w)
    (h : MpfrComplexBall.mul m a b = .ok c) : BallContains c (z * w) := by
  obtain ⟨_, _, h⟩ := bind_eq_ok h
  obtain ⟨_, hr, hi⟩ := ball_new_ok h
  obtain ⟨⟨hac, hbd⟩, _⟩ := guarded_valid hr
  obtain ⟨⟨had, hbc⟩, _⟩ := guarded_valid hi
  refine ball_new_contains h ?_ ?_
  · rw [Complex.mul_re]
    exact (hz.1.mul hm hw.1 hac).sub hm (hz.2.mul hm hw.2 hbd) hr
  · rw [Complex.mul_im]
    exact (hz.1.mul hm hw.2 had).add hm (hz.2.mul hm hw.1 hbc) hi

theorem BallContains.reciprocal (hz : BallContains a z)
    (h : MpfrComplexBall.reciprocal m a = .ok c) : BallContains c (1 / z) := by
  obtain ⟨_, _, h⟩ := bind_eq_ok h
  obtain ⟨_, hd, h⟩ := bind_eq_ok h
  have hvalid : Valid (.add m (.square m a.real) (.square m a.imaginary)) := validate_valid hd
  obtain ⟨⟨hr, hi⟩, _⟩ := guarded_valid hvalid
  have hnorm : Contains (MpfrComplexBall.modulusSquared m a) (Complex.normSq z) := by
    rw [Complex.normSq_apply, ← sq, ← sq]
    exact (hz.1.square hm hr).add hm (hz.2.square hm hi) hvalid
  split at h
  · cases h
  · obtain ⟨re, hre, h⟩ := bind_eq_ok h
    obtain ⟨im, him, h⟩ := bind_eq_ok h
    rw [one_div]
    refine ball_new_contains h ?_ ?_
    · rw [Complex.inv_re]
      exact hz.1.div hm hnorm hre
    · rw [Complex.inv_im]
      exact hz.2.neg.div hm hnorm him

theorem BallContains.div (hz : BallContains a z) (hw : BallContains b w)
    (h : MpfrComplexBall.div m a b = .ok c) : BallContains c (z / w) := by
  obtain ⟨_, _, h⟩ := bind_eq_ok h
  obtain ⟨r, hr, h⟩ := bind_eq_ok h
  rw [div_eq_mul_one_div]
  exact hz.mul hm (hw.reciprocal hm hr) h

theorem exp_ok (h : MpfrComplexBall.exp m a = .ok c) :
    BallValid a ∧ ∀ z, BallContains a z → BallContains c (Complex.exp z) := by
  obtain ⟨cos, hcos, h⟩ := bind_eq_ok h
  obtain ⟨sin, hsin, h⟩ := bind_eq_ok h
  replace h := lift_ok h
  obtain ⟨_, hr, hi⟩ := ball_new_ok h
  obtain ⟨⟨hmag, hcosv⟩, _⟩ := guarded_valid hr
  obtain ⟨⟨_, hsinv⟩, _⟩ := guarded_valid hi
  obtain ⟨himag, hcosc⟩ := lipschitzTrig_spec hm false hcos hcosv
  obtain ⟨_, hsinc⟩ := lipschitzTrig_spec hm true hsin hsinv
  refine ⟨⟨exp_valid hm hmag, himag⟩, fun z hz => ball_new_contains h ?_ ?_⟩
  · rw [Complex.exp_re]
    exact (hz.1.exp hm hmag).mul hm (hcosc _ hz.2) hr
  · rw [Complex.exp_im]
    exact (hz.1.exp hm hmag).mul hm (hsinc _ hz.2) hi

/-- The squaring loop multiplies its result by the power that remains. -/
theorem powuLoop_contains {n : Nat} (hz : BallContains a z) (hw : BallContains b w)
    (h : MpfrComplexBall.powuLoop m a b n = .ok c) : BallContains c (z * w ^ n) := by
  induction n using Nat.strong_induction_on generalizing a b z w with
  | _ n ih =>
    rw [MpfrComplexBall.powuLoop] at h
    split at h
    · rename_i hn
      obtain ⟨result, hresult, h⟩ := bind_eq_ok h
      obtain ⟨factor, hfactor, h⟩ := bind_eq_ok h
      have hdiv := Nat.div_add_mod n 2
      have hresult' : BallContains result (z * w ^ (n % 2)) := by
        split at hresult
        · rename_i hodd
          rw [hodd, pow_one]
          exact hz.mul hm hw hresult
        · rename_i hodd
          cases hresult
          have heven : n % 2 = 0 := by omega
          rwa [heven, pow_zero, mul_one]
      split at hfactor
      · have hpow := ih (n / 2) (by omega) hresult' (hw.mul hm hw hfactor) h
        have hexp : z * w ^ (n % 2) * (w * w) ^ (n / 2) = z * w ^ n := by
          rw [← sq, ← pow_mul, mul_assoc, ← pow_add, Nat.add_comm, hdiv]
        rwa [hexp] at hpow
      · rename_i hlast
        cases hfactor
        have hone : n = 1 := by omega
        subst hone
        have hpow := ih 0 (by omega) hresult' hw h
        simpa using hpow
    · rename_i hn
      cases h
      have hzero : n = 0 := by omega
      rwa [hzero, pow_zero, mul_one]

theorem fromFloat_contains {x : MpfrFloat} {p : Nat} {q : ℚ} {i : MpfrInterval}
    (hx : x.finite? = some q) (h : MpfrInterval.fromFloat m x p = .ok i) : Contains i (q : ℝ) := by
  unfold MpfrInterval.fromFloat at h
  split at h
  · exact new_contains h (bounds_of_rounds (hm.set p .down hx) (hm.set p .up hx) le_rfl le_rfl)
  · cases h

theorem BallContains.powu {n : Nat} (hz : BallContains a z)
    (h : MpfrComplexBall.powu m a n = .ok c) : BallContains c (z ^ n) := by
  obtain ⟨_, _, h⟩ := bind_eq_ok h
  obtain ⟨one, hone, h⟩ := bind_eq_ok h
  obtain ⟨re, hre, hone⟩ := bind_eq_ok hone
  obtain ⟨im, him, hone⟩ := bind_eq_ok hone
  have hunit : BallContains one 1 := by
    refine ball_new_contains hone ?_ ?_
    · simpa using fromFloat_contains hm (finite?_ofInt _ 1) hre
    · simpa using fromFloat_contains hm (finite?_ofInt _ 0) him
  simpa using powuLoop_contains hm hunit hz h

/-! ## Polynomials -/

/-- The value of a polynomial with ascending coefficients. -/
def polynomialValue (coefficients : List ℂ) (z : ℂ) : ℂ :=
  (coefficients.mapIdx fun i c => c * z ^ i).sum

omit hm in
theorem polynomialValue_cons (c : ℂ) (cs : List ℂ) (z : ℂ) :
    polynomialValue (c :: cs) z = polynomialValue cs z * z + c := by
  have hshift : (cs.mapIdx fun i c => c * z ^ (i + 1)) = (cs.mapIdx fun i c => c * z ^ i).map
      (· * z) := by
    refine List.ext_getElem (by simp) fun i _ _ => ?_
    simp only [List.getElem_mapIdx, List.getElem_map]
    ring
  unfold polynomialValue
  rw [List.mapIdx_cons, List.sum_cons, hshift, List.sum_map_mul_right, List.map_id']
  ring

omit hm in
/-- Horner's rule from the highest coefficient down. -/
theorem polynomialValue_horner {cs : List ℂ} {highest : ℂ} {rest : List ℂ} (z : ℂ)
    (h : cs.reverse = highest :: rest) :
    polynomialValue cs z = rest.foldl (fun value c => value * z + c) highest := by
  have hfold : ∀ cs : List ℂ, polynomialValue cs z = cs.foldr (fun c value => value * z + c) 0 := by
    intro cs
    induction cs with
    | nil => rfl
    | cons c cs ih => rw [polynomialValue_cons, ih, List.foldr_cons]
  rw [hfold, ← List.foldl_reverse, h, List.foldl_cons, zero_mul, zero_add]

theorem horner_contains {rest : List MpfrComplexBall} {values : List ℂ}
    {argument value : MpfrComplexBall}
    {v : ℂ} (hrest : List.Forall₂ BallContains rest values) (hz : BallContains argument z)
    (hv : BallContains value v)
    (h : rest.foldlM (fun value coefficient => do
      MpfrComplexBall.add m (← MpfrComplexBall.mul m value argument) coefficient) value = .ok c) :
    BallContains c (values.foldl (fun value c => value * z + c) v) := by
  induction hrest generalizing value v with
  | nil =>
    cases h
    exact hv
  | cons hhead _ ih =>
    rw [List.foldlM_cons] at h
    obtain ⟨next, hnext, h⟩ := bind_eq_ok h
    obtain ⟨product, hproduct, hnext⟩ := bind_eq_ok hnext
    exact ih ((hv.mul hm hz hproduct).add hm hhead hnext) h

omit hm in
theorem forM_validate {coefficients : List MpfrComplexBall} {u : Unit}
    (h : coefficients.forM (fun coefficient => coefficient.validate) = .ok u) :
    ∀ coefficient ∈ coefficients, BallValid coefficient := by
  induction coefficients with
  | nil => simp
  | cons coefficient coefficients ih =>
    obtain ⟨_, hhead, h⟩ := bind_eq_ok h
    intro x hx
    rcases List.mem_cons.mp hx with rfl | hx
    · exact ball_validate_iff.mp hhead
    · exact ih h x hx

theorem evaluateComplexPolynomialMpfr_ok {coefficients : List MpfrComplexBall}
    {argument : MpfrComplexBall}
    (h : evaluateComplexPolynomialMpfr m coefficients argument = .ok c) :
    (BallValid argument ∧ ∀ coefficient ∈ coefficients, BallValid coefficient) ∧
      ∀ values z, List.Forall₂ BallContains coefficients values → BallContains argument z →
        BallContains c (polynomialValue values z) := by
  obtain ⟨_, hargument, h⟩ := bind_eq_ok h
  obtain ⟨_, hvalid, h⟩ := bind_eq_ok h
  refine ⟨⟨ball_validate_iff.mp hargument, forM_validate hvalid⟩, fun values z hvalues hz => ?_⟩
  have hreverse := List.forall₂_reverse_iff.mpr hvalues
  split at h
  · cases h
  · rename_i highest rest hcoefficients
    rw [hcoefficients] at hreverse
    obtain ⟨v, vs, hhead, htail, hvs⟩ := List.forall₂_cons_left_iff.mp hreverse
    split at h
    · cases h
    · rw [polynomialValue_horner z hvs]
      exact horner_contains hm htail hz hhead h

end

end Xcelerator.Numerics.MpfrComplexSoundness
