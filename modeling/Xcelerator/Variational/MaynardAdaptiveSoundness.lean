import Mathlib
import Xcelerator.Variational.MaynardAdaptive
import Xcelerator.Variational.MaynardOrbits

/-! # Prolongation keeps the polynomial

The bases of a history are the partitions up to increasing degrees. A vector and
its prolongation give every partition the same coefficient, and the quadratic
forms depend on the vector only through these. -/

namespace Xcelerator.Variational.Maynard
open Xcelerator.Foundations (Binary64)
open Xcelerator.Foundations.Machine

/-! ## Coefficients by partition -/

/-- The coefficient a vector gives a partition, zero outside the basis. -/
def coefficientOf (basis : List IntegerPartition) (coefficients : List ℚ)
    (partition : IntegerPartition) : ℚ :=
  ((basis.zip coefficients).lookup partition).getD 0

theorem lookup_of_not_mem {α : Type} {basis : List IntegerPartition} {p : IntegerPartition}
    (h : p ∉ basis) (values : List α) :
    (basis.zip values).lookup p = none := by
  rw [List.lookup_eq_none_iff]
  intro entry hentry
  have hmem := (List.of_mem_zip hentry).1
  refine bne_iff_ne.mpr fun heq => ?_
  rw [← heq] at hmem
  exact h hmem

theorem lookup_zip {α : Type} {basis : List IntegerPartition} (hnodup : basis.Nodup)
    {values : List α} {i : Nat}
    {p : IntegerPartition} {a : α} (hp : basis[i]? = some p) (ha : values[i]? = some a) :
    (basis.zip values).lookup p = some a := by
  induction basis generalizing values i with
  | nil => simp at hp
  | cons q basis ih =>
    obtain ⟨hq, hrest⟩ := List.nodup_cons.mp hnodup
    cases values with
    | nil => simp at ha
    | cons b values =>
      rw [List.zip_cons_cons]
      cases i with
      | zero =>
        cases hp
        cases ha
        rw [List.lookup_cons_self]
      | succ i =>
        rw [List.getElem?_cons_succ] at hp ha
        have hne : (p == q) = false := by
          rw [beq_eq_false_iff_ne]
          rintro rfl
          exact hq (List.mem_of_getElem? hp)
        rw [List.lookup_cons, hne]
        exact ih hrest hp ha

theorem coefficientOf_not_mem {basis : List IntegerPartition} {p : IntegerPartition} (h : p ∉ basis)
    (coefficients : List ℚ) :
    coefficientOf basis coefficients p = 0 := by
  rw [coefficientOf, lookup_of_not_mem h]
  rfl

theorem coefficientOf_getElem {basis : List IntegerPartition} (hnodup : basis.Nodup)
    {coefficients : List ℚ} {i : Nat}
    {p : IntegerPartition} {c : ℚ} (hp : basis[i]? = some p) (hc : coefficients[i]? = some c) :
    coefficientOf basis coefficients p = c := by
  rw [coefficientOf, lookup_zip hnodup hp hc]
  rfl

/-! ## Prolongation -/

section
variable {basis child : List IntegerPartition}

theorem checkBasis_ok {seen : List IntegerPartition}
    (hvalid : ∀ p ∈ basis, validatePartition p (2 ^ 64 - 1) = .ok ())
    (hnodup : basis.Nodup) (hseen : List.Disjoint basis seen) : checkBasis basis seen = .ok () := by
  induction basis generalizing seen with
  | nil => rfl
  | cons p basis ih =>
    obtain ⟨hp, hrest⟩ := List.nodup_cons.mp hnodup
    have hfresh : seen.contains p = false := by
      rw [Bool.eq_false_iff, ne_eq, List.contains_iff_mem]
      exact fun hmem => hseen List.mem_cons_self hmem
    have hdisjoint : List.Disjoint basis (p :: seen) := by
      intro q hq hmem
      rcases List.mem_cons.mp hmem with rfl | hmem
      · exact hp hq
      · exact hseen (List.mem_cons_of_mem _ hq) hmem
    rw [checkBasis, hvalid p List.mem_cons_self, ok_bind, hfresh]
    exact ih (fun q hq => hvalid q (List.mem_cons_of_mem _ hq)) hrest hdisjoint

theorem childPosition_ok {p : IntegerPartition} (h : p ∈ child) :
    ∃ i, childPosition child p = some i ∧ child[i]? = some p := by
  obtain ⟨i, hi, hget⟩ := List.getElem_of_mem h
  have hsome : (child.zipIdx.reverse.find? fun entry => decide (entry.1 = p)).isSome := by
    rw [List.find?_isSome]
    refine ⟨(p, i), List.mem_reverse.mpr ?_, by simp⟩
    rw [List.mem_zipIdx_iff_getElem?]
    exact List.getElem?_eq_some_iff.mpr ⟨hi, hget⟩
  obtain ⟨entry, hentry⟩ := Option.isSome_iff_exists.mp hsome
  have hmem := List.mem_reverse.mp (List.mem_of_find?_eq_some hentry)
  have hkey : entry.1 = p := by simpa using List.find?_some hentry
  rw [List.mem_zipIdx_iff_getElem?, hkey] at hmem
  exact ⟨entry.2, by rw [childPosition, hentry]; rfl, hmem⟩

/-- Every entry is placed at its partition; the other coordinates keep their value. -/
theorem placeCoefficients_ok (hchild : child.Nodup) {entries : List (IntegerPartition × Binary64)}
    (hnodup : (entries.map Prod.fst).Nodup) (hmem : ∀ p ∈ entries.map Prod.fst, p ∈ child)
    {start : List Binary64} (hlength : start.length = child.length) :
    ∃ placed, entries.foldlM (placeCoefficient child) start = .ok placed ∧
    placed.length = child.length ∧
      ∀ (i : Nat) (p : IntegerPartition), child[i]? = some p →
      placed[i]? = (entries.lookup p).or start[i]? := by
  induction entries generalizing start with
  | nil => exact ⟨start, rfl, hlength, fun i p _ => by simp⟩
  | cons entry entries ih =>
    rw [List.map_cons, List.nodup_cons] at hnodup
    rw [List.map_cons, List.forall_mem_cons] at hmem
    obtain ⟨position, hposition, hget⟩ := childPosition_ok hmem.1
    have hlt : position < start.length := by
      rw [hlength]
      exact (List.getElem?_eq_some_iff.mp hget).1
    have hstep : placeCoefficient child start entry = .ok (start.set position entry.2) := by
      rw [placeCoefficient, hposition]
      simp only [okOr, ok_bind, write_ok _ hlt]
      rfl
    obtain ⟨placed, hplaced, hsize, hread⟩ :=
      @ih hnodup.2 hmem.2 (start.set position entry.2) (by rw [List.length_set, hlength])
    refine ⟨placed, by rw [List.foldlM_cons, hstep, ok_bind, hplaced], hsize, fun i p hp => ?_⟩
    rw [hread i p hp]
    by_cases hkey : p = entry.1
    · -- the partition of this entry occurs at this position only
      have hsame : position = i := by
        rw [← hkey] at hget
        obtain ⟨hi, hpi⟩ := List.getElem?_eq_some_iff.mp hp
        obtain ⟨hj, hpj⟩ := List.getElem?_eq_some_iff.mp hget
        exact hchild.getElem_inj_iff.mp (hpj.trans hpi.symm)
      have hnone : entries.lookup p = none := by
        rw [List.lookup_eq_none_iff]
        intro other hother
        refine bne_iff_ne.mpr fun heq => ?_
        exact hnodup.1 (by rw [← hkey, heq]; exact List.mem_map_of_mem hother)
      have hself : (entry :: entries).lookup p = some entry.2 := by
        obtain ⟨key, value⟩ := entry
        cases hkey
        rw [List.lookup_cons_self]
      rw [hnone, hself, ← hsame, List.getElem?_set_self hlt]
      rfl
    · have hother : (entry :: entries).lookup p = entries.lookup p := by
        obtain ⟨key, value⟩ := entry
        have hne : (p == key) = false := beq_eq_false_iff_ne.mpr hkey
        rw [List.lookup_cons, hne]
      have hne : position ≠ i := by
        rintro rfl
        exact hkey (Option.some.inj (hp.symm.trans hget))
      rw [hother, List.getElem?_set_ne hne]

theorem zero64_value : zero64.value = 0 := by
  simp [Binary64.value, Binary64.signed, Binary64.significand, Binary64.encoded,
    Binary64.fraction, zero64]

/-- A vector on a basis is prolonged to a larger one with the same coefficients by partition. -/
theorem prolong_ok (hbasis : basis.Nodup) (hchild : child.Nodup) (hsub : basis ⊆ child)
    (hvalid : ∀ p ∈ child, validatePartition p (2 ^ 64 - 1) = .ok ()) {coefficients : List Binary64}
    (hlength : coefficients.length = basis.length) (hfinite : ∀ c ∈ coefficients, c.isFinite = true)
    (source target : Nat) :
    ∃ warm, prolongSymmetricWarmStart basis coefficients child source target = .ok warm ∧
      warm.coefficients.length = child.length ∧
      ∀ p, coefficientOf child (warm.coefficients.map Binary64.value) p =
        coefficientOf basis (coefficients.map Binary64.value) p := by
  have hkeys : (basis.zip coefficients).map Prod.fst = basis := List.map_fst_zip (by omega)
  obtain ⟨placed, hplaced, hsize, hread⟩ :=
    @placeCoefficients_ok child hchild (basis.zip coefficients) (by rwa [hkeys])
    (by rw [hkeys]; exact hsub) (List.replicate child.length zero64) List.length_replicate
  have hall : (coefficients.any fun value => !value.isFinite) = false := by
    rw [List.any_eq_false]
    intro c hc
    rw [hfinite c hc]
    simp
  refine ⟨⟨placed, some source, target, none, .cachedHp, false⟩, ?_, hsize, fun p => ?_⟩
  · rw [prolongSymmetricWarmStart, if_neg (not_not.mpr hlength.symm), hall]
    simp only [check, Bool.not_false, if_true, ok_bind,
      checkBasis_ok (fun p hp => hvalid p (hsub hp)) hbasis (List.disjoint_nil_right basis),
      checkBasis_ok hvalid hchild (List.disjoint_nil_right child), hplaced]
    rfl
  · by_cases hp : p ∈ child
    · obtain ⟨i, hi, hget⟩ := List.getElem_of_mem hp
      have hpi : child[i]? = some p := List.getElem?_eq_some_iff.mpr ⟨hi, hget⟩
      have hplace := hread i p hpi
      by_cases hpb : p ∈ basis
      · obtain ⟨j, hj, hgetj⟩ := List.getElem_of_mem hpb
        have hpj : basis[j]? = some p := List.getElem?_eq_some_iff.mpr ⟨hj, hgetj⟩
        have hcj : coefficients[j]? = some (coefficients[j]) :=
          List.getElem?_eq_some_iff.mpr ⟨by omega, rfl⟩
        rw [lookup_zip hbasis hpj hcj] at hplace
        rw [coefficientOf_getElem hchild hpi (by rw [List.getElem?_map, hplace]; rfl),
          coefficientOf_getElem hbasis hpj (by rw [List.getElem?_map, hcj]; rfl)]
      · rw [lookup_of_not_mem hpb, List.getElem?_replicate, if_pos hi] at hplace
        rw [coefficientOf_not_mem hpb,
          coefficientOf_getElem hchild hpi (by rw [List.getElem?_map, hplace]; rfl)]
        exact zero64_value
    · rw [coefficientOf_not_mem hp, coefficientOf_not_mem fun hpb => hp (hsub hpb)]

end

/-! ## Forms by partition -/

/-- The sum of a function over the orbit of a partition. -/
def overOrbit (k : Nat) (g : MultiIndex → ℚ) (partition : IntegerPartition) : ℚ :=
  (((partitionOrbit partition k).toOption.getD []).map g).sum

/-- A linear functional of a vector, from its coefficients by partition. -/
def evaluate (k : Nat) (basis : List IntegerPartition) (coefficients : List ℚ)
    (g : MultiIndex → ℚ) : ℚ :=
  ∑ p ∈ basis.toFinset, coefficientOf basis coefficients p * overOrbit k g p

/-- Vectors with the same coefficients by partition have the same functionals. -/
theorem evaluate_eq {k : Nat} {basis child : List IntegerPartition} (hsub : basis ⊆ child)
    {coefficients prolonged : List ℚ}
    (hsame : ∀ p, coefficientOf child prolonged p = coefficientOf basis coefficients p)
    (g : MultiIndex → ℚ) :
    evaluate k child prolonged g = evaluate k basis coefficients g := by
  have hsubset : basis.toFinset ⊆ child.toFinset :=
    fun p hp => List.mem_toFinset.mpr (hsub (List.mem_toFinset.mp hp))
  rw [evaluate, evaluate, ← Finset.sum_subset hsubset]
  · exact Finset.sum_congr rfl fun p _ => by rw [hsame]
  · intro p _ hp
    rw [hsame, coefficientOf_not_mem fun hmem => hp (List.mem_toFinset.mpr hmem), zero_mul]

section
variable {s : MkSymmetricReference} {k degree : Nat}

/-- The orbits are those of the enumerated partitions. -/
theorem new_orbits (h : MkSymmetricReference.new k degree = .ok s) :
    enumerateIntegerPartitions k degree = .ok (s.orbits.map SymmetricMonomialOrbit.partition) ∧
      ∀ o ∈ s.orbits, partitionOrbit o.partition k = .ok o.members := by
  unfold MkSymmetricReference.new at h
  obtain ⟨monomial, -, h⟩ := bind_eq_ok h
  obtain ⟨partitions, hpartitions, h⟩ := bind_eq_ok h
  obtain ⟨orbits, horbits, h⟩ := bind_eq_ok h
  cases h
  have hall : ∀ (partitions : List IntegerPartition) (orbits : List SymmetricMonomialOrbit),
      partitions.mapM (orbitOf k) = .ok orbits → orbits.map SymmetricMonomialOrbit.partition =
        partitions ∧
        ∀ o ∈ orbits, partitionOrbit o.partition k = .ok o.members := by
    intro partitions
    induction partitions with
    | nil =>
      intro orbits h
      cases h
      simp
    | cons p partitions ih =>
      intro orbits h
      rw [List.mapM_cons] at h
      obtain ⟨o, ho, h⟩ := bind_eq_ok h
      obtain ⟨rest, hrest, h⟩ := bind_eq_ok h
      cases h
      obtain ⟨members, hmembers, ho⟩ := bind_eq_ok ho
      cases ho
      obtain ⟨hmap, horbit⟩ := ih rest hrest
      refine ⟨by rw [List.map_cons, hmap], fun o ho => ?_⟩
      rcases List.mem_cons.mp ho with rfl | ho
      · exact hmembers
      · exact horbit o ho
  obtain ⟨hmap, horbit⟩ := hall partitions orbits horbits
  exact ⟨by rw [hmap]; exact hpartitions, horbit⟩

/-- The sum over all members is the functional of the coefficients by partition. -/
theorem weighted_evaluate (h : MkSymmetricReference.new k degree = .ok s) {coefficients : List ℚ}
    (hlength : coefficients.length = s.dimension) (g : MultiIndex → ℚ) :
    ((weighted s coefficients).map fun cell => cell.1 * g cell.2).sum =
      evaluate k (s.orbits.map SymmetricMonomialOrbit.partition) coefficients g := by
  obtain ⟨henumerate, horbit⟩ := new_orbits h
  have hnodup := (enumerateIntegerPartitions_ok henumerate).1
  rw [weighted_sum hlength, evaluate, List.sum_toFinset _ hnodup, ← sum_range, List.map_map]
  refine congrArg List.sum (List.ext_getElem (by simp [MkSymmetricReference.dimension])
    fun i hi hi' => ?_)
  have ho : i < s.orbits.length := by simpa using hi'
  have hc : i < coefficients.length := hlength.symm ▸ ho
  have hp : (s.orbits.map SymmetricMonomialOrbit.partition)[i]? = some (s.orbits[i].partition) := by
    rw [List.getElem?_map, List.getElem?_eq_getElem ho]
    rfl
  simp only [List.getElem_map, List.getElem_range, Function.comp_apply]
  rw [coefficientOf_getElem hnodup hp (List.getElem?_eq_getElem hc), overOrbit,
    horbit _ (List.getElem_mem ho),
    MkSymmetricReference.members, List.getElem?_eq_getElem ho, List.getD_eq_getElem _ _ hc]
  rfl

/-- The form `I` of two monomials. -/
def iValue (k : Nat) (a b : MultiIndex) : ℚ :=
  (∏ i ∈ Finset.range k, ((exponent a b i).factorial : ℚ)) / (k + a.sum + b.sum).factorial

/-- The form `J` of two monomials, summed over the axes. -/
def jTotalValue (k : Nat) (a b : MultiIndex) : ℚ :=
  ((List.range k).map fun m => (exponent a b m + 2).factorial *
    (∏ i ∈ (Finset.range k).erase m, ((exponent a b i).factorial : ℚ)) /
      ((a.getD m 0 + 1) * (b.getD m 0 + 1) * (k + 1 + a.sum + b.sum).factorial)).sum

theorem Covers.accepted_indices (h : Covers s k degree) :
    ∀ a ∈ s.monomial.indices, ∀ b ∈ s.monomial.indices, Accepted s.monomial a b := by
  obtain ⟨hk, hdegree, -, -⟩ := new_ok h.engine
  obtain ⟨-, hmem⟩ := h.indices
  intro a ha b hb
  obtain ⟨hal, has⟩ := (hmem a).mp ha
  obtain ⟨hbl, hbs⟩ := (hmem b).mp hb
  exact ⟨hal.trans hk.symm, hbl.trans hk.symm, hdegree ▸ has, hdegree ▸ hbs⟩

theorem Covers.iEntry (h : Covers s k degree) :
    ∀ a ∈ s.monomial.indices, ∀ b ∈ s.monomial.indices, s.monomial.iEntry a b =
      .ok (iValue k a b) := by
  obtain ⟨hk, -, -, hr⟩ := new_ok h.engine
  intro a ha b hb
  rw [iEntry_ok hr (h.accepted_indices a ha b hb), hk]
  rfl

theorem Covers.jTotalEntry (h : Covers s k degree) :
    ∀ a ∈ s.monomial.indices, ∀ b ∈ s.monomial.indices, s.monomial.jTotalEntry a b =
      .ok (jTotalValue k a b) := by
  obtain ⟨hk, -, -, hr⟩ := new_ok h.engine
  intro a ha b hb
  have hsum := @foldlM_add _ (fun total m => do return total + (← s.monomial.jEntry m a b)) _
    (List.range s.monomial.k) (fun m hm total => by
      rw [jEntry_ok hr (h.accepted_indices a ha b hb) (List.mem_range.mp hm), ok_bind]
      rfl) 0
  rw [MkMonomialReference.jTotalEntry, hsum, hk, zero_add]
  rfl

/-- A symmetric form, from the coefficients by partition. -/
theorem form_evaluate (h : MkSymmetricReference.new k degree = .ok s) {coefficients : List ℚ}
    (hlength : coefficients.length = s.dimension) {entry : MultiIndex → MultiIndex → Mk ℚ}
    {f : MultiIndex → MultiIndex → ℚ}
    (hentry : ∀ a ∈ s.monomial.indices, ∀ b ∈ s.monomial.indices, entry a b = .ok (f a b)) :
    ∃ expanded, s.expandCoefficientsExact coefficients = .ok expanded ∧
    expanded.length = s.monomial.dimension ∧
      s.monomial.quadraticForm expanded entry =
        .ok (evaluate k (s.orbits.map SymmetricMonomialOrbit.partition) coefficients fun a =>
          evaluate k (s.orbits.map SymmetricMonomialOrbit.partition) coefficients (f a)) := by
  obtain ⟨expanded, hexpand, hsize, hfunctional⟩ := expand_ok (new_covers h) hlength
  have heval : ∀ g, functional s g expanded =
      evaluate k (s.orbits.map SymmetricMonomialOrbit.partition) coefficients g := fun g => by
    rw [hfunctional g, weighted_evaluate h hlength]
  refine ⟨expanded, hexpand, hsize, ?_⟩
  rw [quadraticForm_functional hentry, heval]
  simp only [heval]

theorem quadraticI_ok (h : MkSymmetricReference.new k degree = .ok s) {coefficients : List ℚ}
    (hlength : coefficients.length = s.dimension) :
    s.quadraticI coefficients =
      .ok (evaluate k (s.orbits.map SymmetricMonomialOrbit.partition) coefficients fun a =>
      evaluate k (s.orbits.map SymmetricMonomialOrbit.partition) coefficients (iValue k a)) := by
  obtain ⟨expanded, hexpand, hsize, hform⟩ := form_evaluate h hlength (new_covers h).iEntry
  rw [MkSymmetricReference.quadraticI, hexpand, ok_bind, MkMonomialReference.quadraticI,
    MkMonomialReference.checkCoefficients, if_pos hsize, ok_bind, hform]

theorem quadraticJTotal_ok (h : MkSymmetricReference.new k degree = .ok s) {coefficients : List ℚ}
    (hlength : coefficients.length = s.dimension) :
    s.quadraticJTotal coefficients =
      .ok (evaluate k (s.orbits.map SymmetricMonomialOrbit.partition) coefficients fun a =>
      evaluate k (s.orbits.map SymmetricMonomialOrbit.partition) coefficients
        (jTotalValue k a)) := by
  obtain ⟨expanded, hexpand, hsize, hform⟩ := form_evaluate h hlength (new_covers h).jTotalEntry
  rw [MkSymmetricReference.quadraticJTotal, hexpand, ok_bind, MkMonomialReference.quadraticJTotal,
    MkMonomialReference.checkCoefficients, if_pos hsize, ok_bind, hform]

end

/-- Two vectors whose exact forms, and so whose quotients, are the same. -/
structure SameForms (s child : MkSymmetricReference) (coefficients prolonged : List ℚ) : Prop where
  i : ∃ i, s.quadraticI coefficients = .ok i ∧ child.quadraticI prolonged = .ok i
  j : ∃ j, s.quadraticJTotal coefficients = .ok j ∧ child.quadraticJTotal prolonged = .ok j
  rayleigh : child.rayleighQuotient prolonged = s.rayleighQuotient coefficients

theorem sameForms {k degree degree' : Nat} {s child : MkSymmetricReference}
    (hs : MkSymmetricReference.new k degree = .ok s)
    (hchild : MkSymmetricReference.new k degree' = .ok child) {coefficients prolonged : List ℚ}
    (hsub : s.orbits.map SymmetricMonomialOrbit.partition ⊆ child.orbits.map
      SymmetricMonomialOrbit.partition)
    (hlength : coefficients.length = s.dimension) (hlength' : prolonged.length = child.dimension)
    (hsame : ∀ p, coefficientOf (child.orbits.map SymmetricMonomialOrbit.partition) prolonged p =
      coefficientOf (s.orbits.map SymmetricMonomialOrbit.partition) coefficients p) :
    SameForms s child coefficients prolonged := by
  have heval := evaluate_eq (k := k) hsub hsame
  have hi := quadraticI_ok hchild hlength'
  have hj := quadraticJTotal_ok hchild hlength'
  simp only [heval] at hi hj
  refine ⟨⟨_, quadraticI_ok hs hlength, hi⟩, ⟨_, quadraticJTotal_ok hs hlength, hj⟩, ?_⟩
  rw [MkSymmetricReference.rayleighQuotient, MkSymmetricReference.rayleighQuotient, hi, hj,
    quadraticI_ok hs hlength, quadraticJTotal_ok hs hlength]

/-! ## The history -/

/-- A generation at a position: its degree, its complete basis and the shell it adds. -/
structure Generation (k initialDegree position : Nat) (g : AdaptiveSpaceGeneration) : Prop where
  degree : g.degree = initialDegree + position
  parent : g.parentGeneration = if position = 0 then none else some (position - 1)
  basis : enumerateIntegerPartitions k (initialDegree + position) = .ok g.realizedBasis
  block : g.acceptedBlock =
    if position = 0 then g.realizedBasis else g.realizedBasis.filter fun partition =>
      partition.sum = initialDegree + position

/-- Every generation of the history is the one of its position. -/
def History (k initialDegree : Nat) (history : List AdaptiveSpaceGeneration) : Prop :=
  ∀ position g, history[position]? = some g → Generation k initialDegree position g

section
variable {k initialDegree : Nat} {history : List AdaptiveSpaceGeneration}

theorem History.append (h : History k initialDegree history) {child : AdaptiveSpaceGeneration}
    (hchild : Generation k initialDegree history.length child) :
    History k initialDegree (history ++ [child]) := by
  intro position g hg
  by_cases hlt : position < history.length
  · rw [List.getElem?_append_left hlt] at hg
    exact h position g hg
  · rw [List.getElem?_append_right (not_lt.mp hlt)] at hg
    have hzero : position - history.length = 0 := by
      have hbound := (List.getElem?_eq_some_iff.mp hg).1
      simpa using hbound
    rw [hzero] at hg
    have hposition : position = history.length := by omega
    rw [hposition]
    cases hg
    exact hchild

/-- A stopping reason is no part of what the history says. -/
theorem History.setLastReason (h : History k initialDegree history) (reason : String) :
    History k initialDegree (setLastReason reason history) := by
  rcases List.eq_nil_or_concat history with rfl | ⟨before, last, rfl⟩
  · exact h
  · rw [List.concat_eq_append] at h ⊢
    have hset : Maynard.setLastReason reason (before ++ [last]) = before ++
        [{ last with stoppingReason := some reason }] := by
      simp [Maynard.setLastReason]
    rw [hset]
    refine History.append (fun position g hg => ?_) ?_
    · exact h position g (by
        rw [List.getElem?_append_left (List.getElem?_eq_some_iff.mp hg).1]
        exact hg)
    · obtain ⟨hdegree, hparent, hbasis, hblock⟩ := h before.length last (by simp)
      exact ⟨hdegree, hparent, hbasis, hblock⟩

theorem History.close (h : History k initialDegree history) (maximumDegree : Nat) :
    History k initialDegree (close maximumDegree history) := by
  unfold Maynard.close
  split
  · split
    · exact h.setLastReason _
    · exact h
  · exact h

theorem shell_ok {generation : Nat} {child : AdaptiveSpaceGeneration} (hpos : generation ≠ 0)
    (h : shell k (initialDegree + generation) generation = .ok child) :
    Generation k initialDegree generation child := by
  obtain ⟨complete, hcomplete, h⟩ := bind_eq_ok h
  cases h
  exact ⟨rfl, (if_neg hpos).symm, hcomplete, (if_neg hpos).symm⟩

/-- One degree a turn: the next degree is the initial one and the length of the history. -/
theorem grow_ok {maximumGenerations n : Nat} (h : History k initialDegree history)
    (hne : history ≠ []) {final : List AdaptiveSpaceGeneration}
    (hgrow : grow k maximumGenerations (List.range' (initialDegree + history.length) n) history =
      .ok final) :
    History k initialDegree final := by
  induction n generalizing history with
  | zero =>
    cases hgrow
    exact h
  | succ n ih =>
    rw [List.range'_succ, grow] at hgrow
    split at hgrow
    · cases hgrow
      exact h.setLastReason _
    · obtain ⟨child, hchild, hgrow⟩ := bind_eq_ok hgrow
      have hgeneration := shell_ok (fun hzero => hne (List.length_eq_zero_iff.mp hzero)) hchild
      refine ih (h.append hgeneration) (by simp) ?_
      rw [List.length_append, List.length_singleton, ← Nat.add_assoc]
      exact hgrow

theorem degree_lt {degree : Nat} {basis : List IntegerPartition}
    (h : enumerateIntegerPartitions k degree = .ok basis) :
    degree < 2 ^ 32 := by
  obtain ⟨_, hdegree, -⟩ := bind_eq_ok h
  exact of_decide_eq_true (check_ok hdegree)

theorem build_history {policy : AdaptiveSpacePolicy}
    (h : buildAdaptiveSymmetricSpaces policy = .ok history) :
    History policy.k policy.initialDegree history := by
  unfold buildAdaptiveSymmetricSpaces at h
  obtain ⟨_, -, h⟩ := bind_eq_ok h
  obtain ⟨_, -, h⟩ := bind_eq_ok h
  obtain ⟨_, -, h⟩ := bind_eq_ok h
  obtain ⟨_, -, h⟩ := bind_eq_ok h
  obtain ⟨_, -, h⟩ := bind_eq_ok h
  obtain ⟨_, -, h⟩ := bind_eq_ok h
  obtain ⟨_, -, h⟩ := bind_eq_ok h
  obtain ⟨initialBasis, hinitial, h⟩ := bind_eq_ok h
  obtain ⟨grown, hgrown, h⟩ := bind_eq_ok h
  cases h
  refine History.close ?_ _
  have hfirst : saturatingAdd policy.initialDegree 1 = policy.initialDegree + 1 := by
    have := degree_lt hinitial
    rw [saturatingAdd]
    omega
  rw [hfirst] at hgrown
  have hroot : ∀ g : AdaptiveSpaceGeneration, g.degree = policy.initialDegree →
    g.parentGeneration = none →
      g.acceptedBlock = g.realizedBasis → g.realizedBasis = initialBasis →
      History policy.k policy.initialDegree [g] := by
    intro g hdegree hparent hblock hbasis
    refine @History.append policy.k policy.initialDegree [] (fun position g hg => by
      simp at hg) g ?_
    exact ⟨hdegree, hparent, by rw [hbasis]; exact hinitial, hblock⟩
  exact grow_ok (hroot _ rfl rfl rfl rfl) (by simp) hgrown

/-! ## Nesting -/

theorem Generation.mem {position : Nat} {g : AdaptiveSpaceGeneration}
    (h : Generation k initialDegree position g)
    {p : IntegerPartition} :
    p ∈ g.realizedBasis ↔ ∃ total ≤ initialDegree + position, IsPartition k total total p :=
  (enumerateIntegerPartitions_ok h.basis).2 p

theorem Generation.nodup {position : Nat} {g : AdaptiveSpaceGeneration}
    (h : Generation k initialDegree position g) :
    g.realizedBasis.Nodup := (enumerateIntegerPartitions_ok h.basis).1

theorem Generation.nested {position position' : Nat} {g g' : AdaptiveSpaceGeneration}
    (h : Generation k initialDegree position g) (h' : Generation k initialDegree position' g')
    (hle : position ≤ position') :
    g.realizedBasis ⊆ g'.realizedBasis := by
  intro p hp
  obtain ⟨total, htotal, hpart⟩ := h.mem.mp hp
  exact h'.mem.mpr ⟨total, by omega, hpart⟩

/-- A partition of bounded degree passes the check without a bound on its length. -/
theorem Generation.valid {position : Nat} {g : AdaptiveSpaceGeneration}
    (h : Generation k initialDegree position g) :
    ∀ p ∈ g.realizedBasis, validatePartition p (2 ^ 64 - 1) = .ok () := by
  intro p hp
  obtain ⟨total, htotal, hpart⟩ := h.mem.mp hp
  have hdegree := degree_lt h.basis
  have hlength : p.length ≤ total := by
    have hsum := List.length_le_sum_of_one_le p fun x hx => (hpart.bounds x hx).1
    rw [hpart.sum] at hsum
    exact hsum
  exact validatePartition_ok ⟨hpart.sum, by omega, hpart.bounds, hpart.nonincreasing⟩

/-- A child's basis is its parent's and the block of the next degree. -/
theorem Generation.step {position : Nat} {parent child : AdaptiveSpaceGeneration}
    (hparent : Generation k initialDegree position parent)
    (hchild : Generation k initialDegree (position + 1) child) :
    List.Disjoint parent.realizedBasis child.acceptedBlock ∧
      child.realizedBasis.Perm (parent.realizedBasis ++ child.acceptedBlock) := by
  have hblock : child.acceptedBlock =
      child.realizedBasis.filter fun partition => partition.sum = initialDegree + (position + 1) :=
        hchild.block
  have hdisjoint : List.Disjoint parent.realizedBasis child.acceptedBlock := by
    intro p hp hblocked
    obtain ⟨total, htotal, hpart⟩ := hparent.mem.mp hp
    rw [hblock, List.mem_filter, decide_eq_true_eq, hpart.sum] at hblocked
    omega
  refine ⟨hdisjoint, ?_⟩
  have hboth : (parent.realizedBasis ++ child.acceptedBlock).Nodup := by
    rw [List.nodup_append']
    exact ⟨hparent.nodup, hblock ▸ hchild.nodup.filter _, hdisjoint⟩
  rw [List.perm_ext_iff_of_nodup hchild.nodup hboth]
  intro p
  rw [List.mem_append, hblock, List.mem_filter, decide_eq_true_eq]
  constructor
  · intro hp
    obtain ⟨total, htotal, hpart⟩ := hchild.mem.mp hp
    by_cases hlast : total = initialDegree + (position + 1)
    · exact .inr ⟨hp, hpart.sum.trans hlast⟩
    · exact .inl (hparent.mem.mpr ⟨total, by omega, hpart⟩)
  · rintro (hp | ⟨hp, -⟩)
    · exact hparent.nested hchild (Nat.le_succ position) hp
    · exact hp

/-- Generations are nested by blocks, and prolongation between any two of them keeps the polynomial,
both exact forms and the quotient. -/
theorem adaptive_prolongation (policy : AdaptiveSpacePolicy)
    (history : List AdaptiveSpaceGeneration)
    (h : buildAdaptiveSymmetricSpaces policy = .ok history) :
    (∀ root, history[0]? = some root → root.parentGeneration = none ∧ root.acceptedBlock =
      root.realizedBasis) ∧
      (∀ g parent child, history[g]? = some parent → history[g + 1]? = some child →
        child.parentGeneration = some g ∧ List.Disjoint parent.realizedBasis child.acceptedBlock ∧
          child.realizedBasis.Perm (parent.realizedBasis ++ child.acceptedBlock)) ∧
      ∀ g g' source target, g ≤ g' → history[g]? = some source → history[g']? = some target →
        ∀ coefficients : List Binary64, coefficients.length = source.realizedBasis.length →
          (∀ c ∈ coefficients, c.isFinite = true) →
          ∃ warm, prolongSymmetricWarmStart source.realizedBasis coefficients target.realizedBasis g
            g' = .ok warm ∧
            (∀ p, coefficientOf target.realizedBasis (warm.coefficients.map Binary64.value) p =
              coefficientOf source.realizedBasis (coefficients.map Binary64.value) p) ∧
            ∀ s s', MkSymmetricReference.new policy.k source.degree = .ok s →
              MkSymmetricReference.new policy.k target.degree = .ok s' →
              SameForms s s' (coefficients.map Binary64.value)
              (warm.coefficients.map Binary64.value) := by
  have hhistory := build_history h
  refine ⟨fun root hroot => ?_, fun g parent child hparent hchild => ?_,
    fun g g' source target hle hsource htarget coefficients hlength hfinite => ?_⟩
  · have hgeneration := hhistory 0 root hroot
    exact ⟨hgeneration.parent, hgeneration.block⟩
  · have hgeneration := hhistory (g + 1) child hchild
    exact ⟨hgeneration.parent, (hhistory g parent hparent).step hgeneration⟩
  · have hs := hhistory g source hsource
    have ht := hhistory g' target htarget
    obtain ⟨warm, hwarm, hsize, hsame⟩ :=
      prolong_ok hs.nodup ht.nodup (hs.nested ht hle) ht.valid hlength hfinite g g'
    refine ⟨warm, hwarm, hsame, fun s s' hnew hnew' => ?_⟩
    have hbasis : s.orbits.map SymmetricMonomialOrbit.partition = source.realizedBasis := by
      rw [hs.degree] at hnew
      exact Except.ok.inj ((new_orbits hnew).1.symm.trans hs.basis)
    have hbasis' : s'.orbits.map SymmetricMonomialOrbit.partition = target.realizedBasis := by
      rw [ht.degree] at hnew'
      exact Except.ok.inj ((new_orbits hnew').1.symm.trans ht.basis)
    refine sameForms hnew hnew' ?_ ?_ ?_ ?_
    · rw [hbasis, hbasis']
      exact hs.nested ht hle
    · rw [List.length_map, hlength, ← hbasis, List.length_map]
      rfl
    · rw [List.length_map, hsize, ← hbasis', List.length_map]
      rfl
    · rw [hbasis, hbasis']
      exact hsame

end

/-! Two generations in the plane. -/

def planePolicy : AdaptiveSpacePolicy := ⟨2, 1, 2, 10⟩

theorem exists_of_isOk {α : Type} {x : Mk α} (h : x.isOk = true) : ∃ a, x = .ok a := by
  cases x with
  | error e => cases h
  | ok a => exact ⟨a, rfl⟩

def planeRoot : AdaptiveSpaceGeneration := ⟨0, none, 1, [[], [1]], [[], [1]], [[], [1]], none⟩

def planeChild : AdaptiveSpaceGeneration :=
  ⟨1, some 0, 2, [[1, 1], [2]], [[1, 1], [2]], [[], [1], [1, 1], [2]], some "maximum_degree"⟩

theorem planePolicy_ok : buildAdaptiveSymmetricSpaces planePolicy = .ok [planeRoot, planeChild] :=
  by decide +kernel

/-- One and minus one half. -/
def planeCoefficients : List Binary64 :=
  [⟨0x3FF0000000000000, by decide⟩, ⟨0xBFE0000000000000, by decide⟩]

theorem planeCoefficients_value : planeCoefficients.map Binary64.value = [1, -1 / 2] :=
  by decide +kernel

theorem adaptive_prolongation_plane :
    (planeChild.parentGeneration = some 0 ∧
      List.Disjoint planeRoot.realizedBasis planeChild.acceptedBlock ∧
        planeChild.realizedBasis.Perm (planeRoot.realizedBasis ++ planeChild.acceptedBlock)) ∧
      ∃ warm, prolongSymmetricWarmStart planeRoot.realizedBasis planeCoefficients
        planeChild.realizedBasis 0 1 =
          .ok warm ∧
        coefficientOf planeChild.realizedBasis (warm.coefficients.map Binary64.value) [1] =
          coefficientOf planeRoot.realizedBasis [1, -1 / 2] [1] ∧
        ∃ s s', MkSymmetricReference.new 2 1 = .ok s ∧ MkSymmetricReference.new 2 2 = .ok s' ∧
          SameForms s s' [1, -1 / 2] (warm.coefficients.map Binary64.value) := by
  obtain ⟨-, hstep, hprolong⟩ := adaptive_prolongation planePolicy _ planePolicy_ok
  have hroot : ∃ s, MkSymmetricReference.new 2 1 = .ok s := exists_of_isOk (by decide +kernel)
  have hchild : ∃ s, MkSymmetricReference.new 2 2 = .ok s := exists_of_isOk (by decide +kernel)
  obtain ⟨s, hs⟩ := hroot
  obtain ⟨s', hs'⟩ := hchild
  obtain ⟨warm, hwarm, hsame, hforms⟩ :=
    hprolong 0 1 planeRoot planeChild (by decide) rfl rfl planeCoefficients rfl (by decide)
  rw [planeCoefficients_value] at hsame hforms
  exact ⟨hstep 0 planeRoot planeChild rfl rfl, warm, hwarm, hsame [1], s, s', hs, hs',
    hforms s s' hs hs'⟩

end Xcelerator.Variational.Maynard
