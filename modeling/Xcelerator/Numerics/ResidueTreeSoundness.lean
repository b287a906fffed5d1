import Mathlib
import Xcelerator.Numerics.ModularProduct

/-! # The residue tree over distinct small primes

The chosen moduli are distinct odd primes at most 16191 (`Moduli`). Building
over them never faults and yields a tree that stands for them (`Represents`):
leaf coefficients select their own prime, and a branch carries the inverse of
its left product modulo its right one. Conversion writes the canonical residues
of a signed value, and reconstruction returns the value below the product with
the given digits, with no native intermediate out of range in either. -/

namespace Xcelerator.Numerics.ResidueTreeSoundness
open Xcelerator.Foundations Machine Xcelerator.Numerics.ModularProduct

/-! ## Prime selection -/

theorem primeLoop_sound {p d : Nat} (hd : d % 2 = 1) (h : primeLoop p d = true) :
    3 ≤ p ∧ p % 2 = 1 ∧ ∀ e, d ≤ e → e % 2 = 1 → e * e ≤ p → ¬ e ∣ p := by
  induction d using primeLoop.induct p with
  | case1 d hguard hdvd =>
    rw [primeLoop] at h
    simp [hguard, hdvd] at h
  | case2 d hguard hdvd ih =>
    rw [primeLoop, dif_pos hguard, if_neg hdvd] at h
    obtain ⟨hp, hodd, hrest⟩ := ih (by omega) h
    refine ⟨hp, hodd, fun e hde he hee hep => ?_⟩
    rcases Nat.lt_or_ge e (d + 2) with hlt | hge
    · have : e = d := by omega
      subst this
      exact hdvd (Nat.mod_eq_zero_of_dvd hep)
    · exact hrest e hge he hee hep
  | case3 d hguard =>
    rw [primeLoop, dif_neg hguard] at h
    simp only [ge_iff_le, Bool.and_eq_true, decide_eq_true_eq] at h
    refine ⟨h.1, h.2, fun e hde _ hee _ => hguard ⟨by omega, ?_⟩⟩
    exact le_trans (Nat.mul_le_mul hde hde) hee

theorem prime_sound {p : Nat} (h : prime p = true) : p.Prime ∧ 3 ≤ p := by
  obtain ⟨hp, hodd, hnone⟩ := primeLoop_sound (by decide) h
  refine ⟨?_, hp⟩
  by_contra hnot
  have hdvd := Nat.minFac_dvd p
  have hsq : p.minFac * p.minFac ≤ p := by
    simpa [sq] using Nat.minFac_sq_le_self (by omega) hnot
  have hfac : p.minFac % 2 = 1 := by
    by_contra hev
    have : 2 ∣ p := dvd_trans (Nat.dvd_of_mod_eq_zero (by omega)) hdvd
    omega
  have hne : p.minFac ≠ 1 := fun h1 => by
    have := Nat.minFac_eq_one_iff.mp h1
    omega
  exact hnone _ (by omega) hfac hsq hdvd

theorem mem_descending {n p : Nat} (h : p ∈ descending n) : p ≤ n := by
  induction n with
  | zero => simp [descending] at h
  | succ n ih =>
    rw [descending] at h
    split at h
    · rcases List.mem_cons.mp h with rfl | h
      · exact le_rfl
      · have := ih h; omega
    · simp at h

theorem mem_descending_of_le {n p : Nat} (h3 : 3 ≤ p) (h : p ≤ n) : p ∈ descending n := by
  induction n with
  | zero => omega
  | succ n ih =>
    rw [descending, if_pos (by omega)]
    rcases Nat.eq_or_lt_of_le h with rfl | hlt
    · exact List.mem_cons_self
    · exact List.mem_cons_of_mem _ (ih (by omega))

theorem descending_pairwise (n : Nat) : (descending n).Pairwise (· > ·) := by
  induction n with
  | zero => exact List.Pairwise.nil
  | succ n ih =>
    rw [descending]
    split
    · exact List.pairwise_cons.mpr ⟨fun p hp => Nat.lt_succ_of_le (mem_descending hp), ih⟩
    · exact List.Pairwise.nil

/-- A family of moduli the tree is built over. -/
structure Moduli (primes : List Nat) : Prop where
  prime : ∀ p ∈ primes, p.Prime
  bounded : ∀ p ∈ primes, 3 ≤ p ∧ p ≤ 16191
  nodup : primes.Nodup

theorem Moduli.sublist {ps qs : List Nat} (h : Moduli qs) (hs : ps.Sublist qs) : Moduli ps :=
  ⟨fun p hp => h.prime p (hs.subset hp), fun p hp => h.bounded p (hs.subset hp), h.nodup.sublist hs⟩

theorem Moduli.coprime {primes : List Nat} (h : Moduli primes) : primes.Pairwise Nat.Coprime := by
  refine h.nodup.imp_of_mem fun ha hb hne => ?_
  exact (Nat.coprime_primes (h.prime _ ha) (h.prime _ hb)).mpr hne

theorem Moduli.prod_pos {primes : List Nat} (h : Moduli primes) : 0 < primes.prod :=
  List.prod_pos fun p hp => (h.prime p hp).pos

/-- The loop appends candidates in order and keeps the product of what it took. -/
theorem choosePrimesLoop_spec (bound : Nat) (rest primes : List Nat) (product : Nat)
    (hprod : product = primes.prod) :
    ∃ taken, (choosePrimesLoop bound rest primes product).1 = primes ++ taken ∧
      taken.Sublist rest ∧ (primes = [] → rest ≠ [] → taken ≠ []) ∧
      (choosePrimesLoop bound rest primes product).2 = (primes ++ taken).prod := by
  induction rest generalizing primes product with
  | nil => exact ⟨[], by simp [choosePrimesLoop], List.Sublist.refl _, by simp, by
      simpa [choosePrimesLoop]⟩
  | cons p rest ih =>
    rw [choosePrimesLoop]
    split
    · rename_i hstop
      have hne : primes ≠ [] := by rintro rfl; simp at hstop
      exact ⟨[], by simp, List.nil_sublist _, fun h => absurd h hne, by simpa⟩
    · obtain ⟨taken, h1, h2, _, h4⟩ := ih (primes ++ [p]) (product * p) (by simp [hprod])
      refine ⟨p :: taken, by simpa using h1, h2.cons_cons p, by simp, ?_⟩
      simpa using h4

theorem choosePrimes_ok {bound modulus : Nat} {primes : List Nat}
    (h : choosePrimes bound = .ok (primes, modulus)) :
    Moduli primes ∧ primes ≠ [] ∧ modulus = primes.prod ∧ bound < modulus := by
  unfold choosePrimes at h
  have hthree : 3 ∈ (descending 16191).filter (prime ·) :=
    List.mem_filter.mpr ⟨mem_descending_of_le (by decide) (by decide), by decide +kernel⟩
  obtain ⟨taken, h1, h2, h3, h4⟩ := choosePrimesLoop_spec bound
    ((descending 16191).filter (prime ·)) [] 1 rfl
  generalize choosePrimesLoop bound ((descending 16191).filter (prime ·)) [] 1 = r at h h1 h4
  obtain ⟨ps, product⟩ := r
  simp only [List.nil_append] at h1 h4
  subst h1 h4
  dsimp only at h
  split at h
  · cases h
  · rename_i hle
    cases h
    refine ⟨⟨fun p hp => ?_, fun p hp => ?_, ?_⟩, h3 rfl (List.ne_nil_of_mem hthree), rfl, by omega⟩
    · exact (prime_sound (List.mem_filter.mp (h2.subset hp)).2).1
    · obtain ⟨hm, hp⟩ := List.mem_filter.mp (h2.subset hp)
      exact ⟨(prime_sound hp).2, mem_descending hm⟩
    · have := ((descending_pairwise 16191).filter (prime ·)).sublist h2
      exact this.imp fun h => Nat.ne_of_gt h

/-! ## Building the tree -/

/-- The documented contract of `Integer::extended_gcd`. -/
def Bezout (extendedGcd : Int → Int → ExtendedGcd) : Prop :=
  ∀ a b, (extendedGcd a b).gcd = Int.gcd a b ∧
    a * (extendedGcd a b).x + b * (extendedGcd a b).y = (extendedGcd a b).gcd

/-- A coefficient selects its own prime: one modulo it, zero modulo the others. -/
structure Selects (primes : List Nat) (p c : Nat) : Prop where
  one : c ≡ 1 [MOD p]
  zero : ∀ q ∈ primes, q ≠ p → c ≡ 0 [MOD q]
  bounded : c < primes.prod

/-- The tree stands for `primes`, at the residue positions from `offset` on. -/
inductive Represents : List Nat → Nat → Tree → Prop
  | small {primes coefficients : List Nat} {offset : Nat} :
      primes.length ≤ 4 → primes.prod < 2 ^ 56 → List.Forall₂ (Selects primes) primes coefficients →
      Represents primes offset
        (.small offset primes.length (fill4 primes) (fill4 coefficients) primes.prod primes.prod)
  | branch {ls rs : List Nat} {offset inverse : Nat} {left right : Tree} :
      Represents ls offset left → Represents rs (offset + ls.length) right →
      ls.prod * inverse ≡ 1 [MOD rs.prod] →
      Represents (ls ++ rs) offset (.branch left right (ls.prod * rs.prod) inverse)

theorem Represents.product_eq {primes : List Nat} {offset : Nat} {tree : Tree}
    (h : Represents primes offset tree) : tree.product = primes.prod := by
  cases h with
  | small _ _ _ => rfl
  | branch _ _ _ => simp [Tree.product]

theorem fill4_take {xs : List Nat} {n : Nat} (h : n = xs.length) : (fill4 xs).take n = xs := by
  subst h; simp [fill4]

theorem Moduli.prod_lt {primes : List Nat} (h : Moduli primes) (hlen : primes.length ≤ 4) :
    primes.prod < 2 ^ 56 := by
  have hle : primes.prod ≤ 16191 ^ primes.length :=
    List.prod_le_pow_card _ _ fun p hp => (h.bounded p hp).2
  calc primes.prod ≤ 16191 ^ primes.length := hle
    _ ≤ 16191 ^ 4 := Nat.pow_le_pow_right (by decide) hlen
    _ < 2 ^ 56 := by norm_num

/-- A Bézout coefficient reduced modulo a positive number is an inverse there. -/
theorem inverse_modEq {egcd : Int → Int → ExtendedGcd} (hb : Bezout egcd) {a m : Nat} (hm : 0 < m)
    (h : Nat.Coprime a m) :
    (egcd a m).gcd = 1 ∧ ((egcd a m).x % (m : Int)).toNat < m ∧
      a * ((egcd a m).x % (m : Int)).toNat ≡ 1 [MOD m] := by
  obtain ⟨hg, hxy⟩ := hb a m
  have hone : (egcd a m).gcd = 1 := by rw [hg, Int.gcd_natCast_natCast, h]; rfl
  have hm' : (0 : Int) < m := by exact_mod_cast hm
  have hnonneg := Int.emod_nonneg (egcd a m).x (ne_of_gt hm')
  refine ⟨hone, ?_, ?_⟩
  · have := Int.emod_lt_of_pos (egcd a m).x hm'
    omega
  · rw [← Int.natCast_modEq_iff]
    push_cast
    rw [Int.toNat_of_nonneg hnonneg]
    have hx : (egcd a m).x % (m : Int) ≡ (egcd a m).x [ZMOD m] := Int.mod_modEq _ _
    calc (a : Int) * ((egcd a m).x % (m : Int)) ≡ a * (egcd a m).x [ZMOD m] := hx.mul_left _
      _ = 1 + m * (-(egcd a m).y) := by linear_combination hxy + hone
      _ ≡ 1 [ZMOD m] := by simp [Int.ModEq]

theorem coefficient_ok {egcd : Int → Int → ExtendedGcd} (hb : Bezout egcd) {primes : List Nat}
    (h : Moduli primes) (hlen : primes.length ≤ 4) {p : Nat} (hp : p ∈ primes) :
    ∃ c, coefficient egcd primes.prod p = .ok c ∧ Selects primes p c := by
  have hpos : 0 < p := (h.prime p hp).pos
  have herase : p * (primes.erase p).prod = primes.prod := List.prod_erase hp
  have hquot : primes.prod / p = (primes.erase p).prod := by
    rw [← herase, Nat.mul_div_cancel_left _ hpos]
  have hcop : Nat.Coprime (primes.erase p).prod p := by
    rw [Nat.coprime_list_prod_left_iff]
    intro q hq
    have hne : q ≠ p := fun he => (h.nodup.not_mem_erase (he ▸ hq))
    exact (Nat.coprime_primes (h.prime q (List.mem_of_mem_erase hq)) (h.prime p hp)).mpr hne
  have hcop' : Nat.Coprime ((primes.erase p).prod % p) p := by
    rwa [Nat.Coprime, ← Nat.gcd_rec, Nat.gcd_comm]
  obtain ⟨hg, hlt, hone⟩ := inverse_modEq hb hpos hcop'
  set inverse := ((egcd ((primes.erase p).prod % p : Nat) p).x % (p : Int)).toNat with hinv
  have hqpos : 0 < (primes.erase p).prod :=
    List.prod_pos fun q hq => (h.prime q (List.mem_of_mem_erase hq)).pos
  have hbound : (primes.erase p).prod * inverse < primes.prod := by
    rw [← herase, Nat.mul_comm p]
    exact Nat.mul_lt_mul_of_pos_left hlt hqpos
  have hprod := h.prod_lt hlen
  have hle := (h.bounded p hp).2
  have hr : (primes.erase p).prod % p < p := Nat.mod_lt _ hpos
  refine ⟨(primes.erase p).prod * inverse, ?_, ?_, ?_, hbound⟩
  · unfold coefficient
    rw [show assert (decide (p ≤ 16191)) = .ok () by simp [assert, hle], ok_bind,
      divide_ok hpos.ne', ok_bind, hquot, remainder_ok hpos.ne', ok_bind,
      signed_ok (by omega) (by omega), ok_bind]
    dsimp only
    rw [hg, show assert (decide ((1 : Int) = 1)) = .ok () by rfl, ok_bind]
    exact unsigned_ok (show (primes.erase p).prod * inverse < 2 ^ 64 by omega)
  · have hmod : (primes.erase p).prod * inverse ≡ (primes.erase p).prod % p * inverse [MOD p] :=
      (Nat.mod_modEq _ _).symm.mul_right _
    exact hmod.trans hone
  · intro q hq hne
    have hmem : q ∈ primes.erase p := (List.mem_erase_of_ne hne).mpr hq
    exact Nat.modEq_zero_iff_dvd.mpr ((List.dvd_prod hmem).mul_right _)

theorem build_small_ok {egcd : Int → Int → ExtendedGcd} (hb : Bezout egcd) {primes : List Nat}
    (offset : Nat) (h : Moduli primes) (hne : primes ≠ []) (hlen : primes.length ≤ 4) :
    ∃ tree, Tree.build egcd primes offset = .ok tree ∧ Represents primes offset tree := by
  obtain ⟨cs, hcs, hsel⟩ := mapM_forall₂ (Q := Selects primes)
    fun p hp => coefficient_ok hb h hlen (p := p) hp
  have hprod := h.prod_lt hlen
  refine ⟨_, ?_, .small hlen hprod hsel⟩
  rw [Tree.build, show assert (!primes.isEmpty) = .ok () by simp [assert, hne], ok_bind,
    dif_pos hlen, product_ok (fun p hp => (h.prime p hp).pos) (by omega), ok_bind, hcs, ok_bind]
  rfl

theorem Moduli.coprime_split {primes : List Nat} (h : Moduli primes) (middle : Nat) :
    Nat.Coprime (primes.take middle).prod (primes.drop middle).prod := by
  have hall := h.coprime
  rw [← List.take_append_drop middle primes, List.pairwise_append] at hall
  rw [Nat.coprime_list_prod_left_iff]
  intro p hp
  rw [Nat.coprime_list_prod_right_iff]
  exact hall.2.2 p hp

theorem build_ok {egcd : Int → Int → ExtendedGcd} (hb : Bezout egcd) (primes : List Nat)
    (offset : Nat) (h : Moduli primes) (hne : primes ≠ []) :
    ∃ tree, Tree.build egcd primes offset = .ok tree ∧ Represents primes offset tree := by
  induction primes, offset using Tree.build.induct with
  | case1 primes offset ihl ihr =>
  by_cases hlen : primes.length ≤ 4
  · exact build_small_ok hb offset h hne hlen
  generalize hm : (primes.length + 3) / 4 / 2 * 4 = middle at ihl ihr
  have hmid : 0 < middle ∧ middle < primes.length := by omega
  have hl := h.sublist (List.take_sublist middle primes)
  have hr := h.sublist (List.drop_sublist middle primes)
  obtain ⟨left, hleft, rleft⟩ := ihl hlen hl fun hnil => by
    rcases List.take_eq_nil_iff.mp hnil with hzero | hnil
    · omega
    · exact hne hnil
  obtain ⟨right, hright, rright⟩ := ihr hlen hr (by simp only [ne_eq, List.drop_eq_nil_iff]; omega)
  obtain ⟨hg, _, hinv⟩ := inverse_modEq hb hr.prod_pos (h.coprime_split middle)
  have htake : (primes.take middle).length = middle := by rw [List.length_take]; omega
  have hrep := Represents.branch rleft (by rwa [htake]) hinv
  rw [List.take_append_drop] at hrep
  refine ⟨_, ?_, hrep⟩
  rw [Tree.build, show assert (!primes.isEmpty) = .ok () by simp [assert, hne], ok_bind,
    dif_neg hlen]
  dsimp only
  rw [hm, hleft, ok_bind, hright, ok_bind, rleft.product_eq, rright.product_eq, hg]
  rfl

/-! ## Conversion -/

/-- The canonical residue of the signed value with this magnitude and sign. -/
def signedResidue (value : Nat) (negative : Bool) (p : Nat) : Nat :=
  if negative && value % p != 0 then p - value % p else value % p

theorem signedResidue_lt (value : Nat) {p : Nat} (negative : Bool) (hp : 0 < p) :
    signedResidue value negative p < p := by
  have := Nat.mod_lt value hp
  unfold signedResidue
  split
  · rename_i h
    simp only [Bool.and_eq_true, bne_iff_ne, ne_eq] at h
    omega
  · exact this

/-- Reducing by a multiple of the prime first does not change the residue. -/
theorem signedResidue_mod {value P p : Nat} (negative : Bool) (h : p ∣ P) :
    signedResidue (value % P) negative p = signedResidue value negative p := by
  simp only [signedResidue, Nat.mod_mod_of_dvd value h]

theorem signedResidue_modEq (v : Int) {p : Nat} (hp : 0 < p) :
    (signedResidue v.natAbs (decide (v < 0)) p : Int) ≡ v [ZMOD p] := by
  have hr : ((v.natAbs % p : Nat) : Int) ≡ v.natAbs [ZMOD p] := by
    push_cast; exact Int.mod_modEq _ _
  rcases lt_or_ge v 0 with hv | hv
  · have habs : (v.natAbs : Int) = -v := by omega
    rw [habs] at hr
    unfold signedResidue
    split
    · rw [Nat.cast_sub (Nat.mod_lt _ hp).le]
      have := (Int.ModEq.refl (p : Int) (n := p)).sub hr
      exact this.trans (by simp [Int.ModEq])
    · rename_i h
      have hz : v.natAbs % p = 0 := by simpa [hv] using h
      rw [hz] at hr ⊢
      simpa using hr.neg
  · have habs : (v.natAbs : Int) = v := by omega
    rw [habs] at hr
    simpa [signedResidue, not_lt.mpr hv] using hr

/-- `output` with the elements from position `at` on overwritten by `ys`. -/
def splice (output : List Nat) (start : Nat) (ys : List Nat) : List Nat :=
  output.take start ++ ys ++ output.drop (start + ys.length)

theorem splice_nil (output : List Nat) (start : Nat) : splice output start [] = output := by
  simp [splice]

theorem splice_append {output : List Nat} {start : Nat} (xs ys : List Nat)
    (h : start + xs.length ≤ output.length) :
    splice (splice output start xs) (start + xs.length) ys = splice output start (xs ++ ys) := by
  have hlen : (output.take start).length = start := by rw [List.length_take]; omega
  unfold splice
  rw [List.take_append_of_le_length (by simp [hlen]), List.take_of_length_le (by simp [hlen]),
    List.drop_append, List.drop_eq_nil_of_le (by simp [hlen])]
  simp [hlen, List.drop_drop, Nat.add_assoc]

theorem length_splice {output ys : List Nat} {start : Nat}
    (h : start + ys.length ≤ output.length) : (splice output start ys).length = output.length := by
  simp only [splice, List.length_append, List.length_take, List.length_drop]
  omega

theorem set_eq_splice {output : List Nat} {start : Nat} (y : Nat) (h : start < output.length) :
    output.set start y = splice output start [y] := by
  simp [splice, List.set_eq_take_append_cons_drop, h]

theorem writeResidues_ok {primes : List Nat} (hm : Moduli primes) (value : Nat) (negative : Bool)
    {start : Nat} {output : List Nat} (h : start + primes.length ≤ output.length) :
    writeResidues value negative primes start output =
      .ok (splice output start (primes.map (signedResidue value negative))) := by
  induction primes generalizing start output with
  | nil => simp [writeResidues, splice_nil]
  | cons p rest ih =>
    rw [List.length_cons] at h
    have hp := (hm.prime p (by simp)).pos
    have hb := (hm.bounded p (by simp)).2
    have hlt := signedResidue_lt value negative hp
    have hbranch : canonicalResidue negative p (value % p) =
        .ok (signedResidue value negative p) := by
      unfold canonicalResidue signedResidue
      split
      · exact subtract_ok (Nat.mod_lt _ hp).le
      · rfl
    rw [writeResidues, remainder_ok hp.ne', ok_bind, hbranch, ok_bind,
      write_ok _ (by omega), ok_bind, Nat.mod_eq_of_lt (by omega), set_eq_splice _ (by omega),
      ih (hm.sublist (List.sublist_cons_self p rest))
        (by rw [length_splice (by simp; omega)]; omega)]
    exact congrArg _ (splice_append [signedResidue value negative p] _ (by simp; omega))

/-- **Conversion.** Every position of the represented primes, and no other, is
overwritten by the canonical residue of the signed value. -/
theorem residues_ok {primes : List Nat} {offset : Nat} {tree : Tree}
    (hr : Represents primes offset tree) (hm : Moduli primes) (value : Nat) (negative : Bool)
    {output : List Nat} (h : offset + primes.length ≤ output.length) :
    tree.residues value negative output =
      .ok (splice output offset (primes.map (signedResidue value negative))) := by
  induction hr generalizing value output with
  | @small primes coefficients offset hlen hprod _ =>
    have hpos := hm.prod_pos
    have hvalue : leafValue value primes.prod = .ok (value % primes.prod) := by
      have hlt := Nat.mod_lt value hpos
      rw [leafValue, remainder_ok hpos.ne']
      split
      · split
        · rw [Nat.mod_eq_of_lt ‹_›]
        · rfl
      · rw [ok_bind, unsigned_ok (by omega)]
    rw [Tree.residues, hvalue, ok_bind, fill4_take rfl, writeResidues_ok hm _ _ h]
    congr 2
    refine List.map_congr_left fun p hp => ?_
    exact signedResidue_mod negative (List.dvd_prod hp)
  | @branch ls rs offset inverse left right hl hr _ ihl ihr =>
    have hml := hm.sublist (List.sublist_append_left ls rs)
    have hmr := hm.sublist (List.sublist_append_right ls rs)
    rw [List.length_append] at h
    have hreduce : ∀ ps : List Nat, ps.map (signedResidue (value % ps.prod) negative) =
        ps.map (signedResidue value negative) := fun ps =>
      List.map_congr_left fun p hp => signedResidue_mod negative (List.dvd_prod hp)
    rw [Tree.residues, hl.product_eq, hr.product_eq, remainder_ok hml.prod_pos.ne', ok_bind,
      remainder_ok hmr.prod_pos.ne', ok_bind, ihl hml _ (by omega), ok_bind,
      ihr hmr _ (by rw [length_splice (by simp; omega)]; omega), hreduce, hreduce, List.map_append]
    have happ := @splice_append output offset (ls.map (signedResidue value negative))
      (rs.map (signedResidue value negative)) (by simp; omega)
    rw [List.length_map] at happ
    rw [happ]

/-! ## Reconstruction -/

/-- The residue table holds `digit` in its rows `offset ..< offset + len` of one column. -/
def Column (residues : List (List Nat)) (entry offset len : Nat) (digit : Nat → Nat) : Prop :=
  ∀ k, offset ≤ k → k < offset + len →
    residueAt residues entry k = .ok (digit k) ∧ digit k < 2 ^ 16

theorem Column.mono {residues : List (List Nat)} {entry offset len offset' len' : Nat}
    {digit : Nat → Nat} (h : Column residues entry offset len digit) (ho : offset ≤ offset')
    (hl : offset' + len' ≤ offset + len) : Column residues entry offset' len' digit :=
  fun k h1 h2 => h k (by omega) (by omega)

/-- The weighted terms of a leaf whose first coefficient has number `start`. -/
def weighted (digit : Nat → Nat) (offset start : Nat) (coefficients : List Nat) : List Nat :=
  (coefficients.zipIdx start).map fun (c, i) => digit (offset + i) * c

theorem weighted_cons (digit : Nat → Nat) (offset start c : Nat) (cs : List Nat) :
    weighted digit offset start (c :: cs) =
      digit (offset + start) * c :: weighted digit offset (start + 1) cs := rfl

/-- A prime none of the coefficients selects divides the weighted sum. -/
theorem weighted_zero {primes ps cs : List Nat} {q : Nat} (hq : q ∈ primes) (hnot : q ∉ ps)
    (h : List.Forall₂ (Selects primes) ps cs) (digit : Nat → Nat) (offset start : Nat) :
    (weighted digit offset start cs).sum ≡ 0 [MOD q] := by
  induction h generalizing start with
  | nil => rfl
  | @cons p c ps cs hsel _ ih =>
    rw [List.mem_cons, not_or] at hnot
    rw [weighted_cons, List.sum_cons]
    exact ((hsel.zero q hq hnot.1).mul_left _).add (ih hnot.2 (start + 1))

theorem weighted_digit {primes ps cs : List Nat} (hsub : ps ⊆ primes) (hnd : ps.Nodup)
    (h : List.Forall₂ (Selects primes) ps cs) (digit : Nat → Nat) (offset start i q : Nat)
    (hi : ps[i]? = some q) :
    (weighted digit offset start cs).sum ≡ digit (offset + (start + i)) [MOD q] := by
  induction h generalizing start i with
  | nil => simp at hi
  | @cons p c ps cs hsel hrest ih =>
    obtain ⟨hnot, hnd⟩ := List.nodup_cons.mp hnd
    obtain ⟨hp, hsub⟩ := List.cons_subset.mp hsub
    rw [weighted_cons, List.sum_cons]
    cases i with
    | zero =>
      obtain rfl : p = q := by simpa using hi
      have htail := weighted_zero hp hnot hrest digit offset (start + 1)
      simpa using (hsel.one.mul_left (digit (offset + start))).add htail
    | succ i =>
      rw [List.getElem?_cons_succ] at hi
      have hmem := List.mem_of_getElem? hi
      have hne : q ≠ p := fun he => hnot (he ▸ hmem)
      have hhead := (hsel.zero q (hsub hmem) hne).mul_left (digit (offset + start))
      have htail := ih hsub hnd (start + 1) i hi
      have heq : start + 1 + i = start + (i + 1) := by omega
      rw [heq] at htail
      simpa using hhead.add htail

theorem selects_bounded {primes ps cs : List Nat} (h : List.Forall₂ (Selects primes) ps cs) :
    ∀ c ∈ cs, c < primes.prod := by
  induction h with
  | nil => simp
  | cons hsel _ ih => exact List.forall_mem_cons.mpr ⟨hsel.bounded, ih⟩

theorem weighted_bounded {digit : Nat → Nat} {offset B : Nat} {cs : List Nat} (start : Nat)
    (hd : ∀ i, i < start + cs.length → digit (offset + i) < 2 ^ 16) (hc : ∀ c ∈ cs, c < B) :
    (weighted digit offset start cs).sum ≤ cs.length * (2 ^ 16 * B) := by
  induction cs generalizing start with
  | nil => simp [weighted]
  | cons c cs ih =>
    rw [List.length_cons] at hd
    have htail := ih (start + 1) (fun i hi => hd i (by omega)) fun d hd => hc d (by simp [hd])
    have hhead : digit (offset + start) * c ≤ 2 ^ 16 * B :=
      Nat.mul_le_mul (hd start (by omega)).le (hc c (by simp)).le
    rw [weighted_cons, List.sum_cons, List.length_cons, Nat.add_mul, Nat.one_mul]
    omega

/-- What a subtree returns: the value below its product with the column's digits. -/
def Reconstructs (primes : List Nat) (offset : Nat) (digit : Nat → Nat) (x : Nat) : Prop :=
  x < primes.prod ∧ ∀ i p, primes[i]? = some p → x ≡ digit (offset + i) [MOD p]

theorem reconstruct_small_ok {primes coefficients : List Nat} {offset entry : Nat}
    {residues : List (List Nat)} {digit : Nat → Nat} (hm : Moduli primes)
    (hlen : primes.length ≤ 4) (hprod : primes.prod < 2 ^ 56)
    (hsel : List.Forall₂ (Selects primes) primes coefficients)
    (hcol : Column residues entry offset primes.length digit) :
    ∃ x, Tree.reconstruct residues entry (.small offset primes.length (fill4 primes)
      (fill4 coefficients) primes.prod primes.prod) = .ok x ∧
        Reconstructs primes offset digit x := by
  have hclen := hsel.length_eq
  have hbound : ∀ c ∈ coefficients, c < 2 ^ 56 :=
    fun c hc => (selects_bounded hsel c hc).trans hprod
  have hdigit : ∀ i, i < 0 + coefficients.length → digit (offset + i) < 2 ^ 16 :=
    fun i hi => (hcol (offset + i) (by omega) (by omega)).2
  have hsum := weighted_bounded 0 hdigit hbound
  have hterms : (coefficients.zipIdx.mapM fun (c, i) => do
      unsigned 128 ((← residueAt residues entry (offset + i)) * c)) =
        (.ok (weighted digit offset 0 coefficients) : Checked (List Nat)) := by
    refine mapM_ok fun ⟨c, i⟩ hci => ?_
    obtain ⟨_, hi, hc⟩ := List.mem_zipIdx hci
    obtain ⟨hread, hd⟩ := hcol (offset + i) (by omega) (by omega)
    have hc' := hbound c (hc ▸ List.getElem_mem _)
    dsimp only
    rw [hread, ok_bind]
    refine unsigned_ok (lt_of_le_of_lt (Nat.mul_le_mul hd.le hc'.le) (by norm_num))
  have hsum' : (weighted digit offset 0 coefficients).sum < 2 ^ 128 := by
    calc _ ≤ coefficients.length * (2 ^ 16 * 2 ^ 56) := hsum
      _ ≤ 4 * (2 ^ 16 * 2 ^ 56) := Nat.mul_le_mul_right _ (by omega)
      _ < 2 ^ 128 := by norm_num
  refine ⟨(weighted digit offset 0 coefficients).sum % primes.prod, ?_, ?_, ?_⟩
  · rw [Tree.reconstruct, fill4_take hclen, hterms, ok_bind, sum_ok hsum', ok_bind,
      remainder_ok hm.prod_pos.ne', ok_bind, Nat.mod_eq_of_lt]
    · rfl
    · have := Nat.mod_lt (weighted digit offset 0 coefficients).sum hm.prod_pos
      omega
  · exact Nat.mod_lt _ hm.prod_pos
  · intro i p hi
    have hmod := weighted_digit (List.Subset.refl _) hm.nodup hsel digit offset 0 i p hi
    rw [Nat.zero_add] at hmod
    have hdvd : p ∣ primes.prod := List.dvd_prod (List.mem_of_getElem? hi)
    exact ((Nat.mod_modEq _ _).of_dvd hdvd).trans hmod

theorem modularDifference_ok {a R : Nat} (b : Nat) (ha : a < R) :
    ∃ d, modularDifference b a R = .ok d ∧ a + d ≡ b [MOD R] := by
  unfold modularDifference
  split
  · refine ⟨b - a, subtract_ok ‹_›, ?_⟩
    rw [Nat.add_sub_of_le ‹_›]
  · refine ⟨R - (a - b), ?_, ?_⟩
    · rw [subtract_ok (by omega), ok_bind, subtract_ok (by omega)]
    · rw [show a + (R - (a - b)) = b + R by omega]
      simp [Nat.ModEq]

/-- **Garner recombination.** The value with both children's residues. -/
theorem recombine {a b d L R inverse : Nat} (hinv : L * inverse ≡ 1 [MOD R])
    (hd : a % R + d ≡ b [MOD R]) : a + L * (d * inverse % R) ≡ b [MOD R] := by
  have hcorr : L * (d * inverse % R) ≡ d [MOD R] := by
    calc L * (d * inverse % R) ≡ L * (d * inverse) [MOD R] := (Nat.mod_modEq _ _).mul_left _
      _ = d * (L * inverse) := by ring
      _ ≡ d * 1 [MOD R] := hinv.mul_left d
      _ = d := Nat.mul_one d
  exact ((Nat.mod_modEq a R).symm.add hcorr).trans hd

theorem reconstruct_ok {primes : List Nat} {offset : Nat} {tree : Tree}
    (hr : Represents primes offset tree) (hm : Moduli primes) {residues : List (List Nat)}
    {entry : Nat} {digit : Nat → Nat} (hcol : Column residues entry offset primes.length digit) :
    ∃ x, tree.reconstruct residues entry = .ok x ∧ Reconstructs primes offset digit x := by
  induction hr with
  | small hlen hprod hsel => exact reconstruct_small_ok hm hlen hprod hsel hcol
  | @branch ls rs offset inverse left right hl hr hinv ihl ihr =>
    rw [List.length_append] at hcol
    have hml := hm.sublist (List.sublist_append_left ls rs)
    have hmr := hm.sublist (List.sublist_append_right ls rs)
    obtain ⟨a, ha, halt, hamod⟩ := ihl hml (hcol.mono le_rfl (by omega))
    obtain ⟨b, hb, _, hbmod⟩ := ihr hmr (hcol.mono (by omega) (by omega))
    obtain ⟨d, hd, hdmod⟩ := modularDifference_ok b (Nat.mod_lt a hmr.prod_pos)
    have hx := recombine hinv hdmod
    have hclt := Nat.mod_lt (d * inverse) hmr.prod_pos
    refine ⟨a + ls.prod * (d * inverse % rs.prod), ?_, ?_, ?_⟩
    · rw [Tree.reconstruct, ha, ok_bind, hb, ok_bind, hl.product_eq, hr.product_eq,
        remainder_ok hmr.prod_pos.ne', ok_bind, hd, ok_bind, remainder_ok hmr.prod_pos.ne', ok_bind]
      rfl
    · rw [List.prod_append]
      calc a + ls.prod * (d * inverse % rs.prod)
          < ls.prod + ls.prod * (d * inverse % rs.prod) := Nat.add_lt_add_right halt _
        _ = ls.prod * (d * inverse % rs.prod + 1) := by ring
        _ ≤ ls.prod * rs.prod := Nat.mul_le_mul_left _ hclt
    · intro i p hi
      rcases Nat.lt_or_ge i ls.length with hlt | hge
      · rw [List.getElem?_append_left hlt] at hi
        have hdvd : p ∣ ls.prod := List.dvd_prod (List.mem_of_getElem? hi)
        have hzero : ls.prod * (d * inverse % rs.prod) ≡ 0 [MOD p] :=
          Nat.modEq_zero_iff_dvd.mpr (hdvd.mul_right _)
        simpa using (hamod i p hi).add hzero
      · rw [List.getElem?_append_right hge] at hi
        have hdvd : p ∣ rs.prod := List.dvd_prod (List.mem_of_getElem? hi)
        have := (hx.of_dvd hdvd).trans (hbmod _ p hi)
        rwa [show offset + ls.length + (i - ls.length) = offset + i by omega] at this

/-! ## The round trip -/

theorem modulus_modEq {primes : List Nat} (hm : Moduli primes) {x : Nat} {T : Int}
    (h : ∀ p ∈ primes, (x : Int) ≡ T [ZMOD p]) : (x : Int) ≡ T [ZMOD primes.prod] := by
  refine Int.modEq_iff_dvd.mpr ?_
  have hnat : primes.prod ∣ (T - x).natAbs := by
    have := (Nat.modEq_list_prod_iff (a := (T - x).natAbs) (b := 0) hm.coprime).mpr fun i => by
      have hdvd := (h _ (List.get_mem primes i)).dvd
      exact Nat.modEq_zero_iff_dvd.mpr (Int.natCast_dvd.mp hdvd)
    exact Nat.modEq_zero_iff_dvd.mp this
  exact Int.natCast_dvd.mpr hnat

theorem signedResidue_eq (value : Int) {p : Nat} (hp : 0 < p) :
    signedResidue value.natAbs (decide (value < 0)) p = (value % p).toNat := by
  have hlt := signedResidue_lt value.natAbs (decide (value < 0)) hp
  have hmod : ((signedResidue value.natAbs (decide (value < 0)) p : Nat) : Int) % p = value % p :=
    signedResidue_modEq value hp
  rw [Int.emod_eq_of_lt (by omega) (by exact_mod_cast hlt)] at hmod
  omega

theorem getElem?_splice {output ys : List Nat} {start : Nat}
    (h : start + ys.length ≤ output.length) :
    (∀ i < ys.length, (splice output start ys)[start + i]? = ys[i]?) ∧
      ∀ k, k < start ∨ start + ys.length ≤ k → (splice output start ys)[k]? = output[k]? := by
  have hlen : (output.take start).length = start := by rw [List.length_take]; omega
  have hfront : (output.take start ++ ys).length = start + ys.length :=
    by rw [List.length_append, hlen]
  unfold splice
  constructor
  · intro i hi
    rw [List.getElem?_append_left (by omega), List.getElem?_append_right (by omega), hlen,
      Nat.add_sub_cancel_left]
  · intro k hk
    rcases hk with hk | hk
    · rw [List.getElem?_append_left (by omega), List.getElem?_append_left (by omega),
        List.getElem?_take, if_pos hk]
    · rw [List.getElem?_append_right (by omega), hfront, List.getElem?_drop, Nat.add_sub_cancel' hk]

/-- In its rows from `offset` on the column holds a residue below each prime. -/
def Canonical (primes : List Nat) (offset : Nat) (residues : List (List Nat)) (entry : Nat)
    (digit : Nat → Nat) : Prop :=
  ∀ (i p : Nat), primes[i]? = some p → residueAt residues entry (offset + i) = .ok (digit i) ∧
    digit i < p

/-- What a canonical column is reconstructed to, and nothing else below the product. -/
theorem reconstruct_canonical {primes : List Nat} {offset : Nat} {tree : Tree}
    (hr : Represents primes offset tree)
    (hm : Moduli primes) {residues : List (List Nat)} {entry : Nat} {digit : Nat → Nat}
    (h : Canonical primes offset residues entry digit) :
    ∃ x, tree.reconstruct residues entry = .ok x ∧ x < primes.prod ∧
      (∀ (i p : Nat), primes[i]? = some p → x ≡ digit i [MOD p]) ∧
      ∀ y : Int, (∀ (i p : Nat), primes[i]? = some p → y ≡ digit i [ZMOD p]) →
      (x : Int) = y % primes.prod := by
  have hcol : Column residues entry offset primes.length fun k => digit (k - offset) := by
    intro k hk hlt
    obtain ⟨i, rfl⟩ := Nat.exists_eq_add_of_le hk
    have hi : i < primes.length := by omega
    obtain ⟨hread, hdigit⟩ := h i _ (List.getElem?_eq_getElem hi)
    have hle := (hm.bounded _ (List.getElem_mem hi)).2
    simp only [Nat.add_sub_cancel_left]
    exact ⟨hread, by omega⟩
  obtain ⟨x, hx, hlt, hdigits⟩ := reconstruct_ok hr hm hcol
  simp only [Nat.add_sub_cancel_left] at hdigits
  refine ⟨x, hx, hlt, hdigits, fun y hy => ?_⟩
  have hmod : (x : Int) ≡ y [ZMOD primes.prod] := by
    refine modulus_modEq hm fun p hp => ?_
    obtain ⟨i, hi⟩ := List.getElem?_of_mem hp
    exact (Int.natCast_modEq_iff.mpr (hdigits i p hi)).trans (hy i p hi).symm
  rw [← hmod.eq, Int.emod_eq_of_lt (by omega) (by exact_mod_cast hlt)]

/-- **Round trip.** Over distinct odd primes up to 16191 the tree writes the canonical residues of
any signed value and nothing else, and gives back the one number below the product with given
residues. -/
theorem tree_round_trip {extendedGcd : Int → Int → ExtendedGcd} (hgcd : Bezout extendedGcd)
    {primes : List Nat}
    (hne : primes ≠ []) (hprimes : ∀ p ∈ primes, p.Prime ∧ Odd p ∧ p ≤ 16191)
    (hnodup : primes.Nodup) (offset : Nat) :
    ∃ tree, Tree.build extendedGcd primes offset = .ok tree ∧ tree.product = primes.prod ∧
      (∀ (value : Int) (output : List Nat), offset + primes.length ≤ output.length →
        ∃ written, tree.residues value.natAbs (decide (value < 0)) output = .ok written ∧
          written.length = output.length ∧
          (∀ (i p : Nat), primes[i]? = some p → written[offset + i]? = some (value % p).toNat) ∧
          (∀ k, k < offset ∨ offset + primes.length ≤ k → written[k]? = output[k]?) ∧
          ∀ residues entry, (∀ i < primes.length, residueAt residues entry (offset + i) =
            read written (offset + i)) →
            tree.reconstruct residues entry = .ok (value % primes.prod).toNat) ∧
      ∀ residues entry digit, Canonical primes offset residues entry digit →
        ∃ x, tree.reconstruct residues entry = .ok x ∧ x < primes.prod ∧
          (∀ (i p : Nat), primes[i]? = some p → x ≡ digit i [MOD p]) ∧
          ∀ y < primes.prod, (∀ (i p : Nat), primes[i]? = some p → y ≡ digit i [MOD p]) →
          y = x := by
  have hm : Moduli primes := by
    refine ⟨fun p hp => (hprimes p hp).1, fun p hp => ?_, hnodup⟩
    obtain ⟨hprime, hodd, hle⟩ := hprimes p hp
    have htwo := hprime.two_le
    obtain ⟨half, rfl⟩ := hodd
    omega
  obtain ⟨tree, hbuild, hr⟩ := build_ok hgcd primes offset hm hne
  refine ⟨tree, hbuild, hr.product_eq, fun value output hlength =>
    ?_, fun residues entry digit hcanonical => ?_⟩
  · have hwrite := residues_ok hr hm value.natAbs (decide (value < 0)) hlength
    obtain ⟨hinside, houtside⟩ := @getElem?_splice output
      (primes.map (signedResidue value.natAbs (decide (value < 0)))) offset
        (by rw [List.length_map]; exact hlength)
    rw [List.length_map] at hinside houtside
    have hresidue : ∀ (i p : Nat), primes[i]? = some p →
        (splice output offset (primes.map (signedResidue value.natAbs (decide (value < 0)))))[offset
          + i]? =
          some (value % p).toNat := by
      intro i p hi
      rw [hinside i (List.getElem?_eq_some_iff.mp hi).1, List.getElem?_map, hi, Option.map_some,
        signedResidue_eq value (hm.prime p (List.mem_of_getElem? hi)).pos]
    refine ⟨_, hwrite, length_splice (by rw [List.length_map]; exact hlength), hresidue, houtside,
      fun residues entry htable => ?_⟩
    have hcanonical : Canonical primes offset residues entry fun i =>
      (value % primes.getD i 0).toNat := by
      intro i p hi
      have hlt := (List.getElem?_eq_some_iff.mp hi).1
      have hget : primes.getD i 0 = p := by rw [List.getD_eq_getElem?_getD, hi, Option.getD_some]
      have hpos := (hm.prime p (List.mem_of_getElem? hi)).pos
      rw [htable i hlt, read_ok (hresidue i p hi)]
      have hbelow := Int.emod_lt_of_pos value (show (0 : Int) < p by exact_mod_cast hpos)
      have hdigit : (value % primes.getD i 0).toNat < p := by
        rw [hget]
        omega
      exact ⟨by simp only [hget], hdigit⟩
    obtain ⟨x, hx, -, -, hunique⟩ := reconstruct_canonical hr hm hcanonical
    have hvalue : (x : Int) = value % primes.prod := by
      refine hunique value fun i p hi => ?_
      have hget : primes.getD i 0 = p := by rw [List.getD_eq_getElem?_getD, hi, Option.getD_some]
      have hpos := (hm.prime p (List.mem_of_getElem? hi)).pos
      rw [hget, Int.toNat_of_nonneg (Int.emod_nonneg _ (by omega))]
      exact (Int.mod_modEq value p).symm
    rw [hx, ← hvalue, Int.toNat_natCast]
  · obtain ⟨x, hx, hlt, hdigits, hunique⟩ := reconstruct_canonical hr hm hcanonical
    refine ⟨x, hx, hlt, hdigits, fun y hy hydigits => ?_⟩
    have heq := hunique y fun i p hi => Int.natCast_modEq_iff.mpr (hydigits i p hi)
    rw [Int.emod_eq_of_lt (by omega) (by exact_mod_cast hy)] at heq
    exact_mod_cast heq.symm

/-- Five primes: one full leaf and one of a single prime. -/
theorem tree_round_trip_five :
    ∃ tree, Tree.build (fun a b => ⟨Int.gcd a b, Int.gcdA a b, Int.gcdB a b⟩)
    [3, 5, 7, 11, 13] 2 = .ok tree ∧
      ∃ written, tree.residues 17 true (List.replicate 8 0) = .ok written ∧
        tree.reconstruct (written.map fun r => [r]) 0 = .ok 14998 := by
  have hgcd : Bezout fun a b => ⟨Int.gcd a b, Int.gcdA a b, Int.gcdB a b⟩ :=
    fun a b => ⟨rfl, (Int.gcd_eq_gcd_ab a b).symm⟩
  obtain ⟨tree, hbuild, -, hresidues, -⟩ :=
    tree_round_trip hgcd (show [3, 5, 7, 11, 13] ≠ [] by decide)
    (by decide) (by decide) 2
  obtain ⟨written, hwritten, hlength, hinside, -, hround⟩ :=
    hresidues (-17) (List.replicate 8 0) (by decide)
  refine ⟨tree, hbuild, written, hwritten, hround _ 0 fun i hi => ?_⟩
  have hlt : 2 + i < written.length := by
    rw [hlength]
    simp only [List.length_cons, List.length_nil, List.length_replicate] at hi ⊢
    omega
  rw [residueAt, read_ok (by rw [List.getElem?_map, List.getElem?_eq_getElem hlt]; rfl), ok_bind,
    read_ok (List.getElem?_eq_getElem hlt)]
  rfl

end Xcelerator.Numerics.ResidueTreeSoundness
