import Mathlib
import Xcelerator.Numerics.CudaScheduler
import Xcelerator.Numerics.ModularProductSoundness

/-! # Every prime index is computed once, under every schedule

The indices the workers hold, whether reserved, claimed or computed, are at all
times a rearrangement of the indices below the counter. The counter never wraps:
past the end each worker adds at most three. When all workers are done the
counter has passed the end, so the collected indices are all of them, and the
collected order does not depend on the schedule. -/

namespace Xcelerator.Numerics.CudaScheduler
open Xcelerator.Foundations Machine ModularProduct ModularProductSoundness

/-! ## One turn -/

section
variable {E : Type}

/-- The indices a worker answers for; a reserved one is lost when the device
does not initialise. -/
def held (first : Nat) : Worker E → List Nat
  | .waiting => [first]
  | .claiming _ indices batch => batch.map Prod.fst ++ indices
  | .computing _ indices batch => batch.map Prod.fst ++ indices
  | .done (.ok result) => result.batch.map Prod.fst
  | .done (.error _) => [first]

def batchOf : Worker E → List IndexedCudaResidue
  | .waiting => []
  | .claiming _ _ batch => batch
  | .computing _ _ batch => batch
  | .done (.ok result) => result.batch
  | .done (.error _) => []

/-- What a worker has added to the counter past the end, at most. -/
def spent : Worker E → Nat
  | .waiting => 0
  | .claiming _ [] _ => 1
  | .claiming _ (_ :: _) _ => 0
  | .computing .. => 1
  | .done _ => 3

/-- Turns a worker may still take without claiming an index. -/
def weight : Worker E → Nat
  | .waiting => 6
  | .claiming _ [] _ => 3
  | .claiming _ (_ :: _) _ => 5
  | .computing .. => 4
  | .done _ => 0

/-- The products answer by index alone. -/
def Deterministic (callbacks : Callbacks E) (outcome : Nat → Result (List Nat)) : Prop :=
  ∀ engine indices, (callbacks.products engine indices).2 = indices.map outcome

/-- What is true of the worker of device `first` at any time. -/
structure Consistent (devices : List Nat) (callbacks : Callbacks E) (first : Fin devices.length)
    (w : Worker E) : Prop where
  reserved : (held first w).head? = some first.val
  claiming : ∀ engine indices batch, w = .claiming engine indices batch → indices.length ≤ 1
  failed : ∀ error, w = .done (.error error) → callbacks.init (devices.get first) = .error error
  working : (∀ error, w ≠ .done (.error error)) → w ≠ .waiting →
    ∃ engine, callbacks.init (devices.get first) = .ok engine
  ordinal : ∀ result, w = .done (.ok result) → result.ordinal = devices.get first
  outcome : ∀ outcome, Deterministic callbacks outcome → ∀ entry ∈ batchOf w, entry.2 =
    outcome entry.1

/-- What one turn does to the counter and to the worker. -/
structure Turned (moduli : Nat) (first : Nat) (next next' : Nat) (w w' : Worker E) : Prop where
  held : (held first w' : Multiset Nat) + Multiset.range (min next moduli) =
    held first w + Multiset.range (min next' moduli)
  mono : next ≤ next'
  high : next' ≤ moduli + 1 ∨ next' + spent w ≤ next + spent w'
  spent_le : spent w ≤ spent w'
  ended : ∀ result, w' = .done (.ok result) → w' = w ∨ moduli ≤ next'
  progress : w.result? = none → weight w' + 2 * (moduli - next') < weight w + 2 * (moduli - next)

theorem recorded_fst (indices : List Nat) (values : List (Result (List Nat))) :
    (recorded indices values).map Prod.fst = indices := by
  unfold recorded
  split
  · rename_i hlen
    exact List.map_fst_zip (by omega)
  · rw [List.map_map]
    exact List.map_id _

theorem recorded_outcome {outcome : Nat → Result (List Nat)} {indices : List Nat}
    {entry : IndexedCudaResidue} (h : entry ∈ recorded indices (indices.map outcome)) :
    entry.2 = outcome entry.1 := by
  rw [recorded, if_pos (List.length_map _)] at h
  rw [List.zip_map_right, List.mem_map] at h
  obtain ⟨⟨a, b⟩, hab, rfl⟩ := h
  have : a = b := by
    rw [List.zip, List.zipWith_self, List.mem_map] at hab
    obtain ⟨c, -, hc⟩ := hab
    simp only [Prod.mk.injEq] at hc
    omega
  simp [this]

theorem claimed_eq {start take moduli : Nat} (hmoduli : moduli < 2 ^ 64) :
    claimed start take moduli = List.range' start (min (start + take) moduli - start) := by
  unfold claimed
  dsimp only
  congr 2
  omega

theorem range_claimed {start take moduli : Nat} (hmoduli : moduli < 2 ^ 64) :
    (claimed start take moduli : Multiset Nat) + Multiset.range (min start moduli) =
      Multiset.range (min (start + take) moduli) := by
  rw [claimed_eq hmoduli]
  have hrange (n : Nat) : Multiset.range n = (List.range n : Multiset Nat) := rfl
  rw [hrange, hrange, add_comm, Multiset.coe_add]
  congr 1
  by_cases h : start ≤ moduli
  · have happend := List.range'_append_1 (s := 0) (m := start)
      (n := min (start + take) moduli - start)
    rw [Nat.zero_add] at happend
    rw [Nat.min_eq_left h, List.range_eq_range', happend, List.range_eq_range']
    congr 1
    omega
  · rw [Nat.min_eq_right (by omega), Nat.min_eq_right (by omega)]
    simp [show moduli - start = 0 by omega]

section
variable {devices : List Nat} {moduli batchSize : Nat} {callbacks : Callbacks E}

/-- A claim, from the loop head. -/
theorem claim_turned (hbatch : batchSize = 1 ∨ batchSize = 2) (hmoduli : moduli < 2 ^ 64)
    {first : Fin devices.length} {next : Nat} (hwrap : next + 2 < 2 ^ 64) {engine : E}
    {indices : List Nat} {batch : List IndexedCudaResidue}
    (h : Consistent devices callbacks first (.claiming engine indices batch)) :
    let result := turn devices moduli batchSize callbacks first next
      (.claiming engine indices batch)
    Consistent devices callbacks first result.2 ∧
      Turned moduli first next result.1 (.claiming engine indices batch) result.2 := by
  have hlen := h.claiming engine indices batch rfl
  obtain ⟨started, hinit⟩ := h.working (by simp) (by simp)
  have hheld := h.reserved
  have hout := h.outcome
  simp only [held, batchOf] at hheld hout
  by_cases htake : 0 < batchSize - indices.length
  · have hmod : (next + (batchSize - indices.length)) % 2 ^ 64 =
        next + (batchSize - indices.length) :=
      Nat.mod_eq_of_lt (by omega)
    have hrange : (claimed next (batchSize - indices.length) moduli : Multiset Nat) +
        Multiset.range (min next moduli) =
        Multiset.range (min (next + (batchSize - indices.length)) moduli) := range_claimed hmoduli
    simp only [turn, if_pos htake, hmod]
    split
    · rename_i hempty
      rw [List.isEmpty_iff, List.append_eq_nil_iff] at hempty
      obtain ⟨rfl, hnone⟩ := hempty
      simp only [List.length_nil, Nat.sub_zero] at hnone hrange htake ⊢
      have hpast : moduli ≤ next := by
        rw [claimed_eq hmoduli, List.range'_eq_nil_iff] at hnone
        omega
      refine ⟨⟨by simpa [held] using hheld, by simp, by simp, fun _ _ => ⟨started, hinit⟩, ?_, ?_⟩,
        ⟨?_, by omega, .inr ?_, by simp [spent], fun _ _ => .inr (by omega), fun _ => ?_⟩⟩
      · rintro result ⟨⟩
        rfl
      · exact hout
      · simp [held, Nat.min_eq_right hpast,
          Nat.min_eq_right (show moduli ≤ next + batchSize by omega)]
      · simp only [spent]
        omega
      · simp only [weight]
        omega
    · rename_i hnonempty
      have hroom : indices = [] → next < moduli := by
        rintro rfl
        rw [claimed_eq hmoduli] at hnonempty
        simp only [List.nil_append, List.isEmpty_iff, List.range'_eq_nil_iff] at hnonempty
        omega
      refine ⟨⟨?_, by simp, by simp, fun _ _ => ⟨started, hinit⟩, by simp, hout⟩,
        ⟨?_, by omega, ?_, ?_, by simp, fun _ => ?_⟩⟩
      · rw [held, ← List.append_assoc, List.head?_append, hheld]
        rfl
      · rw [held, held, ← List.append_assoc, ← Multiset.coe_add, add_assoc, hrange]
      · by_cases hpast : moduli ≤ next
        · right
          cases indices with
          | nil => exact absurd (hroom rfl) (by omega)
          | cons i rest =>
            simp only [spent, List.length_cons] at htake ⊢
            omega
        · left
          omega
      · cases indices <;> simp [spent]
      · cases indices with
        | nil =>
          have := hroom rfl
          simp only [weight, List.length_nil] at htake ⊢
          omega
        | cons i rest =>
          simp only [weight]
          omega
  · -- the reserved index alone fills a batch of one
    have hone : indices ≠ [] := by
      rintro rfl
      rw [List.length_nil] at htake
      omega
    simp only [turn, if_neg htake]
    rw [if_neg (by simpa using hone)]
    refine ⟨⟨hheld, by simp, by simp, fun _ _ => ⟨started, hinit⟩, by simp, hout⟩,
      ⟨rfl, le_rfl, .inr ?_, ?_, by simp, fun _ => ?_⟩⟩
    · cases indices <;> simp [spent] at hone ⊢
    · cases indices <;> simp [spent]
    · cases indices <;> simp [weight] at hone ⊢

theorem turn_spec (hbatch : batchSize = 1 ∨ batchSize = 2) (hmoduli : moduli < 2 ^ 64)
    {first : Fin devices.length} {next : Nat} (hwrap : next + 2 < 2 ^ 64) {w : Worker E}
    (h : Consistent devices callbacks first w) :
    Consistent devices callbacks first (turn devices moduli batchSize callbacks first next w).2 ∧
      Turned moduli first next (turn devices moduli batchSize callbacks first next w).1 w
        (turn devices moduli batchSize callbacks first next w).2 := by
  cases w with
  | waiting =>
    rw [turn]
    split
    · rename_i engine hinit
      refine ⟨⟨rfl, ?_, by simp, fun _ _ => ⟨engine, hinit⟩, by simp, by simp [batchOf]⟩,
        ⟨rfl, le_rfl, .inr (by simp [spent]), by simp [spent], by simp, fun _ => by simp [weight]⟩⟩
      rintro _ _ _ ⟨⟩
      simp
    · rename_i error hinit
      refine ⟨⟨rfl, by simp, ?_, ?_, by simp, by simp [batchOf]⟩,
        ⟨rfl, le_rfl, .inr (by simp [spent]), by simp [spent], by simp, fun _ => by simp [weight]⟩⟩
      · rintro _ ⟨⟩
        exact hinit
      · intro hne
        exact absurd rfl (hne error)
  | claiming engine indices batch => exact claim_turned hbatch hmoduli hwrap h
  | computing engine indices batch =>
    rw [turn]
    refine ⟨⟨?_, ?_, by simp, fun _ _ => h.working (by simp) (by simp), by simp, ?_⟩,
      ⟨?_, le_rfl, .inr (by simp [spent]), by simp [spent], by simp, fun _ => by simp [weight]⟩⟩
    · simpa [held, recorded_fst] using h.reserved
    · rintro _ _ _ ⟨⟩
      simp
    · intro outcome hdet entry hentry
      rcases List.mem_append.mp hentry with hold | hnew
      · exact h.outcome outcome hdet entry hold
      · rw [hdet] at hnew
        exact recorded_outcome hnew
    · simp [held, recorded_fst]
  | done result =>
    rw [turn]
    exact ⟨h, rfl, le_rfl, .inr le_rfl, le_rfl, fun _ _ => .inl rfl, fun hnone => by cases hnone⟩

end

/-! ## Schedules -/

/-- A sum over the workers after one of them has moved. -/
theorem sum_update {d : Nat} {M : Type} [AddCommMonoid M] (g : Fin d → Worker E → M)
    (workers : Fin d → Worker E) (i : Fin d) (w : Worker E) :
    ∑ j, g j (Function.update workers i w j) + g i (workers i) = ∑ j, g j (workers j) + g i w := by
  have hrest : ∑ j ∈ Finset.univ.erase i, g j (Function.update workers i w j) =
      ∑ j ∈ Finset.univ.erase i, g j (workers j) :=
    Finset.sum_congr rfl fun j hj => by rw [Function.update_of_ne (Finset.ne_of_mem_erase hj)]
  rw [← Finset.add_sum_erase _ _ (Finset.mem_univ i), hrest, Function.update_self,
    ← Finset.add_sum_erase _ (fun j => g j (workers j)) (Finset.mem_univ i)]
  abel

/-- The invariant of the scheduler. -/
structure Inv (devices : List Nat) (moduli : Nat) (callbacks : Callbacks E)
    (s : Scheduler E devices.length) : Prop where
  workers : ∀ i, Consistent devices callbacks i (s.workers i)
  held : ∑ i, (held i.val (s.workers i) : Multiset Nat) = Multiset.range (min s.next moduli)
  low : devices.length ≤ s.next
  high : s.next ≤ moduli + 1 + ∑ i, spent (s.workers i)
  ended : ∀ i result, s.workers i = .done (.ok result) → moduli ≤ s.next

/-- Turns still to come, at most. -/
def remaining {d : Nat} (moduli : Nat) (s : Scheduler E d) : Nat :=
  ∑ i, weight (s.workers i) + 2 * (moduli - s.next)

section
variable {devices : List Nat} {moduli batchSize : Nat} {callbacks : Callbacks E}

theorem spent_le (w : Worker E) : spent w ≤ 3 := by
  rcases w with _ | ⟨_, _ | _, _⟩ | _ | _ <;> simp [spent]

theorem Inv.next_le {s : Scheduler E devices.length} (h : Inv devices moduli callbacks s) :
    s.next ≤ moduli + 1 + 3 * devices.length := by
  have hsum : ∑ i, spent (s.workers i) ≤ ∑ _i : Fin devices.length, 3 :=
    Finset.sum_le_sum fun i _ => spent_le _
  rw [Finset.sum_const, Finset.card_univ, Fintype.card_fin, smul_eq_mul] at hsum
  have := h.high
  omega

theorem initial_inv (hle : devices.length ≤ moduli) :
    Inv devices moduli callbacks ⟨devices.length, fun _ => .waiting⟩ := by
  refine ⟨fun i => ⟨rfl, by simp, by simp, ?_, by simp, by simp [batchOf]⟩, ?_, le_rfl,
    le_add_right (Nat.le_succ_of_le hle), by simp⟩
  · intro _ hne
    exact absurd rfl hne
  · rw [Nat.min_eq_left hle, Fin.sum_univ_def]
    simp only [CudaScheduler.held]
    have hlist : ∀ l : List Nat, (l.map fun i => (([i] : List Nat) : Multiset Nat)).sum =
        (l : Multiset Nat) := by
      intro l
      induction l with
      | nil => rfl
      | cons x l ih => rw [List.map_cons, List.sum_cons, ih]; rfl
    have := hlist ((List.finRange devices.length).map Fin.val)
    rw [List.map_map, List.map_coe_finRange_eq_range] at this
    exact this

theorem turnOf_self (s : Scheduler E devices.length) (i : Fin devices.length) :
    (turnOf devices moduli batchSize callbacks s i).workers i =
      (turn devices moduli batchSize callbacks i s.next (s.workers i)).2 :=
  Function.update_self ..

theorem turnOf_other (callbacks : Callbacks E) (moduli batchSize : Nat)
    {s : Scheduler E devices.length} {i j : Fin devices.length} (h : j ≠ i) :
    (turnOf devices moduli batchSize callbacks s i).workers j = s.workers j :=
  Function.update_of_ne h ..

theorem turnOf_spec (hbatch : batchSize = 1 ∨ batchSize = 2) (hle : devices.length ≤ moduli)
    (hmoduli : moduli < 2 ^ 62) {s : Scheduler E devices.length}
    (h : Inv devices moduli callbacks s) (i : Fin devices.length) :
    Inv devices moduli callbacks (turnOf devices moduli batchSize callbacks s i) ∧
      ((s.workers i).result? = none →
        remaining moduli (turnOf devices moduli batchSize callbacks s i) < remaining moduli s) := by
  have hnext := h.next_le
  have hmoduli' : moduli < 2 ^ 64 := by omega
  have hwrap : s.next + 2 < 2 ^ 64 := by omega
  obtain ⟨hcons, hturn⟩ := turn_spec hbatch hmoduli' hwrap (h.workers i)
  refine ⟨⟨fun j => ?_, ?_, h.low.trans hturn.mono, ?_, fun j result hj => ?_⟩, fun hopen => ?_⟩
  · by_cases hj : j = i
    · subst hj
      rw [turnOf_self]
      exact hcons
    · rw [turnOf_other _ _ _ hj]
      exact h.workers j
  · have hsum := sum_update (fun j w => (CudaScheduler.held j.val w : Multiset Nat)) s.workers i
      (turn devices moduli batchSize callbacks i s.next (s.workers i)).2
    rw [h.held, add_comm (Multiset.range _), hturn.held,
      add_comm (CudaScheduler.held i.val _ : Multiset Nat)] at hsum
    exact add_right_cancel hsum
  · have hspent := sum_update (fun _ => spent) s.workers i
      (turn devices moduli batchSize callbacks i s.next (s.workers i)).2
    have hle' := hturn.spent_le
    have hhigh := h.high
    simp only [turnOf]
    rcases hturn.high with hlow | hpast
    · omega
    · omega
  · by_cases hji : j = i
    · subst hji
      rw [turnOf_self] at hj
      rcases hturn.ended result hj with hsame | hpast
      · exact (h.ended j result (hsame ▸ hj)).trans hturn.mono
      · exact hpast
    · rw [turnOf_other _ _ _ hji] at hj
      exact (h.ended j result hj).trans hturn.mono
  · have hweight := sum_update (fun _ => weight) s.workers i
      (turn devices moduli batchSize callbacks i s.next (s.workers i)).2
    have hprogress := hturn.progress hopen
    simp only [remaining, turnOf]
    omega

theorem foldl_inv (hbatch : batchSize = 1 ∨ batchSize = 2) (hle : devices.length ≤ moduli)
    (hmoduli : moduli < 2 ^ 62) (schedule : List (Fin devices.length))
    {s : Scheduler E devices.length} (h : Inv devices moduli callbacks s) :
    Inv devices moduli callbacks
      (schedule.foldl (turnOf devices moduli batchSize callbacks) s) := by
  induction schedule generalizing s with
  | nil => exact h
  | cons i rest ih => exact ih (turnOf_spec hbatch hle hmoduli h i).1

theorem run_inv (hbatch : batchSize = 1 ∨ batchSize = 2) (hle : devices.length ≤ moduli)
    (hmoduli : moduli < 2 ^ 62) (schedule : List (Fin devices.length)) :
    Inv devices moduli callbacks (run devices moduli batchSize callbacks schedule) :=
  foldl_inv hbatch hle hmoduli schedule (initial_inv hle)

/-- Every turn of the schedule is taken by a worker that is not done. -/
def Effective (devices : List Nat) (moduli batchSize : Nat) (callbacks : Callbacks E)
    (s : Scheduler E devices.length) : List (Fin devices.length) → Prop
  | [] => True
  | i :: rest => (s.workers i).result? = none ∧
      Effective devices moduli batchSize callbacks
        (turnOf devices moduli batchSize callbacks s i) rest

theorem effective_length (hbatch : batchSize = 1 ∨ batchSize = 2) (hle : devices.length ≤ moduli)
    (hmoduli : moduli < 2 ^ 62) {schedule : List (Fin devices.length)}
    {s : Scheduler E devices.length} (h : Inv devices moduli callbacks s)
    (heff : Effective devices moduli batchSize callbacks s schedule) :
    schedule.length ≤ remaining moduli s := by
  induction schedule generalizing s with
  | nil => exact Nat.zero_le _
  | cons i rest ih =>
    obtain ⟨hinv, hlt⟩ := turnOf_spec hbatch hle hmoduli h i
    have := ih hinv heff.2
    have := hlt heff.1
    rw [List.length_cons]
    omega

/-- From any point of a run the workers finish if they keep taking turns. -/
theorem exists_completion (hbatch : batchSize = 1 ∨ batchSize = 2) (hle : devices.length ≤ moduli)
    (hmoduli : moduli < 2 ^ 62) {s : Scheduler E devices.length}
    (h : Inv devices moduli callbacks s) :
    ∃ more : List (Fin devices.length),
      ∀ i, ((more.foldl (turnOf devices moduli batchSize callbacks) s).workers i).result? ≠
        none := by
  induction hn : remaining moduli s using Nat.strong_induction_on generalizing s with
  | _ n ih =>
    by_cases hopen : ∃ i, (s.workers i).result? = none
    · obtain ⟨i, hi⟩ := hopen
      obtain ⟨hinv, hlt⟩ := turnOf_spec hbatch hle hmoduli h i
      obtain ⟨more, hmore⟩ := ih _ (hn ▸ hlt hi) hinv rfl
      exact ⟨i :: more, hmore⟩
    · exact ⟨[], fun i hi => hopen ⟨i, hi⟩⟩

/-! ## What has been computed -/

/-- The recorded products, in device order. -/
def computed {d : Nat} (s : Scheduler E d) : List IndexedCudaResidue :=
  (List.finRange d).flatMap fun i => batchOf (s.workers i)

theorem coe_flatMap {α β : Type} (l : List α) (f : α → List β) :
    (l.flatMap f : Multiset β) = (l.map fun x => (f x : Multiset β)).sum := by
  induction l with
  | nil => rfl
  | cons x l ih => rw [List.flatMap_cons, ← Multiset.coe_add, ih, List.map_cons, List.sum_cons]

theorem computed_fst {d : Nat} (s : Scheduler E d) :
    ((computed s).map Prod.fst : Multiset Nat) =
      ∑ i, ((batchOf (s.workers i)).map Prod.fst : Multiset Nat) := by
  rw [computed, List.map_flatMap, coe_flatMap, Fin.sum_univ_def]

theorem batchOf_le_held (first : Nat) (w : Worker E) :
    ((batchOf w).map Prod.fst : Multiset Nat) ≤ held first w := by
  rcases w with _ | _ | _ | (_ | _) <;> simp [batchOf, held, ← Multiset.coe_add]

theorem Inv.computed_le {s : Scheduler E devices.length} (h : Inv devices moduli callbacks s) :
    ((computed s).map Prod.fst : Multiset Nat) ≤ Multiset.range moduli := by
  rw [computed_fst]
  refine (Finset.sum_le_sum fun i _ => batchOf_le_held i.val _).trans ?_
  rw [h.held]
  exact Multiset.range_le.mpr (min_le_right _ _)

/-- Once all devices are done, every index has been computed. -/
theorem Inv.computed_perm {s : Scheduler E devices.length} (h : Inv devices moduli callbacks s)
    (hne : devices ≠ []) {results : Fin devices.length → CudaDeviceBatch}
    (hdone : ∀ i, s.workers i = .done (.ok (results i))) :
    ((computed s).map Prod.fst).Perm (List.range moduli) := by
  have hpos : 0 < devices.length := List.length_pos_iff.mpr hne
  have hpast := h.ended ⟨0, hpos⟩ _ (hdone ⟨0, hpos⟩)
  have hheld := h.held
  rw [Nat.min_eq_right hpast] at hheld
  rw [← Multiset.coe_eq_coe, computed_fst]
  refine Eq.trans (Finset.sum_congr rfl fun i _ => ?_) hheld
  rw [hdone i, batchOf, CudaScheduler.held]

/-! ## Collection -/

theorem mapM_error {α β ε : Type} {f : α → Except ε β} {l : List α} {i : Nat} {x : α} {error : ε}
    (hx : l[i]? = some x) (hearlier : ∀ y ∈ l.take i, ∃ b, f y = .ok b)
    (herror : f x = .error error) :
    l.mapM f = .error error := by
  induction l generalizing i with
  | nil => simp at hx
  | cons y l ih =>
    rw [List.mapM_cons]
    cases i with
    | zero =>
      cases hx
      rw [herror]
      rfl
    | succ i =>
      obtain ⟨b, hb⟩ := hearlier y (by simp)
      rw [hb, ok_bind, ih (by simpa using hx) fun z hz => hearlier z (by simp [hz])]
      rfl

/-- Distinct indices make the record a function of the index. -/
theorem exists_record {entries : List IndexedCudaResidue} (h : (entries.map Prod.fst).Nodup) :
    ∃ record : Nat → Result (List Nat), ∀ entry ∈ entries, entry.2 = record entry.1 := by
  refine ⟨fun i => ((entries.find? fun e => e.1 = i).map Prod.snd).getD (.ok []),
    fun entry hentry => ?_⟩
  cases hfind : entries.find? fun e => e.1 = entry.1 with
  | none => simpa using List.find?_eq_none.mp hfind entry hentry
  | some found =>
    have hmem := List.mem_of_find?_eq_some hfind
    have hkey : found.1 = entry.1 := by simpa using List.find?_some hfind
    have hsame := List.inj_on_of_nodup_map h hmem hentry hkey
    simp [hfind, hsame]

theorem sortByIndex_eq {entries : List IndexedCudaResidue} {record : Nat → Result (List Nat)}
    (hperm : (entries.map Prod.fst).Perm (List.range moduli))
    (hrecord : ∀ entry ∈ entries, entry.2 = record entry.1) :
    sortByIndex entries = (List.range moduli).map fun i => (i, record i) := by
  have hsorted : (sortByIndex entries).Perm entries := List.perm_insertionSort _ _
  have hkeys : (sortByIndex entries).map Prod.fst = List.range moduli := by
    have hantisymm : ∀ a b : Nat, a ∈ (sortByIndex entries).map Prod.fst → b ∈ List.range moduli →
        a ≤ b → b ≤ a → a = b := fun a b _ _ hab hba => le_antisymm hab hba
    refine List.Perm.eq_of_pairwise hantisymm ?_ ?_ ((hsorted.map _).trans hperm)
    · rw [List.pairwise_map]
      have : Std.Total fun x y : IndexedCudaResidue => x.1 ≤ y.1 := ⟨fun x y => le_total x.1 y.1⟩
      have : IsTrans IndexedCudaResidue fun x y => x.1 ≤ y.1 := ⟨fun x y z => le_trans⟩
      exact List.pairwise_insertionSort _ entries
    · exact List.pairwise_lt_range.imp le_of_lt
  calc sortByIndex entries = (sortByIndex entries).map fun e => (e.1, record e.1) := by
        refine ((List.map_congr_left fun e he => ?_).trans (List.map_id _)).symm
        rw [← hrecord e (hsorted.mem_iff.mp he)]
        rfl
    _ = ((sortByIndex entries).map Prod.fst).map fun i => (i, record i) := by rw [List.map_map]; rfl
    _ = _ := by rw [hkeys]

theorem zipIdx_expect (record : Nat → Result (List Nat)) (s n : Nat) :
    (((List.range' s n).map fun i => (i, record i)).zipIdx s).mapM expectIndex =
      (List.range' s n).mapM record := by
  induction n generalizing s with
  | zero => rfl
  | succ n ih =>
    rw [List.range'_succ, List.map_cons, List.zipIdx_cons, List.mapM_cons, List.mapM_cons, ih]
    simp [expectIndex, ensure]

/-- The collection of complete batches. -/
theorem collect_eq {d : Nat} {results : Fin d → CudaDeviceBatch} {record : Nat → Result (List Nat)}
    (hperm : (((List.finRange d).flatMap fun i => (results i).batch).map Prod.fst).Perm
      (List.range moduli))
    (hrecord : ∀ entry ∈ (List.finRange d).flatMap fun i => (results i).batch,
      entry.2 = record entry.1) :
    collectCudaResidues ((List.finRange d).map fun i => .ok (results i)) moduli = do
      let residues ← (List.range moduli).mapM record
      let _ ← ((List.finRange d).map results).mapM CudaDeviceBatch.finished
      return (residues, ((List.finRange d).map results).map fun b =>
        ⟨b.ordinal, (b.batch.filter fun e => isOk e.2).length⟩) := by
  have hbatches : ((List.finRange d).map fun i =>
    (.ok (results i) : Result CudaDeviceBatch)).mapM id =
      .ok ((List.finRange d).map results) := by
    rw [List.mapM_map]
    exact mapM_ok fun i _ => rfl
  have hzip := zipIdx_expect record 0 moduli
  unfold collectCudaResidues
  rw [← List.range_eq_range'] at hzip
  simp only [hbatches, ok_bind, List.flatMap_map, sortByIndex_eq hperm hrecord, List.length_map,
    List.length_range, beq_self_eq_true, ensure, if_true, hzip]

/-! ## The outcome of a schedule -/

theorem mapM_option_mem {α β : Type} {f : α → Option β} {l : List α} {ys : List β}
    (h : l.mapM f = some ys) : ∀ x ∈ l, ∃ y, f x = some y := by
  induction l generalizing ys with
  | nil => simp
  | cons x l ih =>
    rw [List.mapM_cons] at h
    cases hx : f x with
    | none => rw [hx] at h; cases h
    | some y =>
      cases hl : l.mapM f with
      | none => rw [hx, hl] at h; cases h
      | some zs => exact List.forall_mem_cons.mpr ⟨⟨y, hx⟩, ih hl⟩

theorem mapM_option_eq {α β : Type} {f : α → Option β} {g : α → β} {l : List α}
    (h : ∀ x ∈ l, f x = some (g x)) : l.mapM f = some (l.map g) := by
  induction l with
  | nil => rfl
  | cons x l ih =>
    rw [List.mapM_cons, h x (by simp), ih fun y hy => h y (by simp [hy])]
    rfl

/-- A complete schedule: all workers are done and their batches are collected. -/
theorem scheduled_some {schedule : List (Fin devices.length)}
    {result : Result (List (List Nat) × List CudaDeviceWork)} (hne : devices ≠ [])
    (hbatch : batchSize = 1 ∨ batchSize = 2) (hle : devices.length ≤ moduli)
    (h : scheduledResidueBatches devices moduli batchSize callbacks schedule = some result) :
    ∃ results : Fin devices.length → Result CudaDeviceBatch,
      (∀ i, (run devices moduli batchSize callbacks schedule).workers i = .done (results i)) ∧
      result = collectCudaResidues ((List.finRange devices.length).map results) moduli := by
  have hempty : devices.isEmpty = false := by simpa using hne
  have hsize : (batchSize == 1 || batchSize == 2) = true := by
    rcases hbatch with rfl | rfl <;> rfl
  simp only [scheduledResidueBatches, ensure, hempty, Bool.not_false, if_true, ok_bind, hsize, hle,
    decide_true, Option.map_eq_some_iff] at h
  obtain ⟨collected, hcollected, rfl⟩ := h
  have hworker : ∀ i : Fin devices.length, ∃ r,
      (run devices moduli batchSize callbacks schedule).workers i = .done r := by
    intro i
    obtain ⟨r, hr⟩ := mapM_option_mem hcollected i (List.mem_finRange i)
    revert hr
    cases hw : (run devices moduli batchSize callbacks schedule).workers i with
    | done result => exact fun _ => ⟨result, rfl⟩
    | _ => exact fun hr => by cases hr
  choose results hresults using hworker
  have hmap : batches (run devices moduli batchSize callbacks schedule) =
      some ((List.finRange devices.length).map results) :=
    mapM_option_eq fun i _ => by rw [hresults i]; rfl
  rw [hcollected] at hmap
  exact ⟨results, hresults, by rw [Option.some.inj hmap]⟩

theorem take_finRange_lt {d : Nat} {i j : Fin d} (h : j ∈ (List.finRange d).take i) : j < i := by
  have hmem := List.mem_map_of_mem (f := Fin.val) h
  rw [List.map_take, List.map_coe_finRange_eq_range, List.take_range, List.mem_range] at hmem
  exact Fin.lt_def.mpr (lt_of_lt_of_le hmem (min_le_left _ _))

/-- An initialisation error is reported in device order. -/
theorem collect_init_error {d : Nat} {results : Fin d → Result CudaDeviceBatch} {i : Fin d}
    {error : ProductError} (hi : results i = .error error)
    (hearlier : ∀ j < i, ∃ b, results j = .ok b) :
    collectCudaResidues ((List.finRange d).map results) moduli = .error error := by
  have hmap : ((List.finRange d).map results).mapM id = .error error := by
    rw [List.mapM_map]
    refine mapM_error (x := i) (i := i.val) ?_ (fun j hj => hearlier j (take_finRange_lt hj)) hi
    rw [List.getElem?_eq_getElem (by simp)]
    simp
  unfold collectCudaResidues
  rw [hmap]
  rfl

theorem mapM_range_ok {record : Nat → Result (List Nat)} (n : Nat)
    (h : ∀ i < n, ∃ r, record i = .ok r) :
    ∃ residues, (List.range n).mapM record = .ok residues ∧ residues.length = n ∧
      ∀ i < n, ∃ r, record i = .ok r ∧ residues[i]? = some r := by
  have hget : ∀ i, ∃ r, i < n → record i = .ok r := fun i => by
    by_cases hi : i < n
    · obtain ⟨r, hr⟩ := h i hi
      exact ⟨r, fun _ => hr⟩
    · exact ⟨[], fun hlt => absurd hlt hi⟩
  choose value hvalue using hget
  refine ⟨(List.range n).map value, mapM_ok fun i hi =>
    hvalue i (List.mem_range.mp hi), by simp, ?_⟩
  intro i hi
  exact ⟨value i, hvalue i hi, by simp [hi]⟩

theorem mapM_range_error {record : Nat → Result (List Nat)} {n i : Nat} (hi : i < n)
    {error : ProductError} (herror : record i = .error error)
    (hearlier : ∀ j < i, ∃ r, record j = .ok r) : (List.range n).mapM record = .error error := by
  refine mapM_error (x := i) (i := i) (by simp [hi]) (fun j hj => hearlier j ?_) herror
  rw [List.take_range, List.mem_range] at hj
  omega

theorem isOk_iff {α : Type} {x : Result α} : isOk x = true ↔ ∃ a, x = .ok a := by
  cases x <;> simp [isOk]

/-- A complete schedule on devices that all initialise, with each index's record. -/
structure Collected (devices : List Nat) (moduli : Nat) (s : Scheduler E devices.length)
    (results : Fin devices.length → CudaDeviceBatch) (record : Nat → Result (List Nat))
    (result : Result (List (List Nat) × List CudaDeviceWork)) : Prop where
  done : ∀ i, s.workers i = .done (.ok (results i))
  perm : ((computed s).map Prod.fst).Perm (List.range moduli)
  recorded : ∀ entry ∈ computed s, entry.2 = record entry.1
  collected : result = do
    let residues ← (List.range moduli).mapM record
    let _ ← ((List.finRange devices.length).map results).mapM CudaDeviceBatch.finished
    return (residues, ((List.finRange devices.length).map results).map fun b =>
      ⟨b.ordinal, (b.batch.filter fun e => isOk e.2).length⟩)

theorem exists_collected {s : Scheduler E devices.length} (h : Inv devices moduli callbacks s)
    (hne : devices ≠ []) (hinit :
      ∀ ordinal ∈ devices, ∃ engine, callbacks.init ordinal = .ok engine)
    {results : Fin devices.length → Result CudaDeviceBatch}
    (hdone : ∀ i, s.workers i = .done (results i)) :
    ∃ batches record, Collected devices moduli s batches record
      (collectCudaResidues ((List.finRange devices.length).map results) moduli) := by
  have hok : ∀ i, ∃ b, results i = .ok b := by
    intro i
    cases hi : results i with
    | ok b => exact ⟨b, rfl⟩
    | error error =>
      obtain ⟨engine, hengine⟩ := hinit _ (List.get_mem devices i)
      have hfailed := (h.workers i).failed error (by rw [hdone i, hi])
      rw [hengine] at hfailed
      cases hfailed
  choose batches hbatches using hok
  have hdone' : ∀ i, s.workers i = .done (.ok (batches i)) := fun i => by rw [hdone i, hbatches i]
  have hperm := h.computed_perm hne hdone'
  obtain ⟨record, hrecord⟩ := exists_record (hperm.nodup_iff.mpr List.nodup_range)
  have hcomputed : computed s = (List.finRange devices.length).flatMap fun i =>
    (batches i).batch := by
    simp only [computed, hdone', batchOf]
  refine ⟨batches, record, hdone', hperm, hrecord, ?_⟩
  rw [funext hbatches]
  exact collect_eq (hcomputed ▸ hperm) (hcomputed ▸ hrecord)

section
variable {s : Scheduler E devices.length} {results : Fin devices.length → CudaDeviceBatch}
  {record : Nat → Result (List Nat)} {result : Result (List (List Nat) × List CudaDeviceWork)}

theorem Collected.mem (h : Collected devices moduli s results record result) {index : Nat}
    (hindex : index < moduli) : (index, record index) ∈ computed s := by
  have hmem := h.perm.mem_iff.mpr (List.mem_range.mpr hindex)
  obtain ⟨entry, hentry, rfl⟩ := List.mem_map.mp hmem
  rw [← h.recorded entry hentry]
  exact hentry

theorem Collected.lt (h : Collected devices moduli s results record result)
    {entry : IndexedCudaResidue} (hentry : entry ∈ computed s) : entry.1 < moduli :=
  List.mem_range.mp (h.perm.mem_iff.mp (List.mem_map_of_mem hentry))

/-- The error of the smallest failing index. -/
theorem Collected.error (h : Collected devices moduli s results record result) {index : Nat}
    (hindex : index < moduli) {error : ProductError} (herror : record index = .error error)
    (hearlier : ∀ j < index, ∃ r, record j = .ok r) : result = .error error := by
  rw [h.collected, mapM_range_error hindex herror hearlier]
  rfl

theorem Collected.success (h : Collected devices moduli s results record result)
    (hok : ∀ entry ∈ computed s, ∃ r, entry.2 = .ok r)
    (hfinished : ∀ i, (results i).finished = .ok ())
    (hordinal : ∀ i, (results i).ordinal = devices.get i) :
    ∃ residues work, result = .ok (residues, work) ∧ residues.length = moduli ∧
      (∀ entry ∈ computed s, ∃ r, entry.2 = .ok r ∧ residues[entry.1]? = some r) ∧
      work.map CudaDeviceWork.ordinal = devices ∧
      (work.map CudaDeviceWork.successfulModuli).sum = moduli := by
  have hall : ∀ i < moduli, ∃ r, record i = .ok r := fun i hi => hok _ (h.mem hi)
  obtain ⟨residues, hresidues, hlength, hget⟩ := mapM_range_ok moduli hall
  have hclean : ((List.finRange devices.length).map results).mapM CudaDeviceBatch.finished =
      .ok (((List.finRange devices.length).map results).map fun _ => ()) := by
    refine mapM_ok fun b hb => ?_
    obtain ⟨i, -, rfl⟩ := List.mem_map.mp hb
    exact hfinished i
  refine ⟨residues, _, by rw [h.collected, hresidues, ok_bind, hclean]; rfl, hlength, ?_, ?_, ?_⟩
  · intro entry hentry
    obtain ⟨r, hr, hi⟩ := hget _ (h.lt hentry)
    exact ⟨r, by rw [h.recorded entry hentry, hr], hi⟩
  · simp only [List.map_map]
    refine Eq.trans (List.map_congr_left fun i _ => ?_) (List.map_get_finRange devices)
    exact hordinal i
  · have hcount : ∀ i, ((results i).batch.filter fun e => isOk e.2).length =
        (batchOf (s.workers i)).length := by
      intro i
      rw [h.done i, batchOf, List.filter_eq_self.mpr]
      intro entry hentry
      refine isOk_iff.mpr (hok entry (List.mem_flatMap.mpr ⟨i, List.mem_finRange i, ?_⟩))
      rwa [h.done i, batchOf]
    simp only [List.map_map, Function.comp_def, hcount]
    have hlen := h.perm.length_eq
    rw [List.length_map, List.length_range, computed, List.length_flatMap] at hlen
    exact hlen

end

theorem reserved_mem {i : Fin devices.length} {b : CudaDeviceBatch}
    (h : Consistent devices callbacks i (.done (.ok b))) : ∃ value, (i.val, value) ∈ b.batch := by
  have hhead := h.reserved
  simp only [held, List.head?_map] at hhead
  obtain ⟨entry, hentry, hi⟩ := Option.map_eq_some_iff.mp hhead
  exact ⟨entry.2, hi ▸ List.mem_of_mem_head? hentry⟩

/-- What `scheduled_residue_batches` does on devices that all initialise. -/
structure Scheduled (devices : List Nat) (moduli : Nat) (callbacks : Callbacks E)
    (s : Scheduler E devices.length) (result : Result (List (List Nat) × List CudaDeviceWork)) :
    Prop where
  once : ((computed s).map Prod.fst).Perm (List.range moduli)
  reserved : ∀ i : Fin devices.length, ∃ value, (i.val, value) ∈ batchOf (s.workers i)
  success : (∀ entry ∈ computed s, ∃ r, entry.2 = .ok r) →
    (∀ i b, s.workers i = .done (.ok b) → b.finished = .ok ()) →
    ∃ residues work, result = .ok (residues, work) ∧ residues.length = moduli ∧
      (∀ entry ∈ computed s, ∃ r, entry.2 = .ok r ∧ residues[entry.1]? = some r) ∧
      work.map CudaDeviceWork.ordinal = devices ∧
      (work.map CudaDeviceWork.successfulModuli).sum = moduli
  failure : ∀ index error, (index, .error error) ∈ computed s →
    (∀ other error', (other, .error error') ∈ computed s → index ≤ other) → result = .error error
  independent : ∀ outcome, Deterministic callbacks outcome → ∀ index < moduli, ∀ error,
    outcome index = .error error → (∀ j < index, ∃ r, outcome j = .ok r) → result = .error error

theorem Collected.scheduled {s : Scheduler E devices.length}
    (h : Inv devices moduli callbacks s) {results : Fin devices.length → CudaDeviceBatch}
    {record : Nat → Result (List Nat)} {result : Result (List (List Nat) × List CudaDeviceWork)}
    (hc : Collected devices moduli s results record result) :
    Scheduled devices moduli callbacks s result := by
  refine ⟨hc.perm, fun i => ?_, fun hok hfinished => ?_, ?_, ?_⟩
  · have hi := h.workers i
    rw [hc.done i] at hi ⊢
    exact reserved_mem hi
  · exact hc.success hok (fun i => hfinished i _ (hc.done i))
      fun i => (h.workers i).ordinal _ (hc.done i)
  · intro index error hmem hleast
    have hindex := hc.lt hmem
    refine hc.error hindex (hc.recorded _ hmem).symm fun j hj => ?_
    cases hrecord : record j with
    | ok r => exact ⟨r, rfl⟩
    | error error' =>
      have hmem' := hc.mem (hj.trans hindex)
      rw [hrecord] at hmem'
      exact absurd (hleast j error' hmem') (by omega)
  · intro outcome hdet index hindex error herror hearlier
    have hrecord : ∀ j < moduli, record j = outcome j := by
      intro j hj
      obtain ⟨i, -, hi⟩ := List.mem_flatMap.mp (hc.mem hj)
      exact (h.workers i).outcome outcome hdet _ hi
    refine hc.error hindex ((hrecord index hindex).trans herror) fun j hj => ?_
    rw [hrecord j (hj.trans hindex)]
    exact hearlier j hj

theorem run_append (schedule more : List (Fin devices.length)) :
    run devices moduli batchSize callbacks (schedule ++ more) =
      more.foldl (turnOf devices moduli batchSize callbacks)
        (run devices moduli batchSize callbacks schedule) := by
  rw [run, List.foldl_append]
  rfl

theorem scheduled_isSome {schedule : List (Fin devices.length)}
    (h : ∀ i, ((run devices moduli batchSize callbacks schedule).workers i).result? ≠ none) :
    (scheduledResidueBatches devices moduli batchSize callbacks schedule).isSome = true := by
  have hsome : ∀ i, ∃ r, ((run devices moduli batchSize callbacks schedule).workers i).result? =
      some r :=
    fun i => Option.ne_none_iff_exists'.mp (h i)
  choose results hresults using hsome
  have hmap : batches (run devices moduli batchSize callbacks schedule) =
      some ((List.finRange devices.length).map results) := mapM_option_eq fun i _ => hresults i
  unfold scheduledResidueBatches
  dsimp only
  split
  · rfl
  · rw [hmap]
    rfl

/-- The schedule of the residue products, under every interleaving of the
workers' claims. The counter does not wrap because the primes of a product are a
vector of `u16`. -/
theorem scheduledResidueBatches_exact (hne : devices ≠ []) (hle : devices.length ≤ moduli)
    (hbatch : batchSize = 1 ∨ batchSize = 2) (hmoduli : moduli < 2 ^ 62) :
    (∀ schedule, ((computed (run devices moduli batchSize callbacks schedule)).map Prod.fst).Nodup ∧
      ∀ entry ∈ computed (run devices moduli batchSize callbacks schedule), entry.1 < moduli) ∧
    (∀ schedule, Effective devices moduli batchSize callbacks ⟨devices.length, fun _ => .waiting⟩
      schedule → schedule.length ≤ 6 * devices.length + 2 * (moduli - devices.length)) ∧
    (∀ schedule, ∃ more,
      (scheduledResidueBatches devices moduli batchSize callbacks (schedule ++ more)).isSome = true)
        ∧
    ∀ schedule result,
      scheduledResidueBatches devices moduli batchSize callbacks schedule = some result →
      (∀ i error, callbacks.init (devices.get i) = .error error →
        (∀ j < i, ∃ engine, callbacks.init (devices.get j) = .ok engine) → result = .error error) ∧
      ((∀ ordinal ∈ devices, ∃ engine, callbacks.init ordinal = .ok engine) →
        Scheduled devices moduli callbacks (run devices moduli batchSize callbacks schedule)
          result) := by
  have hinv : ∀ schedule,
      Inv devices moduli callbacks (run devices moduli batchSize callbacks schedule) :=
    run_inv hbatch hle hmoduli
  refine ⟨fun schedule => ?_, fun schedule heff => ?_, fun schedule =>
    ?_, fun schedule result hrun => ?_⟩
  · have hle := (hinv schedule).computed_le
    refine ⟨Multiset.coe_nodup.mp (Multiset.nodup_of_le hle (Multiset.nodup_range _)), ?_⟩
    intro entry hentry
    exact Multiset.mem_range.mp (Multiset.mem_of_le hle (List.mem_map_of_mem hentry))
  · refine (effective_length hbatch hle hmoduli (initial_inv hle) heff).trans (le_of_eq ?_)
    simp [remaining, weight, Nat.mul_comm]
  · obtain ⟨more, hmore⟩ := exists_completion hbatch hle hmoduli (hinv schedule)
    exact ⟨more, scheduled_isSome (by rwa [run_append])⟩
  · obtain ⟨results, hdone, rfl⟩ := scheduled_some hne hbatch hle hrun
    refine ⟨fun i error herror hearlier => ?_, fun hinit => ?_⟩
    · have hresult : ∀ j, (∃ engine, callbacks.init (devices.get j) = .ok engine) →
          ∃ b, results j = .ok b := by
        rintro j ⟨engine, hengine⟩
        cases hj : results j with
        | ok b => exact ⟨b, rfl⟩
        | error e =>
          have hfailed := ((hinv schedule).workers j).failed e (by rw [hdone j, hj])
          rw [hengine] at hfailed
          cases hfailed
      refine collect_init_error ?_ fun j hj => hresult j (hearlier j hj)
      cases hi : results i with
      | ok b =>
        obtain ⟨engine, hengine⟩ := ((hinv schedule).workers i).working (by simp [hdone i, hi])
          (by simp [hdone i])
        rw [herror] at hengine
        cases hengine
      | error e =>
        have hfailed := ((hinv schedule).workers i).failed e (by rw [hdone i, hi])
        rw [herror] at hfailed
        cases hfailed
        rfl
    · obtain ⟨collected, record, hc⟩ := exists_collected (hinv schedule) hne hinit hdone
      exact hc.scheduled (hinv schedule)

end

end

def sampleCallbacks : Callbacks Unit where
  init := fun _ => .ok ()
  products := fun engine indices => (engine, indices.map fun i => .ok [i])
  finish := fun _ => .ok ()

/-- Two devices and three primes, two at a time, with the second worker ahead. -/
theorem scheduledResidueBatches_exact_sample :
    ∃ more, (scheduledResidueBatches [4, 2] 3 2 sampleCallbacks ([1, 1, 0] ++ more)).isSome =
      true :=
  (scheduledResidueBatches_exact (by decide) (by decide) (.inr rfl) (by norm_num)).2.2.1 [1, 1, 0]

/-- A device that does not initialise. -/
def failingCallbacks : Callbacks Unit where
  init := fun _ => .error (.refused "device unavailable")
  products := fun engine indices => (engine, indices.map fun i => .ok [i])
  finish := fun _ => .ok ()

/-- The prime reserved for such a device is not computed. -/
theorem failed_device_loses_reserved_index :
    ¬ ∀ (callbacks : Callbacks Unit) (schedule : List (Fin 1)),
      (scheduledResidueBatches [0] 1 1 callbacks schedule).isSome = true →
      ((computed (run [0] 1 1 callbacks schedule)).map Prod.fst).Perm (List.range 1) := by
  intro h
  have := (h failingCallbacks [0] rfl).length_eq
  revert this
  decide

end Xcelerator.Numerics.CudaScheduler
