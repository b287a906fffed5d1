import Mathlib
import Xcelerator.Spectral.MatrixDecode

/-! # The checked stream

A pass has let through one byte string, however it was cut into chunks; its token
high-water mark is a fold over those bytes, and covers every token read. -/

namespace Xcelerator.Spectral.MatrixDecode
open Xcelerator.Cache (ContentDigest)
open Xcelerator.Cache.Digest (Sha256 contentDigest)

/-! ## The high-water mark -/

/-- The mark after one more byte. -/
def water (maximum : Nat) (state : Scan × Nat) (byte : UInt8) : Scan × Nat :=
  (state.1.step byte, if (state.1.step byte).token ≤ state.2 then state.2 else
    capacity maximum (state.1.step byte).token)

def Scan.start : Scan := ⟨false, false, 0⟩

theorem step_token (s : Scan) (byte : UInt8) : (s.step byte).token ≤ s.token + 1 := by
  unfold Scan.step
  split_ifs <;> simp

theorem le_capacity {maximum token : Nat} (h : token ≤ maximum) :
    token ≤ capacity maximum token := by
  unfold capacity
  refine le_min ?_ h
  split
  · exact Nat.le_pow_clog (by norm_num) token
  · exact h

theorem water_fst (maximum : Nat) (bytes : Bytes) (state : Scan × Nat) :
    (bytes.foldl (water maximum) state).1 = bytes.foldl Scan.step state.1 := by
  induction bytes generalizing state with
  | nil => rfl
  | cons byte bytes ih => exact ih _

theorem water_mono (maximum : Nat) (state : Scan × Nat) (byte : UInt8)
    (h : state.1.token + 1 ≤ maximum) :
    state.2 ≤ (water maximum state byte).2 ∧ (water maximum state byte).1.token ≤
      (water maximum state byte).2 := by
  have htoken := (step_token state.1 byte).trans h
  have hcapacity := le_capacity htoken
  simp only [water]
  split
  · rename_i hle
    exact ⟨le_rfl, hle⟩
  · rename_i hgt
    exact ⟨by omega, hcapacity⟩

theorem water_foldl_mono (maximum : Nat) (bytes : Bytes) (state : Scan × Nat)
    (h : state.1.token + bytes.length ≤ maximum) :
    state.2 ≤ (bytes.foldl (water maximum) state).2 := by
  induction bytes generalizing state with
  | nil => exact le_rfl
  | cons byte bytes ih =>
    rw [List.length_cons] at h
    have hstep := step_token state.1 byte
    have hrest : (water maximum state byte).1.token + bytes.length ≤ maximum := by
      simp only [water]
      omega
    exact (water_mono maximum state byte (by omega)).1.trans (ih _ hrest)

theorem step_foldl_token (bytes : Bytes) (s : Scan) :
    (bytes.foldl Scan.step s).token ≤ s.token + bytes.length := by
  induction bytes generalizing s with
  | nil => exact le_rfl
  | cons byte bytes ih =>
    have hstep := step_token s byte
    have hrest := ih (s.step byte)
    rw [List.foldl_cons, List.length_cons]
    omega

/-- Every token length that the scan has reached is covered. -/
theorem water_reached {maximum : Nat} (first : Bytes) (rest : Bytes) (state : Scan × Nat)
    (hfirst : first ≠ []) (h : state.1.token + (first ++ rest).length ≤ maximum) :
    (first.foldl Scan.step state.1).token ≤ ((first ++ rest).foldl (water maximum) state).2 := by
  obtain ⟨front, last, rfl⟩ := List.eq_nil_or_concat first |>.resolve_left hfirst
  simp only [List.concat_eq_append, List.length_append, List.length_cons, List.length_nil] at h
  have hfront := step_foldl_token front state.1
  have hscan := water_fst maximum front state
  set before := front.foldl (water maximum) state with hbefore
  have hreached := (water_mono maximum before last (by rw [hscan]; omega)).2
  have hlast := step_token before.1 last
  have hlater : (water maximum before last).2 ≤
      (rest.foldl (water maximum) (water maximum before last)).2 := by
    refine water_foldl_mono maximum rest _ ?_
    simp only [water]
    rw [hscan] at hlast ⊢
    omega
  simp only [List.concat_eq_append, List.foldl_append, List.foldl_cons, List.foldl_nil, ← hbefore]
  refine le_trans ?_ hlater
  rw [← hscan]
  exact hreached

/-! ## Tokens -/

/-- What stands between the quotes of a string. -/
inductive StringBody : Bytes → Prop
  | nil : StringBody []
  | plain {byte : UInt8} {rest : Bytes} : byte ≠ 34 → byte ≠ 92 → StringBody rest →
      StringBody (byte :: rest)
  | escape {byte : UInt8} {rest : Bytes} : StringBody rest → StringBody (92 :: byte :: rest)

/-- The tokens of the bytes read so far: the strings, with their opening quotes, and the scalars. -/
inductive Tokens : Bytes → List Bytes → Prop
  | nil : Tokens [] []
  | separator {byte : UInt8} {b : Bytes} {tokens : List Bytes} : isSeparator byte = true →
      Tokens b tokens →
      Tokens (byte :: b) tokens
  | string {body b : Bytes} {tokens : List Bytes} : StringBody body → Tokens b tokens →
      Tokens ((34 :: body) ++ (34 :: b)) ((34 :: body) :: tokens)
  | openString {body : Bytes} : StringBody body → Tokens (34 :: body) [34 :: body]
  | openEscape {body : Bytes} : StringBody body → Tokens (34 :: body ++ [92]) [34 :: body ++ [92]]
  | scalar {run b : Bytes} {tokens : List Bytes} : run ≠ [] →
      (∀ byte ∈ run, byte ≠ 34 ∧ isSeparator byte = false) →
      Tokens b tokens → Tokens (run ++ b) (run :: tokens)

theorem foldl_body {body : Bytes} (h : StringBody body) (token : Nat) :
    body.foldl Scan.step ⟨true, false, token⟩ = ⟨true, false, token + body.length⟩ := by
  induction h generalizing token with
  | nil => rfl
  | plain hquote hescape _ ih =>
    rw [List.foldl_cons]
    simp only [Scan.step, if_true, Bool.false_eq_true, if_false, if_neg hescape, if_neg hquote, ih,
      List.length_cons]
    congr 1
    omega
  | escape _ ih =>
    rw [List.foldl_cons, List.foldl_cons]
    simp only [Scan.step, if_true, Bool.false_eq_true, if_false, ih, List.length_cons]
    congr 1
    omega

theorem foldl_string {body : Bytes} (h : StringBody body) (token : Nat) :
    (34 :: body).foldl Scan.step ⟨false, false, token⟩ = ⟨true, false, (34 :: body).length⟩ := by
  have hopen : Scan.step ⟨false, false, token⟩ 34 = ⟨true, false, 1⟩ := rfl
  rw [List.foldl_cons, hopen, foldl_body h, List.length_cons, Nat.add_comm]

theorem foldl_run {run : Bytes} (h : ∀ byte ∈ run, byte ≠ 34 ∧ isSeparator byte = false)
    (token : Nat) :
    run.foldl Scan.step ⟨false, false, token⟩ = ⟨false, false, token + run.length⟩ := by
  induction run generalizing token with
  | nil => rfl
  | cons byte run ih =>
    obtain ⟨hquote, hseparator⟩ := h byte List.mem_cons_self
    rw [List.foldl_cons]
    simp only [Scan.step, Bool.false_eq_true, if_false, if_neg hquote, hseparator,
      ih fun byte hbyte => h byte (List.mem_cons_of_mem _ hbyte), List.length_cons]
    congr 1
    omega

/-- The mark covers every token, wherever the reading stands outside a string. -/
theorem tokens_covered {maximum : Nat} {b : Bytes} {tokens : List Bytes} (h : Tokens b tokens)
    (start mark : Nat) (hlength : start + b.length ≤ maximum) :
    ∀ token ∈ tokens, token.length ≤ (b.foldl (water maximum) (⟨false, false, start⟩, mark)).2 := by
  -- from the state after a lexeme the rest is read as from the beginning
  have hafter : ∀ (lexeme rest : Bytes) (first mark next : Nat), first + (lexeme ++ rest).length ≤
    maximum →
      lexeme.foldl Scan.step ⟨false, false, first⟩ = ⟨false, false, next⟩ →
      ∃ later, next + rest.length ≤ maximum ∧
      (lexeme ++ rest).foldl (water maximum) (⟨false, false, first⟩, mark) =
        rest.foldl (water maximum) (⟨false, false, next⟩, later) := by
    intro lexeme rest first mark next hle hscan
    have hbound := step_foldl_token lexeme ⟨false, false, first⟩
    rw [hscan] at hbound
    rw [List.length_append] at hle
    refine ⟨(lexeme.foldl (water maximum) (⟨false, false, first⟩, mark)).2, by
      simp only at hbound; omega, ?_⟩
    rw [List.foldl_append, ← hscan, ← water_fst maximum lexeme (⟨false, false, first⟩, mark)]
  induction h generalizing start mark with
  | nil => simp
  | @separator byte b tokens hseparator _ ih =>
    have hquote : byte ≠ 34 := by
      rintro rfl
      exact absurd hseparator (by decide)
    have hscan : [byte].foldl Scan.step ⟨false, false, start⟩ = ⟨false, false, 0⟩ := by
      simp [Scan.step, hquote, hseparator]
    obtain ⟨later, hle, heq⟩ := hafter [byte] b start mark 0 hlength hscan
    intro token htoken
    have hrest := ih 0 later hle token htoken
    rw [← heq] at hrest
    exact hrest
  | @string body b tokens hbody _ ih =>
    have hstring := foldl_string hbody start
    have hclose : ((34 :: body) ++ [34]).foldl Scan.step ⟨false, false, start⟩ =
        ⟨false, false, 0⟩ := by
      rw [List.foldl_append, hstring]
      rfl
    have hsplit : (34 :: body) ++ (34 :: b) = ((34 :: body) ++ [34]) ++ b := by simp
    intro token htoken
    obtain rfl | htoken := List.mem_cons.mp htoken
    · have hreached := water_reached (34 :: body) (34 :: b) (⟨false, false, start⟩, mark)
        (by simp) hlength
      rw [hstring] at hreached
      exact hreached
    · rw [hsplit] at hlength ⊢
      obtain ⟨later, hle, heq⟩ := hafter _ b start mark 0 hlength hclose
      rw [heq]
      exact ih 0 later hle token htoken
  | @openString body hbody =>
    intro token htoken
    obtain rfl := List.mem_singleton.mp htoken
    have hreached := water_reached (34 :: body) [] (⟨false, false, start⟩, mark) (by simp)
      (by simpa using hlength)
    rw [foldl_string hbody, List.append_nil] at hreached
    exact hreached
  | @openEscape body hbody =>
    intro token htoken
    obtain rfl := List.mem_singleton.mp htoken
    have hreached := water_reached (34 :: body ++ [92]) [] (⟨false, false, start⟩, mark) (by simp)
      (by simpa using hlength)
    rw [List.foldl_append, foldl_string hbody, List.append_nil] at hreached
    have hstep : ([92].foldl Scan.step ⟨true, false, (34 :: body).length⟩).token =
        (34 :: body ++ [92]).length := by
      rw [List.length_append]
      rfl
    rw [hstep] at hreached
    exact hreached
  | @scalar run b tokens hrun hbytes _ ih =>
    have hscan := foldl_run hbytes start
    intro token htoken
    obtain rfl | htoken := List.mem_cons.mp htoken
    · have hreached := water_reached token b (⟨false, false, start⟩, mark) hrun hlength
      rw [hscan] at hreached
      exact (Nat.le_add_left _ _).trans hreached
    · obtain ⟨later, hle, heq⟩ := hafter run b start mark _ hlength hscan
      rw [heq]
      exact ih _ later hle token htoken

/-! ## One pass -/

/-- The bytes that the stream lets through from a state on, up to its end. -/
inductive Delivers {σ : Type} (reader : Reader σ) (expected : Nat) : Nat → σ → Bytes → σ → Prop
  | done {read : Nat} {s s' : σ} : reader.read s (limit expected read) = (.data [], s') →
      Delivers reader expected read s [] s'
  | interrupted {read : Nat} {s s' s'' : σ} {b : Bytes} : reader.read s (limit expected read) =
      (.interrupted, s') →
      Delivers reader expected read s' b s'' → Delivers reader expected read s b s''
  | chunk {read : Nat} {s s' s'' : σ} {byte : UInt8} {bytes b : Bytes} :
      reader.read s (limit expected read) = (.data (byte :: bytes), s') →
      Delivers reader expected (read + (byte :: bytes).length) s' b s'' →
      Delivers reader expected read s (byte :: bytes ++ b) s''

/-- A stream lets through one byte string. -/
theorem Delivers.unique {σ : Type} {reader : Reader σ} {expected read : Nat} {s t t' : σ}
    {b c : Bytes}
    (h : Delivers reader expected read s b t) (h' : Delivers reader expected read s c t') :
    b = c ∧ t = t' := by
  induction h generalizing c t' with
  | done hstep =>
    cases h' with
    | done hstep' =>
      rw [hstep] at hstep'
      cases hstep'
      exact ⟨rfl, rfl⟩
    | interrupted hstep' _ =>
      rw [hstep] at hstep'
      cases hstep'
    | chunk hstep' _ =>
      rw [hstep] at hstep'
      cases hstep'
  | interrupted hstep _ ih =>
    cases h' with
    | done hstep' =>
      rw [hstep] at hstep'
      cases hstep'
    | interrupted hstep' hrest =>
      rw [hstep] at hstep'
      cases hstep'
      exact ih hrest
    | chunk hstep' _ =>
      rw [hstep] at hstep'
      cases hstep'
  | chunk hstep _ ih =>
    cases h' with
    | done hstep' =>
      rw [hstep] at hstep'
      cases hstep'
    | interrupted hstep' _ =>
      rw [hstep] at hstep'
      cases hstep'
    | chunk hstep' hrest =>
      rw [hstep] at hstep'
      cases hstep'
      obtain ⟨rfl, rfl⟩ := ih hrest
      exact ⟨rfl, rfl⟩

section
variable {σ ρ : Type} {reader : Reader σ} {resources : Resources ρ}

theorem admitToken_some {budget budget' : ParserBudget ρ} {token : Nat}
    (h : budget.admitToken resources token = some budget') :
    budget'.maximumToken = budget.maximumToken ∧
      budget'.admittedToken = if token ≤ budget.admittedToken then budget.admittedToken
        else capacity budget.maximumToken token := by
  unfold ParserBudget.admitToken at h
  split at h
  · rename_i hle
    cases h
    exact ⟨rfl, (if_pos hle).symm⟩
  · rename_i hgt
    obtain ⟨u, hguard, h⟩ := bind_some h
    obtain ⟨state, hstate, h⟩ := bind_some h
    cases h
    exact ⟨rfl, (if_neg hgt).symm⟩

theorem checkByte_water {state state' : Scan × ParserBudget ρ} {byte : UInt8}
    (h : checkByte resources state byte = some state') :
    state'.2.maximumToken = state.2.maximumToken ∧
      (state'.1, state'.2.admittedToken) = water state.2.maximumToken
        (state.1, state.2.admittedToken) byte := by
  obtain ⟨u, hguard, h⟩ := bind_some h
  obtain ⟨budget, hbudget, h⟩ := bind_some h
  cases h
  obtain ⟨hmaximum, hadmitted⟩ := admitToken_some hbudget
  exact ⟨hmaximum, Prod.ext rfl hadmitted⟩

/-- The mark is a fold over the bytes, whatever the reservations answer. -/
theorem checkByte_foldlM_water {bytes : Bytes} {state state' : Scan × ParserBudget ρ}
    (h : bytes.foldlM (checkByte resources) state = some state') :
    state'.2.maximumToken = state.2.maximumToken ∧
      (state'.1, state'.2.admittedToken) =
        bytes.foldl (water state.2.maximumToken) (state.1, state.2.admittedToken) := by
  induction bytes generalizing state with
  | nil =>
    cases h
    exact ⟨rfl, rfl⟩
  | cons byte bytes ih =>
    rw [List.foldlM_cons] at h
    obtain ⟨next, hnext, h⟩ := bind_some h
    obtain ⟨hmaximum, hwater⟩ := checkByte_water hnext
    obtain ⟨hmaximum', hwater'⟩ := ih h
    rw [hmaximum, hwater] at hwater'
    exact ⟨hmaximum'.trans hmaximum, hwater'⟩

/-- Once covered, the same bytes reserve nothing more. -/
theorem checkByte_again {bytes : Bytes} {state state' : Scan × ParserBudget ρ}
    {budget : ParserBudget ρ} (h : bytes.foldlM (checkByte resources) state = some state')
    (hlength : state.1.token + bytes.length ≤ state.2.maximumToken)
    (hcovered : state'.2.admittedToken ≤ budget.admittedToken) :
    bytes.foldlM (checkByte resources) (state.1, budget) = some (state'.1, budget) := by
  induction bytes generalizing state with
  | nil =>
    cases h
    rfl
  | cons byte bytes ih =>
    rw [List.foldlM_cons] at h ⊢
    obtain ⟨next, hnext, h⟩ := bind_some h
    rw [List.length_cons] at hlength
    have hstep := step_token state.1 byte
    obtain ⟨hmaximum, hwater⟩ := checkByte_water hnext
    have hscan : next.1 = state.1.step byte := congrArg Prod.fst hwater
    obtain ⟨-, hlater⟩ := checkByte_foldlM_water h
    have hnext_length : next.1.token + bytes.length ≤ next.2.maximumToken := by
      rw [hscan, hmaximum]
      omega
    -- the token is below the mark now, and the mark only rises
    have htoken : (state.1.step byte).token ≤ next.2.admittedToken := by
      have hmono := (water_mono state.2.maximumToken (state.1, state.2.admittedToken) byte
        (by simp only; omega)).2
      rw [← hwater, hscan] at hmono
      exact hmono
    have hrises : next.2.admittedToken ≤ state'.2.admittedToken := by
      have hmono := water_foldl_mono next.2.maximumToken bytes
        (next.1, next.2.admittedToken) hnext_length
      rw [← hlater] at hmono
      exact hmono
    have hadmit : budget.admitToken resources (state.1.step byte).token = some budget :=
      if_pos (htoken.trans (hrises.trans hcovered))
    obtain ⟨u, hguard, -⟩ := bind_some hnext
    have hagain : checkByte resources (state.1, budget) byte = some (next.1, budget) := by
      rw [checkByte, hguard, hadmit, hscan]
      rfl
    rw [hagain]
    exact ih h hnext_length

theorem accept_iff {expected : Nat} {checked checked' : CheckedRead ρ} {bytes : Bytes} :
    checked.accept resources expected bytes = some checked' ↔
      checked.read + bytes.length < 2 ^ 64 ∧ checked.read + bytes.length ≤ expected ∧
        bytes.foldlM (checkByte resources)
        (checked.scan, checked.budget) = some (checked'.scan, checked'.budget) ∧
        checked'.read = checked.read + bytes.length ∧ checked'.hashed = checked.hashed ++
          bytes := by
  constructor
  · intro h
    obtain ⟨u, hword, h⟩ := bind_some h
    obtain ⟨v, hlength, h⟩ := bind_some h
    obtain ⟨state, hstate, h⟩ := bind_some h
    cases h
    exact ⟨guardThat_iff.mp hword, guardThat_iff.mp hlength, hstate, rfl, rfl⟩
  · rintro ⟨hword, hlength, hstate, hread, hhashed⟩
    rw [CheckedRead.accept, guardThat_pos hword, guardThat_pos hlength, hstate, ← hread, ← hhashed]
    rfl

/-- A finished pass has read one byte string, hashed it and scanned it. -/
theorem pass_delivers {expected : Nat} {fuel : Nat} {s : σ} {checked : CheckedRead ρ}
    {result : σ × CheckedRead ρ} (h : pass reader resources expected fuel s checked = some result) :
    ∃ b, Delivers reader expected checked.read s b result.1 ∧
    result.2.hashed = checked.hashed ++ b ∧
      result.2.read = checked.read + b.length ∧
      b.foldlM (checkByte resources)
      (checked.scan, checked.budget) = some (result.2.scan, result.2.budget) := by
  induction fuel generalizing s checked with
  | zero => cases h
  | succ fuel ih =>
    rw [pass] at h
    split at h
    · cases h
    · rename_i s' hread
      obtain ⟨b, hdelivers, hrest⟩ := ih h
      exact ⟨b, .interrupted hread hdelivers, hrest⟩
    · rename_i s' hread
      cases h
      exact ⟨[], .done hread, (List.append_nil _).symm, rfl, rfl⟩
    · rename_i byte bytes s' hread
      obtain ⟨next, hnext, h⟩ := bind_some h
      obtain ⟨-, -, hfold, hcount, hhashed⟩ := accept_iff.mp hnext
      obtain ⟨b, hdelivers, hhash, hlength, hscan⟩ := ih h
      rw [hcount] at hdelivers hlength
      rw [hhashed] at hhash
      refine ⟨byte :: bytes ++ b, .chunk hread hdelivers, ?_, ?_, ?_⟩
      · rw [hhash, List.append_assoc]
      · rw [hlength, List.length_append, Nat.add_assoc]
      · rw [List.foldlM_append, hfold]
        exact hscan

theorem pass_mono {expected : Nat} {fuel more : Nat} {s : σ} {checked : CheckedRead ρ}
    {result : σ × CheckedRead ρ}
    (h : pass reader resources expected fuel s checked = some result) (hmore : fuel ≤ more) :
    pass reader resources expected more s checked = some result := by
  induction fuel generalizing s checked more with
  | zero => cases h
  | succ fuel ih =>
    obtain ⟨more, rfl⟩ : ∃ k, more = k + 1 := ⟨more - 1, by omega⟩
    rw [pass] at h ⊢
    split at h
    · cases h
    · exact ih h (by omega)
    · exact h
    · obtain ⟨next, hnext, h⟩ := bind_some h
      rw [hnext]
      exact ih h (by omega)

/-- A stream that delivers the bytes is read to its end. -/
theorem pass_of_delivers {expected read : Nat} {s s' : σ} {b : Bytes}
    (h : Delivers reader expected read s b s')
    {checked : CheckedRead ρ} {scan : Scan} {budget : ParserBudget ρ} (hread : checked.read = read)
    (hlength : read + b.length ≤ expected) (hword : expected < 2 ^ 64)
    (hfold : b.foldlM (checkByte resources) (checked.scan, checked.budget) = some (scan, budget)) :
    ∃ fuel, pass reader resources expected fuel s checked =
      some (s', ⟨read + b.length, checked.hashed ++ b, scan, budget⟩) := by
  induction h generalizing checked with
  | done hstep =>
    subst hread
    obtain ⟨rfl, rfl⟩ := Prod.mk.inj (Option.some.inj hfold)
    refine ⟨1, ?_⟩
    rw [pass, hstep, List.append_nil]
    rfl
  | interrupted hstep _ ih =>
    obtain ⟨fuel, hfuel⟩ := ih hread hlength hfold
    subst hread
    refine ⟨fuel + 1, ?_⟩
    rw [pass, hstep]
    exact hfuel
  | @chunk read s s' s'' byte bytes b hstep _ ih =>
    subst hread
    rw [List.foldlM_append] at hfold
    obtain ⟨state, hstate, hfold⟩ := bind_some hfold
    rw [List.length_append, ← Nat.add_assoc] at hlength
    have haccept : checked.accept resources expected (byte :: bytes) =
        some ⟨checked.read + (byte :: bytes).length, checked.hashed ++ (byte :: bytes), state.1,
            state.2⟩ :=
      accept_iff.mpr ⟨by omega, by omega, hstate, rfl, rfl⟩
    obtain ⟨fuel, hfuel⟩ := @ih ⟨checked.read + (byte :: bytes).length,
      checked.hashed ++ (byte :: bytes), state.1, state.2⟩ rfl hlength hfold
    refine ⟨fuel + 1, ?_⟩
    rw [pass, hstep]
    simp only [Option.bind_eq_bind, haccept, Option.bind_some, hfuel, List.append_assoc,
      List.length_append, Nat.add_assoc]

end

end Xcelerator.Spectral.MatrixDecode
