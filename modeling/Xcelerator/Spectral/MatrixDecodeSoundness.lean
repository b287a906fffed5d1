import Mathlib
import Xcelerator.Spectral.MatrixDocument
import Xcelerator.Spectral.MatrixStream

/-! # The authenticated decoding

Each verified pass has delivered a byte string of the declared length and digest. Where
the digest separates the two, they are one, and the decoding is the reference's. -/

namespace Xcelerator.Spectral.MatrixDecode
open Xcelerator.Cache (ContentDigest)
open Xcelerator.Cache.Digest (Sha256 contentDigest NoCollision contentDigest_injective)

section
variable {σ ρ : Type} (reader : Reader σ) (resources : Resources ρ)

/-- From `s` the stream is rewound and delivers `b`, of the declared length and digest. -/
structure Authentic (sha256 : Sha256) (length : Nat) (digest : ContentDigest) (s : σ) (b : Bytes)
    (s' : σ) : Prop where
  delivers : ∃ start, reader.seekStart s = some start ∧ Delivers reader length 0 start b s'
  length_eq : b.length = length
  digest_eq : contentDigest sha256 b = digest

/-- Every reservation that the decoding of `b` asks for is granted, and the sizes are machine
words. -/
def Suffices {F : Type} (state : ρ) (b : Bytes) (m : DecodedMatrix F) : Prop :=
  ∃ state₁ scan budget state₂ bytes state₃,
    resources.reserveWorking state (4 * readBuffer) = some state₁ ∧
    b.foldlM (checkByte resources) (Scan.start, ⟨state₁, b.length, 0⟩) = some (scan, budget) ∧
    resources.reserveWorking budget.state ((m.precision + 7) / 8 * 32 + 65536) = some state₂ ∧
    retainedMatrixBytes m.precision m.entries.length = some bytes ∧
    bytes + m.cutoff.utf8ByteSize < 2 ^ 64 ∧
    resources.reserveRetained state₂ (bytes + m.cutoff.utf8ByteSize) = some state₃

variable {reader resources} {sha256 : Sha256} {length : Nat} {digest : ContentDigest}

theorem verifiedPass_authentic {fuel : Nat} {s : σ} {budget : ParserBudget ρ}
    {result : σ × CheckedRead ρ}
    (h : verifiedPass reader resources sha256 fuel s length digest budget = some result) :
    Authentic reader sha256 length digest s result.2.hashed result.1 := by
  obtain ⟨start, hstart, h⟩ := bind_some h
  obtain ⟨passed, hpassed, h⟩ := bind_some h
  obtain ⟨u, hguard, h⟩ := bind_some h
  cases h
  obtain ⟨hread, hdigest⟩ := guardThat_iff.mp hguard
  obtain ⟨b, hdelivers, hhashed, hcount, -⟩ := pass_delivers hpassed
  obtain rfl : result.2.hashed = b := hhashed
  exact ⟨⟨start, hstart, hdelivers⟩, by rw [← hread, hcount]; exact (Nat.zero_add _).symm, hdigest⟩

theorem verifiedPass_of_authentic {s s' : σ} {b : Bytes}
    (h : Authentic reader sha256 length digest s b s')
    (hword : length < 2 ^ 64) {budget budget' : ParserBudget ρ} {scan : Scan}
    (hfold : b.foldlM (checkByte resources) (Scan.start, budget) = some (scan, budget')) :
    ∃ fuel, ∀ more, fuel ≤ more →
      verifiedPass reader resources sha256 more s length digest budget =
        some (s', ⟨length, b, scan, budget'⟩) := by
  obtain ⟨⟨start, hstart, hdelivers⟩, hlength, hdigest⟩ := h
  obtain ⟨fuel, hfuel⟩ := @pass_of_delivers _ _ _ resources _ _ _ _ _ hdelivers
    (CheckedRead.new budget) _ _ rfl (by omega) hword hfold
  refine ⟨fuel, fun more hmore => ?_⟩
  have hpass := pass_mono hfuel hmore
  have hguard : guardThat (0 + b.length = length ∧ contentDigest sha256 b = digest) = some () :=
    guardThat_pos ⟨by omega, hdigest⟩
  rw [verifiedPass, hstart]
  simp only [Option.bind_eq_bind, Option.bind_some, hpass]
  change (guardThat (0 + b.length = length ∧ contentDigest sha256 b = digest)).bind _ = _
  rw [hguard, Option.bind_some]
  subst hlength
  simp [CheckedRead.new]

variable {F : Type} {lib : Library F}

/-- A decoding that succeeds has read two authentic streams, the reference of the first if they are
one. -/
theorem decodeReader_sound {fuel : Nat} {s : σ} {state : ρ} {m : DecodedMatrix F}
    (h : decodeReader reader resources lib fuel s length digest state = some m) :
    ∃ b₁ s₁ b₂ s₂, Authentic reader lib.sha256 length digest s b₁ s₁ ∧
      Authentic reader lib.sha256 length digest s₁ b₂ s₂ ∧
      (b₁ = b₂ → reference lib b₁ = some m) := by
  obtain ⟨state₁, hscratch, h⟩ := bind_some h
  obtain ⟨first, hfirst, h⟩ := bind_some h
  obtain ⟨tree, htree, h⟩ := bind_some h
  obtain ⟨metadata, hmetadata, h⟩ := bind_some h
  obtain ⟨dimension, hshape, h⟩ := bind_some h
  obtain ⟨u, hcutoff, h⟩ := bind_some h
  obtain ⟨v, hschema, h⟩ := bind_some h
  obtain ⟨state₂, hconversion, h⟩ := bind_some h
  obtain ⟨bytes, hbytes, h⟩ := bind_some h
  obtain ⟨w, hsize, h⟩ := bind_some h
  obtain ⟨state₃, hretained, h⟩ := bind_some h
  obtain ⟨second, hsecond, h⟩ := bind_some h
  obtain ⟨tree', htree', h⟩ := bind_some h
  obtain ⟨entries, hentries, h⟩ := bind_some h
  cases h
  refine ⟨_, _, _, _, verifiedPass_authentic hfirst, verifiedPass_authentic hsecond, fun hsame =>
    ?_⟩
  rw [← hsame, htree] at htree'
  obtain rfl := Option.some.inj htree'
  exact reference_of_passes htree hmetadata hshape hcutoff (guardThat_iff.mp hschema) hentries

theorem authentic_unique {s₁ s₂ s₁' s₂' : σ} {b₁ b₂ : Bytes}
    (h₁ : Authentic reader sha256 length digest s₁ b₁ s₁')
    (h₂ : Authentic reader sha256 length digest s₂ b₂ s₂')
    (hcollision : NoCollision sha256 [b₁, b₂]) : b₁ = b₂ :=
  hcollision b₁ (by simp) b₂ (by simp)
    (contentDigest_injective (h₁.digest_eq.trans h₂.digest_eq.symm))

theorem decodeReader_complete {s s₁ s₂ : σ} {b : Bytes} {state : ρ} {m : DecodedMatrix F}
    (hword : length < 2 ^ 64)
    (h₁ : Authentic reader lib.sha256 length digest s b s₁)
    (h₂ : Authentic reader lib.sha256 length digest s₁ b s₂)
    (hsuffices : Suffices resources state b m) (h : reference lib b = some m) :
    ∃ fuel, ∀ more, fuel ≤ more → decodeReader reader resources lib more s length digest state =
      some m := by
  obtain ⟨state₁, scan, budget, state₂, bytes, state₃, hscratch, hfold, hconversion, hbytes, hsize,
      hretained⟩ :=
    hsuffices
  obtain ⟨tree, metadata, htree, hmetadata, hshape, hcutoff, hschema, hentries, hcount, hlambda,
      hmodes, hprecision⟩ :=
    passes_of_reference h
  -- the second pass asks for nothing that the first has not reserved
  have hagain : b.foldlM (checkByte resources) (Scan.start, { budget with state := state₃ }) =
      some (scan, { budget with state := state₃ }) := checkByte_again hfold
        (by simp [Scan.start]) le_rfl
  rw [h₁.length_eq] at hfold
  obtain ⟨fuel₁, hfuel₁⟩ := verifiedPass_of_authentic h₁ hword hfold
  obtain ⟨fuel₂, hfuel₂⟩ := verifiedPass_of_authentic h₂ hword hagain
  refine ⟨max fuel₁ fuel₂, fun more hmore => ?_⟩
  have hfirst := hfuel₁ more ((Nat.le_max_left _ _).trans hmore)
  have hsecond := hfuel₂ more ((Nat.le_max_right _ _).trans hmore)
  have hguard : guardThat (metadata.schemaVersion = 2) = some () := guardThat_pos hschema
  have hfits : guardThat (bytes + metadata.lambdaSquared.utf8ByteSize < 2 ^ 64) = some () :=
    guardThat_pos (by rw [hlambda]; exact hsize)
  rw [← hprecision] at hconversion
  rw [← hprecision, ← hcount] at hbytes
  rw [← hlambda] at hretained
  simp only [decodeReader, Option.bind_eq_bind, hscratch, Option.bind_some, hfirst, htree,
    hmetadata, hshape, hcutoff,
    hguard, hconversion, hbytes, hfits, hretained, hsecond, hentries, Option.pure_def]
  rw [hlambda, hmodes, hprecision]

/-- Any chunks that are accepted leave the scan and the mark of their bytes. -/
theorem accept_foldlM {expected : Nat} {chunks : List Bytes} {checked checked' : CheckedRead ρ}
    (h : chunks.foldlM (fun checked bytes => checked.accept resources expected bytes) checked =
      some checked') :
    checked'.hashed = checked.hashed ++ chunks.flatten ∧
    checked'.read = checked.read + chunks.flatten.length ∧
      (checked.read ≤ expected → checked'.read ≤ expected) ∧
      chunks.flatten.foldlM (checkByte resources) (checked.scan, checked.budget) =
        some (checked'.scan, checked'.budget) := by
  induction chunks generalizing checked with
  | nil =>
    cases h
    exact ⟨(List.append_nil _).symm, rfl, id, rfl⟩
  | cons bytes chunks ih =>
    rw [List.foldlM_cons] at h
    obtain ⟨next, hnext, h⟩ := bind_some h
    obtain ⟨-, hlength, hfold, hread, hhashed⟩ := accept_iff.mp hnext
    obtain ⟨hhashed', hread', hbound, hfold'⟩ := ih h
    rw [List.flatten_cons]
    refine ⟨?_, ?_, fun _ => hbound (hread ▸ hlength), ?_⟩
    · rw [hhashed', hhashed, List.append_assoc]
    · rw [hread', hread, List.length_append, Nat.add_assoc]
    · rw [List.foldlM_append, hfold]
      exact hfold'

/-- The high-water mark is a function of the bytes, and covers every token of theirs. -/
theorem highWater_of_chunks {expected : Nat} {chunks : List Bytes} {budget : ParserBudget ρ}
    {checked : CheckedRead ρ} (hmaximum : budget.maximumToken = expected)
    (h : chunks.foldlM (fun checked bytes => checked.accept resources expected bytes)
    (CheckedRead.new budget) =
      some checked) :
    checked.hashed = chunks.flatten ∧
      checked.budget.admittedToken =
        (chunks.flatten.foldl (water expected) (Scan.start, budget.admittedToken)).2 ∧
      ∀ tokens, Tokens chunks.flatten tokens → ∀ token ∈ tokens, token.length ≤
        checked.budget.admittedToken := by
  obtain ⟨hhashed, hread, hbound, hfold⟩ := accept_foldlM h
  obtain ⟨-, hwater⟩ := checkByte_foldlM_water hfold
  have hmark := congrArg Prod.snd hwater
  simp only [CheckedRead.new, hmaximum] at hmark
  have hlength : 0 + chunks.flatten.length ≤ expected := by
    have hle := hbound (Nat.zero_le _)
    rw [hread] at hle
    exact hle
  refine ⟨hhashed, hmark, fun tokens htokens token htoken => ?_⟩
  rw [hmark]
  exact tokens_covered htokens 0 _ hlength token htoken

/-! ## Where resources suffice -/

theorem checkByte_granted
    (hgranted : ∀ state n, ∃ state', resources.reserveWorking state n = some state')
    (state : Scan × ParserBudget ρ) (byte : UInt8)
    (htoken : state.1.token + 1 ≤ state.2.maximumToken)
    (hadmitted : state.2.admittedToken ≤ state.2.maximumToken)
    (hmaximum : state.2.maximumToken * 32 < 2 ^ 64) :
    ∃ state', checkByte resources state byte = some state' ∧ state'.2.admittedToken ≤
      state'.2.maximumToken := by
  have hstep := (step_token state.1 byte).trans htoken
  have hword : guardThat (state.1.adds byte = true → state.1.token + 1 < 2 ^ 64) = some () :=
    guardThat_pos fun _ => by omega
  by_cases hle : (state.1.step byte).token ≤ state.2.admittedToken
  · refine ⟨(state.1.step byte, state.2), ?_, hadmitted⟩
    rw [checkByte, hword, ParserBudget.admitToken, if_pos hle]
    rfl
  · have hcapacity := le_capacity hstep
    have hmost : capacity state.2.maximumToken (state.1.step byte).token ≤ state.2.maximumToken :=
      min_le_right _ _
    have hguard : guardThat (state.2.admittedToken ≤ capacity state.2.maximumToken
      (state.1.step byte).token ∧
        (capacity state.2.maximumToken (state.1.step byte).token - state.2.admittedToken) * 32 <
            2 ^ 64) = some () :=
      guardThat_pos ⟨by omega, by omega⟩
    obtain ⟨reserved, hreserved⟩ := hgranted state.2.state
      ((capacity state.2.maximumToken (state.1.step byte).token - state.2.admittedToken) * 32)
    refine ⟨(state.1.step byte, { state.2 with
      state := reserved, admittedToken := capacity state.2.maximumToken
        (state.1.step byte).token }), ?_, hmost⟩
    rw [checkByte, hword, ParserBudget.admitToken, if_neg hle]
    simp only [Option.bind_eq_bind, Option.bind_some, hguard, hreserved, Option.pure_def]

theorem checkByte_foldlM_granted
    (hgranted : ∀ state n, ∃ state', resources.reserveWorking state n = some state')
    (bytes : Bytes) (state : Scan × ParserBudget ρ)
    (hlength : state.1.token + bytes.length ≤ state.2.maximumToken)
    (hadmitted : state.2.admittedToken ≤ state.2.maximumToken)
    (hmaximum : state.2.maximumToken * 32 < 2 ^ 64) :
    ∃ scan budget, bytes.foldlM (checkByte resources) state = some (scan, budget) := by
  induction bytes generalizing state with
  | nil => exact ⟨state.1, state.2, rfl⟩
  | cons byte bytes ih =>
    rw [List.length_cons] at hlength
    obtain ⟨next, hnext, hbelow⟩ :=
      checkByte_granted hgranted state byte (by omega) hadmitted hmaximum
    obtain ⟨hsame, hwater⟩ := checkByte_water hnext
    have hscan : next.1 = state.1.step byte := congrArg Prod.fst hwater
    have hstep := step_token state.1 byte
    rw [List.foldlM_cons, hnext]
    exact ih next (by rw [hscan, hsame]; omega) hbelow (by rw [hsame]; exact hmaximum)

/-- Resources that grant every reservation suffice. -/
theorem suffices_of_granted
    (hworking : ∀ state n, ∃ state', resources.reserveWorking state n = some state')
    (hretained : ∀ state n, ∃ state', resources.reserveRetained state n = some state') (state : ρ)
    {b : Bytes} (hlength : b.length * 32 < 2 ^ 64) {m : DecodedMatrix F} {bytes : Nat}
    (hbytes : retainedMatrixBytes m.precision m.entries.length = some bytes)
    (hsize : bytes + m.cutoff.utf8ByteSize < 2 ^ 64) : Suffices resources state b m := by
  obtain ⟨state₁, hscratch⟩ := hworking state (4 * readBuffer)
  obtain ⟨scan, budget, hfold⟩ :=
    checkByte_foldlM_granted hworking b (Scan.start, ⟨state₁, b.length, 0⟩)
    (by simp [Scan.start]) (Nat.zero_le _) hlength
  obtain ⟨state₂, hconversion⟩ := hworking budget.state ((m.precision + 7) / 8 * 32 + 65536)
  obtain ⟨state₃, hlast⟩ := hretained state₂ (bytes + m.cutoff.utf8ByteSize)
  exact ⟨state₁, scan, budget, state₂, bytes, state₃, hscratch, hfold, hconversion, hbytes,
    hsize, hlast⟩

end

/-- What decodes has read one authentic byte string twice and is its reference decoding; what is
delivered twice, has a reference decoding and finds room decodes; and the token mark is a function
of the bytes read, below no token of theirs. -/
theorem two_pass_decoding {σ ρ F : Type} (reader : Reader σ) (resources : Resources ρ)
    (lib : Library F)
    (length : Nat) (digest : ContentDigest) (s : σ) (state : ρ) (hword : length < 2 ^ 64) :
    (∀ fuel m, decodeReader reader resources lib fuel s length digest state = some m →
      ∃ b₁ s₁ b₂ s₂, Authentic reader lib.sha256 length digest s b₁ s₁ ∧
        Authentic reader lib.sha256 length digest s₁ b₂ s₂ ∧
        (NoCollision lib.sha256 [b₁, b₂] → b₁ = b₂ ∧ reference lib b₁ = some m)) ∧
    (∀ b s₁ s₂ m, Authentic reader lib.sha256 length digest s b s₁ →
      Authentic reader lib.sha256 length digest s₁ b s₂ →
      Suffices resources state b m → reference lib b = some m →
      ∃ fuel, ∀ more, fuel ≤ more →
      decodeReader reader resources lib more s length digest state = some m) ∧
    (∀ (chunks : List Bytes) (budget : ParserBudget ρ)
    (checked : CheckedRead ρ), budget.maximumToken = length →
      chunks.foldlM (fun checked bytes => checked.accept resources length bytes)
      (CheckedRead.new budget) =
        some checked →
      checked.hashed = chunks.flatten ∧
        checked.budget.admittedToken =
          (chunks.flatten.foldl (water length) (Scan.start, budget.admittedToken)).2 ∧
        ∀ tokens, Tokens chunks.flatten tokens → ∀ token ∈ tokens, token.length ≤
          checked.budget.admittedToken) := by
  refine ⟨fun fuel m h => ?_, fun b s₁ s₂ m h₁ h₂ hsuffices h =>
    decodeReader_complete hword h₁ h₂ hsuffices h,
    fun chunks budget checked hmaximum h => highWater_of_chunks hmaximum h⟩
  obtain ⟨b₁, s₁, b₂, s₂, h₁, h₂, hreference⟩ := decodeReader_sound h
  refine ⟨b₁, s₁, b₂, s₂, h₁, h₂, fun hcollision => ?_⟩
  have hsame := authentic_unique h₁ h₂ hcollision
  exact ⟨hsame, hreference hsame⟩

/-! ## A document by position -/

/-- `[2,"13",0,64,["1"]]`. -/
def positional : Bytes :=
  [91, 50, 44, 34, 49, 51, 34, 44, 48, 44, 54, 52, 44, 91, 34, 49, 34, 93, 93]

def positionalTree : Json :=
  .array [.number (some 2), .string (some "13"), .number (some 0), .number (some 64),
    .array [.string (some "1")]]

/-- The libraries on the one document. -/
def positionalLibrary : Library String where
  sha256 _ := #v[0x34, 0x52, 0x64, 0x61, 0x13, 0x0b, 0xf3, 0xaa, 0x3d, 0xac, 0x42, 0x0c, 0xb9, 0x1e,
    0x74, 0x2a,
    0x50, 0x0f, 0x46, 0xd9, 0x60, 0xed, 0x20, 0x54, 0xfb, 0x8c, 0xcd, 0x94, 0x86, 0x07, 0xad, 0xad]
  json b := if b = positional then some positionalTree else none
  scalar text _ := some text

/-- A cursor over the document. -/
def cursor : Reader Nat where
  read position limit := (.data ((positional.drop position).take limit), position + limit)
  seekStart _ := some 0
  bounded position limit bytes position' h := by
    have hbytes : (positional.drop position).take limit = bytes :=
      Event.data.inj (congrArg Prod.fst h)
    rw [← hbytes]
    exact List.length_take_le _ _

def unlimited : Resources Unit where
  reserveWorking _ _ := some ()
  reserveRetained _ _ := some ()

def positionalDigest : ContentDigest := contentDigest positionalLibrary.sha256 positional

theorem positional_authentic (position : Nat) :
    Authentic cursor positionalLibrary.sha256 positional.length positionalDigest position
      positional 20 := by
  have hdone : Delivers cursor positional.length positional.length 19 [] 20 := .done rfl
  have hchunk : Delivers cursor positional.length 0 0 (91 :: positional.tail ++ []) 20 :=
    .chunk rfl hdone
  exact ⟨⟨0, rfl, hchunk⟩, rfl, rfl⟩

theorem two_pass_decoding_positional :
    ∃ fuel, ∀ more, fuel ≤ more →
      decodeReader cursor unlimited positionalLibrary more 0 positional.length positionalDigest () =
        some ⟨"13", 0, 64, 1, ["1"]⟩ :=
  (two_pass_decoding cursor unlimited positionalLibrary positional.length positionalDigest 0 ()
  (by decide)).2.1
    positional 20 20 _ (positional_authentic 0) (positional_authentic 20)
    (suffices_of_granted (fun _ _ => ⟨(), rfl⟩) (fun _ _ => ⟨(), rfl⟩) () (by decide) rfl
      (by decide)) (by decide +kernel)

end Xcelerator.Spectral.MatrixDecode
