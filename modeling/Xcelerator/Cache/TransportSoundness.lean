import Mathlib
import Xcelerator.Cache.Transport

/-! # Splitting and reconstruction are inverse

The split loop hands the sink consecutive chunks of the stream; the copy loops of
reconstruction append each part in order. Content addresses separate chunks
wherever SHA-256 does, which decides the schema of the record. -/

namespace Xcelerator.Cache.TransportSoundness
open Xcelerator.Foundations.Machine (bind_eq_ok ok_bind)
open Xcelerator.Cache Xcelerator.Cache.Digest Xcelerator.Cache.Transport

/-! ## Chunks -/

/-- The parts of consecutive chunks, numbered from `sequence`. -/
def partsFrom (sha256 : Sha256) : Nat → List Bytes → List TransportPart
  | _, [] => []
  | sequence, chunk :: rest =>
    transportPart sha256 sequence chunk :: partsFrom sha256 (sequence + 1) rest

/-- Chunks of exactly `n` bytes but for a shorter, nonempty last one. -/
structure Chunked (n : Nat) (stream : Bytes) (chunks : List Bytes) : Prop where
  flatten : chunks.flatten = stream
  nonempty : ∀ chunk ∈ chunks, chunk ≠ []
  bounded : ∀ chunk ∈ chunks, chunk.length ≤ n
  full : ∀ chunk ∈ chunks.dropLast, chunk.length = n

theorem Chunked.cons {n : Nat} {stream : Bytes} {chunks : List Bytes} (hne : stream.take n ≠ [])
    (h : Chunked n (stream.drop n) chunks) : Chunked n stream (stream.take n :: chunks) := by
  refine ⟨by simp [h.flatten], ?_, ?_, ?_⟩
  · intro chunk hmem
    rcases List.mem_cons.mp hmem with rfl | hmem
    · exact hne
    · exact h.nonempty chunk hmem
  · intro chunk hmem
    rcases List.mem_cons.mp hmem with rfl | hmem
    · exact List.length_take_le n stream
    · exact h.bounded chunk hmem
  · intro chunk hmem
    cases chunks with
    | nil => simp at hmem
    | cons next rest =>
      rw [List.dropLast_cons_cons] at hmem
      rcases List.mem_cons.mp hmem with rfl | hmem
      · -- something follows, so the stream reaches past this chunk
        have hrest : stream.drop n ≠ [] := by
          rw [← h.flatten]
          intro hnil
          have := List.append_eq_nil_iff.mp (List.flatten_cons .. ▸ hnil)
          exact h.nonempty next (by simp) this.1
        rw [List.length_take]
        have hlt : n < stream.length := by
          by_contra hge
          exact hrest (List.drop_eq_nil_iff.mpr (not_lt.mp hge))
        omega
      · exact h.full chunk hmem

/-- Handing chunks to the sink in order. -/
def handOver {σ : Type} (sink : σ → TransportPart → Bytes → Result σ) (start : σ)
    (handed : List (TransportPart × Bytes)) : Result σ :=
  handed.foldlM (fun state piece => sink state piece.1 piece.2) start

section
variable {σ : Type} {sha256 : Sha256} {policy : TransportPolicy} {resources : ResourcePolicy}
  {cancellation : Cancellation} {sink : σ → TransportPart → Bytes → Result σ}

theorem splitChunk_spec {s s' : Split σ} {bytes : Bytes}
    (h : splitChunk sha256 resources sink s bytes = .ok s') :
    sink s.sink (transportPart sha256 s.orderedParts.length bytes) bytes = .ok s'.sink ∧
      s'.packaged = s.packaged ++ bytes ∧ s'.packageSize = s.packageSize + bytes.length ∧
      s'.packageSize < 2 ^ 64 ∧
      s'.orderedParts = s.orderedParts ++ [transportPart sha256 s.orderedParts.length bytes] := by
  unfold splitChunk at h
  obtain ⟨size, hsize, h⟩ := bind_eq_ok h
  obtain ⟨_, _, h⟩ := bind_eq_ok h
  obtain ⟨state, hstate, h⟩ := bind_eq_ok h
  cases h
  have hadd := require_ok hsize
  refine ⟨hstate, rfl, checkedAdd_some hadd, ?_, rfl⟩
  unfold checkedAdd at hadd
  split at hadd
  · cases hadd
    assumption
  · cases hadd

/-- What the loop has handed over when it ends. -/
theorem splitLoop_spec {stream : Bytes} {s s' : Split σ}
    (h : splitLoop sha256 policy resources cancellation sink stream s = .ok s')
    (hn : 0 < policy.splitPartBytes) (hsmall : s.packageSize < 2 ^ 64) :
    ∃ chunks, Chunked policy.splitPartBytes stream chunks ∧ s'.packaged = s.packaged ++ stream ∧
      s'.packageSize = s.packageSize + stream.length ∧ s'.packageSize < 2 ^ 64 ∧
      s'.orderedParts = s.orderedParts ++ partsFrom sha256 s.orderedParts.length chunks ∧
      handOver sink s.sink ((partsFrom sha256 s.orderedParts.length chunks).zip chunks) =
        .ok s'.sink := by
  obtain ⟨len, hlen⟩ : ∃ len, stream.length = len := ⟨_, rfl⟩
  induction len using Nat.strong_induction_on generalizing stream s with
  | _ len ih =>
    rw [splitLoop] at h
    split at h
    · cases h
    split at h
    · rename_i hnil
      cases h
      have hstream : stream = [] := by
        rcases List.take_eq_nil_iff.mp hnil with h0 | h0
        · omega
        · exact h0
      subst hstream
      exact ⟨[], ⟨rfl, by simp, by simp, by simp⟩, by simp, by simp, hsmall, by
        simp [partsFrom], rfl⟩
    rename_i hne
    split at h
    · cases h
    rename_i s1 hchunk
    obtain ⟨hsink, hpackaged, hsize, hsmall1, hparts⟩ := splitChunk_spec hchunk
    have hpos : stream ≠ [] := fun h0 => hne (by simp [h0])
    have hshort : (stream.drop policy.splitPartBytes).length < len := by
      rw [List.length_drop]
      have := List.length_pos_iff.mpr hpos
      omega
    obtain ⟨chunks, hchunks, hp, hsz, hsm, hpt, hh⟩ := ih _ hshort h hsmall1 rfl
    have hnumber : s1.orderedParts.length = s.orderedParts.length + 1 := by simp [hparts]
    refine ⟨_, hchunks.cons hne, ?_, ?_, hsm, ?_, ?_⟩
    · rw [hp, hpackaged, List.append_assoc, List.take_append_drop]
    · have hsplit := congrArg List.length (List.take_append_drop policy.splitPartBytes stream)
      rw [List.length_append] at hsplit
      rw [hsz, hsize]
      omega
    · rw [hpt, hnumber, hparts, partsFrom, List.append_assoc]
      rfl
    · rw [partsFrom, List.zip_cons_cons, handOver, List.foldlM_cons, hsink, ok_bind, ← hnumber]
      exact hh

end

/-! ## Content addresses -/

theorem transportPart_path (sha256 : Sha256) (i j : Nat) (chunk : Bytes) :
    (transportPart sha256 i chunk).repositoryPath = (transportPart sha256 j chunk).repositoryPath :=
      rfl

theorem partsFrom_paths (sha256 : Sha256) (i : Nat) (chunks : List Bytes) :
    (partsFrom sha256 i chunks).map (·.repositoryPath) =
      chunks.map fun chunk => (transportPart sha256 0 chunk).repositoryPath := by
  induction chunks generalizing i with
  | nil => rfl
  | cons chunk chunks ih =>
    rw [partsFrom, List.map_cons, List.map_cons, ih, transportPart_path sha256 i 0]

/-- Two chunks share a content address only if their hashes agree. -/
theorem path_separates {sha256 : Sha256} {a b : Bytes}
    (h : (transportPart sha256 0 a).repositoryPath = (transportPart sha256 0 b).repositoryPath) :
    sha256 a = sha256 b := by
  have hlength : ∀ x, (contentDigest sha256 x).text.toList.length = 64 := by
    intro x
    have hbytes : ∀ bytes : List UInt8, (hexDigest bytes).toList.length = 2 * bytes.length := by
      intro bytes
      rw [hexDigest, String.toList_ofList]
      induction bytes with
      | nil => rfl
      | cons byte bytes ih =>
        rw [List.flatMap_cons, List.length_append, ih]
        simp
        omega
    rw [contentDigest, hbytes]
    simp
  refine contentDigest_injective (ContentDigest.mk.injEq .. ▸ ?_)
  simp only [transportPart] at h
  replace h := congrArg String.toList h
  simp only [String.toList_append, String.toList_ofList, List.append_assoc] at h
  replace h := List.append_cancel_left h
  have htail := (List.append_inj h (by simp [hlength])).2
  replace htail := List.append_cancel_left htail
  exact String.toList_inj.mp (List.append_cancel_right htail)

theorem dedup_length_iff {α : Type} [DecidableEq α] (xs : List α) :
    xs.dedup.length = xs.length ↔ xs.Nodup := by
  constructor
  · intro h
    rw [← List.dedup_eq_self]
    exact (List.dedup_sublist xs).eq_of_length h
  · intro h
    rw [List.dedup_eq_self.mpr h]

/-- The record has the first schema exactly when no chunk repeats. -/
theorem schema_iff {sha256 : Sha256} {chunks : List Bytes} (h : NoCollision sha256 chunks) :
    ((partsFrom sha256 0 chunks).map (·.repositoryPath)).dedup.length =
      (partsFrom sha256 0 chunks).length ↔
      chunks.Nodup := by
  have hmap : (partsFrom sha256 0 chunks).length =
      ((partsFrom sha256 0 chunks).map (·.repositoryPath)).length := by simp
  rw [hmap, dedup_length_iff, partsFrom_paths]
  constructor
  · intro hnd
    exact hnd.of_map _
  · intro hnd
    exact hnd.map_on fun a ha b hb hpath => h a ha b hb (path_separates hpath)

/-! ## Reconstruction -/

section
variable {resources : ResourcePolicy} {cancellation : Cancellation} {sha256 : Sha256}
  {debug : String → String}

theorem bufferBytes_pos (resources : ResourcePolicy) : 0 < bufferBytes resources :=
  lt_of_lt_of_le Nat.zero_lt_one (Nat.le_max_left 1 _)

theorem writeAll_written {c c' : Copy} {fragment : Bytes}
    (h : writeAll resources cancellation c fragment = .ok c') :
    c'.written = c.written ++ fragment ∧ c'.written.length < 2 ^ 64 := by
  unfold writeAll at h
  dsimp only at h
  split at h
  · cases h
  rename_i last hadd
  split at h
  · cases h
  · cases h
    refine ⟨rfl, ?_⟩
    unfold checkedAdd at hadd
    split at hadd
    · rwa [List.length_append]
    · cases hadd

/-- The copy loop appends exactly the bytes of the part. -/
theorem copyPart_written {buffer : Nat} (hbuffer : 0 < buffer) {remaining : Bytes} {c c' : Copy}
    (h : copyPart resources cancellation buffer remaining c = .ok c') :
    c'.written = c.written ++ remaining := by
  obtain ⟨len, hlen⟩ : ∃ len, remaining.length = len := ⟨_, rfl⟩
  induction len using Nat.strong_induction_on generalizing remaining c with
  | _ len ih =>
    rw [copyPart] at h
    split at h
    · cases h
    split at h
    · rename_i hnil
      cases h
      rcases List.take_eq_nil_iff.mp hnil with h0 | h0
      · omega
      · simp [h0]
    rename_i hne
    split at h
    · cases h
    rename_i c1 hwrite
    have hpos : remaining ≠ [] := fun h0 => hne (by simp [h0])
    have hshort : (remaining.drop buffer).length < len := by
      rw [List.length_drop]
      have := List.length_pos_iff.mpr hpos
      omega
    rw [ih _ hshort h rfl, (writeAll_written hwrite).1, List.append_assoc, List.take_append_drop]

/-- Without cancellation the loop fails only past the disk budget. -/
theorem copyPart_admitted {buffer limit : Nat} (hbuffer : 0 < buffer)
    (hbudget : resources.maximumTemporaryDiskBytes.all (fun maximum =>
      decide (limit ≤ maximum)) = true)
    (hlimit : limit < 2 ^ 64) {remaining : Bytes} {c : Copy}
    (hfits : c.written.length + remaining.length ≤ limit) :
    ∃ c', copyPart resources (fun _ => none) buffer remaining c = .ok c' := by
  obtain ⟨len, hlen⟩ : ∃ len, remaining.length = len := ⟨_, rfl⟩
  induction len using Nat.strong_induction_on generalizing remaining c with
  | _ len ih =>
    rw [copyPart]
    simp only [Cancellation.check]
    split
    · exact ⟨_, rfl⟩
    rename_i hne
    have hpos : remaining ≠ [] := fun h0 => hne (by simp [h0])
    have hlength := List.length_pos_iff.mpr hpos
    have htake : (remaining.take buffer).length ≤ remaining.length := List.length_take_le' _ _
    have hwrite : writeAll resources (fun _ => none) { c with checks := c.checks + 1 }
        (remaining.take buffer) =
            .ok { written := c.written ++ remaining.take buffer, checks := c.checks + 1 } := by
      unfold writeAll checkedAdd
      dsimp only
      rw [if_pos (by omega)]
      dsimp only
      rw [if_neg]
      cases hmax : resources.maximumTemporaryDiskBytes with
      | none => simp
      | some maximum =>
        rw [hmax] at hbudget
        have : limit ≤ maximum := by simpa using hbudget
        simp only [Option.any_some, decide_eq_true_eq]
        omega
    rw [hwrite]
    refine ih _ (by rw [List.length_drop]; omega) ?_ rfl
    have hsplit := congrArg List.length (List.take_append_drop buffer remaining)
    rw [List.length_append] at hsplit
    simp only [List.length_append]
    omega

theorem openPart_ok {store : Store} {part : TransportPart} {bytes : Bytes}
    (h : openPart debug store part = .ok bytes) :
    store part.repositoryPath = some (.file bytes) ∧ bytes.length = part.sizeBytes := by
  unfold openPart at h
  obtain ⟨_, _, h⟩ := bind_eq_ok h
  split at h
  · cases h
  · rename_i found hfound
    obtain ⟨_, hsize, h⟩ := bind_eq_ok h
    cases h
    exact ⟨hfound, by simpa using check_ok hsize⟩
  · cases h

theorem reconstructPart_ok {store : Store} {c c' : Copy} {part : TransportPart}
    (h : reconstructPart resources cancellation debug sha256 store c part = .ok c') :
    ∃ bytes, store part.repositoryPath = some (.file bytes) ∧ bytes.length = part.sizeBytes ∧
      contentDigest sha256 bytes = part.contentDigest ∧ c'.written = c.written ++ bytes := by
  unfold reconstructPart at h
  obtain ⟨_, _, h⟩ := bind_eq_ok h
  obtain ⟨bytes, hbytes, h⟩ := bind_eq_ok h
  obtain ⟨copied, hcopied, h⟩ := bind_eq_ok h
  obtain ⟨_, hdigest, h⟩ := bind_eq_ok h
  cases h
  obtain ⟨hstore, hsize⟩ := openPart_ok hbytes
  have hsame := check_ok hdigest
  simp only [Bool.or_eq_false_iff, bne_eq_false_iff_eq] at hsame
  have hwritten := copyPart_written (bufferBytes_pos resources) hcopied
  exact ⟨bytes, hstore, hsize, hsame.2, hwritten⟩

/-- A piece of the store that a part names. -/
structure Piece (sha256 : Sha256) (store : Store) (part : TransportPart) (bytes : Bytes) :
    Prop where
  stored : store part.repositoryPath = some (.file bytes)
  size : bytes.length = part.sizeBytes
  digest : contentDigest sha256 bytes = part.contentDigest

theorem foldlM_pieces {store : Store} {parts : List TransportPart} {c c' : Copy}
    (h : parts.foldlM (reconstructPart resources cancellation debug sha256 store) c = .ok c') :
    ∃ pieces, List.Forall₂ (Piece sha256 store) parts pieces ∧ c'.written = c.written ++
      pieces.flatten := by
  induction parts generalizing c with
  | nil =>
    cases h
    exact ⟨[], .nil, by simp⟩
  | cons part parts ih =>
    rw [List.foldlM_cons] at h
    obtain ⟨c1, hpart, h⟩ := bind_eq_ok h
    obtain ⟨bytes, hstore, hsize, hdigest, hwritten⟩ := reconstructPart_ok hpart
    obtain ⟨pieces, hpieces, hrest⟩ := ih h
    refine ⟨bytes :: pieces, .cons ⟨hstore, hsize, hdigest⟩ hpieces, ?_⟩
    rw [hrest, hwritten, List.flatten_cons, List.append_assoc]

/-- Parts whose bytes are stored and fit the budget are all copied. -/
theorem foldlM_admitted (debug : String → String) {store : Store} {limit : Nat}
    (hbudget : resources.maximumTemporaryDiskBytes.all (fun maximum =>
      decide (limit ≤ maximum)) = true)
    (hlimit : limit < 2 ^ 64) {parts : List TransportPart} {pieces : List Bytes}
    (hpieces : List.Forall₂ (Piece sha256 store) parts pieces)
    (hpaths : ∀ part ∈ parts, normalizedRelativePath part.repositoryPath = true) {c : Copy}
    (hfits : c.written.length + pieces.flatten.length ≤ limit) :
    ∃ c', parts.foldlM (reconstructPart resources (fun _ => none) debug sha256 store) c = .ok c' ∧
      c'.written = c.written ++ pieces.flatten := by
  induction hpieces generalizing c with
  | nil => exact ⟨c, rfl, by simp⟩
  | @cons part bytes parts pieces hpiece _ ih =>
    rw [List.flatten_cons, List.length_append] at hfits
    have hopen : openPart debug store part = .ok bytes := by
      unfold openPart
      rw [hpaths part (by simp), hpiece.stored]
      simp [check, hpiece.size]
    have hroom : ({ c with checks := c.checks + 1 } : Copy).written.length + bytes.length ≤
        limit := by
      dsimp only
      omega
    obtain ⟨copied, hcopied⟩ := copyPart_admitted (bufferBytes_pos resources) hbudget hlimit hroom
    have hwritten := copyPart_written (bufferBytes_pos resources) hcopied
    have hpart : reconstructPart resources (fun _ => none) debug sha256 store c part =
        .ok copied := by
      unfold reconstructPart
      simp only [Cancellation.check, hopen, ok_bind, hcopied]
      simp [check, hpiece.size, hpiece.digest]
    obtain ⟨c', hc', hrest⟩ := ih (fun p hp => hpaths p (List.mem_cons_of_mem _ hp)) (c := copied)
      (by rw [hwritten, List.length_append]; simp only; omega)
    refine ⟨c', ?_, ?_⟩
    · rw [List.foldlM_cons, hpart]
      exact hc'
    · rw [hrest, hwritten, List.flatten_cons, List.append_assoc]

end

/-! ## The round trip -/

theorem validateParts_paths {schema index total total' : Nat} {parts : List TransportPart}
    {paths : List (String × ContentDigest × Nat)}
    (h : validateParts schema parts index paths total = .ok total') :
    ∀ part ∈ parts, normalizedRelativePath part.repositoryPath = true := by
  induction parts generalizing index paths total with
  | nil => simp
  | cons part parts ih =>
    unfold validateParts at h
    obtain ⟨_, hpart, h⟩ := bind_eq_ok h
    obtain ⟨_, _, h⟩ := bind_eq_ok h
    unfold validatePart at hpart
    obtain ⟨_, hchecks, _⟩ := bind_eq_ok hpart
    have hchecked := check_ok hchecks
    simp only [Bool.or_eq_false_iff, Bool.not_eq_false'] at hchecked
    intro other hmem
    rcases List.mem_cons.mp hmem with rfl | hmem
    · exact hchecked.1.1.1.2
    · exact ih h other hmem

theorem validate_paths {record : TransportEncodingRecord} (h : record.validate = .ok ()) :
    ∀ part ∈ record.orderedParts, normalizedRelativePath part.repositoryPath = true := by
  unfold TransportEncodingRecord.validate at h
  obtain ⟨_, _, h⟩ := bind_eq_ok h
  obtain ⟨total, htotal, h⟩ := bind_eq_ok h
  exact validateParts_paths htotal

theorem policy_splitPartBytes_pos {policy : TransportPolicy} (h : policy.validate = .ok ()) :
    0 < policy.splitPartBytes := by
  unfold TransportPolicy.validate at h
  obtain ⟨_, _, h⟩ := bind_eq_ok h
  obtain ⟨_, hsplit, h⟩ := bind_eq_ok h
  have hchecked := check_ok hsplit
  simp only [Bool.or_eq_false_iff, beq_eq_false_iff_ne] at hchecked
  exact Nat.pos_of_ne_zero hchecked.1.1

/-- What a successful split promises about the chunks it handed over. -/
structure SplitOf {σ : Type} (sha256 : Sha256) (policy : TransportPolicy)
    (sink : σ → TransportPart → Bytes → Result σ) (start : σ) (stream : Bytes)
    (record : TransportEncodingRecord) (state : σ) (chunks : List Bytes) : Prop where
  chunked : Chunked policy.splitPartBytes stream chunks
  parts : record.orderedParts = partsFrom sha256 0 chunks
  handed : handOver sink start (record.orderedParts.zip chunks) = .ok state
  size : record.packageSizeBytes = stream.length ∧ stream.length < 2 ^ 64
  digest : record.packageDigest = contentDigest sha256 stream
  valid : record.validate = .ok ()
  schema : NoCollision sha256 chunks → (record.schemaVersion = 1 ↔ chunks.Nodup)

theorem streamSplitEncoded_splitOf {σ : Type} {sha256 : Sha256} {policy : TransportPolicy}
    {resources : ResourcePolicy} {cancellation : Cancellation}
    {sink : σ → TransportPart → Bytes → Result σ} {start state : σ} {stream : Bytes}
    {canonical : ContentDigest} {profile : String} {record : TransportEncodingRecord}
    (h : streamSplitEncoded sha256 policy resources cancellation sink stream canonical
      profile start =
      .ok (record, state)) :
    ∃ chunks, SplitOf sha256 policy sink start stream record state chunks := by
  unfold streamSplitEncoded at h
  obtain ⟨_, hpolicy, h⟩ := bind_eq_ok h
  obtain ⟨_, _, h⟩ := bind_eq_ok h
  obtain ⟨_, _, h⟩ := bind_eq_ok h
  obtain ⟨s, hs, h⟩ := bind_eq_ok h
  obtain ⟨_, _, h⟩ := bind_eq_ok h
  obtain ⟨_, hvalid, h⟩ := bind_eq_ok h
  cases h
  obtain ⟨chunks, hchunks, hpackaged, hsize, hsmall, hparts, hhanded⟩ :=
    splitLoop_spec hs (policy_splitPartBytes_pos hpolicy) (show (0 : Nat) < 2 ^ 64 by decide)
  simp only [List.nil_append, List.length_nil, Nat.zero_add] at hpackaged hsize hparts hhanded
  refine ⟨chunks, hchunks, hparts, ?_, ⟨hsize, hsize ▸ hsmall⟩, ?_, hvalid, fun hcollision => ?_⟩
  · rw [← hparts] at hhanded
    exact hhanded
  · rw [← hpackaged]
    rfl
  · rw [← schema_iff hcollision, ← hparts]
    simp only [splitRecord]
    split
    · simp_all
    · simp_all

/-- The store holds the bytes of every part. -/
def Holds (store : Store) (parts : List TransportPart) (chunks : List Bytes) : Prop :=
  List.Forall₂ (fun part chunk => store part.repositoryPath = some (.file chunk)) parts chunks

theorem Holds.pieces {sha256 : Sha256} {store : Store} {i : Nat} {chunks : List Bytes}
    (h : Holds store (partsFrom sha256 i chunks) chunks) :
    List.Forall₂ (Piece sha256 store) (partsFrom sha256 i chunks) chunks := by
  induction chunks generalizing i with
  | nil => exact .nil
  | cons chunk chunks ih =>
    obtain ⟨hchunk, hrest⟩ := List.forall₂_cons.mp h
    exact .cons ⟨hchunk, rfl, rfl⟩ (ih hrest)

/-- A budget that admits the whole package. -/
def Admits (resources : ResourcePolicy) (size : Nat) : Prop :=
  resources.maximumTemporaryDiskBytes.all (fun maximum => decide (size ≤ maximum)) = true

theorem reconstructInner_of_splitOf {σ : Type} {sha256 : Sha256} {policy : TransportPolicy}
    {sink : σ → TransportPart → Bytes → Result σ} {start state : σ} {stream : Bytes}
    {record : TransportEncodingRecord} {chunks : List Bytes}
    (h : SplitOf sha256 policy sink start stream record state chunks) {resources : ResourcePolicy}
    (hadmits : Admits resources stream.length) {store : Store}
    (hstore : Holds store record.orderedParts chunks) (debug : String → String) :
    ∃ report, reconstructInner resources (fun _ => none) debug sha256 record store none =
      .ok (report, stream) ∧ report.createdNew = true := by
  have hpaths := validate_paths h.valid
  rw [h.parts] at hstore
  have hflatten := h.chunked.flatten
  have hpieces := hstore.pieces
  rw [← h.parts] at hpieces
  obtain ⟨c, hc, hwritten⟩ := foldlM_admitted debug (c := { written := [], checks := 0 }) hadmits
    h.size.2 hpieces hpaths (by simp [hflatten])
  rw [hflatten, List.nil_append] at hwritten
  refine ⟨{ canonicalPayloadDigest := record.canonicalPayloadDigest
            encoderProfile := record.encoderProfile
            packageSizeBytes := stream.length
            packageDigest := contentDigest sha256 stream
            createdNew := true }, ?_, rfl⟩
  unfold reconstructInner
  rw [hc]
  simp only [ok_bind, hwritten, h.size.1, h.digest, check, bne_self_eq_false, Bool.or_false]
  rfl

/-- What a successful reconstruction leaves at the destination. -/
theorem reconstructInner_ok {resources : ResourcePolicy} {cancellation : Cancellation}
    {debug : String → String} {sha256 : Sha256} {record : TransportEncodingRecord} {store : Store}
    {found : Option Entry} {report : DeterministicPackageReport} {bytes : Bytes}
    (h : reconstructInner resources cancellation debug sha256 record store found =
      .ok (report, bytes)) :
    bytes.length = record.packageSizeBytes ∧ contentDigest sha256 bytes = record.packageDigest ∧
      ∃ pieces, List.Forall₂ (Piece sha256 store) record.orderedParts pieces ∧
        (report.createdNew = true → bytes = pieces.flatten) ∧
        (NoCollision sha256 [bytes, pieces.flatten] → bytes = pieces.flatten) := by
  unfold reconstructInner at h
  obtain ⟨c, hc, h⟩ := bind_eq_ok h
  obtain ⟨_, hpackage, h⟩ := bind_eq_ok h
  obtain ⟨pieces, hpieces, hwritten⟩ := foldlM_pieces hc
  rw [List.nil_append] at hwritten
  have hsame := check_ok hpackage
  simp only [Bool.or_eq_false_iff, bne_eq_false_iff_eq] at hsame
  cases found with
  | none =>
    cases h
    exact ⟨hsame.1, hsame.2, pieces, hpieces, fun _ => hwritten, fun _ => hwritten⟩
  | some entry =>
    replace h : verifiedExistingTransportPackage sha256 record entry = .ok (report, bytes) := h
    cases entry with
    | symlink => cases h
    | other => cases h
    | file existing =>
      obtain ⟨_, hsize, h⟩ := bind_eq_ok h
      obtain ⟨_, hdigest, h⟩ := bind_eq_ok h
      cases h
      have hsize' : bytes.length = record.packageSizeBytes := by simpa using check_ok hsize
      have hdigest' : contentDigest sha256 bytes = record.packageDigest :=
        by simpa using check_ok hdigest
      refine ⟨hsize', hdigest', pieces, hpieces, nofun, fun hcollision => ?_⟩
      refine hcollision bytes (by simp) _ (by simp) (contentDigest_injective ?_)
      rw [hdigest', ← hsame.2, hwritten]

/-- **Splitting and reconstruction are inverse.** -/
theorem split_reconstruct_inverse {σ : Type} (sha256 : Sha256) (debug : String → String) :
    (∀ (policy : TransportPolicy) (resources : ResourcePolicy) (cancellation : Cancellation)
      (sink : σ → TransportPart → Bytes → Result σ) (start state : σ) (stream : Bytes)
      (canonical : ContentDigest) (profile : String) (record : TransportEncodingRecord),
      streamSplitEncoded sha256 policy resources cancellation sink stream canonical profile start =
        .ok (record, state) →
      ∃ chunks, SplitOf sha256 policy sink start stream record state chunks ∧
        ∀ (reading : ResourcePolicy) (store : Store), Admits reading stream.length →
          Holds store record.orderedParts chunks →
          ∃ report, reconstructInner reading (fun _ => none) debug sha256 record store none =
            .ok (report, stream) ∧ report.createdNew = true) ∧
    ∀ (resources : ResourcePolicy) (cancellation : Cancellation) (record : TransportEncodingRecord)
      (store : Store) (found : Option Entry) (report : DeterministicPackageReport) (bytes : Bytes),
      reconstructInner resources cancellation debug sha256 record store found =
        .ok (report, bytes) →
      bytes.length = record.packageSizeBytes ∧ contentDigest sha256 bytes = record.packageDigest ∧
        ∃ pieces, List.Forall₂ (Piece sha256 store) record.orderedParts pieces ∧
          (report.createdNew = true → bytes = pieces.flatten) ∧
          (NoCollision sha256 [bytes, pieces.flatten] → bytes = pieces.flatten) := by
  refine ⟨fun policy resources cancellation sink start state stream canonical profile record h =>
    ?_, fun resources cancellation record store found report bytes h => reconstructInner_ok h⟩
  obtain ⟨chunks, hsplit⟩ := streamSplitEncoded_splitOf h
  exact ⟨chunks, hsplit, fun reading store hadmits hstore =>
    reconstructInner_of_splitOf hsplit hadmits hstore debug⟩

/-- SHA-256 of the texts `aab`, `a` and `b`. -/
def sampleSha256 : Sha256 := fun bytes =>
  if bytes = [97, 97, 98] then
    Vector.mk #[56, 118, 14, 171, 182, 102, 232, 230, 30, 230, 40, 161, 124, 64, 144, 204, 80, 114,
      142, 9, 95, 242, 66, 24, 17, 157, 81, 189, 34, 71, 83, 99] rfl
  else letterDigest bytes

def sampleSplit : Result (TransportEncodingRecord × List Bytes) :=
  streamSplitEncoded sampleSha256
    { maximumFileBytesExclusive := 64, splitPartBytes := 1, maximumBatchPayloadBytes := 64,
      maximumPendingBatches := 1 }
    { maximumMemoryBytes := none, maximumTemporaryDiskBytes := some 3,
      maximumTransferBytes := none }
    (fun _ => none) (fun log _ bytes => .ok (log ++ [bytes])) [97, 97, 98]
    (contentDigest sampleSha256 [97]) deterministicZip64ProfileV2 []

/-- The two blobs under their content addresses. -/
def sampleStore : Store := fun path =>
  if path = (transportPart sampleSha256 0 [97]).repositoryPath then some (.file [97])
  else if path = (transportPart sampleSha256 0 [98]).repositoryPath then some (.file [98])
  else none

/-- A repeated chunk is stored once, recorded twice and reconstructed. -/
theorem split_reconstruct_inverse_sample :
    ∃ record log, sampleSplit = .ok (record, log) ∧ record.schemaVersion = 2 ∧
    log = [[97], [97], [98]] ∧
      ∃ report, reconstructInner
        { maximumMemoryBytes := none, maximumTemporaryDiskBytes := some 3,
          maximumTransferBytes := none }
        (fun _ => none) id sampleSha256 record sampleStore none = .ok (report, [97, 97, 98]) := by
  have hrun : (sampleSplit.toOption.map fun result => (result.1.schemaVersion, result.2)) =
      some (2, [[97], [97], [98]]) := by decide +kernel
  cases hsplit : sampleSplit with
  | error error => simp [hsplit, Except.toOption] at hrun
  | ok result =>
    obtain ⟨record, log⟩ := result
    simp only [hsplit, Except.toOption, Option.map_some, Option.some.injEq, Prod.mk.injEq] at hrun
    obtain ⟨chunks, hchunks, hread⟩ :=
      (split_reconstruct_inverse sampleSha256 id).1 _ _ _ _ _ _ _ _ _ _ hsplit
    have hsingle : ∀ chunk ∈ chunks, chunk = [97] ∨ chunk = [98] := by
      intro chunk hmem
      obtain ⟨x, hx⟩ : ∃ x, chunk = [x] := by
        have hlength : chunk.length ≤ 1 := hchunks.chunked.bounded chunk hmem
        have hpos := List.length_pos_iff.mpr (hchunks.chunked.nonempty chunk hmem)
        exact List.length_eq_one_iff.mp (by omega)
      have hin : x ∈ ([97, 97, 98] : Bytes) := by
        rw [← hchunks.chunked.flatten]
        exact List.mem_flatten.mpr ⟨chunk, hmem, by simp [hx]⟩
      simp only [List.mem_cons, List.not_mem_nil, or_false] at hin
      rw [hx]
      rcases hin with rfl | rfl | rfl <;> simp
    have hholds : ∀ (i : Nat) (pieces : List Bytes), (∀ chunk ∈ pieces, chunk = [97] ∨
      chunk = [98]) →
        Holds sampleStore (partsFrom sampleSha256 i pieces) pieces := by
      intro i pieces hpieces
      induction pieces generalizing i with
      | nil => exact .nil
      | cons chunk pieces ih =>
        refine .cons ?_ (ih (i + 1) fun c hc => hpieces c (List.mem_cons_of_mem _ hc))
        rw [transportPart_path sampleSha256 i 0]
        rcases hpieces chunk (by simp) with rfl | rfl <;> decide +kernel
    obtain ⟨report, hreport, _⟩ := hread
      { maximumMemoryBytes := none, maximumTemporaryDiskBytes := some 3,
        maximumTransferBytes := none }
      sampleStore (by unfold Admits; decide) (hchunks.parts ▸ hholds 0 chunks hsingle)
    exact ⟨record, log, rfl, hrun.1, hrun.2, report, hreport⟩

end Xcelerator.Cache.TransportSoundness
