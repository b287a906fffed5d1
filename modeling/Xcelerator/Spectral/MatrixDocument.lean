import Mathlib
import Xcelerator.Spectral.MatrixDecode

/-! # One document in two passes

On one document the counting pass and the typed pass together read what the
reference reads. -/

namespace Xcelerator.Spectral.MatrixDecode

/-! ## The derived visitor -/

theorem once_some {α : Type} {field value : Option α} {result : Option α}
    (h : once field value = some result) :
    field = none ∧ ∃ a, value = some a ∧ result = some a := by
  cases field with
  | some a => cases h
  | none =>
    cases value with
    | none => cases h
    | some a => exact ⟨rfl, a, rfl, (Option.some.inj h).symm⟩

/-- A member is the entries, met for the first time, or leaves them as they are. -/
theorem decodeMember_entries {α : Type} {entries : Json → Option α} {fields fields' : Fields α}
    {member : Option String × Json} (h : decodeMember entries fields member = some fields') :
    ∃ key, member.1 = some key ∧
      (key = "entries" ∧ fields.entries = none ∧
        (∃ a, entries member.2 = some a ∧ fields'.entries = some a) ∨
        key ≠ "entries" ∧ fields'.entries = fields.entries) := by
  obtain ⟨key, hkey, h⟩ := bind_some h
  refine ⟨key, hkey, ?_⟩
  by_cases hentries : key = "entries"
  · subst hentries
    rw [if_neg (by decide), if_neg (by decide), if_neg (by decide), if_neg (by decide),
      if_pos rfl] at h
    obtain ⟨value, hvalue, h⟩ := bind_some h
    obtain ⟨hnone, a, ha, rfl⟩ := once_some hvalue
    cases h
    exact .inl ⟨rfl, hnone, a, ha, rfl⟩
  · refine .inr ⟨hentries, ?_⟩
    rw [if_neg hentries] at h
    split at h
    · obtain ⟨value, -, h⟩ := bind_some h
      cases h
      rfl
    · split at h
      · obtain ⟨value, -, h⟩ := bind_some h
        cases h
        rfl
      · split at h
        · obtain ⟨value, -, h⟩ := bind_some h
          cases h
          rfl
        · split at h
          · obtain ⟨value, -, h⟩ := bind_some h
            cases h
            rfl
          · cases h
            rfl

section
variable {α β : Type} (f : Json → Option α) (g : α → Option β)

def Fields.bindEntries (fields : Fields α) : Option (Fields β) :=
  match fields.entries with
  | none => some ⟨fields.schemaVersion, fields.lambdaSquared, fields.nModes,
      fields.precisionBits, none⟩
  | some a => (g a).map fun b =>
    ⟨fields.schemaVersion, fields.lambdaSquared, fields.nModes, fields.precisionBits, some b⟩

def Payload.bindEntries (payload : Payload α) : Option (Payload β) :=
  (g payload.entries).map fun b =>
    ⟨payload.schemaVersion, payload.lambdaSquared, payload.nModes, payload.precisionBits, b⟩

/-- Keeping the entries in another form commutes with reading a member. -/
theorem decodeMember_bind (fields : Fields α) (member : Option String × Json) :
    (decodeMember f fields member).bind (Fields.bindEntries g) =
      (fields.bindEntries g).bind fun kept =>
      decodeMember (fun tree => (f tree).bind g) kept member := by
  obtain ⟨key, tree⟩ := member
  obtain ⟨schema, lambda, modes, precision, entries⟩ := fields
  cases key with
  | none => cases entries <;> simp [decodeMember, Fields.bindEntries]
  | some key =>
    simp only [decodeMember, Option.bind_eq_bind, Option.bind_some]
    cases entries with
    | none =>
      simp only [Fields.bindEntries, Option.bind_some]
      split
      · cases once schema (tree.asUnsigned 32) <;> rfl
      · split
        · cases once lambda tree.asString <;> rfl
        · split
          · cases once modes (tree.asUnsigned 64) <;> rfl
          · split
            · cases once precision (tree.asUnsigned 32) <;> rfl
            · split
              · cases hf : f tree with
                | none => simp [once]
                | some a => cases hg : g a <;> simp [once, Fields.bindEntries, hg]
              · rfl
    | some a =>
      simp only [Fields.bindEntries]
      cases hg : g a with
      | none =>
        simp only [Option.map_none, Option.bind_none]
        split
        · cases once schema (tree.asUnsigned 32) <;> simp [Fields.bindEntries, hg]
        · split
          · cases once lambda tree.asString <;> simp [Fields.bindEntries, hg]
          · split
            · cases once modes (tree.asUnsigned 64) <;> simp [Fields.bindEntries, hg]
            · split
              · cases once precision (tree.asUnsigned 32) <;> simp [Fields.bindEntries, hg]
              · split
                · simp [once]
                · simp [Fields.bindEntries, hg]
      | some b =>
        simp only [Option.map_some, Option.bind_some]
        split
        · cases once schema (tree.asUnsigned 32) <;> simp [Fields.bindEntries, hg]
        · split
          · cases once lambda tree.asString <;> simp [Fields.bindEntries, hg]
          · split
            · cases once modes (tree.asUnsigned 64) <;> simp [Fields.bindEntries, hg]
            · split
              · cases once precision (tree.asUnsigned 32) <;> simp [Fields.bindEntries, hg]
              · split
                · simp [once]
                · simp [Fields.bindEntries, hg]

theorem foldlM_bind (members : List (Option String × Json)) (fields : Fields α) :
    (members.foldlM (decodeMember f) fields).bind (Fields.bindEntries g) =
      (fields.bindEntries g).bind fun kept =>
      members.foldlM (decodeMember fun tree => (f tree).bind g) kept := by
  induction members generalizing fields with
  | nil => cases h : fields.bindEntries g <;> simp [h]
  | cons member members ih =>
    have hstep := decodeMember_bind f g fields member
    simp only [List.foldlM_cons, Option.bind_eq_bind]
    cases hm : decodeMember f fields member with
    | none =>
      rw [hm, Option.bind_none] at hstep
      rw [Option.bind_none, Option.bind_none]
      cases hk : fields.bindEntries g with
      | none => rfl
      | some kept =>
        rw [hk, Option.bind_some] at hstep
        simp only [Option.bind_some, ← hstep, Option.bind_none]
    | some next =>
      rw [hm, Option.bind_some] at hstep
      rw [Option.bind_some, ih next, hstep, Option.bind_assoc]

theorem finish_bind (fields : Fields α) :
    (finish fields).bind (Payload.bindEntries g) = (fields.bindEntries g).bind finish := by
  obtain ⟨schema, lambda, modes, precision, entries⟩ := fields
  cases entries with
  | none => cases schema <;> cases lambda <;> cases modes <;> cases precision <;> rfl
  | some a =>
    simp only [Fields.bindEntries]
    cases hg : g a <;> cases schema <;> cases lambda <;> cases modes <;> cases precision <;>
      simp [finish, Payload.bindEntries, hg]

/-- Keeping the entries in another form commutes with reading the struct. -/
theorem decodeStruct_bind (tree : Json) :
    decodeStruct (fun tree => (f tree).bind g) tree = (decodeStruct f tree).bind
      (Payload.bindEntries g) := by
  unfold decodeStruct
  split
  · rename_i members
    have hfold := foldlM_bind f g members ⟨none, none, none, none, none⟩
    simp only [Fields.bindEntries, Option.bind_some] at hfold
    simp only [Option.bind_eq_bind, Option.bind_assoc, ← hfold]
    exact Option.bind_congr fun fields _ => (finish_bind g fields).symm
  · rename_i schema lambda modes precision list
    simp only [Option.bind_eq_bind, Option.bind_assoc]
    refine Option.bind_congr fun _ _ => Option.bind_congr fun _ _ => Option.bind_congr fun _ _ =>
      Option.bind_congr fun _ _ => ?_
    cases hf : f list with
    | none => rfl
    | some a => cases hg : g a <;> simp [Payload.bindEntries, hg]
  · rfl

end

/-- The count of a list of strings, where it is a machine word. -/
def countOf (texts : List String) : Option Nat :=
  if texts.length < 2 ^ 64 then some texts.length else none

theorem countElement_foldlM (elements : List Json) (start : Nat) (hstart : start < 2 ^ 64) :
    elements.foldlM countElement start =
      (elements.mapM Json.asString).bind fun texts =>
        if start + texts.length < 2 ^ 64 then some (start + texts.length) else none := by
  induction elements generalizing start with
  | nil =>
    change some start = if start + 0 < 2 ^ 64 then some (start + 0) else none
    rw [Nat.add_zero, if_pos hstart]
  | cons element elements ih =>
    rw [List.foldlM_cons, List.mapM_cons, countElement]
    cases element.asString with
    | none => rfl
    | some text =>
      simp only [Option.bind_eq_bind, Option.bind_some, Option.bind_assoc]
      by_cases hnext : start + 1 < 2 ^ 64
      · rw [if_pos hnext, Option.bind_some, ih _ hnext]
        refine Option.bind_congr fun texts _ => ?_
        rw [Option.pure_def, Option.bind_some, List.length_cons, Nat.add_assoc, Nat.add_comm 1]
      · rw [if_neg hnext, Option.bind_none]
        cases elements.mapM Json.asString with
        | none => rfl
        | some texts =>
          have hover : ¬start + (texts.length + 1) < 2 ^ 64 := by omega
          simp only [Option.bind_some, Option.pure_def, List.length_cons, if_neg hover]

theorem countEntries_eq : countEntries = fun tree => (stringEntries tree).bind countOf := by
  funext tree
  cases tree with
  | array elements =>
    have h := countElement_foldlM elements 0 (by norm_num)
    simp only [Nat.zero_add] at h
    exact h
  | _ => rfl

/-! ## The typed pass on a counted document -/

section
variable {F : Type} (lib : Library F) (p : Nat)

/-- The scalars of the kept texts. -/
def floats (texts : List String) : Option (List F) := texts.mapM fun text => lib.scalar text p

theorem entryFloat_mapM {elements : List Json} {texts : List String}
    (h : elements.mapM Json.asString = some texts) :
    elements.mapM (entryFloat lib p) = floats lib p texts := by
  induction elements generalizing texts with
  | nil =>
    cases h
    rfl
  | cons element elements ih =>
    rw [List.mapM_cons] at h
    obtain ⟨text, htext, h⟩ := bind_some h
    obtain ⟨rest, hrest, h⟩ := bind_some h
    cases h
    have hright : floats lib p (text :: rest) = (lib.scalar text p).bind fun x =>
        (floats lib p rest).bind fun xs => some (x :: xs) := by
      rw [floats, List.mapM_cons]
      rfl
    rw [List.mapM_cons, ih hrest, entryFloat, htext, hright]
    rfl

theorem mapM_some_length {α β : Type} {f : α → Option β} {elements : List α} {texts : List β}
    (h : elements.mapM f = some texts) : texts.length = elements.length := by
  induction elements generalizing texts with
  | nil =>
    cases h
    rfl
  | cons element elements ih =>
    rw [List.mapM_cons] at h
    obtain ⟨text, htext, h⟩ := bind_some h
    obtain ⟨rest, hrest, h⟩ := bind_some h
    cases h
    rw [List.length_cons, List.length_cons, ih hrest]

/-- Counted, the sequence is exactly the elements. -/
theorem entrySequence_eq {tree : Json} {texts : List String} (h : stringEntries tree = some texts) :
    entrySequence lib texts.length p tree = floats lib p texts := by
  cases tree with
  | array elements =>
    have hlength : elements.length = texts.length := (mapM_some_length h).symm
    have hguard : guardThat (elements.length = texts.length) = some () := guardThat_pos hlength
    have htake : elements.take texts.length = elements :=
      List.take_of_length_le (Nat.le_of_eq hlength)
    rw [entrySequence, htake, entryFloat_mapM lib p h, hguard]
    cases floats lib p texts <;> rfl
  | _ => cases h

/-- After the entries are met no member changes them. -/
theorem matrixMember_found {fields fields' : Fields (List String)}
    {members : List (Option String × Json)}
    (h : members.foldlM (decodeMember stringEntries) fields = some fields') {texts : List String}
    (hfound : fields.entries = some texts) (found : List F) (count : Nat) :
    fields'.entries = some texts ∧ members.foldlM (matrixMember lib count p)
    (some found) = some (some found) := by
  induction members generalizing fields with
  | nil =>
    cases h
    exact ⟨hfound, rfl⟩
  | cons member members ih =>
    rw [List.foldlM_cons] at h
    obtain ⟨next, hnext, h⟩ := bind_some h
    obtain ⟨key, hkey, ⟨-, hnone, -⟩ | ⟨hother, hsame⟩⟩ := decodeMember_entries hnext
    · rw [hfound] at hnone
      cases hnone
    · have hstep : matrixMember lib count p (some found) member = some (some found) := by
        simp [matrixMember, hkey, hother]
      obtain ⟨hentries, hrest⟩ := ih h (hsame.trans hfound)
      rw [List.foldlM_cons, hstep]
      exact ⟨hentries, hrest⟩

/-- The typed visitor meets the entries exactly where the derived visitor does. -/
theorem matrixMember_foldlM {fields fields' : Fields (List String)}
    {members : List (Option String × Json)}
    (h : members.foldlM (decodeMember stringEntries) fields = some fields') {texts : List String}
    (hbefore : fields.entries = none) (hafter : fields'.entries = some texts) :
    members.foldlM (matrixMember lib texts.length p) none = (floats lib p texts).map some := by
  induction members generalizing fields with
  | nil =>
    cases h
    rw [hbefore] at hafter
    cases hafter
  | cons member members ih =>
    rw [List.foldlM_cons] at h ⊢
    obtain ⟨next, hnext, h⟩ := bind_some h
    obtain ⟨key, hkey, ⟨rfl, -, met, hmet, hnow⟩ | ⟨hother, hsame⟩⟩ := decodeMember_entries hnext
    · obtain ⟨hsame, -⟩ := matrixMember_found lib p h hnow [] 0
      obtain rfl : met = texts := Option.some.inj (hsame.symm.trans hafter)
      have hstep : matrixMember lib met.length p none member = (floats lib p met).map some := by
        simp [matrixMember, hkey, once, entrySequence_eq lib p hmet]
      rw [hstep]
      cases floats lib p met with
      | none => rfl
      | some found => exact (matrixMember_found lib p h hnow found met.length).2
    · have hstep : matrixMember lib texts.length p none member = some none := by
        simp [matrixMember, hkey, hother]
      rw [hstep]
      exact ih h (hsame.trans hbefore)

/-- On a document that the counting pass reads, the typed pass reads the counted entries. -/
theorem matrixEntries_eq {tree : Json} {payload : Payload (List String)}
    (h : decodeStruct stringEntries tree = some payload) :
    matrixEntries lib payload.entries.length p tree = floats lib p payload.entries := by
  unfold decodeStruct at h
  split at h
  · obtain ⟨fields, hfields, h⟩ := bind_some h
    obtain ⟨schema, hschema, h⟩ := bind_some h
    obtain ⟨lambda, hlambda, h⟩ := bind_some h
    obtain ⟨modes, hmodes, h⟩ := bind_some h
    obtain ⟨precision, hprecision, h⟩ := bind_some h
    obtain ⟨texts, htexts, h⟩ := bind_some h
    cases h
    rw [matrixEntries, matrixMember_foldlM lib p hfields rfl htexts]
    cases floats lib p texts <;> rfl
  · obtain ⟨schema, hschema, h⟩ := bind_some h
    obtain ⟨lambda, hlambda, h⟩ := bind_some h
    obtain ⟨modes, hmodes, h⟩ := bind_some h
    obtain ⟨precision, hprecision, h⟩ := bind_some h
    obtain ⟨texts, htexts, h⟩ := bind_some h
    cases h
    exact entrySequence_eq lib p htexts
  · cases h

end

theorem countStruct_iff {tree : Json} {metadata : Payload Nat}
    (h : decodeStruct countEntries tree = some metadata) :
    ∃ payload, decodeStruct stringEntries tree = some payload ∧ payload.entries.length =
      metadata.entries ∧
      payload.schemaVersion = metadata.schemaVersion ∧ payload.lambdaSquared =
        metadata.lambdaSquared ∧
      payload.nModes = metadata.nModes ∧ payload.precisionBits = metadata.precisionBits := by
  rw [countEntries_eq, decodeStruct_bind] at h
  obtain ⟨payload, hpayload, h⟩ := bind_some h
  refine ⟨payload, hpayload, ?_⟩
  rw [Payload.bindEntries, countOf] at h
  split at h
  · cases h
    exact ⟨rfl, rfl, rfl, rfl, rfl⟩
  · cases h

theorem countStruct_of {tree : Json} {payload : Payload (List String)}
    (h : decodeStruct stringEntries tree = some payload)
    (hcount : payload.entries.length < 2 ^ 64) :
    decodeStruct countEntries tree = some
      ⟨payload.schemaVersion, payload.lambdaSquared, payload.nModes, payload.precisionBits,
        payload.entries.length⟩ := by
  rw [countEntries_eq, decodeStruct_bind, h, Option.bind_some, Payload.bindEntries, countOf,
    if_pos hcount]
  rfl

/-! ## Against the reference -/

section
variable {F : Type} {lib : Library F}

theorem reference_of_passes {b : Bytes} {tree : Json} {metadata : Payload Nat} {dimension : Nat}
    {entries : List F}
    (htree : lib.json b = some tree) (hmetadata : decodeStruct countEntries tree = some metadata)
    (hshape : retainedMatrixShape metadata.nModes metadata.precisionBits metadata.entries =
      some dimension)
    (hcutoff : guardCutoff metadata.lambdaSquared = some ()) (hschema : metadata.schemaVersion = 2)
    (hentries : matrixEntries lib metadata.entries metadata.precisionBits tree = some entries) :
    reference lib b = some ⟨metadata.lambdaSquared, metadata.nModes, metadata.precisionBits,
      dimension, entries⟩ := by
  obtain ⟨payload, hpayload, hcount, hversion, hlambda, hmodes, hprecision⟩ :=
    countStruct_iff hmetadata
  rw [← hcount, matrixEntries_eq lib metadata.precisionBits hpayload, ← hprecision,
    floats] at hentries
  have hguard : guardThat (payload.schemaVersion = 2) = some () :=
    guardThat_pos (hversion.trans hschema)
  rw [← hcount, ← hmodes, ← hprecision] at hshape
  rw [← hlambda] at hcutoff
  simp only [reference, Option.bind_eq_bind, htree, hpayload, hshape, hcutoff, hguard, hentries,
    Option.bind_some, Option.pure_def, ← hlambda, ← hmodes, ← hprecision]

theorem shape_count {modes p entries dimension : Nat}
    (h : retainedMatrixShape modes p entries = some dimension) :
    entries < 2 ^ 64 := by
  rw [retainedMatrixShape] at h
  split at h
  · rename_i hshape
    obtain ⟨-, -, hmodes, rfl⟩ := hshape
    calc (2 * modes + 1) * (2 * modes + 1) ≤ 16385 * 16385 := Nat.mul_le_mul (by omega) (by omega)
      _ < 2 ^ 64 := by norm_num
  · cases h

theorem passes_of_reference {b : Bytes} {m : DecodedMatrix F} (h : reference lib b = some m) :
    ∃ tree metadata, lib.json b = some tree ∧ decodeStruct countEntries tree = some metadata ∧
      retainedMatrixShape metadata.nModes metadata.precisionBits metadata.entries =
        some m.dimension ∧
      guardCutoff metadata.lambdaSquared = some () ∧ metadata.schemaVersion = 2 ∧
      matrixEntries lib metadata.entries metadata.precisionBits tree = some m.entries ∧
      metadata.entries = m.entries.length ∧ metadata.lambdaSquared = m.cutoff ∧
      metadata.nModes = m.modes ∧
      metadata.precisionBits = m.precision := by
  obtain ⟨tree, htree, h⟩ := bind_some h
  obtain ⟨payload, hpayload, h⟩ := bind_some h
  obtain ⟨dimension, hshape, h⟩ := bind_some h
  obtain ⟨u, hcutoff, h⟩ := bind_some h
  obtain ⟨v, hguard, h⟩ := bind_some h
  obtain ⟨entries, hentries, h⟩ := bind_some h
  cases h
  refine ⟨tree, _, htree, countStruct_of hpayload (shape_count hshape), hshape, hcutoff,
    guardThat_iff.mp hguard, ?_, (mapM_some_length hentries).symm, rfl, rfl, rfl⟩
  rw [matrixEntries_eq lib payload.precisionBits hpayload]
  exact hentries

end

end Xcelerator.Spectral.MatrixDecode
