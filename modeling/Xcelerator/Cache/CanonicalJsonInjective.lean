import Mathlib
import Xcelerator.Foundations.Machine
import Xcelerator.Cache.CanonicalJson
import Xcelerator.Foundations.SelfDelimiting

/-! # Canonical JSON determines its value

The canonical text is read back in one way only, so equal bytes are equal
values, and the two canonical writers give one text. Floats are told apart by
their bits, as their texts are. -/

namespace Xcelerator.Cache.CanonicalJson
open Xcelerator.Core.ConfigResolution
  (Value Number Fields Encoding canonicalJson canonicalValues canonicalFields)
open Xcelerator.Foundations.Machine Xcelerator.Foundations.SelfDelimiting

/-! ## Strings -/

def hexValue (c : Char) : Nat := if c.toNat < 58 then c.toNat - 48 else c.toNat - 87

/-- The first character of an escaped text, and the rest. -/
def unescape : List Char → Option (Char × List Char)
  | [] => none
  | c :: rest =>
    if c = '\\' then
      match rest with
      | 'b' :: rest => some (Char.ofNat 8, rest)
      | 't' :: rest => some (Char.ofNat 9, rest)
      | 'n' :: rest => some (Char.ofNat 10, rest)
      | 'f' :: rest => some (Char.ofNat 12, rest)
      | 'r' :: rest => some (Char.ofNat 13, rest)
      | 'u' :: '0' :: '0' :: a :: b :: rest =>
        some (Char.ofNat (16 * hexValue a + hexValue b), rest)
      | d :: rest => some (d, rest)
      | [] => none
    else some (c, rest)

theorem unescape_control {n : Nat} (hn : n < 32) (rest : List Char) :
    unescape ((escape (Char.ofNat n)).toList ++ rest) = some (Char.ofNat n, rest) := by
  interval_cases n <;> rfl

theorem unescape_escape (c : Char) (rest : List Char) :
    unescape ((escape c).toList ++ rest) = some (c, rest) := by
  by_cases hlow : c.toNat < 32
  · have h := unescape_control hlow rest
    rwa [Char.ofNat_toNat] at h
  · by_cases hquote : c = '"'
    · subst hquote
      rfl
    by_cases hslash : c = '\\'
    · subst hslash
      rfl
    unfold escape
    rw [if_neg hquote, if_neg hslash, if_neg (by omega), if_neg (by omega), if_neg (by omega),
      if_neg (by omega),
      if_neg (by omega), if_neg hlow, String.toList_ofList, List.singleton_append]
    simp [unescape, hslash]

theorem escape_head (c : Char) : ∃ d rest, (escape c).toList = d :: rest ∧ d ≠ '"' := by
  unfold escape
  by_cases hquote : c = '"'
  · rw [if_pos hquote]
    exact ⟨'\\', ['"'], rfl, by decide⟩
  rw [if_neg hquote]
  split
  · exact ⟨'\\', ['\\'], rfl, by decide⟩
  split
  · exact ⟨'\\', ['b'], rfl, by decide⟩
  split
  · exact ⟨'\\', ['t'], rfl, by decide⟩
  split
  · exact ⟨'\\', ['n'], rfl, by decide⟩
  split
  · exact ⟨'\\', ['f'], rfl, by decide⟩
  split
  · exact ⟨'\\', ['r'], rfl, by decide⟩
  split
  · refine ⟨'\\', _, by rw [String.toList_append]; rfl, by decide⟩
  · exact ⟨c, [], by rw [String.toList_ofList], hquote⟩

theorem escaped_unique {a b r s : List Char}
    (h : a.flatMap (fun c => (escape c).toList) ++ '"' :: r =
    b.flatMap (fun c => (escape c).toList) ++ '"' :: s) : a = b ∧ r = s := by
  induction a generalizing b with
  | nil =>
    cases b with
    | nil => exact ⟨rfl, (List.cons.inj h).2⟩
    | cons d b =>
      obtain ⟨e, rest, hescape, hne⟩ := escape_head d
      rw [List.flatMap_nil, List.flatMap_cons, hescape] at h
      exact absurd (List.cons.inj h).1.symm hne
  | cons c a ih =>
    cases b with
    | nil =>
      obtain ⟨e, rest, hescape, hne⟩ := escape_head c
      rw [List.flatMap_nil, List.flatMap_cons, hescape] at h
      exact absurd (List.cons.inj h).1 hne
    | cons d b =>
      rw [List.flatMap_cons, List.flatMap_cons, List.append_assoc, List.append_assoc] at h
      have hread := congrArg unescape h
      rw [unescape_escape, unescape_escape, Option.some.injEq, Prod.mk.injEq] at hread
      obtain ⟨rfl, hrest⟩ := ih hread.2
      exact ⟨by rw [hread.1], hrest⟩

theorem quoted_toList (text : String) :
    (quoted text).toList = '"' :: (text.toList.flatMap (fun c => (escape c).toList) ++ ['"']) := by
  simp [quoted]

theorem quoted_unique {a b : String} {r s : List Char}
    (h : (quoted a).toList ++ r = (quoted b).toList ++ s) :
    a = b ∧ r = s := by
  rw [quoted_toList, quoted_toList, List.cons_append, List.cons_append, List.append_assoc,
    List.append_assoc] at h
  obtain ⟨htext, hrest⟩ := escaped_unique (List.cons.inj h).2
  exact ⟨String.toList_inj.mp htext, hrest⟩

/-! ## Numbers -/

def isFinite (bits : UInt64) : Bool := (bits >>> 52) &&& 0x7ff != 0x7ff

/-- The numbers `serde_json` holds. -/
def NumberValid : Number → Prop
  | .posInt n => n < 2 ^ 64
  | .negInt z => -2 ^ 63 ≤ z ∧ z < 0
  | .float bits => isFinite bits = true

def numberChar (c : Char) : Bool :=
  c.isDigit || c == '-' || c == '+' || c == '.' || c == 'e' || c == 'E'

/-- What the shortest round-tripping text of a finite float is known to be. -/
structure FloatFormat (floatText : UInt64 → String) : Prop where
  characters : ∀ bits, isFinite bits = true → ∀ c ∈ (floatText bits).toList, numberChar c = true
  marked : ∀ bits, isFinite bits = true → '.' ∈ (floatText bits).toList ∨
    'e' ∈ (floatText bits).toList
  distinct : ∀ a b, isFinite a = true → isFinite b = true → floatText a = floatText b → a = b

theorem integer_chars (z : Int) : ∀ c ∈ (toString z).toList, c.isDigit = true ∨ c = '-' := by
  intro c hc
  cases z with
  | ofNat n =>
    change c ∈ (toString n).toList at hc
    rw [show (toString n).toList = Nat.toDigits 10 n from Nat.toList_repr] at hc
    exact .inl (Nat.isDigit_of_mem_toDigits (by decide) (by decide) hc)
  | negSucc n =>
    change c ∈ ("-" ++ toString (n + 1)).toList at hc
    rw [String.toList_append, show (toString (n + 1)).toList =
      Nat.toDigits 10 (n + 1) from Nat.toList_repr] at hc
    rcases List.mem_append.mp hc with hc | hc
    · exact .inr (by simpa using hc)
    · exact .inl (Nat.isDigit_of_mem_toDigits (by decide) (by decide) hc)

section
variable {floatText : UInt64 → String}

/-- The integer a number holds. -/
def integerOf : Number → Option Int
  | .posInt n => some n
  | .negInt z => some z
  | .float _ => none

theorem numberText_integer {n : Number} {z : Int} (h : integerOf n = some z) :
    numberText floatText n = toString z := by
  cases n with
  | posInt n =>
    cases h
    rfl
  | negInt z =>
    cases h
    rfl
  | float bits => cases h

theorem integer_unmarked (z : Int) : '.' ∉ (toString z).toList ∧ 'e' ∉ (toString z).toList := by
  constructor <;> intro hmem <;> rcases integer_chars z _ hmem with h | h
    <;> exact absurd h (by decide)

theorem numberText_chars (hf : FloatFormat floatText) {n : Number} (hn : NumberValid n) :
    ∀ c ∈ (numberText floatText n).toList, numberChar c = true := by
  intro c hc
  cases hz : integerOf n with
  | some z =>
    rw [numberText_integer hz] at hc
    rcases integer_chars z c hc with h | rfl
    · simp [numberChar, h]
    · rfl
  | none =>
    cases n with
    | posInt n => cases hz
    | negInt z => cases hz
    | float bits => exact hf.characters bits hn c hc

theorem toString_injective {a b : Int} (h : toString a = toString b) : a = b := by
  have hparse := congrArg String.toInt? h
  simpa using hparse

theorem numberText_injective (hf : FloatFormat floatText) {m n : Number} (hm : NumberValid m)
    (hn : NumberValid n) (h : numberText floatText m = numberText floatText n) : m = n := by
  cases hx : integerOf m with
  | some x =>
    cases hy : integerOf n with
    | some y =>
      rw [numberText_integer hx, numberText_integer hy] at h
      have hxy := toString_injective h
      subst hxy
      -- the sign tells the two kinds of integers apart
      cases m with
      | posInt a =>
        cases n with
        | posInt b =>
          simp only [integerOf, Option.some.injEq] at hx hy
          have : a = b := by omega
          rw [this]
        | negInt b =>
          simp only [integerOf, Option.some.injEq] at hx hy
          have := hn.2
          omega
        | float bits => cases hy
      | negInt a =>
        cases n with
        | posInt b =>
          simp only [integerOf, Option.some.injEq] at hx hy
          have := hm.2
          omega
        | negInt b =>
          simp only [integerOf, Option.some.injEq] at hx hy
          rw [hx, hy]
        | float bits => cases hy
      | float bits => cases hx
    | none =>
      cases n with
      | posInt b => cases hy
      | negInt b => cases hy
      | float bits =>
        rw [numberText_integer hx] at h
        have hmark := hf.marked bits hn
        change toString x = floatText bits at h
        rw [← h] at hmark
        rcases hmark with hmark | hmark
        · exact absurd hmark (integer_unmarked x).1
        · exact absurd hmark (integer_unmarked x).2
  | none =>
    cases m with
    | posInt a => cases hx
    | negInt a => cases hx
    | float a =>
      cases hy : integerOf n with
      | some y =>
        rw [numberText_integer hy] at h
        have hmark := hf.marked a hm
        change floatText a = toString y at h
        rw [h] at hmark
        rcases hmark with hmark | hmark
        · exact absurd hmark (integer_unmarked y).1
        · exact absurd hmark (integer_unmarked y).2
      | none =>
        cases n with
        | posInt b => cases hy
        | negInt b => cases hy
        | float b =>
          rw [hf.distinct a b hm hn h]

end

/-! ## Values -/

/-- What `serde_json` holds: keys sorted at every depth, numbers in their ranges. -/
inductive WellFormed : Value → Prop where
  | null : WellFormed .null
  | bool (b : Bool) : WellFormed (.bool b)
  | number {n : Number} (h : NumberValid n) : WellFormed (.number n)
  | string (s : String) : WellFormed (.string s)
  | array {values : List Value} (h : ∀ v ∈ values, WellFormed v) : WellFormed (.array values)
  | object {fields : Fields} (keys : fields.Pairwise fun l r => l.1 < r.1)
      (h : ∀ f ∈ fields, WellFormed f.2) : WellFormed (.object fields)

section
variable (floatText : UInt64 → String)

def text (v : Value) : List Char := (writeCanonicalJson floatText v).toList

def fieldText (field : String × Value) : List Char :=
  (quoted field.1).toList ++ ':' :: text floatText field.2

theorem commaSeparated_toList {α : Type} (f : α → String) (xs : List α) :
    (commaSeparated (xs.map f)).toList = separated ',' (fun x => (f x).toList) xs := by
  cases xs with
  | nil => rfl
  | cons x xs =>
    induction xs generalizing x with
    | nil => simp [commaSeparated, separated, following]
    | cons y ys ih =>
      have hrest := ih y
      simp only [List.map_cons, commaSeparated, separated, following, List.flatMap_cons,
        String.toList_append] at hrest ⊢
      rw [hrest]
      simp

theorem writeValues_eq (values : List Value) :
    writeValues floatText values = values.map (writeCanonicalJson floatText) := by
  induction values with
  | nil => rfl
  | cons value rest ih => rw [writeValues, ih, List.map_cons]

theorem text_array (values : List Value) :
    text floatText (.array values) = '[' :: (separated ',' (text floatText) values ++ [']']) := by
  have hitems := commaSeparated_toList (writeCanonicalJson floatText) values
  rw [text, writeCanonicalJson, String.toList_append, String.toList_append, writeValues_eq, hitems]
  rfl

/-- Sorted keys stay where they are. -/
theorem sortedFields_eq {fields : Fields} (h : fields.Pairwise fun l r => l.1 < r.1) :
    ((writeFields floatText fields).insertionSort fun a b => a.1 ≤ b.1) =
      fields.map fun field => (field.1, writeCanonicalJson floatText field.2) := by
  rw [writeFields_eq]
  refine List.Pairwise.insertionSort_eq ?_
  rw [List.pairwise_map]
  exact h.imp fun hlt => le_of_lt hlt

theorem text_object {fields : Fields} (h : fields.Pairwise fun l r => l.1 < r.1) :
    text floatText (.object fields) =
      '{' :: (separated ',' (fieldText floatText) fields ++ ['}']) := by
  have hitems := commaSeparated_toList
    (fun field : String × Value => keyed (field.1, writeCanonicalJson floatText field.2)) fields
  have hfield : (fun field : String × Value =>
    (keyed (field.1, writeCanonicalJson floatText field.2)).toList) =
      fieldText floatText := by
    funext field
    simp [keyed, fieldText, text]
  rw [text, writeCanonicalJson, String.toList_append, String.toList_append,
    sortedFields_eq floatText h, List.map_map]
  change "\x7b".toList ++ (commaSeparated (fields.map fun field =>
    keyed (field.1, writeCanonicalJson floatText field.2))).toList ++ "\x7d".toList = _
  rw [hitems, hfield]
  rfl

/-- The kind of a value shows in its first character. -/
def kindOf : Value → Nat
  | .null => 0
  | .bool _ => 1
  | .number _ => 2
  | .string _ => 3
  | .array _ => 4
  | .object _ => 5

def kindOfChar (c : Char) : Nat :=
  if numberChar c then 2 else if c = 'n' then 0 else if c = 't' ∨ c = 'f' then 1 else
    if c = '"' then 3
  else if c = '[' then 4 else if c = '{' then 5 else 6

variable {floatText}

theorem numberText_ne_nil (hf : FloatFormat floatText) {n : Number} (hn : NumberValid n) :
    (numberText floatText n).toList ≠ [] := by
  cases hz : integerOf n with
  | some z =>
    rw [numberText_integer hz]
    cases z with
    | ofNat m =>
      change (toString m).toList ≠ []
      rw [show (toString m).toList = Nat.toDigits 10 m from Nat.toList_repr]
      exact Nat.toDigits_ne_nil
    | negSucc m =>
      change ("-" ++ toString (m + 1)).toList ≠ []
      simp
  | none =>
    cases n with
    | posInt m => cases hz
    | negInt z => cases hz
    | float bits =>
      intro hnil
      have hmark := hf.marked bits hn
      change (floatText bits).toList = [] at hnil
      rw [hnil] at hmark
      simp at hmark

theorem text_head (hf : FloatFormat floatText) {v : Value} (hv : WellFormed v) :
    ∃ c rest, text floatText v = c :: rest ∧ kindOfChar c = kindOf v := by
  cases hv with
  | null => exact ⟨'n', ['u', 'l', 'l'], by rw [text, writeCanonicalJson]; rfl, rfl⟩
  | bool b =>
    cases b with
    | false => exact ⟨'f', ['a', 'l', 's', 'e'], by rw [text, writeCanonicalJson]; rfl, rfl⟩
    | true => exact ⟨'t', ['r', 'u', 'e'], by rw [text, writeCanonicalJson]; rfl, rfl⟩
  | @number n hn =>
    obtain ⟨c, rest, hcons⟩ := List.exists_cons_of_ne_nil (numberText_ne_nil hf hn)
    refine ⟨c, rest, by rw [text, writeCanonicalJson]; exact hcons, ?_⟩
    exact if_pos (numberText_chars hf hn c (by rw [hcons]; exact List.mem_cons_self))
  | string s => exact ⟨'"', _, by rw [text, writeCanonicalJson]; exact quoted_toList s, rfl⟩
  | array h => exact ⟨'[', _, text_array floatText _, rfl⟩
  | object keys h => exact ⟨'{', _, text_object floatText keys, rfl⟩

/-- A value's text does not start with a mark that starts no value. -/
theorem text_first (hf : FloatFormat floatText) {v : Value} (hv : WellFormed v) {closing : Char}
    (hclosing : kindOfChar closing = 6) : ∃ c rest, text floatText v = c :: rest ∧ c ≠ closing := by
  obtain ⟨c, rest, htext, hkind⟩ := text_head hf hv
  refine ⟨c, rest, htext, fun heq => ?_⟩
  rw [heq, hclosing] at hkind
  cases v <;> cases hkind

theorem kindOf_eq (hf : FloatFormat floatText) {v w : Value} (hv : WellFormed v) (hw : WellFormed w)
    {r s : List Char}
    (h : text floatText v ++ r = text floatText w ++ s) : kindOf v = kindOf w := by
  obtain ⟨c, rest, hc, hkind⟩ := text_head hf hv
  obtain ⟨d, rest', hd, hkind'⟩ := text_head hf hw
  rw [hc, hd, List.cons_append, List.cons_append] at h
  rw [← hkind, ← hkind', (List.cons.inj h).1]

theorem reads_field {key : String} {v : Value}
    (hv : Reads numberChar (text floatText) WellFormed v) :
    Reads numberChar (fieldText floatText) (fun field => WellFormed field.2) (key, v) := by
  rintro ⟨key', w⟩ hw r s hr hs h
  simp only [fieldText, List.append_assoc, List.cons_append] at h
  obtain ⟨rfl, hrest⟩ := quoted_unique h
  obtain ⟨rfl, hrs⟩ := hv w hw r s hr hs (List.cons.inj hrest).2
  exact ⟨rfl, hrs⟩

/-- Every value is read in one way. -/
theorem reads_value (hf : FloatFormat floatText) {v : Value} (hv : WellFormed v) :
    Reads numberChar (text floatText) WellFormed v := by
  induction hv with
  | null =>
    intro w hw r s hr hs h
    have hkind := kindOf_eq hf .null hw h
    cases hw with
    | null => exact ⟨rfl, List.append_cancel_left h⟩
    | _ => cases hkind
  | bool b =>
    intro w hw r s hr hs h
    have hkind := kindOf_eq hf (.bool b) hw h
    cases hw with
    | bool b' =>
      simp only [text, writeCanonicalJson] at h
      cases b <;> cases b' <;> simp_all
    | _ => cases hkind
  | @number m hm =>
    intro w hw r s hr hs h
    have hkind := kindOf_eq hf (.number hm) hw h
    cases hw with
    | @number n hn =>
      simp only [text, writeCanonicalJson] at h
      obtain ⟨htext, hrs⟩ := run_unique (numberText_chars hf hm) (numberText_chars hf hn) hr hs h
      rw [numberText_injective hf hm hn (String.toList_inj.mp htext)]
      exact ⟨rfl, hrs⟩
    | _ => cases hkind
  | string a =>
    intro w hw r s hr hs h
    have hkind := kindOf_eq hf (.string a) hw h
    cases hw with
    | string b =>
      simp only [text, writeCanonicalJson] at h
      obtain ⟨rfl, hrs⟩ := quoted_unique h
      exact ⟨rfl, hrs⟩
    | _ => cases hkind
  | @array values hvalues ih =>
    intro w hw r s hr hs h
    have hkind := kindOf_eq hf (.array hvalues) hw h
    cases hw with
    | @array values' hvalues' =>
      rw [text_array, text_array, List.cons_append, List.cons_append, List.append_assoc,
        List.append_assoc] at h
      obtain ⟨rfl, hrs⟩ := separated_unique rfl (show numberChar ']' = false from rfl) (by decide)
        (fun x hx => text_first hf hx rfl)
        ih hvalues hvalues' (List.cons.inj h).2
      exact ⟨rfl, hrs⟩
    | _ => cases hkind
  | @object fields hkeys hfields ih =>
    intro w hw r s hr hs h
    have hkind := kindOf_eq hf (.object hkeys hfields) hw h
    cases hw with
    | @object fields' hkeys' hfields' =>
      rw [text_object floatText hkeys, text_object floatText hkeys', List.cons_append,
        List.cons_append, List.append_assoc, List.append_assoc] at h
      have hitems : ∀ f ∈ fields, Reads numberChar (fieldText floatText) (fun field =>
        WellFormed field.2) f :=
        fun f hmem => reads_field (ih f hmem)
      obtain ⟨rfl, hrs⟩ := separated_unique rfl (show numberChar '}' = false from rfl) (by decide)
        (fun f _ => ⟨'"', _, by rw [fieldText, quoted_toList]; rfl, by decide⟩) hitems hfields hfields'
        (List.cons.inj h).2
      exact ⟨rfl, hrs⟩
    | _ => cases hkind

/-! ## The other writer -/

theorem canonicalValues_eq {e : Encoding} {values : List Value}
    (h : ∀ v ∈ values, canonicalJson e v = .ok (writeCanonicalJson floatText v)) :
    canonicalValues e values = .ok (values.map (writeCanonicalJson floatText)) := by
  induction values with
  | nil => rw [canonicalValues, List.map_nil]
  | cons v values ih =>
    rw [canonicalValues, h v List.mem_cons_self, ok_bind, ih fun x hx =>
      h x (List.mem_cons_of_mem _ hx), ok_bind, List.map_cons]
    rfl

theorem canonicalFields_eq {e : Encoding} {fields : Fields}
    (hstring : ∀ s, e.stringText s = .ok (quoted s))
    (h : ∀ f ∈ fields, canonicalJson e f.2 = .ok (writeCanonicalJson floatText f.2)) :
    canonicalFields e fields = .ok (fields.map fun f =>
      keyed (f.1, writeCanonicalJson floatText f.2)) := by
  induction fields with
  | nil => rw [canonicalFields, List.map_nil]
  | cons f fields ih =>
    obtain ⟨key, v⟩ := f
    have hv : canonicalJson e v = .ok (writeCanonicalJson floatText v) :=
      h (key, v) List.mem_cons_self
    rw [canonicalFields, hstring, hv]
    change canonicalFields e fields >>= _ = _
    rw [ih fun x hx => h x (List.mem_cons_of_mem _ hx)]
    rfl

theorem commaSeparated_eq (texts : List String) : commaSeparated texts = ",".intercalate texts := by
  rw [← String.toList_inj, String.toList_intercalate]
  induction texts with
  | nil => rfl
  | cons first rest ih =>
    cases rest with
    | nil => simp [commaSeparated]
    | cons next rest =>
      change (first ++ "," ++ commaSeparated (next :: rest)).toList = _
      rw [String.toList_append, String.toList_append, ih]
      simp [List.intercalate]

/-- The configuration's canonical text is the cache's. -/
theorem canonicalJson_eq {e : Encoding} (hnumber : ∀ n, e.numberText n = numberText floatText n)
    (hstring : ∀ s, e.stringText s = .ok (quoted s)) {v : Value} (hv : WellFormed v) :
    canonicalJson e v = .ok (writeCanonicalJson floatText v) := by
  induction hv with
  | null => rw [canonicalJson, writeCanonicalJson]
  | bool b => rw [canonicalJson, writeCanonicalJson]
  | number hn => rw [canonicalJson, writeCanonicalJson, hnumber]
  | string s =>
    rw [canonicalJson, writeCanonicalJson, hstring]
    rfl
  | array hvalues ih =>
    rw [canonicalJson, canonicalValues_eq ih, ok_bind, writeCanonicalJson, writeValues_eq,
      commaSeparated_eq]
    rfl
  | object hkeys hfields ih =>
    rw [canonicalJson, canonicalFields_eq hstring ih, ok_bind, writeCanonicalJson,
      sortedFields_eq floatText hkeys, List.map_map, commaSeparated_eq]
    rfl

end

/-! ## Equality -/

theorem canonicalJsonBytes_ok {floatText : UInt64 → String} {v : Value} {bytes : ByteArray}
    (h : canonicalJsonBytes floatText v = .ok bytes) :
    bytes = (writeCanonicalJson floatText v).toUTF8 := by
  unfold canonicalJsonBytes at h
  split at h
  · cases h
  · cases h
    rfl

/-- **Canonical bytes.** Equal bytes are equal values, floats by their bits, and the configuration's
canonical text has the same bytes. -/
theorem canonicalJsonBytes_injective {floatText : UInt64 → String} (hf : FloatFormat floatText)
    {e : Encoding}
    (hnumber : ∀ n, e.numberText n = numberText floatText n)
    (hstring : ∀ s, e.stringText s = .ok (quoted s)) :
    (∀ v w bytes bytes', WellFormed v → WellFormed w → canonicalJsonBytes floatText v = .ok bytes →
      canonicalJsonBytes floatText w = .ok bytes' → (bytes = bytes' ↔ v = w)) ∧
    ∀ v bytes text, WellFormed v → canonicalJsonBytes floatText v = .ok bytes →
    canonicalJson e v = .ok text →
      bytes = text.toUTF8 := by
  constructor
  · intro v w bytes bytes' hv hw hbytes hbytes'
    constructor
    · intro h
      rw [canonicalJsonBytes_ok hbytes, canonicalJsonBytes_ok hbytes'] at h
      have htext : text floatText v ++ [] = text floatText w ++ [] := by
        rw [text, text, String.toByteArray_inj.mp h]
      exact (reads_value hf hv w hw [] [] (by simp [Stops]) (by simp [Stops]) htext).1
    · rintro rfl
      rw [hbytes] at hbytes'
      cases hbytes'
      rfl
  · intro v bytes text hv hbytes htext
    rw [canonicalJson_eq hnumber hstring hv] at htext
    cases htext
    exact canonicalJsonBytes_ok hbytes

/-! ## The equality of `serde_json` -/

def isZero (bits : UInt64) : Bool := bits <<< 1 == 0

/-- `==` of finite floats. -/
def floatEq (a b : UInt64) : Bool := a == b || (isZero a && isZero b)

def Number.eq : Number → Number → Bool
  | .posInt m, .posInt n => m == n
  | .negInt m, .negInt n => m == n
  | .float a, .float b => floatEq a b
  | _, _ => false

mutual
/-- `==` of values; maps are compared in key order. -/
def valueEq : Value → Value → Bool
  | .null, .null => true
  | .bool a, .bool b => a == b
  | .number m, .number n => Number.eq m n
  | .string a, .string b => a == b
  | .array values, .array values' => valuesEq values values'
  | .object fields, .object fields' => fieldsEq fields fields'
  | _, _ => false

def valuesEq : List Value → List Value → Bool
  | [], [] => true
  | v :: rest, w :: rest' => valueEq v w && valuesEq rest rest'
  | _, _ => false

def fieldsEq : List (String × Value) → List (String × Value) → Bool
  | [], [] => true
  | (k, v) :: rest, (k', w) :: rest' => k == k' && valueEq v w && fieldsEq rest rest'
  | _, _ => false
end

/-- A float text that is the real one at both zeros. -/
def sampleFloat (bits : UInt64) : String :=
  if bits = 0 then "0.0" else if bits = 0x8000000000000000 then "-0.0" else
    toString bits.toNat ++ "e0"

theorem sampleFloat_other {bits : UInt64} (hpos : bits ≠ 0) (hneg : bits ≠ 0x8000000000000000) :
    (sampleFloat bits).toList = Nat.toDigits 10 bits.toNat ++ ['e', '0'] := by
  rw [sampleFloat, if_neg hpos, if_neg hneg, String.toList_append,
    show (toString bits.toNat).toList = Nat.toDigits 10 bits.toNat from Nat.toList_repr]
  rfl

theorem sampleFloat_zero : (sampleFloat 0).toList = ['0', '.', '0'] := rfl

theorem sampleFloat_negZero : (sampleFloat 0x8000000000000000).toList = ['-', '0', '.', '0'] := rfl

theorem sampleFloat_cases (bits : UInt64) : bits = 0 ∨ bits = 0x8000000000000000 ∨
    (sampleFloat bits).toList = Nat.toDigits 10 bits.toNat ++ ['e', '0'] := by
  by_cases hpos : bits = 0
  · exact .inl hpos
  by_cases hneg : bits = 0x8000000000000000
  · exact .inr (.inl hneg)
  exact .inr (.inr (sampleFloat_other hpos hneg))

theorem sampleFloat_format : FloatFormat sampleFloat where
  characters bits _ c hc := by
    rcases sampleFloat_cases bits with rfl | rfl | htext
    · simp only [sampleFloat_zero, List.mem_cons, List.not_mem_nil, or_false] at hc
      rcases hc with rfl | rfl | rfl <;> rfl
    · simp only [sampleFloat_negZero, List.mem_cons, List.not_mem_nil, or_false] at hc
      rcases hc with rfl | rfl | rfl | rfl <;> rfl
    · rw [htext] at hc
      rcases List.mem_append.mp hc with hdigit | hmark
      · have hisDigit : c.isDigit = true :=
          Nat.isDigit_of_mem_toDigits (by decide) (by decide) hdigit
        simp [numberChar, hisDigit]
      · simp only [List.mem_cons, List.not_mem_nil, or_false] at hmark
        rcases hmark with rfl | rfl <;> rfl
  marked bits _ := by
    rcases sampleFloat_cases bits with rfl | rfl | htext
    · exact .inl (by rw [sampleFloat_zero]; decide)
    · exact .inl (by rw [sampleFloat_negZero]; decide)
    · rw [htext]
      exact .inr (by simp)
  distinct a b _ _ h := by
    have htexts := congrArg String.toList h
    -- only the zeros are written with a point
    have hpoint : ∀ bits : UInt64, '.' ∈ Nat.toDigits 10 bits.toNat ++ ['e', '0'] → False := by
      intro bits hmem
      rcases List.mem_append.mp hmem with hdigit | hmark
      · exact absurd (Nat.isDigit_of_mem_toDigits (by decide) (by decide) hdigit) (by decide)
      · exact absurd hmark (by decide)
    rcases sampleFloat_cases a with rfl | rfl | ha
    · rcases sampleFloat_cases b with rfl | rfl | hb
      · rfl
      · rw [sampleFloat_zero, sampleFloat_negZero] at htexts
        exact absurd htexts (by decide)
      · rw [sampleFloat_zero, hb] at htexts
        exact (hpoint b (by rw [← htexts]; decide)).elim
    · rcases sampleFloat_cases b with rfl | rfl | hb
      · rw [sampleFloat_zero, sampleFloat_negZero] at htexts
        exact absurd htexts (by decide)
      · rfl
      · rw [sampleFloat_negZero, hb] at htexts
        exact (hpoint b (by rw [← htexts]; decide)).elim
    · rcases sampleFloat_cases b with rfl | rfl | hb
      · rw [ha, sampleFloat_zero] at htexts
        exact (hpoint a (by rw [htexts]; decide)).elim
      · rw [ha, sampleFloat_negZero] at htexts
        exact (hpoint a (by rw [htexts]; decide)).elim
      · rw [ha, hb] at htexts
        have hdigits := congrArg (fun digits => Nat.ofDigitChars 10 digits 0)
          (List.append_cancel_right htexts)
        simp only [Nat.ofDigitChars_ten_toDigits] at hdigits
        exact UInt64.toNat_inj.mp hdigits

def sampleEncoding : Encoding where
  numberText := numberText sampleFloat
  stringText text := .ok (quoted text)
  sha256Hex := id
  debug := id

/-- An array under an escaped key, with an escaped text and a float. -/
def sampleDocument (bits : UInt64) : Value :=
  .object [("k\n", .array [.string "a\"\\", .number (.float bits)])]

theorem sampleDocument_wellFormed { bits : UInt64} (h : isFinite bits = true) :
    WellFormed (sampleDocument bits) := by
  refine .object (List.pairwise_singleton _ _) fun field hfield => ?_
  rw [List.mem_singleton.mp hfield]
  refine .array fun value hvalue => ?_
  rcases List.mem_pair.mp hvalue with rfl | rfl
  · exact .string _
  · exact .number h

/-- The bytes tell the two zeros apart, and are those of the configuration's text. -/
theorem canonicalJsonBytes_injective_zeros :
    ∃ bytes bytes' text, canonicalJsonBytes sampleFloat (sampleDocument 0) = .ok bytes ∧
      canonicalJsonBytes sampleFloat (sampleDocument 0x8000000000000000) = .ok bytes' ∧
      bytes ≠ bytes' ∧
      canonicalJson sampleEncoding (sampleDocument 0) = .ok text ∧ bytes = text.toUTF8 := by
  obtain ⟨hinjective, htext⟩ :=
    canonicalJsonBytes_injective sampleFloat_format (e := sampleEncoding) (fun _ => rfl) fun _ =>
      rfl
  have hzero : WellFormed (sampleDocument 0) := sampleDocument_wellFormed (by decide)
  have hnegative : WellFormed (sampleDocument 0x8000000000000000) :=
    sampleDocument_wellFormed (by decide)
  refine ⟨_, _, _, rfl, rfl, fun h => ?_, rfl, htext _ _ _ hzero rfl rfl⟩
  have hsame := (hinjective _ _ _ _ hzero hnegative rfl rfl).mp h
  simp [sampleDocument] at hsame

/-- The two zeros are equal values with different bytes. -/
theorem canonicalJsonBytes_zeros :
    valueEq (.number (.float 0)) (.number (.float 0x8000000000000000)) = true ∧
    canonicalJsonBytes sampleFloat (.number (.float 0)) = .ok "0.0".toUTF8 ∧
    canonicalJsonBytes sampleFloat (.number (.float 0x8000000000000000)) = .ok "-0.0".toUTF8 ∧
    "0.0".toUTF8 ≠ "-0.0".toUTF8 := by
  refine ⟨by decide, rfl, rfl, ?_⟩
  intro h
  exact absurd (String.toByteArray_inj.mp h) (by decide)

end Xcelerator.Cache.CanonicalJson
