import Mathlib.Data.List.TakeWhile
import SimpleBlockchain.JsonParser

/-!
# Writing and reading JSON

The parser reads back what the writer wrote, for values whose strings consist
of characters that both escape alike. The one difference that remains is that
an integer above `0xffffffff` comes back as a string, since it was quoted.
-/

namespace SimpleBlockchain

/-- The characters whose escapes, if any, the parser knows. -/
def Plain (c : Char) : Prop := 32 ≤ c.toNat ∨ c = '\t' ∨ c = '\n' ∨ c = '\r'

def Delimited (rest : Str) : Prop := ∀ c, rest.head? = some c → c = ',' ∨ c = ']' ∨ c = '}'

/-- The values that survive, with a bound on their nesting. -/
inductive Storable : ℕ → Variant → Prop
  | null (k) : Storable k .null
  | bool (k b) : Storable k (.bool b)
  | uint64 (k n) : Storable k (.uint64 n)
  | string (k s) : (∀ c ∈ s, Plain c) → Storable k (.string s)
  | array (k a) : (∀ v ∈ a, Storable k v) → Storable (k + 1) (.array a)
  | object (k o) : (∀ e ∈ o, ∀ c ∈ e.1, Plain c) → (∀ e ∈ o, Storable k e.2) →
      Storable (k + 1) (.object o)

mutual

def reread : Variant → Variant
  | .null => .null
  | .int64 i => .int64 i
  | .uint64 n => if 0xffffffff < n then .string (decimal n.toNat) else .uint64 n
  | .double text => .double text
  | .bool b => .bool b
  | .string s => .string s
  | .array a => .array (rereadElems a)
  | .object o => .object (rereadEntries o)

def rereadElems : List Variant → List Variant
  | [] => []
  | v :: a => reread v :: rereadElems a

def rereadEntries : List (Str × Variant) → List (Str × Variant)
  | [] => []
  | (key, v) :: o => (key, reread v) :: rereadEntries o

end

/-! ## Strings -/

theorem toNat_of_isAlphanum {c : Char} (h : c.isAlphanum) : 48 ≤ c.toNat ∧ c.toNat ≠ 92 := by
  have hc : c.toNat = c.val.toNat := rfl
  have hranges : ((decide (c.val ≥ 65 ∧ c.val ≤ 90) ||
      (decide (c.val ≥ 97) && decide (c.val ≤ 122))) ||
      (decide (c.val ≥ 48) && decide (c.val ≤ 57))) = true := h
  simp [UInt32.le_iff_toNat_le] at hranges
  omega

theorem Plain.of_isAlphanum {c : Char} (h : c.isAlphanum) : Plain c :=
  Or.inl (by have := toNat_of_isAlphanum h; omega)

theorem ne_of_toNat {c d : Char} (h : c.toNat ≠ d.toNat) : c ≠ d :=
  fun hcd => h (congrArg Char.toNat hcd)

theorem escapeChar_of_ge {c : Char} (h : 32 ≤ c.toNat) (hq : c ≠ '"') (hb : c ≠ '\\') :
    escapeChar c = [c] := by
  have hn : ∀ d : Char, d.toNat < 32 → c ≠ d := fun d hd => ne_of_toNat (by omega)
  rw [escapeChar, if_neg (by omega), if_neg (by omega), if_neg (hn _ (by decide)),
    if_neg (hn _ (by decide)), if_neg (hn _ (by decide)), if_neg hb, if_neg hq,
    if_neg (by omega)]

theorem escapeChar_of_isAlphanum {c : Char} (h : c.isAlphanum) : escapeChar c = [c] := by
  have hn := toNat_of_isAlphanum h
  refine escapeChar_of_ge (by omega) (ne_of_toNat ?_) (ne_of_toNat hn.2)
  rw [show '"'.toNat = 34 from rfl]
  omega

theorem flatMap_escapeChar {s : Str} (h : ∀ c ∈ s, c.isAlphanum) : s.flatMap escapeChar = s := by
  induction s with
  | nil => rfl
  | cons c s ih =>
      rw [List.forall_mem_cons] at h
      rw [List.flatMap_cons, escapeChar_of_isAlphanum h.1, ih h.2]
      rfl

theorem stringBody_quote (rest : Str) : stringBody ('"' :: rest) = .ok ([], rest) := by
  rw [stringBody.eq_def]
  rfl

theorem stringBody_escaped (e : Char) {s token rest : Str}
    (h : stringBody s = .ok (token, rest)) :
    stringBody ('\\' :: e :: s) = .ok (unescape e :: token, rest) := by
  rw [stringBody.eq_def]
  simp [h]

theorem stringBody_cons {c : Char} (hn : 32 ≤ c.toNat) (hb : c ≠ '\\') (hq : c ≠ '"')
    {s token rest : Str} (h : stringBody s = .ok (token, rest)) :
    stringBody (c :: s) = .ok (c :: token, rest) := by
  rw [stringBody.eq_def]
  simp only [if_neg hb, if_neg (show c.toNat ≠ 4 by omega), if_neg hq, h, ok_bind]

/-- The parser undoes the escapes of the writer. -/
theorem stringBody_escape {s : Str} (hs : ∀ c ∈ s, Plain c) (rest : Str) :
    stringBody (s.flatMap escapeChar ++ '"' :: rest) = .ok (s, rest) := by
  induction s with
  | nil => exact stringBody_quote rest
  | cons c s ih =>
      rw [List.forall_mem_cons] at hs
      rw [List.flatMap_cons, List.append_assoc]
      have ih := ih hs.2
      by_cases hb : c = '\\'
      · subst hb
        exact stringBody_escaped '\\' ih
      by_cases hq : c = '"'
      · subst hq
        exact stringBody_escaped '"' ih
      rcases hs.1 with hn | rfl | rfl | rfl
      · rw [escapeChar_of_ge hn hq hb]
        exact stringBody_cons hn hb hq ih
      · exact stringBody_escaped 't' ih
      · exact stringBody_escaped 'n' ih
      · exact stringBody_escaped 'r' ih

theorem skipWhiteSpace_of_ne {c : Char} (h : 32 < c.toNat) (s : Str) :
    skipWhiteSpace (c :: s) = .ok (false, c :: s) := by
  have hn : ∀ d : Char, d.toNat ≤ 32 → c ≠ d := fun d hd => ne_of_toNat (by omega)
  rw [skipWhiteSpace, if_neg, if_neg (by omega)]
  rintro (h | h | h | h) <;> exact hn _ (by decide) h

/-! ## Numbers and words -/

theorem decimal_isDigit {n : ℕ} : ∀ c ∈ decimal n, c.isDigit :=
  fun _ hc => Nat.isDigit_of_mem_toDigits (by decide) (by decide) hc

theorem isAlphanum_of_isDigit {c : Char} (h : c.isDigit) : c.isAlphanum := by
  simp [Char.isAlphanum, h]

theorem Delimited.not_isAlphanum {rest : Str} (h : Delimited rest) :
    rest.head?.any Char.isAlphanum = false := by
  cases rest with
  | nil => rfl
  | cons c rest => rcases h c rfl with rfl | rfl | rfl <;> rfl

theorem numberBody_digits {ds : Str} (hds : ∀ c ∈ ds, c.isDigit) {rest : Str}
    (hr : Delimited rest) : numberBody false (ds ++ rest) = .ok (ds, false, rest) := by
  induction ds with
  | nil =>
      cases rest with
      | nil => rfl
      | cons c rest => rcases hr c rfl with rfl | rfl | rfl <;> rfl
  | cons c ds ih =>
      rw [List.forall_mem_cons] at hds
      have hdot : c ≠ '.' := by
        rintro rfl
        exact absurd hds.1 (by decide)
      rw [List.cons_append, numberBody, if_neg hdot, if_pos hds.1, ih hds.2]
      rfl

theorem numberFromStream_decimal {P : Platform} (hP : P.BoostExact) (n : UInt64) {rest : Str}
    (hr : Delimited rest) :
    numberFromStream P (decimal n.toNat ++ rest) = .ok (.uint64 n, rest) := by
  have hdig := decimal_isDigit (n := n.toNat)
  have hneg : ¬ (decimal n.toNat ++ rest).head? = some '-' := by
    cases h : decimal n.toNat with
    | nil => exact absurd h Nat.toDigits_ne_nil
    | cons c ds =>
        rintro ⟨⟩
        exact absurd (hdig _ (by rw [h]; exact List.mem_cons_self)) (by decide)
  have hword : ∀ s : Str, (∃ c ∈ s, c.isDigit = false) → decimal n.toNat ≠ s := by
    rintro s ⟨c, hc, hcd⟩ rfl
    simp [hdig c hc] at hcd
  have hcast : toUInt64 P (decimal n.toNat) = .ok n := by rw [toUInt64, hP.cast_inverse]
  simp only [numberFromStream, if_neg hneg, numberBody_digits hdig hr, ok_bind,
    hr.not_isAlphanum, Bool.false_eq_true, if_false]
  rw [if_neg (by
    rintro (h | h | h)
    · exact hword _ ⟨'.', by decide, by decide⟩ h
    · exact hword _ ⟨'.', by decide, by decide⟩ h
    · exact hword _ ⟨'-', by decide, by decide⟩ h), hcast]
  rfl

theorem tokenFromStream_word (word : Str) {rest : Str} (hw : ∀ c ∈ word, isTokenChar c)
    (hr : Delimited rest) :
    (word ++ rest).takeWhile isTokenChar = word ∧ (word ++ rest).dropWhile isTokenChar = rest := by
  have hrest : rest.takeWhile isTokenChar = [] ∧ rest.dropWhile isTokenChar = rest := by
    cases rest with
    | nil => exact ⟨rfl, rfl⟩
    | cons c rest => rcases hr c rfl with rfl | rfl | rfl <;> exact ⟨rfl, rfl⟩
  rw [List.takeWhile_append_of_pos hw, List.dropWhile_append_of_pos hw, hrest.1, hrest.2,
    List.append_nil]
  exact ⟨rfl, rfl⟩

theorem tokenFromStream_null {rest : Str} (hr : Delimited rest) :
    tokenFromStream ("null".toList ++ rest) = (.null, rest) := by
  have h := tokenFromStream_word "null".toList (forall_mem_of_all (by decide)) hr
  rw [tokenFromStream, h.1, h.2]
  rfl

theorem tokenFromStream_bool (b : Bool) {rest : Str} (hr : Delimited rest) :
    tokenFromStream (boolText b ++ rest) = (.bool b, rest) := by
  have hword : ∀ c ∈ boolText b, isTokenChar c := by
    cases b <;> exact forall_mem_of_all (by decide)
  have h := tokenFromStream_word (boolText b) hword hr
  rw [tokenFromStream, h.1, h.2]
  cases b <;> rfl

/-! ## Values -/

section Values

variable {P : Platform}

/-- The text of `v` is read back at depth `d`, whatever follows it. -/
def Reads (P : Platform) (d : UInt32) (v : Variant) : Prop :=
  ∀ fuel rest, 2 * (toStream P v).length < fuel → Delimited rest →
    variantFromStream P fuel d (toStream P v ++ rest) = .ok (reread v, rest)

theorem toStream_head {k : ℕ} {v : Variant} (h : Storable k v) :
    ∃ c s, toStream P v = c :: s ∧ 32 < c.toNat ∧ c ≠ ',' ∧ c ≠ ']' := by
  cases h with
  | null => exact ⟨'n', _, rfl, by decide⟩
  | bool k b => cases b <;> exact ⟨_, _, rfl, by decide⟩
  | uint64 k n =>
      by_cases hn : 0xffffffff < n
      · exact ⟨'"', _, by rw [toStream, if_pos hn]; rfl, by decide⟩
      · cases hd : decimal n.toNat with
        | nil => exact absurd hd Nat.toDigits_ne_nil
        | cons c ds =>
            have hc : c.isDigit := decimal_isDigit c (by rw [hd]; exact List.mem_cons_self)
            have hge := toNat_of_isAlphanum (isAlphanum_of_isDigit hc)
            refine ⟨c, ds, by rw [toStream, if_neg hn, hd], by omega, ?_, ?_⟩
            · rintro rfl
              exact absurd hc (by decide)
            · rintro rfl
              exact absurd hc (by decide)
  | string k s => exact ⟨'"', _, by rw [toStream, escapeString]; rfl, by decide⟩
  | array k a => exact ⟨'[', _, by rw [toStream], by decide⟩
  | object k o => exact ⟨'{', _, by rw [toStream], by decide⟩

theorem variantFromStream_string {fuel : ℕ} {d : UInt32} (hd : d ≠ 0) {s token rest : Str}
    (h : stringBody s = .ok (token, rest)) :
    variantFromStream P (fuel + 1) d ('"' :: s) = .ok (.string token, rest) := by
  simp [variantFromStream, hd, skipWhiteSpace_of_ne, h]

theorem variantFromStream_number {fuel : ℕ} {d : UInt32} (hd : d ≠ 0) {c : Char}
    (hc : c.isDigit) (s : Str) :
    variantFromStream P (fuel + 1) d (c :: s) = numberFromStream P (c :: s) := by
  have hge := toNat_of_isAlphanum (isAlphanum_of_isDigit hc)
  have hne : ∀ e : Char, e.isDigit = false → c ≠ e := by
    rintro e he rfl
    simp [hc] at he
  simp [variantFromStream, hd, skipWhiteSpace_of_ne (show 32 < c.toNat by omega), hc,
    hne '"' rfl, hne '{' rfl, hne '[' rfl]

theorem variantFromStream_minus {fuel : ℕ} {d : UInt32} (hd : d ≠ 0) (s : Str) :
    variantFromStream P (fuel + 1) d ('-' :: s) = numberFromStream P ('-' :: s) := by
  simp [variantFromStream, hd, skipWhiteSpace_of_ne]

theorem variantFromStream_word {fuel : ℕ} {d : UInt32} (hd : d ≠ 0) {c : Char}
    (hc : c = 'n' ∨ c = 't' ∨ c = 'f') (s : Str) :
    variantFromStream P (fuel + 1) d (c :: s) = .ok (tokenFromStream (c :: s)) := by
  rcases hc with rfl | rfl | rfl <;>
    simp [variantFromStream, hd, skipWhiteSpace_of_ne, Char.isDigit]

theorem variantFromStream_array {fuel : ℕ} {d : UInt32} (hd : d ≠ 0) {c : Char}
    (hc : 32 < c.toNat) {s rest : Str} {a : List Variant}
    (h : arrayFromStream P fuel (d - 1) (c :: s) = .ok (a, rest)) :
    variantFromStream P (fuel + 1) d ('[' :: c :: s) = .ok (.array a, rest) := by
  simp [variantFromStream, hd, skipWhiteSpace_of_ne, hc, h]

theorem variantFromStream_object {fuel : ℕ} {d : UInt32} (hd : d ≠ 0) {s rest : Str}
    {o : List (Str × Variant)} (h : objectFromStream P fuel (d - 1) s = .ok (o, rest)) :
    variantFromStream P (fuel + 1) d ('{' :: s) = .ok (.object o, rest) := by
  simp [variantFromStream, hd, skipWhiteSpace_of_ne, h, catchEof]

theorem toStreamElems_cons (v w : Variant) (a : List Variant) :
    toStreamElems P (v :: w :: a) = toStream P v ++ ',' :: toStreamElems P (w :: a) :=
  toStreamElems.eq_3 P v (w :: a) (List.cons_ne_nil w a)

theorem toStreamEntries_cons (key : Str) (v : Variant) (e : Str × Variant)
    (o : List (Str × Variant)) : toStreamEntries P ((key, v) :: e :: o) =
      escapeString key ++ ':' :: toStream P v ++ ',' :: toStreamEntries P (e :: o) :=
  toStreamEntries.eq_3 P key v (e :: o) (List.cons_ne_nil e o)

theorem arrayFromStream_value {fuel : ℕ} {d : UInt32} {c e : Char} {s s' rest : Str}
    {v : Variant} {a : List Variant} (hc : 32 < c.toNat) (hcomma : c ≠ ',') (hend : c ≠ ']')
    (he : 32 < e.toNat) (hv : variantFromStream P fuel (d - 1) (c :: s) = .ok (v, e :: s'))
    (ha : arrayFromStream P fuel d (e :: s') = .ok (a, rest)) :
    arrayFromStream P (fuel + 1) d (c :: s) = .ok (v :: a, rest) := by
  simp [arrayFromStream, hend, hcomma, skipWhiteSpace_of_ne hc, skipWhiteSpace_of_ne he, hv, ha]

theorem arrayFromStream_elems {d : UInt32} {a : List Variant}
    (ha : ∀ v ∈ a, Reads P (d - 1) v ∧
      ∃ c s, toStream P v = c :: s ∧ 32 < c.toNat ∧ c ≠ ',' ∧ c ≠ ']')
    (fuel : ℕ) (rest : Str) (hf : 2 * (toStreamElems P a).length ≤ fuel) :
    arrayFromStream P fuel d (toStreamElems P a ++ rest) = .ok (rereadElems a, rest) := by
  induction a generalizing fuel with
  | nil =>
      obtain ⟨fuel, rfl⟩ : ∃ f, fuel = f + 1 := ⟨fuel - 1, by simp [toStreamElems] at hf; omega⟩
      simp [toStreamElems, arrayFromStream, rereadElems]
  | cons v a ih =>
      rw [List.forall_mem_cons] at ha
      obtain ⟨hv, c, s, hs, hc, hcomma, hend⟩ := ha.1
      cases a with
      | nil =>
          simp only [toStreamElems, List.length_append, List.length_singleton] at hf
          obtain ⟨fuel, rfl⟩ : ∃ f, fuel = f + 2 := ⟨fuel - 2, by omega⟩
          have hread := hv (fuel + 1) (']' :: rest) (by omega) (by rintro c ⟨⟩; simp)
          rw [hs] at hread
          rw [toStreamElems, hs, List.append_assoc]
          apply arrayFromStream_value hc hcomma hend (by decide) hread
          simp [arrayFromStream, rereadElems]
      | cons w a =>
          simp only [toStreamElems, List.length_append, List.length_cons] at hf
          obtain ⟨fuel, rfl⟩ : ∃ f, fuel = f + 2 := ⟨fuel - 2, by omega⟩
          have hread := hv (fuel + 1) (',' :: toStreamElems P (w :: a) ++ rest) (by omega)
            (by rintro c ⟨⟩; simp)
          rw [hs] at hread
          rw [toStreamElems_cons, hs, List.append_assoc, rereadElems]
          apply arrayFromStream_value hc hcomma hend (by decide) hread
          have htail := ih ha.2 fuel (by omega)
          simpa [arrayFromStream] using htail

theorem objectFromStream_entry {fuel : ℕ} {d : UInt32} {key s s' rest : Str} {v : Variant}
    {o : List (Str × Variant)} (hkey : ∀ c ∈ key, Plain c)
    (hv : variantFromStream P fuel (d - 1) s = .ok (v, s'))
    (ho : objectFromStream P fuel d s' = .ok (o, rest)) :
    objectFromStream P (fuel + 1) d (escapeString key ++ ':' :: s) =
      .ok ((key, v) :: o, rest) := by
  have hbody := stringBody_escape hkey (':' :: s)
  simp only [escapeString, List.cons_append, List.append_assoc, List.nil_append]
  simp [objectFromStream, skipWhiteSpace_of_ne, stringFromStream, hbody, hv, ho]

theorem objectFromStream_entries {d : UInt32} {o : List (Str × Variant)}
    (hk : ∀ e ∈ o, ∀ c ∈ e.1, Plain c) (ho : ∀ e ∈ o, Reads P (d - 1) e.2)
    (fuel : ℕ) (rest : Str) (hf : 2 * (toStreamEntries P o).length ≤ fuel) :
    objectFromStream P fuel d (toStreamEntries P o ++ rest) = .ok (rereadEntries o, rest) := by
  induction o generalizing fuel with
  | nil =>
      obtain ⟨fuel, rfl⟩ : ∃ f, fuel = f + 1 := ⟨fuel - 1, by simp [toStreamEntries] at hf; omega⟩
      simp [toStreamEntries, objectFromStream, rereadEntries]
  | cons e o ih =>
      obtain ⟨key, v⟩ := e
      rw [List.forall_mem_cons] at hk ho
      cases o with
      | nil =>
          simp only [toStreamEntries, List.length_append, List.length_cons,
            List.length_nil] at hf
          obtain ⟨fuel, rfl⟩ : ∃ f, fuel = f + 2 := ⟨fuel - 2, by omega⟩
          have hread := ho.1 (fuel + 1) ('}' :: rest) (by simp only; omega) (by rintro c ⟨⟩; simp)
          rw [toStreamEntries, List.append_assoc, List.append_assoc, List.cons_append]
          apply objectFromStream_entry hk.1 hread
          simp [objectFromStream, rereadEntries]
      | cons w o =>
          simp only [toStreamEntries, List.length_append, List.length_cons] at hf
          obtain ⟨fuel, rfl⟩ : ∃ f, fuel = f + 2 := ⟨fuel - 2, by omega⟩
          have hread := ho.1 (fuel + 1) (',' :: toStreamEntries P (w :: o) ++ rest)
            (by simp only; omega) (by rintro c ⟨⟩; simp)
          rw [toStreamEntries_cons, List.append_assoc, List.append_assoc, List.cons_append,
            rereadEntries]
          apply objectFromStream_entry hk.1 hread
          have htail := ih hk.2 ho.2 fuel (by omega)
          simpa [objectFromStream] using htail

theorem UInt32.toNat_sub_one {d : UInt32} (h : 1 ≤ d.toNat) : (d - 1).toNat = d.toNat - 1 := by
  rw [UInt32.toNat_sub_of_le _ _ (by rwa [UInt32.le_iff_toNat_le])]
  rfl

theorem toStreamElems_head {a : List Variant}
    (ha : ∀ v ∈ a, ∃ c s, toStream P v = c :: s ∧ 32 < c.toNat ∧ c ≠ ',' ∧ c ≠ ']') :
    ∃ c s, toStreamElems P a = c :: s ∧ 32 < c.toNat := by
  cases a with
  | nil => exact ⟨']', [], by rw [toStreamElems], by decide⟩
  | cons v a =>
      obtain ⟨c, s, hs, hc, _⟩ := ha v List.mem_cons_self
      cases a with
      | nil => exact ⟨c, _, by rw [toStreamElems, hs]; rfl, hc⟩
      | cons w a => exact ⟨c, _, by rw [toStreamElems_cons, hs]; rfl, hc⟩

theorem Reads.of_succ {d : UInt32} {v : Variant}
    (h : ∀ fuel rest, 2 * (toStream P v).length ≤ fuel → Delimited rest →
      variantFromStream P (fuel + 1) d (toStream P v ++ rest) = .ok (reread v, rest)) :
    Reads P d v := by
  intro fuel rest hf hr
  obtain ⟨fuel, rfl⟩ : ∃ f, fuel = f + 1 := ⟨fuel - 1, by omega⟩
  exact h fuel rest (by omega) hr

theorem reads_uint64 (hP : P.BoostExact) {d : UInt32} (hd : d ≠ 0) (n : UInt64) :
    Reads P d (.uint64 n) := by
  apply Reads.of_succ
  intro fuel rest _ hr
  by_cases hn : 0xffffffff < n
  · have hdig : ∀ c ∈ decimal n.toNat, c.isAlphanum :=
      fun c hc => isAlphanum_of_isDigit (decimal_isDigit c hc)
    have hbody := stringBody_escape (fun c hc => .of_isAlphanum (hdig c hc)) rest
    rw [flatMap_escapeChar hdig] at hbody
    rw [toStream, if_pos hn, hP.cast_string, reread, if_pos hn, List.cons_append,
      List.cons_append, List.append_assoc]
    exact variantFromStream_string hd hbody
  · rw [toStream, if_neg hn, reread, if_neg hn, ← numberFromStream_decimal hP n hr]
    cases hdec : decimal n.toNat with
    | nil => exact absurd hdec Nat.toDigits_ne_nil
    | cons c ds =>
        have hc : c.isDigit := decimal_isDigit c (by rw [hdec]; exact List.mem_cons_self)
        exact variantFromStream_number hd hc _

theorem ne_zero_of_toNat {n : ℕ} {d : UInt32} (h : n < d.toNat) : d ≠ 0 := by
  rintro rfl
  exact Nat.not_lt_zero _ h

/-- Every storable value is read back at a depth of more than twice its nesting. -/
theorem reads_toStream (hP : P.BoostExact) {k : ℕ} {v : Variant} (h : Storable k v) {d : UInt32}
    (hd : 2 * k < d.toNat) : Reads P d v := by
  induction h generalizing d with
  | null k =>
      apply Reads.of_succ
      intro fuel rest _ hr
      rw [reread, ← tokenFromStream_null hr]
      exact variantFromStream_word (ne_zero_of_toNat hd) (.inl rfl) _
  | bool k b =>
      apply Reads.of_succ
      intro fuel rest _ hr
      rw [reread, ← tokenFromStream_bool b hr]
      cases b with
      | false => exact variantFromStream_word (ne_zero_of_toNat hd) (.inr (.inr rfl)) _
      | true => exact variantFromStream_word (ne_zero_of_toNat hd) (.inr (.inl rfl)) _
  | uint64 k n => exact reads_uint64 hP (ne_zero_of_toNat hd) n
  | string k s hs =>
      apply Reads.of_succ
      intro fuel rest _ _
      rw [toStream, escapeString, reread, List.cons_append, List.cons_append, List.append_assoc]
      exact variantFromStream_string (ne_zero_of_toNat hd) (stringBody_escape hs rest)
  | array k a ha ih =>
      apply Reads.of_succ
      intro fuel rest hf _
      have hd₁ : (d - 1).toNat = d.toNat - 1 := UInt32.toNat_sub_one (by omega)
      have hd₂ : (d - 1 - 1).toNat = d.toNat - 2 := by rw [UInt32.toNat_sub_one] <;> omega
      have helems := arrayFromStream_elems (d := d - 1) (fun v hv =>
        ⟨ih v hv (by omega), toStream_head (ha v hv)⟩) fuel rest
        (by simp only [toStream, List.length_cons] at hf; omega)
      obtain ⟨c, s, hs, hc⟩ := toStreamElems_head fun v hv => toStream_head (ha v hv)
      rw [toStream, reread, hs]
      rw [hs] at helems
      exact variantFromStream_array (ne_zero_of_toNat hd) hc helems
  | object k o hk ho ih =>
      apply Reads.of_succ
      intro fuel rest hf _
      have hd₁ : (d - 1).toNat = d.toNat - 1 := UInt32.toNat_sub_one (by omega)
      have hd₂ : (d - 1 - 1).toNat = d.toNat - 2 := by rw [UInt32.toNat_sub_one] <;> omega
      have hentries := objectFromStream_entries (d := d - 1) hk (fun e he => ih e he (by omega))
        fuel rest (by simp only [toStream, List.length_cons] at hf; omega)
      rw [toStream, reread]
      exact variantFromStream_object (ne_zero_of_toNat hd) hentries

theorem fromString_toStream (hP : P.BoostExact) {k : ℕ} {v : Variant} (h : Storable k v)
    (hk : k < 100) : fromString P (toStream P v) = .ok (reread v) := by
  have hread := reads_toStream hP h (d := defaultMaxDepth)
    (show 2 * k < 200 by omega) (2 * (toStream P v).length + 1) [] (Nat.lt_succ_self _)
    (by rintro c ⟨⟩)
  rw [List.append_nil] at hread
  rw [fromString, hread]
  rfl

/-! ## The characters of the text -/

theorem forall_toStreamElems {p : Char → Prop} (hsep : p ',') (hend : p ']') {a : List Variant}
    (ha : ∀ v ∈ a, ∀ c ∈ toStream P v, p c) : ∀ c ∈ toStreamElems P a, p c := by
  induction a with
  | nil => simpa [toStreamElems] using hend
  | cons v a ih =>
      rw [List.forall_mem_cons] at ha
      cases a with
      | nil =>
          rw [toStreamElems]
          exact List.forall_mem_append.2 ⟨ha.1, by simpa using hend⟩
      | cons w a =>
          rw [toStreamElems_cons]
          exact List.forall_mem_append.2 ⟨ha.1, List.forall_mem_cons.2 ⟨hsep, ih ha.2⟩⟩

theorem forall_toStreamEntries {p : Char → Prop} (hcolon : p ':') (hsep : p ',') (hend : p '}')
    {o : List (Str × Variant)} (hk : ∀ e ∈ o, ∀ c ∈ escapeString e.1, p c)
    (ho : ∀ e ∈ o, ∀ c ∈ toStream P e.2, p c) : ∀ c ∈ toStreamEntries P o, p c := by
  induction o with
  | nil => simpa [toStreamEntries] using hend
  | cons e o ih =>
      obtain ⟨key, v⟩ := e
      rw [List.forall_mem_cons] at hk ho
      have hentry : ∀ c ∈ escapeString key ++ ':' :: toStream P v, p c :=
        List.forall_mem_append.2 ⟨hk.1, List.forall_mem_cons.2 ⟨hcolon, ho.1⟩⟩
      cases o with
      | nil =>
          rw [toStreamEntries]
          exact List.forall_mem_append.2 ⟨hentry, by simpa using hend⟩
      | cons w o =>
          rw [toStreamEntries_cons]
          exact List.forall_mem_append.2
            ⟨hentry, List.forall_mem_cons.2 ⟨hsep, ih hk.2 ho.2⟩⟩

/-- No control character, in particular no NUL and nothing that a terminal or a
C string would cut. -/
def Printable (s : Str) : Prop := ∀ c ∈ s, 32 ≤ c.toNat

instance (s : Str) : Decidable (Printable s) :=
  decidable_of_iff (s.all (fun c => decide (32 ≤ c.toNat)) = true) (by simp [Printable])

theorem Printable.append {s t : Str} (hs : Printable s) (ht : Printable t) :
    Printable (s ++ t) := by
  intro c hc
  rcases List.mem_append.1 hc with hc | hc
  · exact hs c hc
  · exact ht c hc

theorem Printable.cons {c : Char} (hc : 32 ≤ c.toNat) {s : Str} (hs : Printable s) :
    Printable (c :: s) :=
  List.forall_mem_cons.2 ⟨hc, hs⟩

theorem printable_of_isAlphanum {s : Str} (h : ∀ c ∈ s, c.isAlphanum) : Printable s :=
  fun c hc => by have := toNat_of_isAlphanum (h c hc); omega

theorem printable_escapeChar {c : Char} (hc : Plain c) : Printable (escapeChar c) := by
  rcases hc with hn | rfl | rfl | rfl
  · by_cases hb : c = '\\'
    · subst hb
      decide
    by_cases hq : c = '"'
    · subst hq
      decide
    rw [escapeChar_of_ge hn hq hb]
    exact .cons hn (by decide)
  all_goals decide

theorem printable_escapeString {s : Str} (hs : ∀ c ∈ s, Plain c) : Printable (escapeString s) := by
  have hbody : Printable (s.flatMap escapeChar) := by
    intro d hd
    obtain ⟨c, hc, hd⟩ := List.mem_flatMap.1 hd
    exact printable_escapeChar (hs c hc) d hd
  unfold escapeString
  exact .append (.cons (by decide) hbody) (by decide)

theorem printable_toStream (hP : P.BoostExact) {k : ℕ} {v : Variant} (h : Storable k v) :
    Printable (toStream P v) := by
  induction h with
  | null k =>
      rw [toStream]
      decide
  | bool k b =>
      rw [toStream]
      cases b <;> decide
  | uint64 k n =>
      have hdig : Printable (decimal n.toNat) :=
        printable_of_isAlphanum fun c hc => isAlphanum_of_isDigit (decimal_isDigit c hc)
      rw [toStream, hP.cast_string]
      split
      · exact .append (.cons (by decide) hdig) (by decide)
      · exact hdig
  | string k s hs =>
      rw [toStream]
      exact printable_escapeString hs
  | array k a ha ih =>
      rw [toStream]
      exact .cons (by decide) (forall_toStreamElems (by decide) (by decide) ih)
  | object k o hk ho ih =>
      rw [toStream]
      exact .cons (by decide) (forall_toStreamEntries (by decide) (by decide) (by decide)
        (fun e he => printable_escapeString (hk e he)) ih)

end Values

end SimpleBlockchain
