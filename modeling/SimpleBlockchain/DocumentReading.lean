import SimpleBlockchain.JsonDocument
import SimpleBlockchain.StringEscapes
import SimpleBlockchain.ChainInvariant

/-!
# Which documents the parser reads

The parser finds its way through any layout. It gives up on documents that are nested too
deep: each array and each object takes two of the levels that it counts.
-/

namespace SimpleBlockchain

open JsonDocument JsonString

/-! ## What is read -/

/-- What the parser takes a number for. -/
def numberVariant (P : Platform) (n : Numeral) : Except Exn Variant :=
  if n.fraction.isSome then toDouble P n.text
  else if n.negative then (toInt64 P n.text).map .int64
  else (toUInt64 P n.text).map .uint64

section Variants

variable (P : Platform) (read : Item → Bytes)

mutual

/-- The variant of a document, if the items of its strings are read in this way. -/
def docVariant : Doc → Variant
  | .null => .null
  | .bool b => .bool b
  | .number n => (numberVariant P n).toOption.getD .null
  | .string items => .string (byteStr (items.flatMap read))
  | .array _ elems => .array (elemVariants elems)
  | .object _ members => .object (memberVariants members)

def elemVariants : Elems → List Variant
  | .nil => []
  | .cons _ v _ rest => docVariant v :: elemVariants rest

def memberVariants : Members → List (Str × Variant)
  | .nil => []
  | .cons _ key _ _ v _ rest =>
      (byteStr (key.flatMap read), docVariant v) :: memberVariants rest

end

end Variants

def InRange (P : Platform) (n : Numeral) : Prop := ∃ v, numberVariant P n = .ok v

def Readable (P : Platform) (d : Doc) : Prop := d.Forall (InRange P) fun _ => True

def ReadableElems (P : Platform) (elems : Elems) : Prop := elems.Forall (InRange P) fun _ => True

def ReadableMembers (P : Platform) (members : Members) : Prop :=
  members.Forall (InRange P) fun _ => True

/-- What may stand after a number or a word. -/
def Ends (rest : Str) : Prop := ∀ c, rest.head? = some c → c ≠ '.' ∧ c.isAlphanum = false

theorem ends_nil : Ends [] := fun _ hc => by cases hc

/-- What the parser says of a document that is nested too deep. -/
def tooNested : Exn := ⟨.parseError, "Too many nested items in JSON input!"⟩

/-- On a condition a parse has this result, and otherwise it runs out of levels. -/
structure ReadsIf {α : Type} (fits : Prop) (x : Except Exn (α × Str)) (a : α) (rest : Str) :
    Prop where
  ok : fits → x = .ok (a, rest)
  error : ¬ fits → x = .error tooNested

variable {P : Platform} {fuel : ℕ} {d : UInt32} {c : Char} {s rest : Str}

theorem ReadsIf.bind {α β : Type} {p q : Prop} {x : Except Exn (α × Str)} {a : α} {b : β}
    {r r' : Str} {f : α × Str → Except Exn (β × Str)} (hx : ReadsIf p x a r)
    (hf : p → ReadsIf q (f (a, r)) b r') : ReadsIf (p ∧ q) (x >>= f) b r' where
  ok h := by
    rw [hx.ok h.1, ok_bind, (hf h.1).ok h.2]
  error h := by
    by_cases hp : p
    · rw [hx.ok hp, ok_bind, (hf hp).error fun hq => h ⟨hp, hq⟩]
    · rw [hx.error hp, error_bind]

theorem ReadsIf.of_iff {α : Type} {p q : Prop} {x : Except Exn (α × Str)} {a : α} {r : Str}
    (h : ReadsIf p x a r) (hpq : p ↔ q) : ReadsIf q x a r where
  ok hq := h.ok (hpq.2 hq)
  error hq := h.error fun hp => hq (hpq.1 hp)

/-! ## White space -/

theorem skipWhiteSpace_blank (ws : Blank) (hc : 32 < c.toNat) (s : Str) :
    ∃ skipped, skipWhiteSpace (ws.chars ++ c :: s) = .ok (skipped, c :: s) ∧
      (skipped = false → ws.chars = []) := by
  obtain ⟨chars, hblank⟩ := ws
  induction chars with
  | nil => exact ⟨false, skipWhiteSpace_of_ne hc s, fun _ => rfl⟩
  | cons w chars ih =>
      rw [List.forall_mem_cons] at hblank
      obtain ⟨skipped, hskip, _⟩ := ih hblank.2
      refine ⟨true, ?_, fun h => by cases h⟩
      have hw : w = ' ' ∨ w = '\t' ∨ w = '\n' ∨ w = '\r' := hblank.1
      dsimp only at hskip ⊢
      rw [List.cons_append, skipWhiteSpace, if_pos hw, hskip, ok_bind]

theorem variantFromStream_blank (ws : Blank) (hc : 32 < c.toNat) (s : Str) :
    variantFromStream P fuel d (ws.chars ++ c :: s) = variantFromStream P fuel d (c :: s) := by
  obtain ⟨skipped, hskip, _⟩ := skipWhiteSpace_blank ws hc s
  cases fuel with
  | zero => rfl
  | succ fuel => rw [variantFromStream, variantFromStream, hskip, skipWhiteSpace_of_ne hc]; rfl

/-- With this bound on nested calls, one less gives the same. -/
theorem arrayFromStream_succ (h : 2 * s.length + 2 ≤ fuel) :
    arrayFromStream P (fuel + 1) d s = arrayFromStream P fuel d s :=
  ((fromStream_fuel_succ P fuel).2.2 d s h).symm

theorem objectFromStream_succ (h : 2 * s.length + 2 ≤ fuel) :
    objectFromStream P (fuel + 1) d s = objectFromStream P fuel d s :=
  ((fromStream_fuel_succ P fuel).2.1 d s h).symm

theorem blank_head {ws : Blank} {w : Char} {chars : Str} (h : ws.chars = w :: chars) :
    w ≠ ']' ∧ w ≠ '}' ∧ w ≠ ',' := by
  have hw : IsBlank w := ws.isBlank w (by rw [h]; exact List.mem_cons_self)
  rcases hw with rfl | rfl | rfl | rfl <;> decide

theorem skipped_of_cons {ws : Blank} {w : Char} {chars : Str} (hws : ws.chars = w :: chars)
    (hc : 32 < c.toNat) (s : Str) :
    skipWhiteSpace (w :: (chars ++ c :: s)) = .ok (true, c :: s) := by
  obtain ⟨skipped, hskip, hnil⟩ := skipWhiteSpace_blank ws hc s
  rw [hws, List.cons_append] at hskip
  cases skipped with
  | true => exact hskip
  | false =>
      rw [hnil rfl] at hws
      cases hws

theorem arrayFromStream_blank (ws : Blank) (hc : 32 < c.toNat)
    (hf : 2 * (ws.chars ++ c :: s).length + 2 ≤ fuel) :
    arrayFromStream P fuel d (ws.chars ++ c :: s) = arrayFromStream P fuel d (c :: s) := by
  cases hws : ws.chars with
  | nil => rfl
  | cons w chars =>
      obtain ⟨hclose, _, hcomma⟩ := blank_head hws
      rw [hws, List.cons_append, List.length_cons, List.length_append] at hf
      obtain ⟨fuel, rfl⟩ : ∃ f, fuel = f + 1 := ⟨fuel - 1, by omega⟩
      have hskip : arrayFromStream P (fuel + 1) d (w :: (chars ++ c :: s)) =
          arrayFromStream P fuel d (c :: s) := by
        simp [arrayFromStream, hclose, hcomma, skipped_of_cons hws hc s]
      rw [List.cons_append, hskip, arrayFromStream_succ (by omega)]

theorem objectFromStream_blank (ws : Blank) (hc : 32 < c.toNat)
    (hf : 2 * (ws.chars ++ c :: s).length + 2 ≤ fuel) :
    objectFromStream P fuel d (ws.chars ++ c :: s) = objectFromStream P fuel d (c :: s) := by
  cases hws : ws.chars with
  | nil => rfl
  | cons w chars =>
      obtain ⟨_, hclose, hcomma⟩ := blank_head hws
      rw [hws, List.cons_append, List.length_cons, List.length_append] at hf
      obtain ⟨fuel, rfl⟩ : ∃ f, fuel = f + 1 := ⟨fuel - 1, by omega⟩
      have hskip : objectFromStream P (fuel + 1) d (w :: (chars ++ c :: s)) =
          objectFromStream P fuel d (c :: s) := by
        simp [objectFromStream, hclose, hcomma, skipped_of_cons hws hc s]
      rw [List.cons_append, hskip, objectFromStream_succ (by omega)]

/-! ## The loops -/

theorem arrayFromStream_comma : arrayFromStream P (fuel + 1) d (',' :: s) =
    arrayFromStream P fuel d s := by
  simp [arrayFromStream]

theorem objectFromStream_comma : objectFromStream P (fuel + 1) d (',' :: s) =
    objectFromStream P fuel d s := by
  simp [objectFromStream]

theorem arrayFromStream_close : arrayFromStream P (fuel + 1) d (']' :: s) = .ok ([], s) := by
  simp [arrayFromStream]

theorem objectFromStream_close : objectFromStream P (fuel + 1) d ('}' :: s) = .ok ([], s) := by
  simp [objectFromStream]

theorem arrayFromStream_elem (hc : 32 < c.toNat) (hcomma : c ≠ ',') (hclose : c ≠ ']') :
    arrayFromStream P (fuel + 1) d (c :: s) =
      variantFromStream P fuel (d - 1) (c :: s) >>= fun r => skipWhiteSpace r.2 >>= fun w =>
        arrayFromStream P fuel d w.2 >>= fun a => .ok (r.1 :: a.1, a.2) := by
  simp [arrayFromStream, hcomma, hclose, skipWhiteSpace_of_ne hc]

theorem objectFromStream_member {key : Str} {s' s'' : Str} {skipped : Bool}
    (hkey : stringBody s = .ok (key, s')) (hskip : skipWhiteSpace s' = .ok (skipped, ':' :: s'')) :
    objectFromStream P (fuel + 1) d ('"' :: s) =
      variantFromStream P fuel (d - 1) s'' >>= fun r => objectFromStream P fuel d r.2 >>= fun o =>
        .ok ((key, r.1) :: o.1, o.2) := by
  simp [objectFromStream, skipWhiteSpace_of_ne, stringFromStream, hkey, hskip]

/-! ## Scalars -/

theorem numberBody_ends {dot : Bool} {ds : Str} (hds : ∀ c ∈ ds, c.isDigit) (hr : Ends rest) :
    numberBody dot (ds ++ rest) = .ok (ds, dot, rest) := by
  induction ds with
  | nil =>
      cases rest with
      | nil => rfl
      | cons c rest =>
          obtain ⟨hdot, halnum⟩ := hr c rfl
          have hdigit : c.isDigit = false := by
            rw [← Bool.not_eq_true]
            intro h
            rw [isAlphanum_of_isDigit h] at halnum
            cases halnum
          rw [List.nil_append, numberBody, if_neg hdot, if_neg (by simp [hdigit])]
  | cons c ds ih =>
      rw [List.forall_mem_cons] at hds
      have hdot : c ≠ '.' := by
        rintro rfl
        exact absurd hds.1 (by decide)
      rw [List.cons_append, numberBody, if_neg hdot, if_pos hds.1, ih hds.2]
      rfl

theorem numberBody_fraction {ds fs : Str} (hds : ∀ c ∈ ds, c.isDigit) (hfs : ∀ c ∈ fs, c.isDigit)
    (hr : Ends rest) :
    numberBody false (ds ++ '.' :: fs ++ rest) = .ok (ds ++ '.' :: fs, true, rest) := by
  induction ds with
  | nil =>
      rw [List.nil_append, List.cons_append, numberBody, if_pos rfl, if_neg Bool.false_ne_true,
        numberBody_ends hfs hr]
      rfl
  | cons c ds ih =>
      rw [List.forall_mem_cons] at hds
      have hdot : c ≠ '.' := by
        rintro rfl
        exact absurd hds.1 (by decide)
      rw [List.cons_append, List.cons_append, numberBody, if_neg hdot, if_pos hds.1, ih hds.2]
      rfl

theorem numberBody_numeral (n : Numeral) (hr : Ends rest) :
    numberBody false (n.body ++ rest) = .ok (n.body, n.fraction.isSome, rest) := by
  cases hfrac : n.fraction with
  | none =>
      rw [Numeral.body, hfrac, Option.elim_none, List.append_nil]
      exact numberBody_ends n.isDigit hr
  | some fs =>
      rw [Numeral.body, hfrac, Option.elim_some]
      exact numberBody_fraction n.isDigit (n.isDigit_fraction fs hfrac) hr

theorem numeral_ne (n : Numeral) {s : Str} (h : ∀ c ∈ s, c.isDigit = false) : n.text ≠ s := by
  rintro rfl
  obtain ⟨c, s, hbody, hc⟩ := n.body_head
  have hmem : c ∈ n.text := by
    rw [Numeral.text, hbody]
    split <;> simp
  rw [h c hmem] at hc
  cases hc

theorem numberFromStream_numeral (n : Numeral) (hr : Ends rest) :
    numberFromStream P (n.text ++ rest) = (numberVariant P n).map (·, rest) := by
  have halnum : rest.head?.any Char.isAlphanum = false := by
    cases rest with
    | nil => rfl
    | cons c rest => exact (hr c rfl).2
  have hword : ¬ (n.text = "-.".toList ∨ n.text = ".".toList ∨ n.text = "-".toList) := by
    rintro (h | h | h)
    · exact numeral_ne n (forall_mem_of_all (by decide)) h
    · exact numeral_ne n (forall_mem_of_all (by decide)) h
    · exact numeral_ne n (forall_mem_of_all (by decide)) h
  have hscan := numberBody_numeral n hr
  cases hneg : n.negative with
  | true =>
      have htext : n.text = '-' :: n.body := by rw [Numeral.text, if_pos hneg]
      simp only [numberFromStream, htext, List.cons_append, List.head?_cons, if_true,
        List.tail_cons, hscan, ok_bind, halnum, Bool.false_eq_true, if_false]
      rw [← htext, if_neg hword, numberVariant, hneg]
      cases n.fraction.isSome with
      | true => cases toDouble P n.text <;> rfl
      | false => cases toInt64 P n.text <;> rfl
  | false =>
      have htext : n.text = n.body := by rw [Numeral.text, hneg, if_neg Bool.false_ne_true]
      have hhead : ¬ (n.body ++ rest).head? = some '-' := by
        obtain ⟨c, s, hbody, hc⟩ := n.body_head
        rw [hbody]
        rintro ⟨⟩
        exact absurd hc (by decide)
      simp only [numberFromStream, htext, if_neg hhead, hscan, ok_bind, halnum,
        Bool.false_eq_true, if_false]
      rw [← htext, if_neg hword, numberVariant, hneg]
      cases n.fraction.isSome with
      | true => cases toDouble P n.text <;> rfl
      | false => cases toUInt64 P n.text <;> rfl

theorem isAlphanum_of_isTokenChar {c : Char} (h : isTokenChar c = true) : c.isAlphanum = true := by
  have hall : ∀ c ∈ "nultrefas".toList, c.isAlphanum = true := forall_mem_of_all (by decide)
  exact hall c (List.contains_iff_mem.1 h)

theorem tokenFromStream_ends {word : Str} (hw : ∀ c ∈ word, isTokenChar c) (hr : Ends rest) :
    (word ++ rest).takeWhile isTokenChar = word ∧ (word ++ rest).dropWhile isTokenChar = rest := by
  have hrest : rest.takeWhile isTokenChar = [] ∧ rest.dropWhile isTokenChar = rest := by
    cases rest with
    | nil => exact ⟨rfl, rfl⟩
    | cons c rest =>
        have hc : ¬ isTokenChar c = true := by
          intro h
          have halnum := (hr c rfl).2
          rw [isAlphanum_of_isTokenChar h] at halnum
          cases halnum
        exact ⟨List.takeWhile_cons_of_neg hc, List.dropWhile_cons_of_neg hc⟩
  rw [List.takeWhile_append_of_pos hw, List.dropWhile_append_of_pos hw, hrest.1, hrest.2,
    List.append_nil]
  exact ⟨rfl, rfl⟩

theorem variantFromStream_token (hd : d ≠ 0) {word : Str} {v : Variant}
    (hc : ∃ c s, word = c :: s ∧ (c = 'n' ∨ c = 't' ∨ c = 'f'))
    (hw : tokenFromStream (word ++ rest) = (v, rest)) :
    variantFromStream P (fuel + 1) d (word ++ rest) = .ok (v, rest) := by
  obtain ⟨c, s, rfl, hc⟩ := hc
  rw [List.cons_append] at hw ⊢
  rw [variantFromStream_word hd hc, hw]

theorem tokenFromStream_words (hr : Ends rest) :
    tokenFromStream ("null".toList ++ rest) = (.null, rest) ∧
    tokenFromStream ("true".toList ++ rest) = (.bool true, rest) ∧
    tokenFromStream ("false".toList ++ rest) = (.bool false, rest) := by
  refine ⟨?_, ?_, ?_⟩
  · have h := tokenFromStream_ends (forall_mem_of_all (by decide) :
      ∀ c ∈ "null".toList, isTokenChar c) hr
    rw [tokenFromStream, h.1, h.2]
    rfl
  · have h := tokenFromStream_ends (forall_mem_of_all (by decide) :
      ∀ c ∈ "true".toList, isTokenChar c) hr
    rw [tokenFromStream, h.1, h.2]
    rfl
  · have h := tokenFromStream_ends (forall_mem_of_all (by decide) :
      ∀ c ∈ "false".toList, isTokenChar c) hr
    rw [tokenFromStream, h.1, h.2]
    rfl

/-! ## The heads of texts -/

theorem docText_head (doc : Doc) :
    ∃ c s, doc.text = c :: s ∧ 32 < c.toNat ∧ c ≠ ',' ∧ c ≠ ']' := by
  cases doc with
  | null => exact ⟨'n', _, rfl, by decide⟩
  | bool b => cases b <;> exact ⟨_, _, rfl, by decide⟩
  | number n =>
      obtain ⟨c, s, hbody, hc⟩ := n.body_head
      cases hneg : n.negative with
      | true => exact ⟨'-', n.body, by rw [Doc.text, Numeral.text, if_pos hneg], by decide⟩
      | false =>
          have hge := toNat_of_isAlphanum (isAlphanum_of_isDigit hc)
          refine ⟨c, s, ?_, by omega, ?_, ?_⟩
          · rw [Doc.text, Numeral.text, hneg, if_neg Bool.false_ne_true, hbody]
          · rintro rfl
            exact absurd hc (by decide)
          · rintro rfl
            exact absurd hc (by decide)
  | string items => exact ⟨'"', _, rfl, by decide⟩
  | array inner elems => exact ⟨'[', _, rfl, by decide⟩
  | object inner members => exact ⟨'{', _, rfl, by decide⟩

theorem elemsText_head (elems : Elems) :
    ∃ (ws : Blank) (c : Char) (s : Str), elems.text = ws.chars ++ c :: s ∧ 32 < c.toNat := by
  cases elems with
  | nil => exact ⟨.none, ']', [], rfl, by decide⟩
  | cons before v after rest =>
      obtain ⟨c, s, hs, hc, _⟩ := docText_head v
      rw [Elems.text_cons, hs]
      exact ⟨before, c, _, rfl, hc⟩

theorem membersText_head (members : Members) :
    ∃ (ws : Blank) (c : Char) (s : Str), members.text = ws.chars ++ c :: s ∧ 32 < c.toNat := by
  cases members with
  | nil => exact ⟨.none, '}', [], rfl, by decide⟩
  | cons before key afterKey beforeValue v after rest =>
      rw [Members.text_cons]
      exact ⟨before, '"', _, rfl, by decide⟩

theorem ends_blank (ws : Blank) {c : Char} (hc : c = ',' ∨ c = ']' ∨ c = '}') (s : Str) :
    Ends (ws.chars ++ c :: s) := by
  intro e he
  cases hws : ws.chars with
  | nil =>
      rw [hws] at he
      cases he
      rcases hc with rfl | rfl | rfl <;> decide
  | cons w chars =>
      rw [hws] at he
      obtain rfl : e = w := (Option.some.inj he).symm
      have hw : IsBlank e := ws.isBlank e (by rw [hws]; exact List.mem_cons_self)
      rcases hw with rfl | rfl | rfl | rfl <;> decide

/-! ## Documents -/

theorem ReadsIf.map {α β : Type} {p : Prop} {x : Except Exn (α × Str)} {a : α} {r : Str}
    (h : ReadsIf p x a r) (g : α → β) :
    ReadsIf p (x >>= fun y => .ok (g y.1, y.2)) (g a) r where
  ok hp := by rw [h.ok hp, ok_bind]
  error hp := by rw [h.error hp, error_bind]

theorem ReadsIf.catchEof {α : Type} {p : Prop} {x : Except Exn (α × Str)} {a : α} {r : Str}
    (h : ReadsIf p x a r) : ReadsIf p (catchEof x) a r where
  ok hp := catchEof_eq_ok.2 (h.ok hp)
  error hp := by rw [h.error hp, SimpleBlockchain.catchEof, if_neg (by decide)]

theorem ReadsIf.of_ok {α : Type} {p : Prop} {x : Except Exn (α × Str)} {a : α} {r : Str}
    (h : x = .ok (a, r)) (hp : p) : ReadsIf p x a r where
  ok _ := h
  error hn := absurd hp hn

theorem variantFromStream_bracket (hd : d ≠ 0) : variantFromStream P (fuel + 1) d ('[' :: s) =
    (skipWhiteSpace s >>= fun w => arrayFromStream P fuel (d - 1) w.2 >>= fun a =>
      .ok (.array a.1, a.2)) := by
  simp [variantFromStream, hd, skipWhiteSpace_of_ne]

theorem variantFromStream_brace (hd : d ≠ 0) : variantFromStream P (fuel + 1) d ('{' :: s) =
    (catchEof (objectFromStream P fuel (d - 1) s) >>= fun o => .ok (.object o.1, o.2)) := by
  simp [variantFromStream, hd, skipWhiteSpace_of_ne]

theorem one_le_depth (doc : Doc) : 1 ≤ doc.depth := by
  cases doc <;> simp [Doc.depth]

theorem toNat_pred {d : UInt32} {n : ℕ} (h : d.toNat = n + 1) : (d - 1).toNat = n := by
  have h1 : (1 : UInt32) ≤ d := by
    rw [UInt32.le_iff_toNat_le, h]
    exact Nat.le_add_left 1 n
  rw [UInt32.toNat_sub_of_le _ _ h1, h]
  rfl

/-- At `2 * k` levels the document is read exactly if it is at most `k` deep. -/
def ReadsDoc (P : Platform) (k : ℕ) (doc : Doc) : Prop :=
  ∀ (fuel : ℕ) (d : UInt32) (rest : Str), d.toNat = 2 * k →
    2 * (doc.text ++ rest).length + 1 ≤ fuel → Ends rest →
    ReadsIf (doc.depth ≤ k) (variantFromStream P fuel d (doc.text ++ rest))
      (docVariant P ReadBack.read doc) rest

def ReadsElems (P : Platform) (k : ℕ) (elems : Elems) : Prop :=
  ∀ (fuel : ℕ) (d : UInt32) (rest : Str), d.toNat = 2 * k + 1 →
    2 * (elems.text ++ rest).length + 2 ≤ fuel →
    ReadsIf (elems.depth ≤ k) (arrayFromStream P fuel d (elems.text ++ rest))
      (elemVariants P ReadBack.read elems) rest

def ReadsMembers (P : Platform) (k : ℕ) (members : Members) : Prop :=
  ∀ (fuel : ℕ) (d : UInt32) (rest : Str), d.toNat = 2 * k + 1 →
    2 * (members.text ++ rest).length + 2 ≤ fuel →
    ReadsIf (members.depth ≤ k) (objectFromStream P fuel d (members.text ++ rest))
      (memberVariants P ReadBack.read members) rest

theorem readsDoc_zero (doc : Doc) : ReadsDoc P 0 doc := by
  intro fuel d rest hd hf _
  obtain ⟨fuel, rfl⟩ : ∃ f, fuel = f + 1 := ⟨fuel - 1, by omega⟩
  obtain rfl : d = 0 := UInt32.toNat.inj hd
  have hdepth := one_le_depth doc
  refine ⟨fun h => by omega, fun _ => ?_⟩
  rw [variantFromStream, if_pos rfl, tooNested]

theorem ReadsDoc.of_scalar {k : ℕ} {doc : Doc} (hdepth : doc.depth = 1)
    (h : ∀ (fuel : ℕ) (d : UInt32) (rest : Str), d ≠ 0 → Ends rest →
      variantFromStream P (fuel + 1) d (doc.text ++ rest) =
        .ok (docVariant P ReadBack.read doc, rest)) :
    ReadsDoc P (k + 1) doc := by
  intro fuel d rest hd hf hr
  obtain ⟨fuel, rfl⟩ : ∃ f, fuel = f + 1 := ⟨fuel - 1, by omega⟩
  exact ReadsIf.of_ok (h fuel d rest (ne_zero_of_toNat (n := 0) (by omega)) hr) (by omega)

theorem readsDoc_null {k : ℕ} : ReadsDoc P (k + 1) .null := by
  apply ReadsDoc.of_scalar rfl
  intro fuel d rest hd hr
  exact variantFromStream_token hd ⟨'n', _, rfl, Or.inl rfl⟩ (tokenFromStream_words hr).1

theorem readsDoc_bool {k : ℕ} (b : Bool) : ReadsDoc P (k + 1) (.bool b) := by
  apply ReadsDoc.of_scalar rfl
  intro fuel d rest hd hr
  cases b with
  | true =>
      exact variantFromStream_token hd ⟨'t', _, rfl, Or.inr (Or.inl rfl)⟩
        (tokenFromStream_words hr).2.1
  | false =>
      exact variantFromStream_token hd ⟨'f', _, rfl, Or.inr (Or.inr rfl)⟩
        (tokenFromStream_words hr).2.2

theorem readsDoc_number {k : ℕ} {n : Numeral} (hn : InRange P n) :
    ReadsDoc P (k + 1) (.number n) := by
  obtain ⟨v, hv⟩ := hn
  apply ReadsDoc.of_scalar rfl
  intro fuel d rest hd hr
  have hnum := numberFromStream_numeral (P := P) n hr
  rw [hv] at hnum
  have hscalar : variantFromStream P (fuel + 1) d (n.text ++ rest) =
      numberFromStream P (n.text ++ rest) := by
    obtain ⟨c, s, hbody, hc⟩ := n.body_head
    cases hneg : n.negative with
    | true =>
        rw [Numeral.text, if_pos hneg]
        exact variantFromStream_minus hd _
    | false =>
        rw [Numeral.text, hneg, if_neg Bool.false_ne_true, hbody]
        exact variantFromStream_number hd hc _
  rw [Doc.text, docVariant, hv, hscalar]
  exact hnum

theorem readsDoc_string {k : ℕ} (items : List Item) : ReadsDoc P (k + 1) (.string items) := by
  apply ReadsDoc.of_scalar rfl
  intro fuel d rest hd _
  have hbody := ReadBack.stringBody_items items rest
  rw [Doc.text, JsonDocument.quoted, docVariant, List.append_assoc, List.cons_append]
  exact variantFromStream_string hd hbody

theorem readsElems_nil {k : ℕ} : ReadsElems P k .nil := by
  intro fuel d rest _ hf
  obtain ⟨fuel, rfl⟩ : ∃ f, fuel = f + 1 := ⟨fuel - 1, by omega⟩
  exact ReadsIf.of_ok arrayFromStream_close (Nat.zero_le k)

theorem readsMembers_nil {k : ℕ} : ReadsMembers P k .nil := by
  intro fuel d rest _ hf
  obtain ⟨fuel, rfl⟩ : ∃ f, fuel = f + 1 := ⟨fuel - 1, by omega⟩
  exact ReadsIf.of_ok objectFromStream_close (Nat.zero_le k)

theorem ReadsElems.tail {k : ℕ} {elems : Elems} (h : ReadsElems P k elems)
    (hd : d.toNat = 2 * k + 1) (hf : 2 * (elems.tail ++ rest).length + 1 ≤ fuel) :
    ReadsIf (elems.depth ≤ k) (arrayFromStream P fuel d (elems.tail ++ rest))
      (elemVariants P ReadBack.read elems) rest := by
  obtain ⟨fuel, rfl⟩ : ∃ f, fuel = f + 1 := ⟨fuel - 1, by omega⟩
  cases elems with
  | nil => exact ReadsIf.of_ok arrayFromStream_close (Nat.zero_le k)
  | cons before v after more =>
      rw [Elems.tail, List.cons_append, List.length_cons] at hf
      · rw [Elems.tail, List.cons_append, arrayFromStream_comma]
        · exact h fuel d rest hd (by omega)
        · simp
      · simp

theorem ReadsMembers.tail {k : ℕ} {members : Members} (h : ReadsMembers P k members)
    (hd : d.toNat = 2 * k + 1) (hf : 2 * (members.tail ++ rest).length + 1 ≤ fuel) :
    ReadsIf (members.depth ≤ k) (objectFromStream P fuel d (members.tail ++ rest))
      (memberVariants P ReadBack.read members) rest := by
  obtain ⟨fuel, rfl⟩ : ∃ f, fuel = f + 1 := ⟨fuel - 1, by omega⟩
  cases members with
  | nil => exact ReadsIf.of_ok objectFromStream_close (Nat.zero_le k)
  | cons before key afterKey beforeValue v after more =>
      rw [Members.tail, List.cons_append, List.length_cons] at hf
      · rw [Members.tail, List.cons_append, objectFromStream_comma]
        · exact h fuel d rest hd (by omega)
        · simp
      · simp

theorem readsElems_cons {k : ℕ} (before : Blank) {v : Doc} (after : Blank) {more : Elems}
    (hv : ReadsDoc P k v) (hmore : ReadsElems P k more) :
    ReadsElems P k (.cons before v after more) := by
  intro fuel d rest hd hf
  obtain ⟨c, s, hs, hc, hcomma, hclose⟩ := docText_head v
  obtain ⟨e, s', hs', he⟩ := Elems.tail_head more
  have he32 : 32 < e.toNat := by rcases he with rfl | rfl <;> decide
  have htail : more.tail ++ rest = e :: (s' ++ rest) := by rw [hs', List.cons_append]
  have htext : (Elems.cons before v after more).text ++ rest =
      before.chars ++ c :: (s ++ (after.chars ++ (more.tail ++ rest))) := by
    rw [Elems.text_cons, hs]
    simp only [List.append_assoc, List.cons_append]
  have hhead : c :: (s ++ (after.chars ++ (more.tail ++ rest))) =
      v.text ++ (after.chars ++ (more.tail ++ rest)) := by rw [hs, List.cons_append]
  have hlen := congrArg List.length htext
  rw [htext] at hf ⊢
  rw [arrayFromStream_blank before hc hf]
  simp only [List.length_append, List.length_cons] at hf
  obtain ⟨fuel, rfl⟩ : ∃ f, fuel = f + 1 := ⟨fuel - 1, by omega⟩
  rw [arrayFromStream_elem hc hcomma hclose, hhead]
  obtain ⟨skipped, hskip, _⟩ := skipWhiteSpace_blank after he32 (s' ++ rest)
  have hread := hv fuel (d - 1) (after.chars ++ (more.tail ++ rest)) (toNat_pred hd)
    (by
      rw [← hhead]
      simp only [List.length_append, List.length_cons]
      omega)
    (by
      rw [htail]
      exact ends_blank after (he.elim Or.inl fun h => Or.inr (Or.inl h)) _)
  have hrest := (@ReadsElems.tail P fuel d rest k more hmore hd (by
    simp only [List.length_append]
    omega)).map (docVariant P ReadBack.read v :: ·)
  rw [← htail] at hskip
  apply (hread.bind (f := fun r => skipWhiteSpace r.2 >>= fun w =>
    arrayFromStream P fuel d w.2 >>= fun a => .ok (r.1 :: a.1, a.2)) fun _ => ?_).of_iff
  · rw [Elems.depth]
    exact Nat.max_le.symm
  · dsimp only
    rw [hskip, ok_bind]
    exact hrest

theorem readsMembers_cons {k : ℕ} (before : Blank) (key : List Item)
    (afterKey beforeValue : Blank) {v : Doc} (after : Blank) {more : Members}
    (hv : ReadsDoc P k v) (hmore : ReadsMembers P k more) :
    ReadsMembers P k (.cons before key afterKey beforeValue v after more) := by
  intro fuel d rest hd hf
  obtain ⟨c, s, hs, hc, _⟩ := docText_head v
  obtain ⟨e, s', hs', he⟩ := Members.tail_head more
  have he32 : 32 < e.toNat := by rcases he with rfl | rfl <;> decide
  have htail : more.tail ++ rest = e :: (s' ++ rest) := by rw [hs', List.cons_append]
  have htext : (Members.cons before key afterKey beforeValue v after more).text ++ rest =
      before.chars ++ '"' :: (key.flatMap Item.text ++ '"' :: (afterKey.chars ++
        ':' :: (beforeValue.chars ++ c :: (s ++ (after.chars ++ (more.tail ++ rest)))))) := by
    rw [Members.text_cons, hs, JsonDocument.quoted]
    simp only [List.append_assoc, List.cons_append, List.nil_append]
  have hhead : c :: (s ++ (after.chars ++ (more.tail ++ rest))) =
      v.text ++ (after.chars ++ (more.tail ++ rest)) := by rw [hs, List.cons_append]
  rw [htext] at hf ⊢
  rw [objectFromStream_blank before (by decide) hf]
  simp only [List.length_append, List.length_cons] at hf
  obtain ⟨fuel, rfl⟩ : ∃ f, fuel = f + 1 := ⟨fuel - 1, by omega⟩
  obtain ⟨_, hskip, _⟩ := @skipWhiteSpace_blank ':' afterKey (by decide)
    (beforeValue.chars ++ c :: (s ++ (after.chars ++ (more.tail ++ rest))))
  rw [objectFromStream_member (ReadBack.stringBody_items key _) hskip,
    variantFromStream_blank beforeValue hc, hhead]
  have hread := hv fuel (d - 1) (after.chars ++ (more.tail ++ rest)) (toNat_pred hd)
    (by
      rw [← hhead]
      simp only [List.length_append, List.length_cons]
      omega)
    (by
      rw [htail]
      exact ends_blank after (he.elim Or.inl fun h => Or.inr (Or.inr h)) _)
  have hrest := (@ReadsMembers.tail P fuel d rest k more hmore hd (by
    simp only [List.length_append]
    omega)).map ((byteStr (key.flatMap ReadBack.read), docVariant P ReadBack.read v) :: ·)
  apply (hread.bind (f := fun r => objectFromStream P fuel d r.2 >>= fun o =>
    .ok ((byteStr (key.flatMap ReadBack.read), r.1) :: o.1, o.2)) fun _ => ?_).of_iff
  · rw [Members.depth]
    exact Nat.max_le.symm
  · dsimp only
    rw [htail, objectFromStream_blank after he32, ← htail]
    · exact hrest
    · simp only [List.length_append, List.length_cons]
      rw [hs', List.length_cons] at hf
      omega

theorem readsDoc_array {k : ℕ} (inner : Blank) {elems : Elems} (h : ReadsElems P k elems) :
    ReadsDoc P (k + 1) (.array inner elems) := by
  intro fuel d rest hd hf _
  obtain ⟨ws, c, s, hs, hc⟩ := elemsText_head elems
  have htext : (Doc.array inner elems).text ++ rest =
      '[' :: ((inner.append ws).chars ++ c :: (s ++ rest)) := by
    rw [Doc.text, hs, Blank.append]
    simp only [List.append_assoc, List.cons_append]
  have hhead : ws.chars ++ c :: (s ++ rest) = elems.text ++ rest := by
    rw [hs, List.append_assoc, List.cons_append]
  have hlen := congrArg List.length hhead
  rw [htext] at hf ⊢
  simp only [List.length_append, List.length_cons, Blank.append] at hf hlen
  obtain ⟨fuel, rfl⟩ : ∃ f, fuel = f + 1 := ⟨fuel - 1, by omega⟩
  obtain ⟨_, hskip, _⟩ := skipWhiteSpace_blank (inner.append ws) hc (s ++ rest)
  have hd' : (d - 1).toNat = 2 * k + 1 := toNat_pred (by omega)
  rw [variantFromStream_bracket (ne_zero_of_toNat (n := 0) (by omega)), hskip, ok_bind]
  have hread := h fuel (d - 1) rest hd' (by
    simp only [List.length_append]
    omega)
  rw [← hhead, arrayFromStream_blank ws hc] at hread
  · exact (hread.map Variant.array).of_iff (Nat.succ_le_succ_iff.symm)
  · simp only [List.length_append, List.length_cons]
    omega

theorem readsDoc_object {k : ℕ} (inner : Blank) {members : Members} (h : ReadsMembers P k members) :
    ReadsDoc P (k + 1) (.object inner members) := by
  intro fuel d rest hd hf _
  obtain ⟨ws, c, s, hs, hc⟩ := membersText_head members
  have htext : (Doc.object inner members).text ++ rest =
      '{' :: ((inner.append ws).chars ++ c :: (s ++ rest)) := by
    rw [Doc.text, hs, Blank.append]
    simp only [List.append_assoc, List.cons_append]
  have hhead : ws.chars ++ c :: (s ++ rest) = members.text ++ rest := by
    rw [hs, List.append_assoc, List.cons_append]
  have hlen := congrArg List.length hhead
  rw [htext] at hf ⊢
  have hlen' : ((inner.append ws).chars ++ c :: (s ++ rest)).length =
      inner.chars.length + (members.text ++ rest).length := by
    rw [← hhead, Blank.append, List.append_assoc, List.length_append]
  rw [List.length_cons, hlen'] at hf
  obtain ⟨fuel, rfl⟩ : ∃ f, fuel = f + 1 := ⟨fuel - 1, by omega⟩
  have hd' : (d - 1).toNat = 2 * k + 1 := toNat_pred (by omega)
  rw [variantFromStream_brace (ne_zero_of_toNat (n := 0) (by omega)),
    objectFromStream_blank (inner.append ws) hc (by omega)]
  have hread := h fuel (d - 1) rest hd' (by omega)
  rw [← hhead, objectFromStream_blank ws hc (by rw [hhead]; omega)] at hread
  exact (hread.catchEof.map Variant.object).of_iff (Nat.succ_le_succ_iff.symm)

mutual

theorem readsDoc : ∀ (doc : Doc), Readable P doc → ∀ k, ReadsDoc P k doc
  | doc, _, 0 => readsDoc_zero doc
  | .null, _, _ + 1 => readsDoc_null
  | .bool b, _, _ + 1 => readsDoc_bool b
  | .number _, h, _ + 1 => readsDoc_number h
  | .string items, _, _ + 1 => readsDoc_string items
  | .array inner elems, h, k + 1 => readsDoc_array inner (readsElems elems h k)
  | .object inner members, h, k + 1 => readsDoc_object inner (readsMembers members h k)

theorem readsElems : ∀ (elems : Elems), ReadableElems P elems → ∀ k, ReadsElems P k elems
  | .nil, _, _ => readsElems_nil
  | .cons before v after rest, h, k =>
      readsElems_cons before after (readsDoc v h.1 k) (readsElems rest h.2 k)

theorem readsMembers :
    ∀ (members : Members), ReadableMembers P members → ∀ k, ReadsMembers P k members
  | .nil, _, _ => readsMembers_nil
  | .cons before key afterKey beforeValue v after rest, h, k =>
      readsMembers_cons before key afterKey beforeValue after (readsDoc v h.2.1 k)
        (readsMembers rest h.2.2 k)

end

/-! ## What the strings denote -/

section Denoted

variable {read : Item → Bytes}

theorem byteStr_known {items : List Item} (h : ∀ i ∈ items, ReadBack.Known i) :
    byteStr (items.flatMap ReadBack.read) = byteStr (items.flatMap Item.bytes) := by
  rw [ReadBack.flatMap_read_eq_iff.2 h]

mutual

theorem docVariant_known : ∀ doc : Doc, doc.Forall (fun _ => True) ReadBack.Known →
    docVariant P ReadBack.read doc = docVariant P Item.bytes doc
  | .null, _ => rfl
  | .bool _, _ => rfl
  | .number _, _ => rfl
  | .string _, h => congrArg Variant.string (byteStr_known h)
  | .array _ elems, h => congrArg Variant.array (elemVariants_known elems h)
  | .object _ members, h => congrArg Variant.object (memberVariants_known members h)

theorem elemVariants_known : ∀ elems : Elems, elems.Forall (fun _ => True) ReadBack.Known →
    elemVariants P ReadBack.read elems = elemVariants P Item.bytes elems
  | .nil, _ => rfl
  | .cons _ v _ rest, h => by
      rw [elemVariants, elemVariants, docVariant_known v h.1, elemVariants_known rest h.2]

theorem memberVariants_known :
    ∀ members : Members, members.Forall (fun _ => True) ReadBack.Known →
    memberVariants P ReadBack.read members = memberVariants P Item.bytes members
  | .nil, _ => rfl
  | .cons _ _ _ _ v _ rest, h => by
      rw [memberVariants, memberVariants, byteStr_known h.1, docVariant_known v h.2.1,
        memberVariants_known rest h.2.2]

end

end Denoted

namespace Sample

def nested : ℕ → Doc
  | 0 => .array .space .nil
  | n + 1 => .array .space (.cons .space (nested n) .space .nil)

theorem depth_nested (n : ℕ) : (nested n).depth = n + 1 := by
  induction n with
  | zero => rfl
  | succ n ih => rw [nested, Doc.depth, Elems.depth, Elems.depth, ih, Nat.max_zero]

theorem readable_nested (n : ℕ) : Readable platform (nested n) := by
  induction n with
  | zero => exact trivial
  | succ n ih => exact ⟨ih, trivial⟩

def below : Numeral := { Numeral.ofNat 21 with negative := true }

theorem isDigit_five (ds : List Char) (h : some "5".toList = some ds) :
    ∀ c ∈ ds, c.isDigit := by
  cases h
  exact forall_mem_of_all (by decide)

def half : Numeral :=
  { Numeral.ofNat 21 with fraction := some "5".toList, isDigit_fraction := isDigit_five }

/-- The parser knows the first of the two escapes. -/
def mixed : Doc :=
  .array .none (.cons .space (.number below) .space (.cons .none (.number half) .none
    (.cons .space (.string [.escape .lineFeed, .escape .backspace]) .none .nil)))

theorem readable_mixed : Readable platform mixed :=
  ⟨⟨.int64 (-21), rfl⟩, ⟨.double "21.5".toList, rfl⟩, fun _ _ => trivial, trivial⟩

end Sample

/-- The default depth is 100 levels. -/
theorem fromString_reads {doc : Doc} (h : Readable P doc) (before : Blank) (hr : Ends rest) :
    ∃ x, ReadsIf (doc.depth ≤ 100) x (docVariant P ReadBack.read doc) rest ∧
      fromString P (before.chars ++ (doc.text ++ rest)) = x.map Prod.fst := by
  obtain ⟨c, s, hs, hc, _⟩ := docText_head doc
  have hblank : ∀ fuel d, variantFromStream P fuel d (before.chars ++ (doc.text ++ rest)) =
      variantFromStream P fuel d (doc.text ++ rest) := by
    intro fuel d
    rw [hs, List.cons_append]
    exact variantFromStream_blank before hc _
  refine ⟨_, readsDoc doc h 100 (2 * (before.chars ++ (doc.text ++ rest)).length + 1)
    defaultMaxDepth rest rfl ?_ hr, ?_⟩
  · simp only [List.length_append]
    omega
  · rw [fromString_eq P _ (Nat.le_refl _), hblank]

/-- A document is read whatever its layout, if it is not nested too deep. Its strings are read
as what they denote if the parser knows their escapes. -/
theorem document_read {doc : Doc} (h : Readable P doc) (before : Blank) (hr : Ends rest) :
    (fromString P (before.chars ++ (doc.text ++ rest)) =
      if doc.depth ≤ 100 then .ok (docVariant P ReadBack.read doc) else .error tooNested) ∧
    (doc.Forall (fun _ => True) ReadBack.Known →
      docVariant P ReadBack.read doc = docVariant P Item.bytes doc) := by
  obtain ⟨x, hx, hread⟩ := fromString_reads h before hr
  refine ⟨?_, docVariant_known doc⟩
  rw [hread]
  split
  next hdepth => rw [hx.ok hdepth, Except.map]
  next hdepth => rw [hx.error hdepth, Except.map]

theorem sample_document_read :
    fromString Sample.platform (Blank.space.chars ++ ((Sample.nested 99).text ++ [])) =
        .ok (docVariant Sample.platform ReadBack.read (Sample.nested 99)) ∧
      fromString Sample.platform (Blank.space.chars ++ ((Sample.nested 100).text ++ [])) =
        .error tooNested ∧
      fromString Sample.platform (Blank.space.chars ++ (Sample.mixed.text ++ [])) =
        .ok (.array [.int64 (-21), .double "21.5".toList, .string "\nb".toList]) := by
  refine ⟨?_, ?_, ?_⟩
  · rw [(document_read (Sample.readable_nested 99) _ ends_nil).1,
      Sample.depth_nested, if_pos (Nat.le_refl 100)]
  · rw [(document_read (Sample.readable_nested 100) _ ends_nil).1,
      Sample.depth_nested, if_neg (by decide)]
  · rw [(document_read Sample.readable_mixed _ ends_nil).1, if_pos (by decide)]
    rfl

end SimpleBlockchain
