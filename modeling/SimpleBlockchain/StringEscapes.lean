import SimpleBlockchain.Exchanges
import SimpleBlockchain.HexChars
import SimpleBlockchain.JsonString

/-!
# Which escapes are read

The writer emits every escape that a control character needs. The parser knows
three of them besides the quote, the backslash and the solidus; of any other escape
it drops the backslash.
-/

namespace SimpleBlockchain

open JsonString

/-! ## What the parser makes of an escape -/

namespace ReadBack

/-- The bytes that the parser reads for an item. -/
def read : Item → Bytes
  | .unescaped c _ => [c]
  | .escape e => [UInt8.ofNat (unescape e.letter).toNat]
  | .unicode u _ => ('u' :: u.digits).map fun c => UInt8.ofNat c.toNat
  | .surrogates high low _ _ =>
      ('u' :: high.digits ++ 'u' :: low.digits).map fun c => UInt8.ofNat c.toNat

/-- The items that are read as what they denote. -/
def Known : Item → Prop
  | .unescaped _ _ => True
  | .escape e => e ≠ .backspace ∧ e ≠ .formFeed
  | .unicode _ _ | .surrogates _ _ _ _ => False

instance : DecidablePred Known
  | .unescaped _ _ => isTrue trivial
  | .escape e => inferInstanceAs (Decidable (e ≠ .backspace ∧ e ≠ .formFeed))
  | .unicode _ _ => isFalse id
  | .surrogates _ _ _ _ => isFalse id

theorem read_of_known {item : Item} (h : Known item) : read item = item.bytes := by
  cases item with
  | unescaped c hc => rfl
  | escape e =>
      cases e with
      | backspace => exact absurd rfl h.1
      | formFeed => exact absurd rfl h.2
      | quotationMark => rfl
      | reverseSolidus => rfl
      | solidus => rfl
      | lineFeed => rfl
      | carriageReturn => rfl
      | tab => rfl
  | unicode u hu => exact absurd h id
  | surrogates high low hh hl => exact absurd h id

theorem read_of_not_known {item : Item} (h : ¬ Known item) :
    (∃ b c : UInt8, read item = [b] ∧ item.bytes = [c] ∧ b ≠ c) ∨
      item.bytes.length < (read item).length := by
  cases item with
  | unescaped c hc => exact absurd trivial h
  | escape e =>
      by_cases he : e = .backspace
      · subst he
        exact Or.inl ⟨_, _, rfl, rfl, by decide⟩
      by_cases he' : e = .formFeed
      · subst he'
        exact Or.inl ⟨_, _, rfl, rfl, by decide⟩
      exact absurd ⟨he, he'⟩ h
  | unicode u hu =>
      right
      have hlen := u.length_eq
      rw [Item.bytes, String.length_utf8EncodeChar, read, List.length_map, List.length_cons]
      have := Char.utf8Size_le_four (Char.ofNat u.value)
      omega
  | surrogates high low hh hl =>
      right
      have hlen := high.length_eq
      rw [Item.bytes, String.length_utf8EncodeChar, read, List.length_map, List.length_append,
        List.length_cons]
      have := Char.utf8Size_le_four
        (Char.ofNat (0x10000 + (high.value - 0xd800) * 0x400 + (low.value - 0xdc00)))
      omega

theorem length_bytes_le (item : Item) : item.bytes.length ≤ (read item).length := by
  by_cases h : Known item
  · rw [read_of_known h]
  · rcases read_of_not_known h with ⟨b, c, hb, hc, _⟩ | hlt
    · rw [hb, hc, List.length_singleton, List.length_singleton]
    · exact hlt.le

theorem length_flatMap_bytes_le (items : List Item) :
    (items.flatMap Item.bytes).length ≤ (items.flatMap read).length := by
  induction items with
  | nil => exact Nat.le_refl _
  | cons item items ih =>
      have := length_bytes_le item
      rw [List.flatMap_cons, List.flatMap_cons, List.length_append, List.length_append]
      omega

theorem flatMap_read_eq_iff {items : List Item} :
    items.flatMap read = items.flatMap Item.bytes ↔ ∀ item ∈ items, Known item := by
  induction items with
  | nil => simp
  | cons item items ih =>
      rw [List.flatMap_cons, List.flatMap_cons, List.forall_mem_cons]
      by_cases h : Known item
      · rw [read_of_known h, List.append_cancel_left_eq, ih]
        exact (and_iff_right h).symm
      · refine iff_of_false (fun heq => ?_) fun hall => h hall.1
        rcases read_of_not_known h with ⟨b, c, hb, hc, hne⟩ | hlt
        · rw [hb, hc] at heq
          exact hne (List.head_eq_of_cons_eq heq)
        · have hlen := congrArg List.length heq
          have := length_flatMap_bytes_le items
          rw [List.length_append, List.length_append] at hlen
          omega

/-! ## Scanning the items of a text -/

theorem toNat_of_isHexDigit {c : Char} (h : IsHexDigit c) :
    48 ≤ c.toNat ∧ c.toNat ≤ 102 ∧ c.toNat ≠ 92 := by
  simp only [IsHexDigit, Char.le_def, UInt32.le_iff_toNat_le] at h
  have hc : c.toNat = c.val.toNat := rfl
  simp at h
  omega

theorem byteStr_of_toNat {s : Str} (h : ∀ c ∈ s, c.toNat < 256) :
    byteStr (s.map fun c => UInt8.ofNat c.toNat) = s := by
  rw [byteStr, List.map_map, List.map_congr_left (g := id), List.map_id]
  intro c hc
  rw [Function.comp, UInt8.toNat_ofNat_of_lt' (h c hc), Char.ofNat_toNat, id]

theorem stringBody_digits {ds : Str} (h : ∀ c ∈ ds, IsHexDigit c) {s token rest : Str}
    (hs : stringBody s = .ok (token, rest)) : stringBody (ds ++ s) = .ok (ds ++ token, rest) := by
  induction ds with
  | nil => exact hs
  | cons c ds ih =>
      rw [List.forall_mem_cons] at h
      obtain ⟨hlow, _, hback⟩ := toNat_of_isHexDigit h.1
      apply stringBody_cons (by omega) (ne_of_toNat hback) (ne_of_toNat _) (ih h.2)
      rw [show '"'.toNat = 34 from rfl]
      omega

theorem stringBody_codeUnit (u : CodeUnit) {s token rest : Str}
    (hs : stringBody s = .ok (token, rest)) :
    stringBody ('\\' :: 'u' :: u.digits ++ s) = .ok ('u' :: u.digits ++ token, rest) :=
  stringBody_escaped 'u' (stringBody_digits u.isHexDigit hs)

theorem codeUnit_toNat (u : CodeUnit) : ∀ c ∈ 'u' :: u.digits, c.toNat < 256 := by
  rw [List.forall_mem_cons]
  refine ⟨by decide, fun c hc => ?_⟩
  have := toNat_of_isHexDigit (u.isHexDigit c hc)
  omega

theorem stringBody_item (item : Item) {s token rest : Str}
    (hs : stringBody s = .ok (token, rest)) :
    stringBody (item.text ++ s) = .ok (byteStr (read item) ++ token, rest) := by
  cases item with
  | unescaped c hc =>
      obtain ⟨hlow, hquote, hback⟩ := hc
      rw [UInt8.le_iff_toNat_le] at hlow
      have hne : ∀ d : Char, c.toNat ≠ d.toNat → Char.ofNat c.toNat ≠ d :=
        fun d hd => ne_of_toNat (by rwa [toNat_ofNat_byte])
      exact stringBody_cons (by rwa [toNat_ofNat_byte])
        (hne _ fun h => hback (UInt8.toNat_inj.1 h))
        (hne _ fun h => hquote (UInt8.toNat_inj.1 h)) hs
  | escape e =>
      have hbyte : byteStr (read (.escape e)) = [unescape e.letter] := by
        cases e <;> decide
      rw [hbyte]
      exact stringBody_escaped e.letter hs
  | unicode u hu =>
      rw [read, byteStr_of_toNat (codeUnit_toNat u)]
      exact stringBody_codeUnit u hs
  | surrogates high low hh hl =>
      rw [read, byteStr_of_toNat (List.forall_mem_append.2
        ⟨codeUnit_toNat high, codeUnit_toNat low⟩), Item.text, List.append_assoc, List.append_assoc]
      exact stringBody_codeUnit high (stringBody_codeUnit low hs)

theorem stringBody_items (items : List Item) (rest : Str) :
    stringBody (items.flatMap Item.text ++ '"' :: rest) =
      .ok (byteStr (items.flatMap read), rest) := by
  induction items with
  | nil => exact stringBody_quote rest
  | cons item items ih =>
      rw [List.flatMap_cons, List.flatMap_cons, List.append_assoc, stringBody_item item ih,
        byteStr, byteStr, byteStr, List.map_append]

end ReadBack

/-! ## What the writer makes of a byte -/

theorem isHexDigit_digitChar : ∀ n < 16, IsHexDigit (Nat.digitChar n) := by
  decide

theorem hexValue_digitChar : ∀ n < 16, hexValue (Nat.digitChar n) = n := by
  decide

def controlUnit (c : UInt8) : CodeUnit where
  digits := ['0', '0', Nat.digitChar (c.toNat / 16), Nat.digitChar (c.toNat % 16)]
  length_eq := rfl
  isHexDigit := by
    have hlt := c.toNat_lt
    simp only [List.forall_mem_cons]
    exact ⟨by decide, by decide, isHexDigit_digitChar _ (by omega),
      isHexDigit_digitChar _ (by omega), by simp⟩

theorem value_controlUnit (c : UInt8) : (controlUnit c).value = c.toNat := by
  have hlt := c.toNat_lt
  have hzero : hexValue '0' = 0 := by decide
  simp only [CodeUnit.value, controlUnit, List.foldl_cons, List.foldl_nil, hzero]
  rw [hexValue_digitChar _ (by omega), hexValue_digitChar _ (by omega)]
  omega

/-- The item that `escape_string` writes for a byte. -/
def escapeItem (c : UInt8) : Item :=
  if c = 0x08 then .escape .backspace
  else if c = 0x0c then .escape .formFeed
  else if c = 0x0a then .escape .lineFeed
  else if c = 0x0d then .escape .carriageReturn
  else if c = 0x09 then .escape .tab
  else if hb : c = 0x5c then .escape .reverseSolidus
  else if hq : c = 0x22 then .escape .quotationMark
  else if h : c < 32 then
    .unicode (controlUnit c) (Or.inl (by
      have hlt := c.toNat_lt
      rw [value_controlUnit]
      omega))
  else .unescaped c ⟨UInt8.not_lt.1 h, hq, hb⟩

theorem escapeChar_eq (c : UInt8) : escapeChar (Char.ofNat c.toNat) = (escapeItem c).text := by
  revert c
  exact forall_byte (by decide +kernel)

theorem bytes_escapeItem (c : UInt8) : (escapeItem c).bytes = [c] := by
  revert c
  exact forall_byte (by decide +kernel)

theorem known_escapeItem (c : UInt8) :
    ReadBack.Known (escapeItem c) ↔ 32 ≤ c ∨ c = 9 ∨ c = 10 ∨ c = 13 := by
  revert c
  exact forall_byte (by decide +kernel)

/-- Of an unknown escape not even the first byte is right. -/
theorem known_of_head (c : UInt8) :
    (ReadBack.read (escapeItem c)).head? = some c → ReadBack.Known (escapeItem c) := by
  revert c
  exact forall_byte (by decide +kernel)

theorem flatMap_bytes_escapeItem (d : Bytes) : (d.map escapeItem).flatMap Item.bytes = d := by
  induction d with
  | nil => rfl
  | cons c d ih =>
      rw [List.map_cons, List.flatMap_cons, bytes_escapeItem, ih]
      rfl

theorem known_of_prefix {d : Bytes} (h : d <+: (d.map escapeItem).flatMap ReadBack.read) :
    ∀ item ∈ d.map escapeItem, ReadBack.Known item := by
  induction d with
  | nil => simp
  | cons c d ih =>
      rw [List.map_cons, List.flatMap_cons] at h
      have hknown : ReadBack.Known (escapeItem c) := by
        apply known_of_head
        cases hread : ReadBack.read (escapeItem c) with
        | nil =>
            have hle := ReadBack.length_bytes_le (escapeItem c)
            rw [hread, bytes_escapeItem] at hle
            cases hle
        | cons b l =>
            rw [hread, List.cons_append, List.cons_prefix_cons] at h
            rw [List.head?_cons, h.1]
      rw [ReadBack.read_of_known hknown, bytes_escapeItem, List.singleton_append,
        List.cons_prefix_cons] at h
      rw [List.map_cons, List.forall_mem_cons]
      exact ⟨hknown, ih h.2⟩

/-! ## The request -/

/-- The body of a request to `char2hex`, with the string as a JSON literal. -/
def strObject (literal : Str) : Str := '{' :: escapeString "str".toList ++ ':' :: literal ++ ['}']

def quoted (items : List Item) : Str := '"' :: items.flatMap Item.text ++ ['"']

theorem escapeString_byteStr (d : Bytes) :
    escapeString (byteStr d) = quoted (d.map escapeItem) := by
  have hflat : (byteStr d).flatMap escapeChar = (d.map escapeItem).flatMap Item.text := by
    induction d with
    | nil => rfl
    | cons c d ih =>
        rw [byteStr, List.map_cons, List.flatMap_cons, escapeChar_eq, List.map_cons,
          List.flatMap_cons, ← ih, byteStr]
  rw [escapeString, hflat, quoted]

theorem char2hexParams_strObject (P : Platform) (items : List Item) :
    (bodyVariant P (strObject (quoted items)) >>= char2hexParams P) =
      .ok (byteStr (items.flatMap ReadBack.read)) := by
  have hbody := ReadBack.stringBody_items items ['}']
  have hkey : ∀ c ∈ "str".toList, Plain c := plain_name (by decide)
  have hsplit : strObject (quoted items) =
      '{' :: (escapeString "str".toList ++ ':' :: (quoted items ++ ['}'])) := by
    simp [strObject]
  have hread : fromString P (strObject (quoted items)) =
      .ok (.object [("str".toList, .string (byteStr (items.flatMap ReadBack.read)))]) := by
    rw [fromString_eq P _ (Nat.le_add_right _ 3)]
    generalize 2 * (strObject (quoted items)).length = n
    have hvalue : variantFromStream P (n + 2) (defaultMaxDepth - 1 - 1) (quoted items ++ ['}']) =
        .ok (.string (byteStr (items.flatMap ReadBack.read)), ['}']) := by
      rw [quoted, List.cons_append, List.cons_append, List.append_assoc]
      exact variantFromStream_string (by decide) hbody
    have hend : objectFromStream P (n + 2) (defaultMaxDepth - 1) ['}'] = .ok ([], []) := by
      rw [objectFromStream, if_pos List.head?_cons, List.tail_cons]
    have hobject := variantFromStream_object (d := defaultMaxDepth) (by decide)
      (objectFromStream_entry hkey hvalue hend)
    rw [← hsplit] at hobject
    rw [hobject]
    rfl
  have hne : strObject (quoted items) ≠ [] := by
    rw [hsplit]
    exact List.cons_ne_nil _ _
  rw [bodyVariant, if_neg hne, hread]
  rfl

theorem char2hex_result (P : Platform) (D : KeyDerivation) (env : ApiEnv) (node : Node)
    (d : Bytes) : RoCall.char2hex.result P D env node (strObject (escapeString (byteStr d))) =
      .ok (.string (hexText (cutSize ((d.map escapeItem).flatMap ReadBack.read)))) := by
  have hparams := char2hexParams_strObject P (d.map escapeItem)
  rw [← escapeString_byteStr] at hparams
  obtain ⟨v, hv, hstr⟩ := bind_eq_ok.1 hparams
  rw [RoCall.result, hv, ok_bind, RoCall.run, hstr, ok_bind, char2hex_byteStr, toHex_eq, cutSize]
  simp

theorem escapeString_hexText_inj {d e : Bytes} :
    escapeString (hexText d) = escapeString (hexText e) ↔ d = e := by
  refine ⟨fun h => ?_, fun h => by rw [h]⟩
  have hread : ∀ d : Bytes,
      stringBody ((escapeString (hexText d)).tail) = .ok (hexText d, []) := fun d =>
    stringBody_escape (fun c hc => .of_isAlphanum (hexText_isAlphanum d c hc)) []
  have heq := hread d
  rw [h, hread e, Except.ok.injEq, Prod.mk.injEq, hexText_inj] at heq
  exact heq.1.symm

variable {H : HttpPlugin} {req : Request}

theorem replied_char2hex_iff (P : Platform) (D : KeyDerivation) (env : ApiEnv) (node : Node)
    {d e : Bytes} (h : Served H (req.ask RoCall.char2hex.callName
      (strObject (escapeString (byteStr d))))) :
    (processRequest H P D env node (req.ask RoCall.char2hex.callName
        (strObject (escapeString (byteStr d))))).2.Replied 200 (toStream P (.string (hexText e))) ↔
      cutSize ((d.map escapeItem).flatMap ReadBack.read) = e := by
  have hresult := char2hex_result P D env node d
  obtain ⟨_, ⟨v, hv, hreply⟩ | ⟨e, he, _⟩⟩ := processRequest_ro P D env node h rfl
  · have hv : RoCall.char2hex.result P D env node (strObject (escapeString (byteStr d))) = .ok v :=
      hv
    rw [hresult, Except.ok.injEq] at hv
    subst hv
    refine ⟨fun hexpected => ?_, fun heq => heq ▸ hreply⟩
    exact escapeString_hexText_inj.1 (hreply.unique hexpected).2
  · have he : RoCall.char2hex.result P D env node (strObject (escapeString (byteStr d))) =
        .error e := he
    rw [hresult] at he
    cases he

/-- Exactly the strings without control characters other than tab, line feed and carriage
return come through the writer and the parser, up to the size of a body and the size that
`to_hex` takes; and exactly the texts without `\b`, `\f` and `\u` are taken for what they
denote. -/
theorem string_arguments_survive_iff (P : Platform) (D : KeyDerivation) (env : ApiEnv)
    (node : Node) (hallow : ∃ con, H.allowHost req .fresh = .ok (con, true))
    (hmethod : req.method ≠ "OPTIONS".toList) :
    (∀ d : Bytes, (processRequest H P D env node (req.ask RoCall.char2hex.callName
          (strObject (escapeString (byteStr d))))).2.Replied 200
            (toStream P (.string (hexText d))) ↔
      (∀ c ∈ d, 32 ≤ c ∨ c = 9 ∨ c = 10 ∨ c = 13) ∧
        (strObject (escapeString (byteStr d))).length ≤ H.maxBodySize.toNat ∧
        d.length < 2 ^ 32) ∧
    ∀ items : List Item, (bodyVariant P (strObject (quoted items)) >>= char2hexParams P) =
        .ok (byteStr (items.flatMap Item.bytes)) ↔ ∀ item ∈ items, ReadBack.Known item := by
  constructor
  · intro d
    have hknown : (∀ item ∈ d.map escapeItem, ReadBack.Known item) ↔
        ∀ c ∈ d, 32 ≤ c ∨ c = 9 ∨ c = 10 ∨ c = 13 := by
      rw [List.forall_mem_map]
      exact forall₂_congr fun c _ => known_escapeItem c
    by_cases hsize : (strObject (escapeString (byteStr d))).length ≤ H.maxBodySize.toNat
    swap
    · refine iff_of_false (fun hreply => ?_) fun h => hsize h.2.1
      obtain ⟨res, hres, hstatus⟩ := hreply.status_mem
      rw [processRequest_large P D env node (Nat.not_le.1 hsize)] at hres
      rw [List.mem_singleton.1 hres] at hstatus
      cases hstatus
    rw [replied_char2hex_iff P D env node ⟨hsize, hallow, hmethod⟩, ← hknown, and_iff_right hsize]
    constructor
    · intro h
      have hcut : cutSize ((d.map escapeItem).flatMap ReadBack.read) <+:
          (d.map escapeItem).flatMap ReadBack.read := List.take_prefix _ _
      rw [h] at hcut
      have hall := known_of_prefix hcut
      rw [ReadBack.flatMap_read_eq_iff.2 hall, flatMap_bytes_escapeItem, cutSize_eq_self] at h
      exact ⟨hall, h⟩
    · rintro ⟨hall, hlen⟩
      rw [ReadBack.flatMap_read_eq_iff.2 hall, flatMap_bytes_escapeItem, cutSize_eq_self.2 hlen]
  · intro items
    rw [char2hexParams_strObject, Except.ok.injEq, byteStr_inj, ReadBack.flatMap_read_eq_iff]

theorem sample_arguments_survive :
    (processRequest Sample.http Sample.platform Sample.keyDerivation Sample.apiEnv
        ⟨Sample.buf, .empty⟩ (Sample.socketRequest.ask RoCall.char2hex.callName
          (strObject (escapeString (byteStr [34, 10, 0xc2, 0xb0]))))).2.Replied 200
      (toStream Sample.platform (.string (hexText [34, 10, 0xc2, 0xb0]))) := by
  refine ((string_arguments_survive_iff Sample.platform Sample.keyDerivation Sample.apiEnv
    ⟨Sample.buf, .empty⟩ Sample.served.2.1 Sample.served.2.2).1 _).2 ⟨?_, ?_, ?_⟩
  · exact forall_mem_of_all (by decide)
  · decide +kernel
  · decide

def Sample.degree : Item :=
  .unicode ⟨['0', '0', 'b', '0'], rfl, forall_mem_of_all (by decide)⟩ (by decide)

/-- A backspace comes back as the letter b, and an escaped degree sign as five letters. -/
theorem sample_escapes_misread :
    (processRequest Sample.http Sample.platform Sample.keyDerivation Sample.apiEnv
        ⟨Sample.buf, .empty⟩ (Sample.socketRequest.ask RoCall.char2hex.callName
          (strObject (escapeString (byteStr [8]))))).2.Replied 200
      (toStream Sample.platform (.string ['6', '2'])) ∧ hexText [8] = ['0', '8'] ∧
    (bodyVariant Sample.platform (strObject (quoted [Sample.degree])) >>=
      char2hexParams Sample.platform) = .ok ['u', '0', '0', 'b', '0'] ∧
    Sample.degree.bytes = [0xc2, 0xb0] := by
  have hletter : hexText [98] = ['6', '2'] := by decide
  refine ⟨?_, by decide, ?_, by decide⟩
  · rw [← hletter]
    refine (replied_char2hex_iff Sample.platform Sample.keyDerivation Sample.apiEnv
      ⟨Sample.buf, .empty⟩ (Sample.served.ask RoCall.char2hex.callName (by decide +kernel))).2 ?_
    decide
  · rw [char2hexParams_strObject]
    exact congrArg Except.ok (by decide)

end SimpleBlockchain
