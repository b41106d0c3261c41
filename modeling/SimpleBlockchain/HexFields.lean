import SimpleBlockchain.HexChars

/-!
# Byte vectors in a request

A byte vector is half as long as its text, and the decoder stops when the vector is
full. Of a text of odd length the last character is never looked at.
-/

namespace SimpleBlockchain

variable {P : Platform} {D : KeyDerivation}

/-! ## One text -/

theorem toNat_of_fromHexChar {c : Char} {h : UInt8} (hc : fromHexChar c = .ok h) :
    c.toNat < 128 := by
  have hle : ∀ d : Char, c ≤ d → c.toNat ≤ d.toNat :=
    fun d hd => UInt32.le_iff_toNat_le.1 (Char.le_def.1 hd)
  unfold fromHexChar at hc
  split at hc
  next hdigit => exact Nat.lt_of_le_of_lt (hle '9' hdigit.2) (by decide)
  split at hc
  next hlower => exact Nat.lt_of_le_of_lt (hle 'f' hlower.2) (by decide)
  split at hc
  next hupper => exact Nat.lt_of_le_of_lt (hle 'F' hupper.2) (by decide)
  cases hc

theorem fromHexChar_eq_ok {c : Char} {h : UInt8} (hc : fromHexChar c = .ok h) :
    h.toNat < 16 ∧ Nat.digitChar h.toNat = c.toLower := by
  have hall : ∀ n < 128, (fromHexChar (Char.ofNat n)).toOption.all fun h =>
      decide (h.toNat < 16 ∧ Nat.digitChar h.toNat = (Char.ofNat n).toLower) := by
    decide
  have hn := hall c.toNat (toNat_of_fromHexChar hc)
  rw [Char.ofNat_toNat, hc] at hn
  exact of_decide_eq_true hn

theorem nibbles_split {h l : UInt8} (hh : h.toNat < 16) (hl : l.toNat < 16) :
    (h <<< 4 ||| l).toNat / 16 = h.toNat ∧ (h <<< 4 ||| l).toNat % 16 = l.toNat := by
  have hall : ∀ a < 16, ∀ b < 16,
      (UInt8.ofNat a <<< 4 ||| UInt8.ofNat b).toNat / 16 = a ∧
        (UInt8.ofNat a <<< 4 ||| UInt8.ofNat b).toNat % 16 = b := by
    decide
  have hab := hall h.toNat hh l.toNat hl
  rwa [UInt8.ofNat_toNat, UInt8.ofNat_toNat] at hab

theorem hexText_fromHex {str : Str} {n : ℕ} {d : Bytes} (h : fromHex str n = .ok d)
    (hlen : str.length = 2 * n) :
    hexText d = str.map Char.toLower ∧ ∀ c ∈ str, ∃ x, fromHexChar c = .ok x := by
  fun_induction fromHex str n generalizing d with
  | case1 n =>
      cases h
      exact ⟨rfl, by simp⟩
  | case2 str hne => exact absurd (List.length_eq_zero_iff.1 hlen) hne
  | case3 c n =>
      rw [List.length_singleton] at hlen
      omega
  | case4 c c' str n ih =>
      obtain ⟨hi, hhi, h⟩ := bind_eq_ok.1 h
      obtain ⟨lo, hlo, h⟩ := bind_eq_ok.1 h
      obtain ⟨out, hout, h⟩ := bind_eq_ok.1 h
      cases h
      obtain ⟨hhi16, hhic⟩ := fromHexChar_eq_ok hhi
      obtain ⟨hlo16, hloc⟩ := fromHexChar_eq_ok hlo
      obtain ⟨hdiv, hmod⟩ := nibbles_split hhi16 hlo16
      simp only [List.length_cons] at hlen
      obtain ⟨htail, hdigits⟩ := ih hout (by omega)
      constructor
      · rw [hexText, List.flatMap_cons, hdiv, hmod, hhic, hloc, List.map_cons, List.map_cons,
          ← htail]
        rfl
      · rw [List.forall_mem_cons, List.forall_mem_cons]
        exact ⟨⟨hi, hhi⟩, ⟨lo, hlo⟩, hdigits⟩

theorem fromHex_of_toBytes {v : Variant} {str : Str} {d : Bytes} (hstr : v.asString P = .ok str)
    (hd : v.toBytes P = .ok d) : fromHex str (str.length / 2) = .ok d := by
  rw [Variant.toBytes, hstr, ok_bind] at hd
  dsimp only at hd
  split at hd
  · obtain ⟨vo, hvo, hd⟩ := bind_eq_ok.1 hd
    obtain ⟨_, _, hd⟩ := bind_eq_ok.1 hd
    rwa [← hd]
  next hzero =>
    rw [not_not] at hzero
    rw [hzero, ← hd]
    cases str <;> rfl

/-- A text is stored whole exactly when its length is even, and then it is hexadecimal. -/
theorem hexText_toBytes_iff {v : Variant} {str : Str} {d : Bytes} (hstr : v.asString P = .ok str)
    (hd : v.toBytes P = .ok d) : (hexText d = str.map Char.toLower ↔ Even str.length) ∧
      (Even str.length → ∀ c ∈ str, ∃ x, fromHexChar c = .ok x) := by
  have hhex := fromHex_of_toBytes hstr hd
  have heven : Even str.length → str.length = 2 * (str.length / 2) := by
    rintro ⟨k, hk⟩
    omega
  refine ⟨⟨fun h => ?_, fun h => ?_⟩, fun h => ?_⟩
  · have hlen := congrArg List.length h
    rw [length_hexText, List.length_map] at hlen
    exact ⟨d.length, by omega⟩
  · exact (hexText_fromHex hhex (heven h)).1
  · exact (hexText_fromHex hhex (heven h)).2

/-! ## The two members -/

def submitted (P : Platform) (o : List (Str × Variant)) (key : String) : Option Str :=
  (findKey o key).bind fun v => (v.asString P).toOption

/-- What `to_hex` writes for a byte vector is what was submitted for it, in lower case. -/
def StoredWhole (P : Platform) (o : List (Str × Variant)) (key : String) (d : Bytes) : Prop :=
  ∀ str, submitted P o key = some str → toHex d (UInt32.ofNat d.length) = str.map Char.toLower

def EvenText (P : Platform) (o : List (Str × Variant)) (key : String) : Prop :=
  ∀ str, submitted P o key = some str → Even str.length

def HexText (P : Platform) (o : List (Str × Variant)) (key : String) : Prop :=
  ∀ str, submitted P o key = some str → ∀ c ∈ str, ∃ x, fromHexChar c = .ok x

theorem storedWhole_iff {o : List (Str × Variant)} {key : String} {d : Bytes}
    (h : visitMember o key [] (·.toBytes P) = .ok d) (hlen : d.length < 2 ^ 32) :
    (StoredWhole P o key d ↔ EvenText P o key) ∧ (EvenText P o key → HexText P o key) := by
  have hnat : (UInt32.ofNat d.length).toNat = d.length :=
    UInt32.toNat_ofNat_of_lt' hlen
  unfold StoredWhole EvenText HexText submitted
  rw [toHex_eq, hnat, List.take_length]
  unfold visitMember at h
  cases hfind : findKey o key with
  | none => simp
  | some v =>
      rw [hfind] at h
      obtain ⟨str, hstr, _⟩ := bind_eq_ok.1 h
      simp only [Option.bind_some, hstr, Except.toOption, Option.some.injEq, forall_eq']
      exact hexText_toBytes_iff hstr h

def BothWhole (P : Platform) (o : List (Str × Variant)) (t : Transaction) : Prop :=
  StoredWhole P o "data" t.data ∧ StoredWhole P o "attach" t.attach

def BothEven (P : Platform) (o : List (Str × Variant)) : Prop :=
  EvenText P o "data" ∧ EvenText P o "attach"

def BothHex (P : Platform) (o : List (Str × Variant)) : Prop :=
  HexText P o "data" ∧ HexText P o "attach"

theorem bothWhole_iff {o : List (Str × Variant)} {t : Transaction}
    (hdata : visitMember o "data" [] (·.toBytes P) = .ok t.data)
    (hattach : visitMember o "attach" [] (·.toBytes P) = .ok t.attach) (ht : t.Small) :
    (BothWhole P o t ↔ BothEven P o) ∧ (BothEven P o → BothHex P o) := by
  obtain ⟨hdataIff, hdataHex⟩ := storedWhole_iff hdata ht.1
  obtain ⟨hattachIff, hattachHex⟩ := storedWhole_iff hattach ht.2
  exact ⟨and_congr hdataIff hattachIff, And.imp hdataHex hattachHex⟩

/-! ## The two calls -/

/-- `push_transaction` accepts the body and puts the transaction in the pool. -/
def Pushes (P : Platform) (body : Str) (t : Transaction) : Prop :=
  ∃ p, (bodyVariant P body >>= PushTransactionParams.fromVariant P) = .ok p ∧ p.trx = t ∧
    t.validate P = .ok true

theorem Pushes.pool {body : Str} {t : Transaction} (h : Pushes P body t) :
    ∃ p, (bodyVariant P body >>= PushTransactionParams.fromVariant P) = .ok p ∧
      ∀ next node, pushTransaction P next node p =
        ⟨{ node with buf := node.buf.cacheTrx t },
          catchAndCall next (.ok (t.toVariant P)), []⟩ := by
  obtain ⟨p, hp, rfl, hvalid⟩ := h
  refine ⟨p, hp, fun next node => ?_⟩
  rcases pushTransaction_cases P next node p with ⟨_, heq⟩ | ⟨hne, _⟩
  · exact heq
  · exact absurd hvalid hne

/-- `sign_trx` accepts the body and signs the transaction. -/
def Signs (P : Platform) (D : KeyDerivation) (body : Str) (t : Transaction) : Prop :=
  ∃ p, (bodyVariant P body >>= SignTrxParams.fromVariant P) = .ok p ∧
    signedTrx P D p.trx p.key = .ok t

theorem Pushes.members {body : Str} {o : List (Str × Variant)} {t : Transaction}
    (hbody : bodyVariant P body = .ok (.object o)) (h : Pushes P body t) :
    visitMember o "data" [] (·.toBytes P) = .ok t.data ∧
      visitMember o "attach" [] (·.toBytes P) = .ok t.attach ∧ t.Small := by
  obtain ⟨p, hp, rfl, hvalid⟩ := h
  rw [hbody, ok_bind, PushTransactionParams.fromVariant, Variant.getObject, ok_bind] at hp
  obtain ⟨_, _, hp⟩ := bind_eq_ok.1 hp
  obtain ⟨data, hdata, hp⟩ := bind_eq_ok.1 hp
  obtain ⟨attach, hattach, hp⟩ := bind_eq_ok.1 hp
  obtain ⟨_, _, hp⟩ := bind_eq_ok.1 hp
  obtain ⟨_, _, hp⟩ := bind_eq_ok.1 hp
  obtain ⟨_, _, hp⟩ := bind_eq_ok.1 hp
  cases hp
  exact ⟨hdata, hattach, Transaction.small_of_validate hvalid⟩

theorem Signs.members {body : Str} {o o' : List (Str × Variant)} {t : Transaction}
    (hbody : bodyVariant P body = .ok (.object o)) (htrx : findKey o "trx" = some (.object o'))
    (h : Signs P D body t) : visitMember o' "data" [] (·.toBytes P) = .ok t.data ∧
      visitMember o' "attach" [] (·.toBytes P) = .ok t.attach ∧ t.Small := by
  obtain ⟨p, hp, hsigned⟩ := h
  rw [hbody, ok_bind, SignTrxParams.fromVariant, Variant.getObject, ok_bind, visitMember, htrx,
    ok_bind] at hp
  obtain ⟨key, _, hp⟩ := bind_eq_ok.1 hp
  cases hp
  obtain ⟨tx, htx, hsigned⟩ := bind_eq_ok.1 hsigned
  obtain ⟨_, _, hsigned⟩ := bind_eq_ok.1 hsigned
  obtain ⟨pub, _, hsigned⟩ := bind_eq_ok.1 hsigned
  obtain ⟨d, hd, hsigned⟩ := bind_eq_ok.1 hsigned
  obtain ⟨sig, _, hsigned⟩ := bind_eq_ok.1 hsigned
  cases hsigned
  rw [Transaction.fromVariant, Variant.getObject, ok_bind] at htx
  obtain ⟨_, _, htx⟩ := bind_eq_ok.1 htx
  obtain ⟨data, hdata, htx⟩ := bind_eq_ok.1 htx
  obtain ⟨attach, hattach, htx⟩ := bind_eq_ok.1 htx
  obtain ⟨_, _, htx⟩ := bind_eq_ok.1 htx
  obtain ⟨_, _, htx⟩ := bind_eq_ok.1 htx
  cases htx
  exact ⟨hdata, hattach, Transaction.small_of_digest hd⟩

/-- Of an accepted body, the two byte vectors are what was submitted exactly when both texts
have an even length, and then both are hexadecimal. -/
theorem hex_fields_whole_iff {body : Str} {o : List (Str × Variant)}
    (hbody : bodyVariant P body = .ok (.object o)) :
    (∀ t, Pushes P body t →
      (BothWhole P o t ↔ BothEven P o) ∧ (BothEven P o → BothHex P o)) ∧
    ∀ t o', findKey o "trx" = some (.object o') → Signs P D body t →
      (BothWhole P o' t ↔ BothEven P o') ∧ (BothEven P o' → BothHex P o') := by
  constructor
  · intro t ht
    obtain ⟨hdata, hattach, hsmall⟩ := ht.members hbody
    exact bothWhole_iff hdata hattach hsmall
  · intro t o' htrx ht
    obtain ⟨hdata, hattach, hsmall⟩ := ht.members hbody htrx
    exact bothWhole_iff hdata hattach hsmall

/-! ## A text of one character -/

theorem fromVariant_members (time data attach sig key : Variant) :
    PushTransactionParams.fromVariant P (.object
      [("time_point".toList, time), ("data".toList, data), ("attach".toList, attach),
       ("signature".toList, sig), ("pub_key".toList, key)]) = (do
      let data ← data.toBytes P
      let attach ← attach.toBytes P
      let pubKey ← PublicKey.fromVariant P key
      let signature ← Signature.fromVariant P sig
      let timePoint ← time.toTime P
      .ok ⟨pubKey, signature, timePoint, data, attach⟩) := rfl

namespace Sample

def letterMembers : List (Str × Variant) :=
  [("time_point".toList, .ofTime platform now),
   ("data".toList, .ofBytes trx.data),
   ("attach".toList, .string ['z']),
   ("signature".toList, .string (trx.signature.toStr platform)),
   ("pub_key".toList, .string (trx.pubKey.toStr platform))]

def letterBody : Str := toStream platform (.object letterMembers)

theorem storable_letterMembers : Storable 1 (.object letterMembers) := by
  refine .object 0 _ ?_ ?_
  · simp only [letterMembers, List.forall_mem_cons]
    exact ⟨plain_name (by decide), plain_name (by decide), plain_name (by decide),
      plain_name (by decide), plain_name (by decide), by simp⟩
  · simp only [letterMembers, List.forall_mem_cons]
    refine ⟨storable_ofTime boostExact 0 _, storable_ofBytes 0 _, .string 0 _ ?_, ?_, ?_, by simp⟩
    · rw [List.forall_mem_singleton]
      exact Or.inl (by decide)
    · exact .string 0 _ fun c hc => .of_isAlphanum_or (Signature.toStr_plain platform hc)
    · exact .string 0 _ fun c hc => .of_isAlphanum_or (PublicKey.toStr_plain platform hc)

theorem bodyVariant_letterBody :
    bodyVariant platform letterBody = .ok (.object letterMembers) := by
  have hreread : reread (.object letterMembers) = .object letterMembers := by
    simp only [letterMembers, Variant.ofTime, reread, rereadEntries, reread_ofBytes]
  rw [letterBody, bodyVariant_toStream boostExact storable_letterMembers (by decide), hreread]

theorem pushes_letterBody : Pushes platform letterBody trx := by
  refine ⟨params, ?_, rfl, validate_trx⟩
  have hletter : (Variant.string ['z']).toBytes platform = .ok [] := rfl
  rw [bodyVariant_letterBody, ok_bind, letterMembers, fromVariant_members, toBytes_ofBytes, hletter,
    PublicKey.fromVariant_toStr, Signature.fromVariant_toStr, toTime_ofTime boostExact]
  rfl

end Sample

/-- The letter is no hexadecimal digit, and the transaction is accepted without it. -/
theorem sample_letter_dropped : Pushes Sample.platform Sample.letterBody Sample.trx ∧
    bodyVariant Sample.platform Sample.letterBody = .ok (.object Sample.letterMembers) ∧
    submitted Sample.platform Sample.letterMembers "attach" = some ['z'] ∧
    ¬ BothWhole Sample.platform Sample.letterMembers Sample.trx ∧
    ¬ BothHex Sample.platform Sample.letterMembers := by
  have hsub : submitted Sample.platform Sample.letterMembers "attach" = some ['z'] := rfl
  refine ⟨Sample.pushes_letterBody, Sample.bodyVariant_letterBody, hsub, ?_, ?_⟩
  · rintro ⟨_, hattach⟩
    exact absurd (hattach _ hsub) (by decide)
  · rintro ⟨_, hattach⟩
    obtain ⟨x, hx⟩ := hattach _ hsub 'z' (List.mem_singleton_self _)
    cases hx

theorem sample_fields_whole_iff :
    (BothWhole Sample.platform Sample.letterMembers Sample.trx ↔
      BothEven Sample.platform Sample.letterMembers) ∧
    (BothEven Sample.platform Sample.letterMembers →
      BothHex Sample.platform Sample.letterMembers) :=
  (hex_fields_whole_iff (D := ⟨fun _ => none, fun _ => none⟩) Sample.bodyVariant_letterBody).1
    Sample.trx Sample.pushes_letterBody

end SimpleBlockchain
