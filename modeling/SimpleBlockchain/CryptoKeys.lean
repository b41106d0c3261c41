import SimpleBlockchain.FieldCodecs

/-!
# Keys and signatures

A key or a signature belongs to one of two suites, secp256k1 (`K1`) and
secp256r1 (`R1`). Its text carries a checksum over the data and the name of the
suite; only the legacy form of a K1 public key has no name to hash.
-/

namespace SimpleBlockchain

inductive Suite
  | k1
  | r1
deriving DecidableEq, Repr

/-- The alternatives of a `static_variant` whose two types hold `n` bytes each. -/
structure Suited (n : ℕ) where
  which : Suite
  data : Vector UInt8 n
deriving DecidableEq

abbrev Signature := Suited 65
abbrev PublicKey := Suited 33
abbrev PrivateKey := Suited 32

/-- The entry of `signature_prefix`, `public_key_prefix` and `private_key_prefix`. -/
def Suite.prefixStr : Suite → String
  | .k1 => "K1"
  | .r1 => "R1"

def blankSignature : Signature := ⟨.k1, Vector.replicate 65 0⟩

def blankPublicKey : PublicKey := ⟨.k1, Vector.replicate 33 0⟩

def ofAscii (s : String) : Bytes := s.toList.map fun c => UInt8.ofNat c.toNat

/-- The first word of the hash, as its four bytes. -/
def calculateChecksum (P : Platform) (data : Bytes) (suite : String) : Bytes :=
  (P.ripemd160 (data ++ ofAscii suite)).toList.take 4

/-- `base58str_visitor`. The suite at the default position is not named. -/
def base58Str {n : ℕ} (P : Platform) (default : Option Suite) (key : Suited n) : Str :=
  if default = some key.which then
    toBase58 (key.data.toList ++ calculateChecksum P key.data.toList "")
  else
    key.which.prefixStr.toList ++ '_' ::
      toBase58 (key.data.toList ++ calculateChecksum P key.data.toList key.which.prefixStr)

/-- The parts of a string before and after its first underscore. -/
def splitPivot (s : Str) : Option (Str × Str) :=
  if '_' ∈ s then some (s.takeWhile (· ≠ '_'), (s.dropWhile (· ≠ '_')).tail) else none

/-- `base58_str_parser_impl`. What follows the checksum is not looked at. -/
def parseSuite (P : Platform) (n : ℕ) (suite : Suite) (dataStr : Str) :
    Except Exn (Suited n) := do
  let bin ← fromBase58 dataStr
  fcAssert (n + 4 ≤ bin.length) "bin.size() >= sizeof(data_type) + sizeof(uint32_t): "
  let data := toVector n (bin.take n)
  fcAssert (calculateChecksum P data.toList suite.prefixStr = (bin.drop n).take 4)
    "checksum == wrapped.check: "
  .ok ⟨suite, data⟩

def base58StrParser (P : Platform) (n : ℕ) (base58str : Str) : Except Exn (Suited n) :=
  match splitPivot base58str with
  | none =>
      .error ⟨.assert, "pivot != std::string::npos: " ++
        "No delimiter in data, cannot determine suite type: ${str}"⟩
  | some (prefixStr, dataStr) => do
      fcAssert (dataStr ≠ []) "!data_str.empty(): Data only has suite type prefix: ${str}"
      if prefixStr = Suite.k1.prefixStr.toList then parseSuite P n .k1 dataStr
      else if prefixStr = Suite.r1.prefixStr.toList then parseSuite P n .r1 dataStr
      else .error ⟨.assert, "false: No matching suite type for $\x7bprefix\x7d_$\x7bdata\x7d"⟩

/-- A base prefix, an underscore and the text of the suite. -/
def parsePrefixed (P : Platform) (n : ℕ) (basePrefix noDelimiter badPrefix noData : String)
    (base58str : Str) : Except Exn (Suited n) :=
  match splitPivot base58str with
  | none => .error ⟨.assert, "pivot != std::string::npos: " ++ noDelimiter⟩
  | some (prefixStr, dataStr) => do
      fcAssert (prefixStr = basePrefix.toList) ("prefix == prefix_str: " ++ badPrefix)
      fcAssert (dataStr ≠ []) ("!data_str.empty(): " ++ noData)
      base58StrParser P n dataStr

namespace Signature

def toStr (P : Platform) (sig : Signature) : Str := "SIG_".toList ++ base58Str P none sig

def ofStr (P : Platform) (base58str : Str) : Except Exn Signature :=
  parsePrefixed P 65 "SIG" "No delimiter in string, cannot determine type: ${str}"
    "Signature Key has invalid prefix: ${str}" "Signature has no data: ${str}" base58str

end Signature

namespace PublicKey

def toStr (P : Platform) (key : PublicKey) : Str :=
  if key.which = .k1 then "EOS".toList ++ base58Str P (some .k1) key
  else "PUB_".toList ++ base58Str P (some .k1) key

def ofStr (P : Platform) (base58str : Str) : Except Exn PublicKey :=
  if (3 < base58str.length ∧ base58str.take 3 = "EOS".toList) ∧ '_' ∉ base58str then do
    let bin ← fromBase58 (base58str.drop 3)
    fcAssert (bin.length = 33 + 4) "bin.size() == sizeof(data_type) + sizeof(uint32_t): "
    let data := toVector 33 (bin.take 33)
    fcAssert (calculateChecksum P data.toList "" = bin.drop 33)
      "wrapper::calculate_checksum(wrapped.data) == wrapped.check: "
    .ok ⟨.k1, data⟩
  else
    parsePrefixed P 33 "PUB" "No delimiter in string, cannot determine data type: ${str}"
      "Public Key has invalid prefix: ${str}" "Public Key has no data: ${str}" base58str

def isCanonical (sig : CompactSignature) : Bool :=
  sig[1] < 0x80 && !(sig[1] = 0 && sig[2] < 0x80) && sig[33] < 0x80 &&
    !(sig[33] = 0 && sig[34] < 0x80)

/-- `public_key::public_key(signature, digest)`. -/
def recover (P : Platform) (sig : Signature) (digest : Sha256) : Except Exn PublicKey :=
  let nV := sig.data[0].toNat
  if nV < 27 ∨ 35 ≤ nV then
    .error ⟨.exception, "unable to reconstruct public key from signature"⟩
  else
    match sig.which with
    | .k1 => do
        fcAssert (isCanonical sig.data) "is_canonical( c ): signature is not canonical"
        match P.recoverCompactK1 digest sig.data ((nV - 27) % 4) with
        | none => .error ⟨.assert, "secp256k1_ecdsa_recover_compact: "⟩
        | some key => do
            fcAssert (key ≠ Vector.replicate 33 0) "my->_key != empty_pub: "
            .ok ⟨.k1, key⟩
    | .r1 =>
        if P.highSR1 sig.data then
          .error ⟨.exception, "invalid high s-value encountered in r1 signature"⟩
        else
          match P.recoverKeyR1 digest sig.data ((if 31 ≤ nV then nV - 4 else nV) - 27) with
          | none => .error ⟨.exception, "unable to reconstruct public key from signature"⟩
          | some key => .ok ⟨.r1, key⟩

end PublicKey

namespace PrivateKey

/-- `from_wif`. The bytes of the key pass through a variant. -/
def fromWif (P : Platform) (wifKey : Str) : Except Exn PrivateKey := do
  let wifBytes ← fromBase58 wifKey
  fcAssert (5 ≤ wifBytes.length) "wif_bytes.size() >= 5: "
  let size := wifBytes.length - 4
  let keyBytes := (wifBytes.take size).drop 1
  let check := P.sha256 (wifBytes.take size)
  let check2 := P.sha256 check.toList
  fcAssert (check.toList.take 4 = wifBytes.drop size ∨ check2.toList.take 4 = wifBytes.drop size)
    "memcmp( (char*)&check, wif_bytes.data() + wif_bytes.size() - 4, 4 ) == 0: "
  let secret ← (Variant.ofBytes keyBytes).toSha256 P (Vector.replicate 32 0)
  .ok ⟨.k1, secret⟩

def ofStr (P : Platform) (base58str : Str) : Except Exn PrivateKey :=
  if '_' ∉ base58str then fromWif P base58str
  else
    parsePrefixed P 32 "PVT" "" "Private Key has invalid prefix: ${str}"
      "Private Key has no data: ${str}" base58str

def sign (P : Platform) (key : PrivateKey) (digest : Sha256) : Except Exn Signature :=
  match key.which with
  | .k1 => do
      fcAssert (key.data ≠ Vector.replicate 32 0) "my->_key != empty_priv: "
      match P.signCompactK1 key.data digest with
      | none => .error ⟨.assert, "secp256k1_ecdsa_sign_compact: "⟩
      | some sig => .ok ⟨.k1, sig⟩
  | .r1 =>
      match P.signCompactR1 key.data digest with
      | none => .error ⟨.exception, "Unable to sign"⟩
      | some sig => .ok ⟨.r1, sig⟩

end PrivateKey

/-! ## Keys and signatures survive as text -/

theorem splitPivot_append {a : Str} (ha : '_' ∉ a) (b : Str) :
    splitPivot (a ++ '_' :: b) = some (a, b) := by
  have hall : ∀ c ∈ a, decide (c ≠ '_') = true := by
    rintro c hc
    rw [decide_eq_true_iff]
    rintro rfl
    exact ha hc
  rw [splitPivot, if_pos (by simp), List.takeWhile_append_of_pos hall,
    List.dropWhile_append_of_pos hall]
  simp

theorem length_calculateChecksum (P : Platform) (data : Bytes) (suite : String) :
    (calculateChecksum P data suite).length = 4 := by
  simp [calculateChecksum]

section RoundTrip

variable {n : ℕ} (P : Platform)

theorem parseSuite_toBase58 (suite : Suite) (data : Vector UInt8 n) :
    parseSuite P n suite
      (toBase58 (data.toList ++ calculateChecksum P data.toList suite.prefixStr)) =
      .ok ⟨suite, data⟩ := by
  have hlen : data.toList.length = n := by simp
  have hcheck := length_calculateChecksum P data.toList suite.prefixStr
  rw [parseSuite, fromBase58_toBase58, ok_bind,
    fcAssert_of (by rw [List.length_append, hlen, hcheck]), ok_bind]
  simp only [List.take_left' hlen, List.drop_left' hlen, toVector_toList,
    List.take_of_length_le hcheck.le, fcAssert_of, ok_bind]

theorem base58StrParser_named (key : Suited n) :
    base58StrParser P n (key.which.prefixStr.toList ++ '_' ::
      toBase58 (key.data.toList ++ calculateChecksum P key.data.toList key.which.prefixStr)) =
      .ok key := by
  have hne : toBase58 (key.data.toList ++
      calculateChecksum P key.data.toList key.which.prefixStr) ≠ [] := by
    apply toBase58_ne_nil
    intro h
    have hlen := length_calculateChecksum P key.data.toList key.which.prefixStr
    rw [(List.append_eq_nil_iff.1 h).2] at hlen
    exact absurd hlen (by decide)
  have hparse := parseSuite_toBase58 P key.which key.data
  rw [base58StrParser, splitPivot_append (by cases key.which <;> decide)]
  simp only [fcAssert_of hne, ok_bind]
  cases hw : key.which with
  | k1 =>
      rw [hw] at hparse
      rw [if_pos rfl, hparse, ← hw]
  | r1 =>
      rw [hw] at hparse
      rw [if_neg (by decide), if_pos rfl, hparse, ← hw]

theorem parsePrefixed_append (basePrefix noDelimiter badPrefix noData : String)
    (hp : '_' ∉ basePrefix.toList) (key : Suited n) :
    parsePrefixed P n basePrefix noDelimiter badPrefix noData
      (basePrefix.toList ++ '_' :: (key.which.prefixStr.toList ++ '_' ::
        toBase58 (key.data.toList ++ calculateChecksum P key.data.toList key.which.prefixStr))) =
      .ok key := by
  rw [parsePrefixed, splitPivot_append hp]
  simp only [fcAssert_of, ok_bind]
  rw [fcAssert_of (by simp), ok_bind, base58StrParser_named]

theorem Signature.ofStr_toStr (sig : Signature) :
    Signature.ofStr P (Signature.toStr P sig) = .ok sig :=
  parsePrefixed_append P "SIG" _ _ _ (by decide) sig

theorem length_base58Str_le (default : Option Suite) (key : Suited n) :
    (base58Str P default key).length ≤ 3 + 3 * (n + 4) := by
  have hprefix : key.which.prefixStr.toList.length = 2 := by cases key.which <;> decide
  have hdata : key.data.toList.length = n := key.data.length_toList
  unfold base58Str
  split
  · have hlen := length_toBase58_le (key.data.toList ++ calculateChecksum P key.data.toList "")
    rw [List.length_append, hdata, length_calculateChecksum] at hlen
    omega
  · have hlen := length_toBase58_le
      (key.data.toList ++ calculateChecksum P key.data.toList key.which.prefixStr)
    rw [List.length_append, hdata, length_calculateChecksum] at hlen
    rw [List.length_append, List.length_cons, hprefix]
    omega

theorem toBase58_not_underscore (d : Bytes) : '_' ∉ toBase58 d :=
  fun h => absurd (toBase58_isAlphanum d _ h) (by decide)

theorem PublicKey.ofStr_legacy (data : PublicKeyData) :
    PublicKey.ofStr P ("EOS".toList ++
      toBase58 (data.toList ++ calculateChecksum P data.toList "")) = .ok ⟨.k1, data⟩ := by
  have hlen : data.toList.length = 33 := by simp
  have hcheck := length_calculateChecksum P data.toList ""
  have hback := fromBase58_toBase58 (data.toList ++ calculateChecksum P data.toList "")
  have hpos : 0 < (toBase58 (data.toList ++ calculateChecksum P data.toList "")).length := by
    refine List.length_pos_of_ne_nil (toBase58_ne_nil fun h => ?_)
    rw [(List.append_eq_nil_iff.1 h).1] at hlen
    exact absurd hlen (by decide)
  have hunder := toBase58_not_underscore (data.toList ++ calculateChecksum P data.toList "")
  generalize toBase58 (data.toList ++ calculateChecksum P data.toList "") = text at *
  have hdrop : ("EOS".toList ++ text).drop 3 = text := List.drop_left' rfl
  have hlegacy : (3 < ("EOS".toList ++ text).length ∧
      ("EOS".toList ++ text).take 3 = "EOS".toList) ∧ '_' ∉ "EOS".toList ++ text := by
    refine ⟨⟨?_, List.take_left' rfl⟩, ?_⟩
    · rw [List.length_append]
      exact Nat.lt_add_of_pos_right hpos
    · rw [List.mem_append]
      rintro (h | h)
      · exact absurd h (by decide)
      · exact hunder h
  rw [PublicKey.ofStr, if_pos hlegacy, hdrop, hback, ok_bind,
    fcAssert_of (by rw [List.length_append, hlen, hcheck]), ok_bind]
  simp only [List.take_left' hlen, List.drop_left' hlen, toVector_toList, fcAssert_of, ok_bind]

/-- The one key text without a suite name is told apart by its missing underscore. -/
theorem PublicKey.ofStr_toStr (key : PublicKey) :
    PublicKey.ofStr P (PublicKey.toStr P key) = .ok key := by
  obtain ⟨which, data⟩ := key
  cases which with
  | k1 => exact PublicKey.ofStr_legacy P data
  | r1 =>
      have hmem : '_' ∈ PublicKey.toStr P ⟨.r1, data⟩ := by simp [PublicKey.toStr]
      rw [PublicKey.ofStr, if_neg (fun h => h.2 hmem)]
      exact parsePrefixed_append P "PUB" _ _ _ (by decide) ⟨.r1, data⟩

theorem base58Str_plain {default : Option Suite} {key : Suited n} {c : Char}
    (hc : c ∈ base58Str P default key) : c.isAlphanum ∨ c = '_' := by
  rw [base58Str] at hc
  split at hc
  · exact .inl (toBase58_isAlphanum _ c hc)
  · rcases List.mem_append.1 hc with hc | hc
    · have halnum : ∀ c ∈ key.which.prefixStr.toList, c.isAlphanum := by
        cases key.which <;> exact forall_mem_of_all (by decide)
      exact .inl (halnum c hc)
    · rcases List.mem_cons.1 hc with rfl | hc
      · exact .inr rfl
      · exact .inl (toBase58_isAlphanum _ c hc)

theorem Signature.toStr_plain {sig : Signature} {c : Char} (hc : c ∈ Signature.toStr P sig) :
    c.isAlphanum ∨ c = '_' := by
  rcases List.mem_append.1 hc with hc | hc
  · have halnum : ∀ c ∈ "SIG_".toList, c.isAlphanum ∨ c = '_' := forall_mem_of_all (by decide)
    exact halnum c hc
  · exact base58Str_plain P hc

theorem PublicKey.toStr_plain {key : PublicKey} {c : Char} (hc : c ∈ PublicKey.toStr P key) :
    c.isAlphanum ∨ c = '_' := by
  unfold PublicKey.toStr at hc
  split at hc <;> rcases List.mem_append.1 hc with hc | hc
  · have halnum : ∀ c ∈ "EOS".toList, c.isAlphanum ∨ c = '_' := forall_mem_of_all (by decide)
    exact halnum c hc
  · exact base58Str_plain P hc
  · have halnum : ∀ c ∈ "PUB_".toList, c.isAlphanum ∨ c = '_' := forall_mem_of_all (by decide)
    exact halnum c hc
  · exact base58Str_plain P hc

end RoundTrip

end SimpleBlockchain
