import SimpleBlockchain.RawPack
import SimpleBlockchain.JsonRoundTrip

/-!
# Transactions
-/

namespace SimpleBlockchain

structure Transaction where
  timePoint : UInt32
  data : Bytes
  attach : Bytes
  signature : Signature
  pubKey : PublicKey
deriving DecidableEq

namespace Transaction

/-- A default-constructed transaction. -/
def blank : Transaction := ⟨0, [], [], blankSignature, blankPublicKey⟩

def digest (P : Platform) (t : Transaction) : Except Exn Sha256 := do
  let attach ← packBytes t.attach
  let data ← packBytes t.data
  .ok (P.sha256 (packUInt32 t.timePoint ++ attach ++ data ++ packSuited t.pubKey))

def validate (P : Platform) (t : Transaction) : Except Exn Bool :=
  if t.data.length = 0 then .ok false
  else if blankSignature = t.signature then .ok false
  else do
    let digest ← t.digest P
    let recoverKey ← PublicKey.recover P t.signature digest
    .ok (recoverKey = t.pubKey)

/-- The fields in the order of `FC_REFLECT`, which is not that of `digest`. -/
def pack (t : Transaction) : Except Exn Bytes := do
  let data ← packBytes t.data
  let attach ← packBytes t.attach
  .ok (packUInt32 t.timePoint ++ data ++ attach ++ packSuited t.signature ++ packSuited t.pubKey)

def toVariant (P : Platform) (t : Transaction) : Variant :=
  .object
    [("time_point".toList, .ofTime P t.timePoint),
     ("data".toList, .ofBytes t.data),
     ("attach".toList, .ofBytes t.attach),
     ("signature".toList, .string (t.signature.toStr P)),
     ("pub_key".toList, .string (t.pubKey.toStr P))]

end Transaction

/-- `from_variant_visitor`: a missing member keeps its value. -/
def visitMember {α : Type} (o : List (Str × Variant)) (key : String) (member : α)
    (fromVariant : Variant → Except Exn α) : Except Exn α :=
  match findKey o key with
  | none => .ok member
  | some v => fromVariant v

def Signature.fromVariant (P : Platform) (v : Variant) : Except Exn Signature := do
  let s ← v.asString P
  Signature.ofStr P s

def PublicKey.fromVariant (P : Platform) (v : Variant) : Except Exn PublicKey := do
  let s ← v.asString P
  PublicKey.ofStr P s

namespace Transaction

def fromVariant (P : Platform) (v : Variant) : Except Exn Transaction := do
  let o ← v.getObject
  let timePoint ← visitMember o "time_point" blank.timePoint (·.toTime P)
  let data ← visitMember o "data" blank.data (·.toBytes P)
  let attach ← visitMember o "attach" blank.attach (·.toBytes P)
  let signature ← visitMember o "signature" blank.signature (Signature.fromVariant P)
  let pubKey ← visitMember o "pub_key" blank.pubKey (PublicKey.fromVariant P)
  .ok ⟨timePoint, data, attach, signature, pubKey⟩

/-- `from_variant(vector<Transaction>)`. -/
def vectorFromVariant (P : Platform) (v : Variant) : Except Exn (List Transaction) := do
  let vars ← v.getArray
  vars.mapM (fromVariant P)

/-- The byte vectors of a transaction are small enough to be written in full. -/
def Small (t : Transaction) : Prop := t.data.length < 2 ^ 32 ∧ t.attach.length < 2 ^ 32

/-- What is read back of a transaction that was written as JSON. -/
def cut (t : Transaction) : Transaction :=
  { t with data := cutSize t.data, attach := cutSize t.attach }

theorem cut_eq_self {t : Transaction} : t.cut = t ↔ t.Small := by
  rw [Small, ← cutSize_eq_self, ← cutSize_eq_self]
  obtain ⟨_, data, attach, _, _⟩ := t
  simp [cut]

theorem isPrefixCode_pack : PrefixCode.IsPrefixCode (fun t x => pack t = .ok x) := by
  have hcode := (((isPrefixCode_packUInt32.seq isPrefixCode_packBytes).seq
    isPrefixCode_packBytes).seq (isPrefixCode_packSuited 65)).seq (isPrefixCode_packSuited 33)
  have hinj : Function.Injective (fun t : Transaction =>
      ((((t.timePoint, t.data), t.attach), t.signature), t.pubKey)) := by
    rintro ⟨_, _, _, _, _⟩ ⟨_, _, _, _, _⟩ h
    simp only [Prod.mk.injEq] at h
    obtain ⟨⟨⟨⟨rfl, rfl⟩, rfl⟩, rfl⟩, rfl⟩ := h
    rfl
  apply (hcode.comap hinj).mono
  intro t x hx
  obtain ⟨data, hdata, hx⟩ := bind_eq_ok.1 hx
  obtain ⟨attach, hattach, hx⟩ := bind_eq_ok.1 hx
  cases hx
  exact ⟨_, _, ⟨_, _, ⟨_, _, ⟨_, _, rfl, hdata, rfl⟩, hattach, rfl⟩, rfl, rfl⟩, rfl, rfl⟩

theorem small_of_digest {P : Platform} {t : Transaction} {d : Sha256}
    (h : t.digest P = .ok d) : t.Small := by
  obtain ⟨attach, hattach, h⟩ := bind_eq_ok.1 h
  obtain ⟨data, hdata, h⟩ := bind_eq_ok.1 h
  obtain ⟨_, ha, _⟩ := bind_eq_ok.1 hattach
  obtain ⟨_, hd, _⟩ := bind_eq_ok.1 hdata
  rw [fcAssert_eq_ok] at ha hd
  exact ⟨lt_of_le_of_lt hd (by decide), lt_of_le_of_lt ha (by decide)⟩

theorem small_of_validate {P : Platform} {t : Transaction} (h : t.validate P = .ok true) :
    t.Small := by
  unfold validate at h
  split at h
  · cases h
  split at h
  · cases h
  obtain ⟨d, hd, _⟩ := bind_eq_ok.1 h
  exact small_of_digest hd

end Transaction

/-! ## A transaction as JSON -/

theorem reread_ofBytes (d : Bytes) : reread (.ofBytes d) = .ofBytes d := by
  unfold Variant.ofBytes
  split <;> rw [reread]

theorem storable_ofBytes (k : ℕ) (d : Bytes) : Storable k (.ofBytes d) := by
  unfold Variant.ofBytes
  split
  · exact .string k _ fun c hc => .of_isAlphanum (toHex_isAlphanum _ _ c hc)
  · exact .string k _ (by simp)

theorem Plain.of_isAlphanum_or {c : Char} (h : c.isAlphanum ∨ c = '_') : Plain c := by
  rcases h with h | rfl
  · exact .of_isAlphanum h
  · exact .inl (by decide)

theorem plain_name {name : String}
    (h : name.toList.all (fun c => decide (c.isAlphanum ∨ c = '_')) = true) :
    ∀ c ∈ name.toList, Plain c :=
  fun c hc => .of_isAlphanum_or (forall_mem_of_all h c hc)

theorem storable_ofTime {P : Platform} (hP : P.BoostExact) (k : ℕ) (t : UInt32) :
    Storable k (.ofTime P t) := by
  refine .string k _ fun c hc => ?_
  rcases hP.iso_alphabet t c hc with h | rfl | rfl | rfl
  · exact .of_isAlphanum (isAlphanum_of_isDigit h)
  all_goals exact .inl (by decide)

theorem Signature.fromVariant_toStr (P : Platform) (sig : Signature) :
    Signature.fromVariant P (.string (sig.toStr P)) = .ok sig :=
  Signature.ofStr_toStr P sig

theorem PublicKey.fromVariant_toStr (P : Platform) (key : PublicKey) :
    PublicKey.fromVariant P (.string (key.toStr P)) = .ok key :=
  PublicKey.ofStr_toStr P key

namespace Transaction

variable {P : Platform}

theorem fromVariant_toVariant (hP : P.BoostExact) (t : Transaction) :
    fromVariant P (t.toVariant P) = .ok t.cut := by
  have hfields : fromVariant P (t.toVariant P) = (do
      let timePoint ← (Variant.ofTime P t.timePoint).toTime P
      let data ← (Variant.ofBytes t.data).toBytes P
      let attach ← (Variant.ofBytes t.attach).toBytes P
      let signature ← Signature.fromVariant P (.string (t.signature.toStr P))
      let pubKey ← PublicKey.fromVariant P (.string (t.pubKey.toStr P))
      .ok ⟨timePoint, data, attach, signature, pubKey⟩) := rfl
  rw [hfields, toTime_ofTime hP, toBytes_ofBytes, toBytes_ofBytes, Signature.fromVariant_toStr,
    PublicKey.fromVariant_toStr]
  rfl

theorem reread_toVariant (t : Transaction) : reread (t.toVariant P) = t.toVariant P := by
  simp only [toVariant, Variant.ofTime, reread, rereadEntries, reread_ofBytes]

theorem storable_toVariant (hP : P.BoostExact) (t : Transaction) :
    Storable 1 (t.toVariant P) := by
  refine .object 0 _ ?_ ?_
  · simp only [List.forall_mem_cons]
    exact ⟨plain_name (by decide), plain_name (by decide), plain_name (by decide),
      plain_name (by decide), plain_name (by decide), by simp⟩
  · simp only [List.forall_mem_cons]
    refine ⟨storable_ofTime hP 0 _, storable_ofBytes 0 _, storable_ofBytes 0 _, ?_, ?_, by simp⟩
    · exact .string 0 _ fun c hc => .of_isAlphanum_or (Signature.toStr_plain P hc)
    · exact .string 0 _ fun c hc => .of_isAlphanum_or (PublicKey.toStr_plain P hc)

theorem vectorFromVariant_toVariant (hP : P.BoostExact) (ts : List Transaction) :
    vectorFromVariant P (reread (.array (ts.map (toVariant P)))) = .ok (ts.map cut) := by
  have helems : rereadElems (ts.map (toVariant P)) = ts.map (toVariant P) := by
    induction ts with
    | nil => rfl
    | cons t ts ih => rw [List.map_cons, rereadElems, reread_toVariant, ih]
  rw [reread, helems, vectorFromVariant, Variant.getArray, ok_bind]
  induction ts with
  | nil => rfl
  | cons t ts ih =>
      rw [List.map_cons, rereadElems, List.cons.injEq] at helems
      rw [List.map_cons, List.mapM_cons, fromVariant_toVariant hP, ok_bind, ih helems.2]
      rfl

end Transaction

end SimpleBlockchain
