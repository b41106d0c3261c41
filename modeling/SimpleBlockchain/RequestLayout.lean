import SimpleBlockchain.DocumentReading
import SimpleBlockchain.LedgerRuns

/-!
# The layout of a request does not matter

A client may write the body of a request as it likes: with white space, with its members in
any order, with members that the call does not ask for. Of two members with one name the
first counts.
-/

namespace SimpleBlockchain

open JsonDocument
open JsonString (Item)

variable {H : HttpPlugin} {P : Platform} {D : KeyDerivation} {env : ApiEnv} {node : Node}

/-! ## The calls -/

def SameMembers (names : List String) (o o' : List (Str × Variant)) : Prop :=
  ∀ key ∈ names, findKey o key = findKey o' key

/-- Where no name stands twice, the order does not count. -/
theorem SameMembers.of_perm {o o' : List (Str × Variant)} (h : o.Perm o')
    (hnodup : (o.map Prod.fst).Nodup) (names : List String) : SameMembers names o o' := by
  intro key _
  rw [findKey, findKey]
  congr 1
  induction h with
  | nil => rfl
  | cons e _ ih =>
      rw [List.find?_cons, List.find?_cons, ih (List.nodup_cons.1 hnodup).2]
  | swap e e' o =>
      have hne : e'.1 ≠ e.1 := by
        rintro heq
        simp [heq] at hnodup
      by_cases he : e.1 = key.toList
      · have he' : e'.1 ≠ key.toList := by rwa [← he]
        simp [he, he']
      · simp [List.find?_cons, he]
  | trans h _ ih ih' =>
      rw [ih hnodup, ih' ((h.map Prod.fst).nodup_iff.1 hnodup)]

theorem SameMembers.visitMember {α : Type} {names : List String} {o o' : List (Str × Variant)}
    (h : SameMembers names o o') (key : String) (hkey : key ∈ names) (member : α)
    (fromVariant : Variant → Except Exn α) :
    visitMember o key member fromVariant = visitMember o' key member fromVariant := by
  rw [SimpleBlockchain.visitMember, h key hkey, SimpleBlockchain.visitMember]

def memberNames : List String := ["time_point", "data", "attach", "signature", "pub_key"]

/-- The values are equal, or objects with the same members for a transaction. -/
def SameTrx (v v' : Variant) : Prop :=
  v = v' ∨ ∃ o o', v = .object o ∧ v' = .object o' ∧ SameMembers memberNames o o'

theorem SameTrx.fromVariant {v v' : Variant} (h : SameTrx v v') :
    Transaction.fromVariant P v = Transaction.fromVariant P v' := by
  rcases h with rfl | ⟨o, o', rfl, rfl, h⟩
  · rfl
  · simp only [Transaction.fromVariant, Variant.getObject, ok_bind,
      h.visitMember "time_point" (by decide), h.visitMember "data" (by decide),
      h.visitMember "attach" (by decide), h.visitMember "signature" (by decide),
      h.visitMember "pub_key" (by decide)]

/-- The names of the members that a call reads, without the transaction for `sign_trx`. -/
def UrlHandler.asked : UrlHandler → List String
  | .ro .getBlock => ["blk_num"]
  | .ro .getBlocks => ["blk_nums"]
  | .ro .hex2char => ["hex"]
  | .ro .char2hex => ["str"]
  | .ro .signTrx => ["key"]
  | .rw .pushTransaction => "type" :: memberNames
  | _ => []

/-- What the call asks for is the same in both objects. -/
def UrlHandler.SameAsked (handler : UrlHandler) (o o' : List (Str × Variant)) : Prop :=
  SameMembers handler.asked o o' ∧ (handler = .ro .signTrx →
    SameTrx ((findKey o "trx").getD .null) ((findKey o' "trx").getD .null))

theorem SameMembers.run_ro {call : RoCall} {o o' : List (Str × Variant)}
    (h : SameMembers (UrlHandler.ro call).asked o o') (hsign : call ≠ .signTrx) :
    call.run P D env node (.object o) = call.run P D env node (.object o') := by
  cases call with
  | getInfo => rfl
  | getKeys => rfl
  | checkChain => rfl
  | getBlock =>
      simp only [RoCall.run, getBlockParams, Variant.getObject, ok_bind,
        h.visitMember _ List.mem_cons_self]
  | getBlocks =>
      simp only [RoCall.run, getBlocksParams, Variant.getObject, ok_bind,
        h.visitMember _ List.mem_cons_self]
  | hex2char =>
      simp only [RoCall.run, hex2charParams, Variant.getObject, ok_bind,
        h.visitMember _ List.mem_cons_self]
  | char2hex =>
      simp only [RoCall.run, char2hexParams, Variant.getObject, ok_bind,
        h.visitMember _ List.mem_cons_self]
  | signTrx => exact absurd rfl hsign

theorem visitMember_trx (o : List (Str × Variant)) :
    visitMember o "trx" .null .ok = .ok ((findKey o "trx").getD .null) := by
  rw [visitMember]
  cases findKey o "trx" <;> rfl

theorem run_signTrx {o o' : List (Str × Variant)} (h : (UrlHandler.ro .signTrx).SameAsked o o') :
    RoCall.signTrx.run P D env node (.object o) = RoCall.signTrx.run P D env node (.object o') := by
  have hkey := h.1.visitMember "key" List.mem_cons_self []
    fun v => v.asString P
  simp only [RoCall.run, SignTrxParams.fromVariant, Variant.getObject, ok_bind, visitMember_trx,
    hkey]
  cases visitMember o' "key" [] fun v => v.asString P with
  | error e => rfl
  | ok key => simp only [ok_bind, signTrx, signedTrx, (h.2 rfl).fromVariant]

theorem SameMembers.params_rw {call : RwCall} {o o' : List (Str × Variant)}
    (h : SameMembers (UrlHandler.rw call).asked o o') :
    call.paramsFromVariant P (.object o) = call.paramsFromVariant P (.object o') := by
  cases call with
  | publishBlk => rfl
  | pushTransaction =>
      change PushTransactionParams.fromVariant P _ = PushTransactionParams.fromVariant P _
      have hmem : ∀ key ∈ memberNames, key ∈ (UrlHandler.rw .pushTransaction).asked :=
        fun key hkey => List.mem_cons_of_mem _ hkey
      simp only [PushTransactionParams.fromVariant, Variant.getObject, ok_bind,
        h.visitMember "type" List.mem_cons_self,
        h.visitMember "data" (hmem _ (by decide)), h.visitMember "attach" (hmem _ (by decide)),
        h.visitMember "pub_key" (hmem _ (by decide)),
        h.visitMember "signature" (hmem _ (by decide)),
        h.visitMember "time_point" (hmem _ (by decide))]

/-! ## The bodies -/

/-- An object as a client may write it, with numbers in range and not nested too deep. -/
structure ObjectBody (P : Platform) where
  before : Blank
  inner : Blank
  members : Members
  after : Str
  readable : ReadableMembers P members
  depth_lt : members.depth < 100
  ends : Ends after

namespace ObjectBody

def text (r : ObjectBody P) : Str :=
  r.before.chars ++ ((Doc.object r.inner r.members).text ++ r.after)

theorem text_eq (r : ObjectBody P) :
    r.text = r.before.chars ++ '{' :: (r.inner.chars ++ (r.members.text ++ r.after)) := by
  rw [text, Doc.text]
  simp only [List.append_assoc, List.cons_append]

def entries (r : ObjectBody P) : List (Str × Variant) := memberVariants P ReadBack.read r.members

theorem bodyVariant_text (r : ObjectBody P) : bodyVariant P r.text = .ok (.object r.entries) := by
  have hne : r.text ≠ [] := by
    rw [text_eq]
    simp
  have hdepth : (Doc.object r.inner r.members).depth ≤ 100 := by
    rw [Doc.depth]
    exact r.depth_lt
  obtain ⟨x, hx, hread⟩ := fromString_reads (show Readable P (.object r.inner r.members) from
    r.readable) r.before r.ends
  rw [bodyVariant, if_neg hne, text, hread, hx.ok hdepth, Except.map, docVariant, entries]

theorem handle_eq {r r' : ObjectBody P} {handler : UrlHandler}
    (h : handler.SameAsked r.entries r'.entries) (con : Con) :
    handler.handle H P D env node r.text con = handler.handle H P D env node r'.text con := by
  cases handler with
  | ro call =>
      have hrun : call.run P D env node (.object r.entries) =
          call.run P D env node (.object r'.entries) := by
        by_cases hsign : call = .signTrx
        · subst hsign
          exact run_signTrx h
        · exact h.1.run_ro hsign
      rw [UrlHandler.handle, UrlHandler.handle, RoCall.handle, RoCall.handle,
        bodyVariant_text, bodyVariant_text, ok_bind, ok_bind, hrun]
  | rw call =>
      rw [UrlHandler.handle, UrlHandler.handle, RwCall.handle, RwCall.handle,
        bodyVariant_text, bodyVariant_text, ok_bind, ok_bind, h.1.params_rw]

end ObjectBody

/-! ## Literals -/

def literal (s : Str) : List Item := s.map fun c => escapeItem (UInt8.ofNat c.toNat)

def Ascii (c : Char) : Prop := 32 ≤ c.toNat ∧ c.toNat < 128

instance : DecidablePred Ascii := fun _ => inferInstanceAs (Decidable (_ ∧ _))

theorem toNat_ofNat_of_ascii {c : Char} (h : Ascii c) :
    (UInt8.ofNat c.toNat).toNat = c.toNat := by
  have hlt := h.2
  rw [UInt8.toNat_ofNat']
  exact Nat.mod_eq_of_lt (by omega)

theorem char_of_ascii {c : Char} (h : Ascii c) : Char.ofNat (UInt8.ofNat c.toNat).toNat = c := by
  rw [toNat_ofNat_of_ascii h, Char.ofNat_toNat]

theorem literal_cons (c : Char) (s : Str) :
    literal (c :: s) = escapeItem (UInt8.ofNat c.toNat) :: literal s := rfl

theorem byteStr_literal {s : Str} (h : ∀ c ∈ s, Ascii c) :
    byteStr ((literal s).flatMap Item.bytes) = s := by
  induction s with
  | nil => rfl
  | cons c s ih =>
      rw [List.forall_mem_cons] at h
      rw [literal_cons, List.flatMap_cons, bytes_escapeItem, List.singleton_append, byteStr,
        List.map_cons, ← byteStr, ih h.2, char_of_ascii h.1]

theorem known_literal {s : Str} (h : ∀ c ∈ s, Ascii c) : ∀ i ∈ literal s, ReadBack.Known i := by
  intro i hi
  obtain ⟨c, hc, rfl⟩ := List.mem_map.1 hi
  refine (known_escapeItem _).2 (Or.inl ?_)
  rw [UInt8.le_iff_toNat_le, toNat_ofNat_of_ascii (h c hc)]
  exact (h c hc).1

theorem ascii_of_isAlphanum_or {c : Char} (h : c.isAlphanum ∨ c = '_') : Ascii c := by
  rcases h with h | rfl
  · have hc : c.toNat = c.val.toNat := rfl
    have hranges : ((decide (c.val ≥ 65 ∧ c.val ≤ 90) ||
        (decide (c.val ≥ 97) && decide (c.val ≤ 122))) ||
        (decide (c.val ≥ 48) && decide (c.val ≤ 57))) = true := h
    simp [UInt32.le_iff_toNat_le] at hranges
    exact ⟨by omega, by omega⟩
  · decide

theorem text_literal {s : Str} (h : ∀ c ∈ s, Ascii c) (hq : '"' ∉ s) (hb : '\\' ∉ s) :
    (literal s).flatMap Item.text = s := by
  induction s with
  | nil => rfl
  | cons c s ih =>
      rw [List.forall_mem_cons] at h
      rw [List.mem_cons, not_or] at hq hb
      rw [literal_cons, List.flatMap_cons, ih h.2 hq.2 hb.2, ← escapeChar_eq, char_of_ascii h.1,
        escapeChar_of_ge h.1.1 (Ne.symm hq.1) (Ne.symm hb.1)]
      rfl

theorem read_literal {s : Str} (h : ∀ c ∈ s, Ascii c) :
    byteStr ((literal s).flatMap ReadBack.read) = s := by
  rw [byteStr_known (known_literal h), byteStr_literal h]

/-- A member, and white space before it and around its parts. -/
def member (before around : Blank) (key : String) (v : Doc) (rest : Members) : Members :=
  .cons before (literal key.toList) around around v around rest

def field (before around : Blank) (key : String) (value : Str) (rest : Members) : Members :=
  member before around key (.string (literal value)) rest

section Members

variable {before around : Blank} {key : String} {rest : Members}

theorem readable_member {v : Doc} (hv : Readable P v) (hrest : ReadableMembers P rest) :
    ReadableMembers P (member before around key v rest) := ⟨fun _ _ => trivial, hv, hrest⟩

theorem memberVariants_member (hkey : ∀ c ∈ key.toList, Ascii c) (v : Doc) :
    memberVariants P ReadBack.read (member before around key v rest) =
      (key.toList, docVariant P ReadBack.read v) :: memberVariants P ReadBack.read rest := by
  rw [member, memberVariants, read_literal hkey]

theorem readable_field {value : Str} (hrest : ReadableMembers P rest) :
    ReadableMembers P (field before around key value rest) :=
  readable_member (fun _ _ => trivial) hrest

theorem memberVariants_field {value : Str} (hkey : ∀ c ∈ key.toList, Ascii c)
    (hvalue : ∀ c ∈ value, Ascii c) :
    memberVariants P ReadBack.read (field before around key value rest) =
      (key.toList, .string value) :: memberVariants P ReadBack.read rest := by
  rw [field, memberVariants_member hkey, docVariant, read_literal hvalue]

end Members

theorem numberVariant_ofNat (hP : P.BoostExact) {n : ℕ} (hn : n < 2 ^ 64) :
    numberVariant P (.ofNat n) = .ok (.uint64 (UInt64.ofNat n)) := by
  have hcast := hP.cast_inverse (UInt64.ofNat n)
  rw [UInt64.toNat_ofNat_of_lt' hn] at hcast
  have htext : (Numeral.ofNat n).text = decimal n := List.append_nil _
  rw [numberVariant, htext, toUInt64, hcast]
  rfl

namespace Sample

end Sample

/-! ## Requests -/

namespace Transaction

def entries (P : Platform) (t : Transaction) : List (Str × Variant) :=
  [("time_point".toList, .ofTime P t.timePoint),
   ("data".toList, .ofBytes t.data),
   ("attach".toList, .ofBytes t.attach),
   ("signature".toList, .string (t.signature.toStr P)),
   ("pub_key".toList, .string (t.pubKey.toStr P))]

theorem object_entries (t : Transaction) : .object (t.entries P) = t.toVariant P := rfl

end Transaction

/-- If there is a member `type`, it is a number. -/
def TypeReads (P : Platform) (o : List (Str × Variant)) : Prop :=
  ∀ v, findKey o "type" = some v → ∃ n, v.asUInt64 P = .ok n

/-- The members of the transaction count, and that `type` can be read. -/
theorem pushParams_of_members {o o' : List (Str × Variant)} (h : SameMembers memberNames o o')
    (htype : TypeReads P o) (htype' : findKey o' "type" = none) :
    PushTransactionParams.fromVariant P (.object o) =
      PushTransactionParams.fromVariant P (.object o') := by
  have hread : ∃ n, (visitMember o "type" 0 fun type => UInt64.toUInt32 <$> type.asUInt64 P) =
      .ok n := by
    rw [visitMember]
    cases hfind : findKey o "type" with
    | none => exact ⟨_, rfl⟩
    | some v =>
        obtain ⟨n, hn⟩ := htype v hfind
        refine ⟨n.toUInt32, ?_⟩
        dsimp only
        rw [hn]
        rfl
  have hread' : (visitMember o' "type" (0 : UInt32) fun type =>
      UInt64.toUInt32 <$> type.asUInt64 P) = .ok 0 := by
    rw [visitMember, htype']
  obtain ⟨n, hn⟩ := hread
  simp only [PushTransactionParams.fromVariant, Variant.getObject, ok_bind, hn, hread',
    h.visitMember "data" (by decide), h.visitMember "attach" (by decide),
    h.visitMember "pub_key" (by decide), h.visitMember "signature" (by decide),
    h.visitMember "time_point" (by decide)]

theorem pushParams_of_type {o : List (Str × Variant)} (htype : ¬ TypeReads P o) :
    ∃ e, PushTransactionParams.fromVariant P (.object o) = .error e := by
  unfold TypeReads at htype
  push Not at htype
  obtain ⟨v, hfind, hv⟩ := htype
  cases hread : v.asUInt64 P with
  | ok n => exact absurd hread (hv n)
  | error e =>
      refine ⟨e, ?_⟩
      rw [PushTransactionParams.fromVariant, Variant.getObject, ok_bind, visitMember, hfind]
      dsimp only
      rw [hread]
      rfl

namespace Sample

def trxMembers : Members :=
  field .space .space "pub_key" (trx.pubKey.toStr platform)
    (field .space .space "signature" (trx.signature.toStr platform)
      (member .space .space "type" (.number (.ofNat 3))
        (field .space .space "attach" []
          (field .space .space "data" (hexText trx.data)
            (field .space .space "time_point" isoText
              (member .space .space "more" (.array .space .nil) .nil))))))

theorem ascii_pubKey : ∀ c ∈ trx.pubKey.toStr platform, Ascii c :=
  fun _ hc => ascii_of_isAlphanum_or (PublicKey.toStr_plain platform hc)

theorem ascii_signature : ∀ c ∈ trx.signature.toStr platform, Ascii c :=
  fun _ hc => ascii_of_isAlphanum_or (Signature.toStr_plain platform hc)

theorem ascii_data : ∀ c ∈ hexText trx.data, Ascii c := forall_mem_of_all (by decide)

theorem ascii_isoText : ∀ c ∈ isoText, Ascii c := forall_mem_of_all (by decide)

/-- A transaction with its members in another order, a type and one member more. -/
def trxBody : ObjectBody platform where
  before := .space
  inner := .space
  members := trxMembers
  after := "\r\n".toList
  readable := readable_field (readable_field
    (readable_member ⟨_, numberVariant_ofNat boostExact (by decide)⟩
      (readable_field (readable_field (readable_field (readable_member trivial trivial))))))
  depth_lt := by
    simp [trxMembers, field, member, Members.depth, Doc.depth, Elems.depth]
  ends := by
    rintro c ⟨⟩
    decide

theorem entries_trxBody : trxBody.entries =
    [("pub_key".toList, .string (trx.pubKey.toStr platform)),
     ("signature".toList, .string (trx.signature.toStr platform)),
     ("type".toList, .uint64 3), ("attach".toList, .string []),
     ("data".toList, .string (hexText trx.data)), ("time_point".toList, .string isoText),
     ("more".toList, .array [])] := by
  have htype : docVariant platform ReadBack.read (.number (.ofNat 3)) = .uint64 3 := by
    rw [docVariant, numberVariant_ofNat boostExact (by decide)]
    rfl
  change memberVariants platform ReadBack.read trxMembers = _
  rw [trxMembers, memberVariants_field (forall_mem_of_all (by decide)) ascii_pubKey,
    memberVariants_field (forall_mem_of_all (by decide)) ascii_signature,
    memberVariants_member (forall_mem_of_all (by decide)), htype,
    memberVariants_field (forall_mem_of_all (by decide)) (by simp),
    memberVariants_field (forall_mem_of_all (by decide)) ascii_data,
    memberVariants_field (forall_mem_of_all (by decide)) ascii_isoText,
    memberVariants_member (forall_mem_of_all (by decide))]
  rfl

theorem findKey_shuffled (timePoint data attach signature pubKey type more : Variant) :
    SameMembers memberNames
      [("pub_key".toList, pubKey), ("signature".toList, signature), ("type".toList, type),
        ("attach".toList, attach), ("data".toList, data), ("time_point".toList, timePoint),
        ("more".toList, more)]
      [("time_point".toList, timePoint), ("data".toList, data), ("attach".toList, attach),
        ("signature".toList, signature), ("pub_key".toList, pubKey)] := by
  intro key hkey
  simp only [memberNames, List.mem_cons, List.not_mem_nil, or_false] at hkey
  rcases hkey with rfl | rfl | rfl | rfl | rfl <;> rfl

theorem entries_trx : trx.entries platform =
    [("time_point".toList, .string isoText), ("data".toList, .string (hexText trx.data)),
     ("attach".toList, .string []), ("signature".toList, .string (trx.signature.toStr platform)),
     ("pub_key".toList, .string (trx.pubKey.toStr platform))] := by
  have htime : Variant.ofTime platform trx.timePoint = .string isoText := by
    rw [Variant.ofTime]
    rfl
  have hdata : Variant.ofBytes trx.data = .string (hexText trx.data) := rfl
  have hattach : Variant.ofBytes trx.attach = .string [] := rfl
  rw [Transaction.entries, htime, hdata, hattach]

end Sample

/-- An acceptable transaction is accepted however a client writes it, in a body that is not too
large. Of other members only `type` counts: if it is no number, there is no answer. -/
theorem pushed_in_any_layout (hP : P.BoostExact) {req : Request} {r : ObjectBody P}
    (h : Served H (req.ask "push_transaction" r.text)) {t : Transaction} (ht : Admitted P t)
    (hmembers : SameMembers memberNames r.entries (t.entries P)) (D : KeyDerivation)
    (env : ApiEnv) (node : Node) :
    (TypeReads P r.entries →
      (processRequest H P D env node (req.ask "push_transaction" r.text)).1 =
        { node with buf := node.buf.cacheTrx t } ∧
      (processRequest H P D env node (req.ask "push_transaction" r.text)).2.Replied 202
        (RwCall.pushTransaction.resultText P (t.toVariant P))) ∧
    (¬ TypeReads P r.entries →
      (processRequest H P D env node (req.ask "push_transaction" r.text)).1 = node ∧
      (processRequest H P D env node (req.ask "push_transaction" r.text)).2.written = []) := by
  refine ⟨fun htype => ?_, fun htype => ?_⟩
  · obtain ⟨p, hp, htrx⟩ := PushTransactionParams.fromVariant_toVariant hP
      (Transaction.small_of_validate ht.validate)
    have hparams : RwCall.pushTransaction.params P r.text = .ok p := by
      rw [RwCall.params, r.bodyVariant_text, ok_bind]
      change PushTransactionParams.fromVariant P _ = _
      rw [pushParams_of_members hmembers htype rfl, Transaction.object_entries]
      exact hp
    have haccepted : AcceptedPush H P (req.ask "push_transaction" r.text) t :=
      ⟨h, rfl, p, hparams, htrx, ht.validate⟩
    exact processRequest_accepted P D env node haccepted
  · obtain ⟨e, he⟩ := pushParams_of_type htype
    have hparams : RwCall.pushTransaction.params P r.text = .error e := by
      rw [RwCall.params, r.bodyVariant_text, ok_bind]
      exact he
    have hurl : (req.ask "push_transaction" r.text).resource =
        apiUrl RwCall.pushTransaction.callName := rfl
    exact processRequest_malformed P D env node h hurl hparams

theorem sample_pushed_in_any_layout :
    (processRequest Sample.http Sample.platform Sample.keyDerivation Sample.apiEnv
      ⟨Sample.buf, .empty⟩ (Sample.socketRequest.ask "push_transaction" Sample.trxBody.text)).1 =
      ⟨Sample.buf.cacheTrx Sample.trx, .empty⟩ := by
  have hmembers : SameMembers memberNames Sample.trxBody.entries
      (Sample.trx.entries Sample.platform) := by
    rw [Sample.entries_trxBody, Sample.entries_trx]
    exact Sample.findKey_shuffled _ _ _ _ _ _ _
  have htype : TypeReads Sample.platform Sample.trxBody.entries := by
    rw [Sample.entries_trxBody]
    rintro v ⟨⟩
    exact ⟨3, rfl⟩
  have hsize : Sample.trxBody.text.length ≤ Sample.http.maxBodySize.toNat := by decide +kernel
  exact ((pushed_in_any_layout Sample.boostExact (Sample.served.ask "push_transaction" hsize)
    (admitted_iff.2 Sample.validate_trx) hmembers Sample.keyDerivation Sample.apiEnv
    ⟨Sample.buf, .empty⟩).1 htype).1

end SimpleBlockchain
