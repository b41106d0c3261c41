import SimpleBlockchain.RequestLayout
import SimpleBlockchain.ScheduledJob

/-!
# From a sensor to the chain

The job that records a reading has the node turn it into hex digits, has a transaction with
them signed, pushes the transaction and publishes a block. Where `sh` knows `[[`, it gives up
as soon as an answer has `error` in it.
-/

namespace SimpleBlockchain

open JsonDocument
open JsonString (Item)
open Transition

/-! ## The script alone -/

/-- One request of the job to a node that is up. -/
def Job.advance (H : HttpPlugin) (P : Platform) (D : KeyDerivation) (C : Scripts) (env : ApiEnv)
    (node : Node) (job : Job) : Node × Job :=
  match job.request C with
  | none => (node, job)
  | some req =>
      if C.TooLong req then (node, job.next C [])
      else
        let (node, con) := processRequest H P D env node req
        (node, job.next C (con.written.flatMap Response.body))

/-- `pushblock_fromIoT.sh` on a node with no other clients. Its exit status is 0 when the job
is over and has printed nothing. -/
def pushblockFromIoT (H : HttpPlugin) (P : Platform) (D : KeyDerivation) (C : Scripts)
    (envs : ℕ → ApiEnv) (date iofjson : Str) (node : Node) : Node × Job :=
  let (node, job) := Job.advance H P D C (envs 0) node (.recording C date iofjson)
  let (node, job) := Job.advance H P D C (envs 1) node job
  let (node, job) := Job.advance H P D C (envs 2) node job
  Job.advance H P D C (envs 3) node job

variable {H : HttpPlugin} {P : Platform} {D : KeyDerivation} {C : Scripts} {env : ApiEnv}
  {node : Node} {bs : List Block} {req : Request}

/-! ## The texts -/

theorem not_mentionsError {reply : Str} (h : 'r' ∉ reply) : ¬ MentionsError reply := by
  intro herror
  exact h (herror.subset (by decide))

/-- A word is not spread over a character that is not in it. -/
theorem infix_append_cons {α : Type} {w a b : List α} {s : α} (hs : s ∉ w)
    (h : w <:+: a ++ s :: b) : w <:+: a ∨ w <:+: b := by
  obtain ⟨l, r, heq⟩ := h
  rw [List.append_eq_append_iff] at heq
  rcases heq with ⟨c, ha, _⟩ | ⟨c, hlw, hc⟩
  · exact Or.inl ⟨l, c, ha.symm⟩
  rw [List.append_eq_append_iff] at hlw
  rcases hlw with ⟨e, ha, hw⟩ | ⟨e, hl, hw⟩
  · cases c with
    | nil =>
        rw [List.append_nil] at hw
        exact Or.inl ⟨l, [], by rw [List.append_nil, ha, hw]⟩
    | cons c' c =>
        rw [List.cons_append, List.cons.injEq] at hc
        exact absurd (by rw [hw, hc.1]; simp) hs
  · cases e with
    | nil =>
        rw [List.nil_append] at hw
        cases c with
        | nil => exact Or.inl ⟨l, [], by rw [hl, ← hw]; simp⟩
        | cons c' c =>
            rw [List.cons_append, List.cons.injEq] at hc
            exact absurd (by rw [← hw, hc.1]; simp) hs
    | cons e' e =>
        rw [hw, List.append_assoc, List.cons_append, List.cons.injEq] at hc
        exact Or.inr ⟨e, r, by rw [hc.2, List.append_assoc]⟩

theorem substituted_concat {c : Char} (hc : c ≠ '\n') (out : Str) :
    substituted (out ++ [c]) = out ++ [c] := by
  rw [substituted, List.rdropWhile_concat_neg]
  simpa using hc

def Unspaced (s : Str) : Prop := ∀ c ∈ s, isIfs c = false

theorem Unspaced.append {s s' : Str} (h : Unspaced s) (h' : Unspaced s') : Unspaced (s ++ s') :=
  List.forall_mem_append.2 ⟨h, h'⟩

theorem isIfs_of_isAlphanum {c : Char} (h : c.isAlphanum) : isIfs c = false := by
  have hne : ∀ s, ¬ s.isAlphanum = true → c ≠ s := by
    rintro s hs rfl
    exact hs h
  have h1 := hne ' ' (by decide)
  have h2 := hne '\t' (by decide)
  have h3 := hne '\n' (by decide)
  simp [isIfs, h1, h2, h3]

theorem Unspaced.of_isAlphanum {s : Str} (h : ∀ c ∈ s, c.isAlphanum ∨ c = '_') : Unspaced s := by
  intro c hc
  rcases h c hc with hc | rfl
  · exact isIfs_of_isAlphanum hc
  · decide

theorem dataWord_of_unspaced {value : Str} (h : Unspaced value) (before after : Str) :
    dataWord before value after = before ++ (value ++ after) := by
  have hnone : ¬ value.any isIfs = true := by
    rw [List.any_eq_true]
    rintro ⟨c, hc, hifs⟩
    rw [h c hc] at hifs
    cases hifs
  rw [dataWord, if_neg hnone]

theorem firstWord_of_unspaced {value : Str} (h : Unspaced value) : firstWord value = value := by
  have hword : ∀ c ∈ value, (!isIfs c) = true := fun c hc => by rw [h c hc]; rfl
  have hdrop : value.dropWhile isIfs = value := by
    cases value with
    | nil => rfl
    | cons c value => rw [List.dropWhile_cons_of_neg (by simp [h c List.mem_cons_self])]
  rw [firstWord, hdrop, (takeWhile_of_forall hword).1]

/-- What `json.dumps` writes of a reading in which nothing has to be escaped. -/
def PlainReading (line : Str) : Prop := ∀ c ∈ line, Ascii c ∧ c ≠ '\\'

def recorded (line : Str) : Str := line.filter (· ≠ ' ')

def recordedBytes (line : Str) : Bytes := (recorded line).map fun c => UInt8.ofNat c.toNat

theorem PlainReading.recorded {line : Str} (h : PlainReading line) :
    ∀ c ∈ recorded line, Ascii c ∧ c ≠ '\\' := fun c hc => h c (List.mem_of_mem_filter hc)

theorem byteStr_recordedBytes {line : Str} (h : PlainReading line) :
    byteStr (recordedBytes line) = recorded line := by
  have hread := h.recorded
  rw [recordedBytes]
  generalize SimpleBlockchain.recorded line = s at hread ⊢
  induction s with
  | nil => rfl
  | cons c s ih =>
      rw [List.forall_mem_cons] at hread
      rw [List.map_cons, byteStr, List.map_cons, ← byteStr, ih hread.2, char_of_ascii hread.1.1]

/-- `sed` makes a literal of the reading. -/
theorem sedQuotes_eq {line : Str} (h : PlainReading line) :
    sedQuotes line = (literal (recorded line)).flatMap Item.text := by
  have hread := h.recorded
  rw [sedQuotes, ← SimpleBlockchain.recorded]
  generalize SimpleBlockchain.recorded line = s at hread ⊢
  induction s with
  | nil => rfl
  | cons c s ih =>
      rw [List.forall_mem_cons] at hread
      rw [List.flatMap_cons, ih hread.2, literal_cons, List.flatMap_cons, ← escapeChar_eq,
        char_of_ascii hread.1.1]
      congr 1
      split
      · next hq => rw [hq]; rfl
      · next hq => rw [escapeChar_of_ge hread.1.1.1 hq hread.1.2]

theorem unspaced_sedQuotes {line : Str} (h : PlainReading line) : Unspaced (sedQuotes line) := by
  intro c hc
  obtain ⟨d, hd, hc⟩ := List.mem_flatMap.1 hc
  split at hc
  · rcases List.mem_pair.1 hc with rfl | rfl <;> decide
  · rw [List.mem_singleton] at hc
    subst hc
    have hspace : c ≠ ' ' := of_decide_eq_true (List.mem_filter.1 hd).2
    have hge := (h.recorded c hd).1.1
    have htab : c ≠ '\t' := by
      rintro rfl
      exact absurd hge (by decide)
    have hbreak : c ≠ '\n' := by
      rintro rfl
      exact absurd hge (by decide)
    simp [isIfs, hspace, htab, hbreak]

theorem length_sedQuotes_le (line : Str) :
    (sedQuotes line).length ≤ 2 * (recordedBytes line).length := by
  rw [sedQuotes, recordedBytes, List.length_map, recorded]
  induction line.filter (· ≠ ' ') with
  | nil => exact Nat.le_refl 0
  | cons c s ih =>
      rw [List.flatMap_cons, List.length_append, List.length_cons]
      split
      · rw [List.length_cons, List.length_singleton]
        omega
      · rw [List.length_singleton]
        omega

/-- What the script reads of the line that Python prints. -/
theorem substituted_sedQuotes {line : Str} (h : PlainReading line) :
    substituted (sedQuotes (line ++ ['\n'])) = sedQuotes line := by
  have hsplit : sedQuotes (line ++ ['\n']) = sedQuotes line ++ ['\n'] := by
    simp [sedQuotes]
  have hbreak : '\n' ∉ sedQuotes line := fun hmem =>
    absurd (unspaced_sedQuotes h _ hmem) (by decide)
  rw [hsplit, substituted_line hbreak]

theorem char2hexData_of_unspaced {jsondata : Str} (h : Unspaced jsondata) :
    char2hexData jsondata = strObject ('"' :: jsondata ++ ['"']) := by
  rw [char2hexData, dataWord_of_unspaced h]
  simp only [strObject, List.cons_append, List.append_assoc]
  rfl

theorem length_char2hexData {jsondata : Str} (h : Unspaced jsondata) :
    (char2hexData jsondata).length = jsondata.length + 10 := by
  have hbefore : "\x7b\"str\":\"".toList.length = 8 := by decide
  have hafter : "\"\x7d".toList.length = 2 := by decide
  rw [char2hexData, dataWord_of_unspaced h, List.length_append, List.length_append, hbefore,
    hafter]
  omega

/-! ## The answers -/

/-- A body of this length is neither too large for the node nor too long for a command. -/
def Sendable (H : HttpPlugin) (C : Scripts) (n : ℕ) : Prop :=
  n ≤ H.maxBodySize.toNat ∧ n < C.maxArgStrlen

theorem Sendable.short {n : ℕ} (h : Sendable H C n) {body : Str} (hle : body.length ≤ n)
    (req : Request) (callName : String) : ¬ C.TooLong (req.ask callName body) :=
  fun hlong => absurd (Nat.lt_of_le_of_lt hle h.2) (Nat.not_lt.2 hlong.2)

theorem Sendable.served {n : ℕ} (h : Sendable H C n) {body : Str} (hle : body.length ≤ n)
    (hreq : Served H req) (callName : String) : Served H (req.ask callName body) :=
  hreq.ask callName (hle.trans h.1)

theorem advance_eq {job : Job} (hreq : job.request C = some req) (hshort : ¬ C.TooLong req) :
    Job.advance H P D C env node job = ((processRequest H P D env node req).1,
      job.next C ((processRequest H P D env node req).2.written.flatMap Response.body)) := by
  rw [Job.advance, hreq]
  simp only [if_neg hshort]

theorem advance_replied {job : Job} (hreq : job.request C = some req) (hshort : ¬ C.TooLong req)
    {node' : Node} {code : ℕ} {body : Str}
    (hnode : (processRequest H P D env node req).1 = node')
    (hreply : (processRequest H P D env node req).2.Replied code body) :
    Job.advance H P D C env node job = (node', job.next C body) := by
  rw [advance_eq hreq hshort, hnode, hreply.flatMap_body]

theorem Job.unlessError_of_not {reply : Str} (h : ¬ C.GivesUp reply) (job : Job) :
    Job.unlessError C reply job = job := if_neg h

theorem not_mentionsError_hex (d : Bytes) :
    ¬ MentionsError ('"' :: hexText d ++ ['"']) := by
  have hdigit : ∀ n < 16, Nat.digitChar n ≠ 'r' := by decide
  apply not_mentionsError
  intro hmem
  have hhex : 'r' ∈ hexText d := by simpa using hmem
  obtain ⟨c, _, hc⟩ := List.mem_flatMap.1 hhex
  have hlt := c.toNat_lt
  rcases List.mem_cons.1 hc with hc | hc
  · exact hdigit _ (by omega) hc.symm
  · exact hdigit _ (Nat.mod_lt _ (by decide)) (List.mem_singleton.1 hc).symm

theorem advance_converting (h : Served H C.post) (date : Str) {line : Str}
    (hline : PlainReading line) (hlen : (recordedBytes line).length < 2 ^ 32)
    (hsize : Sendable H C (2 * (recordedBytes line).length + 10)) :
    Job.advance H P D C env node (.converting date (sedQuotes line)) =
      (node, .signing date ('"' :: hexText (recordedBytes line) ++ ['"'])) := by
  have hdata : char2hexData (sedQuotes line) = strObject (quoted (literal (recorded line))) := by
    rw [char2hexData_of_unspaced (unspaced_sedQuotes hline), sedQuotes_eq hline, quoted]
  have hle : (strObject (quoted (literal (recorded line)))).length ≤
      2 * (recordedBytes line).length + 10 := by
    rw [← hdata, length_char2hexData (unspaced_sedQuotes hline)]
    exact Nat.add_le_add_right (length_sedQuotes_le line) 10
  have hknown := known_literal fun c hc => (hline.recorded c hc).1
  have hparams := char2hexParams_strObject P (literal (recorded line))
  rw [ReadBack.flatMap_read_eq_iff.2 hknown,
    byteStr_literal fun c hc => (hline.recorded c hc).1] at hparams
  obtain ⟨v, hv, hstr⟩ := bind_eq_ok.1 hparams
  have hhex : char2hex (recorded line) = hexText (recordedBytes line) := by
    have hcut := cutSize_eq_self.2 hlen
    rw [cutSize] at hcut
    rw [← byteStr_recordedBytes hline, char2hex_byteStr, toHex_eq, UInt32.toNat_ofNat', hcut]
  have hresult :
      RoCall.char2hex.result P D env node (strObject (quoted (literal (recorded line)))) =
        .ok (.string (hexText (recordedBytes line))) := by
    rw [RoCall.result, hv, ok_bind, RoCall.run, hstr, ok_bind, hhex]
  have halnum : ∀ c ∈ hexText (recordedBytes line), c.isAlphanum := by
    rw [← hhex]
    exact toHex_isAlphanum _ _
  have hreq : (Job.converting date (sedQuotes line)).request C =
      some (C.post.ask RoCall.char2hex.callName
        (strObject (quoted (literal (recorded line))))) := by
    rw [Job.request, hdata, RoCall.callName]
  obtain ⟨hnode, hreply⟩ := processRequest_asked (hsize.served hle h _) hresult
  rw [advance_replied hreq (hsize.short hle _ _) hnode hreply, toStream, escapeString,
    flatMap_escapeChar halnum, Job.next, List.cons_append, ← List.cons_append,
    substituted_concat (by decide),
    Job.unlessError_of_not fun hup => not_mentionsError_hex (recordedBytes line) hup.2]

/-! ## The request to sign -/

def readingMembers (date digits : Str) : Members :=
  field .none .none "time_point" date (field .none .none "data" digits
    (field .none .none "attach" "616464".toList .nil))

def signMembers (date digits : Str) : Members :=
  member .none .none "trx" (.object .none (readingMembers date digits))
    (field .space .none "key" iotKeyStr .nil)

theorem isAlphanum_iotKeyStr : ∀ c ∈ iotKeyStr, c.isAlphanum := by
  unfold iotKeyStr
  exact forall_mem_of_all (by decide)

/-- The characters of a field that the script fills in. -/
def Fills (s : Str) : Prop := ∀ c ∈ s, Ascii c ∧ c ≠ '"' ∧ c ≠ '\\'

theorem Fills.ascii {s : Str} (h : Fills s) : ∀ c ∈ s, Ascii c := fun c hc => (h c hc).1

theorem Fills.text {s : Str} (h : Fills s) : (literal s).flatMap Item.text = s :=
  text_literal h.ascii (fun hq => (h _ hq).2.1 rfl) fun hb => (h _ hb).2.2 rfl

theorem Fills.of_isAlphanum {s : Str} (h : ∀ c ∈ s, c.isAlphanum) : Fills s := by
  intro c hc
  have halnum := h c hc
  refine ⟨ascii_of_isAlphanum_or (Or.inl halnum), ?_, ?_⟩
  · rintro rfl
    exact absurd halnum (by decide)
  · rintro rfl
    exact absurd halnum (by decide)

theorem fills_date (hP : P.BoostExact) (now : UInt32) : Fills (P.toIsoExtendedString now) := by
  intro c hc
  rcases hP.iso_alphabet now c hc with h | rfl | rfl | rfl
  · refine Fills.of_isAlphanum (s := [c]) ?_ c List.mem_cons_self
    exact List.forall_mem_singleton.2 (isAlphanum_of_isDigit h)
  · decide
  · decide
  · decide

theorem readable_signMembers (P : Platform) (date digits : Str) :
    ReadableMembers P (signMembers date digits) := by
  have hreading : ReadableMembers P (readingMembers date digits) :=
    readable_field (readable_field (readable_field trivial))
  exact readable_member hreading (readable_field trivial)

theorem depth_signMembers (date digits : Str) : (signMembers date digits).depth < 100 := by
  simp [signMembers, readingMembers, field, member, Members.depth, Doc.depth]

/-- The body that the script sends is an object that the node can read. -/
def signObject (P : Platform) (date digits : Str) : ObjectBody P where
  before := .none
  inner := .none
  members := signMembers date digits
  after := []
  readable := readable_signMembers P date digits
  depth_lt := depth_signMembers date digits
  ends := ends_nil

theorem text_name {name : String}
    (h : name.toList.all (fun c => decide (c.isAlphanum ∨ c = '_')) = true) :
    (literal name.toList).flatMap Item.text = name.toList := by
  have hname := forall_mem_of_all h
  refine text_literal (fun c hc => ascii_of_isAlphanum_or (hname c hc)) (fun hq => ?_)
    fun hb => ?_
  · exact absurd (hname _ hq) (by decide)
  · exact absurd (hname _ hb) (by decide)

theorem text_field {before around : Blank} {key : String} {value : Str} {rest : Members}
    (hkey : key.toList.all (fun c => decide (c.isAlphanum ∨ c = '_')) = true)
    (hvalue : Fills value) : (field before around key value rest).text =
      before.chars ++ ('"' :: key.toList ++ '"' :: (around.chars ++ ':' :: (around.chars ++
        ('"' :: value ++ '"' :: (around.chars ++ rest.tail))))) := by
  rw [field, member, Members.text_cons, Doc.text, JsonDocument.quoted, JsonDocument.quoted,
    text_name hkey, hvalue.text]
  simp only [List.append_assoc, List.cons_append, List.nil_append]

theorem tail_field {before around : Blank} {key : String} {value : Str} {rest : Members} :
    (field before around key value rest).tail = ',' :: (field before around key value rest).text :=
  rfl

theorem text_readingMembers {date digits : Str} (hdate : Fills date) (hdigits : Fills digits) :
    (readingMembers date digits).text =
      "\"time_point\":\"".toList ++ (date ++ ("\",\"data\":".toList ++ '"' :: (digits ++
        '"' :: ",\"attach\":\"616464\"\x7d".toList))) := by
  have hattach : Fills "616464".toList := Fills.of_isAlphanum (forall_mem_of_all (by decide))
  rw [readingMembers, text_field (by decide) hdate, tail_field, text_field (by decide) hdigits,
    tail_field, text_field (by decide) hattach]
  rfl

theorem text_signMembers (date digits : Str) : (signMembers date digits).text =
    "\"trx\":\x7b".toList ++ ((readingMembers date digits).text ++
      (", \"key\":\"".toList ++ (iotKeyStr ++ "\"\x7d".toList))) := by
  have hkey := Fills.of_isAlphanum isAlphanum_iotKeyStr
  rw [signMembers, member, Members.text_cons, tail_field, text_field (by decide) hkey,
    JsonDocument.quoted, text_name (by decide), Doc.text]
  simp only [List.append_assoc, List.cons_append]
  generalize (readingMembers date digits).text = reading
  rfl

theorem length_signData {hex : Str} (h : Unspaced hex) (date : Str) :
    (signData date hex).length = date.length + hex.length + 112 := by
  have htrx : "\"trx\":\x7b".toList.length = 7 := by decide
  have htime : "\"time_point\":\"".toList.length = 14 := by decide
  have hdata : "\",\"data\":".toList.length = 9 := by decide
  have hattach : ",\"attach\":\"616464\"\x7d".toList.length = 19 := by decide
  have hname : ", \"key\":\"".toList.length = 9 := by decide
  have hkey : iotKeyStr.length = 51 := by
    unfold iotKeyStr
    decide
  have hclose : "\"\x7d".toList.length = 2 := by decide
  rw [signData, dataWord_of_unspaced h]
  simp only [List.length_append, List.length_cons, htrx, htime, hdata, hattach, hname, hkey, hclose]
  omega

theorem unspaced_quoted {digits : Str} (h : Unspaced digits) :
    Unspaced ('"' :: digits ++ ['"']) := by
  rw [List.cons_append]
  exact List.forall_mem_cons.2 ⟨by decide, h.append (List.forall_mem_singleton.2 (by decide))⟩

theorem text_signObject {date digits : Str} (hdate : Fills date) (hdigits : Fills digits)
    (hunspaced : Unspaced digits) :
    (signObject P date digits).text = signData date ('"' :: digits ++ ['"']) := by
  have htext : (signObject P date digits).text = '{' :: (signMembers date digits).text := by
    rw [ObjectBody.text_eq]
    simp only [signObject, Blank.none, List.append_nil, List.nil_append]
  rw [signData, dataWord_of_unspaced (unspaced_quoted hunspaced)]
  simp only [htext, text_signMembers, text_readingMembers hdate hdigits, List.append_assoc,
    List.cons_append, List.nil_append]

theorem entries_signObject {date digits : Str} (hdate : Fills date) (hdigits : Fills digits) :
    (signObject P date digits).entries =
      [("trx".toList, .object [("time_point".toList, .string date),
        ("data".toList, .string digits), ("attach".toList, .string "616464".toList)]),
       ("key".toList, .string iotKeyStr)] := by
  have hkey := (Fills.of_isAlphanum isAlphanum_iotKeyStr).ascii
  change memberVariants P ReadBack.read (signMembers date digits) = _
  rw [signMembers, readingMembers, memberVariants_member (forall_mem_of_all (by decide)),
    memberVariants_field (forall_mem_of_all (by decide)) hkey, docVariant,
    memberVariants_field (forall_mem_of_all (by decide)) hdate.ascii,
    memberVariants_field (forall_mem_of_all (by decide)) hdigits.ascii,
    memberVariants_field (forall_mem_of_all (by decide)) (forall_mem_of_all (by decide))]
  rfl

/-! ## The transaction -/

def readingTrx (now : UInt32) (line : Str) : Transaction :=
  { Transaction.blank with
    timePoint := now
    data := recordedBytes line
    attach := [0x61, 0x64, 0x64] }

theorem ofBytes_eq {d : Bytes} (hne : d ≠ []) (hlen : d.length < 2 ^ 32) :
    Variant.ofBytes d = .string (hexText d) := by
  have hcut := cutSize_eq_self.2 hlen
  rw [cutSize] at hcut
  rw [Variant.ofBytes, if_pos (fun h => hne (List.length_eq_zero_iff.1 h)), toHex_eq,
    UInt32.toNat_ofNat', hcut]

theorem fromVariant_reading (hP : P.BoostExact) (now : UInt32) {line : Str}
    (hne : recordedBytes line ≠ []) (hlen : (recordedBytes line).length < 2 ^ 32) :
    Transaction.fromVariant P (.object [("time_point".toList, .string (P.toIsoExtendedString now)),
      ("data".toList, .string (hexText (recordedBytes line))),
      ("attach".toList, .string "616464".toList)]) = .ok (readingTrx now line) := by
  have hattach : (Variant.string "616464".toList).toBytes P = .ok [0x61, 0x64, 0x64] :=
    toBytes_ofBytes P [0x61, 0x64, 0x64]
  have hdata := toBytes_ofBytes P (recordedBytes line)
  rw [ofBytes_eq hne hlen, cutSize_eq_self.2 hlen] at hdata
  have htime := toTime_ofTime hP now
  rw [Variant.ofTime] at htime
  have hfields : Transaction.fromVariant P (.object [("time_point".toList,
        .string (P.toIsoExtendedString now)),
      ("data".toList, .string (hexText (recordedBytes line))),
      ("attach".toList, .string "616464".toList)]) = (do
    let timePoint ← (Variant.string (P.toIsoExtendedString now)).toTime P
    let data ← (Variant.string (hexText (recordedBytes line))).toBytes P
    let attach ← (Variant.string "616464".toList).toBytes P
    .ok ⟨timePoint, data, attach, Transaction.blank.signature, Transaction.blank.pubKey⟩) := rfl
  rw [hfields, htime, ok_bind, hdata, ok_bind, hattach, ok_bind, readingTrx]

/-- The key in the script is a key, and it can sign. -/
def IotKeySigns (P : Platform) (D : KeyDerivation) (pub : PublicKey) : Prop :=
  ∃ priKey : PrivateKey, PrivateKey.ofStr P iotKeyStr = .ok priKey ∧
    priKey.getPublicKey D = .ok pub ∧ ∀ d, ∃ sig, priKey.sign P d = .ok sig

theorem exists_signed (hrec : RecoversSigner P D) {pub : PublicKey} (hkey : IotKeySigns P D pub)
    (now : UInt32) {line : Str} (hne : recordedBytes line ≠ [])
    (hlen : (recordedBytes line).length ≤ maxSizeOfByteArrays) :
    ∃ sig, Admitted P ((readingTrx now line).sealed pub sig) ∧
      ∀ trx, Transaction.fromVariant P trx = .ok (readingTrx now line) →
        signTrx P D trx iotKeyStr = ((readingTrx now line).sealed pub sig).toVariant P := by
  obtain ⟨priKey, hpri, hpub, hsigns⟩ := hkey
  obtain ⟨d, hd⟩ := @Transaction.digest_of_le P { readingTrx now line with pubKey := pub } hlen
    (show 3 ≤ maxSizeOfByteArrays by decide)
  obtain ⟨sig, hsig⟩ := hsigns d
  refine ⟨sig, admitted_iff.2 (validate_sealed hrec hne hpub hsig hd), fun trx htrx => ?_⟩
  rw [signTrx, signedTrx_of_steps htrx hpri hpub hd hsig]

theorem toStream_object_concat (P : Platform) (o : List (Str × Variant)) :
    ∃ text, toStream P (.object o) = text ++ ['}'] := by
  have hentries : ∀ o, ∃ text, toStreamEntries P o = text ++ ['}'] := by
    intro o
    induction o with
    | nil => exact ⟨[], rfl⟩
    | cons e o ih =>
        obtain ⟨key, v⟩ := e
        cases o with
        | nil => exact ⟨_, rfl⟩
        | cons e o =>
            obtain ⟨text, htext⟩ := ih
            refine ⟨escapeString key ++ ':' :: toStream P v ++ ',' :: text, ?_⟩
            rw [toStreamEntries, htext]
            · simp
            · simp
  obtain ⟨text, htext⟩ := hentries o
  exact ⟨'{' :: text, by rw [toStream, htext, List.cons_append]⟩

theorem substituted_object (P : Platform) (o : List (Str × Variant)) :
    substituted (toStream P (.object o)) = toStream P (.object o) := by
  obtain ⟨text, htext⟩ := toStream_object_concat P o
  rw [htext, substituted_concat (by decide)]

theorem substituted_trx (P : Platform) (t : Transaction) :
    substituted (toStream P (t.toVariant P)) = toStream P (t.toVariant P) := by
  rw [← Transaction.object_entries, substituted_object]

theorem trxText_ne_nil (P : Platform) (t : Transaction) : toStream P (t.toVariant P) ≠ [] := by
  obtain ⟨text, htext⟩ := toStream_object_concat P (t.entries P)
  rw [← Transaction.object_entries, htext]
  simp

theorem escapeString_fills {s : Str} (h : Fills s) : escapeString s = '"' :: (s ++ ['"']) := by
  have hflat : s.flatMap escapeChar = s := by
    induction s with
    | nil => rfl
    | cons c s ih =>
        obtain ⟨⟨hge, _⟩, hq, hb⟩ := h c List.mem_cons_self
        rw [List.flatMap_cons, ih fun c hc => h c (List.mem_cons_of_mem _ hc),
          escapeChar_of_ge hge hq hb]
        rfl
  rw [escapeString, hflat]
  rfl

theorem Fills.of_plain {s : Str} (h : ∀ c ∈ s, c.isAlphanum ∨ c = '_') : Fills s := by
  intro c hc
  rcases h c hc with hc' | rfl
  · exact Fills.of_isAlphanum (s := [c]) (List.forall_mem_singleton.2 hc') c List.mem_cons_self
  · decide

theorem unspaced_date (hP : P.BoostExact) (now : UInt32) :
    Unspaced (P.toIsoExtendedString now) := by
  intro c hc
  rcases hP.iso_alphabet now c hc with h | rfl | rfl | rfl
  · exact isIfs_of_isAlphanum (isAlphanum_of_isDigit h)
  · decide
  · decide
  · decide

theorem isAlphanum_hexText {d : Bytes} (hlen : d.length < 2 ^ 32) :
    ∀ c ∈ hexText d, c.isAlphanum := by
  have hcut := cutSize_eq_self.2 hlen
  rw [cutSize] at hcut
  rw [← hcut]
  exact toHex_isAlphanum d (UInt32.ofNat d.length)

section Signed

variable {now : UInt32} {line : Str} {pub : PublicKey} {sig : Signature}

theorem toStream_sealed (hP : P.BoostExact) (hne : recordedBytes line ≠ [])
    (hlen : (recordedBytes line).length < 2 ^ 32) :
    toStream P (((readingTrx now line).sealed pub sig).toVariant P) =
      "\x7b\"time_point\":\"".toList ++ (P.toIsoExtendedString now ++ ("\",\"data\":\"".toList ++
        (hexText (recordedBytes line) ++ ("\",\"attach\":\"616464\",\"signature\":\"".toList ++
          (sig.toStr P ++ ("\",\"pub_key\":\"".toList ++
            (pub.toStr P ++ "\"\x7d".toList))))))) := by
  have hattach : Variant.ofBytes [0x61, 0x64, 0x64] = .string "616464".toList := rfl
  have hdate := escapeString_fills (fills_date hP now)
  have hdigits := escapeString_fills (Fills.of_isAlphanum (isAlphanum_hexText hlen))
  have hadd : escapeString "616464".toList = "\"616464\"".toList := by decide
  have hsig : escapeString (sig.toStr P) = '"' :: (sig.toStr P ++ ['"']) :=
    escapeString_fills (Fills.of_plain fun _ hc => Signature.toStr_plain P hc)
  have hpub : escapeString (pub.toStr P) = '"' :: (pub.toStr P ++ ['"']) :=
    escapeString_fills (Fills.of_plain fun _ hc => PublicKey.toStr_plain P hc)
  have h1 : escapeString "time_point".toList = "\"time_point\"".toList := by decide
  have h2 : escapeString "data".toList = "\"data\"".toList := by decide
  have h3 : escapeString "attach".toList = "\"attach\"".toList := by decide
  have h4 : escapeString "signature".toList = "\"signature\"".toList := by decide
  have h5 : escapeString "pub_key".toList = "\"pub_key\"".toList := by decide
  rw [← Transaction.object_entries, Transaction.entries]
  simp only [Transaction.sealed, readingTrx, Variant.ofTime, ofBytes_eq hne hlen, hattach, toStream,
    toStreamEntries, hdate, hdigits, hadd, hsig, hpub, h1, h2, h3, h4, h5, List.append_assoc,
    List.cons_append, List.nil_append]
  generalize P.toIsoExtendedString now = date
  generalize hexText (recordedBytes line) = digits
  generalize sig.toStr P = signature
  generalize pub.toStr P = pubKey
  rfl

/-- The text is one word, for nothing in it is a blank. -/
theorem unspaced_sealed (hP : P.BoostExact) (hne : recordedBytes line ≠ [])
    (hlen : (recordedBytes line).length < 2 ^ 32) :
    Unspaced (toStream P (((readingTrx now line).sealed pub sig).toVariant P)) := by
  have hword : ∀ s : Str, s.all (!isIfs ·) = true → Unspaced s := by
    intro s hs c hc
    simpa using List.all_eq_true.1 hs c hc
  rw [toStream_sealed hP hne hlen]
  refine (hword _ (by decide)).append ((unspaced_date hP now).append ((hword _ (by decide)).append
    (Unspaced.append ?_ ((hword _ (by decide)).append (Unspaced.append ?_
      ((hword _ (by decide)).append (Unspaced.append ?_ (hword _ (by decide)))))))))
  · exact Unspaced.of_isAlphanum fun c hc => Or.inl (isAlphanum_hexText hlen c hc)
  · exact Unspaced.of_isAlphanum fun _ hc => Signature.toStr_plain P hc
  · exact Unspaced.of_isAlphanum fun _ hc => PublicKey.toStr_plain P hc

theorem length_signature_le (sig : Signature) : (sig.toStr P).length ≤ 214 := by
  have hlen := length_base58Str_le P none sig
  have htag : "SIG_".toList.length = 4 := by decide
  have heq : (sig.toStr P).length = "SIG_".toList.length + (base58Str P none sig).length :=
    List.length_append
  omega

theorem length_pubKey_le (pub : PublicKey) : (pub.toStr P).length ≤ 118 := by
  have hlen := length_base58Str_le P (some .k1) pub
  have hk1 : "EOS".toList.length = 3 := by decide
  have hother : "PUB_".toList.length = 4 := by decide
  rw [PublicKey.toStr]
  split
  · rw [List.length_append, hk1]
    omega
  · rw [List.length_append, hother]
    omega

theorem length_sealed_le (hP : P.BoostExact) (hne : recordedBytes line ≠ [])
    (hlen : (recordedBytes line).length < 2 ^ 32) :
    (toStream P (((readingTrx now line).sealed pub sig).toVariant P)).length ≤
      2 * (recordedBytes line).length + (P.toIsoExtendedString now).length + 500 := by
  have htime : "\x7b\"time_point\":\"".toList.length = 15 := by decide
  have hdata : "\",\"data\":\"".toList.length = 10 := by decide
  have hattach : "\",\"attach\":\"616464\",\"signature\":\"".toList.length = 33 := by decide
  have hpub : "\",\"pub_key\":\"".toList.length = 13 := by decide
  have hclose : "\"\x7d".toList.length = 2 := by decide
  have hsig := length_signature_le (P := P) sig
  have hkey := length_pubKey_le (P := P) pub
  rw [toStream_sealed hP hne hlen]
  simp only [List.length_append, htime, hdata, hattach, hpub, hclose, length_hexText]
  omega

end Signed

theorem advance_signing (hP : P.BoostExact) (h : Served H C.post) (now : UInt32) {line : Str}
    (hne : recordedBytes line ≠ []) (hlen : (recordedBytes line).length < 2 ^ 32)
    (hsize : Sendable H C
      (2 * (recordedBytes line).length + (P.toIsoExtendedString now).length + 500))
    {pub : PublicKey} {sig : Signature} (hsigned : ∀ trx,
      Transaction.fromVariant P trx = .ok (readingTrx now line) →
        signTrx P D trx iotKeyStr = ((readingTrx now line).sealed pub sig).toVariant P) :
    Job.advance H P D C env node (.signing (P.toIsoExtendedString now)
      ('"' :: hexText (recordedBytes line) ++ ['"'])) =
        (node, .unlessError C (toStream P (((readingTrx now line).sealed pub sig).toVariant P))
          (.pushing (toStream P (((readingTrx now line).sealed pub sig).toVariant P)))) := by
  have halnum := isAlphanum_hexText hlen
  have hdigits := Fills.of_isAlphanum halnum
  have hword : Unspaced (hexText (recordedBytes line)) :=
    Unspaced.of_isAlphanum fun c hc => Or.inl (halnum c hc)
  have hdate := fills_date hP now
  have htext := @text_signObject P _ _ hdate hdigits hword
  have hbody := ObjectBody.bodyVariant_text (signObject P (P.toIsoExtendedString now)
    (hexText (recordedBytes line)))
  rw [htext, entries_signObject hdate hdigits] at hbody
  have hle : (signData (P.toIsoExtendedString now)
      ('"' :: hexText (recordedBytes line) ++ ['"'])).length ≤
        2 * (recordedBytes line).length + (P.toIsoExtendedString now).length + 500 := by
    rw [length_signData (unspaced_quoted hword), List.length_append, List.length_cons,
      length_hexText, List.length_singleton]
    omega
  have hresult : RoCall.signTrx.result P D env node (signData (P.toIsoExtendedString now)
      ('"' :: hexText (recordedBytes line) ++ ['"'])) =
        .ok (((readingTrx now line).sealed pub sig).toVariant P) := by
    rw [RoCall.result, hbody, ok_bind, ← hsigned _ (fromVariant_reading hP now hne hlen)]
    rfl
  obtain ⟨hnode, hreply⟩ := processRequest_asked (hsize.served hle h _) hresult
  rw [advance_replied rfl (hsize.short hle _ _) hnode hreply, Job.next, substituted_trx,
    firstWord_of_unspaced (unspaced_sealed hP hne hlen), if_neg (trxText_ne_nil P _)]

/-! ## The run of the script -/

/-- The echo of a transaction has `error` in it only if the transaction has. -/
theorem mentionsError_of_echo {t : Transaction}
    (h : MentionsError (RwCall.pushTransaction.resultText P (t.toVariant P))) :
    MentionsError (toStream P (t.toVariant P)) := by
  have htext : RwCall.pushTransaction.resultText P (t.toVariant P) =
      "\x7b\"res\"".toList ++ ':' :: (toStream P (t.toVariant P) ++ '}' :: []) := by
    rw [RwCall.resultText, toStream, toStreamEntries, List.append_assoc]
    rfl
  rw [MentionsError, htext] at h
  rcases infix_append_cons (by decide) h with h | h
  · exact absurd h (by decide)
  rcases infix_append_cons (by decide) h with h | h
  · exact h
  · exact absurd h (by decide)

theorem advance_pushing (hP : P.BoostExact) (h : Served H C.post) {t : Transaction}
    (ht : Admitted P t) {n : ℕ} (hsize : Sendable H C n)
    (hle : (toStream P (t.toVariant P)).length ≤ n)
    (hfine : ¬ C.GivesUp (toStream P (t.toVariant P))) :
    Job.advance H P D C env node (.pushing (toStream P (t.toVariant P))) =
      ({ node with buf := node.buf.cacheTrx t }, .publishing) := by
  obtain ⟨hnode, hreply⟩ :=
    processRequest_accepted P D env node (ht.accepted hP (hsize.served hle h _))
  have hecho : ¬ C.GivesUp (RwCall.pushTransaction.resultText P (t.toVariant P)) :=
    fun hup => hfine ⟨hup.1, mentionsError_of_echo hup.2⟩
  have hsub : substituted (RwCall.pushTransaction.resultText P (t.toVariant P)) =
      RwCall.pushTransaction.resultText P (t.toVariant P) := by
    rw [RwCall.resultText, substituted_object]
  rw [advance_replied rfl (hsize.short hle _ _) hnode hreply, Job.next, hsub,
    Job.unlessError_of_not hecho]

theorem not_mentionsError_operationComplete : ¬ MentionsError (toStream P operationComplete) := by
  have htext : toStream P operationComplete =
      "\x7b\"message\":\"operation complete\"\x7d".toList := by
    rw [operationComplete, toStream, toStreamEntries, toStream]
    rfl
  rw [htext]
  decide

theorem mentionsError_errorBody (H : HttpPlugin) (P : Platform) (e : Exn) :
    MentionsError (substituted (H.errorBody P e)) := by
  have hresults :
      ∀ code message, MentionsError (substituted (H.errorResults P code message e)) := by
    intro code message
    have hname : escapeString "error".toList = '"' :: "error".toList ++ ['"'] := by decide
    rw [HttpPlugin.errorResults, substituted_object]
    simp only [toStream, toStreamEntries, hname]
    generalize escapeString "code".toList ++ ':' :: _ = first
    generalize escapeString "message".toList ++ ':' :: _ = second
    generalize toStream P _ = info
    exact ⟨'{' :: first ++ ',' :: second ++ [',', '"'], '"' :: ':' :: info ++ ['}'], by simp⟩
  unfold HttpPlugin.errorBody
  split
  · exact hresults _ _
  · exact hresults _ _

/-- The pool becomes the next block, and the script is told so, or no block can be built, and
it is told so too. -/
theorem advance_publishing (hP : P.BoostExact) (h : Served H C.get) :
    (∃ buf b, node.buf.buildBlock P (env.fresh 0) = .ok (buf, b) ∧
      Job.advance H P D C env node .publishing =
        (⟨buf.cacheLastBlk b, (appendBlock P node.db (env.sqlOk 0) b).1⟩, .idle [])) ∨
    ∃ e, node.buf.buildBlock P (env.fresh 0) = .error e ∧
      Job.advance H P D C env node .publishing =
        (node, if C.doubleBrackets then .idle [iotError] else .idle []) := by
  have hshort : ¬ C.TooLong (C.get.ask "publish_blk" []) := fun hlong => hlong.1 rfl
  rcases processRequest_publish P D env node (h.ask_nil RwCall.publishBlk.callName) rfl
    (emptyParams hP) with ⟨buf, b, hb, hnode, hreply⟩ | ⟨e, he, hnode, hreply⟩
  · refine Or.inl ⟨buf, b, hb, ?_⟩
    have hsub : substituted (RwCall.publishBlk.resultText P operationComplete) =
        toStream P operationComplete := by
      rw [RwCall.resultText, operationComplete, substituted_object]
    rw [advance_replied rfl hshort hnode hreply, Job.next, hsub,
      Job.unlessError_of_not fun hup => not_mentionsError_operationComplete hup.2]
  · refine Or.inr ⟨e, he, ?_⟩
    have hup : C.GivesUp (substituted (H.errorBody P e)) ↔ C.doubleBrackets = true :=
      and_iff_left (mentionsError_errorBody H P e)
    rw [advance_replied rfl hshort hnode hreply, Job.next, Job.unlessError]
    simp only [hup]

theorem Shows.represents {s : System} {pool : List Transaction} (h : Shows P s (.up bs pool)) :
    Represents P bs s := by
  cases h with
  | up hhonest hrows hf => exact .up hhonest hrows hf

theorem Follows.cacheTrx {buf : Buffer} (hf : Follows P bs buf) {t : Transaction}
    (ht : Admitted P t) : Follows P bs (buf.cacheTrx t) := by
  refine ⟨hf.privateKey, fun u hu => ?_, hf.tip, hf.noTip⟩
  rcases List.mem_append.1 hu with hu | hu
  · exact hf.pool u hu
  · rw [List.mem_singleton.1 hu]
    exact ht.validate

namespace Sample

def scriptSecret : PrivateKeySecret :=
  vector 32 0x608d99372f47adbd3774c3305f108ad471aa127e9682878c6dcfabb069420c47

def scriptKeyData : PublicKeyData := vector 33
  0x021894e7b86cdb448f085db484094e2fa799c6424a17d6046a3fea91353aa20942

def readingDigest : Sha256 := sha 0x48e71a54eaf7c9aa333e5f8ad0fd813410d9b5dbe0175d31ad08f5ffe787acc7

def readingSig : CompactSignature := vector 65 0x1f0d92cd40634974a4013f11204819f2fe64fc58c4fb974cd47d6534d28c4be2cc67566624081b7ece9081f10ae53efdf73878de3df9a6b9c793a101a75f84baa3

def readingRoot : Sha256 := sha 0x0733ae7a3cdafc470ebfc9fa5b3a29b52cac6636fda518233f8b8eae52b7b84d

def readingBlockDigest : Sha256 :=
  sha 0x8892544463923468dd43c6b021951efde8d91729a9c3f65efae14a84abcdb210

def readingBlockSig : CompactSignature := vector 65 0x204f7e118f4961562cf2bbd7f285d9113af2ed3d831f7e01cd5ed728e84cf35f557fdbef2cb31774e3db9481952e2f9cce4edf84b12737c0ba65e5d760fb143180

def reading : Str := "\x7b\"t\": 21\x7d".toList

def scriptSha256Table : List (Bytes × Sha256) :=
  [(0x80 :: scriptSecret.toList, sha 0xc4a1cd44078bdcf4cb7e9671e5f462c02065a089e3922f724fe63f70b310e24a),
   (bytes 32 0xc4a1cd44078bdcf4cb7e9671e5f462c02065a089e3922f724fe63f70b310e24a,
    sha 0xc2ac98f838f690af387f02b198217d3686504bc42d77de22714e66ae4e51efc8),
   (packUInt32 now ++ [3, 0x61, 0x64, 0x64] ++ 8 :: recordedBytes reading ++
    [0] ++ scriptKeyData.toList, readingDigest),
   ([1] ++ packUInt32 now ++ 8 :: recordedBytes reading ++ [3, 0x61, 0x64, 0x64] ++
    [0] ++ readingSig.toList ++ [0] ++ scriptKeyData.toList, readingRoot),
   ({ block with merkleRoot := readingRoot }.header, readingBlockDigest)]

def scriptOtherSig : CompactSignature := vector 65 (0x1f02 * 256 ^ 63 + 256 ^ 31)

def scriptSign (d : Sha256) : CompactSignature :=
  lookup scriptOtherSig d [(readingDigest, readingSig)]

def producerSignatures : List (Sha256 × CompactSignature) :=
  (readingBlockDigest, readingBlockSig) :: signatures

def producerSign (d : Sha256) : CompactSignature := lookup otherSig d producerSignatures

def scriptPlatform : Platform :=
  { platform with
    sha256 d := lookup (Vector.replicate 32 1) d (scriptSha256Table ++ sha256Table)
    ripemd160 d := lookup (Vector.replicate 20 0) d
      [(producerKeyData.toList, vector 20 0x6cf43fb634cbdd8deee9a31f20cdd98397b4f626),
       (scriptKeyData.toList, vector 20 0xfcc63a800a533d4cbec9c6ff2a3e45abb21bb616),
       (readingSig.toList ++ [75, 49],
        vector 20 0x57497807634da256934b75cae96dd7c3b72ee617)]
    recoverCompactK1 d sig _ :=
      if sig = scriptSign d then some scriptKeyData
      else if sig = producerSign d then some producerKeyData
      else none
    signCompactK1 key d :=
      some (if key = scriptSecret then scriptSign d else producerSign d) }

def scriptDerivation : KeyDerivation :=
  ⟨fun key => if key = scriptSecret then some scriptKeyData else none, fun _ => none⟩

theorem scriptBoostExact : scriptPlatform.BoostExact where
  iso_inverse := boostExact.iso_inverse
  iso_year := boostExact.iso_year
  iso_alphabet := boostExact.iso_alphabet
  cast_string := boostExact.cast_string
  cast_inverse := boostExact.cast_inverse

theorem scriptProducerKey :
    PublicKey.ofStr scriptPlatform producerKeyStr = .ok ⟨.k1, producerKeyData⟩ := by
  decide +kernel

theorem scriptPrivateKey :
    PrivateKey.ofStr scriptPlatform privateKeyStr = .ok ⟨.k1, secret⟩ := by
  decide +kernel

theorem iotKey :
    PrivateKey.ofStr scriptPlatform iotKeyStr = .ok ⟨.k1, scriptSecret⟩ := by
  decide +kernel

theorem recover_scriptSign (d : Sha256) :
    PublicKey.recover scriptPlatform ⟨.k1, scriptSign d⟩ d = .ok ⟨.k1, scriptKeyData⟩ := by
  have hsig : ∀ sig ∈ [scriptOtherSig, readingSig], WellFormed sig :=
    forall_mem_of_all (by decide)
  have hne : scriptKeyData ≠ Vector.replicate 33 0 := by
    intro h
    exact absurd (congrArg (fun key : PublicKeyData => key[0]) h) (by decide)
  exact recover_k1 (hsig _ (lookup_mem_cons scriptOtherSig d _)) (fun _ => if_pos rfl) hne

theorem recover_producerSign (d : Sha256) :
    PublicKey.recover scriptPlatform ⟨.k1, producerSign d⟩ d = .ok ⟨.k1, producerKeyData⟩ := by
  have hsig : ∀ sig ∈ otherSig :: producerSignatures.map Prod.snd, WellFormed sig ∧
      sig ∉ [scriptOtherSig, readingSig] := forall_mem_of_all (by decide)
  have hmem : scriptSign d ∈ [scriptOtherSig, readingSig] := lookup_mem_cons scriptOtherSig d _
  have hdiffer : WellFormed (producerSign d) ∧ producerSign d ∉ [scriptOtherSig, readingSig] :=
    hsig _ (lookup_mem_cons otherSig d producerSignatures)
  obtain ⟨hwell, hother⟩ := hdiffer
  have hne : producerSign d ≠ scriptSign d := by
    intro heq
    exact hother (by rwa [heq])
  refine recover_k1 hwell (fun _ => ?_) producerKeyData_ne
  exact (if_neg hne).trans (if_pos rfl)

theorem scriptProducerSigns : scriptPlatform.ProducerSigns := by
  intro key hkey d
  rw [scriptPrivateKey, Except.ok.injEq] at hkey
  subst hkey
  have hother : secret ≠ scriptSecret := by decide
  refine ⟨⟨.k1, producerSign d⟩, _, ?_, recover_producerSign d, scriptProducerKey⟩
  simp only [PrivateKey.sign, fcAssert_of secret_ne, ok_bind, scriptPlatform, if_neg hother]

theorem scriptSecret_ne : scriptSecret ≠ Vector.replicate 32 0 := by
  intro h
  exact absurd (congrArg (fun key : PrivateKeySecret => key[0]) h) (by decide)

theorem sign_scriptSecret (d : Sha256) :
    PrivateKey.sign scriptPlatform ⟨.k1, scriptSecret⟩ d =
      .ok ⟨.k1, scriptSign d⟩ := by
  simp only [PrivateKey.sign, fcAssert_of scriptSecret_ne, ok_bind, scriptPlatform, if_pos]

theorem getPublicKey_scriptSecret :
    PrivateKey.getPublicKey scriptDerivation ⟨.k1, scriptSecret⟩ =
      .ok ⟨.k1, scriptKeyData⟩ := by
  simp only [PrivateKey.getPublicKey, fcAssert_of scriptSecret_ne, ok_bind, scriptDerivation,
    if_pos]

theorem iotKeySigns : IotKeySigns scriptPlatform scriptDerivation ⟨.k1, scriptKeyData⟩ :=
  ⟨_, iotKey, getPublicKey_scriptSecret, fun d => ⟨_, sign_scriptSecret d⟩⟩

theorem scriptRecoversSigner : RecoversSigner scriptPlatform scriptDerivation := by
  intro key d sig pub hsig hpub
  obtain ⟨which, data⟩ := key
  cases which with
  | k1 =>
      obtain ⟨_, _, hpub⟩ := bind_eq_ok.1 hpub
      by_cases hdata : data = scriptSecret
      · subst hdata
        rw [sign_scriptSecret, Except.ok.injEq] at hsig
        rw [← hsig, recover_scriptSign]
        simp only [scriptDerivation, if_pos] at hpub
        exact hpub
      · simp only [scriptDerivation, if_neg hdata] at hpub
        cases hpub
  | r1 => cases hpub

theorem scriptStartup : pluginStartup scriptPlatform Sample.env .empty = .started buf := by
  have hrows : Table.empty.rows = [].map (rowOf scriptPlatform) := rfl
  have hnew : Buffer.new scriptPlatform (Sample.env.fresh 0) = .ok buf := by
    unfold Buffer.new
    rw [scriptProducerKey, scriptPrivateKey]
    rfl
  rw [honestChain_nil.pluginStartup scriptBoostExact hrows env_succeeds, hnew]
  rfl

def firstNode : Node := ⟨buf, .empty⟩

theorem scriptRun :
    (nodeLts http scriptPlatform scriptDerivation).Run [.started] (.up firstNode) :=
  ⟨_, rfl, Lts.Path.single_iff.2 (.start env_succeeds scriptStartup)⟩

end Sample

theorem advance_published (hP : P.BoostExact) (hsign : P.ProducerSigns) (hget : Served H C.get)
    (hhonest : HonestChain P bs) (hrows : node.db.rows = bs.map (rowOf P))
    (hf : Follows P bs node.buf) (hlen : bs.length < 2 ^ 63)
    (hpool : node.buf.trxPool.length ≤ maxNumArrayElements) (henv : env.Succeeds) :
    ∃ node' b, Job.advance H P D C env node .publishing = (node', .idle []) ∧
      Shows P (.up node') (.up (bs ++ [b]) []) ∧ b.trxs = node.buf.trxPool ∧
      node'.buf.trxPool = [] := by
  obtain ⟨r, hr⟩ := hf.buildBlock_ok hsign hhonest hpool (env.fresh 0)
  rcases @advance_publishing H P D C env node hP hget with
    ⟨buf, b, hbuild, hadvance⟩ | ⟨e, he, _⟩
  · obtain ⟨_, hshows⟩ := publish_step hsign hhonest hrows hf hlen henv hbuild
    obtain ⟨_, valid, hb⟩ := buildBlock_cases hbuild
    have hempty : buf.trxPool = [] := buildBlock_trxPool hbuild
    exact ⟨_, b, hadvance, hshows, hb.trxs_eq, hempty⟩
  · rw [hr] at he
    cases he

/-- The first reading in the file is one line that needs no escapes, and short enough for the
requests of the script. -/
structure HasReading (P : Platform) (H : HttpPlugin) (C : Scripts) (now : UInt32)
    (iofjson line : Str) : Prop where
  noError : ¬ C.GivesUp iofjson
  first : C.firstReading iofjson = line ++ ['\n']
  plain : PlainReading line
  ne_nil : recordedBytes line ≠ []
  size_le : (recordedBytes line).length ≤ maxSizeOfByteArrays
  sendable : Sendable H C
    (2 * (recordedBytes line).length + (P.toIsoExtendedString now).length + 500)

namespace HasReading

variable {now : UInt32} {iofjson line : Str}

theorem size_lt (h : HasReading P H C now iofjson line) :
    (recordedBytes line).length < 2 ^ 32 := Nat.lt_of_le_of_lt h.size_le (by decide)

theorem recording (h : HasReading P H C now iofjson line) (date : Str) :
    Job.recording C date iofjson = .converting date (sedQuotes line) := by
  rw [Job.recording, if_neg h.noError, h.first, substituted_sedQuotes h.plain]

theorem advance_converting (h : HasReading P H C now iofjson line) (hpost : Served H C.post)
    (date : Str) : Job.advance H P D C env node (.converting date (sedQuotes line)) =
      (node, .signing date ('"' :: hexText (recordedBytes line) ++ ['"'])) :=
  SimpleBlockchain.advance_converting hpost date h.plain h.size_lt
    ⟨by have := h.sendable.1; omega, by have := h.sendable.2; omega⟩

end HasReading

/-- What is left of the script once the transaction is signed. -/
theorem pushblockFromIoT_eq (hP : P.BoostExact) (hpost : Served H C.post) {now : UInt32}
    {iofjson line : Str} (h : HasReading P H C now iofjson line) (envs : ℕ → ApiEnv)
    {pub : PublicKey} {sig : Signature}
    (hsigned : ∀ trx, Transaction.fromVariant P trx = .ok (readingTrx now line) →
      signTrx P D trx iotKeyStr = ((readingTrx now line).sealed pub sig).toVariant P) :
    pushblockFromIoT H P D C envs (P.toIsoExtendedString now) iofjson node =
      let text := toStream P (((readingTrx now line).sealed pub sig).toVariant P)
      let (node, job) := Job.advance H P D C (envs 2) node (.unlessError C text (.pushing text))
      Job.advance H P D C (envs 3) node job := by
  simp only [pushblockFromIoT, h.recording, h.advance_converting hpost,
    advance_signing hP hpost now h.ne_nil h.size_lt h.sendable hsigned]

/-- A reading that needs no escapes and is not too long is recorded after any run of the node.
Its bytes without the spaces are the data of a valid transaction with the key of the script,
and this becomes the last one of the next block. Only when `error` stands in its text by
chance does a shell that knows `[[` give up, and then the node has not changed. -/
theorem reading_recorded (hP : P.BoostExact) (hsign : P.ProducerSigns) (hrec : RecoversSigner P D)
    (hpost : Served H C.post) (hget : Served H C.get) {envs : ℕ → ApiEnv}
    (henvs : ∀ i, (envs i).Succeeds) {pub : PublicKey} (hkey : IotKeySigns P D pub) {now : UInt32}
    {iofjson line : Str} (h : HasReading P H C now iofjson line) {ds : List Exchange}
    (hrun : (nodeLts H P D).Run ds (.up node)) (hlen : ds.length < 2 ^ 63)
    (hpool : node.buf.trxPool.length < maxNumArrayElements) (fresh : ℕ → Fresh) :
    ∃ t : Transaction, t.timePoint = now ∧ t.data = recordedBytes line ∧
      t.attach = [0x61, 0x64, 0x64] ∧ t.pubKey = pub ∧ t.validate P = .ok true ∧
      (C.GivesUp (toStream P (t.toVariant P)) →
        pushblockFromIoT H P D C envs (P.toIsoExtendedString now) iofjson node =
          (node, .idle [iotError])) ∧
      (¬ C.GivesUp (toStream P (t.toVariant P)) → ∃ node' bs b,
        pushblockFromIoT H P D C envs (P.toIsoExtendedString now) iofjson node =
          (node', .idle []) ∧
        getAllBlocks P node.db true fresh = .ok bs ∧
        getAllBlocks P node'.db true fresh = .ok (bs ++ [b]) ∧
        b.trxs = node.buf.trxPool ++ [t] ∧ node'.buf.trxPool = []) := by
  obtain ⟨sig, hadmitted, hsigned⟩ := exists_signed hrec hkey now h.ne_nil h.size_le
  refine ⟨(readingTrx now line).sealed pub sig, rfl, rfl, rfl, rfl, hadmitted.validate,
    fun herror => ?_, fun hfine => ?_⟩
  · rw [pushblockFromIoT_eq hP hpost h envs hsigned]
    simp only [Job.unlessError, if_pos herror]
    rfl
  · obtain ⟨_, _, hshows⟩ := NodeRun.shows hP hsign (fresh 0) hrun hlen.le
    have hcount := hrun.size_le (fun _ => size_initial) NodeStep.size_le
    cases hshows with
    | @up _ bs hhonest hrows hf =>
        rw [System.size, hrows, List.length_map] at hcount
        have hjoined : (node.buf.cacheTrx ((readingTrx now line).sealed pub sig)).trxPool.length ≤
            maxNumArrayElements := by
          rw [Buffer.cacheTrx, List.length_append, List.length_singleton]
          exact hpool
        obtain ⟨node', b, hpublish, hshows', htrxs, hempty⟩ :=
          @advance_published H P D C (envs 3) ⟨node.buf.cacheTrx _, node.db⟩ bs hP hsign hget
            hhonest hrows (hf.cacheTrx hadmitted) (by omega) hjoined (henvs 3)
        refine ⟨node', bs, b, ?_, (Represents.up hhonest hrows hf).getAllBlocks hP fresh,
          hshows'.represents.getAllBlocks hP fresh, htrxs, hempty⟩
        rw [pushblockFromIoT_eq hP hpost h envs hsigned]
        simp only [Job.unlessError_of_not hfine, advance_pushing hP hpost hadmitted h.sendable
          (length_sealed_le hP h.ne_nil h.size_lt) hfine, hpublish]

namespace Sample

def sensorScripts : Scripts :=
  ⟨shell, socketRequest, socketRequest, fun _ => reading ++ ['\n'], true, 131072⟩

theorem hasReading : HasReading scriptPlatform http sensorScripts now [] reading where
  noError hup := not_mentionsError List.not_mem_nil hup.2
  first := rfl
  plain := forall_mem_of_all (by decide)
  ne_nil := by decide
  size_le := by decide
  sendable := by
    constructor <;> decide +kernel

end Sample

theorem sample_reading_recorded : ∃ t : Transaction, t.timePoint = Sample.now ∧
    t.data = recordedBytes Sample.reading ∧ t.attach = [0x61, 0x64, 0x64] ∧
    t.pubKey = ⟨.k1, Sample.scriptKeyData⟩ ∧ t.validate Sample.scriptPlatform = .ok true ∧
    (Sample.sensorScripts.GivesUp
        (toStream Sample.scriptPlatform (t.toVariant Sample.scriptPlatform)) →
      pushblockFromIoT Sample.http Sample.scriptPlatform Sample.scriptDerivation
        Sample.sensorScripts (fun _ => Sample.apiEnv)
        (Sample.scriptPlatform.toIsoExtendedString Sample.now) [] Sample.firstNode =
          (Sample.firstNode, .idle [iotError])) ∧
    (¬ Sample.sensorScripts.GivesUp
        (toStream Sample.scriptPlatform (t.toVariant Sample.scriptPlatform)) →
      ∃ node' bs b, pushblockFromIoT Sample.http Sample.scriptPlatform Sample.scriptDerivation
          Sample.sensorScripts (fun _ => Sample.apiEnv)
          (Sample.scriptPlatform.toIsoExtendedString Sample.now) [] Sample.firstNode =
            (node', .idle []) ∧
        getAllBlocks Sample.scriptPlatform Sample.firstNode.db true Sample.env.fresh = .ok bs ∧
        getAllBlocks Sample.scriptPlatform node'.db true Sample.env.fresh = .ok (bs ++ [b]) ∧
        b.trxs = Sample.firstNode.buf.trxPool ++ [t] ∧ node'.buf.trxPool = []) :=
  @reading_recorded Sample.http Sample.scriptPlatform Sample.scriptDerivation
    Sample.sensorScripts Sample.firstNode Sample.scriptBoostExact Sample.scriptProducerSigns
    Sample.scriptRecoversSigner Sample.served Sample.served (fun _ => Sample.apiEnv)
    (fun _ => Sample.env_succeeds) _ Sample.iotKeySigns Sample.now [] Sample.reading
    Sample.hasReading [.started] Sample.scriptRun (by decide) (by decide) Sample.env.fresh

end SimpleBlockchain
