import SimpleBlockchain.ChainInvariant
import SimpleBlockchain.SqlLexer

/-!
# The text of the INSERT

`append_block` pastes the hash and the JSON of a block between quotes and escapes neither.
No encoder of a field writes a quote.
-/

namespace SimpleBlockchain

/-- The statement of `sqlite_plugin_impl::append_block`, from the texts of its arguments. -/
def insertSql (id hash json : Str) : Str :=
  "INSERT INTO BLOCK (ID,HASH,JSON) VALUES(".toList ++ id ++ ",'".toList ++ hash ++
    "','".toList ++ json ++ "');".toList

/-- What `sqlite_plugin::append_block` hands to `sqlite3_exec`. -/
def appendBlockSql (P : Platform) (block : Block) : Str :=
  insertSql (decimal block.blkNum.toNat) (toHex (block.digest P).toList 32) (block.toJson P)

def Unquoted (s : Str) : Prop := ∀ c ∈ s, c ≠ '\''

instance (s : Str) : Decidable (Unquoted s) :=
  decidable_of_iff (s.all (fun c => decide (c ≠ '\'')) = true) (by simp [Unquoted])

variable {P : Platform}

/-! ## The fields -/

theorem unquoted_of_isAlphanum {s : Str} (h : ∀ c ∈ s, c.isAlphanum) : Unquoted s := by
  rintro c hc rfl
  exact absurd (h _ hc) (by decide)

theorem unquoted_of_isAlphanum_or {s : Str} (h : ∀ c ∈ s, c.isAlphanum ∨ c = '_') :
    Unquoted s := by
  rintro c hc rfl
  exact absurd (h _ hc) (by decide)

theorem unquoted_decimal (n : ℕ) : Unquoted (decimal n) :=
  unquoted_of_isAlphanum fun c hc => isAlphanum_of_isDigit (decimal_isDigit c hc)

theorem unquoted_isoText (hP : P.BoostExact) (t : UInt32) :
    Unquoted (P.toIsoExtendedString t) := by
  rintro c hc rfl
  exact absurd (hP.iso_alphabet t _ hc) (by decide)

theorem unquoted_escapeChar {c : Char} (hc : c ≠ '\'') : Unquoted (escapeChar c) := by
  have hdigit : ∀ n < 32, Unquoted
      ("\\u00".toList ++ [Nat.digitChar (n / 16), Nat.digitChar (n % 16)]) := by decide
  unfold escapeChar
  split_ifs
  any_goals decide
  · exact hdigit _ ‹_›
  · intro d hd
    rw [List.mem_singleton.1 hd]
    exact hc

theorem unquoted_escapeString {s : Str} (hs : Unquoted s) : Unquoted (escapeString s) := by
  have hbody : Unquoted (s.flatMap escapeChar) := by
    intro d hd
    obtain ⟨c, hc, hd⟩ := List.mem_flatMap.1 hd
    exact unquoted_escapeChar (hs c hc) d hd
  have hmark : '"' ≠ '\'' := by decide
  unfold escapeString
  exact List.forall_mem_append.2 ⟨List.forall_mem_cons.2 ⟨hmark, hbody⟩, by simp⟩

/-! ## The JSON text -/

theorem unquoted_string {s : Str} (hs : Unquoted s) : Unquoted (toStream P (.string s)) := by
  rw [toStream]
  exact unquoted_escapeString hs

theorem unquoted_ofBytes (d : Bytes) : Unquoted (toStream P (.ofBytes d)) := by
  unfold Variant.ofBytes
  split
  · exact unquoted_string (unquoted_of_isAlphanum (toHex_isAlphanum _ _))
  · exact unquoted_string (by simp [Unquoted])

theorem unquoted_uint64 (hP : P.BoostExact) (n : UInt64) :
    Unquoted (toStream P (.uint64 n)) := by
  have hmark : '"' ≠ '\'' := by decide
  have hdec := unquoted_decimal n.toNat
  rw [toStream, hP.cast_string]
  split
  · exact List.forall_mem_append.2 ⟨List.forall_mem_cons.2 ⟨hmark, hdec⟩, by simp⟩
  · exact hdec

theorem unquoted_array {a : List Variant} (ha : ∀ v ∈ a, Unquoted (toStream P v)) :
    Unquoted (toStream P (.array a)) := by
  rw [toStream]
  exact List.forall_mem_cons.2 ⟨by decide, forall_toStreamElems (by decide) (by decide) ha⟩

theorem unquoted_object {o : List (Str × Variant)} (hk : ∀ e ∈ o, Unquoted e.1)
    (ho : ∀ e ∈ o, Unquoted (toStream P e.2)) : Unquoted (toStream P (.object o)) := by
  rw [toStream]
  exact List.forall_mem_cons.2 ⟨by decide, forall_toStreamEntries (by decide) (by decide)
    (by decide) (fun e he => unquoted_escapeString (hk e he)) ho⟩

theorem Transaction.unquoted_toVariant (hP : P.BoostExact) (t : Transaction) :
    Unquoted (toStream P (t.toVariant P)) := by
  refine unquoted_object ?_ ?_
  · simp only [List.forall_mem_cons]
    exact ⟨by decide, by decide, by decide, by decide, by decide, by simp⟩
  · simp only [List.forall_mem_cons]
    refine ⟨unquoted_string (unquoted_isoText hP _), unquoted_ofBytes _, unquoted_ofBytes _,
      ?_, ?_, by simp⟩
    · exact unquoted_string (unquoted_of_isAlphanum_or fun c hc => Signature.toStr_plain P hc)
    · exact unquoted_string (unquoted_of_isAlphanum_or fun c hc => PublicKey.toStr_plain P hc)

theorem Block.unquoted_toJson (hP : P.BoostExact) (b : Block) : Unquoted (b.toJson P) := by
  refine unquoted_object ?_ ?_
  · simp only [List.forall_mem_cons]
    exact ⟨by decide, by decide, by decide, by decide, by decide, by decide, by simp⟩
  · simp only [List.forall_mem_cons]
    refine ⟨unquoted_string (unquoted_isoText hP _), unquoted_ofBytes _, unquoted_uint64 hP _,
      unquoted_array fun v hv => ?_, unquoted_ofBytes _, ?_, by simp⟩
    · obtain ⟨t, _, rfl⟩ := List.mem_map.1 hv
      exact t.unquoted_toVariant hP
    · exact unquoted_string (unquoted_of_isAlphanum_or fun c hc => Signature.toStr_plain P hc)

/-! ## The statement -/

/-- The tokens of the statement with its three literals. -/
def insertTokens (id hash json : Str) : List Sql.Token :=
  [.word "INSERT".toList, .word "INTO".toList, .word "BLOCK".toList, .punct '(',
    .word "ID".toList, .punct ',', .word "HASH".toList, .punct ',', .word "JSON".toList,
    .punct ')', .word "VALUES".toList, .punct '(', .number id, .punct ',', .text hash,
    .punct ',', .text json, .punct ')', .punct ';']

theorem scan_opening : Sql.scan .start "INSERT INTO BLOCK (ID,HASH,JSON) VALUES(".toList =
    some ((insertTokens [] [] []).take 12, .start) := by
  decide

theorem Unquoted.count_eq_zero {s : Str} (hs : Unquoted s) : s.count '\'' = 0 :=
  List.count_eq_zero.2 fun hmem => hs _ hmem rfl

theorem count_template {id hash json : Str} (hid : id.count '\'' = 0)
    (hhash : hash.count '\'' = 0) (hjson : json.count '\'' = 0) :
    (insertSql id hash json).count '\'' = 4 := by
  unfold insertSql
  simp only [List.count_append, hid, hhash, hjson]
  decide

theorem printable_template {id hash json : Str} (hid : Printable id) (hhash : Printable hash)
    (hjson : Printable json) :
    Printable (insertSql id hash json) :=
  .append (.append (.append (.append (.append (.append (by decide) hid) (by decide)) hhash)
    (by decide)) hjson) (by decide)

theorem tokens_template {id hash json : Str} (hid : ∀ c ∈ id, c.isDigit) (hne : id ≠ [])
    (hhash : Unquoted hash) (hjson : Unquoted json) :
    Sql.tokens (insertSql id hash json) = some (insertTokens id hash json) := by
  have hcomma : Sql.scan (.number id) ",'".toList = some ([.number id, .punct ','], .text []) :=
    rfl
  have hbetween : Sql.scan (.text ([] ++ hash)) "','".toList =
      some ([.text hash, .punct ','], .text []) := rfl
  have hclose : Sql.scan (.text ([] ++ json)) "');".toList =
      some ([.text json, .punct ')', .punct ';'], .start) := rfl
  have hscan := Sql.scan_append_of (Sql.scan_append_of (Sql.scan_append_of (Sql.scan_append_of
    (Sql.scan_append_of (Sql.scan_append_of scan_opening (Sql.scan_number hid hne)) hcomma)
    (Sql.scan_text hhash [])) hbetween) (Sql.scan_text hjson [])) hclose
  unfold Sql.tokens insertSql
  rw [hscan]
  rfl

theorem parseInsert_template (id hash json : Str) :
    Sql.parseInsert (insertTokens id hash json) =
      some ⟨"BLOCK".toList, ["ID".toList, "HASH".toList, "JSON".toList],
        [.number id, .text hash, .text json]⟩ := rfl

/-- The statement has no quotes beside its own four and no zero byte, and is one `INSERT`
of the number, the hash and the JSON text. -/
theorem appendBlockSql_is_insert (hP : P.BoostExact) (b : Block) :
    (appendBlockSql P b).count '\'' = 4 ∧ cStr (appendBlockSql P b) = appendBlockSql P b ∧
      Sql.parse (cStr (appendBlockSql P b)) =
        some ⟨"BLOCK".toList, ["ID".toList, "HASH".toList, "JSON".toList],
          [.number (decimal b.blkNum.toNat), .text (toHex (b.digest P).toList 32),
            .text (b.toJson P)]⟩ := by
  have halnum : ∀ c ∈ decimal b.blkNum.toNat, c.isAlphanum :=
    fun c hc => isAlphanum_of_isDigit (decimal_isDigit c hc)
  have hhex := toHex_isAlphanum (b.digest P).toList 32
  have hjson := b.unquoted_toJson hP
  have hid : ∀ c ∈ decimal b.blkNum.toNat, c.isDigit := decimal_isDigit
  have hcount := count_template (unquoted_of_isAlphanum halnum).count_eq_zero
    (unquoted_of_isAlphanum hhex).count_eq_zero hjson.count_eq_zero
  have hprint := printable_template (printable_of_isAlphanum halnum)
    (printable_of_isAlphanum hhex) (printable_toStream hP (b.storable_toVariant hP))
  have htokens := tokens_template hid Nat.toDigits_ne_nil (unquoted_of_isAlphanum hhex) hjson
  have hcstr : cStr (appendBlockSql P b) = appendBlockSql P b := by
    refine (takeWhile_of_forall fun c hc => decide_eq_true ?_).1
    rintro rfl
    exact absurd (hprint _ hc) (by decide)
  refine ⟨hcount, hcstr, ?_⟩
  rw [hcstr, Sql.parse, appendBlockSql, htokens]
  exact parseInsert_template _ _ _

theorem sample_appendBlockSql : (appendBlockSql Sample.platform Sample.block).count '\'' = 4 :=
  (appendBlockSql_is_insert Sample.boostExact Sample.block).1

end SimpleBlockchain
