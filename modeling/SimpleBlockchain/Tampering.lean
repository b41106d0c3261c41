import SimpleBlockchain.CheckChain

/-!
# Tampering with one row

Exactly which replacements of the JSON of one stored block the chain check
notices: none of the transaction list, and all of the header except in the last
row, when the new block calls itself block 0.
-/

namespace SimpleBlockchain

open HashChain

theorem map_id_modify (rows : List Row) (k : ℕ) (json : Str) :
    (rows.modify k fun r => { r with json := json }).map Row.id = rows.map Row.id := by
  apply List.ext_getElem?
  intro i
  simp only [List.getElem?_map, List.getElem?_modify]
  split <;> simp [Option.map_map, Function.comp_def]

theorem map_json_modify (rows : List Row) (k : ℕ) (json : Str) :
    (rows.modify k fun r => { r with json := json }).map Row.json =
      (rows.map Row.json).set k json := by
  apply List.ext_getElem?
  intro i
  rw [List.getElem?_map, List.getElem?_modify, List.getElem?_set, List.getElem?_map,
    List.length_map]
  by_cases hik : k = i
  · subst hik
    by_cases hlt : k < rows.length
    · simp [hlt]
    · simp [hlt]
  · simp [hik]

/-- The table with the JSON text of its `k`-th row replaced. -/
def Table.setJson (t : Table) (k : ℕ) (json : Str) : Table where
  rows := t.rows.modify k fun r => { r with json := json }
  primaryKey := by
    rw [map_id_modify]
    exact t.primaryKey

@[simp] theorem Table.rows_setJson (t : Table) (k : ℕ) (json : Str) :
    (t.setJson k json).rows = t.rows.modify k fun r => { r with json := json } := rfl

variable {P : Platform} {bs : List Block} {s : System} {k : ℕ} {c : Block}

theorem Represents.getAllBlocks_setJson (hP : P.BoostExact) (h : Represents P bs s)
    (fresh : ℕ → Fresh) :
    SimpleBlockchain.getAllBlocks P (s.db.setJson k (c.toJson P)) true fresh =
      .ok (bs.set k c.cut) := by
  have hjson : (s.db.setJson k (c.toJson P)).rows.map Row.json =
      (bs.set k c).map (Block.toJson P) := by
    rw [Table.rows_setJson, map_json_modify, h.rows, List.map_map, List.map_set]
    rfl
  rw [getAllBlocks_of_json hP fresh _ hjson, List.map_set, h.honest.map_cut]
  rw [Table.rows_setJson, map_id_modify]
  exact h.honest.ids_pairwise h.rows

theorem getElem?_set_cases {i : ℕ} {b : Block} (h : (bs.set k c)[i]? = some b) :
    i = k ∧ b = c ∨ i ≠ k ∧ bs[i]? = some b := by
  rw [List.getElem?_set] at h
  split at h
  next hki =>
    split at h
    · exact Or.inl ⟨hki.symm, (Option.some.inj h).symm⟩
    · cases h
  next hki => exact Or.inr ⟨Ne.symm hki, h⟩

/-! ## Headers -/

/-- A block that is not valid slips through only as a last block numbered 0. -/
theorem HonestChain.checkLoop_set (h : HonestChain P bs) (hk : k < bs.length)
    (hc : c.valid P ≠ .ok true) {f : Fresh} :
    checkLoop P (Block.new f) (bs.set k c) = .ok none ↔ k + 1 = bs.length ∧ c.blkNum = 0 := by
  have hget : (bs.set k c)[k]? = some c := by rw [List.getElem?_set_self hk]
  rw [checkLoop_new]
  constructor
  · rintro ⟨hzero, hsucc⟩
    have hnum : c.blkNum = 0 := by
      cases k with
      | zero => exact hzero c hget
      | succ j =>
          have hprev : (bs.set (j + 1) c)[j]? = some bs[j] := by
            rw [List.getElem?_set_ne (by omega), List.getElem?_eq_getElem]
          exact (hsucc j _ c hprev hget).resolve_right
            fun hcheck => hc (checkBlock_eq_true.1 hcheck).2.1
    refine ⟨?_, hnum⟩
    by_contra hne
    have hlt : k + 1 < bs.length := by omega
    have hsuc := List.getElem?_eq_getElem hlt
    have hnext : (bs.set k c)[k + 1]? = some bs[k + 1] := by
      rw [List.getElem?_set_ne (by omega), hsuc]
    rcases hsucc k c _ hget hnext with hz | hcheck
    · have hpos := h.blkNum_eq hsuc
      rw [hz] at hpos
      exact absurd hpos (by simp)
    · exact hc (checkBlock_eq_true.1 hcheck).1
  · rintro ⟨hlast, hnum⟩
    refine ⟨fun b hb => ?_, fun i b d hb hd => ?_⟩
    · rcases getElem?_set_cases hb with ⟨_, rfl⟩ | ⟨_, hb⟩
      · exact hnum
      · exact h.blkNum_zero hb
    · rcases getElem?_set_cases hd with ⟨_, rfl⟩ | ⟨hne, hd⟩
      · exact Or.inl hnum
      · have hlt := lt_of_getElem? hd
        rcases getElem?_set_cases hb with ⟨rfl, _⟩ | ⟨_, hb⟩
        · omega
        · exact h.passes hb hd (h.valid (i + 1) d (by omega) hd)

/-- No signature recovers to the producer's key that the producer did not make. -/
def Unforgeable (P : Platform) (made : Signature → Sha256 → Prop) : Prop :=
  ∀ sig d pub, ¬ made sig d → PublicKey.ofStr P producerKeyStr = .ok pub →
    PublicKey.recover P sig d ≠ .ok pub

theorem Unforgeable.not_valid {made : Signature → Sha256 → Prop} (h : Unforgeable P made)
    (hmade : ¬ made c.sig (c.digest P)) : c.valid P ≠ .ok true := by
  intro hvalid
  obtain ⟨pub, hrec, hpub⟩ := recover_of_valid hvalid
  exact h _ _ pub hmade hpub hrec

/-- Replacing the block in row `k` by one that the producer did not sign raises an
alarm exactly when the rows can be read and the block is not a last one that calls
itself block 0. -/
theorem header_tampering_detected_iff (hP : P.BoostExact) {made : Signature → Sha256 → Prop}
    (hforge : Unforgeable P made) (h : Reachable P s) (hk : k < s.db.rows.length)
    (hmade : ¬ made c.sig (c.digest P)) (env : Env) :
    (checkChain P env (s.db.setJson k (c.toJson P)) ≠ .ok resultZero ↔
      env.sqlOk 0 = true ∧ ¬ (k + 1 = s.db.rows.length ∧ c.blkNum = 0)) ∧
    (toolCheckChain P env (s.db.setJson k (c.toJson P)) ≠ .ok true ↔
      env.sqlOk 0 = true ∧ ¬ (k + 1 = s.db.rows.length ∧ c.blkNum = 0)) := by
  obtain ⟨bs, hbs⟩ := h.represents hP
  have hlen : s.db.rows.length = bs.length := by rw [hbs.rows, List.length_map]
  rw [hlen] at hk ⊢
  cases hok : env.sqlOk 0 with
  | false =>
      obtain ⟨hcheck, htool⟩ := checks_of_sqlError P (s.db.setJson k (c.toJson P)) hok
      simp [hcheck, htool]
  | true =>
      have hall := hbs.getAllBlocks_setJson hP (k := k) (c := c) fun i => env.fresh (i + 1)
      rw [← hok] at hall
      have hloop := hbs.honest.checkLoop_set (c := c.cut) hk (hforge.not_valid hmade)
        (f := env.fresh 0)
      rw [Ne, Ne, checkChain_eq_resultZero hall, toolCheckChain_eq_true hall, hloop]
      simp [Block.cut]

/-! ## The chain of one block -/

namespace Sample

theorem ofJson_block (f : Fresh) :
    Block.ofJson platform f (rowOf platform block).json = .ok block :=
  twoBlocks.ofJson boostExact List.mem_cons_self f

/-- Any block that calls itself block 0 is accepted in place of the only one. -/
theorem checks_setJson (hc : c.blkNum = 0) :
    checkChain platform env (table.setJson 0 (c.toJson platform)) = .ok resultZero ∧
      toolCheckChain platform env (table.setJson 0 (c.toJson platform)) = .ok true := by
  have hrows : (table.setJson 0 (c.toJson platform)).rows =
      [{ rowOf platform block with json := c.toJson platform }] := by
    rw [Table.rows_setJson, rows_table]
    rfl
  have hids : ((table.setJson 0 (c.toJson platform)).rows.map Row.id).Pairwise (· < ·) := by
    rw [hrows]
    exact List.pairwise_singleton _ _
  have hjson : (table.setJson 0 (c.toJson platform)).rows.map Row.json =
      [c].map (Block.toJson platform) := by
    rw [hrows]
    rfl
  have hall : SimpleBlockchain.getAllBlocks platform (table.setJson 0 (c.toJson platform))
      (env.sqlOk 0) (fun i => env.fresh (i + 1)) = .ok [c.cut] := by
    have hok : env.sqlOk 0 = true := rfl
    rw [hok, getAllBlocks_of_json boostExact _ hids hjson, List.map_singleton]
  have hloop : checkLoop platform (Block.new (env.fresh 0)) [c.cut] = .ok none := by
    rw [checkLoop_eq_none, List.isChain_cons_cons]
    exact ⟨Or.inl hc, List.isChain_singleton _⟩
  exact ⟨(checkChain_eq_resultZero hall).2 hloop, (toolCheckChain_eq_true hall).2 hloop⟩

/-- The signatures that the producer makes on this platform. -/
def Made (sig : Signature) (d : Sha256) : Prop := sig = ⟨.k1, sign d⟩

theorem stranger_ne_producer : some producerKeyData ∉
    none :: (strangers.map fun s => (s.1, some s.2)).map Prod.snd := by
  decide

theorem unforgeable : Unforgeable platform Made := by
  intro sig d pub hmade hpub hrec
  rw [producerKey, Except.ok.injEq] at hpub
  subst hpub
  obtain ⟨which, data⟩ := sig
  rw [PublicKey.recover] at hrec
  split at hrec
  · cases hrec
  cases which with
  | k1 =>
      obtain ⟨_, _, hrec⟩ := bind_eq_ok.1 hrec
      have hne : data ≠ sign d := fun h => hmade (by rw [Made, h])
      have hkey : ∀ n, platform.recoverCompactK1 d data n =
          lookup none (d, data) (strangers.map fun s => (s.1, some s.2)) := fun _ => if_neg hne
      have hmem := lookup_mem_cons none (d, data) (strangers.map fun s => (s.1, some s.2))
      rw [hkey] at hrec
      cases hfound : lookup none (d, data) (strangers.map fun s => (s.1, some s.2)) with
      | none =>
          rw [hfound] at hrec
          cases hrec
      | some key =>
          rw [hfound] at hrec hmem
          obtain ⟨_, _, hrec⟩ := bind_eq_ok.1 hrec
          cases hrec
          exact stranger_ne_producer hmem
  | r1 => cases hrec

def shifted : Block := { block with timePoint := now + 1 }

theorem shifted_not_made : ¬ Made shifted.sig (shifted.digest platform) := by
  have hdigest : shifted.digest platform = shiftedDigest := rfl
  have hsig : sign shiftedDigest = otherSig := rfl
  have hne : blockSig ≠ otherSig := by decide
  rw [Made, hdigest, hsig]
  exact fun h => hne (congrArg Suited.data h)

end Sample

theorem sample_header_tampering :
    (checkChain Sample.platform Sample.env
        (Sample.table.setJson 0 (Sample.shifted.toJson Sample.platform)) ≠ .ok resultZero ↔
      Sample.env.sqlOk 0 = true ∧
        ¬ (0 + 1 = Sample.table.rows.length ∧ Sample.shifted.blkNum = 0)) ∧
    (toolCheckChain Sample.platform Sample.env
        (Sample.table.setJson 0 (Sample.shifted.toJson Sample.platform)) ≠ .ok true ↔
      Sample.env.sqlOk 0 = true ∧
        ¬ (0 + 1 = Sample.table.rows.length ∧ Sample.shifted.blkNum = 0)) :=
  header_tampering_detected_iff Sample.boostExact Sample.unforgeable Sample.reachable
    (by rw [System.db, Sample.rows_table]; exact Nat.zero_lt_one) Sample.shifted_not_made Sample.env

/-- The only block of a chain with its time moved by a second passes both checks. -/
theorem sample_header_tampering_unseen :
    Reachable Sample.platform (.up ⟨Sample.bufAfter, Sample.table⟩) ∧ Sample.env.Succeeds ∧
      Unforgeable Sample.platform Sample.Made ∧
      Sample.table.rows = [rowOf Sample.platform Sample.block] ∧
      Sample.shifted.timePoint ≠ Sample.block.timePoint ∧
      ¬ Sample.Made Sample.shifted.sig (Sample.shifted.digest Sample.platform) ∧
      checkChain Sample.platform Sample.env
        (Sample.table.setJson 0 (Sample.shifted.toJson Sample.platform)) = .ok resultZero ∧
      toolCheckChain Sample.platform Sample.env
        (Sample.table.setJson 0 (Sample.shifted.toJson Sample.platform)) = .ok true :=
  ⟨Sample.reachable, Sample.env_succeeds, Sample.unforgeable, Sample.rows_table, by decide,
    Sample.shifted_not_made, Sample.checks_setJson rfl⟩

/-! ## Transactions -/

/-- The block without its transactions, which is all that the check looks at. -/
def Block.strip (b : Block) : Block := { b with trxs := [] }

theorem checkLoop_strip {checkBlk : Block} {blocks : List Block} :
    checkLoop P checkBlk.strip (blocks.map Block.strip) = .ok none ↔
      checkLoop P checkBlk blocks = .ok none := by
  rw [checkLoop_eq_none, checkLoop_eq_none, ← List.map_cons, List.isChain_map]
  exact Iff.rfl

theorem HonestChain.checkLoop_iff (h : HonestChain P bs) {f : Fresh} :
    checkLoop P (Block.new f) bs = .ok none ↔
      (2 ≤ bs.length → ∀ b, bs.getLast? = some b → b.valid P = .ok true) := by
  rw [checkLoop_new]
  constructor
  · rintro ⟨_, hsucc⟩ hlen b hb
    rw [List.getLast?_eq_getElem?] at hb
    obtain ⟨i, hi⟩ : ∃ i, bs.length - 1 = i + 1 := ⟨bs.length - 2, by omega⟩
    rw [hi] at hb
    have hprev := List.getElem?_eq_getElem (show i < bs.length by omega)
    rcases hsucc i _ b hprev hb with hz | hcheck
    · have hpos := h.blkNum_eq hb
      rw [hz] at hpos
      exact absurd hpos (by simp)
    · exact (checkBlock_eq_true.1 hcheck).2.1
  · intro hlast
    refine ⟨fun b => h.blkNum_zero, fun i b c hb hc => h.passes hb hc ?_⟩
    have hlt := lt_of_getElem? hc
    by_cases hnext : i + 1 + 1 < bs.length
    · exact h.valid (i + 1) c hnext hc
    · apply hlast (by omega) c
      rw [List.getLast?_eq_getElem?, ← hc]
      congr 1
      omega

theorem checkLoop_set_trxs {b : Block} (hb : bs[k]? = some b) (trxs : List Transaction)
    {f : Fresh} : checkLoop P (Block.new f) (bs.set k { b with trxs := trxs }) = .ok none ↔
      checkLoop P (Block.new f) bs = .ok none := by
  have hsame : (bs.set k { b with trxs := trxs }).map Block.strip = bs.map Block.strip := by
    rw [List.map_set]
    apply List.ext_getElem?
    intro i
    rw [List.getElem?_set]
    by_cases hki : k = i
    · subst hki
      rw [if_pos rfl, if_pos (by rw [List.length_map]; exact lt_of_getElem? hb),
        List.getElem?_map, hb]
      rfl
    · rw [if_neg hki]
  rw [← checkLoop_strip, hsame, checkLoop_strip]

/-- Replacing the transactions of a stored block by any others, with its header and
its signature kept, raises no alarm of its own: the check fails only where it fails
on the chain itself, on a last block whose own signature does not verify. -/
theorem trxs_tampering_detected_iff (hP : P.BoostExact) (h : Reachable P s) {row : Row}
    (hrow : s.db.rows[k]? = some row) {f : Fresh} {b : Block}
    (hb : Block.ofJson P f row.json = .ok b) (trxs : List Transaction) (env : Env) :
    checkChain P env (s.db.setJson k ({ b with trxs := trxs }.toJson P)) ≠ .ok resultZero ↔
      env.sqlOk 0 = true ∧ 2 ≤ s.db.rows.length ∧
        ∃ lastRow last, s.db.rows.getLast? = some lastRow ∧
          Block.ofJson P f lastRow.json = .ok last ∧ last.valid P ≠ .ok true := by
  obtain ⟨bs, hbs⟩ := h.represents hP
  have hhonest := hbs.honest
  rw [hbs.rows, List.getElem?_map, Option.map_eq_some_iff] at hrow
  obtain ⟨b', hget, rfl⟩ := hrow
  rw [rowOf, hhonest.ofJson hP (List.mem_of_getElem? hget), Except.ok.injEq] at hb
  subst hb
  cases hok : env.sqlOk 0 with
  | false => simp [(checks_of_sqlError P (s.db.setJson k _) hok).1]
  | true =>
      have hall := hbs.getAllBlocks_setJson hP (k := k) (c := { b' with trxs := trxs })
        fun i => env.fresh (i + 1)
      rw [← hok] at hall
      have hloop := checkLoop_set_trxs (P := P) hget (trxs.map Transaction.cut) (f := env.fresh 0)
      rw [Ne, checkChain_eq_resultZero hall]
      simp only [Block.cut]
      rw [hloop, hhonest.checkLoop_iff, hbs.rows, List.length_map, List.getLast?_map]
      constructor
      · intro hbad
        push Not at hbad
        obtain ⟨hlen, last, hlast, hvalid⟩ := hbad
        refine ⟨trivial, hlen, rowOf P last, last, by rw [hlast]; rfl, ?_, hvalid⟩
        exact hhonest.ofJson hP (List.mem_of_getLast? hlast) f
      · rintro ⟨_, hlen, lastRow, last, hrow, hjson, hvalid⟩ hgood
        obtain ⟨c, hlast, rfl⟩ := Option.map_eq_some_iff.1 hrow
        rw [rowOf, hhonest.ofJson hP (List.mem_of_getLast? hlast), Except.ok.injEq] at hjson
        exact hvalid (hjson ▸ hgood hlen c hlast)

theorem sample_trxs_tampering :
    checkChain Sample.platform Sample.env
        (Sample.table.setJson 0 ({ Sample.block with trxs := [] }.toJson Sample.platform)) ≠
          .ok resultZero ↔
      Sample.env.sqlOk 0 = true ∧ 2 ≤ Sample.table.rows.length ∧
        ∃ lastRow last, Sample.table.rows.getLast? = some lastRow ∧
          Block.ofJson Sample.platform ⟨0, 0⟩ lastRow.json = .ok last ∧
          last.valid Sample.platform ≠ .ok true :=
  trxs_tampering_detected_iff Sample.boostExact Sample.reachable
    (by rw [System.db, Sample.rows_table]; rfl) (Sample.ofJson_block _) [] Sample.env

/-- The transaction is gone, the Merkle root still stands for it, and the check passes. -/
theorem sample_trxs_tampering_unseen :
    Reachable Sample.platform (.up ⟨Sample.bufAfter, Sample.table⟩) ∧ Sample.env.Succeeds ∧
      Sample.table.rows[0]? = some (rowOf Sample.platform Sample.block) ∧
      Block.ofJson Sample.platform ⟨0, 0⟩ (rowOf Sample.platform Sample.block).json =
        .ok Sample.block ∧
      [] ≠ Sample.block.trxs ∧ packVector Transaction.pack [] = .ok [0] ∧
      Sample.platform.sha256 [0] ≠ Sample.block.merkleRoot ∧
      checkChain Sample.platform Sample.env (Sample.table.setJson 0
        ({ Sample.block with trxs := [] }.toJson Sample.platform)) = .ok resultZero := by
  refine ⟨Sample.reachable, Sample.env_succeeds, by rw [Sample.rows_table]; rfl,
    Sample.ofJson_block _, ?_, rfl, ?_, (Sample.checks_setJson rfl).1⟩
  · exact (List.cons_ne_nil _ _).symm
  · decide +kernel

end SimpleBlockchain
