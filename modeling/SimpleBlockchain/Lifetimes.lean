import Mathlib.Logic.Relation
import SimpleBlockchain.ChainPlugin
import SimpleBlockchain.HashChain

/-!
# Process lifetimes

A system is a table that outlives its processes and, while one runs, a node.
This module describes the runs in which every SQL statement succeeds, and the
chain that such a run leaves in the table.
-/

namespace SimpleBlockchain

open HashChain

inductive Call
  | push (p : PushTransactionParams) (next : NextFunction Variant)
  | publish (next : NextFunction Variant)
  | getInfo
  | getBlock (blkNum : UInt64)
  | getBlocks (blkNums : List UInt64)
  | checkChain

/-- The caller of a reading call is given its result; the state does not change. -/
def Node.call (P : Platform) (env : Env) (node : Node) : Call → Outcome
  | .push p next => pushTransaction P next node p
  | .publish next => publishBlk P env next node
  | .getInfo => ⟨node, ⟨[.ok (SimpleBlockchain.getInfo env node)], none⟩, [env.sqlOk 0]⟩
  | .getBlock blkNum => ⟨node, ⟨[getBlockCall P env node blkNum], none⟩, [env.sqlOk 0]⟩
  | .getBlocks blkNums =>
      ⟨node, ⟨[(SimpleBlockchain.getBlocks P env node blkNums).map .array], none⟩,
        (List.range (max 1 blkNums.length)).map env.sqlOk⟩
  | .checkChain => ⟨node, ⟨[SimpleBlockchain.checkChain P env node.db], none⟩, [env.sqlOk 0]⟩

inductive System
  | down (db : Table)
  | up (node : Node)

def System.db : System → Table
  | .down db => db
  | .up node => node.db

/-- One step of a system whose SQL statements all succeed. -/
inductive Step (P : Platform) : System → System → Prop
  | start {db env buf} : env.Succeeds → pluginStartup P env db = .started buf →
      Step P (.down db) (.up ⟨buf, db⟩)
  | call {node env} (c : Call) : env.Succeeds → (∀ rc ∈ (node.call P env c).rcs, rc = true) →
      Step P (.up node) (.up (node.call P env c).node)
  | stop {node} : Step P (.up node) (.down node.db)

def Reachable (P : Platform) : System → Prop :=
  Relation.ReflTransGen (Step P) (.down .empty)

/-! ## The chain in the table -/

/-- The row that `append_block` writes, for a number that sqlite takes literally. -/
def rowOf (P : Platform) (b : Block) : Row :=
  ⟨b.blkNum.toNat, toHex (b.digest P).toList 32, b.toJson P⟩

/-- A chain that the producer's node built. Nothing is assumed of the signature
scheme here: that all blocks but the last are valid is what the node checked. -/
structure HonestChain (P : Platform) (bs : List Block) : Prop where
  linked : IsHashChain (fun b : Block => b.blkNum.toNat) Block.priorHash (Block.digest P)
    zeroSha256 bs
  small : ∀ b ∈ bs, ∀ t ∈ b.trxs, t.Small
  merkleRoot : ∀ b ∈ bs, ∃ packed, packVector Transaction.pack b.trxs = .ok packed ∧
    b.merkleRoot = P.sha256 packed
  signed : ∀ b ∈ bs, ∃ key, PrivateKey.ofStr P privateKeyStr = .ok key ∧
    key.sign P (b.digest P) = .ok b.sig
  valid : ∀ i b, i + 1 < bs.length → bs[i]? = some b → b.valid P = .ok true
  length_le : bs.length ≤ 2 ^ 63 + 1

/-- The buffer of a node that has caught up with the chain. -/
structure Follows (P : Platform) (bs : List Block) (buf : Buffer) : Prop where
  privateKey : PrivateKey.ofStr P privateKeyStr = .ok buf.privateKey
  pool : ∀ t ∈ buf.trxPool, t.validate P = .ok true
  tip : ∀ b, bs.getLast? = some b → buf.lastBlock = b
  noTip : bs = [] → ∃ f, buf.lastBlock = Block.new f

/-- The table holds the chain, and a running node follows it. -/
inductive Represents (P : Platform) (bs : List Block) : System → Prop
  | down {db} : HonestChain P bs → db.rows = bs.map (rowOf P) → Represents P bs (.down db)
  | up {node} : HonestChain P bs → node.db.rows = bs.map (rowOf P) → Follows P bs node.buf →
      Represents P bs (.up node)

variable {P : Platform} {bs : List Block}

theorem Represents.honest {s : System} (h : Represents P bs s) : HonestChain P bs := by
  cases h <;> assumption

theorem Represents.rows {s : System} (h : Represents P bs s) : s.db.rows = bs.map (rowOf P) := by
  cases h <;> assumption

theorem honestChain_nil : HonestChain P [] where
  linked := isHashChain_nil
  small _ h := absurd h List.not_mem_nil
  merkleRoot _ h := absurd h List.not_mem_nil
  signed _ h := absurd h List.not_mem_nil
  valid _ _ _ h := by simp at h
  length_le := Nat.zero_le _

theorem HonestChain.blkNum_eq (h : HonestChain P bs) {i : ℕ} {b : Block}
    (hb : bs[i]? = some b) : b.blkNum.toNat = i :=
  h.linked.number_eq i b hb

theorem HonestChain.ids (h : HonestChain P bs) {db : Table} (hrows : db.rows = bs.map (rowOf P)) :
    db.rows.map Row.id = (List.range bs.length).map Nat.cast := by
  apply List.ext_getElem?
  intro i
  rw [hrows, List.map_map, List.getElem?_map, List.getElem?_map]
  cases hb : bs[i]? with
  | none =>
      rw [List.getElem?_eq_none_iff] at hb
      rw [List.getElem?_eq_none_iff.2 (by rwa [List.length_range])]
      rfl
  | some b =>
      have hi := lt_of_getElem? hb
      rw [List.getElem?_range hi, Option.map_some, Option.map_some]
      simp only [Function.comp, rowOf, h.blkNum_eq hb]

theorem HonestChain.mem_ids (h : HonestChain P bs) {db : Table}
    (hrows : db.rows = bs.map (rowOf P)) {i : ℕ} :
    (i : ℤ) ∈ db.rows.map Row.id ↔ i < bs.length := by
  rw [h.ids hrows]
  simp

theorem HonestChain.ofJson (hP : P.BoostExact) (h : HonestChain P bs) {b : Block} (hb : b ∈ bs)
    (f : Fresh) : Block.ofJson P f (b.toJson P) = .ok b := by
  rw [Block.ofJson_toJson hP, Block.cut_eq_self.2 (h.small b hb)]

theorem valid_of_blank {b : Block} (h : b.sig = blankSignature) : b.valid P = .ok false := by
  rw [Block.valid, if_pos h.symm]

/-! ## One block more -/

section Publish

variable {f : Fresh} {buf : Buffer} {b : Block} {valid : Bool}

/-- What the node built on its chain is the next block of it, if the table takes it. -/
theorem HonestChain.built_next (h : HonestChain P bs) (hf : Follows P bs buf)
    (hb : Built P f buf valid b) {db : Table} (hrows : db.rows = bs.map (rowOf P))
    (hfree : sqliteInteger b.blkNum ∉ db.rows.map Row.id) :
    b.blkNum.toNat = bs.length ∧ sqliteInteger b.blkNum = bs.length ∧
      (bs = [] → b.priorHash = zeroSha256) ∧
      (∀ l, bs.getLast? = some l → b.priorHash = l.digest P ∧ l.valid P = .ok true) := by
  cases hl : bs.getLast? with
  | none =>
      have hnil := List.getLast?_eq_none_iff.1 hl
      have hv := hb.valid_eq
      obtain ⟨f₀, hblank⟩ := hf.noTip hnil
      rw [hblank, valid_of_blank rfl, Except.ok.injEq] at hv
      subst hv
      have hnum : b.blkNum = 0 := hb.blkNum_eq
      refine ⟨by rw [hnum, hnil]; rfl, by rw [hnum, hnil]; rfl, fun _ => hb.priorHash_eq, ?_⟩
      rintro l ⟨⟩
  | some l =>
      have hl' := hl
      rw [List.getLast?_eq_getElem?] at hl'
      have hlt := lt_of_getElem? hl'
      have hlnum := h.blkNum_eq hl'
      have hlen := h.length_le
      have htip := hf.tip l hl
      cases valid with
      | false =>
          -- a second block 0 would collide with the first
          have hnum : b.blkNum = 0 := hb.blkNum_eq
          rw [hnum, sqliteInteger_eq (by decide)] at hfree
          exact absurd ((h.mem_ids hrows).2 (by simpa using Nat.zero_lt_of_lt hlt)) hfree
      | true =>
          have hnum : b.blkNum = l.blkNum + 1 := by rw [← htip]; exact hb.blkNum_eq
          have hnat : b.blkNum.toNat = bs.length := by
            rw [hnum, UInt64.toNat_add, hlnum]
            simp only [UInt64.toNat_one]
            omega
          refine ⟨hnat, ?_, ?_, ?_⟩
          · by_cases hle : b.blkNum.toNat ≤ 2 ^ 63
            · rw [sqliteInteger_eq hle, hnat]
            · -- the next number is rounded down to one that is taken
              rw [sqliteInteger_rounded (by omega)] at hfree
              exact absurd ((h.mem_ids hrows (i := 2 ^ 63)).2 (by omega)) (by simpa using hfree)
          · rintro rfl
            cases hl
          · rintro l' ⟨⟩
            exact ⟨by rw [← htip]; exact hb.priorHash_eq, by rw [← htip]; exact hb.valid_eq⟩

theorem HonestChain.concat (h : HonestChain P bs) (hf : Follows P bs buf)
    (hb : Built P f buf valid b) {db : Table} (hrows : db.rows = bs.map (rowOf P))
    (hfree : sqliteInteger b.blkNum ∉ db.rows.map Row.id) : HonestChain P (bs ++ [b]) := by
  obtain ⟨hnum, hid, hzero, hprior⟩ := h.built_next hf hb hrows hfree
  have hlen : bs.length ≤ 2 ^ 63 := by
    by_contra hgt
    have := h.length_le
    rw [sqliteInteger_rounded (by omega)] at hid
    omega
  refine ⟨?_, ?_, ?_, ?_, ?_, ?_⟩
  · exact h.linked.concat hnum hzero fun l hl => (hprior l hl).1
  · intro c hc t ht
    rcases List.mem_append.1 hc with hc | hc
    · exact h.small c hc t ht
    · obtain rfl := List.mem_singleton.1 hc
      rw [hb.trxs_eq] at ht
      exact Transaction.small_of_validate (hf.pool t ht)
  · intro c hc
    rcases List.mem_append.1 hc with hc | hc
    · exact h.merkleRoot c hc
    · obtain rfl := List.mem_singleton.1 hc
      exact hb.merkleRoot_eq
  · intro c hc
    rcases List.mem_append.1 hc with hc | hc
    · exact h.signed c hc
    · obtain rfl := List.mem_singleton.1 hc
      exact ⟨buf.privateKey, hf.privateKey, hb.sig_eq⟩
  · intro i c hi hc
    rw [List.length_append, List.length_singleton] at hi
    rcases getElem?_concat hc with hc | ⟨hi', _⟩
    · by_cases hlt : i + 1 < bs.length
      · exact h.valid i c hlt hc
      · refine (hprior c ?_).2
        rw [List.getLast?_eq_getElem?, ← hc]
        congr 1
        omega
    · omega
  · rw [List.length_append, List.length_singleton]
    omega

theorem Represents.publish {node : Node} (h : Represents P bs (.up node)) (env : Env)
    (next : NextFunction Variant) (hok : ∀ rc ∈ (publishBlk P env next node).rcs, rc = true) :
    (publishBlk P env next node).node = node ∨
      ∃ b, b.trxs = node.buf.trxPool ∧ (publishBlk P env next node).node.buf.trxPool = [] ∧
        Represents P (bs ++ [b]) (.up (publishBlk P env next node).node) := by
  obtain ⟨hhonest, hrows, hf⟩ : HonestChain P bs ∧ node.db.rows = bs.map (rowOf P) ∧
      Follows P bs node.buf := by
    cases h with
    | up h₁ h₂ h₃ => exact ⟨h₁, h₂, h₃⟩
  rcases publishBlk_cases P env next node with ⟨e, _, heq⟩ | ⟨b, valid, hb, heq⟩
  · exact Or.inl (by rw [heq])
  · rw [heq] at hok ⊢
    obtain ⟨_, hfree, hrows'⟩ := Table.insert_ok (hok _ (List.mem_singleton_self _))
    obtain ⟨hnum, hid, _, _⟩ := hhonest.built_next hf hb hrows hfree
    refine Or.inr ⟨b, hb.trxs_eq, rfl, .up (hhonest.concat hf hb hrows hfree) ?_ ?_⟩
    · rw [appendBlock, hrows', hrows, List.map_append, List.map_singleton, rowOf, hnum, hid]
    · refine ⟨hf.privateKey, fun t ht => absurd ht List.not_mem_nil, fun c hc => ?_, fun hnil => ?_⟩
      · rw [List.getLast?_concat, Option.some.injEq] at hc
        exact hc
      · simp at hnil

end Publish

/-! ## Restart -/

/-- The count of the rows finds the last one, so a restart caches the tip. -/
theorem HonestChain.getBlock_last (hP : P.BoostExact) (h : HonestChain P bs) {db : Table}
    (hrows : db.rows = bs.map (rowOf P)) {b : Block} (hb : bs.getLast? = some b)
    (fresh : ℕ → Fresh) :
    0 < getBlockCount db true ∧
      getBlock P db true fresh (getBlockCount db true - 1) = .ok (some b) := by
  have hlast := hb
  rw [List.getLast?_eq_getElem?] at hlast
  have hlt := lt_of_getElem? hlast
  have hlen := h.length_le
  have hcount : (getBlockCount db true).toNat = bs.length := by
    rw [getBlockCount, if_pos rfl, hrows, List.length_map]
    exact UInt64.toNat_ofNat_of_lt' (by rw [UInt64.size]; omega)
  have hone : 1 ≤ getBlockCount db true := by
    rw [UInt64.le_iff_toNat_le, hcount]
    exact Nat.one_le_of_lt hlt
  have hpred : (getBlockCount db true - 1).toNat = bs.length - 1 := by
    rw [UInt64.toNat_sub_of_le _ _ hone, hcount]
    rfl
  have hmem : rowOf P b ∈ db.rows := by
    rw [hrows]
    exact List.mem_map_of_mem (List.mem_of_getLast? hb)
  have hid : (rowOf P b).id = sqliteInteger (getBlockCount db true - 1) := by
    rw [sqliteInteger_eq (by omega), hpred, rowOf, h.blkNum_eq hlast]
  refine ⟨by rw [UInt64.lt_iff_toNat_lt, hcount]; exact Nat.zero_lt_of_lt hlt, ?_⟩
  rw [getBlock_of_mem P hmem hid]
  exact congrArg (Except.map some) (h.ofJson hP (List.mem_of_getLast? hb) _)

/-- What startup does on the table of a chain: it never looks for a missing row
and never throws, unless the hard-coded keys do not parse. -/
theorem HonestChain.pluginStartup (hP : P.BoostExact) (h : HonestChain P bs) {db : Table}
    (hrows : db.rows = bs.map (rowOf P)) {env : Env} (henv : env.Succeeds) :
    SimpleBlockchain.pluginStartup P env db =
      match Buffer.new P (env.fresh 0) with
      | .error e => .threw e
      | .ok buf => .started (match bs.getLast? with
        | none => buf
        | some b => buf.cacheLastBlk b) := by
  simp only [SimpleBlockchain.pluginStartup, henv 0, henv 1]
  cases Buffer.new P (env.fresh 0) with
  | error e => rfl
  | ok buf =>
      cases hb : bs.getLast? with
      | none =>
          have hcount : getBlockCount db true = 0 := by
            rw [getBlockCount, hrows, List.getLast?_eq_none_iff.1 hb]
            rfl
          simp [hcount]
      | some b =>
          obtain ⟨hpos, hget⟩ := h.getBlock_last hP hrows hb fun i => env.fresh (i + 1)
          simp [hpos, hget]

theorem Follows.startup (hP : P.BoostExact) (h : HonestChain P bs) {db : Table}
    (hrows : db.rows = bs.map (rowOf P)) {env : Env} (henv : env.Succeeds) {buf : Buffer}
    (hstart : pluginStartup P env db = .started buf) : Follows P bs buf := by
  obtain ⟨hpool, hkey, htip⟩ := pluginStartup_started hstart
  rw [henv 0, henv 1] at htip
  refine ⟨hkey, fun t ht => ?_, fun b hb => ?_, fun hnil => ?_⟩
  · rw [hpool] at ht
    exact absurd ht List.not_mem_nil
  · obtain ⟨hpos, hget⟩ := h.getBlock_last hP hrows hb fun i => env.fresh (i + 1)
    rcases htip with ⟨hzero, _⟩ | htip
    · rw [hzero] at hpos
      exact absurd hpos (by decide)
    · rw [hget, Except.ok.injEq, Option.some.injEq] at htip
      exact htip.symm
  · rcases htip with ⟨_, htip⟩ | htip
    · exact ⟨_, htip⟩
    · rw [getBlock_of_not_mem P (by rw [hrows, hnil]; exact List.not_mem_nil)] at htip
      cases htip

/-! ## Runs -/

theorem Represents.push {node : Node} (h : Represents P bs (.up node)) (next : NextFunction Variant)
    (p : PushTransactionParams) : Represents P bs (.up (pushTransaction P next node p).node) := by
  rcases pushTransaction_cases P next node p with ⟨hvalid, heq⟩ | ⟨_, e, heq⟩
  · rw [heq]
    cases h with
    | up hhonest hrows hf =>
        refine .up hhonest hrows ⟨hf.privateKey, fun t ht => ?_, hf.tip, hf.noTip⟩
        rcases List.mem_append.1 ht with ht | ht
        · exact hf.pool t ht
        · rwa [List.mem_singleton.1 ht]
  · rwa [heq]

theorem Represents.call {node : Node} (h : Represents P bs (.up node)) {env : Env} (c : Call)
    (hok : ∀ rc ∈ (node.call P env c).rcs, rc = true) :
    ∃ bs', bs <+: bs' ∧ Represents P bs' (.up (node.call P env c).node) := by
  cases c with
  | push p next => exact ⟨bs, List.prefix_rfl, h.push next p⟩
  | publish next =>
      rcases h.publish env next hok with heq | ⟨b, _, _, hb⟩
      · exact ⟨bs, List.prefix_rfl, by rw [Node.call, heq]; exact h⟩
      · exact ⟨bs ++ [b], List.prefix_append bs [b], hb⟩
  | getInfo => exact ⟨bs, List.prefix_rfl, h⟩
  | getBlock blkNum => exact ⟨bs, List.prefix_rfl, h⟩
  | getBlocks blkNums => exact ⟨bs, List.prefix_rfl, h⟩
  | checkChain => exact ⟨bs, List.prefix_rfl, h⟩

/-- Over any step of a lifetime the chain only grows. -/
theorem Represents.step (hP : P.BoostExact) {s s' : System} (h : Represents P bs s)
    (hstep : Step P s s') : ∃ bs', bs <+: bs' ∧ Represents P bs' s' := by
  cases hstep with
  | start henv hstart =>
      cases h with
      | down hhonest hrows =>
          exact ⟨bs, List.prefix_rfl, .up hhonest hrows (.startup hP hhonest hrows henv hstart)⟩
  | call c henv hok => exact h.call c hok
  | stop =>
      cases h with
      | up hhonest hrows hf => exact ⟨bs, List.prefix_rfl, .down hhonest hrows⟩

theorem Reachable.represents (hP : P.BoostExact) {s : System} (h : Reachable P s) :
    ∃ bs, Represents P bs s := by
  induction h with
  | refl => exact ⟨[], .down honestChain_nil rfl⟩
  | tail _ hstep ih =>
      obtain ⟨bs, hbs⟩ := ih
      obtain ⟨bs', _, hbs'⟩ := hbs.step hP hstep
      exact ⟨bs', hbs'⟩

end SimpleBlockchain
