import SimpleBlockchain.CheckChain

/-!
# Only validated transactions are stored

A transaction is checked once, when it is pushed. What a query returns was since
then in the pool, in a block, and in a row of JSON text; the verdict survives all three.
-/

namespace SimpleBlockchain

/-- What `validate` stands for. -/
structure Admitted (P : Platform) (t : Transaction) : Prop where
  validate : t.validate P = .ok true
  data : t.data ≠ []
  signature : t.signature ≠ blankSignature
  recovered : ∃ d, t.digest P = .ok d ∧ PublicKey.recover P t.signature d = .ok t.pubKey

theorem Transaction.validate_eq_true {P : Platform} {t : Transaction} :
    t.validate P = .ok true ↔ t.data ≠ [] ∧ t.signature ≠ blankSignature ∧
      ∃ d, t.digest P = .ok d ∧ PublicKey.recover P t.signature d = .ok t.pubKey := by
  unfold validate
  by_cases hdata : t.data.length = 0
  · rw [if_pos hdata]
    simp [List.length_eq_zero_iff.1 hdata]
  have hne : t.data ≠ [] := fun h => hdata (by rw [h]; rfl)
  by_cases hblank : blankSignature = t.signature
  · simp [hblank]
  rw [if_neg hdata, if_neg hblank]
  constructor
  · intro h
    obtain ⟨d, hd, h⟩ := bind_eq_ok.1 h
    obtain ⟨recoverKey, hrec, h⟩ := bind_eq_ok.1 h
    rw [Except.ok.injEq, decide_eq_true_iff] at h
    exact ⟨hne, Ne.symm hblank, d, hd, by rw [hrec, h]⟩
  · rintro ⟨_, _, d, hd, hrec⟩
    rw [hd, ok_bind, hrec, ok_bind, decide_eq_true rfl]

theorem admitted_iff {P : Platform} {t : Transaction} :
    Admitted P t ↔ t.validate P = .ok true := by
  constructor
  · exact Admitted.validate
  · intro h
    obtain ⟨hdata, hsig, hrec⟩ := Transaction.validate_eq_true.1 h
    exact ⟨h, hdata, hsig, hrec⟩

def System.trxPool : System → List Transaction
  | .down _ => []
  | .up node => node.buf.trxPool

def AllAdmitted (P : Platform) (bs : List Block) : Prop := ∀ b ∈ bs, ∀ t ∈ b.trxs, Admitted P t

variable {P : Platform} {bs : List Block} {s : System}

theorem Represents.trxPool (h : Represents P bs s) : ∀ t ∈ s.trxPool, Admitted P t := by
  cases h with
  | down _ _ => exact fun t ht => absurd ht List.not_mem_nil
  | up _ _ hf => exact fun t ht => admitted_iff.2 (hf.pool t ht)

theorem Represents.call_allAdmitted {node : Node} (h : Represents P bs (.up node))
    (hbs : AllAdmitted P bs) {env : Env} (c : Call)
    (hok : ∀ rc ∈ (node.call P env c).rcs, rc = true) :
    ∃ bs', Represents P bs' (.up (node.call P env c).node) ∧ AllAdmitted P bs' := by
  cases c with
  | push p next => exact ⟨bs, h.push next p, hbs⟩
  | publish next =>
      rcases h.publish env next hok with heq | ⟨b, htrxs, _, hb⟩
      · exact ⟨bs, by rw [Node.call, heq]; exact h, hbs⟩
      · refine ⟨bs ++ [b], hb, fun c hc => ?_⟩
        rcases List.mem_append.1 hc with hc | hc
        · exact hbs c hc
        · rw [List.mem_singleton.1 hc, htrxs]
          exact h.trxPool
  | getInfo => exact ⟨bs, h, hbs⟩
  | getBlock blkNum => exact ⟨bs, h, hbs⟩
  | getBlocks blkNums => exact ⟨bs, h, hbs⟩
  | checkChain => exact ⟨bs, h, hbs⟩

theorem Reachable.allAdmitted (hP : P.BoostExact) (h : Reachable P s) :
    ∃ bs, Represents P bs s ∧ AllAdmitted P bs := by
  induction h with
  | refl => exact ⟨[], .down honestChain_nil rfl, fun b hb => absurd hb List.not_mem_nil⟩
  | tail _ hstep ih =>
      obtain ⟨bs, hbs, hadmitted⟩ := ih
      cases hstep with
      | start henv hstart =>
          cases hbs with
          | down hhonest hrows =>
              exact ⟨bs, .up hhonest hrows (.startup hP hhonest hrows henv hstart), hadmitted⟩
      | call c henv hok => exact hbs.call_allAdmitted hadmitted c hok
      | stop =>
          cases hbs with
          | up hhonest hrows hf => exact ⟨bs, .down hhonest hrows, hadmitted⟩

theorem HonestChain.getBlock_mem (hP : P.BoostExact) (h : HonestChain P bs) {db : Table}
    (hrows : db.rows = bs.map (rowOf P)) {ok : Bool} {fresh : ℕ → Fresh} {num : UInt64} {b : Block}
    (hget : getBlock P db ok fresh num = .ok (some b)) : b ∈ bs := by
  cases ok with
  | false => cases hget
  | true =>
      by_cases hid : sqliteInteger num ∈ db.rows.map Row.id
      · obtain ⟨row, hrow, hrowid⟩ := List.mem_map.1 hid
        rw [getBlock_of_mem P hrow hrowid] at hget
        rw [hrows] at hrow
        obtain ⟨c, hc, rfl⟩ := List.mem_map.1 hrow
        rw [rowOf, h.ofJson hP hc] at hget
        cases hget
        exact hc
      · rw [getBlock_of_not_mem P hid] at hget
        cases hget

/-- In a run in which every statement succeeds, the pool and the blocks that queries
return hold admitted transactions only. -/
theorem reachable_trxs_admitted (hP : P.BoostExact) (h : Reachable P s) :
    (∀ t ∈ s.trxPool, Admitted P t) ∧
    (∀ ok fresh num b, getBlock P s.db ok fresh num = .ok (some b) →
      ∀ t ∈ b.trxs, Admitted P t) ∧
    ∀ ok fresh blocks, getAllBlocks P s.db ok fresh = .ok blocks →
      ∀ b ∈ blocks, ∀ t ∈ b.trxs, Admitted P t := by
  obtain ⟨bs, hbs, hadmitted⟩ := h.allAdmitted hP
  refine ⟨hbs.trxPool, fun ok fresh num b hget => ?_, fun ok fresh blocks hall => ?_⟩
  · exact hadmitted b (hbs.honest.getBlock_mem hP hbs.rows hget)
  · cases ok with
    | false =>
        cases hall
        exact fun b hb => absurd hb List.not_mem_nil
    | true =>
        rw [hbs.getAllBlocks hP, Except.ok.injEq] at hall
        exact hall ▸ hadmitted

theorem sample_trxs_admitted :
    getAllBlocks Sample.platform Sample.chainTable true Sample.env.fresh =
        .ok [Sample.block, Sample.nextBlock] ∧
      Admitted Sample.platform Sample.trx :=
  ⟨Sample.getAllBlocks _, (reachable_trxs_admitted Sample.boostExact Sample.reachable_next).2.2
    true Sample.env.fresh _ (Sample.getAllBlocks _) Sample.block List.mem_cons_self Sample.trx
    (List.mem_singleton_self _)⟩

end SimpleBlockchain
