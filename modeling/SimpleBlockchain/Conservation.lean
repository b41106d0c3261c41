import SimpleBlockchain.CheckChain

/-!
# Conservation of transactions

In one lifetime on an empty table, the stored transactions and then the pool are
the accepted ones, each once and in the order in which they were accepted.
-/

namespace SimpleBlockchain

/-- The transaction, once for each success that the caller was given. -/
def acknowledged (t : Transaction) (a : Answered Variant) : List Transaction :=
  a.replies.filterMap fun
    | .ok _ => some t
    | .error _ => none

def Call.accepted (c : Call) (o : Outcome) : List Transaction :=
  match c with
  | .push p _ => acknowledged p.trx o.answered
  | _ => []

/-- A node somewhere in its lifetime on an initially empty table, with the
transactions accepted so far. -/
inductive Lifetime (P : Platform) : Node → List Transaction → Prop
  | start {env buf} : env.Succeeds → pluginStartup P env .empty = .started buf →
      Lifetime P ⟨buf, .empty⟩ []
  | call {node accepted env} (c : Call) : Lifetime P node accepted → env.Succeeds →
      (∀ rc ∈ (node.call P env c).rcs, rc = true) →
      Lifetime P (node.call P env c).node (accepted ++ c.accepted (node.call P env c))

variable {P : Platform} {bs : List Block} {node : Node} {accepted : List Transaction}

theorem acknowledged_ok (t : Transaction) (next : NextFunction Variant) (v : Variant) :
    acknowledged t (catchAndCall next (.ok v)) = [t] := by
  rw [acknowledged, catchAndCall]
  cases next (.ok v) <;> rfl

theorem acknowledged_error (t : Transaction) (next : NextFunction Variant) (e : Exn) :
    acknowledged t (catchAndCall next (.error e)) = [] := rfl

theorem pushTransaction_conserves (next : NextFunction Variant) (p : PushTransactionParams) :
    (pushTransaction P next node p).node = { node with buf := { node.buf with
      trxPool := node.buf.trxPool ++
        acknowledged p.trx (pushTransaction P next node p).answered } } := by
  rcases pushTransaction_cases P next node p with ⟨_, heq⟩ | ⟨_, e, heq⟩
  · rw [heq, acknowledged_ok]
    rfl
  · rw [heq, acknowledged_error, List.append_nil]

/-- What a call adds to the stored blocks it takes from the pool, and what it adds
to both is what it accepts. -/
theorem Represents.conserves (h : Represents P bs (.up node)) {env : Env} (c : Call)
    (hok : ∀ rc ∈ (node.call P env c).rcs, rc = true) :
    ∃ bs', Represents P bs' (.up (node.call P env c).node) ∧
      bs'.flatMap Block.trxs ++ (node.call P env c).node.buf.trxPool =
        bs.flatMap Block.trxs ++ node.buf.trxPool ++ c.accepted (node.call P env c) := by
  have hread : bs.flatMap Block.trxs ++ node.buf.trxPool =
      bs.flatMap Block.trxs ++ node.buf.trxPool ++ [] := (List.append_nil _).symm
  cases c with
  | push p next =>
      refine ⟨bs, h.push next p, ?_⟩
      rw [Node.call, pushTransaction_conserves, Call.accepted, List.append_assoc]
  | publish next =>
      rcases h.publish env next hok with heq | ⟨b, htrxs, hpool, hb⟩
      · exact ⟨bs, by rw [Node.call, heq]; exact h, by rw [Node.call, heq]; exact hread⟩
      · have hnone : (Call.publish next).accepted (node.call P env (.publish next)) = [] := rfl
        refine ⟨bs ++ [b], hb, ?_⟩
        rw [hnone, Node.call, hpool, List.append_nil, List.append_nil, List.flatMap_append,
          List.flatMap_singleton, htrxs]
  | getInfo => exact ⟨bs, h, hread⟩
  | getBlock blkNum => exact ⟨bs, h, hread⟩
  | getBlocks blkNums => exact ⟨bs, h, hread⟩
  | checkChain => exact ⟨bs, h, hread⟩

theorem Lifetime.represents (hP : P.BoostExact) (h : Lifetime P node accepted) :
    ∃ bs, Represents P bs (.up node) ∧
      bs.flatMap Block.trxs ++ node.buf.trxPool = accepted := by
  induction h with
  | @start env buf henv hstart =>
      have hf : Follows P [] buf := .startup hP honestChain_nil rfl henv hstart
      exact ⟨[], .up honestChain_nil rfl hf, (pluginStartup_started hstart).1⟩
  | call c _ henv hok ih =>
      obtain ⟨bs, hbs, hacc⟩ := ih
      obtain ⟨bs', hbs', hacc'⟩ := hbs.conserves c hok
      exact ⟨bs', hbs', by rw [hacc', hacc]⟩

/-- At every point of a lifetime, the transactions of the stored blocks followed by
the pool are the accepted ones; and a push without a success changes nothing. -/
theorem lifetime_conserves_trxs (hP : P.BoostExact) (h : Lifetime P node accepted) :
    (∀ fresh, ∃ bs, getAllBlocks P node.db true fresh = .ok bs ∧
      bs.flatMap Block.trxs ++ node.buf.trxPool = accepted) ∧
    ∀ next p, (∀ v, .ok v ∉ (pushTransaction P next node p).answered.replies) →
      (pushTransaction P next node p).node = node := by
  obtain ⟨bs, hbs, hacc⟩ := h.represents hP
  refine ⟨fun fresh => ⟨bs, hbs.getAllBlocks hP fresh, hacc⟩, fun next p hrejected => ?_⟩
  rcases pushTransaction_cases P next node p with ⟨_, heq⟩ | ⟨_, e, heq⟩
  · rw [heq, catchAndCall] at hrejected
    refine absurd ?_ (hrejected (p.trx.toVariant P))
    cases next (.ok (p.trx.toVariant P)) <;> exact List.mem_cons_self
  · rw [heq]

namespace Sample

def published : Node := ⟨bufAfter, table⟩

theorem lifetime : Lifetime platform published [trx] := by
  have hstart : Lifetime platform ⟨buf, .empty⟩ [] := .start env_succeeds startup
  have hpush := Lifetime.call (.push params next) hstart env_succeeds
  simp only [Node.call, Call.accepted, push] at hpush
  have hpublish := Lifetime.call (.publish next) (hpush (by simp)) env_succeeds
  simp only [Node.call, Call.accepted, publish] at hpublish
  exact hpublish (by simp)

end Sample

theorem sample_conserves_trxs :
    (∀ fresh, ∃ bs, getAllBlocks Sample.platform Sample.published.db true fresh = .ok bs ∧
      bs.flatMap Block.trxs ++ Sample.published.buf.trxPool = [Sample.trx]) ∧
    ∀ next p, (∀ v, .ok v ∉
        (pushTransaction Sample.platform next Sample.published p).answered.replies) →
      (pushTransaction Sample.platform next Sample.published p).node = Sample.published :=
  lifetime_conserves_trxs Sample.boostExact Sample.lifetime

end SimpleBlockchain
