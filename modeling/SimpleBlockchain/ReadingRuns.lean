import SimpleBlockchain.SensorScript

/-!
# Readings among other clients

While the job records a reading, other clients push and publish. The reading is recorded all
the same, in whichever block, as long as the node is not stopped in between. When it is, the
script may report success although the reading is lost.
-/

namespace SimpleBlockchain

open Transition
open Ledger (Event)

variable {H : HttpPlugin} {P : Platform} {D : KeyDerivation} {C : Scripts} {env : ApiEnv}
  {node : Node} {bs : List Block} {m m' : Machine} {l : Label} {ls : List Label}

/-- How far the recording of a reading, which is to become the transaction, has come. -/
inductive Underway (P : Platform) (C : Scripts) (now : UInt32) (line : Str) (t : Transaction) :
    Job → Ledger.State Transaction Block → Prop
  | converting {a} : Underway P C now line t
      (.converting (P.toIsoExtendedString now) (sedQuotes line)) a
  | signing {a} : Underway P C now line t (.signing (P.toIsoExtendedString now)
      ('"' :: hexText (recordedBytes line) ++ ['"'])) a
  | pushing {a} : ¬ C.GivesUp (toStream P (t.toVariant P)) →
      Underway P C now line t (.pushing (toStream P (t.toVariant P))) a
  | publishing {a} : a.Holds (ledgerRules P) t → Underway P C now line t .publishing a
  | recorded {a} : a.Records (ledgerRules P) t → Underway P C now line t (.idle []) a
  /-- No block could be built, which a shell that does not know `[[` does not notice. -/
  | unnoticed {a} : C.doubleBrackets = false → a.Holds (ledgerRules P) t →
      Underway P C now line t (.idle []) a
  | failed {a} : Underway P C now line t (.idle [iotError]) a

variable {now : UInt32} {iofjson line : Str} {t : Transaction} {pub : PublicKey} {sig : Signature}
  {a a' : Ledger.State Transaction Block}

theorem Underway.step {job : Job} (h : Underway P C now line t job a) {e : Event Transaction Block}
    (hstep : Ledger.Step (ledgerRules P) a e a') (he : e ≠ .stop) :
    Underway P C now line t job a' := by
  cases h with
  | converting => exact .converting
  | signing => exact .signing
  | pushing hfine => exact .pushing hfine
  | publishing ht => exact .publishing (hstep.holds he ht)
  | recorded ht => exact .recorded (hstep.records ht)
  | unnoticed hsh ht => exact .unnoticed hsh (hstep.holds he ht)
  | failed => exact .failed

/-- What is fixed while a reading is recorded. -/
structure Recording (H : HttpPlugin) (P : Platform) (D : KeyDerivation) (C : Scripts)
    (now : UInt32) (iofjson line : Str) (pub : PublicKey) (sig : Signature) : Prop where
  exact : P.BoostExact
  signs : P.ProducerSigns
  post : Served H C.post
  get : Served H C.get
  reading : HasReading P H C now iofjson line
  admitted : Admitted P ((readingTrx now line).sealed pub sig)
  signed : ∀ trx, Transaction.fromVariant P trx = .ok (readingTrx now line) →
    signTrx P D trx iotKeyStr = ((readingTrx now line).sealed pub sig).toVariant P

theorem Underway.short (h : Recording H P D C now iofjson line pub sig) {job : Job} {req : Request}
    (hreq : job.request C = some req)
    (hjob : Underway P C now line ((readingTrx now line).sealed pub sig) job a) :
    ¬ C.TooLong req := by
  have hread := h.reading
  have hsize := hread.sendable
  cases hjob with
  | converting =>
      cases hreq
      refine hsize.short ?_ _ _
      have hle := length_sedQuotes_le line
      rw [length_char2hexData (unspaced_sedQuotes hread.plain)]
      omega
  | signing =>
      cases hreq
      refine hsize.short ?_ _ _
      have hword : Unspaced (hexText (recordedBytes line)) :=
        Unspaced.of_isAlphanum fun c hc => Or.inl (isAlphanum_hexText hread.size_lt c hc)
      rw [length_signData (unspaced_quoted hword), List.length_append, List.length_cons,
        length_hexText, List.length_singleton]
      omega
  | pushing =>
      cases hreq
      exact hsize.short (length_sealed_le h.exact hread.ne_nil hread.size_lt) _ _
  | publishing =>
      cases hreq
      exact fun hlong => hlong.1 rfl
  | recorded => cases hreq
  | unnoticed => cases hreq
  | failed => cases hreq

theorem Underway.advance (h : Recording H P D C now iofjson line pub sig)
    (hhonest : HonestChain P bs) (hrows : node.db.rows = bs.map (rowOf P))
    (hf : Follows P bs node.buf) (hlen : bs.length < 2 ^ 63) (henv : env.Succeeds) {job : Job}
    {req : Request} (hreq : job.request C = some req)
    (hjob : Underway P C now line ((readingTrx now line).sealed pub sig) job
      (.up bs node.buf.trxPool)) :
    ∃ a', Shows P (.up (Job.advance H P D C env node job).1) a' ∧
      Underway P C now line ((readingTrx now line).sealed pub sig)
        (Job.advance H P D C env node job).2 a' := by
  have hread := h.reading
  cases hjob with
  | converting =>
      rw [hread.advance_converting h.post]
      exact ⟨_, .up hhonest hrows hf, .signing⟩
  | signing =>
      rw [advance_signing h.exact h.post now hread.ne_nil hread.size_lt hread.sendable h.signed,
        Job.unlessError]
      split
      · exact ⟨_, .up hhonest hrows hf, .failed⟩
      next hfine => exact ⟨_, .up hhonest hrows hf, .pushing hfine⟩
  | pushing hfine =>
      rw [advance_pushing h.exact h.post h.admitted hread.sendable
        (length_sealed_le h.exact hread.ne_nil hread.size_lt) hfine]
      refine ⟨_, @Shows.up P ⟨node.buf.cacheTrx _, node.db⟩ bs hhonest hrows
        (hf.cacheTrx h.admitted), .publishing (Or.inl ?_)⟩
      exact List.mem_append_right _ List.mem_cons_self
  | publishing ht =>
      rcases @advance_publishing H P D C env node h.exact h.get with
        ⟨buf, b, hbuild, hadvance⟩ | ⟨_, _, hadvance⟩
      · obtain ⟨hstep, hshows⟩ := publish_step h.signs hhonest hrows hf hlen henv hbuild
        rw [hadvance]
        refine ⟨_, hshows, .recorded ?_⟩
        rcases hstep.holds (by simp) ht with hpending | hrecords
        · exact absurd hpending List.not_mem_nil
        · exact hrecords
      · rw [hadvance]
        refine ⟨_, .up hhonest hrows hf, ?_⟩
        cases hsh : C.doubleBrackets with
        | true => exact .failed
        | false => exact .unnoticed hsh ht
  | recorded => cases hreq
  | unnoticed => cases hreq
  | failed => cases hreq

theorem MachineStep.underway (h : Recording H P D C now iofjson line pub sig)
    (hstep : MachineStep H P D C m l m') (hbegan : l ≠ .began)
    (hstopped : l ≠ .exchange .stopped) (hnode : m.system = .up node)
    (hsize : m.system.size < 2 ^ 63) (hshows : Shows P m.system a)
    (hjob : Underway P C now line ((readingTrx now line).sealed pub sig) m.job a) :
    ∃ node' a', m'.system = .up node' ∧ Shows P m'.system a' ∧
      Underway P C now line ((readingTrx now line).sealed pub sig) m'.job a' := by
  obtain ⟨s, backup, job⟩ := m
  simp only at hnode hsize hshows hjob
  subst hnode
  cases hshows with
  | @up _ bs hhonest hrows hf =>
      rw [System.size, hrows, List.length_map] at hsize
      cases hstep with
      | client hnode =>
          cases hnode with
          | @request _ env req henv =>
              rcases request_step h.exact h.signs hhonest hrows hf (by omega) (by omega) henv ⟨0, 0⟩
                H D req with ⟨_, hsame⟩ | ⟨e, a', _, hseen, hshows'⟩
              · rw [hsame]
                exact ⟨node, _, rfl, .up hhonest hrows hf, hjob⟩
              · refine ⟨_, a', rfl, hshows', hjob.step hseen ?_⟩
                rintro rfl
                cases hseen
                cases hshows'
          | stop => exact absurd rfl hstopped
      | begins => exact absurd rfl hbegan
      | @ask _ _ _ _ _ _ req hreq hcurl =>
          cases hcurl with
          | @up _ env henv hshort =>
              have hadvance := hjob.advance h hhonest hrows hf (by omega) henv hreq
              rw [advance_eq hreq hshort] at hadvance
              obtain ⟨a', hshows', hjob'⟩ := hadvance
              exact ⟨_, a', rfl, hshows', hjob'⟩
          | tooLong hlong => exact absurd hlong (hjob.short h hreq)
      | firstCopy => cases hjob
      | copy => cases hjob
      | differ => cases hjob
      | overwrite => cases hjob
      | read => cases hjob

theorem underway_of_path (h : Recording H P D C now iofjson line pub sig)
    (hrun : (machineLts H P D C).Run ls m) (hnode : m.system = .up node)
    (hshows : Shows P m.system a)
    (hjob : Underway P C now line ((readingTrx now line).sealed pub sig) m.job a) {ks : List Label}
    (hpath : (machineLts H P D C).Path m ks m')
    (hks : ∀ k ∈ ks, k ≠ .began ∧ k ≠ .exchange .stopped)
    (hlen : ls.length + ks.length ≤ 2 ^ 63) :
    ∃ node' a', m'.system = .up node' ∧ Shows P m'.system a' ∧
      Underway P C now line ((readingTrx now line).sealed pub sig) m'.job a' := by
  induction hpath with
  | refl => exact ⟨node, a, hnode, hshows, hjob⟩
  | @tail ks m₁ k m₂ hpath hstep ih =>
      rw [List.length_append, List.length_singleton] at hlen
      obtain ⟨node₁, a₁, hnode₁, hshows₁, hjob₁⟩ :=
        ih (fun k hk => hks k (List.mem_append_left _ hk)) (by omega)
      have hsize := size_le_of_run (hrun.append hpath)
      rw [List.length_append] at hsize
      obtain ⟨hbegan, hstopped⟩ := hks k (List.mem_append_right _ (List.mem_singleton_self k))
      exact MachineStep.underway h hstep hbegan hstopped hnode₁ (by omega) hshows₁ hjob₁

/-- Whatever other clients do while the job records a reading: as soon as it is to be published,
the valid transaction is in the pool or has been published by someone else, and when a shell
that knows `[[` reports success, it is in a block. -/
theorem reading_survives (hP : P.BoostExact) (hsign : P.ProducerSigns)
    (hrec : RecoversSigner P D) (hpost : Served H C.post) (hget : Served H C.get)
    (hkey : IotKeySigns P D pub) (h : HasReading P H C now iofjson line) {backup : Option Table}
    (hrun : (machineLts H P D C).Run ls ⟨.up node, backup, .backedUp⟩) (fresh : ℕ → Fresh) :
    ∃ t : Transaction, t.timePoint = now ∧ t.data = recordedBytes line ∧
      t.attach = [0x61, 0x64, 0x64] ∧ t.pubKey = pub ∧ t.validate P = .ok true ∧
      ∀ ks m', (machineLts H P D C).Path
          ⟨.up node, backup, .recording C (P.toIsoExtendedString now) iofjson⟩ ks m' →
        (∀ k ∈ ks, k ≠ .began ∧ k ≠ .exchange .stopped) → ls.length + ks.length < 2 ^ 63 →
        ∃ node' bs, m'.system = .up node' ∧ getAllBlocks P node'.db true fresh = .ok bs ∧
          (m'.job = .publishing ∨ m'.job = .idle [] →
            t ∈ node'.buf.trxPool ∨ ∃ b ∈ bs, t ∈ b.trxs) ∧
          (C.doubleBrackets = true → m'.job = .idle [] → ∃ b ∈ bs, t ∈ b.trxs) := by
  obtain ⟨sig, hadmitted, hsigned⟩ := exists_signed hrec hkey now h.ne_nil h.size_le
  refine ⟨(readingTrx now line).sealed pub sig, rfl, rfl, rfl, rfl, hadmitted.validate,
    fun ks m' hpath hks hlen => ?_⟩
  have hrecording : Recording H P D C now iofjson line pub sig :=
    ⟨hP, hsign, hpost, hget, h, hadmitted, hsigned⟩
  have hread := hrun.tail (.read (P.toIsoExtendedString now) iofjson)
  obtain ⟨a, _, hshows⟩ := MachineRun.shows hP hsign ⟨0, 0⟩ hrun (by omega)
  rw [h.recording] at hread hpath
  obtain ⟨node', a', hnode', hshows', hjob'⟩ := underway_of_path hrecording hread rfl hshows
    .converting hpath hks (by
      rw [List.length_append, List.length_singleton]
      omega)
  rw [hnode'] at hshows'
  cases hshows' with
  | @up _ bs hhonest hrows hf =>
      refine ⟨node', bs, hnode', (Represents.up hhonest hrows hf).getAllBlocks hP fresh,
        fun hjob => ?_, fun hsh hidle => ?_⟩
      · rcases hjob with hpublishing | hidle
        · rw [hpublishing] at hjob'
          cases hjob' with
          | publishing ht => exact ht
        · rw [hidle] at hjob'
          cases hjob' with
          | recorded ht => exact Or.inr ht
          | unnoticed _ ht => exact ht
      · rw [hidle] at hjob'
        cases hjob' with
        | recorded ht => exact ht
        | unnoticed hno _ =>
            rw [hsh] at hno
            cases hno

namespace Sample

theorem machineRun_firstNode : (machineLts http scriptPlatform scriptDerivation sensorScripts).Run
    [.exchange .started] ⟨.up firstNode, none, .idle []⟩ :=
  ⟨_, rfl, Lts.Path.single_iff.2 (.client (.start env_succeeds scriptStartup))⟩

theorem machineRun_backedUp : ∃ ls, ls.length ≤ 9 ∧
    (machineLts http scriptPlatform scriptDerivation sensorScripts).Run ls
      ⟨.up firstNode, some .empty, .backedUp⟩ := by
  have henv : apiEnv.Succeeds := env_succeeds
  have hbegins := jobBegins_of_run scriptBoostExact scriptProducerSigns faithful served
    machineRun_firstNode (by decide)
  obtain ⟨ks, hks, _, hpath⟩ := hbegins.copies henv [] scriptDerivation
  have hrun := machineRun_firstNode.append hpath
  have hlen : ([Label.exchange .started] ++ .began :: ks).length ≤ 5 := by
    rw [List.length_append, List.length_singleton, List.length_cons]
    omega
  have hbegins' := jobBegins_of_run scriptBoostExact scriptProducerSigns faithful served hrun
    (Nat.lt_of_le_of_lt hlen (by decide))
  obtain ⟨ks', hks', _, hpath'⟩ := hbegins'.copies henv [backupFault] scriptDerivation
  refine ⟨_, ?_, hrun.append hpath'⟩
  rw [List.length_append, List.length_cons]
  omega

end Sample

theorem sample_reading_survives : ∃ t : Transaction, t.timePoint = Sample.now ∧
    t.data = recordedBytes Sample.reading ∧ t.attach = [0x61, 0x64, 0x64] ∧
    t.pubKey = ⟨.k1, Sample.scriptKeyData⟩ ∧ t.validate Sample.scriptPlatform = .ok true ∧
    ∃ ls : List Label, ∀ ks m', (machineLts Sample.http Sample.scriptPlatform
          Sample.scriptDerivation Sample.sensorScripts).Path
        ⟨.up Sample.firstNode, some .empty, .recording Sample.sensorScripts
          (Sample.scriptPlatform.toIsoExtendedString Sample.now) []⟩ ks m' →
      (∀ k ∈ ks, k ≠ .began ∧ k ≠ .exchange .stopped) → ls.length + ks.length < 2 ^ 63 →
      ∃ node' bs, m'.system = .up node' ∧
        getAllBlocks Sample.scriptPlatform node'.db true Sample.env.fresh = .ok bs ∧
        (m'.job = .publishing ∨ m'.job = .idle [] →
          t ∈ node'.buf.trxPool ∨ ∃ b ∈ bs, t ∈ b.trxs) ∧
        (Sample.sensorScripts.doubleBrackets = true → m'.job = .idle [] →
          ∃ b ∈ bs, t ∈ b.trxs) := by
  obtain ⟨ls, _, hrun⟩ := Sample.machineRun_backedUp
  obtain ⟨t, htime, hdata, hattach, hkey, hvalid, hpaths⟩ := reading_survives
    Sample.scriptBoostExact Sample.scriptProducerSigns Sample.scriptRecoversSigner Sample.served
    Sample.served Sample.iotKeySigns Sample.hasReading hrun Sample.env.fresh
  exact ⟨t, htime, hdata, hattach, hkey, hvalid, ls, hpaths⟩

/-! ## A restart -/

variable (env) in
/-- From every state in which the job is about to publish, the node may be restarted first.
Then the job reports success, and all that waited is lost, unless someone else had it
published before. -/
theorem reading_lost (hP : P.BoostExact) (hsign : P.ProducerSigns) (hkeys : P.KeysParse)
    (hget : Served H C.get) (henv : env.Succeeds) {backup : Option Table}
    (hrun : (machineLts H P D C).Run ls ⟨.up node, backup, .publishing⟩)
    (hlen : ls.length < 2 ^ 63) (fresh : ℕ → Fresh) :
    ∃ ks node' bs b, (machineLts H P D C).Path ⟨.up node, backup, .publishing⟩ ks
        ⟨.up node', backup, .idle []⟩ ∧
      getAllBlocks P node.db true fresh = .ok bs ∧
      getAllBlocks P node'.db true fresh = .ok (bs ++ [b]) ∧ b.trxs = [] ∧
      node'.buf.trxPool = [] ∧
      ∀ t ∈ node.buf.trxPool, (∀ c ∈ bs, t ∉ c.trxs) →
        t ∉ node'.buf.trxPool ∧ ∀ c ∈ bs ++ [b], t ∉ c.trxs := by
  obtain ⟨a, _, hshows⟩ := MachineRun.shows hP hsign ⟨0, 0⟩ hrun hlen.le
  have hsize := size_le_of_run hrun
  cases hshows with
  | @up _ bs hhonest hrows hf =>
      rw [System.size, hrows, List.length_map] at hsize
      obtain ⟨buf, hstart⟩ := hhonest.starts hP hkeys hrows henv
      have hf' : Follows P bs buf := .startup hP hhonest hrows henv hstart
      have hpool : buf.trxPool = [] := (pluginStartup_started hstart).1
      have hstop : MachineStep H P D C ⟨.up node, backup, .publishing⟩ (.exchange .stopped)
          ⟨.down node.db, backup, .publishing⟩ := .client .stop
      have hrestart : MachineStep H P D C ⟨.down node.db, backup, .publishing⟩ (.exchange .started)
          ⟨.up ⟨buf, node.db⟩, backup, .publishing⟩ := .client (.start henv hstart)
      have hshort : ¬ C.TooLong (C.get.ask "publish_blk" []) := fun hlong => hlong.1 rfl
      have hask := @MachineStep.ask H P D C _ _ _ _ backup .publishing _ rfl
        (@Curl.up H P D C (C.get.ask "publish_blk" []) ⟨buf, node.db⟩ env henv hshort)
      obtain ⟨node', b, hpublish, hshows', htrxs, hempty⟩ :=
        @advance_published H P D C env ⟨buf, node.db⟩ bs hP hsign hget hhonest hrows hf' (by omega)
          (by rw [hpool]; exact Nat.zero_le _) henv
      rw [advance_eq rfl hshort, Prod.mk.injEq] at hpublish
      rw [hpublish.1, hpublish.2] at hask
      have hb : b.trxs = [] := htrxs.trans hpool
      refine ⟨_, node', bs, b, ((Lts.Path.refl.tail hstop).tail hrestart).tail hask,
        (Represents.up hhonest hrows hf).getAllBlocks hP fresh,
        hshows'.represents.getAllBlocks hP fresh, hb, hempty, fun t _ hbs => ⟨?_, ?_⟩⟩
      · rw [hempty]
        exact List.not_mem_nil
      · intro c hc
        rcases List.mem_append.1 hc with hc | hc
        · exact hbs c hc
        · rw [List.mem_singleton.1 hc, hb]
          exact List.not_mem_nil

theorem MachineStep.of_advance {job : Job} {req : Request} (hreq : job.request C = some req)
    (hshort : ¬ C.TooLong req) (henv : env.Succeeds) (backup : Option Table) {node' : Node}
    {job' : Job} (h : Job.advance H P D C env node job = (node', job')) :
    ∃ l, MachineStep H P D C ⟨.up node, backup, job⟩ l ⟨.up node', backup, job'⟩ := by
  rw [advance_eq hreq hshort, Prod.mk.injEq] at h
  rw [← h.1, ← h.2]
  exact ⟨_, .ask hreq (.up henv hshort)⟩

namespace Sample

def recordedTrx : Transaction :=
  (readingTrx Sample.now reading).sealed ⟨.k1, scriptKeyData⟩ ⟨.k1, readingSig⟩

theorem digest_reading :
    { readingTrx Sample.now reading with pubKey := ⟨.k1, scriptKeyData⟩ }.digest scriptPlatform =
      .ok readingDigest := rfl

theorem sign_readingDigest :
    PrivateKey.sign scriptPlatform ⟨.k1, scriptSecret⟩ readingDigest =
      .ok ⟨.k1, readingSig⟩ := by
  have hsig : scriptSign readingDigest = readingSig := rfl
  rw [sign_scriptSecret, hsig]

theorem recording : Recording http scriptPlatform scriptDerivation sensorScripts Sample.now []
    reading ⟨.k1, scriptKeyData⟩ ⟨.k1, readingSig⟩ where
  exact := scriptBoostExact
  signs := scriptProducerSigns
  post := served
  get := served
  reading := hasReading
  admitted := admitted_iff.2 (validate_sealed scriptRecoversSigner hasReading.ne_nil
    getPublicKey_scriptSecret sign_readingDigest digest_reading)
  signed trx htrx := by
    rw [signTrx, signedTrx_of_steps htrx iotKey getPublicKey_scriptSecret digest_reading
      sign_readingDigest]

theorem not_givesUp_recordedTrx :
    ¬ sensorScripts.GivesUp (toStream scriptPlatform (recordedTrx.toVariant scriptPlatform)) := by
  rw [recordedTrx, toStream_sealed scriptBoostExact hasReading.ne_nil hasReading.size_lt]
  decide +kernel

def waitingNode : Node := { firstNode with buf := firstNode.buf.cacheTrx recordedTrx }

theorem machineRun_publishing : ∃ ls, ls.length ≤ 13 ∧
    (machineLts http scriptPlatform scriptDerivation sensorScripts).Run ls
      ⟨.up waitingNode, some .empty, .publishing⟩ := by
  obtain ⟨ls, hlen, hrun⟩ := machineRun_backedUp
  have henv : apiEnv.Succeeds := env_succeeds
  have hread := hrun.tail (.read (scriptPlatform.toIsoExtendedString Sample.now) [])
  rw [hasReading.recording] at hread
  have hsigning := @advance_signing http scriptPlatform scriptDerivation sensorScripts apiEnv
    firstNode scriptBoostExact served Sample.now reading hasReading.ne_nil hasReading.size_lt
    hasReading.sendable _ _ recording.signed
  have hpushing := @advance_pushing http scriptPlatform scriptDerivation sensorScripts apiEnv
    firstNode scriptBoostExact served recordedTrx recording.admitted _ hasReading.sendable
    (length_sealed_le scriptBoostExact hasReading.ne_nil hasReading.size_lt)
    not_givesUp_recordedTrx
  rw [← recordedTrx, Job.unlessError_of_not not_givesUp_recordedTrx] at hsigning
  have hconverting := @HasReading.advance_converting http scriptPlatform scriptDerivation
    sensorScripts apiEnv firstNode Sample.now [] reading hasReading served
    (scriptPlatform.toIsoExtendedString Sample.now)
  obtain ⟨_, hstep⟩ := MachineStep.of_advance rfl
    (Underway.short (a := .down []) recording rfl .converting) henv (some .empty) hconverting
  obtain ⟨_, hstep'⟩ := MachineStep.of_advance rfl
    (Underway.short (a := .down []) recording rfl .signing) henv (some .empty) hsigning
  obtain ⟨_, hstep''⟩ := MachineStep.of_advance rfl
    (Underway.short (a := .down []) recording rfl (.pushing not_givesUp_recordedTrx)) henv
    (some .empty) hpushing
  refine ⟨_, ?_, ((hread.tail hstep).tail hstep').tail hstep''⟩
  simp only [List.length_append, List.length_singleton]
  omega

end Sample

theorem sample_reading_lost : ∃ ks node' bs b,
    (machineLts Sample.http Sample.scriptPlatform Sample.scriptDerivation
        Sample.sensorScripts).Path ⟨.up Sample.waitingNode, some .empty, .publishing⟩ ks
      ⟨.up node', some .empty, .idle []⟩ ∧
    getAllBlocks Sample.scriptPlatform .empty true Sample.env.fresh = .ok bs ∧
    getAllBlocks Sample.scriptPlatform node'.db true Sample.env.fresh = .ok (bs ++ [b]) ∧
    b.trxs = [] ∧ node'.buf.trxPool = [] ∧
    ∀ t ∈ Sample.waitingNode.buf.trxPool, (∀ c ∈ bs, t ∉ c.trxs) →
      t ∉ node'.buf.trxPool ∧ ∀ c ∈ bs ++ [b], t ∉ c.trxs := by
  obtain ⟨ls, hlen, hrun⟩ := Sample.machineRun_publishing
  exact reading_lost Sample.apiEnv Sample.scriptBoostExact Sample.scriptProducerSigns
    ⟨⟨_, Sample.scriptProducerKey⟩, _, Sample.scriptPrivateKey⟩ Sample.served
    Sample.env_succeeds hrun (Nat.lt_of_le_of_lt hlen (by decide)) Sample.env.fresh

end SimpleBlockchain
