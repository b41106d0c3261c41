import SimpleBlockchain.Backup
import SimpleBlockchain.FaultyRuns
import SimpleBlockchain.LedgerRuns
import SimpleBlockchain.StringEscapes

/-!
# The scheduled job

Cron runs `batch.sh` beside the node. Between any two commands of the job the node may serve
other clients, stop and start. The job has the node check its chain, brings the backup up to
date and then records a reading of a sensor.
-/

namespace SimpleBlockchain

open Transition
open Ledger (Event)

/-! ## The texts of the scripts -/

def blockHasChanged : Str := "block has changed!".toList

def backupFault : Str := "backup fault!".toList

/-- What `database_backup.sh` prints, with the date. -/
def hostMaybeChanged (date : Str) : Str := date ++ " hostDB maybe has been changed!".toList

def iotError : Str := "Get data of IoT error!".toList

def MentionsError (reply : Str) : Prop := "error".toList <:+: reply

instance : DecidablePred MentionsError := fun _ => inferInstanceAs (Decidable (_ <:+: _))

/-- `sed -e 's/ //g' -e 's/\"/\\\"/g'`. -/
def sedQuotes (text : Str) : Str :=
  (text.filter (· ≠ ' ')).flatMap fun c => if c = '"' then ['\\', '"'] else [c]

def isIfs (c : Char) : Bool := c = ' ' || c = '\t' || c = '\n'

/-- The first word of `'before'$value'after'`, which is left as it is where no file has a name
that matches it. -/
def dataWord (before value after : Str) : Str :=
  if value.any isIfs then before ++ value.takeWhile (!isIfs ·) else before ++ (value ++ after)

def firstWord (value : Str) : Str := (value.dropWhile isIfs).takeWhile (!isIfs ·)

@[irreducible] def iotKeyStr : Str :=
  "5JYouEPmPwaFi6LoN3TS3S2ud8sL9UggJbEbAeP3cfxHd1u4mh1".toList

def char2hexData (jsondata : Str) : Str :=
  dataWord "\x7b\"str\":\"".toList jsondata "\"\x7d".toList

/-- The argument of `--data` for `sign_trx`, from the date and the answer of `char2hex`. -/
def signData (date hex : Str) : Str :=
  dataWord ('{' :: "\"trx\":\x7b".toList ++ "\"time_point\":\"".toList ++ date ++
    "\",\"data\":".toList) hex (",\"attach\":\"616464\"\x7d".toList ++ ", \"key\":\"".toList ++
    iotKeyStr ++ "\"\x7d".toList)

/-! ## The job -/

/-- What the scripts find on their machine: the shell of sqlite, the requests of `curl` up to
resource and body, what Python prints of the file with the readings, whether `sh` knows `[[`,
and from which length on an argument is too long for a command. -/
structure Scripts where
  shell : SqliteShell
  get : Request
  post : Request
  firstReading : Str → Str
  doubleBrackets : Bool
  maxArgStrlen : ℕ

/-- `[[ $reply =~ $ERROR ]]`. A shell that does not know `[[` takes it for a command that it
does not find. -/
def Scripts.GivesUp (C : Scripts) (reply : Str) : Prop :=
  C.doubleBrackets = true ∧ MentionsError reply

instance (C : Scripts) : DecidablePred C.GivesUp := fun _ => inferInstanceAs (Decidable (_ ∧ _))

def Scripts.TooLong (C : Scripts) (req : Request) : Prop :=
  req.body ≠ [] ∧ C.maxArgStrlen ≤ req.body.length

instance (C : Scripts) : DecidablePred C.TooLong := fun _ => inferInstanceAs (Decidable (_ ∧ _))

/-- Where the job stands between two commands, with what it still reads. -/
inductive Job
  /-- No job runs. The last one has printed these lines. -/
  | idle (echoed : List Str)
  | checking
  | copying
  | comparing (date : Str) (tmp : Table)
  | backedUp
  | converting (date jsondata : Str)
  | signing (date hex : Str)
  | pushing (transaction : Str)
  | publishing

/-- `pushblock_fromIoT.sh` up to its first request. -/
def Job.recording (C : Scripts) (date iofjson : Str) : Job :=
  if C.GivesUp iofjson then .idle [iotError]
  else .converting date (substituted (sedQuotes (C.firstReading iofjson)))

def Job.request (C : Scripts) : Job → Option Request
  | .checking => some (C.get.ask "check_chain" [])
  | .converting _ jsondata => some (C.post.ask "char2hex" (char2hexData jsondata))
  | .signing date hex => some (C.post.ask "sign_trx" (signData date hex))
  | .pushing transaction => some (C.post.ask "push_transaction" transaction)
  | .publishing => some (C.get.ask "publish_blk" [])
  | _ => none

/-- The scripts go on as long as no answer mentions an error. -/
def Job.unlessError (C : Scripts) (reply : Str) (job : Job) : Job :=
  if C.GivesUp reply then .idle [iotError] else job

/-- What the job does with the output of `curl`. Without a word behind `--data` the next
`curl` sends nothing, which is no error. -/
def Job.next (C : Scripts) (out : Str) : Job → Job
  | .checking => if reportsResultZero out then .copying else .idle [blockHasChanged]
  | .converting date _ => .unlessError C (substituted out) (.signing date (substituted out))
  | .signing _ _ => .unlessError C (substituted out)
      (if firstWord (substituted out) = [] then .publishing
        else .pushing (firstWord (substituted out)))
  | .pushing _ => .unlessError C (substituted out) .publishing
  | .publishing => .unlessError C (substituted out) (.idle [])
  | job => job

/-! ## The machine -/

structure Machine where
  system : System
  backup : Option Table
  job : Job

inductive Label
  /-- A client other than the job has asked the node something, or it was started or stopped. -/
  | exchange (d : Exchange)
  /-- The job has asked the node something. -/
  | asked (d : Exchange)
  | began
  | command

def Label.exchange? : Label → Option Exchange
  | .exchange d => some d
  | .asked d => some d
  | _ => none

/-- `curl -s`, with what it prints. It prints nothing when the node is down or when it is not
executed. -/
inductive Curl (H : HttpPlugin) (P : Platform) (D : KeyDerivation) (C : Scripts) (req : Request) :
    System → Label → Str → System → Prop
  | up {node} {env : ApiEnv} : env.Succeeds → ¬ C.TooLong req → Curl H P D C req (.up node)
      (.asked (.request req (processRequest H P D env node req).2.written))
      ((processRequest H P D env node req).2.written.flatMap Response.body)
      (.up (processRequest H P D env node req).1)
  | down {db} : Curl H P D C req (.down db) .command [] (.down db)
  | tooLong {s} : C.TooLong req → Curl H P D C req s .command [] s

/-- One step of the machine: of the node with any client, or of the job. -/
inductive MachineStep (H : HttpPlugin) (P : Platform) (D : KeyDerivation) (C : Scripts) :
    Machine → Label → Machine → Prop
  | client {s d s' backup job} : NodeStep H P D s d s' →
      MachineStep H P D C ⟨s, backup, job⟩ (.exchange d) ⟨s', backup, job⟩
  | begins {s backup echoed} :
      MachineStep H P D C ⟨s, backup, .idle echoed⟩ .began ⟨s, backup, .checking⟩
  | ask {s l out s' backup job req} : job.request C = some req → Curl H P D C req s l out s' →
      MachineStep H P D C ⟨s, backup, job⟩ l ⟨s', backup, job.next C out⟩
  | firstCopy {s} : MachineStep H P D C ⟨s, none, .copying⟩ .command
      ⟨s, some s.db, .idle [backupFault]⟩
  | copy {s backup} (date) : MachineStep H P D C ⟨s, some backup, .copying⟩ .command
      ⟨s, some backup, .comparing date s.db⟩
  | differ {s backup date tmp} : databaseBackup C.shell tmp backup = none →
      MachineStep H P D C ⟨s, some backup, .comparing date tmp⟩ .command
        ⟨s, some backup, .idle [hostMaybeChanged date, backupFault]⟩
  | overwrite {s backup backup' date tmp} : databaseBackup C.shell tmp backup = some backup' →
      MachineStep H P D C ⟨s, some backup, .comparing date tmp⟩ .command
        ⟨s, some backup', .backedUp⟩
  | read {s backup} (date iofjson) : MachineStep H P D C ⟨s, backup, .backedUp⟩ .command
      ⟨s, backup, .recording C date iofjson⟩

def machineLts (H : HttpPlugin) (P : Platform) (D : KeyDerivation) (C : Scripts) :
    Lts Machine Label where
  initial m := m = ⟨.down .empty, none, .idle []⟩
  step := MachineStep H P D C

/-- What clients, the job among them, see of a step. -/
def Label.observe (P : Platform) (f : Fresh) (l : Label) : Option (Event Transaction Block) :=
  l.exchange? >>= Client.observe P f

variable {H : HttpPlugin} {P : Platform} {D : KeyDerivation} {C : Scripts} {env : ApiEnv}
  {node : Node} {bs : List Block} {req : Request} {m m' : Machine} {l : Label} {ls : List Label}

/-! ## The node in the machine -/

theorem Curl.system_cases {s s' : System} {out : Str} (h : Curl H P D C req s l out s') :
    (l.exchange? = none ∧ s' = s) ∨ ∃ d, l.exchange? = some d ∧ NodeStep H P D s d s' := by
  cases h with
  | up henv _ => exact Or.inr ⟨_, rfl, .request req henv⟩
  | down => exact Or.inl ⟨rfl, rfl⟩
  | tooLong _ => exact Or.inl ⟨rfl, rfl⟩

theorem MachineStep.system_cases (h : MachineStep H P D C m l m') :
    (l.exchange? = none ∧ m'.system = m.system) ∨
      ∃ d, l.exchange? = some d ∧ NodeStep H P D m.system d m'.system := by
  cases h with
  | client hstep => exact Or.inr ⟨_, rfl, hstep⟩
  | ask _ hcurl => exact hcurl.system_cases
  | _ => exact Or.inl ⟨rfl, rfl⟩

theorem MachineStep.size_le (h : MachineStep H P D C m l m') :
    m'.system.size ≤ m.system.size + 1 := by
  rcases h.system_cases with ⟨_, hs⟩ | ⟨d, _, hstep⟩
  · rw [hs]
    exact Nat.le_succ _
  · exact hstep.size_le

/-- Whatever the job does, clients see a ledger. -/
theorem machine_simulation (hP : P.BoostExact) (hsign : P.ProducerSigns) (f : Fresh)
    (H : HttpPlugin) (D : KeyDerivation) (C : Scripts) :
    Simulation ((machineLts H P D C).restrict fun m => m.system.size < 2 ^ 63)
      (Ledger.lts (ledgerRules P)) (Label.observe P f) (fun m a => Shows P m.system a) where
  initial m hm := by
    have hm : m = ⟨.down .empty, none, .idle []⟩ := hm
    subst hm
    exact ⟨.down [], rfl, .down honestChain_nil rfl⟩
  step := by
    rintro m a l m' hshows ⟨hsize, hstep⟩
    have hstep : MachineStep H P D C m l m' := hstep
    rcases hstep.system_cases with ⟨hl, hs⟩ | ⟨d, hl, hnode⟩
    · refine Or.inl ⟨?_, ?_⟩
      · rw [Label.observe, hl]
        rfl
      · rw [hs]
        exact hshows
    · rw [Label.observe, hl]
      exact (node_simulation hP hsign f H D).step hshows ⟨hsize, hnode⟩

theorem size_initialMachine {m : Machine} (h : (machineLts H P D C).initial m) :
    m.system.size = 0 := by
  have h : m = ⟨.down .empty, none, .idle []⟩ := h
  rw [h]
  rfl

theorem size_le_of_run (h : (machineLts H P D C).Run ls m) : m.system.size ≤ ls.length :=
  @Lts.Run.size_le Machine Label (machineLts H P D C) m ls (fun m => m.system.size)
    (fun _ => size_initialMachine) MachineStep.size_le h

theorem MachineRun.shows (hP : P.BoostExact) (hsign : P.ProducerSigns) (f : Fresh)
    (h : (machineLts H P D C).Run ls m) (hlen : ls.length ≤ 2 ^ 63) :
    ∃ a, (Ledger.lts (ledgerRules P)).Run (ls.filterMap (Label.observe P f)) a ∧
      Shows P m.system a := by
  apply (machine_simulation hP hsign f H D C).run
  exact h.restrict (fun _ => size_initialMachine) MachineStep.size_le hlen

/-! ## The backup -/

theorem NodeStep.extends {s s' : System} {d : Exchange} (h : NodeStep H P D s d s') :
    s.db.rows <+: s'.db.rows := by
  cases h with
  | start => exact List.prefix_rfl
  | @request node env req _ =>
      by_cases hpush : ∃ t, AcceptedPush H P req t
      · obtain ⟨t, ht⟩ := hpush
        rw [(processRequest_accepted P D env node ht).1]
        exact List.prefix_rfl
      by_cases hpublish : ∃ buf b, BuiltPublish H P env node req buf b
      · obtain ⟨buf, b, hb⟩ := hpublish
        rw [(processRequest_built P D env node hb).1]
        exact insert_extends node.db (env.sqlOk 0) _
      · rw [(processRequest_other P D env node (fun t ht => hpush ⟨t, ht⟩)
          fun buf b hb => hpublish ⟨buf, b, hb⟩).1]
  | stop => exact List.prefix_rfl

theorem MachineStep.extends (h : MachineStep H P D C m l m') :
    m.system.db.rows <+: m'.system.db.rows := by
  rcases h.system_cases with ⟨_, hs⟩ | ⟨d, _, hstep⟩
  · rw [hs]
  · exact hstep.extends

theorem databaseBackup_eq_some {Q : SqliteShell} {tmp backup backup' : Table}
    (h : databaseBackup Q tmp backup = some backup') : backup' = tmp := by
  simp only [databaseBackup] at h
  split_ifs at h
  exact (Option.some.inj h).symm

/-- The backup, and the copy that is to replace it, begin the table of the node. -/
structure Machine.Kept (m : Machine) : Prop where
  backup : ∀ t, m.backup = some t → t.rows <+: m.system.db.rows
  copy : ∀ date tmp, m.job = .comparing date tmp → tmp.rows <+: m.system.db.rows ∧
    ∀ t, m.backup = some t → t.rows <+: tmp.rows

theorem Job.next_ne_comparing (out : Str) {job : Job} {req : Request}
    (h : job.request C = some req) (date : Str) (tmp : Table) :
    job.next C out ≠ .comparing date tmp := by
  cases job with
  | idle | copying | comparing | backedUp => cases h
  | _ =>
      simp only [Job.next, Job.unlessError]
      split_ifs <;> simp

theorem MachineStep.kept (h : MachineStep H P D C m l m') (hm : m.Kept) : m'.Kept := by
  have hextends := h.extends
  cases h with
  | client hstep =>
      exact ⟨fun t ht => (hm.backup t ht).trans hextends,
        fun date tmp hjob => ⟨(hm.copy date tmp hjob).1.trans hextends, (hm.copy date tmp hjob).2⟩⟩
  | begins => exact ⟨hm.backup, fun date tmp hjob => by cases hjob⟩
  | @ask s l out s' backup job req hreq hcurl =>
      refine ⟨fun t ht => (hm.backup t ht).trans hextends, fun date tmp hjob => ?_⟩
      exact absurd hjob (Job.next_ne_comparing out hreq date tmp)
  | firstCopy =>
      refine ⟨fun t ht => ?_, fun date tmp hjob => by cases hjob⟩
      cases ht
      exact List.prefix_rfl
  | copy date =>
      refine ⟨hm.backup, fun date tmp hjob => ?_⟩
      cases hjob
      exact ⟨List.prefix_rfl, hm.backup⟩
  | differ => exact ⟨hm.backup, fun date tmp hjob => by cases hjob⟩
  | @overwrite s backup backup' date tmp hbackup =>
      refine ⟨fun t ht => ?_, fun date tmp hjob => by cases hjob⟩
      cases ht
      rw [databaseBackup_eq_some hbackup]
      exact (hm.copy date tmp rfl).1
  | read date iofjson =>
      refine ⟨hm.backup, fun date' tmp hjob => ?_⟩
      simp only [Job.recording] at hjob
      split at hjob <;> cases hjob

theorem kept_of_run (h : (machineLts H P D C).Run ls m) : m.Kept := by
  apply h.invariant (I := fun _ m => m.Kept)
  · intro m hm
    have hm : m = ⟨.down .empty, none, .idle []⟩ := hm
    subst hm
    constructor
    · intro t ht
      cases ht
    · intro date tmp hjob
      cases hjob
  · exact fun hI hstep => MachineStep.kept hstep hI

theorem databaseBackup_of_prefix {Q : SqliteShell} (hQ : Q.Faithful) {tmp backup : Table}
    (h : backup.rows <+: tmp.rows) (hids : ∀ r ∈ backup.rows, ∃ n : ℕ, r.id = n ∧ n < 2 ^ 63) :
    databaseBackup Q tmp backup = some tmp := by
  cases hmax : (backup.rows.map Row.id).max? with
  | none =>
      have hread : Q.readId (substituted (selectMaxId Q backup)) = none := by
        rw [selectMaxId, hmax]
        exact hQ.read_nothing
      simp only [databaseBackup, selectById, hread, ne_eq, not_true_eq_false, if_false]
  | some id =>
      obtain ⟨r, hr, rfl⟩ := List.mem_map.1 (List.max?_mem hmax)
      obtain ⟨n, hid, hn⟩ := hids r hr
      have hread : Q.readId (substituted (selectMaxId Q backup)) = some r.id := by
        rw [selectMaxId, hmax, hid]
        exact hQ.read_print n hn
      simp only [databaseBackup, selectById_of_mem hr hread,
        selectById_of_mem (h.subset hr) hread, ne_eq, not_true_eq_false, if_false]

/-! ## The answers to the check -/

theorem reportsResultZero_resultZero (P : Platform) :
    reportsResultZero (toStream P resultZero) = true := by
  have htext : toStream P resultZero = "\x7b\"result\":0,\"block\":0\x7d".toList := rfl
  rw [htext]
  decide

theorem Con.Replied.flatMap_body {con : Con} {code : ℕ} {body : Str} (h : con.Replied code body) :
    con.written.flatMap Response.body = body := by
  obtain ⟨r, hwritten, _, hbody⟩ := h
  rw [hwritten, List.flatMap_singleton, hbody]

theorem Curl.checked (hP : P.BoostExact) (hsign : P.ProducerSigns) (h : HonestChain P bs)
    (hrows : node.db.rows = bs.map (rowOf P)) (hserved : Served H req) {out : Str} {s' : System}
    (hcurl : Curl H P D C (req.ask "check_chain" []) (.up node) l out s') :
    reportsResultZero out = true ∧ s' = .up node := by
  cases hcurl with
  | @up _ env henv _ =>
      have hresult : RoCall.checkChain.result P D env node [] = .ok resultZero := by
        rw [RoCall.result, bodyVariant_nil hP, ok_bind,
          ← checkChain_resultZero hP hsign h hrows henv]
        rfl
      obtain ⟨hnode, hreply⟩ := processRequest_asked (hserved.ask_nil _) hresult
      have hbody := hreply.flatMap_body
      rw [RoCall.callName] at hbody hnode
      rw [hbody, hnode, reportsResultZero_resultZero]
      exact ⟨rfl, rfl⟩
  | tooLong hlong => exact absurd rfl hlong.1

/-! ## What the backup is worth -/

theorem HonestChain.of_prefix {cs : List Block} (h : HonestChain P bs) (hcs : cs <+: bs) :
    HonestChain P cs := by
  have hget : ∀ (i : ℕ) b, cs[i]? = some b → bs[i]? = some b := by
    intro i b hb
    obtain ⟨hlt, hb⟩ := List.getElem?_eq_some_iff.1 hb
    rw [List.prefix_iff_getElem?.1 hcs i hlt, hb]
  have hle := hcs.length_le
  refine ⟨⟨fun i b hb => h.linked.number_eq i b (hget i b hb),
    fun b hb => h.linked.prior_zero b (hget 0 b hb),
    fun i b c hb hc => h.linked.prior_succ i b c (hget i b hb) (hget (i + 1) c hc)⟩,
    fun b hb => h.small b (hcs.subset hb), fun b hb => h.merkleRoot b (hcs.subset hb),
    fun b hb => h.signed b (hcs.subset hb), fun i b hi hb => ?_, hle.trans h.length_le⟩
  exact h.valid i b (Nat.lt_of_lt_of_le hi hle) (hget i b hb)

/-- In the place of the database, the table is one that a node starts on and finds in order. -/
def Restorable (P : Platform) (t : Table) : Prop :=
  ∀ env : Env, env.Succeeds →
    (∃ buf, pluginStartup P env t = .started buf) ∧ checkChain P env t = .ok resultZero

theorem Shows.honest {s : System} {a : Ledger.State Transaction Block} (h : Shows P s a) :
    ∃ bs, HonestChain P bs ∧ s.db.rows = bs.map (rowOf P) := by
  cases h with
  | down h hrows => exact ⟨_, h, hrows⟩
  | up h hrows _ => exact ⟨_, h, hrows⟩

theorem Shows.restorable (hP : P.BoostExact) (hsign : P.ProducerSigns) (hkeys : P.KeysParse)
    {s : System} {a : Ledger.State Transaction Block} (h : Shows P s a) {t : Table}
    (ht : t.rows <+: s.db.rows) : Restorable P t := by
  intro env henv
  obtain ⟨bs, hhonest, hrows⟩ := h.honest
  rw [hrows] at ht
  obtain ⟨cs, hcs, hrows'⟩ := List.prefix_map_iff.1 ht
  have hbegins := hhonest.of_prefix hcs
  exact ⟨hbegins.starts hP hkeys hrows' henv, checkChain_resultZero hP hsign hbegins hrows' henv⟩

theorem HonestChain.id_lt (h : HonestChain P bs) (hlen : bs.length < 2 ^ 63) {r : Row}
    (hr : r ∈ bs.map (rowOf P)) : ∃ n : ℕ, r.id = n ∧ n < 2 ^ 63 := by
  obtain ⟨b, hb, rfl⟩ := List.mem_map.1 hr
  obtain ⟨i, hi⟩ := List.mem_iff_getElem?.1 hb
  have hnum := h.blkNum_eq hi
  have := HashChain.lt_of_getElem? hi
  exact ⟨b.blkNum.toNat, rfl, by omega⟩

/-! ## Alarms -/

def Job.Reports (line : Str) : Job → Prop
  | .idle echoed => line ∈ echoed
  | _ => False

theorem ne_hostMaybeChanged {line : Str} (h : line.length < 31) (date : Str) :
    hostMaybeChanged date ≠ line := by
  intro heq
  have hlen := congrArg List.length heq
  have htail : " hostDB maybe has been changed!".toList.length = 31 := by decide
  rw [hostMaybeChanged, List.length_append, htail] at hlen
  omega

theorem Job.next_reports {out line : Str} {job : Job} {req : Request}
    (h : job.request C = some req) (hr : (job.next C out).Reports line) :
    line = iotError ∨ line = blockHasChanged ∧ job = .checking ∧ reportsResultZero out = false := by
  have hunless : ∀ reply next, (Job.unlessError C reply next).Reports line →
      line = iotError ∨ next.Reports line := by
    intro reply next hr
    rw [Job.unlessError] at hr
    split at hr
    · exact Or.inl (List.mem_singleton.1 hr)
    · exact Or.inr hr
  cases job with
  | idle | copying | comparing | backedUp => cases h
  | checking =>
      rw [Job.next] at hr
      split at hr
      · exact hr.elim
      next hzero => exact Or.inr ⟨List.mem_singleton.1 hr, rfl, Bool.not_eq_true _ ▸ hzero⟩
  | converting date jsondata => exact Or.inl ((hunless _ _ hr).resolve_right id)
  | signing date hex =>
      refine Or.inl ((hunless _ _ hr).resolve_right fun hr => ?_)
      split at hr <;> exact hr
  | pushing transaction => exact Or.inl ((hunless _ _ hr).resolve_right id)
  | publishing => exact Or.inl ((hunless _ _ hr).resolve_right List.not_mem_nil)

theorem Job.recording_reports {date iofjson line : Str}
    (hr : (Job.recording C date iofjson).Reports line) : line = iotError := by
  rw [Job.recording] at hr
  split at hr
  · exact List.mem_singleton.1 hr
  · exact hr.elim

/-- The job reports a changed database only when it has compared two that differ. -/
theorem MachineStep.reports_host (h : MachineStep H P D C m l m') {date : Str}
    (hr : m'.job.Reports (hostMaybeChanged date)) : m'.job = m.job ∨
      ∃ backup date tmp, m.backup = some backup ∧ m.job = .comparing date tmp ∧
        databaseBackup C.shell tmp backup = none := by
  cases h with
  | client => exact Or.inl rfl
  | firstCopy =>
      exact absurd (List.mem_singleton.1 hr) (ne_hostMaybeChanged (by decide) date)
  | ask hreq _ =>
      rcases Job.next_reports hreq hr with hline | ⟨hline, _⟩
      · exact absurd hline (ne_hostMaybeChanged (by decide) date)
      · exact absurd hline (ne_hostMaybeChanged (by decide) date)
  | read =>
      exact absurd (Job.recording_reports hr) (ne_hostMaybeChanged (by decide) date)
  | differ hdiffer => exact Or.inr ⟨_, _, _, rfl, rfl, hdiffer⟩
  | begins | copy | overwrite => exact hr.elim

theorem MachineStep.reports_chain (h : MachineStep H P D C m l m')
    (hr : m'.job.Reports blockHasChanged) : m'.job = m.job ∨
      ∃ out, m.job = .checking ∧
        Curl H P D C (C.get.ask "check_chain" []) m.system l out m'.system ∧
        reportsResultZero out = false := by
  cases h with
  | client => exact Or.inl rfl
  | firstCopy => exact absurd (List.mem_singleton.1 hr) (by decide)
  | @ask s l out s' backup job req hreq hcurl =>
      rcases Job.next_reports hreq hr with hline | ⟨_, rfl, hout⟩
      · exact absurd hline (by decide)
      · cases hreq
        exact Or.inr ⟨out, rfl, hcurl, hout⟩
  | read => exact absurd (Job.recording_reports hr) (by decide)
  | @differ s backup date tmp _ =>
      rcases List.mem_pair.1 hr with hline | hline
      · exact absurd hline.symm (ne_hostMaybeChanged (by decide) date)
      · exact absurd hline (by decide)
  | begins | copy | overwrite => exact hr.elim

theorem System.rows_le_size (s : System) : s.db.rows.length ≤ s.size := by
  cases s with
  | down db => exact Nat.le_refl _
  | up node => exact Nat.le_add_right _ _

theorem not_differ (hQ : C.shell.Faithful) {s : System} {a : Ledger.State Transaction Block}
    (hshows : Shows P s a) (hsize : s.size < 2 ^ 63) {backup tmp : Table}
    (hbackup : backup.rows <+: s.db.rows) (htmp : backup.rows <+: tmp.rows) :
    databaseBackup C.shell tmp backup = some tmp := by
  obtain ⟨bs, hhonest, hrows⟩ := hshows.honest
  have hlen := s.rows_le_size
  rw [hrows, List.length_map] at hlen
  apply databaseBackup_of_prefix hQ htmp
  intro r hr
  apply hhonest.id_lt (by omega)
  rw [← hrows]
  exact hbackup.subset hr

theorem MachineStep.backup_extends (h : MachineStep H P D C m l m') (hkept : m.Kept) {t : Table}
    (ht : m.backup = some t) : ∃ t', m'.backup = some t' ∧ t.rows <+: t'.rows := by
  cases h with
  | firstCopy => cases ht
  | @overwrite s backup backup' date tmp hbackup =>
      refine ⟨backup', rfl, ?_⟩
      rw [databaseBackup_eq_some hbackup]
      exact (hkept.copy date tmp rfl).2 t ht
  | _ => exact ⟨t, ht, List.prefix_rfl⟩

theorem never_reports_host (hP : P.BoostExact) (hsign : P.ProducerSigns)
    (hQ : C.shell.Faithful) (h : (machineLts H P D C).Run ls m) (hlen : ls.length ≤ 2 ^ 63)
    (date : Str) : ¬ m.job.Reports (hostMaybeChanged date) := by
  revert hlen
  apply h.induction (I := fun ls m => ls.length ≤ 2 ^ 63 →
    ¬ m.job.Reports (hostMaybeChanged date))
  · intro m hm _
    have hm : m = ⟨.down .empty, none, .idle []⟩ := hm
    subst hm
    exact List.not_mem_nil
  · intro es m l m' hrun ih hstep hlen hr
    rw [List.length_append, List.length_singleton] at hlen
    have hsize := size_le_of_run hrun
    obtain ⟨a, _, hshows⟩ := MachineRun.shows hP hsign ⟨0, 0⟩ hrun (by omega)
    rcases MachineStep.reports_host hstep hr with
      hjob | ⟨backup, date', tmp, hbackup, hjob, hdiffer⟩
    · rw [hjob] at hr
      exact ih (by omega) hr
    · have hkept := kept_of_run hrun
      rw [not_differ hQ hshows (by omega) (hkept.backup backup hbackup)
        ((hkept.copy date' tmp hjob).2 backup hbackup)] at hdiffer
      cases hdiffer

/-! ## A job that nothing comes between -/

def Label.OfJob : Label → Prop
  | .asked _ | .command => True
  | _ => False

def Job.BackingUp : Job → Prop
  | .checking | .copying | .comparing _ _ => True
  | _ => False

/-- How far a job that began on this node, with this backup, has come. -/
inductive CatchesUp (node : Node) (backup : Option Table) : Machine → Prop
  | checking : CatchesUp node backup ⟨.up node, backup, .checking⟩
  | copying : CatchesUp node backup ⟨.up node, backup, .copying⟩
  | comparing {t} (date) : backup = some t →
      CatchesUp node backup ⟨.up node, backup, .comparing date node.db⟩
  | done {s job} : ¬ job.BackingUp → CatchesUp node backup ⟨s, some node.db, job⟩

theorem CatchesUp.done_of {node : Node} {backup : Option Table} {m : Machine}
    (h : CatchesUp node backup m) (hjob : ¬ m.job.BackingUp) : m.backup = some node.db := by
  cases h with
  | checking => exact absurd trivial hjob
  | copying => exact absurd trivial hjob
  | comparing => exact absurd trivial hjob
  | done => rfl

theorem Job.next_not_backingUp (out : Str) {job : Job} {req : Request}
    (h : job.request C = some req) (hjob : ¬ job.BackingUp) : ¬ (job.next C out).BackingUp := by
  cases job with
  | idle | copying | comparing | backedUp => cases h
  | checking => exact absurd trivial hjob
  | _ =>
      simp only [Job.next, Job.unlessError]
      split_ifs <;> exact id

theorem Job.recording_not_backingUp (date iofjson : Str) :
    ¬ (Job.recording C date iofjson).BackingUp := by
  rw [Job.recording]
  split <;> exact id

/-- What a job meets that begins on this node, with this backup. -/
structure JobBegins (P : Platform) (H : HttpPlugin) (C : Scripts) (node : Node)
    (backup : Option Table) : Prop where
  exact : P.BoostExact
  signs : P.ProducerSigns
  faithful : C.shell.Faithful
  get : Served H C.get
  size_lt : (System.up node).size < 2 ^ 63
  shows : ∃ a, Shows P (.up node) a
  backup_begins : ∀ t, backup = some t → t.rows <+: node.db.rows

theorem CatchesUp.step {backup : Option Table} (hj : JobBegins P H C node backup)
    (h : CatchesUp node backup m) (hstep : MachineStep H P D C m l m') (hl : l.OfJob) :
    CatchesUp node backup m' := by
  obtain ⟨a, hshows⟩ := hj.shows
  cases h with
  | checking =>
      cases hstep with
      | client => exact hl.elim
      | ask hreq hcurl =>
          cases hreq
          obtain ⟨bs, hhonest, hrows⟩ := hshows.honest
          obtain ⟨hzero, rfl⟩ := hcurl.checked hj.exact hj.signs hhonest hrows hj.get
          rw [Job.next, if_pos hzero]
          exact .copying
  | copying =>
      cases hstep with
      | client => exact hl.elim
      | ask hreq => cases hreq
      | firstCopy => exact .done id
      | copy date => exact .comparing date rfl
  | comparing date hbackup =>
      subst hbackup
      have hprefix := hj.backup_begins _ rfl
      have hcopy := not_differ hj.faithful hshows hj.size_lt hprefix hprefix
      cases hstep with
      | client => exact hl.elim
      | ask hreq => cases hreq
      | differ hdiffer =>
          have hsome : databaseBackup C.shell node.db _ = some node.db := hcopy
          rw [hsome] at hdiffer
          cases hdiffer
      | overwrite hoverwrite =>
          rw [databaseBackup_eq_some hoverwrite]
          exact .done id
  | done hjob =>
      cases hstep with
      | client => exact hl.elim
      | begins => exact hl.elim
      | ask hreq _ => exact .done (Job.next_not_backingUp _ hreq hjob)
      | copy => exact absurd trivial hjob
      | differ => exact absurd trivial hjob
      | overwrite => exact absurd trivial hjob
      | read date iofjson => exact .done (Job.recording_not_backingUp date iofjson)

theorem CatchesUp.path {backup : Option Table} (hj : JobBegins P H C node backup)
    (h : CatchesUp node backup m) {ks : List Label} (hpath : (machineLts H P D C).Path m ks m')
    (hks : ∀ k ∈ ks, k.OfJob) : CatchesUp node backup m' := by
  induction hpath with
  | refl => exact h
  | tail _ hstep ih =>
      have hlast := hks _ (List.mem_append_right _ (List.mem_singleton_self _))
      exact (ih fun k hk => hks k (List.mem_append_left _ hk)).step hj hstep hlast

theorem jobBegins_of_run (hP : P.BoostExact) (hsign : P.ProducerSigns) (hQ : C.shell.Faithful)
    (hget : Served H C.get) {backup : Option Table} {job : Job}
    (h : (machineLts H P D C).Run ls ⟨.up node, backup, job⟩) (hlen : ls.length < 2 ^ 63) :
    JobBegins P H C node backup := by
  obtain ⟨a, _, hshows⟩ := MachineRun.shows hP hsign ⟨0, 0⟩ h hlen.le
  exact ⟨hP, hsign, hQ, hget, Nat.lt_of_le_of_lt (size_le_of_run h) hlen, ⟨a, hshows⟩,
    (kept_of_run h).backup⟩

theorem JobBegins.checks {backup : Option Table}
    (hj : JobBegins P H C node backup) (henv : env.Succeeds)
    (echoed : List Str) (D : KeyDerivation) : ∃ d, (machineLts H P D C).Path
      ⟨.up node, backup, .idle echoed⟩ [.began, .asked d] ⟨.up node, backup, .copying⟩ := by
  obtain ⟨a, hshows⟩ := hj.shows
  obtain ⟨bs, hhonest, hrows⟩ := hshows.honest
  have hcurl := @Curl.up H P D C (C.get.ask "check_chain" []) node env henv
    fun hlong => hlong.1 rfl
  obtain ⟨hzero, hnode⟩ := hcurl.checked hj.exact hj.signs hhonest hrows hj.get
  have hcheck := @MachineStep.ask H P D C _ _ _ _ backup .checking _ rfl hcurl
  rw [Job.next, if_pos hzero, hnode] at hcheck
  have hbegins : MachineStep H P D C ⟨.up node, backup, .idle echoed⟩ .began
      ⟨.up node, backup, .checking⟩ := .begins
  exact ⟨_, (Lts.Path.refl.tail hbegins).tail hcheck⟩

/-- The job can go on until it has copied the table. The first one ends there. -/
theorem JobBegins.copies {backup : Option Table}
    (hj : JobBegins P H C node backup) (henv : env.Succeeds)
    (echoed : List Str) (D : KeyDerivation) :
    ∃ ks, ks.length ≤ 3 ∧ (∀ k ∈ ks, k.OfJob) ∧
      (machineLts H P D C).Path ⟨.up node, backup, .idle echoed⟩ (.began :: ks)
        ⟨.up node, some node.db, if backup.isSome then .backedUp else .idle [backupFault]⟩ := by
  obtain ⟨d, hpath⟩ := hj.checks henv echoed D
  cases backup with
  | none =>
      refine ⟨[.asked d, .command], by simp, ?_, hpath.tail .firstCopy⟩
      simp [Label.OfJob]
  | some backup =>
      obtain ⟨a, hshows⟩ := hj.shows
      have hprefix := hj.backup_begins backup rfl
      have hoverwrite := not_differ hj.faithful hshows hj.size_lt hprefix hprefix
      refine ⟨[.asked d, .command, .command], by simp, ?_,
        (hpath.tail (.copy [])).tail (.overwrite hoverwrite)⟩
      simp [Label.OfJob]

theorem machinePath_of_nodePath {s s' : System} {ds : List Exchange}
    (h : (nodeLts H P D).Path s ds s') (C : Scripts) (backup : Option Table) (job : Job) :
    (machineLts H P D C).Path ⟨s, backup, job⟩ (ds.map .exchange) ⟨s', backup, job⟩ := by
  induction h with
  | refl => exact .refl
  | tail _ hstep ih =>
      rw [List.map_append]
      exact ih.tail (.client hstep)

namespace Sample

def scripts : Scripts := ⟨shell, socketRequest, socketRequest, fun iofjson => iofjson, true, 131072⟩

def nextNode : Node := ⟨bufNext, chainTable⟩

theorem built_nextRequest :
    BuiltPublish http platform apiEnv publishedNode publishRequest bufAfter nextBlock :=
  ⟨served.ask_nil RwCall.publishBlk.callName, rfl, ⟨(), by rfl⟩, build_next⟩

theorem nodeStep_next : NodeStep http platform keyDerivation (.up publishedNode)
    (exchange publishedNode publishRequest) (.up nextNode) := by
  have hinsert : (appendBlock platform table (env.sqlOk 0) nextBlock).1 = chainTable :=
    congrArg Prod.fst insert_next
  have hserve := processRequest_built platform keyDerivation apiEnv _ built_nextRequest
  refine nodeStep (hserve.1.trans ?_)
  rw [nextNode, ← hinsert]
  rfl

/-- After the first job another block is published, which the backup lacks. -/
def laterMachine : Machine := ⟨.up nextNode, some table, .idle [backupFault]⟩

theorem machineRun_later : ∃ ls, ls.length ≤ 8 ∧
    (machineLts http platform keyDerivation scripts).Run ls laterMachine := by
  obtain ⟨s, hs, hnode⟩ := nodeRun_published
  subst hs
  have hrun : (machineLts http platform keyDerivation scripts).Run _
      ⟨.up publishedNode, none, .idle []⟩ :=
    ⟨_, rfl, machinePath_of_nodePath hnode scripts none (.idle [])⟩
  have hbegins := jobBegins_of_run boostExact producerSigns faithful served hrun (by simp)
  have henv : apiEnv.Succeeds := env_succeeds
  obtain ⟨ks, hks, _, hpath⟩ := hbegins.copies henv [] keyDerivation
  refine ⟨_, ?_, (hrun.append hpath).tail (.client nodeStep_next)⟩
  simp only [List.length_append, List.length_map, List.length_cons, List.length_nil]
  omega

/-- The second job is about to compare the backup with its copy of the table. -/
def comparingMachine : Machine := ⟨.up nextNode, some table, .comparing [] chainTable⟩

theorem machineRun_comparing : ∃ ls, ls.length ≤ 11 ∧
    (machineLts http platform keyDerivation scripts).Run ls comparingMachine := by
  obtain ⟨ls, hlen, hrun⟩ := machineRun_later
  have hbegins := jobBegins_of_run boostExact producerSigns faithful served hrun
    (Nat.lt_of_le_of_lt hlen (by decide))
  have henv : apiEnv.Succeeds := env_succeeds
  obtain ⟨d, hpath⟩ := hbegins.checks henv [backupFault] keyDerivation
  refine ⟨_, ?_, (hrun.append hpath).tail (.copy [])⟩
  simp only [List.length_append, List.length_cons, List.length_nil]
  omega

end Sample

variable (env) in
/-- In every order of the steps of clients, restarts and jobs, the backup begins the table of
the node, can take its place and only grows. A job that nothing comes between, and there is
one, makes it equal to the table that it found. -/
theorem backup_keeps_up (hP : P.BoostExact) (hsign : P.ProducerSigns) (hkeys : P.KeysParse)
    (hQ : C.shell.Faithful) (hget : Served H C.get) (henv : env.Succeeds)
    (h : (machineLts H P D C).Run ls m) (hlen : ls.length < 2 ^ 63) :
    (∀ t, m.backup = some t → t.rows <+: m.system.db.rows ∧ Restorable P t) ∧
    (∀ l m', MachineStep H P D C m l m' → ∀ t, m.backup = some t →
      ∃ t', m'.backup = some t' ∧ t.rows <+: t'.rows) ∧
    ∀ node echoed, m.system = .up node → m.job = .idle echoed →
      (∀ ks m', (machineLts H P D C).Path m (.began :: ks) m' → (∀ k ∈ ks, k.OfJob) →
        ¬ m'.job.BackingUp → m'.backup = some node.db) ∧
      ∃ ks m', (machineLts H P D C).Path m (.began :: ks) m' ∧ (∀ k ∈ ks, k.OfJob) ∧
        ¬ m'.job.BackingUp := by
  have hkept := kept_of_run h
  obtain ⟨a, _, hshows⟩ := MachineRun.shows hP hsign ⟨0, 0⟩ h hlen.le
  refine ⟨fun t ht => ⟨hkept.backup t ht, hshows.restorable hP hsign hkeys (hkept.backup t ht)⟩,
    fun l m' hstep t ht => hstep.backup_extends hkept ht, fun node echoed hnode hjob => ?_⟩
  obtain ⟨s, backup, job⟩ := m
  simp only at hnode hjob
  subst hnode hjob
  have hbegins := jobBegins_of_run hP hsign hQ hget h hlen
  refine ⟨fun ks m' hpath hks hdone => ?_, ?_⟩
  · have hcut : (machineLts H P D C).Path _ ([.began] ++ ks) m' := hpath
    obtain ⟨m₁, hfirst, hrest⟩ := hcut.split
    have hstep : MachineStep H P D C _ .began m₁ := Lts.Path.single_iff.1 hfirst
    cases hstep with
    | begins => exact (CatchesUp.checking.path hbegins hrest hks).done_of hdone
    | ask hreq => cases hreq
  · obtain ⟨ks, _, hks, hpath⟩ := hbegins.copies henv echoed D
    refine ⟨ks, _, hpath, hks, ?_⟩
    cases backup <;> exact id

theorem sample_backup_keeps_up :
    Sample.table.rows <+: Sample.chainTable.rows ∧ Restorable Sample.platform Sample.table ∧
    (∀ ks m', (machineLts Sample.http Sample.platform Sample.keyDerivation Sample.scripts).Path
        Sample.laterMachine (.began :: ks) m' → (∀ k ∈ ks, k.OfJob) → ¬ m'.job.BackingUp →
      m'.backup = some Sample.chainTable) ∧
    ∃ ks m', (machineLts Sample.http Sample.platform Sample.keyDerivation Sample.scripts).Path
        Sample.laterMachine (.began :: ks) m' ∧ (∀ k ∈ ks, k.OfJob) ∧ ¬ m'.job.BackingUp := by
  obtain ⟨ls, hlen, hrun⟩ := Sample.machineRun_later
  obtain ⟨hbackup, _, hjob⟩ := backup_keeps_up Sample.apiEnv Sample.boostExact
    Sample.producerSigns ⟨⟨_, Sample.producerKey⟩, _, Sample.privateKey⟩ Sample.faithful
    Sample.served Sample.env_succeeds hrun (Nat.lt_of_le_of_lt hlen (by decide))
  obtain ⟨hbegins, hrestorable⟩ := hbackup Sample.table rfl
  exact ⟨hbegins, hrestorable, hjob Sample.nextNode [backupFault] rfl rfl⟩

/-- In no order of the steps does the job report that the database was changed, and it reports
a changed chain only when the node is down. -/
theorem no_false_alarm (hP : P.BoostExact) (hsign : P.ProducerSigns) (hQ : C.shell.Faithful)
    (hget : Served H C.get) (h : (machineLts H P D C).Run ls m) (hlen : ls.length < 2 ^ 63) :
    (∀ date, ¬ m.job.Reports (hostMaybeChanged date)) ∧
    ∀ l m', MachineStep H P D C m l m' → m'.job.Reports blockHasChanged →
      m'.job = m.job ∨ ∃ db, m.system = .down db := by
  refine ⟨never_reports_host hP hsign hQ h hlen.le, fun l m' hstep hr => ?_⟩
  obtain ⟨a, _, hshows⟩ := MachineRun.shows hP hsign ⟨0, 0⟩ h hlen.le
  rcases hstep.reports_chain hr with hjob | ⟨out, _, hcurl, hout⟩
  · exact Or.inl hjob
  · cases hm : m.system with
    | down db => exact Or.inr ⟨db, rfl⟩
    | up node =>
        rw [hm] at hcurl hshows
        cases hshows with
        | up hhonest hrows _ =>
            rw [(hcurl.checked hP hsign hhonest hrows hget).1] at hout
            cases hout

theorem sample_no_false_alarm :
    (∀ date, ¬ Sample.comparingMachine.job.Reports (hostMaybeChanged date)) ∧
    ∀ l m', MachineStep Sample.http Sample.platform Sample.keyDerivation Sample.scripts
        Sample.comparingMachine l m' → m'.job.Reports blockHasChanged →
      m'.job = Sample.comparingMachine.job ∨
        ∃ db, Sample.comparingMachine.system = .down db := by
  obtain ⟨ls, hlen, hrun⟩ := Sample.machineRun_comparing
  exact no_false_alarm Sample.boostExact Sample.producerSigns Sample.faithful Sample.served hrun
    (Nat.lt_of_le_of_lt hlen (by decide))

end SimpleBlockchain
