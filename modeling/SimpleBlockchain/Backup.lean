import Mathlib.Data.List.DropRight
import SimpleBlockchain.Responses
import SimpleBlockchain.Tampering

/-!
# The backup scripts

Before it overwrites the backup with the database of the node, the job asks the node to
check its chain, and compares one row of the two databases as text.
-/

namespace SimpleBlockchain

open HashChain

/-- How the command line shell of sqlite prints a number of the column `ID`, and which
number the text behind `id=` denotes, if it is one. -/
structure SqliteShell where
  printId : ℤ → Str
  readId : Str → Option ℤ

/-- What a command substitution makes of an output. -/
def substituted (out : Str) : Str := out.rdropWhile (· = '\n')

def rowLine (Q : SqliteShell) (r : Row) : Str :=
  Q.printId r.id ++ '|' :: r.hash ++ '|' :: r.json ++ ['\n']

/-- `select max(id) from block`, which is a null on an empty table. -/
def selectMaxId (Q : SqliteShell) (t : Table) : Str :=
  match (t.rows.map Row.id).max? with
  | some id => Q.printId id ++ ['\n']
  | none => ['\n']

/-- `select * from block where id=`. The output of a syntax error is empty. -/
def selectById (Q : SqliteShell) (t : Table) (maxid : Str) : Str :=
  match Q.readId maxid with
  | some id => (t.rows.filter (·.id = id)).flatMap (rowLine Q)
  | none => []

/-- `database_backup.sh` with an existing backup: the backup that the last `cp` writes, or
none when the script gives up. -/
def databaseBackup (Q : SqliteShell) (host backup : Table) : Option Table :=
  let maxid := substituted (selectMaxId Q backup)
  let backblock := substituted (selectById Q backup maxid)
  let hostblock := substituted (selectById Q host maxid)
  if backblock ≠ hostblock then none else some host

/-- The body of the response to `curl` of `check_chain`. -/
def curlCheckChain (H : HttpPlugin) (P : Platform) (D : KeyDerivation) (env : ApiEnv)
    (node : Node) : Str :=
  (RoCall.checkChain.handle H P D env node [] Con.fresh.deferHttpResponse).con.response.body

/-- `sed 's/\"//g' | grep "result:0"`. -/
def reportsResultZero (reply : Str) : Bool :=
  decide ("result:0".toList <:+: reply.filter (· ≠ '"'))

/-- `batch.sh` up to the end of `database_backup.sh`. -/
def batch (H : HttpPlugin) (P : Platform) (D : KeyDerivation) (env : ApiEnv) (buf : Buffer)
    (Q : SqliteShell) (host backup : Table) : Option Table :=
  if reportsResultZero (curlCheckChain H P D env ⟨buf, host⟩) then databaseBackup Q host backup
  else none

def Overwrites (H : HttpPlugin) (P : Platform) (D : KeyDerivation) (env : ApiEnv) (buf : Buffer)
    (Q : SqliteShell) (host backup : Table) : Prop :=
  batch H P D env buf Q host backup = some host

def Compared (Q : SqliteShell) (backup : Table) (r : Row) : Prop :=
  Q.readId (substituted (selectMaxId Q backup)) = some r.id

/-- The check has read the host, and reported no error. -/
def Checked (P : Platform) (env : Env) (host : Table) : Prop :=
  env.sqlOk 0 = true ∧ checkChain P env host = .ok resultZero

def HasHeader (P : Platform) (b : Block) (r : Row) : Prop :=
  ∃ f c, Block.ofJson P f r.json = .ok c ∧ c.header = b.header

/-- The digest of the block stands for no other header in the host. -/
def NoCollision (P : Platform) (host : Table) (b : Block) : Prop :=
  ∀ r ∈ host.rows, ∀ f c, Block.ofJson P f r.json = .ok c → c.digest P = b.digest P →
    c.header = b.header

/-- The rows of the backup whose headers a run covers: the one that the script compares and,
with the row of a block, that of the block whose digest it names. -/
inductive Covered (P : Platform) (env : Env) (Q : SqliteShell) (host backup : Table) :
    Row → Block → Prop
  | compared {r b} : r ∈ backup.rows → r.json = b.toJson P → Compared Q backup r →
      Covered P env Q host backup r b
  | named {r b r' b'} : Covered P env Q host backup r' b' → Checked P env host →
      b'.blkNum ≠ 0 → b'.priorHash = b.digest P → NoCollision P host b → r ∈ backup.rows →
      r.json = b.toJson P → Covered P env Q host backup r b

/-- What neither the check nor the comparison looks at, of a row that the run covers, is as
it was. -/
structure Unaltered (P : Platform) (env : Env) (Q : SqliteShell) (host backup : Table) :
    Prop where
  /-- The compared row does not print like another one. -/
  legible : ∀ r ∈ backup.rows, ∀ h ∈ host.rows, Compared Q backup r → h.id = r.id →
    substituted (rowLine Q h) = substituted (rowLine Q r) → h = r
  /-- A covered header has kept its ID, if it is there. -/
  placed : ∀ r b, Covered P env Q host backup r b → (∃ h ∈ host.rows, HasHeader P b h) →
    ∃ h ∈ host.rows, h.id = r.id ∧ HasHeader P b h
  /-- With a covered header stand the HASH, the transactions and the signature of its block. -/
  written : ∀ r b, Covered P env Q host backup r b → ∀ h ∈ host.rows, h.id = r.id →
    HasHeader P b h → h.hash = r.hash ∧
      ∃ c : Block, h.json = c.toJson P ∧ c.trxs = b.trxs ∧ c.sig = b.sig

/-- And a row that nothing covers is there. -/
structure Intact (P : Platform) (env : Env) (Q : SqliteShell) (host backup : Table) : Prop
    extends Unaltered P env Q host backup where
  uncovered : ∀ r ∈ backup.rows, ¬ Compared Q backup r →
    (∀ b, ¬ Covered P env Q host backup r b) → r ∈ host.rows

/-- What the shell of sqlite prints as a number, it reads as this number, and it needs one
behind `id=`. -/
structure SqliteShell.Faithful (Q : SqliteShell) : Prop where
  read_print : ∀ n : ℕ, n < 2 ^ 63 → Q.readId (substituted (Q.printId n ++ ['\n'])) = some (n : ℤ)
  read_nothing : Q.readId [] = none

variable {Q : SqliteShell} {host backup : Table}

/-! ## What the script compares -/

theorem curlCheckChain_of_ok {H : HttpPlugin} {P : Platform} {D : KeyDerivation} {env : ApiEnv}
    {node : Node} (hP : P.BoostExact) {v : Variant}
    (hv : checkChain P env.toEnv node.db = .ok v) :
    curlCheckChain H P D env node = toStream P v := by
  have hrun : ∀ o, RoCall.checkChain.run P D env node (.object o) =
      checkChain P env.toEnv node.db := fun _ => rfl
  simp only [curlCheckChain, RoCall.handle, bodyVariant_nil hP, ok_bind, hrun, hv]
  rfl

theorem substituted_rowLine_ne_nil (r : Row) : substituted (rowLine Q r) ≠ [] := by
  rw [substituted, Ne, List.rdropWhile_eq_nil_iff]
  intro h
  have hbar : '|' ∈ rowLine Q r := by simp [rowLine]
  exact absurd (h '|' hbar) (by decide)

theorem selectById_of_mem {t : Table} {r : Row} (hr : r ∈ t.rows) {maxid : Str}
    (hid : Q.readId maxid = some r.id) : selectById Q t maxid = rowLine Q r := by
  simp only [selectById, hid]
  rw [filter_key t.primaryKey hr]
  simp

theorem selectById_of_not_mem {t : Table} {id : ℤ} (hid : ∀ r ∈ t.rows, r.id ≠ id) {maxid : Str}
    (hread : Q.readId maxid = some id) : selectById Q t maxid = [] := by
  have hfilter : t.rows.filter (·.id = id) = [] := by
    rw [List.filter_eq_nil_iff]
    intro r hr
    rw [decide_eq_true_iff]
    exact hid r hr
  simp only [selectById, hread]
  rw [hfilter, List.flatMap_nil]

theorem databaseBackup_compared (h : databaseBackup Q host backup = some host) {r : Row}
    (hr : r ∈ backup.rows) (hcomp : Compared Q backup r) :
    ∃ r' ∈ host.rows, r'.id = r.id ∧ substituted (rowLine Q r') = substituted (rowLine Q r) := by
  have htext : substituted (selectById Q backup (substituted (selectMaxId Q backup))) =
      substituted (selectById Q host (substituted (selectMaxId Q backup))) := by
    by_contra hne
    simp only [databaseBackup, if_pos hne] at h
    cases h
  rw [selectById_of_mem hr hcomp] at htext
  by_cases hhost : ∃ r' ∈ host.rows, r'.id = r.id
  · obtain ⟨r', hr', hid⟩ := hhost
    refine ⟨r', hr', hid, ?_⟩
    rw [htext, selectById_of_mem hr' (hid ▸ hcomp)]
  · push Not at hhost
    rw [selectById_of_not_mem hhost hcomp] at htext
    exact absurd htext (substituted_rowLine_ne_nil r)

theorem Table.eq_of_id {t : Table} {r r' : Row} (hr : r ∈ t.rows) (hr' : r' ∈ t.rows)
    (hid : r.id = r'.id) : r = r' :=
  List.inj_on_of_nodup_map t.primaryKey hr hr' hid

theorem databaseBackup_of_overwrites {H : HttpPlugin} {P : Platform} {D : KeyDerivation}
    {env : ApiEnv} {buf : Buffer} (h : Overwrites H P D env buf Q host backup) :
    databaseBackup Q host backup = some host := by
  unfold Overwrites batch at h
  split at h
  · exact h
  · cases h

/-! ## What a run covers -/

section Covers

variable {P : Platform} {env : Env} {r : Row} {b c : Block}

theorem HasHeader.of_toJson (hP : P.BoostExact) (h : r.json = b.toJson P) : HasHeader P b r := by
  refine ⟨⟨0, 0⟩, b.cut, ?_, rfl⟩
  rw [h, Block.ofJson_toJson hP]

theorem Block.eq_of_header (h : c.header = b.header) (htrxs : c.trxs = b.trxs)
    (hsig : c.sig = b.sig) : c = b := by
  obtain ⟨hnum, hprior, htime, hroot⟩ := Block.header_inj h
  cases b
  cases c
  simp only [Block.mk.injEq] at *
  exact ⟨hnum, hprior, htime, hroot, hsig, htrxs⟩

theorem Checked.blocks (h : Checked P env host) : ∃ blocks,
    getAllBlocks P host true (fun i => env.fresh (i + 1)) = .ok blocks ∧
      Walks (fun b : Block => b.blkNum.toNat) Block.priorHash (Block.digest P) blocks := by
  have hcheck := h.2
  obtain ⟨blocks, hall, _⟩ := bind_eq_ok.1 hcheck
  refine ⟨blocks, ?_, walks_of_checkLoop ((checkChain_eq_resultZero hall).1 hcheck)⟩
  rwa [h.1] at hall

/-- What the compared row binds is among the blocks of the check. -/
theorem Covered.mem_blocks (hP : P.BoostExact)
    (hcompared : ∀ r ∈ backup.rows, Compared Q backup r → r ∈ host.rows)
    (h : Covered P env Q host backup r b) {blocks : List Block}
    (hall : getAllBlocks P host true (fun i => env.fresh (i + 1)) = .ok blocks)
    (hwalks : Walks (fun b : Block => b.blkNum.toNat) Block.priorHash (Block.digest P) blocks) :
    ∃ c ∈ blocks, c.header = b.header := by
  induction h with
  | @compared r b hr hjson hcomp =>
      refine ⟨b.cut, mem_getAllBlocks hall (hcompared r hr hcomp) fun f => ?_, rfl⟩
      rw [hjson, Block.ofJson_toJson hP]
  | @named r b r' b' _ _ hnum hprior hcoll _ _ ih =>
      obtain ⟨c', hc', hheader⟩ := ih
      obtain ⟨hnum', hprior', _⟩ := Block.header_inj hheader
      have hne : c'.blkNum.toNat ≠ 0 := by
        rw [hnum']
        exact fun hz => hnum (UInt64.toNat_inj.1 hz)
      obtain ⟨c, hc, hdigest⟩ := hwalks.exists_prior hc' hne
      obtain ⟨h, hh, f, hread⟩ := of_mem_getAllBlocks hall hc
      refine ⟨c, hc, hcoll h hh f c hread ?_⟩
      rw [← hdigest, hprior', hprior]

theorem Covered.header_kept (hP : P.BoostExact)
    (hcompared : ∀ r ∈ backup.rows, Compared Q backup r → r ∈ host.rows)
    (h : Covered P env Q host backup r b) : ∃ h ∈ host.rows, HasHeader P b h := by
  have hcov := h
  cases h with
  | compared hr hjson hcomp => exact ⟨r, hcompared r hr hcomp, .of_toJson hP hjson⟩
  | named _ hchecked _ _ _ _ _ =>
      obtain ⟨blocks, hall, hwalks⟩ := hchecked.blocks
      obtain ⟨c, hc, hheader⟩ := hcov.mem_blocks hP hcompared hall hwalks
      obtain ⟨h, hh, f, hread⟩ := of_mem_getAllBlocks hall hc
      exact ⟨h, hh, f, c, hread, hheader⟩

theorem Covered.mem (h : Covered P env Q host backup r b) :
    r ∈ backup.rows ∧ r.json = b.toJson P := by
  cases h with
  | compared hr hjson _ => exact ⟨hr, hjson⟩
  | named _ _ _ _ _ hr hjson => exact ⟨hr, hjson⟩

theorem Intact.of_kept (hP : P.BoostExact) (h : ∀ r ∈ backup.rows, r ∈ host.rows) :
    Intact P env Q host backup where
  legible r hr h' hh _ hid _ := Table.eq_of_id hh (h r hr) hid
  placed r b hcov _ := ⟨r, h r hcov.mem.1, rfl, .of_toJson hP hcov.mem.2⟩
  written r b hcov h' hh hid _ := by
    obtain rfl := Table.eq_of_id hh (h r hcov.mem.1) hid
    exact ⟨rfl, b, hcov.mem.2, rfl, rfl⟩
  uncovered r hr _ _ := h r hr

theorem Unaltered.compared (h : Unaltered P env Q host backup)
    (hrun : databaseBackup Q host backup = some host) (hr : r ∈ backup.rows)
    (hcomp : Compared Q backup r) : r ∈ host.rows := by
  obtain ⟨r', hr', hid, htext⟩ := databaseBackup_compared hrun hr hcomp
  exact h.legible r hr r' hr' hcomp hid htext ▸ hr'

/-- A covered row is found by its header, and the rest of it stands where it was. -/
theorem Unaltered.covered (hP : P.BoostExact) (h : Unaltered P env Q host backup)
    (hrun : databaseBackup Q host backup = some host) (hcov : Covered P env Q host backup r b) :
    r ∈ host.rows := by
  obtain ⟨h', hh, hid, hheader⟩ :=
    h.placed r b hcov (hcov.header_kept hP fun r hr hcomp => h.compared hrun hr hcomp)
  obtain ⟨hhash, c, hjson, htrxs, hsig⟩ := h.written r b hcov h' hh hid hheader
  obtain ⟨f, c', hread, hheader⟩ := hheader
  rw [hjson, Block.ofJson_toJson hP, Except.ok.injEq] at hread
  have hc : c.header = b.header := by
    rw [← hheader, ← hread]
    rfl
  rw [Block.eq_of_header hc htrxs hsig, ← hcov.mem.2] at hjson
  have hrow : h' = r := by
    cases h'
    cases r
    simp only [Row.mk.injEq] at *
    exact ⟨hid, hhash, hjson⟩
  exact hrow ▸ hh

theorem Intact.kept (hP : P.BoostExact) (h : Intact P env Q host backup)
    (hrun : databaseBackup Q host backup = some host) (hr : r ∈ backup.rows) :
    r ∈ host.rows := by
  by_cases hcomp : Compared Q backup r
  · exact h.compared hrun hr hcomp
  by_cases hcov : ∃ b, Covered P env Q host backup r b
  · obtain ⟨b, hcov⟩ := hcov
    exact h.toUnaltered.covered hP hrun hcov
  · exact h.uncovered r hr hcomp fun b hb => hcov ⟨b, hb⟩

end Covers

/-! ## A backup that the node wrote -/

theorem substituted_of_not_mem {out : Str} (h : '\n' ∉ out) : substituted out = out := by
  rw [substituted, List.rdropWhile_eq_self_iff]
  intro hne hlast
  rw [decide_eq_true_iff] at hlast
  exact h (hlast ▸ List.getLast_mem hne)

theorem substituted_line {line : Str} (h : '\n' ∉ line) :
    substituted (line ++ ['\n']) = line := by
  rw [substituted, List.rdropWhile_concat_pos _ _ _ (by decide), ← substituted,
    substituted_of_not_mem h]

theorem compared_of_max {t : Table} (hQ : Q.Faithful) {n : ℕ} (hn : n < 2 ^ 63) {r : Row}
    (hid : r.id = n) (hr : r ∈ t.rows) (hmax : ∀ r' ∈ t.rows, r'.id ≤ r.id) : Compared Q t r := by
  have hmax : (t.rows.map Row.id).max? = some r.id := by
    refine List.max?_eq_some_iff.2 ⟨List.mem_map_of_mem hr, fun id hmem => ?_⟩
    obtain ⟨r', hr', rfl⟩ := List.mem_map.1 hmem
    exact hmax r' hr'
  rw [Compared, selectMaxId, hmax, hid]
  exact hQ.read_print n hn

/-- From the last block of a chain that the node wrote a run covers all of it. -/
theorem HonestChain.covered {P : Platform} {env : Env} {bs : List Block} (h : HonestChain P bs)
    (hrows : backup.rows = bs.map (rowOf P)) (hlen : bs.length < 2 ^ 63) (hQ : Q.Faithful)
    (hchecked : Checked P env host) (hcoll : ∀ b ∈ bs, NoCollision P host b) :
    ∀ r ∈ backup.rows, ∃ b, Covered P env Q host backup r b := by
  have hmem : ∀ {i : ℕ} {b : Block}, bs[i]? = some b → rowOf P b ∈ backup.rows := fun hb =>
    hrows ▸ List.mem_map_of_mem (List.mem_of_getElem? hb)
  -- downwards from the end of the chain
  have hcovered : ∀ (k i : ℕ) (b : Block), bs.length = i + 1 + k → bs[i]? = some b →
      Covered P env Q host backup (rowOf P b) b := by
    intro k
    induction k with
    | zero =>
        intro i b hi hb
        have hnum := h.blkNum_eq hb
        refine .compared (hmem hb) rfl (compared_of_max hQ (n := i) (by omega) ?_ (hmem hb) ?_)
        · rw [rowOf, hnum]
        · intro r' hr'
          rw [hrows] at hr'
          obtain ⟨b', hb', rfl⟩ := List.mem_map.1 hr'
          obtain ⟨j, hj⟩ := List.mem_iff_getElem?.1 hb'
          have hj' := h.blkNum_eq hj
          have := HashChain.lt_of_getElem? hj
          simp only [rowOf]
          omega
    | succ k ih =>
        intro i b hi hb
        have hlt : i + 1 < bs.length := by omega
        have hnext := List.getElem?_eq_getElem hlt
        have hnum := h.blkNum_eq hnext
        have hne : bs[i + 1].blkNum ≠ 0 := by
          intro hz
          rw [hz] at hnum
          exact absurd hnum (by simp)
        exact .named (ih (i + 1) _ (by omega) hnext) hchecked hne
          (h.linked.prior_succ i b _ hb hnext) (hcoll b (List.mem_of_getElem? hb)) (hmem hb) rfl
  intro r hr
  rw [hrows] at hr
  obtain ⟨b, hb, rfl⟩ := List.mem_map.1 hr
  obtain ⟨i, hi⟩ := List.mem_iff_getElem?.1 hb
  have hlt := HashChain.lt_of_getElem? hi
  exact ⟨b, hcovered (bs.length - (i + 1)) i b (by omega) hi⟩

/-! ## What an overwritten backup loses -/

/-- A run that overwrites the backup keeps all its rows exactly when what it does not look at
is intact. Of a backup that the node wrote, the check covers all headers, so nothing is lost
exactly when nothing was altered beside them. -/
theorem backup_kept_iff {P : Platform} (hP : P.BoostExact) (H : HttpPlugin) (D : KeyDerivation)
    (env : ApiEnv) (buf : Buffer) (Q : SqliteShell) (host backup : Table) :
    ((Overwrites H P D env buf Q host backup → ∀ r ∈ backup.rows, r ∈ host.rows) ↔
      (Overwrites H P D env buf Q host backup → Intact P env.toEnv Q host backup)) ∧
    ∀ bs : List Block, HonestChain P bs → backup.rows = bs.map (rowOf P) →
      bs.length < 2 ^ 63 → Q.Faithful → Checked P env.toEnv host →
      (∀ b ∈ bs, NoCollision P host b) →
      (∀ r ∈ backup.rows, ∃ b, Covered P env.toEnv Q host backup r b) ∧
        ((Overwrites H P D env buf Q host backup → ∀ r ∈ backup.rows, r ∈ host.rows) ↔
          (Overwrites H P D env buf Q host backup → Unaltered P env.toEnv Q host backup)) := by
  refine ⟨forall_congr' fun hrun => ⟨fun hkept => Intact.of_kept hP hkept, fun h r hr => ?_⟩,
    fun bs h hrows hlen hQ hchecked hcoll => ?_⟩
  · exact h.kept hP (databaseBackup_of_overwrites hrun) hr
  · have hcovered : ∀ r ∈ backup.rows, ∃ b, Covered P env.toEnv Q host backup r b :=
      h.covered hrows hlen hQ hchecked hcoll
    refine ⟨hcovered, forall_congr' fun hrun =>
      ⟨fun hkept => (Intact.of_kept hP hkept).toUnaltered, fun hsame r hr => ?_⟩⟩
    obtain ⟨b, hb⟩ := hcovered r hr
    exact hsame.covered hP (databaseBackup_of_overwrites hrun) hb

/-! ## A block that lost its transactions -/

namespace Sample

def shell : SqliteShell where
  printId i := (toString i).toList
  readId s := (castUInt64 s).map fun n => n.toNat

def alteredTable : Table :=
  chainTable.setJson 0 ({ block with trxs := [] }.toJson platform)

theorem chainTable_represents : Represents platform [block, nextBlock] (.down chainTable) :=
  .down twoBlocks rfl

theorem rows_alteredTable : alteredTable.rows =
    [{ rowOf platform block with json := { block with trxs := [] }.toJson platform },
      rowOf platform nextBlock] := rfl

theorem row_not_mem : rowOf platform block ∉ alteredTable.rows := by
  intro hmem
  rw [rows_alteredTable, List.mem_pair] at hmem
  rcases hmem with hrow | hrow
  · have hjson : block.toJson platform = { block with trxs := [] }.toJson platform :=
      congrArg Row.json hrow
    have hread := Block.ofJson_toJson boostExact ⟨0, 0⟩ block
    rw [hjson, Block.ofJson_toJson boostExact, Except.ok.injEq] at hread
    exact absurd (congrArg Block.trxs hread) (by decide)
  · exact absurd (congrArg Row.id hrow) (by decide)

theorem databaseBackup_alteredTable :
    databaseBackup shell alteredTable chainTable = some alteredTable := by
  have hmax : shell.readId (substituted (selectMaxId shell chainTable)) =
      some (rowOf platform nextBlock).id := by decide
  have hback := selectById_of_mem (Q := shell) (t := chainTable)
    (List.mem_cons_of_mem _ List.mem_cons_self) hmax
  have hhost := selectById_of_mem (Q := shell) (t := alteredTable)
    (List.mem_cons_of_mem _ List.mem_cons_self) hmax
  simp only [databaseBackup, hback, hhost, ne_eq, not_true_eq_false, if_false]

theorem checkChain_alteredTable : checkChain platform env alteredTable = .ok resultZero := by
  have hok : env.sqlOk 0 = true := rfl
  have hcut : { block with trxs := [] }.cut = { block with trxs := [] } := rfl
  have hall := chainTable_represents.getAllBlocks_setJson boostExact (k := 0)
    (c := { block with trxs := [] }) fun i => env.fresh (i + 1)
  rw [← hok, hcut] at hall
  refine (checkChain_eq_resultZero hall).2 ((checkLoop_set_trxs rfl []).2 ?_)
  rw [twoBlocks.checkLoop_iff]
  intro _ last hlast
  cases hlast
  exact valid_nextBlock

theorem readId_shell (s : Str) : shell.readId s = (castUInt64 s).map fun n => (n.toNat : ℤ) :=
  rfl

theorem printId_shell (n : ℕ) : shell.printId n = decimal n := by
  have hprint : shell.printId n = (Nat.repr n).toList := rfl
  rw [hprint, Nat.repr, String.toList_ofList, decimal]

theorem faithful : shell.Faithful where
  read_print n hn := by
    have hn' : n < UInt64.size := by
      rw [UInt64.size]
      omega
    have hdigits : '\n' ∉ decimal n := fun hmem => absurd (decimal_isDigit _ hmem) (by decide)
    have hread : castUInt64 (decimal (UInt64.ofNat n).toNat) = some (UInt64.ofNat n) :=
      boostExact.cast_inverse (UInt64.ofNat n)
    rw [UInt64.toNat_ofNat_of_lt' hn'] at hread
    rw [printId_shell, substituted_line hdigits, readId_shell, hread, Option.map_some,
      UInt64.toNat_ofNat_of_lt' hn']
  read_nothing := rfl

theorem checked_alteredTable : Checked platform env alteredTable := ⟨rfl, checkChain_alteredTable⟩

theorem overwrites_alteredTable :
    Overwrites http platform derivation ⟨env, 0, [], ⟨.k1, Vector.replicate 32 1⟩⟩ buf shell
      alteredTable chainTable := by
  have hreply : curlCheckChain http platform derivation
      ⟨env, 0, [], ⟨.k1, Vector.replicate 32 1⟩⟩ ⟨buf, alteredTable⟩ =
      toStream platform resultZero :=
    curlCheckChain_of_ok boostExact checkChain_alteredTable
  have hzero : reportsResultZero (toStream platform resultZero) = true := by
    decide
  rw [Overwrites, batch, hreply, if_pos hzero, databaseBackup_alteredTable]

theorem noCollision_alteredTable :
    ∀ b ∈ [block, nextBlock], NoCollision platform alteredTable b := by
  have hread : ∀ r ∈ alteredTable.rows, ∀ f c, Block.ofJson platform f r.json = .ok c →
      c.header = block.header ∨ c.header = nextBlock.header := by
    intro r hr f c hc
    rw [rows_alteredTable, List.mem_pair] at hr
    rcases hr with rfl | rfl
    · rw [Block.ofJson_toJson boostExact, Except.ok.injEq] at hc
      rw [← hc]
      exact Or.inl rfl
    · dsimp only [rowOf] at hc
      rw [Block.ofJson_toJson boostExact, Except.ok.injEq] at hc
      rw [← hc]
      exact Or.inr rfl
  have hne : block.digest platform ≠ nextBlock.digest platform := digest_ne
  intro b hb r hr f c hc hdigest
  rw [Block.digest, Block.digest] at hdigest
  rw [Block.digest, Block.digest] at hne
  rw [List.mem_pair] at hb
  rcases hb with rfl | rfl
  · rcases hread r hr f c hc with h | h
    · exact h
    · rw [h] at hdigest
      exact absurd hdigest.symm hne
  · rcases hread r hr f c hc with h | h
    · rw [h] at hdigest
      exact absurd hdigest hne
    · exact h

end Sample

/-- The table of the two blocks is replaced by one in which a transaction is missing. -/
theorem sample_altered_backup :
    Overwrites Sample.http Sample.platform Sample.derivation
        ⟨Sample.env, 0, [], ⟨.k1, Vector.replicate 32 1⟩⟩ Sample.buf Sample.shell
        Sample.alteredTable Sample.chainTable ∧
      rowOf Sample.platform Sample.block ∈ Sample.chainTable.rows ∧
      rowOf Sample.platform Sample.block ∉ Sample.alteredTable.rows :=
  ⟨Sample.overwrites_alteredTable, List.mem_cons_self, Sample.row_not_mem⟩

/-- All headers of that table are covered, but it is not unaltered. -/
theorem sample_backup_kept :
    ¬ Unaltered Sample.platform Sample.env Sample.shell Sample.alteredTable Sample.chainTable ∧
      ∀ r ∈ Sample.chainTable.rows, ∃ b, Covered Sample.platform Sample.env Sample.shell
        Sample.alteredTable Sample.chainTable r b := by
  obtain ⟨hcovered, hkept⟩ := (backup_kept_iff Sample.boostExact Sample.http Sample.derivation
    ⟨Sample.env, 0, [], ⟨.k1, Vector.replicate 32 1⟩⟩ Sample.buf Sample.shell
    Sample.alteredTable Sample.chainTable).2 _ Sample.twoBlocks rfl (by decide) Sample.faithful
    Sample.checked_alteredTable Sample.noCollision_alteredTable
  refine ⟨fun h => ?_, hcovered⟩
  exact Sample.row_not_mem (hkept.2 (fun _ => h) Sample.overwrites_alteredTable _
    List.mem_cons_self)

end SimpleBlockchain
