import Mathlib.Data.List.Sort
import SimpleBlockchain.Block

/-!
# The block table

One table with a primary key. Whether a statement succeeds is up to sqlite,
except that a row whose key is taken is never inserted; what a failed statement
does to the caller is up to the plugin, which logs the error and goes on.
-/

namespace SimpleBlockchain

structure Row where
  id : ℤ
  hash : Str
  json : Str
deriving DecidableEq

/-- The rows in the order of their insertion. -/
@[ext]
structure Table where
  rows : List Row
  primaryKey : (rows.map Row.id).Nodup

/-- What a call meets that its arguments do not determine: the fate of its SQL
statements and the contents of the blocks it default-constructs, in their order. -/
structure Env where
  sqlOk : ℕ → Bool
  fresh : ℕ → Fresh

def Env.Succeeds (env : Env) : Prop := ∀ i, env.sqlOk i = true

/-- The number that sqlite takes a decimal literal for. A literal that exceeds 63
bits is a double. Its last digit is taken for a zero, and then the nearest multiple of 2048
for the number, the even one of two. -/
def sqliteInteger (n : UInt64) : ℤ :=
  if n.toNat < 2 ^ 63 then n.toNat
  else
    let n := n.toNat / 10 * 10
    let q := n / 2048
    let r := n % 2048
    if r < 1024 ∨ (r = 1024 ∧ q % 2 = 0) then q * 2048 else (q + 1) * 2048

namespace Table

def empty : Table := ⟨[], List.nodup_nil⟩

/-- `INSERT`, with whether it returned `SQLITE_OK`. -/
def insert (t : Table) (ok : Bool) (row : Row) : Table × Bool :=
  if h : ok = true ∧ row.id ∉ t.rows.map Row.id then
    (⟨t.rows ++ [row], by simpa [List.nodup_append] using ⟨t.primaryKey, by simpa using h.2⟩⟩, true)
  else (t, false)

def sorted (t : Table) : List Row := t.rows.insertionSort fun r s => r.id ≤ s.id

end Table

def appendBlock (P : Platform) (t : Table) (ok : Bool) (block : Block) : Table × Bool :=
  t.insert ok ⟨sqliteInteger block.blkNum, toHex (block.digest P).toList 32, block.toJson P⟩

/-- The rows that `get_block_callback` receives, each read into a fresh block. -/
def tmpBlks (P : Platform) (fresh : ℕ → Fresh) (rows : List Row) : Except Exn (List Block) :=
  rows.zipIdx.mapM fun r => Block.ofJson P (fresh r.2) r.1.json

def getBlock (P : Platform) (t : Table) (ok : Bool) (fresh : ℕ → Fresh) (num : UInt64) :
    Except Exn (Option Block) :=
  if ok then do
    let blks ← tmpBlks P fresh (t.rows.filter (·.id = sqliteInteger num))
    .ok blks.head?
  else .ok none

def getBlockCount (t : Table) (ok : Bool) : UInt64 :=
  if ok then UInt64.ofNat t.rows.length else 0

def getAllBlocks (P : Platform) (t : Table) (ok : Bool) (fresh : ℕ → Fresh) :
    Except Exn (List Block) :=
  if ok then tmpBlks P fresh t.sorted else .ok []

/-! ## What the statements do -/

theorem Table.insert_ok {t : Table} {ok : Bool} {row : Row} (h : (t.insert ok row).2 = true) :
    ok = true ∧ row.id ∉ t.rows.map Row.id ∧ (t.insert ok row).1.rows = t.rows ++ [row] := by
  by_cases hfree : ok = true ∧ row.id ∉ t.rows.map Row.id
  · refine ⟨hfree.1, hfree.2, ?_⟩
    rw [insert, dif_pos hfree]
  · rw [insert, dif_neg hfree] at h
    cases h

theorem Table.insert_of_free {t : Table} {row : Row} (h : row.id ∉ t.rows.map Row.id) :
    (t.insert true row).2 = true := by
  rw [insert, dif_pos ⟨rfl, h⟩]

theorem Table.insert_failed {t : Table} {ok : Bool} {row : Row}
    (h : (t.insert ok row).2 = false) : (t.insert ok row).1 = t := by
  by_cases hfree : ok = true ∧ row.id ∉ t.rows.map Row.id
  · rw [insert, dif_pos hfree] at h
    cases h
  · rw [insert, dif_neg hfree]

/-- Literals of up to 63 bits are exact, and so is the first one above. -/
theorem sqliteInteger_eq {n : UInt64} (h : n.toNat ≤ 2 ^ 63) : sqliteInteger n = n.toNat := by
  unfold sqliteInteger
  split
  · rfl
  · have hn : n.toNat = 2 ^ 63 := by omega
    rw [hn]
    decide

theorem sqliteInteger_inj {n m : UInt64} (h : n.toNat < 2 ^ 63)
    (heq : sqliteInteger m = sqliteInteger n) : m = n := by
  rw [sqliteInteger_eq h.le] at heq
  by_cases hm : m.toNat < 2 ^ 63
  · rw [sqliteInteger_eq hm.le] at heq
    exact UInt64.toNat_inj.1 (by omega)
  · rw [sqliteInteger, if_neg hm] at heq
    dsimp only at heq
    split at heq <;> omega

/-- The number after it is rounded down to it. -/
theorem sqliteInteger_rounded {n : UInt64} (h : n.toNat = 2 ^ 63 + 1) :
    sqliteInteger n = 2 ^ 63 := by
  rw [sqliteInteger, h]
  decide

theorem tmpBlks_of_json {P : Platform} (hP : P.BoostExact) (fresh : ℕ → Fresh) {rows : List Row}
    {bs : List Block} (h : rows.map Row.json = bs.map (Block.toJson P)) :
    tmpBlks P fresh rows = .ok (bs.map Block.cut) := by
  unfold tmpBlks
  generalize 0 = k
  induction rows generalizing bs k with
  | nil =>
      rw [List.map_nil, eq_comm, List.map_eq_nil_iff] at h
      rw [h]
      rfl
  | cons r rows ih =>
      cases bs with
      | nil => simp at h
      | cons b bs =>
          rw [List.map_cons, List.map_cons, List.cons.injEq] at h
          rw [List.zipIdx_cons, List.mapM_cons, h.1, Block.ofJson_toJson hP, ok_bind, ih h.2,
            ok_bind]
          rfl

theorem mem_tmpBlks {P : Platform} {fresh : ℕ → Fresh} {rows : List Row} {bs : List Block}
    (h : tmpBlks P fresh rows = .ok bs) {row : Row} (hrow : row ∈ rows) {b : Block}
    (hb : ∀ f, Block.ofJson P f row.json = .ok b) : b ∈ bs := by
  unfold tmpBlks at h
  revert h
  generalize 0 = k
  intro h
  induction rows generalizing bs k with
  | nil => cases hrow
  | cons r rows ih =>
      rw [List.zipIdx_cons, List.mapM_cons] at h
      obtain ⟨c, hc, h⟩ := bind_eq_ok.1 h
      obtain ⟨cs, hcs, h⟩ := bind_eq_ok.1 h
      cases h
      rcases List.mem_cons.1 hrow with rfl | hrow
      · rw [hb, Except.ok.injEq] at hc
        rw [hc]
        exact List.mem_cons_self
      · exact List.mem_cons_of_mem c (ih hrow (k + 1) hcs)

theorem of_mem_tmpBlks {P : Platform} {fresh : ℕ → Fresh} {rows : List Row} {bs : List Block}
    (h : tmpBlks P fresh rows = .ok bs) {b : Block} (hb : b ∈ bs) :
    ∃ row ∈ rows, ∃ f, Block.ofJson P f row.json = .ok b := by
  unfold tmpBlks at h
  revert h
  generalize 0 = k
  intro h
  induction rows generalizing bs k with
  | nil =>
      cases h
      cases hb
  | cons r rows ih =>
      rw [List.zipIdx_cons, List.mapM_cons] at h
      obtain ⟨c, hc, h⟩ := bind_eq_ok.1 h
      obtain ⟨cs, hcs, h⟩ := bind_eq_ok.1 h
      cases h
      rcases List.mem_cons.1 hb with rfl | hb
      · exact ⟨r, List.mem_cons_self, _, hc⟩
      · obtain ⟨row, hrow, hread⟩ := ih hb (k + 1) hcs
        exact ⟨row, List.mem_cons_of_mem r hrow, hread⟩

theorem filter_key {α κ : Type} [DecidableEq κ] {key : α → κ} {l : List α}
    (hl : (l.map key).Nodup) {a : α} (ha : a ∈ l) : l.filter (key · = key a) = [a] := by
  induction l with
  | nil => cases ha
  | cons b l ih =>
      rw [List.map_cons, List.nodup_cons] at hl
      rcases List.mem_cons.1 ha with rfl | ha
      · rw [List.filter_cons_of_pos (by simp), List.filter_eq_nil_iff.2]
        intro c hc hkey
        rw [decide_eq_true_iff] at hkey
        exact hl.1 (hkey ▸ List.mem_map_of_mem hc)
      · rw [List.filter_cons_of_neg, ih hl.2 ha]
        intro hkey
        rw [decide_eq_true_iff] at hkey
        exact hl.1 (hkey ▸ List.mem_map_of_mem ha)

theorem getBlock_of_mem (P : Platform) {t : Table} {r : Row} (hr : r ∈ t.rows) {num : UInt64}
    (hid : r.id = sqliteInteger num) (fresh : ℕ → Fresh) :
    getBlock P t true fresh num = (Block.ofJson P (fresh 0) r.json).map some := by
  have hfilter := filter_key t.primaryKey hr
  rw [hid] at hfilter
  rw [getBlock, if_pos rfl, hfilter, tmpBlks]
  simp only [List.zipIdx_cons, List.zipIdx_nil, List.mapM_cons, List.mapM_nil]
  cases Block.ofJson P (fresh 0) r.json <;> rfl

theorem getBlock_of_not_mem (P : Platform) {t : Table} {num : UInt64}
    (hid : sqliteInteger num ∉ t.rows.map Row.id) (ok : Bool) (fresh : ℕ → Fresh) :
    getBlock P t ok fresh num = .ok none := by
  have hfilter : t.rows.filter (·.id = sqliteInteger num) = [] := by
    rw [List.filter_eq_nil_iff]
    intro r hr hkey
    rw [decide_eq_true_iff] at hkey
    exact hid (hkey ▸ List.mem_map_of_mem hr)
  rw [getBlock, hfilter]
  cases ok <;> rfl

theorem Table.sorted_eq {t : Table} (h : (t.rows.map Row.id).Pairwise (· < ·)) :
    t.sorted = t.rows := by
  apply List.Pairwise.insertionSort_eq
  rw [List.pairwise_map] at h
  exact h.imp fun hlt => hlt.le

theorem mem_getAllBlocks {P : Platform} {fresh : ℕ → Fresh} {t : Table} {bs : List Block}
    (h : getAllBlocks P t true fresh = .ok bs) {row : Row} (hrow : row ∈ t.rows) {b : Block}
    (hb : ∀ f, Block.ofJson P f row.json = .ok b) : b ∈ bs := by
  rw [getAllBlocks, if_pos rfl] at h
  exact mem_tmpBlks h ((List.mem_insertionSort _).2 hrow) hb

theorem of_mem_getAllBlocks {P : Platform} {fresh : ℕ → Fresh} {t : Table} {bs : List Block}
    (h : getAllBlocks P t true fresh = .ok bs) {b : Block} (hb : b ∈ bs) :
    ∃ row ∈ t.rows, ∃ f, Block.ofJson P f row.json = .ok b := by
  rw [getAllBlocks, if_pos rfl] at h
  obtain ⟨row, hrow, hread⟩ := of_mem_tmpBlks h hb
  exact ⟨row, (List.mem_insertionSort _).1 hrow, hread⟩

theorem getAllBlocks_of_json {P : Platform} (hP : P.BoostExact) (fresh : ℕ → Fresh) {t : Table}
    {bs : List Block} (hids : (t.rows.map Row.id).Pairwise (· < ·))
    (h : t.rows.map Row.json = bs.map (Block.toJson P)) :
    getAllBlocks P t true fresh = .ok (bs.map Block.cut) := by
  rw [getAllBlocks, if_pos rfl, t.sorted_eq hids, tmpBlks_of_json hP fresh h]

end SimpleBlockchain
