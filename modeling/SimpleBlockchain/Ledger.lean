import Mathlib.Data.List.Infix
import SimpleBlockchain.Simulation

/-!
# A ledger

What a block store is for, without hashes, rows, text or memory: a list of blocks that
only grows, and a pool that becomes the next block. What the blocks are, and which block
may come next, is left open.
-/

namespace Ledger

open Transition

variable {τ β : Type*}

structure Rules (τ β : Type*) where
  admits : τ → Prop
  trxs : β → List τ
  follows : List β → β → Prop
  /-- The size up to which a pool can become a block. -/
  maxPool : ℕ

/-- What clients see of a ledger. -/
inductive Event (τ β : Type*)
  | start
  | stop
  | accepted (t : τ)
  | published
  | info (blocks pending : ℕ)
  | block (k : ℕ) (b : Option β)
  | blocks (ks : List ℕ) (bs : List β)
  | allBlocks (bs : List β)
  | checked (passed : Bool)

inductive State (τ β : Type*)
  | down (blocks : List β)
  | up (blocks : List β) (pending : List τ)

def State.blocks : State τ β → List β
  | .down bs => bs
  | .up bs _ => bs

def State.pending : State τ β → List τ
  | .down _ => []
  | .up _ pending => pending

/-- A block that was not numbered yet is not found, and a stop forgets the pool. -/
inductive Step (R : Rules τ β) : State τ β → Event τ β → State τ β → Prop
  | start (bs) : Step R (.down bs) .start (.up bs [])
  | stop (bs pending) : Step R (.up bs pending) .stop (.down bs)
  | accepted (bs pending t) : R.admits t →
      Step R (.up bs pending) (.accepted t) (.up bs (pending ++ [t]))
  | published (bs pending b) : R.follows bs b → R.trxs b = pending →
      pending.length ≤ R.maxPool → Step R (.up bs pending) .published (.up (bs ++ [b]) [])
  | info (bs pending) :
      Step R (.up bs pending) (.info bs.length pending.length) (.up bs pending)
  | block (bs pending k) : Step R (.up bs pending) (.block k bs[k]?) (.up bs pending)
  | blocks (bs pending ks) : ks ≠ [] →
      Step R (.up bs pending) (.blocks ks (ks.filterMap (bs[·]?))) (.up bs pending)
  | allBlocks (bs pending) : Step R (.up bs pending) (.allBlocks bs) (.up bs pending)
  | checked (bs pending) : Step R (.up bs pending) (.checked true) (.up bs pending)

def lts (R : Rules τ β) : Lts (State τ β) (Event τ β) where
  initial s := s = .down []
  step := Step R

variable {R : Rules τ β} {s s' : State τ β} {e : Event τ β} {es fs : List (Event τ β)}

/-! ## The blocks -/

theorem Step.blocks_cases (h : Step R s e s') : s'.blocks = s.blocks ∨
    ∃ b, e = .published ∧ R.follows s.blocks b ∧ R.trxs b = s.pending ∧
      s'.blocks = s.blocks ++ [b] := by
  cases h with
  | published bs pending b hb htrxs hlen => exact Or.inr ⟨b, rfl, hb, htrxs, rfl⟩
  | _ => exact Or.inl rfl

theorem Step.extends (h : Step R s e s') : s.blocks <+: s'.blocks := by
  rcases h.blocks_cases with heq | ⟨b, _, _, _, heq⟩
  · rw [heq]
  · rw [heq]
    exact List.prefix_append s.blocks [b]

theorem extends_of_path (h : (lts R).Path s es s') : s.blocks <+: s'.blocks := by
  apply h.rel (R := fun s s' => s.blocks <+: s'.blocks)
  · exact fun s => List.prefix_rfl
  · intro s m e s' hm hstep
    exact hm.trans (Step.extends hstep)

/-- Every block was one that could follow the blocks before it, and holds admitted
transactions. -/
structure WellFormed (R : Rules τ β) (bs : List β) : Prop where
  follows : ∀ (i : ℕ) b, bs[i]? = some b → R.follows (bs.take i) b
  admits : ∀ b ∈ bs, ∀ t ∈ R.trxs b, R.admits t

theorem wellFormed_nil : WellFormed R [] where
  follows i b h := by simp at h
  admits b h := absurd h List.not_mem_nil

theorem WellFormed.concat {bs : List β} {b : β} (h : WellFormed R bs) (hb : R.follows bs b)
    (hadm : ∀ t ∈ R.trxs b, R.admits t) : WellFormed R (bs ++ [b]) where
  follows i c hc := by
    by_cases hi : i < bs.length
    · rw [List.getElem?_append_left hi] at hc
      rw [List.take_append_of_le_length hi.le]
      exact h.follows i c hc
    · rw [List.getElem?_append_right (Nat.le_of_not_lt hi), List.getElem?_singleton] at hc
      split at hc
      next hzero =>
        cases hc
        rw [show i = bs.length by omega, List.take_left]
        exact hb
      · cases hc
  admits c hc := by
    rcases List.mem_append.1 hc with hc | hc
    · exact h.admits c hc
    · rwa [List.mem_singleton.1 hc]

structure Inv (R : Rules τ β) (s : State τ β) : Prop where
  wellFormed : WellFormed R s.blocks
  pending : ∀ t ∈ s.pending, R.admits t

theorem Step.inv (h : Step R s e s') (hs : Inv R s) : Inv R s' := by
  cases h with
  | start bs => exact ⟨hs.wellFormed, fun t ht => absurd ht List.not_mem_nil⟩
  | stop bs pending => exact ⟨hs.wellFormed, fun t ht => absurd ht List.not_mem_nil⟩
  | accepted bs pending t ht =>
      refine ⟨hs.wellFormed, fun u hu => ?_⟩
      rcases List.mem_append.1 hu with hu | hu
      · exact hs.pending u hu
      · rwa [List.mem_singleton.1 hu]
  | published bs pending b hb htrxs hlen =>
      subst htrxs
      exact ⟨hs.wellFormed.concat hb hs.pending, fun t ht => absurd ht List.not_mem_nil⟩
  | _ => exact hs

theorem inv_of_run (h : (lts R).Run es s) : Inv R s := by
  apply h.invariant (I := fun _ s => Inv R s)
  · intro s hs
    have hs : s = .down [] := hs
    subst hs
    exact ⟨wellFormed_nil, fun t ht => absurd ht List.not_mem_nil⟩
  · exact fun hI hstep => Step.inv hstep hI

/-! ## The transactions -/

/-- The transactions of the blocks and the pool after one event, as far as the event
tells. -/
def Event.record (h : List (List τ) × List τ) : Event τ β → List (List τ) × List τ
  | .start | .stop => (h.1, [])
  | .accepted t => (h.1, h.2 ++ [t])
  | .published => (h.1 ++ [h.2], [])
  | _ => h

/-- The transactions of the blocks and the pool, as a trace tells. -/
def history (es : List (Event τ β)) : List (List τ) × List τ := es.foldl Event.record ([], [])

theorem history_concat (es : List (Event τ β)) (e : Event τ β) :
    history (es ++ [e]) = e.record (history es) := by
  rw [history, List.foldl_append]
  rfl

theorem Step.record (h : Step R s e s') :
    (s'.blocks.map R.trxs, s'.pending) = e.record (s.blocks.map R.trxs, s.pending) := by
  cases h with
  | published bs pending b hb htrxs hlen =>
      simp only [State.blocks, State.pending, Event.record, List.map_append, List.map_singleton,
        htrxs]
  | _ => rfl

/-- What the blocks hold is determined by the accepted transactions, the publications and
the stops. -/
theorem history_of_run (h : (lts R).Run es s) :
    (s.blocks.map R.trxs, s.pending) = history es := by
  apply h.invariant (I := fun es s => (s.blocks.map R.trxs, s.pending) = history es)
  · intro s hs
    have hs : s = .down [] := hs
    subst hs
    rfl
  · intro es s e s' hI hstep
    rw [Step.record hstep, hI, history_concat]

/-- What an event says, in a state whose blocks and pool hold these transactions. -/
def Event.Tells (R : Rules τ β) (h : List (List τ) × List τ) : Event τ β → Prop
  | .start => h.2 = []
  | .stop => True
  | .accepted t => R.admits t
  | .published => h.2.length ≤ R.maxPool
  | .info n m => n = h.1.length ∧ m = h.2.length
  | .block k b => b.map R.trxs = h.1[k]?
  | .blocks ks bs => bs.map R.trxs = ks.filterMap (h.1[·]?)
  | .allBlocks bs => bs.map R.trxs = h.1
  | .checked passed => passed = true

theorem Step.tells (h : Step R s e s') : e.Tells R (s.blocks.map R.trxs, s.pending) := by
  cases h with
  | start bs => exact rfl
  | stop bs pending => exact trivial
  | accepted bs pending t ht => exact ht
  | published bs pending b hb htrxs hlen => exact hlen
  | info bs pending => exact ⟨(List.length_map R.trxs).symm, rfl⟩
  | block bs pending k => exact List.getElem?_map.symm
  | blocks bs pending ks _ =>
      simp only [Event.Tells, State.blocks, List.map_filterMap, List.getElem?_map]
  | allBlocks bs pending => exact rfl
  | checked bs pending => exact rfl

theorem tells_of_run (h : (lts R).Run (es ++ [e]) s') : e.Tells R (history es) := by
  obtain ⟨s, hs, hstep⟩ := h.last
  rw [← history_of_run hs]
  exact Step.tells hstep

/-! ## What clients are shown -/

/-- What an event shows of blocks are these blocks. -/
def Event.Shows (cs : List β) : Event τ β → Prop
  | .block k b => b = cs[k]?
  | .blocks ks bs => bs = ks.filterMap (cs[·]?)
  | .allBlocks bs => bs = cs
  | .start | .stop | .accepted _ | .published | .info _ _ | .checked _ => True

theorem Step.shows (h : Step R s e s') : e.Shows s'.blocks := by
  cases h with
  | block bs pending k => exact rfl
  | blocks bs pending ks _ => exact rfl
  | allBlocks bs pending => exact rfl
  | _ => exact trivial

/-- Every event shows what were the first blocks of the chain at the end. -/
theorem shows_of_run (h : (lts R).Run es s) (he : e ∈ es) :
    ∃ cs, cs <+: s.blocks ∧ e.Shows cs := by
  obtain ⟨fs, gs, rfl⟩ := List.append_of_mem he
  rw [List.append_cons] at h
  obtain ⟨m, hm, hpath⟩ := h.split
  obtain ⟨m', _, hstep⟩ := hm.last
  exact ⟨m.blocks, extends_of_path hpath, Step.shows hstep⟩

def Event.Carries (R : Rules τ β) (t : τ) : Event τ β → Prop
  | .accepted u => u = t
  | .block _ b => ∃ c, b = some c ∧ t ∈ R.trxs c
  | .blocks _ bs => ∃ c ∈ bs, t ∈ R.trxs c
  | .allBlocks bs => ∃ c ∈ bs, t ∈ R.trxs c
  | _ => False

theorem Step.admits_of_carries (h : Step R s e s') (hs : Inv R s) {t : τ}
    (ht : e.Carries R t) : R.admits t := by
  cases h with
  | accepted bs pending u hu =>
      have hut : u = t := ht
      rwa [← hut]
  | block bs pending k =>
      obtain ⟨c, hc, ht⟩ := ht
      exact hs.wellFormed.admits c (List.mem_of_getElem? hc) t ht
  | blocks bs pending ks _ =>
      obtain ⟨c, hc, ht⟩ := ht
      obtain ⟨k, _, hk⟩ := List.mem_filterMap.1 hc
      exact hs.wellFormed.admits c (List.mem_of_getElem? hk) t ht
  | allBlocks bs pending =>
      obtain ⟨c, hc, ht⟩ := ht
      exact hs.wellFormed.admits c hc t ht
  | _ => exact ht.elim

theorem admits_of_carried (h : (lts R).Run es s) (he : e ∈ es) {t : τ} (ht : e.Carries R t) :
    R.admits t := by
  obtain ⟨fs, gs, rfl⟩ := List.append_of_mem he
  rw [List.append_cons] at h
  obtain ⟨m, hm, _⟩ := h.split
  obtain ⟨m', hm', hstep⟩ := hm.last
  exact Step.admits_of_carries hstep (inv_of_run hm') ht

/-! ## One transaction -/

def State.Records (R : Rules τ β) (t : τ) (s : State τ β) : Prop :=
  ∃ b ∈ s.blocks, t ∈ R.trxs b

def State.Holds (R : Rules τ β) (t : τ) (s : State τ β) : Prop :=
  t ∈ s.pending ∨ s.Records R t

theorem Step.records (h : Step R s e s') {t : τ} (ht : s.Records R t) : s'.Records R t := by
  obtain ⟨b, hb, ht⟩ := ht
  exact ⟨b, h.extends.subset hb, ht⟩

/-- Only a stop loses a transaction. -/
theorem Step.holds (h : Step R s e s') (he : e ≠ .stop) {t : τ} (ht : s.Holds R t) :
    s'.Holds R t := by
  rcases ht with ht | ht
  · cases h with
    | start bs => exact absurd ht List.not_mem_nil
    | stop bs pending => exact absurd rfl he
    | accepted bs pending u hu => exact Or.inl (List.mem_append_left _ ht)
    | published bs pending b hb htrxs hlen =>
        refine Or.inr ⟨b, List.mem_append_right _ (List.mem_singleton_self b), ?_⟩
        rw [htrxs]
        exact ht
    | _ => exact Or.inl ht
  · exact Or.inr (h.records ht)

end Ledger
