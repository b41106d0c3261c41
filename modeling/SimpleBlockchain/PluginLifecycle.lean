import Mathlib.Data.List.Nodup
import Mathlib.Logic.Function.Basic
import Mathlib.Logic.Relation

/-!
# Plugins that require each other

A plugin is initialised after the plugins that it requires, started after they are
started, and shut down in the reverse order of the starts. Both recursions are cut off by
the phase that a plugin is in, which is set before its requirements are visited.
-/

namespace Lifecycle

/-- Plugins and what each one requires, without cycles. -/
structure Dependencies (α : Type*) where
  requires : α → List α
  rank : α → ℕ
  acyclic : ∀ p, ∀ q ∈ requires p, rank q < rank p

inductive Phase
  | registered
  | initialized
  | started
  | stopped
deriving DecidableEq

/-- The moments at which the code of a plugin runs after its initialisation. -/
inductive Event (α : Type*)
  | startup (p : α)
  | handle (p : α)
  | shutdown (p : α)
deriving DecidableEq

structure State (α : Type*) where
  phase : α → Phase
  initialized : List α
  running : List α
  trace : List (Event α)

/-- What a run meets: the plugins whose initialisation or start throws, after how many
starts the application is told to quit, and the plugins that have something to do while it
is running. -/
structure Circumstances (α : Type*) where
  initThrows : α → Bool
  startThrows : α → Bool
  quitAfter : ℕ
  handled : List α

section Definitions

variable {α : Type*} [DecidableEq α]

def State.fresh : State α := ⟨fun _ => .registered, [], [], []⟩

def State.setPhase (s : State α) (p : α) (phase : Phase) : State α :=
  { s with phase := Function.update s.phase p phase }

def each (f : α → State α → State α × Bool) : List α → State α → State α × Bool
  | [], s => (s, true)
  | p :: ps, s =>
      match f p s with
      | (s, true) => each f ps s
      | (s, false) => (s, false)

variable (D : Dependencies α)

/-- The initialisation of a plugin, and whether it returns. The depth of the recursion
stays below any bound on the rank. -/
def initPlugin (throws : α → Bool) : ℕ → α → State α → State α × Bool
  | 0, _, s => (s, false)
  | n + 1, p, s =>
      if s.phase p = .registered then
        match each (initPlugin throws n) (D.requires p) (s.setPhase p .initialized) with
        | (s, true) =>
            if throws p then (s, false)
            else ({ s with initialized := s.initialized ++ [p] }, true)
        | (s, false) => (s, false)
      else (s, true)

def startPlugin (throws : α → Bool) : ℕ → α → State α → State α × Bool
  | 0, _, s => (s, false)
  | n + 1, p, s =>
      if s.phase p = .initialized then
        match each (startPlugin throws n) (D.requires p) (s.setPhase p .started) with
        | (s, true) =>
            if throws p then ({ s with trace := s.trace ++ [.startup p] }, false)
            else ({ s with trace := s.trace ++ [.startup p], running := s.running ++ [p] }, true)
        | (s, false) => (s, false)
      else (s, true)

def initAll (throws : α → Bool) : List α → State α → State α × Bool :=
  each fun p => initPlugin D throws (D.rank p + 1) p

/-- The loop over the initialised plugins, which stops when it was told to quit. -/
def startAll (throws : α → Bool) : ℕ → List α → State α → State α × Bool
  | _, [], s => (s, true)
  | 0, _ :: _, s => (s, true)
  | k + 1, p :: ps, s =>
      match startPlugin D throws (D.rank p + 1) p s with
      | (s, true) => startAll throws k ps s
      | (s, false) => (s, false)

/-- What the running plugins do before the application quits. -/
def State.exec (handled : List α) (s : State α) : State α :=
  { s with trace := s.trace ++ (handled.filter (· ∈ s.running)).map .handle }

def stopPlugin (s : State α) (p : α) : State α :=
  if s.phase p = .started then
    { s.setPhase p .stopped with trace := s.trace ++ [.shutdown p] }
  else s

def State.shutdownAll (s : State α) : State α :=
  { s.running.reverse.foldl stopPlugin s with initialized := [], running := [] }

/-- A run of an application that initialises the given plugins. -/
def run (c : Circumstances α) (order : List α) : List (Event α) :=
  match initAll D c.initThrows order .fresh with
  | (_, false) => []
  | (s, true) =>
      match startAll D c.startThrows c.quitAfter s.initialized s with
      | (s, true) => (s.exec c.handled).shutdownAll.trace
      | (s, false) => s.shutdownAll.trace

theorem setPhase_self (s : State α) (p : α) (phase : Phase) :
    (s.setPhase p phase).phase p = phase :=
  Function.update_self ..

theorem setPhase_of_ne (s : State α) {p q : α} (h : q ≠ p) (phase : Phase) :
    (s.setPhase p phase).phase q = s.phase q :=
  Function.update_of_ne h _ _

end Definitions

/-! ## The order of the initialisations -/

section Order

variable {α : Type*} (D : Dependencies α)

def DependencyFirst (l : List α) : Prop :=
  ∀ before p after, l = before ++ p :: after → ∀ q ∈ D.requires p, q ∈ before

def Needs : α → α → Prop := Relation.ReflTransGen fun p q => q ∈ D.requires p

/-- A list of plugins for an order of initialisations: what was asked for with all that it
needs, and in front of the rest what was asked for up to any moment with all that this
needs. -/
structure Arranges (order l : List α) : Prop where
  nodup : l.Nodup
  ordered : DependencyFirst D l
  mem : ∀ q, q ∈ l ↔ ∃ p ∈ order, Needs D p q
  covers : ∀ asked, asked <+: order → ∃ done, done <+: l ∧
    ∀ q, q ∈ done ↔ ∃ p ∈ asked, Needs D p q

variable {D}

theorem append_eq_append_cons {β : Type*} {xs ys before after : List β} {e : β}
    (h : xs ++ ys = before ++ e :: after) :
    (∃ mid, xs = before ++ e :: mid ∧ after = mid ++ ys) ∨
      ∃ mid, before = xs ++ mid ∧ ys = mid ++ e :: after := by
  rcases List.append_eq_append_iff.1 h with ⟨mid, hbefore, hys⟩ | ⟨mid, hxs, hmid⟩
  · exact Or.inr ⟨mid, hbefore, hys⟩
  · cases mid with
    | nil => exact Or.inr ⟨[], by simpa using hxs.symm, hmid.symm⟩
    | cons x mid =>
        cases hmid
        exact Or.inl ⟨mid, hxs, rfl⟩

theorem dependencyFirst_nil : DependencyFirst D [] := by
  intro before p after h
  cases before <;> cases h

theorem DependencyFirst.append_singleton {l : List α} (h : DependencyFirst D l) {p : α}
    (hp : ∀ q ∈ D.requires p, q ∈ l) : DependencyFirst D (l ++ [p]) := by
  intro before p' after hl q hq
  rcases append_eq_append_cons hl with ⟨mid, hl', _⟩ | ⟨mid, hbefore, hmid⟩
  · exact h before p' mid hl' q hq
  · cases mid with
    | nil =>
        cases hmid
        rw [hbefore, List.append_nil]
        exact hp q hq
    | cons x mid =>
        have hnil := (List.cons.inj hmid).2
        simp at hnil

theorem DependencyFirst.of_prefix {l l' : List α} (h : DependencyFirst D l) (hl : l' <+: l) :
    DependencyFirst D l' := by
  obtain ⟨rest, rfl⟩ := hl
  intro before p after hl' q hq
  subst hl'
  exact h before p (after ++ rest) (by simp) q hq

theorem DependencyFirst.needs_mem {l : List α} (h : DependencyFirst D l) {p q : α}
    (hp : p ∈ l) (hpq : Needs D p q) : q ∈ l := by
  induction hpq with
  | refl => exact hp
  | tail _ hstep ih =>
      obtain ⟨before, after, hl⟩ := List.append_of_mem ih
      rw [hl]
      exact List.mem_append_left _ (h before _ after hl _ hstep)

theorem Needs.rank_le {p q : α} (h : Needs D p q) : D.rank q ≤ D.rank p := by
  induction h with
  | refl => exact Nat.le_refl _
  | tail _ hstep ih => exact Nat.le_trans (Nat.le_of_lt (D.acyclic _ _ hstep)) ih

theorem Needs.cases {p q : α} : Needs D p q ↔ q = p ∨ ∃ r ∈ D.requires p, Needs D r q := by
  rw [Needs, Relation.ReflTransGen.cases_head_iff, eq_comm]

/-- A plugin that requires nothing comes before what nothing needs that was asked for
earlier. -/
theorem Arranges.not_mem_front {order l before after : List α} {p q : α}
    (h : Arranges D order l) (horder : order = before ++ p :: after) (hp : D.requires p = [])
    (hqp : q ≠ p) (hbefore : ∀ r ∈ before, ¬ Needs D r q) :
    ∃ front back, l = front ++ p :: back ∧ q ∉ front := by
  obtain ⟨done, ⟨rest, hl⟩, hdone⟩ := h.covers (before ++ [p]) ⟨after, by simp [horder]⟩
  have hpdone : p ∈ done := (hdone p).2 ⟨p, by simp, .refl⟩
  have hqdone : q ∉ done := by
    rw [hdone]
    rintro ⟨r, hr, hneed⟩
    rcases List.mem_append.1 hr with hr | hr
    · exact hbefore r hr hneed
    · rw [List.mem_singleton.1 hr] at hneed
      rcases Needs.cases.1 hneed with heq | ⟨r, hr, _⟩
      · exact hqp heq
      · rw [hp] at hr
        cases hr
  obtain ⟨front, back, hfront⟩ := List.append_of_mem hpdone
  refine ⟨front, back ++ rest, ?_, fun hq => hqdone ?_⟩
  · rw [← hl, hfront, List.append_assoc]
    rfl
  · rw [hfront]
    exact List.mem_append_left _ hq

/-- A plugin that nothing else needs comes behind what is needed by something that was
asked for before it each time. -/
theorem Arranges.mem_front {order l front back : List α} {p q : α} (h : Arranges D order l)
    (hp : ∀ r, Needs D r p → r = p)
    (hbefore : ∀ before after, order = before ++ p :: after → ∃ r ∈ before, Needs D r q)
    (hl : l = front ++ p :: back) : q ∈ front := by
  have hporder : p ∈ order := by
    obtain ⟨r, hr, hneed⟩ := (h.mem p).1 (hl ▸ List.mem_append_right _ List.mem_cons_self)
    rw [hp r hneed] at hr
    exact hr
  obtain ⟨before, after, horder, hfirst⟩ := List.eq_append_cons_of_mem hporder
  obtain ⟨done, ⟨rest, hrest⟩, hdone⟩ := h.covers before ⟨p :: after, horder.symm⟩
  have hqdone : q ∈ done := (hdone q).2 (hbefore before after horder)
  have hpdone : p ∉ done := by
    rw [hdone]
    rintro ⟨r, hr, hneed⟩
    exact hfirst (hp r hneed ▸ hr)
  rcases append_eq_append_cons (hrest.trans hl) with ⟨mid, hdone', _⟩ | ⟨mid, hfront, _⟩
  · exact absurd (hdone' ▸ List.mem_append_right _ List.mem_cons_self) hpdone
  · rw [hfront]
    exact List.mem_append_left _ hqdone

theorem each_append {f : α → State α → State α × Bool} {ps qs : List α} {s s'' : State α}
    (h : each f (ps ++ qs) s = (s'', true)) :
    ∃ s', each f ps s = (s', true) ∧ each f qs s' = (s'', true) := by
  induction ps generalizing s with
  | nil => exact ⟨s, rfl, h⟩
  | cons p ps ih =>
      rw [List.cons_append, each] at h
      rw [each]
      cases hf : f p s with
      | mk t ok =>
          rw [hf] at h
          cases ok with
          | false => cases h
          | true => exact ih h

theorem each_returns {f : α → State α → State α × Bool} {ps : List α}
    (hf : ∀ p ∈ ps, ∀ s, (f p s).2 = true) (s : State α) : (each f ps s).2 = true := by
  induction ps generalizing s with
  | nil => rfl
  | cons p ps ih =>
      rw [each]
      have hp := hf p List.mem_cons_self s
      cases hfp : f p s with
      | mk t ok =>
          rw [hfp] at hp
          cases hp
          exact ih (fun q hq => hf q (List.mem_cons_of_mem p hq)) t

theorem each_done {f : α → State α → State α × Bool} {ps : List α} {s : State α}
    (h : ∀ p ∈ ps, f p s = (s, true)) : each f ps s = (s, true) := by
  induction ps with
  | nil => rfl
  | cons p ps ih =>
      rw [each, h p List.mem_cons_self]
      exact ih fun q hq => h q (List.mem_cons_of_mem p hq)

/-- The initialised plugins are in order, and none of them is in another phase. -/
structure Settled (D : Dependencies α) (s : State α) : Prop where
  phase : ∀ q ∈ s.initialized, s.phase q = .initialized
  nodup : s.initialized.Nodup
  ordered : DependencyFirst D s.initialized

theorem settled_fresh : Settled D .fresh :=
  ⟨fun _ hq => absurd hq List.not_mem_nil, List.nodup_nil, dependencyFirst_nil⟩

end Order

section Initialization

variable {α : Type*} [DecidableEq α] {D : Dependencies α} {throws : α → Bool}

def Ready (S : α → Prop) (s : State α) : Prop :=
  ∀ q, S q → s.phase q = .registered ∨ q ∈ s.initialized

structure Adds (D : Dependencies α) (asked : List α) (s s' : State α) : Prop where
  settled : Settled D s'
  grows : s.initialized <+: s'.initialized
  mem : ∀ q, q ∈ s'.initialized ↔ q ∈ s.initialized ∨ ∃ p ∈ asked, Needs D p q
  phase : ∀ q, q ∉ s'.initialized → s'.phase q = s.phase q
  running : s'.running = s.running
  trace : s'.trace = s.trace

theorem Adds.ready {asked : List α} {s s' : State α} (h : Adds D asked s s') {S : α → Prop}
    (hs : Ready S s) : Ready S s' := by
  intro q hq
  by_cases hmem : q ∈ s'.initialized
  · exact Or.inr hmem
  · rw [h.phase q hmem]
    rcases hs q hq with hreg | hinit
    · exact Or.inl hreg
    · exact absurd (h.grows.subset hinit) hmem

theorem each_adds {f : α → State α → State α × Bool} {S : α → Prop} {ps : List α}
    (hf : ∀ p ∈ ps, ∀ s s', Settled D s → Ready S s → f p s = (s', true) → Adds D [p] s s')
    {s s' : State α} (hs : Settled D s) (hready : Ready S s) (h : each f ps s = (s', true)) :
    Adds D ps s s' := by
  induction ps generalizing s with
  | nil =>
      cases h
      exact ⟨hs, List.prefix_rfl, by simp, fun _ _ => rfl, rfl, rfl⟩
  | cons p ps ih =>
      rw [each] at h
      cases hfp : f p s with
      | mk t ok =>
          rw [hfp] at h
          cases ok with
          | false => cases h
          | true =>
              have hone := hf p List.mem_cons_self s t hs hready hfp
              have hrest := ih (fun q hq => hf q (List.mem_cons_of_mem p hq)) hone.settled
                (hone.ready hready) h
              refine ⟨hrest.settled, hone.grows.trans hrest.grows, fun q => ?_, fun q hq => ?_,
                hrest.running.trans hone.running, hrest.trace.trans hone.trace⟩
              · rw [hrest.mem, hone.mem]
                simp [or_assoc]
              · rw [hrest.phase q hq,
                  hone.phase q fun hmem => hq (hrest.grows.subset hmem)]

theorem Adds.append_self {p : α} {s t : State α}
    (h : Adds D (D.requires p) (s.setPhase p .initialized) t) (hp : p ∉ t.initialized) :
    Adds D [p] s { t with initialized := t.initialized ++ [p] } := by
  have hreq : ∀ q ∈ D.requires p, q ∈ t.initialized :=
    fun q hq => (h.mem q).2 (Or.inr ⟨q, hq, .refl⟩)
  have hphase : t.phase p = .initialized := by
    rw [h.phase p hp, setPhase_self]
  refine ⟨⟨fun q hq => ?_, ?_, h.settled.ordered.append_singleton hreq⟩,
    h.grows.trans (List.prefix_append _ _), fun q => ?_, fun q hq => ?_, h.running, h.trace⟩
  · rcases List.mem_append.1 hq with hq | hq
    · exact h.settled.phase q hq
    · rw [List.mem_singleton.1 hq]
      exact hphase
  · rw [← List.concat_eq_append]
    exact h.settled.nodup.concat hp
  · rw [List.mem_append, h.mem, List.mem_singleton]
    constructor
    · rintro ((hq | hq) | rfl)
      · exact Or.inl hq
      · exact Or.inr ⟨p, List.mem_singleton_self p, Needs.cases.2 (Or.inr hq)⟩
      · exact Or.inr ⟨q, List.mem_singleton_self q, .refl⟩
    · rintro (hq | ⟨r, hr, hneed⟩)
      · exact Or.inl (Or.inl hq)
      · rw [List.mem_singleton.1 hr] at hneed
        rcases Needs.cases.1 hneed with rfl | hq
        · exact Or.inr rfl
        · exact Or.inl (Or.inr hq)
  · have hqp : q ≠ p := by
      intro heq
      subst heq
      exact hq (List.mem_append_right _ (List.mem_singleton_self q))
    rw [h.phase q fun hmem => hq (List.mem_append_left _ hmem), setPhase_of_ne s hqp]

theorem Settled.setPhase {s : State α} (h : Settled D s) {p : α} (hp : p ∉ s.initialized)
    (phase : Phase) : Settled D (s.setPhase p phase) := by
  refine ⟨fun q hq => ?_, h.nodup, h.ordered⟩
  have hqp : q ≠ p := fun heq => hp (heq ▸ hq)
  rw [setPhase_of_ne s hqp]
  exact h.phase q hq

theorem Ready.setPhase {s : State α} {p : α} (h : Ready (fun q => D.rank q ≤ D.rank p) s)
    (phase : Phase) : Ready (fun q => D.rank q < D.rank p) (s.setPhase p phase) := by
  intro q hq
  have hqp : q ≠ p := fun heq => absurd hq (heq ▸ Nat.lt_irrefl _)
  rw [setPhase_of_ne s hqp]
  exact h q (Nat.le_of_lt hq)

theorem initPlugin_cases {n : ℕ} {p : α} {s s' : State α}
    (h : initPlugin D throws (n + 1) p s = (s', true)) :
    (s.phase p ≠ .registered ∧ s' = s) ∨
    (s.phase p = .registered ∧ ∃ t, each (initPlugin D throws n) (D.requires p)
      (s.setPhase p .initialized) = (t, true) ∧
        s' = { t with initialized := t.initialized ++ [p] }) := by
  rw [initPlugin] at h
  by_cases hreg : s.phase p = .registered
  · rw [if_pos hreg] at h
    refine Or.inr ⟨hreg, ?_⟩
    cases heach : each (initPlugin D throws n) (D.requires p) (s.setPhase p .initialized) with
    | mk t ok =>
        rw [heach] at h
        cases ok with
        | false => cases h
        | true =>
            simp only at h
            split at h
            · cases h
            · cases h
              exact ⟨t, rfl, rfl⟩
  · rw [if_neg hreg] at h
    cases h
    exact Or.inl ⟨hreg, rfl⟩

theorem initPlugin_adds {n : ℕ} {p : α} {s s' : State α} (hn : D.rank p < n)
    (hs : Settled D s) (hready : Ready (fun q => D.rank q ≤ D.rank p) s)
    (h : initPlugin D throws n p s = (s', true)) : Adds D [p] s s' := by
  induction n generalizing p s s' with
  | zero => exact absurd hn (Nat.not_lt_zero _)
  | succ n ih =>
      rcases initPlugin_cases h with ⟨hreg, rfl⟩ | ⟨hreg, t, heach, rfl⟩
      · have hp : p ∈ s'.initialized := (hready p (Nat.le_refl _)).resolve_left hreg
        refine ⟨hs, List.prefix_rfl, fun q => ⟨Or.inl, ?_⟩, fun _ _ => rfl, rfl, rfl⟩
        rintro (hq | ⟨r, hr, hneed⟩)
        · exact hq
        · rw [List.mem_singleton.1 hr] at hneed
          exact hs.ordered.needs_mem hp hneed
      · have hp : p ∉ s.initialized := by
          intro hmem
          rw [hs.phase p hmem] at hreg
          cases hreg
        -- the requirements have a lower rank, so that none of them is being initialised
        have hrank : ∀ q ∈ D.requires p, D.rank q < n :=
          fun q hq => Nat.lt_of_lt_of_le (D.acyclic p q hq) (Nat.le_of_lt_succ hn)
        have hadds := each_adds (fun q hq u u' hu hlow hcall => ih (hrank q hq) hu
          (fun r hr => hlow r (Nat.lt_of_le_of_lt hr (D.acyclic p q hq))) hcall)
          (hs.setPhase hp .initialized) (hready.setPhase .initialized) heach
        apply hadds.append_self
        rw [hadds.mem]
        rintro (hmem | ⟨r, hr, hneed⟩)
        · exact hp hmem
        · exact absurd (D.acyclic p r hr) (Nat.not_lt.2 hneed.rank_le)

theorem each_initPlugin_adds {order : List α} {s s' : State α} (hs : Settled D s)
    (hready : Ready (fun _ => True) s) (h : initAll D throws order s = (s', true)) :
    Adds D order s s' := by
  apply each_adds _ hs hready h
  intro p _ t t' ht htready hcall
  exact initPlugin_adds (Nat.lt_succ_self _) ht (fun q _ => htready q trivial) hcall

theorem initAll_arranges {order : List α} {s : State α}
    (h : initAll D throws order .fresh = (s, true)) : Arranges D order s.initialized := by
  have hfresh : Ready (fun _ => True) (State.fresh : State α) := fun _ _ => Or.inl rfl
  have hmem : ∀ {asked : List α} {t : State α}, Adds D asked .fresh t →
      ∀ q, q ∈ t.initialized ↔ ∃ p ∈ asked, Needs D p q := by
    intro asked t ht q
    rw [ht.mem]
    exact or_iff_right List.not_mem_nil
  have hadds := each_initPlugin_adds settled_fresh hfresh h
  refine ⟨hadds.settled.nodup, hadds.settled.ordered, hmem hadds, ?_⟩
  rintro asked ⟨rest, rfl⟩
  obtain ⟨t, hasked, hrest⟩ := each_append h
  have htadds := each_initPlugin_adds settled_fresh hfresh hasked
  have hgrows := (each_initPlugin_adds htadds.settled (htadds.ready hfresh) hrest).grows
  exact ⟨t.initialized, hgrows, hmem htadds⟩

theorem initPlugin_returns {n : ℕ} {p : α} (hn : D.rank p < n) (s : State α) :
    (initPlugin D (fun _ => false) n p s).2 = true := by
  induction n generalizing p s with
  | zero => exact absurd hn (Nat.not_lt_zero _)
  | succ n ih =>
      rw [initPlugin]
      split
      · have heach := each_returns (fun q hq t => ih (Nat.lt_of_lt_of_le (D.acyclic p q hq)
          (Nat.le_of_lt_succ hn)) t) (s.setPhase p .initialized)
        cases hcall : each (initPlugin D (fun _ => false) n) (D.requires p)
            (s.setPhase p .initialized) with
        | mk t ok =>
            rw [hcall] at heach
            cases heach
            rfl
      · rfl

theorem initAll_returns (order : List α) (s : State α) :
    (initAll D (fun _ => false) order s).2 = true :=
  each_returns (fun p _ t => initPlugin_returns (Nat.lt_succ_self (D.rank p)) t) s

end Initialization

/-! ## The starts -/

section Start

variable {α : Type*} [DecidableEq α] {D : Dependencies α} (throws : α → Bool)

theorem startPlugin_turn {p : α} {s : State α} (hp : s.phase p = .initialized)
    (hreq : ∀ q ∈ D.requires p, s.phase q = .started) :
    startPlugin D throws (D.rank p + 1) p s =
      ({ s.setPhase p .started with
          trace := s.trace ++ [.startup p]
          running := if throws p then s.running else s.running ++ [p] }, !throws p) := by
  have hdone : each (startPlugin D throws (D.rank p)) (D.requires p) (s.setPhase p .started) =
      (s.setPhase p .started, true) := by
    apply each_done
    intro q hq
    have hrank := D.acyclic p q hq
    have hqp : q ≠ p := fun heq => absurd hrank (heq ▸ Nat.lt_irrefl _)
    have hphase : (s.setPhase p .started).phase q = .started := by
      rw [setPhase_of_ne s hqp, hreq q hq]
    obtain ⟨m, hm⟩ := Nat.exists_eq_succ_of_ne_zero (Nat.ne_of_gt (Nat.zero_lt_of_lt hrank))
    rw [hm, startPlugin, if_neg]
    rw [hphase]
    exact nofun
  rw [startPlugin, if_pos hp, hdone]
  cases throws p <;> rfl

/-- The starts up to some moment: the plugins of `tried` were started, those of `up` with
success, and the rest of them waits. -/
structure Started (tried up rest : List α) (s : State α) : Prop where
  running : s.running = up
  trace : s.trace = tried.map .startup
  phase : ∀ q ∈ up, s.phase q = .started
  waits : ∀ q ∈ rest, s.phase q = .initialized

theorem setPhase_started {s : State α} {p q : α} (h : s.phase q = .started) :
    (s.setPhase p .started).phase q = .started := by
  by_cases hqp : q = p
  · rw [hqp, setPhase_self]
  · rw [setPhase_of_ne s hqp, h]

theorem Started.next {up rest : List α} {p : α} {s : State α}
    (h : Started up up (p :: rest) s) (hp : p ∉ rest) :
    Started (up ++ [p]) (up ++ [p]) rest
      { s.setPhase p .started with
        trace := s.trace ++ [.startup p]
        running := s.running ++ [p] } := by
  refine ⟨?_, ?_, fun q hq => ?_, fun q hq => ?_⟩
  · rw [h.running]
  · rw [h.trace, List.map_append]
    rfl
  · rcases List.mem_append.1 hq with hq | hq
    · exact setPhase_started (h.phase q hq)
    · rw [List.mem_singleton.1 hq]
      exact setPhase_self ..
  · have hqp : q ≠ p := fun heq => hp (heq ▸ hq)
    rw [← h.waits q (List.mem_cons_of_mem p hq)]
    exact setPhase_of_ne s hqp _

/-- The loop over the initialised plugins starts all of them, or stops early because it was
told to or because of an exception. -/
theorem startAll_started (k : ℕ) {up rest : List α} {s : State α}
    (hs : Started up up rest s) (hnodup : (up ++ rest).Nodup)
    (hordered : DependencyFirst D (up ++ rest)) :
    (∃ s' r, startAll D throws k rest s = (s', true) ∧ r <+: up ++ rest ∧
      (rest.length ≤ k → r = up ++ rest) ∧ Started r r [] s') ∨
    ∃ s' r p, startAll D throws k rest s = (s', false) ∧ throws p = true ∧
      r ++ [p] <+: up ++ rest ∧ Started (r ++ [p]) r [] s' := by
  induction rest generalizing k up s with
  | nil =>
      refine Or.inl ⟨s, up, ?_, List.prefix_append _ _, fun _ => (List.append_nil up).symm, hs⟩
      cases k <;> rfl
  | cons p rest ih =>
      cases k with
      | zero =>
          refine Or.inl ⟨s, up, rfl, List.prefix_append _ _, fun h => absurd h (by simp),
            hs.running, hs.trace, hs.phase, nofun⟩
      | succ k =>
          have hreq : ∀ q ∈ D.requires p, s.phase q = .started :=
            fun q hq => hs.phase q (hordered up p rest rfl q hq)
          have hturn := startPlugin_turn throws (hs.waits p List.mem_cons_self) hreq
          rw [startAll, hturn]
          cases hp : throws p with
          | true =>
              refine Or.inr ⟨_, up, p, rfl, hp, ⟨rest, by simp⟩, hs.running, ?_, ?_, nofun⟩
              · rw [hs.trace, List.map_append]
                rfl
              · exact fun q hq => setPhase_started (hs.phase q hq)
          | false =>
              have hfresh : p ∉ rest := by
                have hcons := (List.nodup_append.1 hnodup).2.1
                exact (List.nodup_cons.1 hcons).1
              rw [List.append_cons up p rest] at hnodup hordered ⊢
              rcases ih k (hs.next hfresh) hnodup hordered with
                ⟨s', r, hrun, hr, hall, hstarted⟩ | ⟨s', r, q, hrun, hq, hr, hstarted⟩
              · exact Or.inl ⟨s', r, hrun, hr, fun h => hall (Nat.le_of_succ_le_succ h), hstarted⟩
              · exact Or.inr ⟨s', r, q, hrun, hq, hr, hstarted⟩

end Start

/-! ## Whole runs -/

section Run

variable {α : Type*} [DecidableEq α] {D : Dependencies α}

theorem foldl_stopPlugin {l : List α} {s : State α} (hnodup : l.Nodup)
    (hphase : ∀ q ∈ l, s.phase q = .started) :
    (l.foldl stopPlugin s).trace = s.trace ++ l.map .shutdown := by
  induction l generalizing s with
  | nil => exact (List.append_nil _).symm
  | cons p l ih =>
      have hp := hphase p List.mem_cons_self
      obtain ⟨hfresh, hnodup⟩ := List.nodup_cons.1 hnodup
      rw [List.foldl_cons, stopPlugin, if_pos hp, ih hnodup, List.append_assoc]
      · rfl
      · intro q hq
        have hqp : q ≠ p := fun heq => hfresh (heq ▸ hq)
        rw [← hphase q (List.mem_cons_of_mem p hq)]
        exact setPhase_of_ne s hqp _

theorem shutdownAll_trace {tried up rest : List α} {s : State α} (hnodup : up.Nodup)
    (h : Started tried up rest s) (handled : List α) :
    (s.exec handled).shutdownAll.trace = tried.map .startup ++
      (handled.filter (· ∈ up)).map .handle ++ up.reverse.map .shutdown := by
  have hphase : ∀ q ∈ up.reverse, (s.exec handled).phase q = .started :=
    fun q hq => h.phase q (List.mem_reverse.1 hq)
  have hstop := foldl_stopPlugin (List.nodup_reverse.2 hnodup) hphase
  rw [State.shutdownAll]
  change (s.running.reverse.foldl stopPlugin (s.exec handled)).trace = _
  rw [h.running, hstop, State.exec, h.trace, h.running]

/-- A run does nothing when an initialisation throws. Otherwise it starts plugins in the
order of a list for the order in which they were asked for, up to an order to quit or an
exception, and shuts down what runs. -/
theorem run_cases (c : Circumstances α) (order : List α) :
    (run D c order = [] ∧ ∃ p, c.initThrows p = true) ∨
    ∃ l r, Arranges D order l ∧ r <+: l ∧
      ((l.length ≤ c.quitAfter → r = l) ∧ run D c order =
        r.map .startup ++ (c.handled.filter (· ∈ r)).map .handle ++ r.reverse.map .shutdown ∨
      ∃ p, c.startThrows p = true ∧ r ++ [p] <+: l ∧ run D c order =
        (r ++ [p]).map .startup ++ r.reverse.map .shutdown) := by
  rw [run]
  cases hinit : initAll D c.initThrows order .fresh with
  | mk s ok =>
      cases ok with
      | false =>
          refine Or.inl ⟨rfl, ?_⟩
          by_contra hthrows
          have hcalm : c.initThrows = fun _ => false :=
            funext fun p => Bool.eq_false_iff.2 fun hp => hthrows ⟨p, hp⟩
          have hreturns := initAll_returns (D := D) order (.fresh : State α)
          rw [← hcalm, hinit] at hreturns
          cases hreturns
      | true =>
          have hadds := each_initPlugin_adds settled_fresh (fun _ _ => Or.inl rfl) hinit
          have harranges := initAll_arranges hinit
          have hstarted : Started [] [] s.initialized s :=
            ⟨hadds.running, hadds.trace, nofun, hadds.settled.phase⟩
          refine Or.inr ⟨s.initialized, ?_⟩
          rcases startAll_started c.startThrows c.quitAfter hstarted harranges.nodup
              harranges.ordered with
            ⟨s', r, hrun, hr, hall, hs'⟩ | ⟨s', r, p, hrun, hp, hr, hs'⟩
          · refine ⟨r, harranges, hr, Or.inl ⟨hall, ?_⟩⟩
            simp only [hrun]
            exact shutdownAll_trace (harranges.nodup.sublist hr.sublist) hs' _
          · have hr' : r <+: s.initialized := (List.prefix_append r [p]).trans hr
            refine ⟨r, harranges, hr', Or.inr ⟨p, hp, hr, ?_⟩⟩
            simp only [hrun]
            have hstop := shutdownAll_trace (harranges.nodup.sublist hr'.sublist) hs' []
            rw [List.filter_nil, List.map_nil, List.append_nil] at hstop
            rw [← hstop]
            simp [State.exec]

theorem run_calm {c : Circumstances α} (order : List α) (hinit : ∀ p, c.initThrows p = false)
    (hstart : ∀ p, c.startThrows p = false) (hhandled : c.handled = []) :
    ∃ l r, Arranges D order l ∧ r <+: l ∧ (l.length ≤ c.quitAfter → r = l) ∧
      run D c order = r.map .startup ++ r.reverse.map .shutdown := by
  rcases run_cases (D := D) c order with ⟨_, p, hp⟩ |
    ⟨l, r, hl, hr, ⟨hall, hrun⟩ | ⟨p, hp, _⟩⟩
  · rw [hinit p] at hp
    cases hp
  · rw [hhandled, List.filter_nil, List.map_nil, List.append_nil] at hrun
    exact ⟨l, r, hl, hr, hall, hrun⟩
  · rw [hstart p] at hp
    cases hp

end Run

end Lifecycle
