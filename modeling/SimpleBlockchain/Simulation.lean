import Mathlib.Data.Set.Defs
import Mathlib.Tactic.Common

/-!
# Labelled steps, runs and simulations

The steps of a system are labelled with what can be seen of them from outside. A
simulation maps each label to one of another system, or to none when the step does not
show there, and relates the states. What holds of the traces of the second system then
holds of those of the first.
-/

namespace Transition

structure Lts (σ ε : Type*) where
  initial : σ → Prop
  step : σ → ε → σ → Prop

variable {σ τ δ ε : Type*}

namespace Lts

inductive Path (S : Lts σ ε) (s : σ) : List ε → σ → Prop
  | refl : Path S s [] s
  | tail {es m e s'} : Path S s es m → S.step m e s' → Path S s (es ++ [e]) s'

def Run (S : Lts σ ε) (es : List ε) (s : σ) : Prop := ∃ s₀, S.initial s₀ ∧ S.Path s₀ es s

variable {S : Lts σ ε} {s s' : σ} {es fs : List ε}

theorem Path.append {m : σ} (h : S.Path s es m) (h' : S.Path m fs s') :
    S.Path s (es ++ fs) s' := by
  induction h' with
  | refl => rwa [List.append_nil]
  | tail _ hstep ih =>
      rw [← List.append_assoc]
      exact ih.tail hstep

/-- A path can be cut where its trace can. -/
theorem Path.split (h : S.Path s (es ++ fs) s') : ∃ m, S.Path s es m ∧ S.Path m fs s' := by
  generalize htrace : es ++ fs = gs at h
  induction h generalizing fs with
  | refl =>
      obtain ⟨rfl, rfl⟩ := List.append_eq_nil_iff.1 htrace
      exact ⟨s, .refl, .refl⟩
  | @tail gs m e s' hpath hstep ih =>
      rcases List.eq_nil_or_concat fs with rfl | ⟨fs', e', rfl⟩
      · rw [List.append_nil] at htrace
        exact ⟨s', htrace ▸ hpath.tail hstep, .refl⟩
      · rw [List.concat_eq_append, ← List.append_assoc] at htrace
        obtain ⟨hgs, he⟩ := List.append_inj' htrace rfl
        obtain ⟨m', hm', hpath'⟩ := ih hgs
        rw [List.concat_eq_append, (List.cons.inj he).1]
        exact ⟨m', hm', hpath'.tail hstep⟩

theorem Path.single_iff {e : ε} : S.Path s [e] s' ↔ S.step s e s' := by
  constructor
  · intro h
    generalize htrace : [e] = gs at h
    cases h with
    | refl => cases htrace
    | @tail gs m e' _ hpath hstep =>
        have hsplit : [] ++ [e] = gs ++ [e'] := htrace
        obtain ⟨hgs, he⟩ := List.append_inj' hsplit rfl
        cases he
        subst hgs
        generalize hnil : ([] : List ε) = gs at hpath
        cases hpath with
        | refl => exact hstep
        | tail _ _ => simp at hnil
  · intro h
    exact Path.refl.tail h

theorem Path.rel {R : σ → σ → Prop} (hrefl : ∀ s, R s s)
    (hstep : ∀ {s m e s'}, R s m → S.step m e s' → R s s') (h : S.Path s es s') : R s s' := by
  induction h with
  | refl => exact hrefl s
  | tail _ hs ih => exact hstep ih hs

theorem Run.split (h : S.Run (es ++ fs) s') : ∃ m, S.Run es m ∧ S.Path m fs s' := by
  obtain ⟨s₀, hinit, hpath⟩ := h
  obtain ⟨m, hm, hpath'⟩ := hpath.split
  exact ⟨m, ⟨s₀, hinit, hm⟩, hpath'⟩

theorem Run.last {e : ε} (h : S.Run (es ++ [e]) s') : ∃ m, S.Run es m ∧ S.step m e s' := by
  obtain ⟨m, hm, hpath⟩ := h.split
  exact ⟨m, hm, Path.single_iff.1 hpath⟩

theorem Run.tail {e : ε} (h : S.Run es s) (hstep : S.step s e s') : S.Run (es ++ [e]) s' := by
  obtain ⟨s₀, hinit, hpath⟩ := h
  exact ⟨s₀, hinit, hpath.tail hstep⟩

theorem Run.append (h : S.Run es s) (h' : S.Path s fs s') : S.Run (es ++ fs) s' := by
  obtain ⟨s₀, hinit, hpath⟩ := h
  exact ⟨s₀, hinit, hpath.append h'⟩

/-- What holds of a state and the trace that leads to it, when it holds at first and after
each step of a run. -/
theorem Run.induction {I : List ε → σ → Prop} (hinit : ∀ s, S.initial s → I [] s)
    (hstep : ∀ {es s e s'}, S.Run es s → I es s → S.step s e s' → I (es ++ [e]) s')
    (h : S.Run es s) : I es s := by
  obtain ⟨s₀, hs₀, hpath⟩ := h
  induction hpath with
  | refl => exact hinit s₀ hs₀
  | tail hpath hs ih => exact hstep ⟨s₀, hs₀, hpath⟩ ih hs

/-- The same when each step keeps it, of a run or not. -/
theorem Run.invariant {I : List ε → σ → Prop} (hinit : ∀ s, S.initial s → I [] s)
    (hstep : ∀ {es s e s'}, I es s → S.step s e s' → I (es ++ [e]) s') (h : S.Run es s) :
    I es s :=
  h.induction hinit fun _ hI hs => hstep hI hs

def traces (S : Lts σ ε) : Set (List ε) := {es | ∃ s, S.Run es s}

/-- The steps from states of a kind. -/
def restrict (S : Lts σ ε) (p : σ → Prop) : Lts σ ε where
  initial := S.initial
  step s e s' := p s ∧ S.step s e s'

section Size

variable {size : σ → ℕ} (hinit : ∀ s, S.initial s → size s = 0)
  (hsize : ∀ {s e s'}, S.step s e s' → size s' ≤ size s + 1)

include hinit hsize

/-- Where a step makes a state larger by at most one, a run leads to no larger state than it
is long. -/
theorem Run.size_le (h : S.Run es s) : size s ≤ es.length := by
  apply h.invariant (I := fun es s => size s ≤ es.length)
  · intro s hs
    exact Nat.le_of_eq (hinit s hs)
  · intro es s e s' hle hstep
    rw [List.length_append, List.length_singleton]
    exact Nat.le_trans (hsize hstep) (Nat.succ_le_succ hle)

theorem Run.restrict {n : ℕ} (h : S.Run es s) (hn : es.length ≤ n) :
    (S.restrict (size · < n)).Run es s := by
  obtain ⟨s₀, hs₀, hpath⟩ := h
  induction hpath with
  | refl => exact ⟨s₀, hs₀, .refl⟩
  | @tail es m e s' hpath hstep ih =>
      rw [List.length_append, List.length_singleton] at hn
      have hle : size m ≤ es.length := Run.size_le hinit hsize ⟨s₀, hs₀, hpath⟩
      exact (ih (by omega)).tail ⟨by omega, hstep⟩

end Size

end Lts

/-- Each step of `S` is a step of `A` with the label that is seen of it, or, if nothing is
seen of it, no step. -/
structure Simulation (S : Lts σ δ) (A : Lts τ ε) (observe : δ → Option ε) (R : σ → τ → Prop) :
    Prop where
  initial : ∀ s, S.initial s → ∃ a, A.initial a ∧ R s a
  step : ∀ {s a d s'}, R s a → S.step s d s' →
    (observe d = none ∧ R s' a) ∨ ∃ e a', observe d = some e ∧ A.step a e a' ∧ R s' a'

variable {S : Lts σ δ} {A : Lts τ ε} {observe : δ → Option ε} {R : σ → τ → Prop}

/-- Every run of the simulated system is seen as a run of the other. -/
theorem Simulation.run (h : Simulation S A observe R) {ds : List δ} {s : σ} (hrun : S.Run ds s) :
    ∃ a, A.Run (ds.filterMap observe) a ∧ R s a := by
  refine hrun.invariant (I := fun ds s => ∃ a, A.Run (ds.filterMap observe) a ∧ R s a) ?_ ?_
  · intro s hs
    obtain ⟨a, ha, hR⟩ := h.initial s hs
    exact ⟨a, ⟨a, ha, .refl⟩, hR⟩
  · rintro ds s d s' ⟨a, ha, hR⟩ hstep
    rw [List.filterMap_append]
    rcases h.step hR hstep with ⟨hnone, hR'⟩ | ⟨e, a', hsome, hstep', hR'⟩
    · rw [List.filterMap_cons_none hnone, List.filterMap_nil, List.append_nil]
      exact ⟨a, ha, hR'⟩
    · rw [List.filterMap_cons_some hsome, List.filterMap_nil]
      exact ⟨a', ha.tail hstep', hR'⟩

end Transition
