import Mathlib.Data.List.Chain
import Mathlib.Data.List.Infix
import Mathlib.Tactic.Common

/-!
# Numbered hash chains

A chain is a list whose elements are numbered from zero, where each element
names the digest of the one before it. Only two facts about digests are used:
which elements share one, and what follows for them if they do.
-/

namespace HashChain

variable {β δ : Type*}

structure IsHashChain (number : β → ℕ) (prior digest : β → δ) (genesis : δ) (bs : List β) :
    Prop where
  number_eq : ∀ i b, bs[i]? = some b → number b = i
  prior_zero : ∀ b, bs[0]? = some b → prior b = genesis
  prior_succ : ∀ i b c, bs[i]? = some b → bs[i + 1]? = some c → prior c = digest b

variable {number : β → ℕ} {prior digest : β → δ} {genesis : δ} {bs cs : List β}

theorem isHashChain_nil : IsHashChain number prior digest genesis [] where
  number_eq _ _ h := by simp at h
  prior_zero _ h := by simp at h
  prior_succ _ _ _ h := by simp at h

theorem getElem?_concat {b c : β} {i : ℕ} (h : (bs ++ [b])[i]? = some c) :
    bs[i]? = some c ∨ i = bs.length ∧ c = b := by
  by_cases hlt : i < bs.length
  · rw [List.getElem?_append_left hlt] at h
    exact Or.inl h
  · rw [List.getElem?_append_right (by omega), List.getElem?_singleton] at h
    split at h
    · cases h
      exact Or.inr ⟨by omega, rfl⟩
    · cases h

theorem lt_of_getElem? {b : β} {i : ℕ} (h : bs[i]? = some b) : i < bs.length :=
  (List.getElem?_eq_some_iff.1 h).1

theorem IsHashChain.concat (h : IsHashChain number prior digest genesis bs) {b : β}
    (hn : number b = bs.length) (hz : bs = [] → prior b = genesis)
    (hp : ∀ l, bs.getLast? = some l → prior b = digest l) :
    IsHashChain number prior digest genesis (bs ++ [b]) where
  number_eq i c hc := by
    rcases getElem?_concat hc with hc | ⟨rfl, rfl⟩
    · exact h.number_eq i c hc
    · exact hn
  prior_zero c hc := by
    rcases getElem?_concat hc with hc | ⟨hlen, rfl⟩
    · exact h.prior_zero c hc
    · exact hz (List.length_eq_zero_iff.1 hlen.symm)
  prior_succ i c d hc hd := by
    rcases getElem?_concat hd with hd | ⟨hlen, rfl⟩
    · rcases getElem?_concat hc with hc | ⟨hlen, _⟩
      · exact h.prior_succ i c d hc hd
      · have := lt_of_getElem? hd
        omega
    · rcases getElem?_concat hc with hc | ⟨hlen', _⟩
      · apply hp c
        rw [List.getLast?_eq_getElem?, ← hlen, Nat.add_sub_cancel, hc]
      · omega

theorem IsHashChain.getElem?_number (h : IsHashChain number prior digest genesis bs) {b : β}
    (hb : b ∈ bs) : bs[number b]? = some b := by
  obtain ⟨i, hi⟩ := List.mem_iff_getElem?.1 hb
  rwa [h.number_eq i b hi]

section Agree

variable {r : β → β → Prop}

/-- Agreement at one height spreads to every height below. -/
theorem IsHashChain.agree_below (hb : IsHashChain number prior digest genesis bs)
    (hc : IsHashChain number prior digest genesis cs)
    (hr : ∀ b ∈ bs, ∀ c ∈ cs, digest b = digest c → r b c)
    (hprior : ∀ b c, r b c → prior b = prior c) {i : ℕ} {b c : β} (hbi : bs[i]? = some b)
    (hci : cs[i]? = some c) (h : r b c) {j : ℕ} (hj : j ≤ i) {b' c' : β}
    (hbj : bs[j]? = some b') (hcj : cs[j]? = some c') : r b' c' := by
  induction i generalizing b c with
  | zero =>
      obtain rfl : j = 0 := Nat.le_zero.1 hj
      rw [hbi, Option.some.injEq] at hbj
      rw [hci, Option.some.injEq] at hcj
      rwa [← hbj, ← hcj]
  | succ i ih =>
      by_cases hji : j = i + 1
      · subst hji
        rw [hbi, Option.some.injEq] at hbj
        rw [hci, Option.some.injEq] at hcj
        rwa [← hbj, ← hcj]
      · have hi : i < bs.length := Nat.lt_of_succ_lt (lt_of_getElem? hbi)
        have hi' : i < cs.length := Nat.lt_of_succ_lt (lt_of_getElem? hci)
        have hbp := List.getElem?_eq_getElem hi
        have hcp := List.getElem?_eq_getElem hi'
        have hd : digest bs[i] = digest cs[i] := by
          rw [← hb.prior_succ i _ _ hbp hbi, ← hc.prior_succ i _ _ hcp hci]
          exact hprior b c h
        exact ih hbp hcp (hr _ (List.getElem_mem hi) _ (List.getElem_mem hi') hd) (by omega)

/-- Chains with the same tip digest have one length and agree at every height,
in every respect that a digest determines. -/
theorem IsHashChain.agree_of_tip (hb : IsHashChain number prior digest genesis bs)
    (hc : IsHashChain number prior digest genesis cs)
    (hr : ∀ b ∈ bs, ∀ c ∈ cs, digest b = digest c → r b c)
    (hprior : ∀ b c, r b c → prior b = prior c) (hnum : ∀ b c, r b c → number b = number c)
    {b c : β} (hbl : bs.getLast? = some b) (hcl : cs.getLast? = some c)
    (htip : digest b = digest c) :
    bs.length = cs.length ∧
      ∀ (j : ℕ) b' c', bs[j]? = some b' → cs[j]? = some c' → r b' c' := by
  have h := hr b (List.mem_of_getLast? hbl) c (List.mem_of_getLast? hcl) htip
  rw [List.getLast?_eq_getElem?] at hbl hcl
  have hnb := hb.number_eq _ b hbl
  have hnc := hc.number_eq _ c hcl
  have hlen : bs.length = cs.length := by
    have := lt_of_getElem? hbl
    have := lt_of_getElem? hcl
    have := hnum b c h
    omega
  rw [← hlen] at hcl
  refine ⟨hlen, fun j b' c' hbj hcj => ?_⟩
  exact hb.agree_below hc hr hprior hbl hcl h (by have := lt_of_getElem? hbj; omega) hbj hcj

end Agree

/-! ## Lists drawn from a chain -/

theorem isChain_cons_iff_getElem? {R : β → β → Prop} {a : β} {l : List β} :
    List.IsChain R (a :: l) ↔ (∀ b, l[0]? = some b → R a b) ∧
      ∀ (i : ℕ) b c, l[i]? = some b → l[i + 1]? = some c → R b c := by
  induction l generalizing a with
  | nil => simp
  | cons d l ih =>
      rw [List.isChain_cons_cons, ih]
      constructor
      · rintro ⟨hd, hz, hs⟩
        refine ⟨fun b hb => by cases hb; exact hd, fun i b c hb hc => ?_⟩
        cases i with
        | zero =>
            cases hb
            exact hz c hc
        | succ i => exact hs i b c hb hc
      · rintro ⟨hz, hs⟩
        exact ⟨hz d rfl, fun c hc => hs 0 d c rfl hc, fun i b c hb hc => hs (i + 1) b c hb hc⟩

/-- What a checker that walks over a list accepts: the first element has number
zero, and each later one has number zero or names the digest of the one before. -/
structure Walks (number : β → ℕ) (prior digest : β → δ) (cs : List β) : Prop where
  zero : ∀ c, cs[0]? = some c → number c = 0
  succ : ∀ (i : ℕ) b c, cs[i]? = some b → cs[i + 1]? = some c → number c = 0 ∨ prior c = digest b

theorem Walks.exists_prior (h : Walks number prior digest cs) {c : β} (hc : c ∈ cs)
    (hn : number c ≠ 0) : ∃ b ∈ cs, prior c = digest b := by
  obtain ⟨k, hk⟩ := List.mem_iff_getElem?.1 hc
  cases k with
  | zero => exact absurd (h.zero c hk) hn
  | succ k =>
      have hlt := Nat.lt_of_succ_lt (lt_of_getElem? hk)
      exact ⟨cs[k], List.getElem_mem hlt,
        (h.succ k _ c (List.getElem?_eq_getElem hlt) hk).resolve_left hn⟩

/-- A repetition-free selection from a chain that a checker accepts is a prefix. -/
theorem IsHashChain.prefix_of_walks (hb : IsHashChain number prior digest genesis bs)
    (hr : ∀ b ∈ bs, ∀ c ∈ bs, digest b = digest c → number b = number c)
    (hsub : ∀ c ∈ cs, c ∈ bs) (hnodup : cs.Nodup) (h : Walks number prior digest cs) :
    cs <+: bs := by
  have hpos : ∀ (i : ℕ) c, cs[i]? = some c → bs[i]? = some c := by
    intro i
    induction i with
    | zero =>
        intro c hc
        have hget := hb.getElem?_number (hsub c (List.mem_of_getElem? hc))
        rwa [h.zero c hc] at hget
    | succ i ih =>
        intro c hc
        have hlt := Nat.lt_of_succ_lt (lt_of_getElem? hc)
        have hprev := List.getElem?_eq_getElem hlt
        have hmem := hsub c (List.mem_of_getElem? hc)
        have hget := hb.getElem?_number hmem
        by_cases hn : number c = 0
        · -- only the first element of the chain has number zero, and it was seen already
          rw [hn] at hget
          have hfirst := List.getElem?_eq_getElem (Nat.zero_lt_of_lt hlt)
          have hsame := hb.getElem?_number (hsub _ (List.getElem_mem (Nat.zero_lt_of_lt hlt)))
          rw [h.zero _ hfirst, hget, Option.some.injEq] at hsame
          rw [← hsame] at hfirst
          have hinj := (List.getElem?_inj (Nat.zero_lt_of_lt hlt) hnodup).1 (hfirst.trans hc.symm)
          omega
        · -- the predecessor in the chain has the digest of the predecessor in the list
          have hp := (h.succ i _ c hprev hc).resolve_left hn
          obtain ⟨j, hj⟩ := Nat.exists_eq_succ_of_ne_zero hn
          rw [hj] at hget
          have hjlt := Nat.lt_of_succ_lt (lt_of_getElem? hget)
          have hjget := List.getElem?_eq_getElem hjlt
          have hd := hb.prior_succ j _ c hjget hget
          have hsame := hr _ (List.getElem_mem hjlt) _ (hsub _ (List.getElem_mem hlt))
            (hd.symm.trans hp)
          rw [hb.number_eq j _ hjget, hb.number_eq i _ (ih _ hprev)] at hsame
          rw [← hsame]
          exact hget
  rw [List.prefix_iff_getElem?]
  intro i hi
  exact hpos i _ (List.getElem?_eq_getElem hi)

end HashChain
