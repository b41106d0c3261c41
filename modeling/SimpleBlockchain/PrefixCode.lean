import Mathlib.Algebra.Order.Ring.Nat
import Mathlib.Tactic.Common

/-!
# Unambiguous encodings

An encoding is a relation between values and the lists that may stand for them.
It is a prefix code when two encodings, each followed by anything, can only
agree if they encode the same value and are followed by the same list. Prefix
codes compose by concatenation, which is what makes a record of fields, or a
counted list of records, unambiguous without separators.
-/

namespace PrefixCode

variable {α β γ σ : Type*}

/-- No encoding is a proper prefix of another, and each stands for one value. -/
def IsPrefixCode (R : α → List σ → Prop) : Prop :=
  ∀ ⦃a b x y s t⦄, R a x → R b y → x ++ s = y ++ t → a = b ∧ s = t

def Seq (R : α → List σ → Prop) (S : β → List σ → Prop) : α × β → List σ → Prop :=
  fun p z => ∃ x y, R p.1 x ∧ S p.2 y ∧ z = x ++ y

theorem IsPrefixCode.injective {R : α → List σ → Prop} (hR : IsPrefixCode R) {a b : α}
    {x : List σ} (ha : R a x) (hb : R b x) : a = b :=
  (hR (s := []) (t := []) ha hb rfl).1

theorem IsPrefixCode.seq {R : α → List σ → Prop} {S : β → List σ → Prop}
    (hR : IsPrefixCode R) (hS : IsPrefixCode S) : IsPrefixCode (Seq R S) := by
  rintro ⟨a, b⟩ ⟨a', b'⟩ z z' s t ⟨x, y, hx, hy, rfl⟩ ⟨x', y', hx', hy', rfl⟩ h
  simp only [List.append_assoc] at h
  obtain ⟨rfl, h'⟩ := hR hx hx' h
  obtain ⟨rfl, rfl⟩ := hS hy hy' h'
  exact ⟨rfl, rfl⟩

/-- A code stays a prefix code when its values are renamed injectively. -/
theorem IsPrefixCode.comap {R : β → List σ → Prop} (hR : IsPrefixCode R) {f : α → β}
    (hf : Function.Injective f) : IsPrefixCode (fun a x => R (f a) x) := by
  intro a b x y s t ha hb h
  obtain ⟨hab, rfl⟩ := hR ha hb h
  exact ⟨hf hab, rfl⟩

theorem IsPrefixCode.map {τ : Type*} {R : α → List σ → Prop} (hR : IsPrefixCode R) (f : σ → τ)
    (g : τ → σ) (hfg : ∀ a x, R a x → ∀ c ∈ x, g (f c) = c) :
    IsPrefixCode (fun a z => ∃ x, R a x ∧ z = x.map f) := by
  rintro a b _ _ s t ⟨x, hx, rfl⟩ ⟨y, hy, rfl⟩ h
  have hback : ∀ c z, R c z → (z.map f).map g = z := by
    intro c z hz
    rw [List.map_map, List.map_congr_left (f := g ∘ f) (g := id) (hfg c z hz), List.map_id]
  have hg := congrArg (List.map g) h
  rw [List.map_append, List.map_append, hback a x hx, hback b y hy] at hg
  obtain ⟨hab, hst⟩ := hR hx hy hg
  have hlen : s.length = t.length := by simpa using congrArg List.length hst
  exact ⟨hab, (List.append_inj' h hlen).2⟩

theorem IsPrefixCode.mono {R S : α → List σ → Prop} (hS : IsPrefixCode S)
    (h : ∀ a x, R a x → S a x) : IsPrefixCode R :=
  fun a b x y _ _ ha hb he => hS (h a x ha) (h b y hb) he

/-- Injective encodings of one fixed length need no delimiter. -/
theorem isPrefixCode_of_length {f : α → List σ} (n : ℕ) (hlen : ∀ a, (f a).length = n)
    (hf : Function.Injective f) : IsPrefixCode (fun a x => x = f a) := by
  rintro a b _ _ s t rfl rfl h
  obtain ⟨hab, hst⟩ := List.append_inj h ((hlen a).trans (hlen b).symm)
  exact ⟨hf hab, hst⟩

inductive Each (R : α → List σ → Prop) : List α → List σ → Prop
  | nil : Each R [] []
  | cons {a as x y} : R a x → Each R as y → Each R (a :: as) (x ++ y)

theorem Each.unambiguous {R : α → List σ → Prop} (hR : IsPrefixCode R) {as bs : List α}
    {x y s t : List σ} (ha : Each R as x) (hb : Each R bs y) (hlen : as.length = bs.length)
    (h : x ++ s = y ++ t) : as = bs ∧ s = t := by
  induction ha generalizing bs y with
  | nil =>
      cases hb with
      | nil => exact ⟨rfl, h⟩
      | cons _ _ => cases hlen
  | cons hax _ ih =>
      cases hb with
      | nil => cases hlen
      | cons hbx hby =>
          simp only [List.append_assoc] at h
          obtain ⟨rfl, h'⟩ := hR hax hbx h
          obtain ⟨rfl, rfl⟩ := ih hby (Nat.succ.inj hlen) h'
          exact ⟨rfl, rfl⟩

theorem isPrefixCode_counted {R : α → List σ → Prop} (hR : IsPrefixCode R)
    {N : ℕ → List σ → Prop} (hN : IsPrefixCode N) :
    IsPrefixCode (fun as z => ∃ x y, N as.length x ∧ Each R as y ∧ z = x ++ y) := by
  rintro as bs z z' s t ⟨x, y, hx, hy, rfl⟩ ⟨x', y', hx', hy', rfl⟩ h
  simp only [List.append_assoc] at h
  obtain ⟨hlen, h'⟩ := hN hx hx' h
  exact hy.unambiguous hR hy' hlen h'

theorem each_singleton (as : List σ) : Each (fun a x => x = [a]) as as := by
  induction as with
  | nil => exact .nil
  | cons a as ih => exact .cons (x := [a]) rfl ih

theorem isPrefixCode_singleton : IsPrefixCode (fun (a : σ) x => x = [a]) :=
  isPrefixCode_of_length 1 (fun _ => rfl) (fun _ _ h => List.head_eq_of_cons_eq h)

/-! ## Base-128 numbers -/

/-- The base-128 digits of a number, least significant first, with 128 added to
every digit that another follows. The first argument bounds the digits. -/
def varint : ℕ → ℕ → List ℕ
  | 0, _ => []
  | fuel + 1, n => if n < 128 then [n] else (n % 128 + 128) :: varint fuel (n / 128)

theorem varint_lt (fuel n : ℕ) : ∀ d ∈ varint fuel n, d < 256 := by
  induction fuel generalizing n with
  | zero => simp [varint]
  | succ fuel ih =>
      intro d hd
      rw [varint] at hd
      split at hd
      · simp only [List.mem_singleton] at hd
        omega
      · rcases List.mem_cons.1 hd with rfl | hd
        · omega
        · exact ih _ d hd

/-- With enough digits allowed, no number's digits begin another's. -/
theorem isPrefixCode_varint (fuel : ℕ) :
    IsPrefixCode (fun n x => n < 128 ^ fuel ∧ x = varint fuel n) := by
  induction fuel with
  | zero =>
      rintro a b _ _ s t ⟨ha, rfl⟩ ⟨hb, rfl⟩ h
      simp only [pow_zero, Nat.lt_one_iff] at ha hb
      exact ⟨ha.trans hb.symm, h⟩
  | succ fuel ih =>
      rintro a b _ _ s t ⟨ha, rfl⟩ ⟨hb, rfl⟩ h
      rw [varint, varint] at h
      -- a digit below 128 ends the number, so both numbers end here or neither does
      by_cases ha' : a < 128 <;> by_cases hb' : b < 128
      · rw [if_pos ha', if_pos hb'] at h
        exact ⟨List.head_eq_of_cons_eq h, List.tail_eq_of_cons_eq h⟩
      · rw [if_pos ha', if_neg hb'] at h
        have := List.head_eq_of_cons_eq h
        omega
      · rw [if_neg ha', if_pos hb'] at h
        have := List.head_eq_of_cons_eq h
        omega
      · rw [if_neg ha', if_neg hb'] at h
        simp only [List.cons_append, List.cons.injEq] at h
        have hq : a / 128 < 128 ^ fuel ∧ b / 128 < 128 ^ fuel := by
          rw [pow_succ] at ha hb
          exact ⟨Nat.div_lt_of_lt_mul (by omega), Nat.div_lt_of_lt_mul (by omega)⟩
        obtain ⟨hab, hst⟩ := ih ⟨hq.1, rfl⟩ ⟨hq.2, rfl⟩ h.2
        exact ⟨by omega, hst⟩

end PrefixCode
