import Mathlib.Data.Nat.Digits.Lemmas
import Mathlib.Tactic.Common

/-!
# Change of radix that keeps leading zeros

A list of digits, most significant first, denotes a number together with the
count of its leading zeros. Rewriting the number in another radix and putting
the zeros back in front loses nothing.
-/

namespace Radix

/-- The digits of a number, least significant first, at most `fuel` of them. -/
def digits (β : ℕ) : ℕ → ℕ → List ℕ
  | 0, _ => []
  | fuel + 1, n => if n = 0 then [] else n % β :: digits β fuel (n / β)

def leadingZeros (ds : List ℕ) : ℕ := (ds.takeWhile (· == 0)).length

/-- The digits of `ds`, read in radix `β`, in radix `γ`. -/
def rebase (β γ : ℕ) (ds : List ℕ) : List ℕ :=
  let n := Nat.ofDigits β ds.reverse
  List.replicate (leadingZeros ds) 0 ++ (digits γ n n).reverse

theorem digits_eq {β : ℕ} (hβ : 1 < β) {fuel n : ℕ} (h : n ≤ fuel) :
    digits β fuel n = Nat.digits β n := by
  induction fuel generalizing n with
  | zero => simp [digits, Nat.le_zero.1 h]
  | succ fuel ih =>
      unfold digits
      by_cases hn : n = 0
      · rw [if_pos hn, hn, Nat.digits_zero]
      · have hlt : n / β < n := Nat.div_lt_self (Nat.pos_of_ne_zero hn) hβ
        rw [if_neg hn, ih (by omega), ← Nat.digits_def' hβ (Nat.pos_of_ne_zero hn)]

theorem digits_reverse_head {β n : ℕ} (d : ℕ)
    (h : (Nat.digits β n).reverse.head? = some d) : d ≠ 0 := by
  rw [List.head?_reverse] at h
  rintro rfl
  have hn : n ≠ 0 := by
    rintro rfl
    simp at h
  have hlast := Nat.getLast_digit_ne_zero β hn
  rw [List.getLast?_eq_getLast_of_ne_nil (Nat.digits_ne_nil_iff_ne_zero.2 hn)] at h
  exact hlast (Option.some.inj h)

theorem leadingZeros_replicate_append (k : ℕ) (ds : List ℕ)
    (h : ∀ d, ds.head? = some d → d ≠ 0) :
    leadingZeros (List.replicate k 0 ++ ds) = k := by
  induction k with
  | zero =>
      cases ds with
      | nil => rfl
      | cons d ds => simp [leadingZeros, h d rfl]
  | succ k ih => simpa [leadingZeros, List.replicate_succ] using ih

theorem eq_zeros_append_digits {β : ℕ} (hβ : 1 < β) (ds : List ℕ) (hds : ∀ d ∈ ds, d < β) :
    List.replicate (leadingZeros ds) 0 ++
      (Nat.digits β (Nat.ofDigits β ds.reverse)).reverse = ds := by
  induction ds with
  | nil => simp [leadingZeros]
  | cons d ds ih =>
      rw [List.forall_mem_cons] at hds
      by_cases hd : d = 0
      · subst hd
        have hz : leadingZeros (0 :: ds) = leadingZeros ds + 1 := by simp [leadingZeros]
        rw [hz, Nat.ofDigits_reverse_zero_cons, List.replicate_succ, List.cons_append, ih hds.2]
      · have hz : leadingZeros (d :: ds) = 0 := by simp [leadingZeros, hd]
        rw [hz, List.replicate_zero, List.nil_append, Nat.digits_ofDigits β hβ,
          List.reverse_reverse]
        · intro l hl
          rcases List.mem_cons.1 (List.mem_reverse.1 hl) with rfl | hl
          · exact hds.1
          · exact hds.2 l hl
        · intro hne
          simpa using hd

/-- Going to another radix and back is the identity. -/
theorem rebase_rebase {β γ : ℕ} (hβ : 1 < β) (hγ : 1 < γ) (ds : List ℕ)
    (hds : ∀ d ∈ ds, d < β) : rebase γ β (rebase β γ ds) = ds := by
  have hz : leadingZeros (rebase β γ ds) = leadingZeros ds := by
    rw [rebase, digits_eq hγ le_rfl]
    exact leadingZeros_replicate_append _ _ digits_reverse_head
  have hn : Nat.ofDigits γ (rebase β γ ds).reverse = Nat.ofDigits β ds.reverse := by
    rw [rebase, digits_eq hγ le_rfl, List.reverse_append, List.reverse_reverse,
      List.reverse_replicate, Nat.ofDigits_append_replicate_zero, Nat.ofDigits_digits]
  rw [rebase, hz, hn, digits_eq hβ le_rfl]
  exact eq_zeros_append_digits hβ ds hds

theorem rebase_lt {β γ : ℕ} (hγ : 1 < γ) (ds : List ℕ) : ∀ d ∈ rebase β γ ds, d < γ := by
  intro d hd
  rw [rebase, digits_eq hγ le_rfl, List.mem_append] at hd
  rcases hd with hd | hd
  · rw [List.eq_of_mem_replicate hd]
    exact Nat.zero_lt_of_lt hγ
  · exact Nat.digits_lt_base hγ (List.mem_reverse.1 hd)

/-- Where `k` digits of the new radix do for one of the old, there are at most `k` for each,
beside the zeros. -/
theorem length_rebase_le {β γ k : ℕ} (hβ : 1 < β) (hγ : 1 < γ) (hk : β ≤ γ ^ k) {ds : List ℕ}
    (hds : ∀ d ∈ ds, d < β) : (rebase β γ ds).length ≤ (k + 1) * ds.length := by
  have hzeros : leadingZeros ds ≤ ds.length := (List.takeWhile_sublist _).length_le
  have hlt : Nat.ofDigits β ds.reverse < γ ^ (k * ds.length) := by
    calc Nat.ofDigits β ds.reverse
        < β ^ ds.reverse.length :=
          Nat.ofDigits_lt_base_pow_length hβ fun d hd => hds d (List.mem_reverse.1 hd)
      _ ≤ (γ ^ k) ^ ds.length := by
          rw [List.length_reverse]
          exact Nat.pow_le_pow_left hk _
      _ = γ ^ (k * ds.length) := (pow_mul γ k ds.length).symm
  have hdigits := (Nat.digits_length_le_iff hγ _).2 hlt
  rw [rebase, digits_eq hγ le_rfl, List.length_append, List.length_replicate, List.length_reverse,
    Nat.add_mul, Nat.one_mul, Nat.add_comm]
  exact Nat.add_le_add hdigits hzeros

theorem rebase_ne_nil {β γ : ℕ} (hβ : 1 < β) (hγ : 1 < γ) {ds : List ℕ}
    (hds : ∀ d ∈ ds, d < β) (h : ds ≠ []) : rebase β γ ds ≠ [] := by
  intro hnil
  have hback := rebase_rebase hβ hγ ds hds
  rw [hnil] at hback
  exact h hback.symm

end Radix
