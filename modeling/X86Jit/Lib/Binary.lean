import X86Jit.Lib.Rounding

/-! Binary floating-point formats by their encodings. The nonnegative numbers of a format stand in
one row: the next code is the next number. -/
namespace X86Jit.Lib
open Nat

/-- Of a row of numbers the one nearest to `x`, of two the one at the even place. -/
structure Nearest (v : ℕ → ℝ) (x : ℝ) (c : ℕ) : Prop where
  le : ∀ c', |v c - x| ≤ |v c' - x|
  even : ∀ c', c' ≠ c → |v c - x| = |v c' - x| → Even c

namespace Nearest
variable {v : ℕ → ℝ} {x : ℝ} {c c' : ℕ}

theorem self (hv : StrictMono v) (c : ℕ) : Nearest v (v c) c where
  le := by
    intro c'
    rw [sub_self, abs_zero]
    exact abs_nonneg _
  even := by
    intro c' hne heq
    rw [sub_self, abs_zero, eq_comm, abs_eq_zero, sub_eq_zero] at heq
    exact absurd (hv.injective heq) hne

theorem of_between (hv : StrictMono v) (hlow : v c ≤ x) (hhigh : x < v (c + 1)) (up : Prop)
    [Decidable up]
    (hup : up ↔ v (c + 1) - x < x - v c ∨ v (c + 1) - x = x - v c ∧ ¬Even c) :
    Nearest v x (if up then c + 1 else c) := by
  -- whatever lies further out is further away
  have hbelow (c' : ℕ) (h : c' ≤ c) : |v c - x| ≤ |v c' - x| ∧ (c' ≠ c → |v c - x| < |v c' - x|) := by
    have hle : v c' ≤ v c := hv.monotone h
    rw [abs_of_nonpos (by linarith), abs_of_nonpos (by linarith)]
    refine ⟨by linarith, ?_⟩
    intro hne
    have hlt : v c' < v c := hv (lt_of_le_of_ne h hne)
    linarith
  have habove (c' : ℕ) (h : c + 1 ≤ c') :
      |v (c + 1) - x| ≤ |v c' - x| ∧ (c' ≠ c + 1 → |v (c + 1) - x| < |v c' - x|) := by
    have hle : v (c + 1) ≤ v c' := hv.monotone h
    rw [abs_of_nonneg (by linarith), abs_of_nonneg (by linarith)]
    refine ⟨by linarith, ?_⟩
    intro hne
    have hlt : v (c + 1) < v c' := hv (lt_of_le_of_ne h (Ne.symm hne))
    linarith
  have hdown : |v c - x| = x - v c := by
    rw [abs_of_nonpos (by linarith), neg_sub]
  have hnext : |v (c + 1) - x| = v (c + 1) - x := abs_of_nonneg (by linarith)
  by_cases h : up
  · rw [if_pos h]
    have hnear : |v (c + 1) - x| ≤ |v c - x| := by
      rw [hdown, hnext]
      rcases hup.mp h with hlt | ⟨heq, -⟩
      · exact hlt.le
      · exact heq.le
    constructor
    · intro c'
      rcases lt_or_ge c c' with hlt | hge
      · exact (habove c' hlt).1
      · exact hnear.trans (hbelow c' hge).1
    · intro c' hne heq
      rcases lt_or_ge c c' with hlt | hge
      · exact absurd heq ((habove c' hlt).2 hne).ne
      · -- a tie with a number below is a tie with the neighbour
        have htie : |v (c + 1) - x| = |v c - x| :=
          le_antisymm hnear (heq ▸ (hbelow c' hge).1)
        rw [hdown, hnext] at htie
        rcases hup.mp h with hlt | ⟨-, hodd⟩
        · exact absurd htie hlt.ne
        · exact even_add_one.mpr hodd
  · rw [if_neg h]
    obtain ⟨hge, htie⟩ := not_or.mp (mt hup.mpr h)
    have hnear : |v c - x| ≤ |v (c + 1) - x| := by
      rw [hdown, hnext]
      exact not_lt.mp hge
    constructor
    · intro c'
      rcases lt_or_ge c c' with hlt | hge
      · exact hnear.trans (habove c' hlt).1
      · exact (hbelow c' hge).1
    · intro c' hne heq
      rcases lt_or_ge c c' with hlt | hge
      · have heq' : |v c - x| = |v (c + 1) - x| := le_antisymm hnear (heq ▸ (habove c' hlt).1)
        rw [hdown, hnext] at heq'
        by_contra hodd
        exact htie ⟨heq'.symm, hodd⟩
      · exact absurd heq ((hbelow c' hge).2 hne).ne

theorem unique_of_le (hv : StrictMono v) (h : Nearest v x c) (h' : Nearest v x c') (hle : c ≤ c') :
    c = c' := by
  by_contra hne
  have heq : |v c - x| = |v c' - x| := le_antisymm (h.le c') (h'.le c)
  have heven := h.even c' (Ne.symm hne) heq
  have heven' := h'.even c hne heq.symm
  have hlt : c < c' := lt_of_le_of_ne hle hne
  -- both are even, so that there is one between them, which is nearer
  have hbetween : c + 1 < c' := by
    obtain ⟨m, rfl⟩ := heven
    obtain ⟨n, rfl⟩ := heven'
    omega
  have hlow : v c < v (c + 1) := hv (lt_succ_self c)
  have hhigh : v (c + 1) < v c' := hv hbetween
  have hmid := h.le (c + 1)
  rcases abs_eq_abs.mp heq with hsame | hopposite
  · exact (hv hlt).ne (by linarith)
  · have hout : |v c - x| = x - v c := by
      rw [abs_of_nonpos (by linarith), neg_sub]
    have hin : |v (c + 1) - x| < x - v c := by
      rw [abs_lt]
      constructor <;> linarith
    linarith

theorem unique (hv : StrictMono v) (h : Nearest v x c) (h' : Nearest v x c') : c = c' := by
  rcases le_total c c' with hle | hle
  · exact unique_of_le hv h h' hle
  · exact (unique_of_le hv h' h hle).symm

end Nearest

/-- The bits of the fraction and the exponent of the smallest normal number. The exponent has no
upper bound. -/
structure Binary where
  bits : ℕ
  emin : ℤ

namespace Binary
variable (F : Binary)

noncomputable def val (c : ℕ) : ℝ :=
  if c < 2 ^ F.bits then c * (2 : ℕ) ^ (F.emin - F.bits)
  else (2 ^ F.bits + c % 2 ^ F.bits : ℕ) *
    (2 : ℕ) ^ (F.emin - F.bits + (c / 2 ^ F.bits - 1 : ℕ))

variable {F} {j k : ℕ}

theorem val_code (hk : k ≤ 2 ^ (F.bits + 1)) (h : j = 0 ∨ 2 ^ F.bits ≤ k) :
    F.val (j * 2 ^ F.bits + k) = k * 2 ^ (F.emin - F.bits + j) := by
  have hpos : 0 < 2 ^ F.bits := Nat.two_pow_pos _
  unfold val
  rw [cast_ofNat]
  by_cases hsmall : k < 2 ^ F.bits
  · have hj : j = 0 := h.resolve_right (not_le.mpr hsmall)
    rw [hj, zero_mul, zero_add, if_pos hsmall, cast_zero, add_zero]
  · have hlarge : ¬j * 2 ^ F.bits + k < 2 ^ F.bits := by omega
    obtain ⟨r, rfl⟩ := Nat.exists_eq_add_of_le (not_lt.mp hsmall)
    have hsplit : j * 2 ^ F.bits + (2 ^ F.bits + r) = r + (j + 1) * 2 ^ F.bits := by ring
    rw [if_neg hlarge, hsplit, add_mul_mod_self_right, add_mul_div_right _ _ hpos]
    rcases lt_or_ge r (2 ^ F.bits) with hr | hr
    · rw [mod_eq_of_lt hr, div_eq_of_lt hr]
      congr 3
      omega
    · -- the next power of two
      have hr' : r = 2 ^ F.bits := by omega
      have hexp : ((1 + (j + 1) - 1 : ℕ) : ℤ) = j + 1 := by omega
      rw [hr', Nat.mod_self, Nat.div_self hpos, add_zero, hexp, ← add_assoc,
        zpow_add_one₀ two_ne_zero]
      push_cast
      ring

theorem exists_units (F : Binary) (c : ℕ) : ∃ j k, c = j * 2 ^ F.bits + k ∧
    k < 2 ^ (F.bits + 1) ∧ (j = 0 ∨ 2 ^ F.bits ≤ k) := by
  have hpos : 0 < 2 ^ F.bits := Nat.two_pow_pos _
  have hsplit := div_add_mod' c (2 ^ F.bits)
  cases hd : c / 2 ^ F.bits with
  | zero =>
    refine ⟨0, c, by omega, ?_, .inl rfl⟩
    rw [hd] at hsplit
    omega
  | succ d =>
    refine ⟨d, 2 ^ F.bits + c % 2 ^ F.bits, ?_, by omega, .inr (le_add_right _ _)⟩
    rw [hd, succ_mul] at hsplit
    omega

theorem val_strictMono (F : Binary) : StrictMono F.val := by
  apply strictMono_nat_of_lt_succ
  intro c
  obtain ⟨j, k, rfl, hk, h⟩ := F.exists_units c
  have hpow : (0 : ℝ) < 2 ^ (F.emin - F.bits + j) := zpow_pos two_pos _
  have hnext : j = 0 ∨ 2 ^ F.bits ≤ k + 1 := h.imp_right fun hle => hle.trans (le_succ k)
  rw [add_assoc, val_code hk.le h, val_code hk hnext]
  apply mul_lt_mul_of_pos_right _ hpow
  exact_mod_cast lt_succ_self k

open Classical in
theorem nearest_parts (hbits : 1 ≤ F.bits) (hk : k < 2 ^ (F.bits + 1))
    (h : j = 0 ∨ 2 ^ F.bits ≤ k) {f : ℝ} (h₀ : 0 ≤ f) (h₁ : f < 1) :
    Nearest F.val ((k + f) * 2 ^ (F.emin - F.bits + j))
      (j * 2 ^ F.bits + k + if Rounding.nearestEven.GoesUp false k f then 1 else 0) := by
  have hpow : (0 : ℝ) < 2 ^ (F.emin - F.bits + j) := zpow_pos two_pos _
  have hnext : j = 0 ∨ 2 ^ F.bits ≤ k + 1 := h.imp_right fun hle => hle.trans (le_succ k)
  have hval : F.val (j * 2 ^ F.bits + k) = k * 2 ^ (F.emin - F.bits + j) := val_code hk.le h
  have hval' : F.val (j * 2 ^ F.bits + k + 1) = (k + 1) * 2 ^ (F.emin - F.bits + j) := by
    have hcode := val_code hk hnext
    push_cast at hcode
    rw [add_assoc, hcode]
  have heven : Even (j * 2 ^ F.bits + k) ↔ Even k := by
    have hdvd : Even (j * 2 ^ F.bits) :=
      (even_pow.mpr ⟨even_two, one_le_iff_ne_zero.mp hbits⟩).mul_left j
    rw [even_add, iff_true_left hdvd]
  generalize (2 : ℝ) ^ (F.emin - F.bits + j) = u at hpow hval hval' ⊢
  have hlow : F.val (j * 2 ^ F.bits + k) ≤ (k + f) * u := by
    rw [hval]
    apply mul_le_mul_of_nonneg_right _ hpow.le
    linarith
  have hhigh : (k + f) * u < F.val (j * 2 ^ F.bits + k + 1) := by
    rw [hval']
    apply mul_lt_mul_of_pos_right _ hpow
    linarith
  have hup : Rounding.nearestEven.GoesUp false k f ↔
      F.val (j * 2 ^ F.bits + k + 1) - (k + f) * u < (k + f) * u - F.val (j * 2 ^ F.bits + k) ∨
        F.val (j * 2 ^ F.bits + k + 1) - (k + f) * u =
          (k + f) * u - F.val (j * 2 ^ F.bits + k) ∧ ¬Even (j * 2 ^ F.bits + k) := by
    have hdist : F.val (j * 2 ^ F.bits + k + 1) - (k + f) * u = (1 - f) * u := by
      rw [hval']
      ring
    have hdist' : (k + f) * u - F.val (j * 2 ^ F.bits + k) = f * u := by
      rw [hval]
      ring
    have hlt : 1 < f + f ↔ 1 - f < f := sub_lt_iff_lt_add.symm
    have heq : f + f = 1 ↔ 1 - f = f := by
      rw [sub_eq_iff_eq_add, eq_comm]
    rw [hdist, hdist', mul_lt_mul_iff_left₀ hpow, mul_left_inj' hpow.ne', heven, ← hlt, ← heq]
    rfl
  have hnear := Nearest.of_between F.val_strictMono hlow hhigh _ hup
  by_cases hgoes : Rounding.nearestEven.GoesUp false k f
  · rw [if_pos hgoes] at hnear ⊢
    exact hnear
  · rw [if_neg hgoes] at hnear ⊢
    exact hnear

end Binary

end X86Jit.Lib
