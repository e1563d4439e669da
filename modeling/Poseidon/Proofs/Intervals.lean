import Mathlib.Tactic.Ring
import Poseidon.Temporal.History

/-!
# The interval of the anchors

`isqrt_u64` finds the root bit by bit. Before bit `m - 1` of the root is
tried, `q` is the root so far: `r` is `q * 2 ^ m`, `x` is what is left of the
number when `q * q` is taken away, and the root is below `q + 2 ^ m`. The
interval is a power of two from 64 to 1024, so that it divides 1024.
-/

namespace Poseidon.Temporal

/-! ## The square root -/

/-- The value of `bit` before bit `m - 1` of the root is tried. -/
def bitOf : Nat → Nat
  | 0 => 0
  | m + 1 => 4 ^ m

theorem bitOf_div (m : Nat) : 4 ^ m / 4 = bitOf m := by
  cases m with
  | zero => rfl
  | succ m => rw [Nat.pow_succ, Nat.mul_div_cancel _ (by decide)]; rfl

theorem four_pow (m : Nat) : 4 ^ m = 2 ^ m * 2 ^ m := by
  rw [← Nat.mul_pow]

/-- The first loop ends at the highest bit that can be in the root. -/
theorem isqrtStart_eq {x : Nat} (m : Nat) : x < 4 ^ m →
    ∃ k, k ≤ m ∧ x < 4 ^ k ∧ isqrtStartChecked m x (bitOf m) = some (bitOf k) ∧
      isqrtStart m x (bitOf m) = bitOf k := by
  induction m with
  | zero => exact fun h => ⟨0, Nat.le_refl 0, h, rfl, rfl⟩
  | succ m ih =>
      intro h
      rw [isqrtStartChecked, isqrtStart]
      by_cases hlt : x < bitOf (m + 1)
      · obtain ⟨k, hk, hx, hchecked, hstart⟩ := ih hlt
        rw [if_pos hlt, if_pos hlt, bitOf, bitOf_div]
        exact ⟨k, by omega, hx, hchecked, hstart⟩
      · rw [if_neg hlt, if_neg hlt]
        exact ⟨m + 1, Nat.le_refl _, h, rfl, rfl⟩

/-- The second loop, with the root `q` of the bits that have been tried. -/
theorem isqrtLoop_eq (fuel : Nat) : ∀ {m x q : Nat}, m ≤ fuel → q + 2 ^ m ≤ 2 ^ 32 →
    x + q * q < (q + 2 ^ m) * (q + 2 ^ m) →
    ∃ root, isqrtLoopChecked fuel x (q * 2 ^ m) (bitOf m) = some root ∧
      isqrtLoop fuel x (q * 2 ^ m) (bitOf m) = root ∧
      root * root ≤ x + q * q ∧ x + q * q < (root + 1) * (root + 1) := by
  induction fuel with
  | zero =>
      intro m x q hm hq hx
      obtain rfl : m = 0 := by omega
      rw [Nat.pow_zero, Nat.mul_one]
      exact ⟨q, rfl, rfl, by omega, hx⟩
  | succ fuel ih =>
      intro m x q hm hq hx
      cases m with
      | zero =>
          rw [Nat.pow_zero, Nat.mul_one]
          exact ⟨q, rfl, rfl, by omega, hx⟩
      | succ m =>
          have hpos : 4 ^ m ≠ 0 := Nat.ne_of_gt (Nat.pow_pos (by decide))
          have htwo : 0 < 2 ^ m := Nat.two_pow_pos m
          have hdouble : q * 2 ^ (m + 1) = 2 * (q * 2 ^ m) := by rw [Nat.pow_succ]; ring
          have hhalf : q * 2 ^ (m + 1) / 2 = q * 2 ^ m := by omega
          -- the square of the root with bit `m`
          have hsquare : (q + 2 ^ m) * (q + 2 ^ m) = q * q + (q * 2 ^ (m + 1) + 4 ^ m) := by
            rw [hdouble, four_pow]
            ring
          have hnext : q + 2 ^ (m + 1) = q + 2 ^ m + 2 ^ m := by rw [Nat.pow_succ]; ring
          rw [hnext] at hq hx
          have hfits : q * 2 ^ (m + 1) + 4 ^ m < 2 ^ 64 := by
            have hroot : q + 2 ^ m ≤ 2 ^ 32 - 1 := by omega
            have hle : (q + 2 ^ m) * (q + 2 ^ m) ≤ (2 ^ 32 - 1) * (2 ^ 32 - 1) :=
              Nat.mul_le_mul hroot hroot
            omega
          rw [isqrtLoopChecked, isqrtLoop, bitOf, if_neg hpos, if_neg hpos, if_neg
            (by omega), hhalf,
            bitOf_div]
          by_cases hbit : q * 2 ^ (m + 1) + 4 ^ m ≤ x
          · have hr : q * 2 ^ m + 4 ^ m = (q + 2 ^ m) * 2 ^ m := by rw [four_pow]; ring
            have hleft : x - (q * 2 ^ (m + 1) + 4 ^ m) + (q + 2 ^ m) * (q + 2 ^ m) = x + q * q := by
              omega
            obtain ⟨root, hchecked, hloop, hle, hlt⟩ := ih (m := m)
              (x := x - (q * 2 ^ (m + 1) + 4 ^ m)) (q := q + 2 ^ m) (by omega) hq
              (by rw [hleft]; exact hx)
            rw [hleft] at hle hlt
            rw [if_pos hbit, if_pos hbit, hr]
            exact ⟨root, hchecked, hloop, hle, hlt⟩
          · rw [if_neg hbit, if_neg hbit]
            exact ih (by omega) (by omega) (by omega)

/-- The root is found without a sum that does not fit. -/
theorem isqrt_spec {x : Nat} (hx : x < 2 ^ 64) :
    isqrtChecked x = some (isqrtU64 x) ∧ isqrtU64 x * isqrtU64 x ≤ x ∧
      x < (isqrtU64 x + 1) * (isqrtU64 x + 1) := by
  obtain ⟨k, hk, hxk, hchecked, hstart⟩ := isqrtStart_eq 32 (show x < 4 ^ 32 by omega)
  have hpow : 2 ^ k ≤ 2 ^ 32 := Nat.pow_le_pow_right (by decide) hk
  obtain ⟨root, hroot, hloop, hle, hlt⟩ := isqrtLoop_eq 32 (m := k) (x := x) (q := 0) hk (by omega)
    (by rw [four_pow] at hxk; simpa using hxk)
  rw [Nat.zero_mul] at hroot hloop
  have heq : isqrtU64 x = root := by
    rw [isqrtU64, show (2 ^ 62 : Nat) = bitOf 32 by decide, hstart, hloop]
  rw [heq, isqrtChecked, show (2 ^ 62 : Nat) = bitOf 32 by decide, hchecked]
  exact ⟨hroot, by omega, by omega⟩

theorem isqrtU64_mono {x y : Nat} (hxy : x ≤ y) (hy : y < 2 ^ 64) : isqrtU64 x ≤ isqrtU64 y := by
  obtain ⟨-, hx, -⟩ := isqrt_spec (show x < 2 ^ 64 by omega)
  obtain ⟨-, -, hlt⟩ := isqrt_spec hy
  by_contra hgt
  have hsquare : (isqrtU64 y + 1) * (isqrtU64 y + 1) ≤ isqrtU64 x * isqrtU64 x :=
    Nat.mul_le_mul (by omega) (by omega)
  omega

/-! ## The power of two -/

theorem pow2From_step {fuel x p : Nat} (h : p < x) :
    pow2From (fuel + 1) x p = pow2From fuel x (2 * p) := if_pos h

theorem pow2From_stop {fuel x p : Nat} (h : x ≤ p) : pow2From (fuel + 1) x p = p :=
  if_neg (Nat.not_lt.mpr h)

theorem pow2From_one {x : Nat} (hlo : 64 ≤ x) : pow2From 64 x 1 = pow2From 58 x 64 := by
  rw [pow2From_step (by omega), pow2From_step (by omega), pow2From_step (by omega),
    pow2From_step (by omega), pow2From_step (by omega), pow2From_step (by omega)]

/-- The powers of two change in the middle between two of them. -/
theorem snapPow2_eq {x : Nat} (hlo : 64 ≤ x) (hhi : x ≤ 1024) :
    snapPow2 x = if x ≤ 96 then 64 else if x ≤ 192 then 128 else if x ≤ 384 then 256
      else if x ≤ 768 then 512 else 1024 := by
  have hp : pow2From 64 x 1 = if x ≤ 64 then 64 else if x ≤ 128 then 128 else if x ≤ 256 then 256
      else if x ≤ 512 then 512 else 1024 := by
    rw [pow2From_one hlo]
    split
    · next h => rw [pow2From_stop h]
    · next h =>
        rw [pow2From_step (by omega)]
        split
        · next h => rw [pow2From_stop h]
        · next h =>
            rw [pow2From_step (by omega)]
            split
            · next h => rw [pow2From_stop h]
            · next h =>
                rw [pow2From_step (by omega)]
                split
                · next h => rw [pow2From_stop h]
                · next h => rw [pow2From_step (by omega), pow2From_stop (by omega)]
  rw [snapPow2, hp]
  repeat' split
  all_goals omega

theorem adaptiveInterval_of_ge {freq : Nat} (h : 64 ≤ freq) :
    adaptiveInterval freq = snapPow2 (max 64 (min 1024 (isqrtU64 freq * 8))) :=
  if_neg (Nat.not_lt.mpr h)

theorem adaptiveInterval_eq (k : Nat) : ∃ j, 6 ≤ j ∧ j ≤ 10 ∧ adaptiveInterval k = 2 ^ j := by
  rcases Nat.lt_or_ge k 64 with hlt | hge
  · exact ⟨6, by omega, by omega, if_pos hlt⟩
  · rw [adaptiveInterval_of_ge hge, snapPow2_eq (by omega) (by omega)]
    split
    · exact ⟨6, by omega, by omega, rfl⟩
    · split
      · exact ⟨7, by omega, by omega, rfl⟩
      · split
        · exact ⟨8, by omega, by omega, rfl⟩
        · split
          · exact ⟨9, by omega, by omega, rfl⟩
          · exact ⟨10, by omega, by omega, rfl⟩

theorem adaptiveInterval_mono {c c' : Nat} (hle : c ≤ c') (hlt : c' < 2 ^ 64) :
    adaptiveInterval c ≤ adaptiveInterval c' := by
  obtain ⟨j, hj, -, heq⟩ := adaptiveInterval_eq c'
  rcases Nat.lt_or_ge c 64 with hc | hc
  · have hpow : 2 ^ 6 ≤ 2 ^ j := Nat.pow_le_pow_right (by decide) hj
    rw [heq, adaptiveInterval, if_pos hc]
    exact hpow
  · have hroot := isqrtU64_mono hle hlt
    rw [adaptiveInterval_of_ge hc, adaptiveInterval_of_ge (by omega), snapPow2_eq
      (by omega) (by omega),
      snapPow2_eq (by omega) (by omega)]
    repeat' split
    all_goals omega

/-- Every multiple of 1024 makes an anchor. -/
theorem atInterval_of_dvd {k : Nat} (h : k % 1024 = 0) : atInterval k = true := by
  obtain ⟨j, -, hj, heq⟩ := adaptiveInterval_eq k
  have hdvd : 2 ^ j ∣ k := Nat.dvd_trans (Nat.pow_dvd_pow 2 hj) (Nat.dvd_of_mod_eq_zero h)
  rw [atInterval, heq, Nat.mod_eq_zero_of_dvd hdvd]
  rfl

/-- No odd number does. -/
theorem atInterval_odd {k : Nat} (h : k % 2 = 1) : atInterval k = false := by
  obtain ⟨j, hj, -, heq⟩ := adaptiveInterval_eq k
  obtain ⟨i, rfl⟩ : ∃ i, j = i + 1 := ⟨j - 1, by omega⟩
  have hne : k % 2 ^ (i + 1) ≠ 0 := by
    intro hzero
    have hdvd : 2 ∣ k :=
      Nat.dvd_trans ⟨2 ^ i, by rw [Nat.pow_succ, Nat.mul_comm]⟩ (Nat.dvd_of_mod_eq_zero hzero)
    omega
  rw [atInterval, heq]
  exact beq_false_of_ne hne

/-- The root is exact and its computation does not overflow, the interval is a
power of two from 64 to 1024 that grows with the count, and of any 1024 counts
in a row one makes an anchor. -/
theorem adaptive_interval_anchors :
    (∀ x, x < 2 ^ 64 → ∃ root, isqrtChecked x = some root ∧ isqrtU64 x = root ∧ root * root ≤ x ∧
      x < (root + 1) * (root + 1)) ∧
    (∀ c, ∃ j, adaptiveInterval c = 2 ^ j ∧ 64 ≤ 2 ^ j ∧ 2 ^ j ≤ 1024) ∧
    (∀ c c', c ≤ c' → c' < 2 ^ 64 → adaptiveInterval c ≤ adaptiveInterval c') ∧
    ∀ s, ∃ c, s ≤ c ∧ c < s + 1024 ∧ c % adaptiveInterval c = 0 ∧ atInterval c = true := by
  refine ⟨fun x hx => ?_, fun c => ?_, fun c c' => adaptiveInterval_mono, fun s => ?_⟩
  · obtain ⟨hchecked, hle, hlt⟩ := isqrt_spec hx
    exact ⟨_, hchecked, rfl, hle, hlt⟩
  · obtain ⟨j, h6, h10, heq⟩ := adaptiveInterval_eq c
    exact ⟨j, heq, Nat.pow_le_pow_right (show 0 < 2 by decide) h6,
      Nat.pow_le_pow_right (show 0 < 2 by decide) h10⟩
  · have hanchor : atInterval ((s + 1023) / 1024 * 1024) = true := atInterval_of_dvd (by omega)
    refine ⟨(s + 1023) / 1024 * 1024, by omega, by omega, ?_, hanchor⟩
    rw [atInterval, beq_iff_eq] at hanchor
    exact hanchor

/-- The largest number, and the counts from 100 on. -/
theorem adaptive_interval_anchors_max :
    isqrtChecked (2 ^ 64 - 1) = some (2 ^ 32 - 1) ∧ adaptiveInterval 100 ≤
    adaptiveInterval 9000 := by
  obtain ⟨hroot, -, hmono, -⟩ := adaptive_interval_anchors
  obtain ⟨root, hchecked, -, hle, hlt⟩ := hroot (2 ^ 64 - 1) (by decide)
  have hmax : root = 2 ^ 32 - 1 := by
    rcases Nat.lt_trichotomy root (2 ^ 32 - 1) with hless | heq | hmore
    · have hsquare : (root + 1) * (root + 1) ≤ (2 ^ 32 - 1) * (2 ^ 32 - 1) :=
        Nat.mul_le_mul (by omega) (by omega)
      omega
    · exact heq
    · have hsquare : 2 ^ 32 * 2 ^ 32 ≤ root * root := Nat.mul_le_mul (by omega) (by omega)
      omega
  rw [hmax] at hchecked
  exact ⟨hchecked, hmono 100 9000 (by decide) (by decide)⟩

end Poseidon.Temporal
