import Mathlib.Tactic

/-! Fixed-width little-endian encoding of natural numbers and of integers in
two's complement. -/
namespace LittleEndian

/-- The `w` lowest bytes of `n`, the lowest first. -/
def leBytes : ℕ → ℕ → List UInt8
  | 0, _ => []
  | w + 1, n => UInt8.ofNat n :: leBytes w (n / 256)

def leNat (bytes : List UInt8) : ℕ := bytes.foldr (fun b n => b.toNat + 256 * n) 0

@[simp] theorem length_leBytes (w n : ℕ) : (leBytes w n).length = w := by
  induction w generalizing n with
  | zero => rfl
  | succ w ih => rw [leBytes, List.length_cons, ih]

theorem leNat_leBytes (w n : ℕ) : leNat (leBytes w n) = n % 256 ^ w := by
  induction w generalizing n with
  | zero =>
    rw [pow_zero, Nat.mod_one]
    rfl
  | succ w ih =>
    have hstep : leNat (leBytes (w + 1) n) = n % 256 + 256 * leNat (leBytes w (n / 256)) := by
      change (UInt8.ofNat n).toNat + _ = _
      rw [UInt8.toNat_ofNat']
      rfl
    rw [hstep, ih, pow_succ', Nat.mod_mul]

theorem leNat_leBytes_of_lt {w n : ℕ} (h : n < 256 ^ w) : leNat (leBytes w n) = n := by
  rw [leNat_leBytes, Nat.mod_eq_of_lt h]

theorem leNat_lt (bytes : List UInt8) : leNat bytes < 256 ^ bytes.length := by
  induction bytes with
  | nil => exact Nat.one_pos
  | cons b bytes ih =>
    have hb := b.toNat_lt
    have hstep : leNat (b :: bytes) = b.toNat + 256 * leNat bytes := rfl
    rw [hstep, List.length_cons, pow_succ]
    omega

/-- Every list of bytes is the encoding of its number. -/
theorem leBytes_leNat (bytes : List UInt8) : leBytes bytes.length (leNat bytes) = bytes := by
  induction bytes with
  | nil => rfl
  | cons b bytes ih =>
    have hb := b.toNat_lt
    have hstep : leNat (b :: bytes) = b.toNat + 256 * leNat bytes := rfl
    have hlow : UInt8.ofNat (leNat (b :: bytes)) = b := by
      apply UInt8.toNat.inj
      rw [UInt8.toNat_ofNat', hstep]
      omega
    have hhigh : leNat (b :: bytes) / 256 = leNat bytes := by
      rw [hstep]
      omega
    rw [List.length_cons, leBytes, hlow, hhigh, ih]

/-- A number below `2 ^ b` is read back from its balanced remainder. -/
theorem emod_bmod_toNat {b n : ℕ} (h : n < 2 ^ b) :
    ((n : ℤ).bmod (2 ^ b) % 2 ^ b).toNat = n := by
  have hm : ((2 ^ b : ℕ) : ℤ) = 2 ^ b := by norm_cast
  have hlt : (n : ℤ) < 2 ^ b := by
    rw [← hm]
    exact_mod_cast h
  rw [← hm, Int.bmod_emod, hm, Int.emod_eq_of_lt (Int.natCast_nonneg n) hlt, Int.toNat_natCast]

/-- An integer modulo `2 ^ b` is read back by the balanced remainder. -/
theorem bmod_toNat_emod {b : ℕ} {x : ℤ} (hl : -(2 ^ b : ℤ) ≤ x) (hu : x < 2 ^ b) :
    (((x % 2 ^ (b + 1)).toNat : ℕ) : ℤ).bmod (2 ^ (b + 1)) = x := by
  have hp : (0 : ℤ) < 2 ^ (b + 1) := by positivity
  rw [Int.toNat_of_nonneg (Int.emod_nonneg x hp.ne')]
  have hm : ((2 ^ (b + 1) : ℕ) : ℤ) = 2 ^ (b + 1) := by norm_cast
  rw [← hm, Int.emod_bmod]
  apply Int.bmod_eq_of_le
  · rw [hm, pow_succ]
    omega
  · rw [hm, pow_succ]
    omega

end LittleEndian
