import Mathlib.Data.Nat.ModEq
import Mathlib.Data.Finset.Card
import Mathlib.Tactic

/-!
# Triangular probing

A search that moves on by 1, 2, 3, ... buckets modulo a power of two. Its first `2 ^ b` buckets are all
different, so they are all the buckets there are.
-/

namespace CLib

/-- The bucket after `s` moves. -/
def probe (n start s : ℕ) : ℕ := (start + s * (s + 1) / 2) % n

lemma probe_lt {n : ℕ} (hn : 0 < n) (start s : ℕ) : probe n start s < n := Nat.mod_lt _ hn

lemma probe_zero (n start : ℕ) : probe n start 0 = start % n := rfl

lemma triangle_succ (s : ℕ) : (s + 1) * (s + 2) / 2 = s * (s + 1) / 2 + (s + 1) := by
  have h : (s + 1) * (s + 2) = s * (s + 1) + (s + 1) * 2 := by ring
  rw [h, Nat.add_mul_div_right _ _ (by decide)]

lemma probe_succ (n start s : ℕ) : probe n start (s + 1) = (probe n start s + (s + 1)) % n := by
  unfold probe
  rw [triangle_succ, Nat.mod_add_mod, Nat.add_assoc]

lemma two_mul_triangle (s : ℕ) : 2 * (s * (s + 1) / 2) = s * (s + 1) :=
  Nat.mul_div_cancel' (Nat.even_mul_succ_self s).two_dvd

/-- Twice the way between two moves is a product of two numbers of which one is odd. -/
lemma triangle_sub {s t : ℕ} (h : s ≤ t) :
    2 * (t * (t + 1) / 2 - s * (s + 1) / 2) = (t - s) * (t + s + 1) := by
  obtain ⟨d, rfl⟩ := Nat.exists_eq_add_of_le h
  rw [Nat.mul_sub, two_mul_triangle, two_mul_triangle, Nat.add_sub_cancel_left]
  apply Nat.sub_eq_of_eq_add
  ring

/-- Two moves that lead to the same bucket are far apart. -/
lemma dvd_of_probe_eq {b start s t : ℕ} (hst : s ≤ t)
    (h : probe (2 ^ b) start s = probe (2 ^ b) start t) :
    2 ^ (b + 1) ∣ t - s ∨ 2 ^ (b + 1) ∣ t + s + 1 := by
  have hmono : s * (s + 1) / 2 ≤ t * (t + 1) / 2 :=
    Nat.div_le_div_right (Nat.mul_le_mul hst (Nat.succ_le_succ hst))
  have hmod : s * (s + 1) / 2 ≡ t * (t + 1) / 2 [MOD 2 ^ b] := Nat.ModEq.add_left_cancel' start h
  have hdvd : 2 ^ b ∣ t * (t + 1) / 2 - s * (s + 1) / 2 := (Nat.modEq_iff_dvd' hmono).mp hmod
  have hprod : 2 ^ (b + 1) ∣ (t - s) * (t + s + 1) := by
    rw [← triangle_sub hst, Nat.pow_succ']
    exact Nat.mul_dvd_mul_left 2 hdvd
  -- the factor that is odd has nothing in common with the power of two
  rcases Nat.even_or_odd (t - s) with heven | hodd
  · have hodd : Odd (t + s + 1) := by
      have hsum : t + s + 1 = t - s + 2 * s + 1 := by omega
      rw [hsum]
      exact (heven.add (even_two_mul s)).add_one
    exact Or.inl ((Nat.Coprime.pow_left _ (Nat.coprime_two_left.mpr hodd)).dvd_of_dvd_mul_right hprod)
  · exact Or.inr ((Nat.Coprime.pow_left _ (Nat.coprime_two_left.mpr hodd)).dvd_of_dvd_mul_left hprod)

theorem probe_injOn (b start : ℕ) : Set.InjOn (probe (2 ^ b) start) (Set.Iio (2 ^ b)) := by
  have hlt {s t : ℕ} (hst : s < t) (ht : t < 2 ^ b) :
      probe (2 ^ b) start s ≠ probe (2 ^ b) start t := by
    intro h
    have hpow : 2 ^ (b + 1) = 2 * 2 ^ b := Nat.pow_succ'
    rcases dvd_of_probe_eq hst.le h with hdvd | hdvd
    · have hle := Nat.le_of_dvd (by omega) hdvd
      omega
    · have hle := Nat.le_of_dvd (by omega) hdvd
      omega
  intro s hs t ht h
  rcases lt_trichotomy s t with hst | hst | hst
  · exact absurd h (hlt hst ht)
  · exact hst
  · exact absurd h.symm (hlt hst hs)

/-- Every bucket is visited. -/
theorem exists_probe_eq {b i : ℕ} (start : ℕ) (hi : i < 2 ^ b) :
    ∃ s < 2 ^ b, probe (2 ^ b) start s = i := by
  have himage : (Finset.range (2 ^ b)).image (probe (2 ^ b) start) = Finset.range (2 ^ b) := by
    apply Finset.eq_of_subset_of_card_le
    · intro x hx
      obtain ⟨s, -, rfl⟩ := Finset.mem_image.mp hx
      exact Finset.mem_range.mpr (probe_lt (Nat.two_pow_pos b) start s)
    · rw [Finset.card_image_of_injOn]
      intro s hs t ht h
      exact probe_injOn b start (Finset.mem_range.mp hs) (Finset.mem_range.mp ht) h
  have hmem : i ∈ (Finset.range (2 ^ b)).image (probe (2 ^ b) start) := by
    rw [himage]
    exact Finset.mem_range.mpr hi
  obtain ⟨s, hs, rfl⟩ := Finset.mem_image.mp hmem
  exact ⟨s, Finset.mem_range.mp hs, rfl⟩

/-- The search goes through the buckets once more before it is back where it started. -/
lemma probe_ne_start {b start s : ℕ} (hpos : 0 < s) (hlt : s + 1 < 2 ^ (b + 1)) :
    probe (2 ^ b) start s ≠ probe (2 ^ b) start 0 := by
  intro h
  rcases dvd_of_probe_eq (Nat.zero_le s) h.symm with hdvd | hdvd
  · have hle := Nat.le_of_dvd hpos hdvd
    omega
  · have hle := Nat.le_of_dvd (Nat.succ_pos s) hdvd
    omega

lemma probe_back (b start : ℕ) :
    probe (2 ^ b) start (2 ^ (b + 1) - 1) = probe (2 ^ b) start 0 := by
  have hpos := Nat.two_pow_pos (b + 1)
  have hsucc : 2 ^ (b + 1) - 1 + 1 = 2 * 2 ^ b := by
    rw [Nat.sub_add_cancel hpos, Nat.pow_succ']
  have htriangle : (2 ^ (b + 1) - 1) * (2 ^ (b + 1) - 1 + 1) / 2 = (2 ^ (b + 1) - 1) * 2 ^ b := by
    rw [hsucc, Nat.mul_left_comm, Nat.mul_div_cancel_left _ Nat.two_pos]
  rw [probe_zero, probe, htriangle, Nat.add_mul_mod_self_right]

end CLib
