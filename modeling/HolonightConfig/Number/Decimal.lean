import HolonightConfig.Number.Binary64
import Mathlib.Tactic.Ring
import Mathlib.Tactic.NormNum

/-! Alphabet and size of printed numbers. -/
namespace Binary64
open Text

def isDigit (c : UInt8) : Bool := 0x30 ≤ c && c ≤ 0x39

/-- The octets a finite number is printed with. -/
def isNumeral (c : UInt8) : Bool := isDigit c || c == 0x2D || c == 0x2B || c == 0x2E || c == 0x65

theorem decimal_digits (n : ℕ) : ∀ c ∈ decimal n, isDigit c = true := by
  intro c hc
  obtain ⟨d,hd,rfl⟩ := List.mem_map.mp hc
  have hdig := Nat.isDigit_of_mem_toDigits (by decide) (by decide) hd
  simp only [Char.isDigit,Bool.and_eq_true,decide_eq_true_eq,ge_iff_le,UInt32.le_iff_toNat_le] at hdig
  have h₁ : 48 ≤ d.toNat := hdig.1
  have h₂ : d.toNat ≤ 57 := hdig.2
  have hn : d.toNat.toUInt8.toNat = d.toNat := by
    simp [Nat.toUInt8,UInt8.toNat_ofNat']
    omega
  simp only [isDigit,Bool.and_eq_true,decide_eq_true_eq,UInt8.le_iff_toNat_le,hn]
  exact ⟨h₁,h₂⟩

theorem length_decimal_le {n k : ℕ} (hk : 0 < k) : (decimal n).length ≤ k ↔ n < 10 ^ k := by
  simpa [decimal] using Nat.length_toDigits_le_iff (b := 10) (by decide) hk

theorem length_decimal_pos (n : ℕ) : 0 < (decimal n).length := by
  simpa [decimal] using Nat.length_toDigits_pos

theorem decimal_ne_nil (n : ℕ) : decimal n ≠ [] := List.ne_nil_of_length_pos (length_decimal_pos n)

/-- The length of a number is the power of ten above it. -/
theorem lt_pow_length (n : ℕ) : n < 10 ^ (decimal n).length :=
  (length_decimal_le (length_decimal_pos n)).mp le_rfl

theorem pow_length_le {n : ℕ} (hn : 0 < n) : 10 ^ ((decimal n).length - 1) ≤ n := by
  by_contra h
  have hl := length_decimal_pos n
  rcases Nat.eq_zero_or_pos ((decimal n).length - 1) with h₀ | h₀
  · rw [h₀] at h; simp at h; omega
  · have := (length_decimal_le h₀).mpr (not_le.mp h)
    omega

theorem halfEven_le {num den b : ℕ} (hd : 0 < den) (h : num ≤ b * den) : halfEven num den ≤ b := by
  unfold halfEven
  have hq : num / den ≤ b := Nat.div_le_of_le_mul (by rwa [Nat.mul_comm] at h)
  have hm := Nat.div_add_mod num den
  dsimp only
  split
  · next hc =>
    by_contra hlt
    have hb : num / den = b := by omega
    have hr : num % den = 0 := by
      rw [hb,Nat.mul_comm] at hm
      omega
    rw [hr] at hc
    omega
  · exact hq

theorem leading_upper {num den : ℕ} (hn : 0 < num) (hd : 0 < den) :
    (scaled num den 10 (-leading num den - 1)).1 ≤ (scaled num den 10 (-leading num den - 1)).2 := by
  unfold leading
  split
  · next h =>
    have hq := lt_pow_length (num / den)
    have hl := length_decimal_pos (num / den)
    have hx : ¬ (0 : ℤ) ≤ -(((decimal (num / den)).length : ℤ) - 1) - 1 := by omega
    have hy : (-(-(((decimal (num / den)).length : ℤ) - 1) - 1)).toNat = (decimal (num / den)).length := by omega
    simp only [scaled,if_neg hx,hy]
    exact (Nat.lt_mul_of_div_lt hq hd).le.trans_eq (Nat.mul_comm _ _)
  · next h =>
    have hq := lt_pow_length (den / num)
    have hl := length_decimal_pos (den / num)
    have hp := pow_length_le (n := den / num) (Nat.div_pos (by omega) hn)
    have hle : num * 10 ^ ((decimal (den / num)).length - 1) ≤ den :=
      (Nat.mul_le_mul_left _ hp).trans (Nat.mul_div_le _ _)
    dsimp only
    split
    · next he =>
      rcases Nat.eq_zero_or_pos ((decimal (den / num)).length - 1) with h₀ | h₀
      · rw [h₀] at he; simp at he; omega
      · have hx : (0 : ℤ) ≤ -(-(((decimal (den / num)).length - 1 : ℕ) : ℤ)) - 1 := by omega
        have hy : (-(-(((decimal (den / num)).length - 1 : ℕ) : ℤ)) - 1).toNat ≤
            (decimal (den / num)).length - 1 := by omega
        simp only [scaled,if_pos hx]
        exact (Nat.mul_le_mul_left _ (Nat.pow_le_pow_right (by decide) hy)).trans hle
    · have hx : (0 : ℤ) ≤ -(-((((decimal (den / num)).length - 1 : ℕ) : ℤ) + 1)) - 1 := by omega
      have hy : (-(-((((decimal (den / num)).length - 1 : ℕ) : ℤ) + 1)) - 1).toNat =
          (decimal (den / num)).length - 1 := by omega
      simp only [scaled,if_pos hx,hy]
      exact hle

theorem scaled_add {num den k : ℕ} {e : ℤ} (h : (scaled num den 10 e).1 ≤ (scaled num den 10 e).2) :
    (scaled num den 10 (k + e)).1 ≤ 10 ^ k * (scaled num den 10 (k + e)).2 := by
  unfold scaled at h ⊢
  by_cases he : 0 ≤ e
  · have hk : 0 ≤ k + e := by omega
    have ht : (k + e).toNat = e.toNat + k := by omega
    rw [if_pos he] at h
    rw [if_pos hk,ht,pow_add,← Nat.mul_assoc,Nat.mul_comm (10 ^ k)]
    exact Nat.mul_le_mul_right _ h
  · rw [if_neg he] at h
    by_cases hk : 0 ≤ k + e
    · have ht : k = (-e).toNat + (k + e).toNat := by omega
      rw [if_pos hk]
      calc num * 10 ^ (k + e).toNat ≤ den * 10 ^ (-e).toNat * 10 ^ (k + e).toNat :=
            Nat.mul_le_mul_right _ h
        _ = den * 10 ^ ((-e).toNat + (k + e).toNat) := by rw [pow_add]; ring
        _ = 10 ^ k * den := by rw [← ht,Nat.mul_comm]
    · have ht : (-e).toNat = (-(k + e)).toNat + k := by omega
      rw [if_neg hk]
      rw [ht,pow_add] at h
      exact h.trans_eq (by ring)

theorem scaled_snd_pos {num den : ℕ} (hd : 0 < den) (e : ℤ) : 0 < (scaled num den 10 e).2 := by
  unfold scaled
  split
  · exact hd
  · exact Nat.mul_pos hd (Nat.pow_pos (by decide))

theorem significantDigits_lt {p num den : ℕ} (hp : 0 < p) (hn : 0 < num) (hd : 0 < den) :
    (significantDigits p num den).1 < 10 ^ p := by
  have hs := scaled_add (k := p) (leading_upper hn hd)
  have he : (p : ℤ) + (-leading num den - 1) = (p : ℤ) - 1 - leading num den := by ring
  rw [he] at hs
  have hle := halfEven_le (@scaled_snd_pos num _ hd ((p : ℤ) - 1 - leading num den)) hs
  unfold significantDigits
  dsimp only
  split
  · exact Nat.pow_lt_pow_right (by decide) (by omega)
  · dsimp only; omega

theorem significantDigits_exponent (p num den : ℕ) :
    (significantDigits p num den).2 = leading num den ∨
      (significantDigits p num den).2 = leading num den + 1 := by
  unfold significantDigits
  dsimp only
  split
  · exact .inr rfl
  · exact .inl rfl

/-- Within a power of ten both ways, the exponent is that small. -/
theorem leading_bound {num den k : ℕ} (hk : 0 < k) (hn : num < 10 ^ k) (hd : den < 10 ^ k) :
    -(k : ℤ) ≤ leading num den ∧ leading num den ≤ k := by
  have h₁ : (decimal (num / den)).length ≤ k :=
    (length_decimal_le hk).mpr ((Nat.div_le_self _ _).trans_lt hn)
  have h₂ : (decimal (den / num)).length ≤ k :=
    (length_decimal_le hk).mpr ((Nat.div_le_self _ _).trans_lt hd)
  have h₃ := length_decimal_pos (den / num)
  unfold leading
  split
  · omega
  · dsimp only
    split <;> omega

/-! ### The general format -/

theorem trimZeros_sublist (s : Bytes) : (trimZeros s).Sublist s := by
  have h := (List.dropWhile_sublist (l := s.reverse) (fun c : UInt8 => c == 0x30)).reverse
  simpa [trimZeros] using h

theorem withFraction_numeral {a b : Bytes} (ha : ∀ c ∈ a, isNumeral c = true)
    (hb : ∀ c ∈ b, isNumeral c = true) : ∀ c ∈ withFraction a b, isNumeral c = true := by
  unfold withFraction
  split
  · exact ha
  · intro c hc
    rcases List.mem_append.mp hc with hc | hc
    · exact ha c hc
    · rcases List.mem_cons.mp hc with rfl | hc
      · decide
      · exact hb c ((trimZeros_sublist b).subset hc)

theorem length_withFraction_le (a b : Bytes) :
    (withFraction a b).length ≤ a.length + b.length + 1 := by
  unfold withFraction
  split
  · omega
  · have := (trimZeros_sublist b).length_le
    simp
    omega

theorem withFraction_ne_nil {a : Bytes} (ha : a ≠ []) (b : Bytes) : withFraction a b ≠ [] := by
  unfold withFraction
  split <;> simp [ha]

theorem decimal_numeral (n : ℕ) : ∀ c ∈ decimal n, isNumeral c = true := by
  intro c hc
  simp [isNumeral,decimal_digits n c hc]

theorem exponentText_numeral (x : ℤ) : ∀ c ∈ exponentText x, isNumeral c = true := by
  have hd := decimal_numeral x.natAbs
  intro c hc
  simp only [exponentText,List.mem_cons] at hc
  rcases hc with rfl | hc
  · split <;> decide
  · split at hc
    · rcases List.mem_cons.mp hc with rfl | hc
      · decide
      · exact hd c hc
    · exact hd c hc

theorem length_exponentText_le {x : ℤ} (h : x.natAbs < 10 ^ 3) : (exponentText x).length ≤ 4 := by
  have hl := (length_decimal_le (k := 3) (by decide)).mpr h
  simp only [exponentText,List.length_cons]
  split <;> simp <;> omega

section Finite
variable {d : Binary64}

theorem magnitude_pos (h : d.magnitude ≠ 0) : 0 < d.ratio.1 ∧ 0 < d.ratio.2 := by
  have hs : 0 < d.significand := by unfold significand; split <;> omega
  unfold ratio
  split
  · exact ⟨Nat.mul_pos hs (Nat.pow_pos (by decide)),Nat.one_pos⟩
  · exact ⟨hs,Nat.pow_pos (by decide)⟩

theorem ratio_lt (h : d.isFinite = true) : d.ratio.1 < 10 ^ 400 ∧ d.ratio.2 < 10 ^ 400 := by
  have hm : d.magnitude < infinityBits := by simpa [isFinite] using h
  have he : d.magnitude / 2 ^ 52 < 2047 := by
    apply Nat.div_lt_of_lt_mul
    exact hm.trans_le (by norm_num [infinityBits])
  have hs : d.significand < 2 ^ 53 := by
    unfold significand
    split
    · next h₀ =>
      have := Nat.div_add_mod d.magnitude (2 ^ 52)
      have := Nat.mod_lt d.magnitude (y := 2 ^ 52) (by decide)
      omega
    · have := Nat.mod_lt d.magnitude (y := 2 ^ 52) (by decide)
      omega
  have hsc : d.scale ≤ 971 ∧ -1074 ≤ d.scale := by unfold scale; omega
  unfold ratio
  split
  · refine ⟨?_,show 1 < 10 ^ 400 by decide +kernel⟩
    calc d.significand * 2 ^ d.scale.toNat ≤ 2 ^ 53 * 2 ^ 971 :=
          Nat.mul_le_mul hs.le (Nat.pow_le_pow_right (by decide) (by omega))
      _ < 10 ^ 400 := by decide +kernel
  · refine ⟨hs.trans (by decide +kernel),?_⟩
    calc 2 ^ (-d.scale).toNat ≤ 2 ^ 1074 := Nat.pow_le_pow_right (by decide) (by omega)
      _ < 10 ^ 400 := by decide +kernel

/-- A finite number is printed with numerals only, and in a few of them. -/
theorem general_spec {p : ℕ} (hp : 0 < p) (h : d.isFinite = true) :
    general p d ≠ [] ∧ (∀ c ∈ general p d, isNumeral c = true) ∧ (general p d).length ≤ p + 8 := by
  have hnan : d.isNaN = false := by
    simp only [isFinite,isNaN,decide_eq_true_eq,decide_eq_false_iff_not] at h ⊢
    omega
  have hsign : ∀ c ∈ (if d.negative then [0x2D] else [] : Bytes), isNumeral c = true := by
    intro c hc
    split at hc
    · obtain rfl := List.mem_singleton.mp hc; decide
    · cases hc
  have hsl : (if d.negative then [0x2D] else [] : Bytes).length ≤ 1 := by split <;> simp
  have happ : ∀ {a b : Bytes}, (∀ c ∈ a, isNumeral c = true) → (∀ c ∈ b, isNumeral c = true) →
      ∀ c ∈ a ++ b, isNumeral c = true := by
    intro a b ha hb c hc
    rcases List.mem_append.mp hc with hc | hc
    · exact ha c hc
    · exact hb c hc
  unfold general
  rw [if_neg (by simp [hnan]),if_neg (by simp [h])]
  split
  · refine ⟨by simp,happ hsign (by intro c hc; obtain rfl := List.mem_singleton.mp hc; decide),?_⟩
    simp only [List.length_append,List.length_singleton]
    omega
  · next hz =>
    obtain ⟨hn,hd⟩ := magnitude_pos hz
    obtain ⟨hn',hd'⟩ := ratio_lt h
    have hlt := significantDigits_lt hp hn hd
    have hlb := leading_bound (by decide) hn' hd'
    have hx := significantDigits_exponent p d.ratio.1 d.ratio.2
    cases hsd : significantDigits p d.ratio.1 d.ratio.2 with
    | mk digits x =>
      rw [hsd] at hlt hx
      dsimp only at hlt hx ⊢
      have hlen := (length_decimal_le hp).mpr hlt
      have hpos := length_decimal_pos digits
      have hnum := decimal_numeral digits
      have htake : ∀ k, ∀ c ∈ (decimal digits).take k, isNumeral c = true :=
        fun k c hc => hnum c (List.mem_of_mem_take hc)
      have hdrop : ∀ k, ∀ c ∈ (decimal digits).drop k, isNumeral c = true :=
        fun k c hc => hnum c (List.mem_of_mem_drop hc)
      have htake_ne : ∀ k, (decimal digits).take (k + 1) ≠ [] := by
        intro k hk
        simp [decimal_ne_nil] at hk
      split
      · next hfix =>
        split
        · next h₀ =>
          refine ⟨by simp [withFraction_ne_nil (htake_ne _)],
            happ hsign (withFraction_numeral (htake _) (hdrop _)),?_⟩
          have := length_withFraction_le ((decimal digits).take (x.toNat + 1))
            ((decimal digits).drop (x.toNat + 1))
          simp only [List.length_append,List.length_take,List.length_drop] at this ⊢
          omega
        · next h₀ =>
          refine ⟨by simp [withFraction_ne_nil],happ hsign (withFraction_numeral ?_ ?_),?_⟩
          · intro c hc; obtain rfl := List.mem_singleton.mp hc; decide
          · apply happ _ hnum
            intro c hc
            obtain ⟨-,rfl⟩ := List.mem_replicate.mp hc
            decide
          · have := length_withFraction_le [0x30] (List.replicate (-x - 1).toNat 0x30 ++ decimal digits)
            simp only [List.length_append,List.length_replicate,List.length_singleton] at this ⊢
            omega
      · refine ⟨by simp,happ (happ hsign (withFraction_numeral (htake _) (hdrop _))) ?_,?_⟩
        · intro c hc
          rcases List.mem_cons.mp hc with rfl | hc
          · decide
          · exact exponentText_numeral x c hc
        · have he := length_exponentText_le (x := x) (by omega)
          have := length_withFraction_le ((decimal digits).take 1) ((decimal digits).drop 1)
          simp only [List.length_append,List.length_cons,List.length_take,List.length_drop] at this ⊢
          omega

end Finite
end Binary64
