import HolonightConfig.Text.Utf8

/-! Well-formed UTF-8 is what the encodings of Unicode scalar values in a row are. -/
namespace Text

namespace Utf8

/-- The encodings of scalar values in a row. -/
def encode (cs : List Char) : Bytes := cs.flatMap String.utf8EncodeChar

/-- The rows of the table of well-formed octet sequences, by their first octet. -/
theorem lead_cases (b : UInt8) : (lead b = none ∧ (0x80 ≤ b.toNat ∧ b.toNat ≤ 0xC1 ∨ 0xF5 ≤ b.toNat)) ∨
    (lead b = some .start ∧ b.toNat ≤ 0x7F) ∨
    (lead b = some (.owing 0x80 0xBF 0) ∧ 0xC2 ≤ b.toNat ∧ b.toNat ≤ 0xDF) ∨
    (lead b = some (.owing 0xA0 0xBF 1) ∧ b.toNat = 0xE0) ∨
    (lead b = some (.owing 0x80 0x9F 1) ∧ b.toNat = 0xED) ∨
    (lead b = some (.owing 0x80 0xBF 1) ∧ 0xE1 ≤ b.toNat ∧ b.toNat ≤ 0xEF ∧ b.toNat ≠ 0xED) ∨
    (lead b = some (.owing 0x90 0xBF 2) ∧ b.toNat = 0xF0) ∨
    (lead b = some (.owing 0x80 0x8F 2) ∧ b.toNat = 0xF4) ∨
    (lead b = some (.owing 0x80 0xBF 2) ∧ 0xF1 ≤ b.toNat ∧ b.toNat ≤ 0xF3) := by
  revert b
  apply forall_octet
  decide +kernel

theorem run_start {b : UInt8} {q : State} (h : lead b = some q) (r : Bytes) : run .start (b :: r) = run q r := by
  simp [run,step,h]

theorem run_last {low high c : UInt8} (h : low.toNat ≤ c.toNat ∧ c.toNat ≤ high.toNat) (r : Bytes) :
    run (.owing low high 0) (c :: r) = run .start r := by
  simp [run,step,UInt8.le_iff_toNat_le,h]

theorem run_more {low high c : UInt8} (h : low.toNat ≤ c.toNat ∧ c.toNat ≤ high.toNat) (m : ℕ) (r : Bytes) :
    run (.owing low high (m + 1)) (c :: r) = run (.owing 0x80 0xBF m) r := by
  simp [run,step,UInt8.le_iff_toNat_le,h]

theorem toNat_octet {n : ℕ} (h : n < 256) : (UInt8.ofNat n).toNat = n := by
  rw [UInt8.toNat_ofNat']
  omega

/-- The encoding of a scalar value is one character. -/
theorem run_encodeChar (c : Char) (r : Bytes) : run .start (String.utf8EncodeChar c ++ r) = run .start r := by
  have hv : c.val.toNat < 0xD800 ∨ 0xDFFF < c.val.toNat ∧ c.val.toNat < 0x110000 := c.valid
  unfold String.utf8EncodeChar
  generalize c.val.toNat = v at hv
  dsimp only
  have h₁ : (0x80 : UInt8).toNat = 0x80 ∧ (0xBF : UInt8).toNat = 0xBF ∧ (0xA0 : UInt8).toNat = 0xA0 ∧
    (0x9F : UInt8).toNat = 0x9F ∧ (0x90 : UInt8).toNat = 0x90 ∧ (0x8F : UInt8).toNat = 0x8F := by decide
  split_ifs with ha hb hc
  · have hn := @toNat_octet v (by omega)
    rcases lead_cases (.ofNat v) with ⟨hl,h⟩ | ⟨hl,h⟩ | ⟨hl,h⟩ | ⟨hl,h⟩ | ⟨hl,h⟩ | ⟨hl,h⟩ | ⟨hl,h⟩ | ⟨hl,h⟩ | ⟨hl,h⟩
    case inr.inl => exact run_start hl r
    all_goals omega
  · have hn := @toNat_octet (v / 64 % 0x20 + 0xC0) (by omega)
    have hn₁ := @toNat_octet (v % 0x40 + 0x80) (by omega)
    rcases lead_cases (.ofNat (v / 64 % 0x20 + 0xC0)) with
      ⟨hl,h⟩ | ⟨hl,h⟩ | ⟨hl,h⟩ | ⟨hl,h⟩ | ⟨hl,h⟩ | ⟨hl,h⟩ | ⟨hl,h⟩ | ⟨hl,h⟩ | ⟨hl,h⟩
    case inr.inr.inl => exact (run_start hl _).trans (run_last (by omega) r)
    all_goals omega
  · have hn := @toNat_octet (v / 4096 % 0x10 + 0xE0) (by omega)
    have hn₁ := @toNat_octet (v / 64 % 0x40 + 0x80) (by omega)
    have hn₂ := @toNat_octet (v % 0x40 + 0x80) (by omega)
    rcases lead_cases (.ofNat (v / 4096 % 0x10 + 0xE0)) with
      ⟨hl,h⟩ | ⟨hl,h⟩ | ⟨hl,h⟩ | ⟨hl,h⟩ | ⟨hl,h⟩ | ⟨hl,h⟩ | ⟨hl,h⟩ | ⟨hl,h⟩ | ⟨hl,h⟩
    all_goals first
      | omega
      | exact (run_start hl _).trans ((run_more (by omega) 0 _).trans (run_last (by omega) r))
  · have hn := @toNat_octet (v / 262144 % 0x08 + 0xF0) (by omega)
    have hn₁ := @toNat_octet (v / 4096 % 0x40 + 0x80) (by omega)
    have hn₂ := @toNat_octet (v / 64 % 0x40 + 0x80) (by omega)
    have hn₃ := @toNat_octet (v % 0x40 + 0x80) (by omega)
    rcases lead_cases (.ofNat (v / 262144 % 0x08 + 0xF0)) with
      ⟨hl,h⟩ | ⟨hl,h⟩ | ⟨hl,h⟩ | ⟨hl,h⟩ | ⟨hl,h⟩ | ⟨hl,h⟩ | ⟨hl,h⟩ | ⟨hl,h⟩ | ⟨hl,h⟩
    all_goals first
      | omega
      | exact (run_start hl _).trans ((run_more (by omega) 1 _).trans ((run_more (by omega) 0 _).trans
          (run_last (by omega) r)))

/-- What is owed is there. -/
theorem run_owing_last {low high : UInt8} {r : Bytes} (h : run (.owing low high 0) r = some .start) :
    ∃ c r', r = c :: r' ∧ (low.toNat ≤ c.toNat ∧ c.toNat ≤ high.toNat) ∧ run .start r' = some .start := by
  cases r with
  | nil => cases h
  | cons c r =>
    simp only [run,step,UInt8.le_iff_toNat_le] at h
    split at h
    · next hc => exact ⟨c,r,rfl,hc,h⟩
    · cases h

theorem run_owing_more {low high : UInt8} {m : ℕ} {r : Bytes} (h : run (.owing low high (m + 1)) r = some .start) :
    ∃ c r', r = c :: r' ∧ (low.toNat ≤ c.toNat ∧ c.toNat ≤ high.toNat) ∧
      run (.owing 0x80 0xBF m) r' = some .start := by
  cases r with
  | nil => cases h
  | cons c r =>
    simp only [run,step,UInt8.le_iff_toNat_le] at h
    split at h
    · next hc => exact ⟨c,r,rfl,hc,h⟩
    · cases h

/-- A number of a scalar value is that of its character. -/
theorem toNat_char {v : ℕ} (h : v < 0xD800 ∨ 0xDFFF < v ∧ v < 0x110000) : (Char.ofNat v).val.toNat = v := by
  have hv : v.isValidChar := h
  rw [Char.ofNat,dif_pos hv]
  change (UInt32.ofNatLT v _).toNat = v
  exact UInt32.toNat_ofNatLT

/-- A character of well-formed text is the encoding of a scalar value. -/
theorem run_start_cons {b : UInt8} {r : Bytes} (h : run .start (b :: r) = some .start) :
    ∃ c r', b :: r = String.utf8EncodeChar c ++ r' ∧ run .start r' = some .start := by
  have h₁ : (0x80 : UInt8).toNat = 0x80 ∧ (0xBF : UInt8).toNat = 0xBF ∧ (0xA0 : UInt8).toNat = 0xA0 ∧
    (0x9F : UInt8).toNat = 0x9F ∧ (0x90 : UInt8).toNat = 0x90 ∧ (0x8F : UInt8).toNat = 0x8F := by decide
  have hoctet : ∀ {d : UInt8} {n : ℕ}, d.toNat = n → d = .ofNat n := by
    rintro d n rfl
    exact UInt8.ofNat_toNat.symm
  have hstep : (lead b).bind (run · r) = some .start := h
  rcases lead_cases b with ⟨hl,h⟩ | ⟨hl,h⟩ | ⟨hl,h⟩ | ⟨hl,h⟩ | ⟨hl,h⟩ | ⟨hl,h⟩ | ⟨hl,h⟩ | ⟨hl,h⟩ | ⟨hl,h⟩
  all_goals rw [hl] at hstep
  case inl => cases hstep
  case inr.inl =>
    refine ⟨.ofNat b.toNat,r,?_,hstep⟩
    unfold String.utf8EncodeChar
    dsimp only
    rw [toNat_char (by omega),if_pos h,List.singleton_append,← hoctet rfl]
  case inr.inr.inl =>
    obtain ⟨c,r',rfl,hc,hr⟩ := run_owing_last hstep
    refine ⟨.ofNat ((b.toNat - 0xC0) * 64 + (c.toNat - 0x80)),r',?_,hr⟩
    unfold String.utf8EncodeChar
    dsimp only
    rw [toNat_char (by omega),if_neg (by omega),if_pos (by omega),← @hoctet b _ (by omega),
      ← @hoctet c _ (by omega)]
    rfl
  case inr.inr.inr.inr.inr.inr.inl | inr.inr.inr.inr.inr.inr.inr.inl | inr.inr.inr.inr.inr.inr.inr.inr =>
    obtain ⟨c,r',rfl,hc,hr⟩ := run_owing_more hstep
    obtain ⟨d,r',rfl,hd,hr⟩ := run_owing_more hr
    obtain ⟨e,r',rfl,he,hr⟩ := run_owing_last hr
    refine ⟨.ofNat ((b.toNat - 0xF0) * 262144 + (c.toNat - 0x80) * 4096 + (d.toNat - 0x80) * 64 + (e.toNat - 0x80)),
      r',?_,hr⟩
    unfold String.utf8EncodeChar
    dsimp only
    rw [toNat_char (by omega),if_neg (by omega),if_neg (by omega),if_neg (by omega),← @hoctet b _ (by omega),
      ← @hoctet c _ (by omega),← @hoctet d _ (by omega),← @hoctet e _ (by omega)]
    rfl
  all_goals
    obtain ⟨c,r',rfl,hc,hr⟩ := run_owing_more hstep
    obtain ⟨d,r',rfl,hd,hr⟩ := run_owing_last hr
    refine ⟨.ofNat ((b.toNat - 0xE0) * 4096 + (c.toNat - 0x80) * 64 + (d.toNat - 0x80)),r',?_,hr⟩
    unfold String.utf8EncodeChar
    dsimp only
    rw [toNat_char (by omega),if_neg (by omega),if_neg (by omega),if_pos (by omega),← @hoctet b _ (by omega),
      ← @hoctet c _ (by omega),← @hoctet d _ (by omega)]
    rfl

/-- Well-formed text is what scalar values are encoded to. -/
theorem valid_iff_encode (s : Bytes) : valid s = true ↔ ∃ cs, s = encode cs := by
  rw [valid_iff]
  constructor
  · intro h
    induction hn : s.length using Nat.strong_induction_on generalizing s with
    | _ n ih =>
      cases s with
      | nil => exact ⟨[],rfl⟩
      | cons b r =>
        obtain ⟨c,r',he,hr⟩ := run_start_cons h
        have hlen : r'.length < n := by
          have hl := congrArg List.length he
          have hpos := Char.utf8Size_pos c
          rw [List.length_append,String.length_utf8EncodeChar,hn] at hl
          omega
        obtain ⟨cs,rfl⟩ := ih _ hlen r' hr rfl
        exact ⟨c :: cs,he⟩
  · rintro ⟨cs,rfl⟩
    induction cs with
    | nil => rfl
    | cons c cs ih =>
      rw [encode,List.flatMap_cons,run_encodeChar]
      exact ih

end Utf8
end Text
