import HolonightConfig.Codec
import HolonightConfig.Text.Utf8
import Mathlib.Data.UInt

/-! What the validation passes accept, as properties of the values. -/
namespace HolonightConfig
open Text

/-! ### Trimming -/

theorem trim_eq_self {s : Bytes} (hf : ∀ c, s.head? = some c → isSpace c = false)
    (hl : ∀ c, s.getLast? = some c → isSpace c = false) : trim s = s := by
  have h₁ : s.dropWhile isSpace = s := by
    cases s with
    | nil => rfl
    | cons c s => simp [hf c rfl]
  have h₂ : s.reverse.dropWhile isSpace = s.reverse := by
    cases hr : s.reverse with
    | nil => rfl
    | cons c r =>
      have hc : s.getLast? = some c := by rw [← List.head?_reverse,hr]; rfl
      simp [hl c hc]
  rw [trim,h₁,h₂,List.reverse_reverse]

theorem head_dropWhile {p : UInt8 → Bool} {s : Bytes} {c : UInt8}
    (h : (s.dropWhile p).head? = some c) : p c = false := by
  cases hd : s.dropWhile p with
  | nil => simp [hd] at h
  | cons d r =>
    obtain rfl : d = c := by simpa [hd] using h
    exact dropWhile_head p hd d r rfl

theorem getLast_reverse_dropWhile {p : UInt8 → Bool} {s : Bytes} {c : UInt8}
    (h : ((s.reverse.dropWhile p).reverse).getLast? = some c) : p c = false :=
  head_dropWhile (by rwa [List.getLast?_reverse] at h)

@[simp] theorem trim_trim (s : Bytes) : trim (trim s) = trim s := by
  apply trim_eq_self
  · intro c hc
    have hp : trim s <+: s.dropWhile isSpace := by
      rw [trim,← List.reverse_suffix,List.reverse_reverse]
      exact List.dropWhile_suffix _
    obtain ⟨u,hu⟩ := hp
    apply head_dropWhile (p := isSpace) (s := s)
    rw [← hu,List.head?_append,hc]
    rfl
  · intro c hc
    exact getLast_reverse_dropWhile hc

@[simp] theorem normalized_normalized (a : Appearance) : normalized (normalized a) = normalized a := by
  simp [normalized]

/-! ### Well-formed text -/

/-- The bits a lead octet holds decide how the recogniser bounds the octet behind it. -/
def leadState : ℕ → ℕ → Option Utf8.State
  | 2,bits => if 2 ≤ bits then some (.owing 0x80 0xBF 0) else none
  | 3,bits =>
    if bits = 0 then some (.owing 0xA0 0xBF 1)
    else if bits = 13 then some (.owing 0x80 0x9F 1)
    else some (.owing 0x80 0xBF 1)
  | 4,bits =>
    if bits = 0 then some (.owing 0x90 0xBF 2)
    else if bits = 4 then some (.owing 0x80 0x8F 2)
    else if bits < 4 then some (.owing 0x80 0xBF 2)
    else none
  | _,_ => none

theorem lead_of_sequenceOf (b : UInt8) : b ≤ 0x7F ∨ (sequenceOf b = none ∧ Utf8.lead b = none) ∨
    ∃ n : Fin 3, ∃ bits : Fin 32, sequenceOf b = some (n.val + 2,bits.val) ∧
      bits.val < 64 / 2 ^ (n.val + 1) ∧ Utf8.lead b = leadState (n.val + 2) bits.val := by
  revert b
  apply forall_octet
  decide +kernel

theorem continuation_bits {c : UInt8} (h : isContinuation c = true) :
    0x80 ≤ c.toNat ∧ c.toNat ≤ 0xBF ∧ (c &&& 0x3F).toNat = c.toNat - 0x80 := by
  revert c
  apply forall_octet
  decide +kernel

theorem not_continuation {c : UInt8} (h : isContinuation c = false) :
    c.toNat < 0x80 ∨ 0xBF < c.toNat := by
  revert c
  apply forall_octet
  decide +kernel

def ends (o : Option Utf8.State) (r : Bytes) : Bool := (o.bind (Utf8.run · r)) == some .start

/-- The state that owes a number of plain continuation octets. -/
def owed : ℕ → Utf8.State
  | 0 => .start
  | k + 1 => .owing 0x80 0xBF k

theorem ends_cons (low high : UInt8) (m : ℕ) (c : UInt8) (r : Bytes) :
    ends (some (.owing low high m)) (c :: r) =
      (decide (low.toNat ≤ c.toNat ∧ c.toNat ≤ high.toNat) && ends (some (owed m)) r) := by
  simp only [ends,Option.bind_some,Utf8.run,Utf8.step,UInt8.le_iff_toNat_le]
  split <;> cases m <;> simp_all [owed]

/-- What the loop makes of the octets behind the first one of a sequence. -/
def follows (length bits : ℕ) (r : Bytes) : Bool :=
  match continued (length - 1) bits r with
  | none => false
  | some (codePoint,r') => codePointFits length codePoint && Utf8.valid r'

theorem ends_start (r : Bytes) : ends (some .start) r = Utf8.valid r := rfl


theorem ends_owed (k codePoint : ℕ) (r : Bytes) :
    ends (some (owed k)) r = (continued k codePoint r).any (fun x => Utf8.valid x.2) := by
  induction k generalizing codePoint r with
  | zero => simp [continued,owed,ends_start]
  | succ k ih =>
    cases r with
    | nil => rfl
    | cons c r =>
      rw [owed,ends_cons]
      cases hc : isContinuation c with
      | false => have := not_continuation hc; simp [continued,hc]; omega
      | true =>
        obtain ⟨h₁,h₂,-⟩ := continuation_bits hc
        simp only [continued,hc,if_true]
        rw [← ih]
        simp [h₁,h₂]

theorem continued_bounds {k codePoint v : ℕ} {r r' : Bytes} (h : continued k codePoint r = some (v,r')) :
    codePoint * 64 ^ k ≤ v ∧ v < (codePoint + 1) * 64 ^ k := by
  induction k generalizing codePoint r with
  | zero => simp only [continued,Option.some.injEq,Prod.mk.injEq] at h; omega
  | succ k ih =>
    cases r with
    | nil => cases h
    | cons c r =>
      simp only [continued] at h
      split at h
      · next hc =>
        obtain ⟨h₁,h₂,h₃⟩ := continuation_bits hc
        obtain ⟨hl,hu⟩ := ih h
        have hx : (c &&& 0x3F).toNat < 64 := by omega
        rw [pow_succ',← Nat.mul_assoc,← Nat.mul_assoc]
        constructor
        · exact (Nat.mul_le_mul_right _ (by omega)).trans hl
        · exact hu.trans_le (Nat.mul_le_mul_right _ (by omega))
      · cases h

theorem continued_length {k codePoint v : ℕ} {r r' : Bytes} (h : continued k codePoint r = some (v,r')) :
    r'.length ≤ r.length := by
  induction k generalizing codePoint r with
  | zero => simp only [continued,Option.some.injEq,Prod.mk.injEq] at h; simp [h]
  | succ k ih =>
    cases r with
    | nil => cases h
    | cons c r =>
      simp only [continued] at h
      split at h
      · have := ih h; simp; omega
      · cases h

/-- A lead and its first continuation octet decide whether the sequence fits. -/
theorem fits_of_bounds {length bits x k v : ℕ} {low high : UInt8} (hx : x < 64)
    (hl : leadState length bits = some (.owing low high k)) (hb : bits < 64 / 2 ^ (length - 1))
    (h₁ : (bits * 64 + x) * 64 ^ k ≤ v) (h₂ : v < (bits * 64 + x + 1) * 64 ^ k) :
    codePointFits length v = decide (low.toNat ≤ x + 0x80 ∧ x + 0x80 ≤ high.toNat) := by
  unfold leadState at hl
  split at hl <;> (try split at hl) <;> (try split at hl) <;> (try split at hl) <;>
    simp only [Option.some.injEq,Utf8.State.owing.injEq,reduceCtorEq] at hl
  all_goals
    obtain ⟨rfl,rfl,rfl⟩ := hl
    rw [Bool.eq_iff_iff]
    simp [codePointFits] at *
    omega

theorem misfits_of_bounds {length bits x k v : ℕ}  (hx : x < 64) (h2 : 2 ≤ length) (h4 : length ≤ 4)
    (hl : leadState length bits = none) (hk : k = length - 2)
    (h₁ : (bits * 64 + x) * 64 ^ k ≤ v) (h₂ : v < (bits * 64 + x + 1) * 64 ^ k) :
    codePointFits length v = false := by
  subst hk
  unfold leadState at hl
  split at hl <;> (try split at hl) <;> (try split at hl) <;> (try split at hl) <;>
    simp only [reduceCtorEq] at hl
  all_goals
    simp [codePointFits] at *
    omega


theorem leadState_bounds {length bits k : ℕ} {low high : UInt8}
    (h : leadState length bits = some (.owing low high k)) :
    k + 2 = length ∧ 0x80 ≤ low.toNat ∧ high.toNat ≤ 0xBF := by
  unfold leadState at h
  split at h <;> (try split at h) <;> (try split at h) <;> (try split at h) <;>
    simp only [Option.some.injEq,Utf8.State.owing.injEq,reduceCtorEq] at h
  all_goals
    obtain ⟨rfl,rfl,rfl⟩ := h
    decide

theorem leadState_cases (length bits : ℕ) :
    leadState length bits = none ∨ ∃ low high k, leadState length bits = some (.owing low high k) := by
  unfold leadState
  split <;> (try split) <;> (try split) <;> (try split) <;> simp

theorem follows_eq {length bits : ℕ} (h2 : 2 ≤ length) (h4 : length ≤ 4)
    (hb : bits < 64 / 2 ^ (length - 1)) (r : Bytes) :
    follows length bits r = ends (leadState length bits) r := by
  obtain ⟨k,rfl⟩ : ∃ k, length = k + 2 := ⟨length - 2,by omega⟩
  have he : ∀ s, ends none s = false := fun s => rfl
  cases r with
  | nil => rcases leadState_cases (k + 2) bits with hl | ⟨low,high,m,hl⟩ <;> rw [hl] <;> rfl
  | cons c r =>
    cases hc : isContinuation c with
    | false =>
      have hn := not_continuation hc
      have hf : follows (k + 2) bits (c :: r) = false := by simp [follows,continued,hc]
      rcases leadState_cases (k + 2) bits with hl | ⟨low,high,m,hl⟩
      · rw [hf,hl,he]
      · obtain ⟨-,h₁,h₂⟩ := leadState_bounds hl
        rw [hf,hl,ends_cons]
        simp
        omega
    | true =>
      obtain ⟨h₁,h₂,h₃⟩ := continuation_bits hc
      have hx : c.toNat - 0x80 < 64 := by omega
      have hf : follows (k + 2) bits (c :: r) =
          match continued k (bits * 64 + (c.toNat - 0x80)) r with
          | none => false
          | some (v,r') => codePointFits (k + 2) v && Utf8.valid r' := by
        simp [follows,continued,hc,h₃]
      rw [hf]
      rcases leadState_cases (k + 2) bits with hl | ⟨low,high,m,hl⟩
      · rw [hl,he]
        cases hv : continued k (bits * 64 + (c.toNat - 0x80)) r with
        | none => rfl
        | some x =>
          obtain ⟨v,r'⟩ := x
          obtain ⟨hl₁,hl₂⟩ := continued_bounds hv
          simp [misfits_of_bounds hx (by omega) h4 hl rfl hl₁ hl₂]
      · obtain ⟨hm,-,-⟩ := leadState_bounds hl
        obtain rfl : m = k := by omega
        rw [hl,ends_cons,ends_owed m (bits * 64 + (c.toNat - 0x80))]
        cases hv : continued m (bits * 64 + (c.toNat - 0x80)) r with
        | none => simp
        | some x =>
          obtain ⟨v,r'⟩ := x
          obtain ⟨hl₁,hl₂⟩ := continued_bounds hv
          have hx' : c.toNat - 0x80 + 0x80 = c.toNat := by omega
          simp only [fits_of_bounds hx hl hb hl₁ hl₂,hx',Option.any_some]

theorem validFrom_eq {fuel : ℕ} {s : Bytes} (h : s.length ≤ fuel) : validFrom fuel s = Utf8.valid s := by
  induction fuel generalizing s with
  | zero =>
    obtain rfl : s = [] := List.eq_nil_of_length_eq_zero (by omega)
    rfl
  | succ fuel ih =>
    cases s with
    | nil => rfl
    | cons b r =>
      have hr : validFrom fuel r = Utf8.valid r := ih (by simpa using h)
      have hv : Utf8.valid (b :: r) = ends (Utf8.lead b) r := rfl
      rw [hv]
      rcases lead_of_sequenceOf b with hb | ⟨hs,hl⟩ | ⟨n,bits,hs,hb,hl⟩
      · simp [validFrom,hb,hr,Utf8.lead,ends_start]
      · have hb : ¬ b ≤ 0x7F := fun hb => by simp [sequenceOf,hb] at hs
        rw [hl]
        simp [validFrom,hb,hs,ends]
      · have hb' : ¬ b ≤ 0x7F := fun hb => by simp [sequenceOf,hb] at hs
        have hc : ∀ c x, continued (n.val + 1) bits r = some (c,x) → validFrom fuel x = Utf8.valid x := by
          intro c x hx
          exact ih (by have := continued_length hx; simp at h; omega)
        rw [hl,← follows_eq (by omega) (by omega) hb]
        simp only [validFrom,hb',if_false,hs,follows]
        have hn : n.val + 2 - 1 = n.val + 1 := by omega
        rw [hn]
        cases hx : continued (n.val + 1) bits r with
        | none => rfl
        | some y => obtain ⟨c,x⟩ := y; simp [hc c x hx]

/-- The decoding loop accepts exactly well-formed UTF-8. -/
theorem isValidUtf8_eq_valid (s : Bytes) : isValidUtf8 s = Utf8.valid s := validFrom_eq le_rfl

/-! ### Ranges -/

/-- Non-empty well-formed text within a length. -/
structure Identifier (maximumBytes : ℕ) (value : Bytes) : Prop where
  nonempty : value ≠ []
  wellFormed : Utf8.valid value = true
  length_le : value.length ≤ maximumBytes

def FontSize (size : ℤ) : Prop := 6 ≤ size ∧ size ≤ 48

/-- Finite and between two bounds. -/
structure InRange (minimum maximum value : Binary64) : Prop where
  finite : value.isFinite = true
  lower : minimum.key ≤ value.key
  upper : value.key ≤ maximum.key

theorem validateIdentifier_eq_nil (field value : Bytes) (maximumBytes : ℕ) :
    validateIdentifier field value maximumBytes = [] ↔ Identifier maximumBytes value := by
  constructor
  · intro h
    unfold validateIdentifier at h
    split at h
    · cases h
    · next hn =>
      split at h
      · cases h
      · next hu =>
        split at h
        · cases h
        · next hl => exact ⟨hn,by simpa [isValidUtf8_eq_valid] using hu,by omega⟩
  · rintro ⟨hn,hu,hl⟩
    simp [validateIdentifier,hn,isValidUtf8_eq_valid,hu,hl]

theorem validateFontSize_eq_nil (field : Bytes) (value : ℤ) :
    validateFontSize field value = [] ↔ FontSize value := by
  unfold validateFontSize FontSize kMinimumFontSize kMaximumFontSize
  split
  · simp; omega
  · simp; omega

theorem not_isNaN {d : Binary64} (h : d.isFinite = true) : d.isNaN = false := by
  simp [Binary64.isFinite,Binary64.isNaN] at h ⊢
  omega

theorem validateFiniteRange_eq_nil (field : Bytes) {value minimum maximum : Binary64}
    (hmin : minimum.isNaN = false) (hmax : maximum.isNaN = false) :
    validateFiniteRange field value minimum maximum = [] ↔ InRange minimum maximum value := by
  constructor
  · intro h
    unfold validateFiniteRange at h
    split at h
    · cases h
    · next hc =>
      push Not at hc
      obtain ⟨hf,hl,hu⟩ := hc
      have hf' : value.isFinite = true := by simpa using hf
      have hn := not_isNaN hf'
      simp [Binary64.lt,hn,hmin,hmax] at hl hu
      exact ⟨hf',hl,hu⟩
  · rintro ⟨hf,hl,hu⟩
    have hn := not_isNaN hf
    have h₁ : ¬ value.key < minimum.key := by omega
    have h₂ : ¬ maximum.key < value.key := by omega
    simp [validateFiniteRange,hf,Binary64.lt,hn,hmin,hmax,h₁,h₂]

/-! ### Sections -/

structure Theme.Valid (t : Theme) : Prop where
  scheme : Identifier 128 t.scheme
  accent : Identifier 128 t.accent

structure Typography.Valid (t : Typography) : Prop where
  uiFamily : Identifier 256 t.uiFamily
  uiSize : FontSize t.uiSize
  monospaceFamily : Identifier 256 t.monospaceFamily
  monospaceSize : FontSize t.monospaceSize
  titleFamily : Identifier 256 t.titleFamily
  titleSize : FontSize t.titleSize
  displayFamily : Identifier 256 t.displayFamily
  displaySize : FontSize t.displaySize

structure Icons.Valid (i : Icons) : Prop where
  theme : Identifier 256 i.theme
  fallback : Identifier 256 i.fallback
  cursor : Identifier 256 i.cursor

def LayoutScale : Binary64 → Prop := InRange kMinimumLayoutScale kMaximumLayoutScale
def ShapeScale : Binary64 → Prop := InRange kMinimumShapeScale kMaximumShapeScale
def ShapeExtent : Binary64 → Prop := InRange zero kMaximumShapeExtent

structure Shape.Valid (s : Shape) : Prop where
  scale : ShapeScale s.scale
  baseRadius : ∀ d, s.baseRadius = some d → ShapeExtent d
  baseChamfer : ∀ d, s.baseChamfer = some d → ShapeExtent d

structure Appearance.Valid (a : Appearance) : Prop where
  version : a.version = 1
  theme : a.theme.Valid
  typography : a.typography.Valid
  icons : a.icons.Valid
  layout : LayoutScale a.layout.scale
  shape : a.shape.Valid

theorem validateOptional_eq_nil (field : Bytes) (o : Option Binary64) :
    validateOptional field o = [] ↔ ∀ d, o = some d → ShapeExtent d := by
  cases o with
  | none => simp [validateOptional]
  | some d =>
    simp only [validateOptional,Option.some.injEq,forall_eq']
    exact validateFiniteRange_eq_nil field (by decide +kernel) (by decide +kernel)

theorem validateVersion_eq_nil (n : ℤ) : validateVersion n = [] ↔ n = 1 := by
  unfold validateVersion kDocumentVersion
  split <;> simp_all

theorem validateLayoutScale_eq_nil (field : Bytes) (d : Binary64) :
    validateFiniteRange field d kMinimumLayoutScale kMaximumLayoutScale = [] ↔ LayoutScale d :=
  validateFiniteRange_eq_nil field (by decide +kernel) (by decide +kernel)

theorem validateShapeScale_eq_nil (field : Bytes) (d : Binary64) :
    validateFiniteRange field d kMinimumShapeScale kMaximumShapeScale = [] ↔ ShapeScale d :=
  validateFiniteRange_eq_nil field (by decide +kernel) (by decide +kernel)

/-- Validation is silent on an appearance exactly when its normal form is valid. -/
theorem validate_eq_nil (a : Appearance) : validate a = [] ↔ (normalized a).Valid := by
  simp only [validate,List.append_eq_nil_iff,validateVersion_eq_nil,validateIdentifier_eq_nil,
    validateFontSize_eq_nil,validateLayoutScale_eq_nil,validateShapeScale_eq_nil,
    validateOptional_eq_nil]
  constructor
  · rintro ⟨⟨⟨⟨⟨⟨⟨⟨⟨⟨⟨⟨⟨⟨⟨⟨⟨h,h₁⟩,h₂⟩,h₃⟩,h₄⟩,h₅⟩,h₆⟩,h₇⟩,h₈⟩,h₉⟩,h₁₀⟩,h₁₁⟩,h₁₂⟩,h₁₃⟩,h₁₄⟩,h₁₅⟩,h₁₆⟩,h₁₇⟩
    exact ⟨h,⟨h₁,h₂⟩,⟨h₃,h₇,h₄,h₈,h₅,h₉,h₆,h₁₀⟩,⟨h₁₁,h₁₂,h₁₃⟩,h₁₄,⟨h₁₅,h₁₆,h₁₇⟩⟩
  · rintro ⟨h,⟨h₁,h₂⟩,⟨h₃,h₇,h₄,h₈,h₅,h₉,h₆,h₁₀⟩,⟨h₁₁,h₁₂,h₁₃⟩,h₁₄,⟨h₁₅,h₁₆,h₁₇⟩⟩
    exact ⟨⟨⟨⟨⟨⟨⟨⟨⟨⟨⟨⟨⟨⟨⟨⟨⟨h,h₁⟩,h₂⟩,h₃⟩,h₄⟩,h₅⟩,h₆⟩,h₇⟩,h₈⟩,h₉⟩,h₁₀⟩,h₁₁⟩,h₁₂⟩,h₁₃⟩,h₁₄⟩,h₁₅⟩,h₁₆⟩,h₁₇⟩

end HolonightConfig
