import HolonightConfig.Codec.Validation
import HolonightConfig.Text.Scalars

/-! The check that an identifier is UTF-8, as the loop over its octets that it is. -/
namespace HolonightConfig
open Text

/-- How reading by index can go wrong: behind the last octet, or without end. -/
inductive ScanFault
  | pastEnd | unfinished
  deriving DecidableEq

/-- `value[index]` -/
def octetAt (value : Bytes) (index : ℕ) : Except ScanFault UInt8 :=
  match value[index]? with
  | some b => .ok b
  | none => .error .pastEnd

/-- The inner loop over the continuation octets; `none` where one is no such octet. -/
def continuedAt (value : Bytes) : ℕ → ℕ → ℕ → Except ScanFault (Option ℕ)
  | _,0,codePoint => .ok (some codePoint)
  | index,n + 1,codePoint => do
    let continuation ← octetAt value index
    if isContinuation continuation then
      continuedAt value (index + 1) n (codePoint * 64 + (continuation &&& 0x3F).toNat)
    else .ok none

/-- The outer loop, with a bound on its rounds. -/
def validLoop (value : Bytes) : ℕ → ℕ → Except ScanFault Bool
  | rounds,index =>
    if value.length ≤ index then .ok true
    else match rounds with
      | 0 => .error .unfinished
      | rounds + 1 => do
        let first ← octetAt value index
        if first ≤ 0x7F then validLoop value rounds (index + 1)
        else match sequenceOf first with
          | none => .ok false
          | some (length,bits) =>
            if value.length < index + length then .ok false
            else match ← continuedAt value (index + 1) (length - 1) bits with
              | none => .ok false
              | some codePoint =>
                if codePointFits length codePoint then validLoop value rounds (index + length) else .ok false

theorem octetAt_drop {value r : Bytes} {index : ℕ} {b : UInt8} (h : value.drop index = b :: r) :
    octetAt value index = .ok b ∧ value.drop (index + 1) = r := by
  have hget : value[index]? = some b := by rw [← List.head?_drop,h]; rfl
  refine ⟨by rw [octetAt,hget],?_⟩
  rw [← List.drop_drop,h]
  rfl

theorem continued_short {n codePoint : ℕ} {r : Bytes} (h : r.length < n) : continued n codePoint r = none := by
  induction n generalizing codePoint r with
  | zero => omega
  | succ n ih =>
    cases r with
    | nil => rfl
    | cons c r =>
      rw [continued]
      split
      · exact ih (by simpa using h)
      · rfl

/-- The inner loop reads octets that are there, and shifts in what the decoder does. -/
theorem continuedAt_eq {value : Bytes} {index n : ℕ} (codePoint : ℕ) (h : index + n ≤ value.length) :
    continuedAt value index n codePoint = .ok ((continued n codePoint (value.drop index)).map Prod.fst) ∧
    ∀ v r, continued n codePoint (value.drop index) = some (v,r) → r = value.drop (index + n) := by
  induction n generalizing index codePoint with
  | zero =>
    refine ⟨rfl,fun v r hv => ?_⟩
    cases hv
    rfl
  | succ n ih =>
    obtain ⟨b,r,hr⟩ : ∃ b r, value.drop index = b :: r := by
      refine List.exists_cons_of_ne_nil (fun hn => ?_)
      rw [List.drop_eq_nil_iff] at hn
      omega
    obtain ⟨hb,hd⟩ := octetAt_drop hr
    have hread : continuedAt value index (n + 1) codePoint = if isContinuation b then
        continuedAt value (index + 1) n (codePoint * 64 + (b &&& 0x3F).toNat) else .ok none := by
      rw [continuedAt,hb]
      rfl
    obtain ⟨h₁,h₂⟩ := @ih (index + 1) (codePoint * 64 + (b &&& 0x3F).toNat) (by omega)
    rw [hd] at h₁ h₂
    rw [hread,hr,continued]
    cases isContinuation b with
    | false => exact ⟨rfl,fun v r hv => by cases hv⟩
    | true =>
      refine ⟨h₁,fun v r' hv => ?_⟩
      rw [h₂ v r' hv]
      congr 1
      omega

theorem sequenceOf_pos {b : UInt8} {length bits : ℕ} (h : sequenceOf b = some (length,bits)) : 1 ≤ length := by
  unfold sequenceOf at h
  split_ifs at h <;> cases h <;> omega

/-- From every index the loop comes to an end and decides as the decoder does. -/
theorem validLoop_eq {value : Bytes} {rounds index : ℕ} (h : value.length ≤ index + rounds) :
    validLoop value rounds index = .ok (validFrom rounds (value.drop index)) := by
  induction rounds generalizing index with
  | zero =>
    have hn : value.drop index = [] := List.drop_eq_nil_iff.mpr (by omega)
    rw [validLoop,if_pos (by omega),hn]
    rfl
  | succ rounds ih =>
    rw [validLoop]
    by_cases hi : value.length ≤ index
    · rw [if_pos hi,List.drop_eq_nil_iff.mpr hi]
      rfl
    · rw [if_neg hi]
      obtain ⟨b,r,hr⟩ : ∃ b r, value.drop index = b :: r := by
        refine List.exists_cons_of_ne_nil (fun hn => ?_)
        rw [List.drop_eq_nil_iff] at hn
        omega
      obtain ⟨hb,hd⟩ := octetAt_drop hr
      have hlen := congrArg List.length hr
      rw [List.length_drop,List.length_cons] at hlen
      rw [hr,validFrom,hb]
      change (if b ≤ 0x7F then _ else _) = _
      split
      · rw [ih (by omega),hd]
      · cases hs : sequenceOf b with
        | none => rfl
        | some x =>
          obtain ⟨length,bits⟩ := x
          have hpos := sequenceOf_pos hs
          dsimp only
          by_cases hshort : value.length < index + length
          · rw [if_pos hshort,continued_short (by omega)]
          · rw [if_neg hshort]
            obtain ⟨h₁,h₂⟩ := @continuedAt_eq value (index + 1) (length - 1) bits (by omega)
            rw [hd] at h₁ h₂
            rw [h₁]
            cases hc : continued (length - 1) bits r with
            | none => rfl
            | some x =>
              obtain ⟨codePoint,r'⟩ := x
              have hr' := h₂ codePoint r' hc
              have hnext : index + 1 + (length - 1) = index + length := by omega
              rw [hnext] at hr'
              change (if codePointFits length codePoint = true then _ else _) = _
              dsimp only
              cases codePointFits length codePoint with
              | false => rfl
              | true =>
                rw [if_pos rfl,Bool.true_and,hr',ih (by omega)]

/-! ### Trimming -/

theorem isAscii_of_isSpace {b : UInt8} (h : isSpace b = true) : Utf8.isAscii b = true := by
  revert b
  apply forall_octet
  decide +kernel

/-- Blank space around a text does not matter to whether it is well formed. -/
theorem valid_trim (s : Bytes) : Utf8.valid (trim s) = Utf8.valid s := by
  have hascii : ∀ t : Bytes, ∀ b ∈ t.takeWhile isSpace, Utf8.isAscii b = true :=
    fun t b hb => isAscii_of_isSpace (List.mem_takeWhile_imp hb)
  have hfront : Utf8.valid (s.dropWhile isSpace) = Utf8.valid s := by
    have h := Utf8.valid_append (Utf8.valid_ascii (hascii s)) (s.dropWhile isSpace)
    rw [List.takeWhile_append_dropWhile] at h
    exact h.symm
  have hback : ∀ t : Bytes, Utf8.valid (t.reverse.dropWhile isSpace).reverse = Utf8.valid t := by
    intro t
    have h := Utf8.valid_append_ascii (w := (t.reverse.takeWhile isSpace).reverse)
      (fun b hb => hascii _ b (List.mem_reverse.mp hb)) (t.reverse.dropWhile isSpace).reverse
    rw [← List.reverse_append,List.takeWhile_append_dropWhile,List.reverse_reverse] at h
    exact h.symm
  rw [trim,hback,hfront]

/-- The check reads no octet behind the last one and comes to an end; it accepts what the
encodings of scalar values in a row are, and trimming makes no difference to it. -/
theorem isValidUtf8_exact (value : Bytes) :
    validLoop value value.length 0 = .ok (isValidUtf8 value) ∧
    (isValidUtf8 value = true ↔ ∃ cs : List Char, value = Utf8.encode cs) ∧
    (isValidUtf8 (trim value) = true ↔ isValidUtf8 value = true) := by
  refine ⟨validLoop_eq (by omega),?_,?_⟩
  · rw [isValidUtf8_eq_valid]
    exact Utf8.valid_iff_encode value
  · rw [isValidUtf8_eq_valid,isValidUtf8_eq_valid,valid_trim]

end HolonightConfig
