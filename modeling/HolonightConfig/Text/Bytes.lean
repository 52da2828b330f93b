import Mathlib.Data.List.Basic
import Mathlib.Data.List.TakeWhile
import Mathlib.Tactic.Common

/-! Byte strings as lists of octets, with the few scans that text formats share. -/
namespace Text

abbrev Bytes := List UInt8

/-- The UTF-8 octets of a literal. Only the kernel computes them. -/
@[irreducible] def bytes (s : String) : Bytes := s.toList.flatMap String.utf8EncodeChar

def lineFeed : UInt8 := 0x0A
def carriageReturn : UInt8 := 0x0D

/-- Continuation octets carry no code point of their own. -/
def isContinuation (b : UInt8) : Bool := b &&& 0xC0 == 0x80

/-- Order of byte strings as unsigned octets, as `std::string` compares. -/
def lexLt : Bytes → Bytes → Bool
  | _,[] => false
  | [],_ :: _ => true
  | a :: as,b :: bs => a < b || (a == b && lexLt as bs)

theorem lexLt_irrefl (a : Bytes) : lexLt a a = false := by
  induction a with
  | nil => rfl
  | cons x a ih => simp [lexLt,ih]

theorem lexLt_trans {a b c : Bytes} (h₁ : lexLt a b = true) (h₂ : lexLt b c = true) :
    lexLt a c = true := by
  induction a generalizing b c with
  | nil =>
    cases c with
    | nil => cases b <;> simp [lexLt] at h₂
    | cons z c => rfl
  | cons x a ih =>
    cases b with
    | nil => simp [lexLt] at h₁
    | cons y b =>
      cases c with
      | nil => simp [lexLt] at h₂
      | cons z c =>
        simp only [lexLt,Bool.or_eq_true,decide_eq_true_eq,Bool.and_eq_true,beq_iff_eq] at h₁ h₂ ⊢
        rcases h₁ with h₁ | ⟨rfl,h₁⟩
        · rcases h₂ with h₂ | ⟨rfl,-⟩
          · exact .inl (UInt8.lt_trans h₁ h₂)
          · exact .inl h₁
        · rcases h₂ with h₂ | ⟨rfl,h₂⟩
          · exact .inl h₂
          · exact .inr ⟨rfl,ih h₁ h₂⟩

theorem lexLt_connected {a b : Bytes} (h₁ : lexLt a b = false) (h₂ : lexLt b a = false) : a = b := by
  induction a generalizing b with
  | nil => cases b with
    | nil => rfl
    | cons y b => simp [lexLt] at h₁
  | cons x a ih =>
    cases b with
    | nil => simp [lexLt] at h₂
    | cons y b =>
      simp only [lexLt,Bool.or_eq_false_iff,decide_eq_false_iff_not,UInt8.not_lt,
        Bool.and_eq_false_imp,beq_iff_eq] at h₁ h₂
      obtain rfl : x = y := UInt8.le_antisymm h₂.1 h₁.1
      rw [ih (h₁.2 rfl) (h₂.2 rfl)]

/-- A fact about single octets can be checked on all of them. -/
theorem forall_octet {P : UInt8 → Prop} (h : ∀ n : Fin 256, P ⟨⟨n⟩⟩) (b : UInt8) : P b :=
  h b.toBitVec.toFin

/-- What is left after the next line feed. -/
def skipLine : Bytes → Bytes
  | [] => []
  | c :: r => if c = lineFeed then r else skipLine r

/-- The text up to and including its last line feed. -/
def lineStart (s : Bytes) : ℕ :=
  s.length - (s.reverse.takeWhile (· ≠ lineFeed)).length

/-- Lines with their line feeds; only the last one may lack it. -/
def splitLines : Bytes → List Bytes
  | [] => []
  | c :: r =>
    if c = lineFeed then [c] :: splitLines r
    else match splitLines r with
      | [] => [[c]]
      | l :: ls => (c :: l) :: ls

@[simp] theorem splitLines_flatten (s : Bytes) : (splitLines s).flatten = s := by
  induction s with
  | nil => rfl
  | cons c r ih =>
    unfold splitLines
    split
    · simp [ih]
    · cases hs : splitLines r with
      | nil => simp [hs] at ih ⊢; exact ih
      | cons l ls => simp [hs] at ih ⊢; exact ih

/-- What a lexer with bounded look-ahead sees of a text: its first octet, or two where
the first is a space. A line break looks like the end of the text. -/
def peek : Bytes → Bytes
  | [] => []
  | c :: r =>
    if c = lineFeed ∨ c = carriageReturn then []
    else if c = 0x20 then c :: (peek r).take 1
    else [c]

/-- Before an octet that is neither a space nor part of a line break. -/
theorem peek_cons {c : UInt8} (h : c ≠ lineFeed ∧ c ≠ carriageReturn ∧ c ≠ 0x20) (r : Bytes) :
    peek (c :: r) = [c] := by simp [peek,h]

@[simp] theorem peek_lineFeed (r : Bytes) : peek (lineFeed :: r) = [] := by simp [peek]

def SameStart (r r' : Bytes) : Prop := peek r = peek r'

def atLineEnd (r : Bytes) : Prop :=
  r = [] ∨ r.head? = some lineFeed ∨ r.head? = some carriageReturn

theorem SameStart.refl (r : Bytes) : SameStart r r := rfl

theorem peek_eq_nil {r : Bytes} : peek r = [] ↔ atLineEnd r := by
  cases r with
  | nil => simp [peek,atLineEnd]
  | cons c r =>
    by_cases h : c = lineFeed ∨ c = carriageReturn
    · simp [peek,atLineEnd,h]
    · have hp : peek (c :: r) ≠ [] := by
        simp only [peek,if_neg h]
        split <;> simp
      simp [atLineEnd,h,hp]

theorem peek_head {r : Bytes} (h : ¬ atLineEnd r) : (peek r).head? = r.head? := by
  cases r with
  | nil => simp [atLineEnd] at h
  | cons c r =>
    have hc : ¬ (c = lineFeed ∨ c = carriageReturn) := by simpa [atLineEnd] using h
    simp only [peek,if_neg hc]
    split <;> rfl

theorem head_of_peek {s : Bytes} {c : UInt8} (h : (peek s).head? = some c) : ∃ s', s = c :: s' := by
  by_cases hl : atLineEnd s
  · rw [peek_eq_nil.mpr hl] at h
    cases h
  · rw [peek_head hl] at h
    cases s with
    | nil => cases h
    | cons d s => cases h; exact ⟨s,rfl⟩

theorem SameStart.head {r r' : Bytes} (h : SameStart r r') :
    r.head? = r'.head? ∨ (atLineEnd r ∧ atLineEnd r') := by
  by_cases hr : atLineEnd r
  · exact .inr ⟨hr,peek_eq_nil.mp (h.symm.trans (peek_eq_nil.mpr hr))⟩
  · have hr' : ¬ atLineEnd r' := fun he => hr (peek_eq_nil.mp (h.trans (peek_eq_nil.mpr he)))
    left
    rw [← peek_head hr,← peek_head hr',h]

theorem SameStart.cons {r r' : Bytes} (h : SameStart r r') (c : UInt8) :
    SameStart (c :: r) (c :: r') := by
  unfold SameStart at h ⊢
  simp only [peek,h]

theorem SameStart.append {r r' : Bytes} (h : SameStart r r') (t : Bytes) :
    SameStart (t ++ r) (t ++ r') := by
  induction t with
  | nil => exact h
  | cons c t ih => exact ih.cons c

theorem sameStart_of_atLineEnd {r r' : Bytes} (h : atLineEnd r) (h' : atLineEnd r') :
    SameStart r r' := (peek_eq_nil.mpr h).trans (peek_eq_nil.mpr h').symm

/-- The text a lexer consumed, from what it was given and what it left. -/
def consumed (s r : Bytes) : Bytes := s.take (s.length - r.length)

@[simp] theorem consumed_append (t r : Bytes) : consumed (t ++ r) r = t := by
  simp [consumed]

section Runs
variable (p : UInt8 → Bool)

/-- A maximal run ends where the next octet falls outside the class. -/
theorem dropWhile_head {s r : Bytes} (h : s.dropWhile p = r) : ∀ c t, r = c :: t → p c = false := by
  rintro c t rfl
  have hn : s.dropWhile p ≠ [] := by simp [h]
  have hh := List.head_dropWhile_not p hn
  simpa [h] using hh

theorem takeWhile_append_stop {t r : Bytes} (ht : ∀ c ∈ t, p c = true)
    (hr : ∀ c, r.head? = some c → p c = false) :
    (t ++ r).takeWhile p = t ∧ (t ++ r).dropWhile p = r := by
  induction t with
  | nil =>
    cases r with
    | nil => simp
    | cons c r => have hc := hr c rfl; simp [hc]
  | cons c t ih =>
    have hc := ht c (by simp)
    obtain ⟨h₁,h₂⟩ := ih (fun d hd => ht d (by simp [hd]))
    simp [hc,h₁,h₂]

/-- Reading a run within a line depends on the text behind it only through its start. -/
theorem run_local (hp : p lineFeed = false ∧ p carriageReturn = false) {s r' : Bytes}
    (hr : SameStart (s.dropWhile p) r') :
    (s.takeWhile p ++ r').takeWhile p = s.takeWhile p ∧
    (s.takeWhile p ++ r').dropWhile p = r' := by
  apply takeWhile_append_stop
  · intro c hc; exact List.mem_takeWhile_imp hc
  · intro c hc
    rcases hr.head with hh | ⟨_,hl⟩
    · rw [hc] at hh
      cases hd : s.dropWhile p with
      | nil => simp [hd] at hh
      | cons d t =>
        have hd' := dropWhile_head p hd d t rfl
        obtain rfl : d = c := by simpa [hd] using hh
        exact hd'
    · rcases hl with rfl | hl | hl
      · cases hc
      · rw [hc] at hl; cases hl; exact hp.1
      · rw [hc] at hl; cases hl; exact hp.2

end Runs
end Text
