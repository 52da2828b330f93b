import HolonightConfig.Text.Bytes

/-! Well-formed UTF-8 as the language of a one-octet-at-a-time recogniser. -/
namespace Text
namespace Utf8

/-- Between characters, or owing continuation octets of which the next one is bounded. -/
inductive State
  | start
  | owing (low high : UInt8) (more : ℕ)
  deriving DecidableEq

/-- The octet that opens a character fixes its length and rules out overlong forms,
surrogates and code points beyond U+10FFFF. -/
def lead (b : UInt8) : Option State :=
  if b ≤ 0x7F then some .start
  else if 0xC2 ≤ b ∧ b ≤ 0xDF then some (.owing 0x80 0xBF 0)
  else if b = 0xE0 then some (.owing 0xA0 0xBF 1)
  else if b = 0xED then some (.owing 0x80 0x9F 1)
  else if 0xE1 ≤ b ∧ b ≤ 0xEF then some (.owing 0x80 0xBF 1)
  else if b = 0xF0 then some (.owing 0x90 0xBF 2)
  else if b = 0xF4 then some (.owing 0x80 0x8F 2)
  else if 0xF1 ≤ b ∧ b ≤ 0xF3 then some (.owing 0x80 0xBF 2)
  else none

def step : State → UInt8 → Option State
  | .start,b => lead b
  | .owing low high more,b =>
    if low ≤ b ∧ b ≤ high then
      match more with
      | 0 => some .start
      | m + 1 => some (.owing 0x80 0xBF m)
    else none

def run : State → Bytes → Option State
  | q,[] => some q
  | q,b :: s => (step q b).bind (run · s)

def valid (s : Bytes) : Bool := run .start s == some .start

theorem run_append (q : State) (s t : Bytes) : run q (s ++ t) = (run q s).bind (run · t) := by
  induction s generalizing q with
  | nil => rfl
  | cons b s ih =>
    simp only [List.cons_append,run]
    cases step q b with
    | none => rfl
    | some q' => simpa using ih q'

theorem valid_iff (s : Bytes) : valid s = true ↔ run .start s = some .start := by simp [valid]

theorem valid_append {s : Bytes} (hs : valid s = true) (t : Bytes) :
    valid (s ++ t) = valid t := by
  simp only [valid,run_append,(valid_iff s).mp hs,Option.bind_some]

def isAscii (b : UInt8) : Bool := b ≤ 0x7F

theorem step_start_ascii {b : UInt8} (h : isAscii b = true) : step .start b = some .start := by
  simp [isAscii] at h
  simp [step,lead,h]

/-- No continuation octet is ASCII. -/
def State.Sound : State → Prop
  | .start => True
  | .owing low _ _ => 0x80 ≤ low

theorem step_sound {q q' : State} {b : UInt8} (h : step q b = some q') : q'.Sound := by
  cases q with
  | start =>
    simp only [step,lead] at h
    split_ifs at h <;> cases h <;> simp [State.Sound]
  | owing low high more =>
    simp only [step] at h
    split at h
    · cases more <;> cases h <;> simp [State.Sound]
    · cases h

theorem step_owing_ascii {low high : UInt8} {more : ℕ} {b : UInt8}
    (hq : (State.owing low high more).Sound) (h : isAscii b = true) :
    step (.owing low high more) b = none := by
  simp only [isAscii,decide_eq_true_eq] at h
  simp only [State.Sound] at hq
  have hb : ¬ low ≤ b := by
    simp only [UInt8.le_iff_toNat_le] at *
    have h₁ : (0x80 : UInt8).toNat = 128 := rfl
    have h₂ : (0x7F : UInt8).toNat = 127 := rfl
    omega
  simp [step,hb]

theorem run_ascii {s : Bytes} (h : ∀ b ∈ s, isAscii b = true) : run .start s = some .start := by
  induction s with
  | nil => rfl
  | cons b s ih =>
    simp only [run,step_start_ascii (h b (by simp))]
    exact ih (fun c hc => h c (by simp [hc]))

theorem valid_ascii {s : Bytes} (h : ∀ b ∈ s, isAscii b = true) : valid s = true :=
  (valid_iff s).mpr (run_ascii h)

theorem run_sound {q q' : State} (hq : q.Sound) {s : Bytes} (h : run q s = some q') : q'.Sound := by
  induction s generalizing q with
  | nil =>
    cases h
    exact hq
  | cons b s ih =>
    obtain ⟨q₁,h₁,h⟩ := Option.bind_eq_some_iff.mp h
    exact ih (step_sound h₁) h

/-- ASCII text behind a text does not matter to whether that is well formed. -/
theorem valid_append_ascii {w : Bytes} (hw : ∀ b ∈ w, isAscii b = true) (s : Bytes) :
    valid (s ++ w) = valid s := by
  simp only [valid,run_append]
  cases hq : run .start s with
  | none => rfl
  | some q =>
    cases q with
    | start => simp [run_ascii hw]
    | owing low high more =>
      cases w with
      | nil => rfl
      | cons b w =>
        have hs : (State.owing low high more).Sound := @run_sound .start _ trivial _ hq
        simp [run,step_owing_ascii hs (hw b (by simp))]

/-- Rewriting single ASCII characters to ASCII texts neither makes nor breaks
well-formedness. -/
theorem run_flatMap {f : UInt8 → Bytes} (hf : ∀ b, isAscii b = false → f b = [b])
    (ha : ∀ b, isAscii b = true → f b ≠ [] ∧ ∀ c ∈ f b, isAscii c = true)
    {q : State} (hq : q.Sound) (s : Bytes) : run q (s.flatMap f) = run q s := by
  induction s generalizing q with
  | nil => rfl
  | cons b s ih =>
    rw [List.flatMap_cons,run_append]
    cases hb : isAscii b with
    | false =>
      rw [hf b hb]
      simp only [run]
      cases hs : step q b with
      | none => rfl
      | some q' => simpa using ih (step_sound hs)
    | true =>
      obtain ⟨hn,hc⟩ := ha b hb
      cases q with
      | start =>
        rw [run_ascii hc]
        simp only [run,step_start_ascii hb,Option.bind_some]
        exact ih hq
      | owing low high more =>
        obtain ⟨c,t,ht⟩ := List.exists_cons_of_ne_nil hn
        rw [ht] at hc ⊢
        simp [run,step_owing_ascii hq hb,step_owing_ascii hq (hc c (by simp))]

theorem valid_flatMap {f : UInt8 → Bytes} (hf : ∀ b, isAscii b = false → f b = [b])
    (ha : ∀ b, isAscii b = true → f b ≠ [] ∧ ∀ c ∈ f b, isAscii c = true) (s : Bytes) :
    valid (s.flatMap f) = valid s := by
  simp only [valid,run_flatMap hf ha (q := .start) trivial s]

/-- A text is well formed up to any ASCII octet of a well-formed one. -/
theorem valid_before_ascii {s t : Bytes} {b : UInt8} (hb : isAscii b = true)
    (h : valid (s ++ b :: t) = true) : valid s = true := by
  rw [valid_iff,run_append] at h
  rw [valid_iff]
  obtain ⟨q,hq,h⟩ := Option.bind_eq_some_iff.mp h
  cases q with
  | start => exact hq
  | owing low high more =>
    have hs : (State.owing low high more).Sound := @run_sound .start _ trivial _ hq
    rw [run,step_owing_ascii hs hb] at h
    cases h

theorem valid_behind_ascii {s t : Bytes} {b : UInt8} (hb : isAscii b = true)
    (h : valid (s ++ b :: t) = true) : valid (s ++ [b]) = true := by
  rw [valid_append (valid_before_ascii hb h)]
  exact valid_ascii (List.forall_mem_singleton.mpr hb)

theorem lead_continuation : ∀ b : UInt8, isContinuation b = true → lead b = none := by
  apply forall_octet
  decide +kernel

theorem lead_lineFeed (q : State) : ∀ {q'}, step q lineFeed = some q' → q.Sound → q' = .start := by
  intro q' h hq
  cases q with
  | start => rw [step_start_ascii (by decide)] at h; cases h; rfl
  | owing low high more => rw [step_owing_ascii hq (by decide)] at h; cases h

theorem head_of_valid {b : UInt8} {t : Bytes} (h : valid (b :: t) = true) : isContinuation b = false := by
  cases hb : isContinuation b with
  | false => rfl
  | true =>
    rw [valid_iff,run,step,lead_continuation b hb] at h
    cases h

end Utf8
end Text
