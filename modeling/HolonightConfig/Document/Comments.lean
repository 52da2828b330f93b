import HolonightConfig.Document.Scan
import HolonightConfig.Toml.Syntax

/-! The comments of a value, and the scan that keeps them where the value is removed. The
scan follows the strings of the text; a multi-line one it leaves at the first three quotes. -/
namespace HolonightConfig
open Text Toml

namespace Document
open Lexical

/-! ### What the comments are -/

/-- The comments among blanks and line breaks, each through its line feed. -/
def gapComments (inside : Bool) : Bytes → Bytes
  | [] => []
  | c :: r =>
    if inside then c :: gapComments (c != lineFeed) r
    else if c = 0x23 then c :: gapComments true r
    else gapComments false r

mutual
/-- The comments of a value in their order; only the gaps of an array hold some. -/
def comments : Value → Bytes
  | .scalar _ _ => []
  | .array items close => itemsComments items ++ gapComments false close
  | .inlineTable members _ => membersComments members
def itemsComments : List (Item Value) → Bytes
  | [] => []
  | ⟨lead,v,trail⟩ :: items =>
    gapComments false lead ++ (comments v ++ (gapComments false trail ++ itemsComments items))
def membersComments : List (Member Value) → Bytes
  | [] => []
  | ⟨_,_,_,v,_⟩ :: members => comments v ++ membersComments members
end

/-! ### The quotes that end a string -/

/-- How many unescaped quotes in a row end the text behind an opening delimiter. -/
def closingQuotes (quote : UInt8) (escape : Bool) (n : ℕ) : Bytes → ℕ
  | [] => n
  | c :: r =>
    if escape then closingQuotes quote false 0 r
    else if quote = 0x22 ∧ c = 0x5C then closingQuotes quote true 0 r
    else if c = quote then closingQuotes quote false (n + 1) r
    else closingQuotes quote false 0 r

/-- A multi-line string whose content ends in one quote directly before the delimiter. -/
def EndsInQuote (text : Bytes) : Prop :=
  ∃ q r, isQuote q = true ∧ text = q :: q :: q :: r ∧ closingQuotes q false 0 r = 4

mutual
/-- The scalars of a value, as they are written. -/
def scalarTexts : Value → List Bytes
  | .scalar text _ => [text]
  | .array items _ => itemsScalarTexts items
  | .inlineTable members _ => membersScalarTexts members
def itemsScalarTexts : List (Item Value) → List Bytes
  | [] => []
  | ⟨_,v,_⟩ :: items => scalarTexts v ++ itemsScalarTexts items
def membersScalarTexts : List (Member Value) → List Bytes
  | [] => []
  | ⟨_,_,_,v,_⟩ :: members => scalarTexts v ++ membersScalarTexts members
end

/-! ### Strings -/

/-- No quote comes next. -/
def NoQuote (r : Bytes) : Prop := ∀ c, r.head? = some c → isQuote c = false

/-- The octets the scan passes over in a state of the string's reader. -/
def skipped : StringState → ℕ
  | .escape => 1
  | _ => 0

/-- The quotes the reader is ahead of the scan. -/
def pending : StringState → ℕ
  | .quotes n => n
  | _ => 0

/-- The scan of a string's rest where its reader is in a state. -/
def scanFrom (q : UInt8) (multiline : Bool) (st : StringState) (s : Bytes) : Bytes :=
  retained (skipped st) (.quoted q multiline) (List.replicate (pending st) q ++ s)

def closingFrom (q : UInt8) (st : StringState) (t : Bytes) : ℕ :=
  closingQuotes q (skipped st = 1) (pending st) t

theorem isQuote_iff {q : UInt8} : isQuote q = true ↔ q = 0x22 ∨ q = 0x27 := by
  simp [isQuote]

section
variable {q : UInt8}

theorem retained_other {multiline : Bool} {c : UInt8} (h : ¬ (q = 0x22 ∧ c = 0x5C)) (hc : c ≠ q) (r : Bytes) :
    retained 0 (.quoted q multiline) (c :: r) = retained 0 (.quoted q multiline) r := by
  rw [retained,if_neg h,if_neg (fun hn => hc hn.1)]

theorem closing_other {c : UInt8} {n : ℕ} (h : ¬ (q = 0x22 ∧ c = 0x5C)) (hc : c ≠ q) (r : Bytes) :
    closingQuotes q false n (c :: r) = closingQuotes q false 0 r := by
  rw [closingQuotes,if_neg Bool.false_ne_true,if_neg h,if_neg hc]

/-- A state in which the scan is where the reader is. -/
def Level (st : StringState) : Prop := skipped st = 0 ∧ pending st = 0

/-- What an octet can do to the reader of a string, but for ending it. -/
def Goes (q : UInt8) (st : StringState) (c : UInt8) (st' : StringState) : Prop :=
  (skipped st = 1 ∧ pending st = 0 ∧ Level st') ∨
  (skipped st = 0 ∧ c = q ∧ pending st ≤ 3 ∧ st' = .quotes (pending st + 1)) ∨
  (skipped st = 0 ∧ pending st ≤ 2 ∧ c ≠ q ∧ q = 0x22 ∧ c = 0x5C ∧ st' = .escape) ∨
  (skipped st = 0 ∧ pending st ≤ 2 ∧ c ≠ q ∧ ¬ (q = 0x22 ∧ c = 0x5C) ∧ Level st')

theorem plainStep_next {c : UInt8} {out : Bytes} {st st' : StringState} (hs : skipped st = 0)
    (hp : pending st ≤ 2) (hquote : c = q → pending st = 0)
    (h : plainStep q true c = .next out st') : Goes q st c st' := by
  unfold plainStep at h
  split at h
  · next hc =>
    cases h
    exact Or.inr (Or.inl ⟨hs,hc,by omega,by rw [hquote hc]⟩)
  · next hc =>
    split at h
    · next he =>
      cases h
      exact Or.inr (Or.inr (Or.inl ⟨hs,hp,hc,he.2,he.1,rfl⟩))
    · next he =>
      refine Or.inr (Or.inr (Or.inr ⟨hs,hp,hc,fun hn => he ⟨hn.2,hn.1⟩,?_⟩))
      repeat' split at h
      all_goals first | cases h; exact ⟨rfl,rfl⟩ | cases h

/-- An octet that is neither a quote nor a backslash. -/
theorem goes_other {c : UInt8} {st st' : StringState} (hq : isQuote q = true) (hc : isQuote c = false)
    (hb : c ≠ 0x5C) (hst : Level st) (hst' : Level st') : Goes q st c st' := by
  refine Or.inr (Or.inr (Or.inr ⟨hst.1,by rw [hst.2]; omega,?_,fun hn => hb hn.2,hst'⟩))
  rintro rfl
  rw [hq] at hc
  cases hc

theorem hexValue_other {c : UInt8} {d : ℕ} (h : hexValue c = some d) : isQuote c = false ∧ c ≠ 0x5C := by
  constructor
  · cases hq : isQuote c with
    | false => rfl
    | true => rcases isQuote_iff.mp hq with rfl | rfl <;> cases h
  · rintro rfl
    cases h

theorem isBlank_other {c : UInt8} (h : isBlank c = true) : isQuote c = false ∧ c ≠ 0x5C := by
  simp only [isBlank,Bool.or_eq_true,beq_iff_eq] at h
  rcases h with rfl | rfl <;> decide

theorem trimStep_next {c : UInt8} {a : Action StringState} (h : trimStep c = some a) :
    (isQuote c = false ∧ c ≠ 0x5C) ∧ ∃ st, a = .next [] st ∧ Level st := by
  unfold trimStep at h
  split at h
  · next hb =>
    cases h
    exact ⟨isBlank_other hb,_,rfl,rfl,rfl⟩
  · split at h
    · next hc => cases h; subst hc; exact ⟨by decide,_,rfl,rfl,rfl⟩
    · split at h
      · next hc => cases h; subst hc; exact ⟨by decide,_,rfl,rfl,rfl⟩
      · cases h

theorem lineEnd_other : (isQuote lineFeed = false ∧ lineFeed ≠ 0x5C) ∧
    isQuote carriageReturn = false ∧ carriageReturn ≠ 0x5C := by decide

/-- Behind a line-ending backslash. -/
theorem trimOrFail_next {c : UInt8} {out : Bytes} {st' : StringState}
    (h : (trimStep c).getD .fail = .next out st') : (isQuote c = false ∧ c ≠ 0x5C) ∧ Level st' := by
  cases ht : trimStep c with
  | none => rw [ht] at h; cases h
  | some a =>
    obtain ⟨hc,st,rfl,hl⟩ := trimStep_next ht
    rw [ht] at h
    cases h
    exact ⟨hc,hl⟩

theorem goes_feed (hq : isQuote q = true) {c : UInt8} {st st' : StringState} (hl : Level st) (hc : c = lineFeed)
    (hl' : Level st') : Goes q st c st' := by
  subst hc
  exact goes_other hq lineEnd_other.1.1 lineEnd_other.1.2 hl hl'

theorem goes_return (hq : isQuote q = true) {c : UInt8} {st st' : StringState} (hl : Level st)
    (hc : c = carriageReturn) (hl' : Level st') : Goes q st c st' := by
  subst hc
  exact goes_other hq lineEnd_other.2.1 lineEnd_other.2.2 hl hl'

theorem goes_plain {c : UInt8} {out : Bytes} {st st' : StringState} (hl : Level st)
    (h : plainStep q true c = .next out st') : Goes q st c st' :=
  plainStep_next hl.1 (by rw [hl.2]; omega) (fun _ => hl.2) h

section
variable {c : UInt8} {out : Bytes} {st' : StringState} (hq : isQuote q = true)
include hq

theorem goes_first (h : stringStep q true .first (some c) = .next out st') : Goes q .first c st' := by
  simp only [stringStep] at h
  split at h
  · next hc => cases h; exact goes_feed hq ⟨rfl,rfl⟩ hc ⟨rfl,rfl⟩
  · split at h
    · next hc => cases h; exact goes_return hq ⟨rfl,rfl⟩ hc ⟨rfl,rfl⟩
    · exact goes_plain ⟨rfl,rfl⟩ h

omit hq in
theorem goes_quotes {n : ℕ} (h : stringStep q true (.quotes n) (some c) = .next out st') :
    Goes q (.quotes n) c st' := by
  simp only [stringStep] at h
  split at h
  · next hn =>
    split at h
    · next hc => cases h; exact Or.inr (Or.inl ⟨rfl,hc,Nat.le_succ_of_le hn,rfl⟩)
    · next hc =>
      cases hp : plainStep q true c with
      | next out' st₁ =>
        rw [hp] at h
        cases h
        exact plainStep_next rfl hn (fun he => absurd he hc) hp
      | _ => rw [hp] at h; cases h
  · split at h
    · next hc =>
      split at h
      · next hn => cases h; exact Or.inr (Or.inl ⟨rfl,hc,hn.le,by rw [hn]; rfl⟩)
      · cases h
    · cases h

omit hq in
theorem goes_escape (h : stringStep q true .escape (some c) = .next out st') : Goes q .escape c st' := by
  refine Or.inl ⟨rfl,rfl,?_⟩
  simp only [stringStep] at h
  split at h
  · cases h; exact ⟨rfl,rfl⟩
  · split at h
    · cases h; exact ⟨rfl,rfl⟩
    · split at h
      · cases h; exact ⟨rfl,rfl⟩
      · exact (trimOrFail_next h).2

theorem goes_hex {more value : ℕ} (h : stringStep q true (.hex more value) (some c) = .next out st') :
    Goes q (.hex more value) c st' := by
  simp only [stringStep] at h
  split at h
  · cases h
  · next d hd =>
    obtain ⟨hc,hb⟩ := hexValue_other hd
    refine goes_other hq hc hb ⟨rfl,rfl⟩ ?_
    repeat' split at h
    all_goals first | cases h; exact ⟨rfl,rfl⟩ | cases h

theorem goes_trim (h : stringStep q true .trim (some c) = .next out st') : Goes q .trim c st' := by
  simp only [stringStep] at h
  split at h
  · next hc =>
    cases h
    rcases hc with hc | hc
    · obtain ⟨hc,hb⟩ := isBlank_other hc
      exact goes_other hq hc hb ⟨rfl,rfl⟩ ⟨rfl,rfl⟩
    · exact goes_feed hq ⟨rfl,rfl⟩ hc ⟨rfl,rfl⟩
  · split at h
    · next hc => cases h; exact goes_return hq ⟨rfl,rfl⟩ hc ⟨rfl,rfl⟩
    · exact goes_plain ⟨rfl,rfl⟩ h

theorem stringStep_next {st : StringState} (h : stringStep q true st (some c) = .next out st') : Goes q st c st' := by
  cases st with
  | first => exact goes_first hq h
  | plain => exact goes_plain ⟨rfl,rfl⟩ h
  | quotes n => exact goes_quotes h
  | escape => exact goes_escape h
  | hex more value => exact goes_hex hq h
  | trim => exact goes_trim hq h
  | trimBlank =>
    obtain ⟨⟨hc,hb⟩,hl⟩ := trimOrFail_next h
    exact goes_other hq hc hb ⟨rfl,rfl⟩ hl
  | firstReturn | «return» | trimReturn =>
    simp only [stringStep] at h
    split at h
    · next hc => cases h; exact goes_feed hq ⟨rfl,rfl⟩ hc ⟨rfl,rfl⟩
    · cases h

end

theorem not_backslash (hq : isQuote q = true) : ¬ (q = 0x22 ∧ q = 0x5C) := by
  rintro ⟨rfl,h⟩
  cases h

/-- A quote of a multi-line string that is not the first of three. -/
theorem retained_quote (hq : isQuote q = true) {r : Bytes} (h : opensThree q (q :: r) = false) :
    retained 0 (.quoted q true) (q :: r) = retained 0 (.quoted q true) r := by
  rw [retained,if_neg (not_backslash hq),if_neg]
  rw [h]
  rintro ⟨-,hn | hn⟩ <;> cases hn

theorem opensThree_one {c : UInt8} (hc : c ≠ q) (r : Bytes) : opensThree q (q :: c :: r) = false := by
  simp [opensThree,List.replicate_succ,hc]

theorem opensThree_two {c : UInt8} (hc : c ≠ q) (r : Bytes) : opensThree q (q :: q :: c :: r) = false := by
  simp [opensThree,List.replicate_succ,hc]

/-- Fewer than three quotes in a row do not end a multi-line string. -/
theorem retained_pending (hq : isQuote q = true) {n : ℕ} (hn : n ≤ 2) {c : UInt8} (hc : c ≠ q) (r : Bytes) :
    retained 0 (.quoted q true) (List.replicate n q ++ c :: r) = retained 0 (.quoted q true) (c :: r) := by
  have hone := retained_quote hq (opensThree_one hc r)
  rcases n with _ | _ | _ | n
  · rfl
  · exact hone
  · exact (retained_quote hq (opensThree_two hc r)).trans hone
  · omega

/-- What an octet that goes on does to the scan and to the count of closing quotes. -/
theorem Goes.scan {c : UInt8} {st st' : StringState} (h : Goes q st c st') (hq : isQuote q = true) (s : Bytes) :
    scanFrom q true st (c :: s) = scanFrom q true st' s := by
  unfold scanFrom
  rcases h with ⟨hs,hp,hl⟩ | ⟨hs,rfl,hp,rfl⟩ | ⟨hs,hp,hc,h22,h5c,rfl⟩ | ⟨hs,hp,hc,hn,hl⟩
  · rw [hs,hp,hl.1,hl.2]
    rfl
  · rw [hs]
    change retained 0 _ (List.replicate (pending st) c ++ c :: s) =
      retained 0 _ (List.replicate (pending st + 1) c ++ s)
    rw [List.replicate_succ',List.append_assoc]
    rfl
  · rw [hs,retained_pending hq hp hc,retained,if_pos ⟨h22,h5c⟩]
    rfl
  · rw [hs,retained_pending hq hp hc,retained_other hn hc,hl.1,hl.2]
    rfl

theorem Goes.closing {c : UInt8} {st st' : StringState} (h : Goes q st c st') (hq : isQuote q = true) (t : Bytes) :
    closingFrom q st (c :: t) = closingFrom q st' t := by
  unfold closingFrom
  rcases h with ⟨hs,hp,hl⟩ | ⟨hs,rfl,hp,rfl⟩ | ⟨hs,hp,hc,h22,h5c,rfl⟩ | ⟨hs,hp,hc,hn,hl⟩
  · rw [hs,hp,hl.1,hl.2]
    rfl
  · rw [hs]
    exact (if_neg (not_backslash hq)).trans (if_pos rfl)
  · rw [hs,closingQuotes,if_neg (by decide),if_pos ⟨h22,h5c⟩]
    rfl
  · rw [hs,hl.1,hl.2]
    exact closing_other hn hc t

/-- An action that ends a token. -/
def EndsToken (a : Action StringState) : Prop := ∃ out, a = .stop out ∨ a = .before out

theorem not_endsToken_next (out : Bytes) (st : StringState) : ¬ EndsToken (.next out st) := by
  rintro ⟨_,h | h⟩ <;> cases h

theorem not_endsToken_fail : ¬ EndsToken .fail := by
  rintro ⟨_,h | h⟩ <;> cases h

theorem not_endsToken_plainStep (c : UInt8) : ¬ EndsToken (plainStep q true c) := by
  unfold plainStep
  rw [if_pos rfl]
  repeat' split
  all_goals first | exact not_endsToken_next _ _ | exact not_endsToken_fail

theorem not_endsToken_trimStep (c : UInt8) : ¬ EndsToken ((trimStep c).getD .fail) := by
  unfold trimStep
  repeat' split
  all_goals first | exact not_endsToken_next _ _ | exact not_endsToken_fail

/-- Only behind quotes the reader ends a string. -/
theorem endsToken_quotes {o : Option UInt8} {st : StringState} (h : EndsToken (stringStep q true st o)) :
    ∃ n, st = .quotes n := by
  cases st with
  | quotes n => exact ⟨n,rfl⟩
  | _ =>
    exfalso
    revert h
    cases o with
    | none => exact not_endsToken_fail
    | some c =>
      simp only [stringStep]
      repeat' split
      all_goals first | exact not_endsToken_next _ _ | exact not_endsToken_fail |
        exact not_endsToken_plainStep c | exact not_endsToken_trimStep c

theorem not_endsToken_prepend {out : Bytes} {a : Action StringState} (h : ¬ EndsToken a) :
    ¬ EndsToken (a.prepend out) := by
  cases a with
  | fail => exact not_endsToken_fail
  | next o st => exact not_endsToken_next _ _
  | stop o => exact absurd ⟨o,Or.inl rfl⟩ h
  | before o => exact absurd ⟨o,Or.inr rfl⟩ h

/-- It stops behind the fifth of them, or before what is none behind three or four. -/
theorem stringStep_stop {c : UInt8} {out : Bytes} {st : StringState} (hp : pending st ≤ 4)
    (h : stringStep q true st (some c) = .stop out) : st = .quotes 4 ∧ c = q := by
  obtain ⟨n,rfl⟩ := endsToken_quotes ⟨out,Or.inl h⟩
  simp only [stringStep] at h
  split at h
  · split at h
    · cases h
    · exact absurd ⟨out,Or.inl h⟩ (not_endsToken_prepend (not_endsToken_plainStep c))
  · next hn =>
    split at h
    · next hc =>
      split at h
      · cases h
      · next hn' =>
        have : n = 4 := by
          change n ≤ 4 at hp
          omega
        exact ⟨by rw [this],hc⟩
    · cases h

theorem stringStep_before {o : Option UInt8} {out : Bytes} {st : StringState} (hp : pending st ≤ 4)
    (h : stringStep q true st o = .before out) : st = .quotes 3 ∨ st = .quotes 4 := by
  obtain ⟨n,rfl⟩ := endsToken_quotes ⟨out,Or.inr h⟩
  have hn : ¬ n ≤ 2 := by
    intro hn
    cases o with
    | none =>
      simp only [stringStep,if_pos hn] at h
      cases h
    | some c =>
      simp only [stringStep,if_pos hn] at h
      split at h
      · cases h
      · exact not_endsToken_prepend (not_endsToken_plainStep c) ⟨out,Or.inr h⟩
  change n ≤ 4 at hp
  rcases Nat.lt_or_ge 3 n with h3 | h3
  · exact Or.inr (by rw [show n = 4 by omega])
  · exact Or.inl (by rw [show n = 3 by omega])

theorem Goes.pending_le {c : UInt8} {st st' : StringState} (h : Goes q st c st') : pending st' ≤ 4 := by
  rcases h with ⟨-,-,hl⟩ | ⟨-,-,hp,rfl⟩ | ⟨-,-,-,-,-,rfl⟩ | ⟨-,-,-,-,hl⟩
  · rw [hl.2]; omega
  · exact Nat.succ_le_succ hp
  · exact Nat.zero_le _
  · rw [hl.2]; omega

theorem opensThree_three (r : Bytes) : opensThree q (q :: q :: q :: r) = true := by
  simp [opensThree,List.replicate_succ]

theorem retained_three (hq : isQuote q = true) (r : Bytes) :
    retained 0 (.quoted q true) (q :: q :: q :: r) = retained 0 .plain r := by
  rw [retained,if_neg (not_backslash hq),if_pos ⟨rfl,Or.inr (opensThree_three r)⟩]
  rfl

/-- Two quotes are an empty string. -/
theorem retained_two (hq : isQuote q = true) {r : Bytes} (hr : NoQuote r) :
    retained 0 .plain (q :: q :: r) = retained 0 .plain r := by
  have hopen : opensThree q (q :: q :: r) = false := by
    cases r with
    | nil => simp [opensThree,List.replicate_succ]
    | cons c r => exact opensThree_two (fun hc => by rw [← hc,hr c rfl] at hq; cases hq) r
  rw [retained,if_pos (by rcases isQuote_iff.mp hq with rfl | rfl <;> decide)]
  simp only [hopen]
  rw [if_neg Bool.false_ne_true,retained,if_neg (not_backslash hq),if_pos ⟨rfl,Or.inl rfl⟩]
  rfl

theorem scan_before (hq : isQuote q = true) {st : StringState} (h : st = .quotes 3 ∨ st = .quotes 4)
    {s : Bytes} (hne : closingFrom q st [] ≠ 4) : scanFrom q true st s = retained 0 .plain s := by
  rcases h with rfl | rfl
  · exact retained_three hq s
  · exact absurd rfl hne

/-- A string's reader from one of its states: its text, and where the scan is behind it. -/
theorem token_scan (hq : isQuote q = true) {s out r : Bytes} {st : StringState} (hp : pending st ≤ 4)
    (hr : NoQuote r) (h : (stringStep q true).read st s = some (out,r)) :
    ∃ t, s = t ++ r ∧ (closingFrom q st t ≠ 4 → scanFrom q true st s = retained 0 .plain r) := by
  induction s generalizing st out with
  | nil =>
    rw [Transducer.read] at h
    split at h
    · next out' he =>
      cases h
      exact ⟨[],rfl,scan_before hq (stringStep_before hp he)⟩
    · cases h
  | cons c s ih =>
    rw [Transducer.read] at h
    split at h
    · cases h
    · next out' st' he =>
      obtain ⟨⟨out'',r'⟩,hread,heq⟩ := Option.map_eq_some_iff.mp h
      cases heq
      have hg := stringStep_next hq he
      obtain ⟨t,rfl,ht⟩ := ih hg.pending_le hread
      refine ⟨c :: t,rfl,?_⟩
      rw [hg.closing hq,hg.scan hq]
      exact ht
    · next out' he =>
      cases h
      obtain ⟨rfl,rfl⟩ := stringStep_stop hp he
      exact ⟨[c],rfl,fun _ => (retained_three hq _).trans (retained_two hq hr)⟩
    · next out' he =>
      cases h
      exact ⟨[],rfl,scan_before hq (stringStep_before hp he)⟩

/-! ### Single-line strings -/

/-- The states of a single-line string's reader. -/
def SingleLine (st : StringState) : Prop := st = .plain ∨ st = .escape ∨ ∃ more value, st = .hex more value

theorem plainStep_single {c : UInt8} {st' : StringState} {out : Bytes} (h : plainStep q false c = .next out st') :
    c ≠ q ∧ ((q = 0x22 ∧ c = 0x5C ∧ st' = .escape) ∨ (¬ (q = 0x22 ∧ c = 0x5C) ∧ st' = .plain)) := by
  unfold plainStep at h
  split at h
  · cases h
  · next hc =>
    refine ⟨hc,?_⟩
    split at h
    · next he =>
      cases h
      exact Or.inl ⟨he.2,he.1,rfl⟩
    · next he =>
      refine Or.inr ⟨fun hn => he ⟨hn.2,hn.1⟩,?_⟩
      rw [if_neg (fun hn => Bool.false_ne_true hn.1),if_neg (fun hn => Bool.false_ne_true hn.1)] at h
      split at h
      · cases h; rfl
      · cases h

theorem single_next (hq : isQuote q = true) {c : UInt8} {out : Bytes} {st st' : StringState} (hst : SingleLine st)
    (h : stringStep q false st (some c) = .next out st') (s : Bytes) :
    SingleLine st' ∧ scanFrom q false st (c :: s) = scanFrom q false st' s := by
  unfold scanFrom
  rcases hst with rfl | rfl | ⟨more,value,rfl⟩
  · obtain ⟨hc,⟨h22,h5c,rfl⟩ | ⟨hn,rfl⟩⟩ := plainStep_single h
    · refine ⟨Or.inr (Or.inl rfl),?_⟩
      change retained 0 _ (c :: s) = _
      rw [retained,if_pos ⟨h22,h5c⟩]
      rfl
    · exact ⟨Or.inl rfl,retained_other hn hc s⟩
  · simp only [stringStep] at h
    have hst' : st' = .plain ∨ ∃ more value, st' = .hex more value := by
      repeat' split at h
      all_goals first | cases h; exact Or.inl rfl | cases h; exact Or.inr ⟨_,_,rfl⟩ | cases h | contradiction
    rcases hst' with rfl | ⟨more,value,rfl⟩
    · exact ⟨Or.inl rfl,rfl⟩
    · exact ⟨Or.inr (Or.inr ⟨more,value,rfl⟩),rfl⟩
  · simp only [stringStep] at h
    split at h
    · cases h
    · next d hd =>
      obtain ⟨hc,hb⟩ := hexValue_other hd
      have hscan := @retained_other q false c (fun hn => hb hn.2)
        (fun he => by rw [he,hq] at hc; cases hc) s
      have hst' : st' = .plain ∨ ∃ more value, st' = .hex more value := by
        repeat' split at h
        all_goals first | cases h; exact Or.inl rfl | cases h; exact Or.inr ⟨_,_,rfl⟩ | cases h
      rcases hst' with rfl | ⟨more,value,rfl⟩
      · exact ⟨Or.inl rfl,hscan⟩
      · exact ⟨Or.inr (Or.inr ⟨more,value,rfl⟩),hscan⟩

/-- It ends with the quote, and the quote is behind it. -/
theorem single_ends {o : Option UInt8} {st : StringState} (hst : SingleLine st)
    (h : EndsToken (stringStep q false st o)) :
    st = .plain ∧ o = some q ∧ stringStep q false st o = .stop [] := by
  rcases hst with rfl | rfl | ⟨more,value,rfl⟩
  · cases o with
    | none => exact absurd h not_endsToken_fail
    | some c =>
      by_cases hc : c = q
      · subst hc
        exact ⟨rfl,rfl,if_pos rfl⟩
      · refine absurd h ?_
        simp only [stringStep,plainStep,if_neg hc]
        repeat' split
        all_goals first | exact not_endsToken_next _ _ | exact not_endsToken_fail
  all_goals
    refine absurd h ?_
    cases o with
    | none => exact not_endsToken_fail
    | some c =>
      simp only [stringStep]
      repeat' split
      all_goals first | exact not_endsToken_next _ _ | exact not_endsToken_fail | contradiction

/-- The scan of a single-line string ends with its reader. -/
theorem singleLine_scan (hq : isQuote q = true) {s out r : Bytes} {st : StringState} (hst : SingleLine st)
    (h : (stringStep q false).read st s = some (out,r)) :
    scanFrom q false st s = retained 0 .plain r := by
  induction s generalizing st out with
  | nil =>
    rw [Transducer.read] at h
    split at h
    · next out' he => cases (single_ends hst ⟨_,Or.inr he⟩).2.1
    · cases h
  | cons c s ih =>
    rw [Transducer.read] at h
    split at h
    · cases h
    · next out' st' he =>
      obtain ⟨⟨out'',r'⟩,hread,heq⟩ := Option.map_eq_some_iff.mp h
      cases heq
      obtain ⟨hst',hscan⟩ := single_next hq hst he s
      rw [hscan]
      exact ih hst' hread
    · next out' he =>
      cases h
      obtain ⟨rfl,hc,-⟩ := single_ends hst ⟨_,Or.inl he⟩
      cases hc
      change retained 0 (.quoted q false) (q :: _) = _
      rw [retained,if_neg (not_backslash hq),if_pos ⟨rfl,Or.inl rfl⟩]
      rfl
    · next out' he =>
      have hs := (single_ends hst ⟨_,Or.inr he⟩).2.2
      rw [he] at hs
      cases hs

/-! ### Tokens -/

theorem head_ne_of_peek (hq : isQuote q = true) {s : Bytes} (h : (peek s).head? ≠ some q) : s.head? ≠ some q := by
  by_cases hl : atLineEnd s
  · rintro hs
    rcases hl with rfl | hl | hl
    · cases hs
    · rw [hl] at hs
      cases hs
      cases hq
    · rw [hl] at hs
      cases hs
      cases hq
  · rwa [← peek_head hl]

theorem opens_single {s : Bytes} (h : s.head? ≠ some q) : opensThree q (q :: s) = false := by
  cases s with
  | nil => simp [opensThree,List.replicate_succ]
  | cons c s => exact opensThree_one (fun hc => h (by rw [hc]; rfl)) s

theorem retained_open (hq : isQuote q = true) {multiline : Bool} {r : Bytes}
    (h : opensThree q (q :: r) = multiline) : retained 0 .plain (q :: r) =
      retained (if multiline then 2 else 0) (.quoted q multiline) r := by
  rw [retained,if_pos (by rcases isQuote_iff.mp hq with rfl | rfl <;> decide)]
  simp only [h]

/-- A string with its opening quote. -/
theorem string_scan (hq : isQuote q = true) {s a r : Bytes} (hr : NoQuote r) (h : string q s = some (a,r)) :
    ∃ t, s = t ++ r ∧ (¬ EndsInQuote (q :: t) → retained 0 .plain (q :: s) = retained 0 .plain r) := by
  simp only [string,Lexer.bind_apply,Lexer.look_apply,Lexer.ite_apply] at h
  split at h
  · next hsecond =>
    obtain ⟨s,rfl⟩ := head_of_peek hsecond
    rw [Lexer.octet_cons] at h
    simp only at h
    split at h
    · next hthird =>
      obtain ⟨s,rfl⟩ := head_of_peek hthird
      rw [Lexer.octet_cons] at h
      obtain ⟨t,rfl,ht⟩ := token_scan hq (by decide) hr h
      refine ⟨q :: q :: t,rfl,fun hne => ?_⟩
      rw [retained_open hq (opensThree_three _)]
      exact ht (fun hc => hne ⟨q,t,hq,rfl,hc⟩)
    · next hthird =>
      cases h
      exact ⟨[q],rfl,fun _ => retained_two hq hr⟩
  · next hsecond =>
    obtain ⟨t,rfl⟩ := Transducer.read_suffix _ h
    refine ⟨t,rfl,fun _ => ?_⟩
    rw [retained_open hq (opens_single (head_ne_of_peek hq hsecond))]
    exact singleLine_scan hq (Or.inl rfl) h

theorem retained_plain {t : Bytes} (h : ∀ c ∈ t, isQuote c = false ∧ c ≠ 0x23) (r : Bytes) :
    retained 0 .plain (t ++ r) = retained 0 .plain r := by
  induction t with
  | nil => rfl
  | cons c t ih =>
    obtain ⟨hq,hc⟩ := h c (List.mem_cons_self ..)
    rw [List.cons_append,retained,if_neg,if_neg hc]
    · exact ih (fun d hd => h d (List.mem_cons_of_mem _ hd))
    · rintro (rfl | rfl) <;> cases hq

theorem isBareScalar_plain {c : UInt8} (h : isBareScalar c = true) : isQuote c = false ∧ c ≠ 0x23 := by
  constructor
  · cases hq : isQuote c with
    | false => rfl
    | true => rcases isQuote_iff.mp hq with rfl | rfl <;> cases h
  · rintro rfl
    cases h

theorem isBlank_plain {c : UInt8} (h : isBlank c = true) : isQuote c = false ∧ c ≠ 0x23 := by
  simp only [isBlank,Bool.or_eq_true,beq_iff_eq] at h
  rcases h with rfl | rfl <;> decide

/-- A run of octets that mean nothing to the scan. -/
theorem run_scan {p : UInt8 → Bool} (hp : ∀ c, p c = true → isQuote c = false ∧ c ≠ 0x23) {s a r : Bytes}
    (h : Lexer.run p s = some (a,r)) : s = a ++ r ∧ retained 0 .plain s = retained 0 .plain r := by
  cases h
  refine ⟨(List.takeWhile_append_dropWhile).symm,?_⟩
  conv_lhs => rw [← List.takeWhile_append_dropWhile (p := p) (l := s)]
  exact retained_plain (fun c hc => hp c (List.mem_takeWhile_imp hc)) _

theorem bare_scan {s r : Bytes} {v : Scalar} (h : bare s = some (v,r)) :
    ∃ t, s = t ++ r ∧ retained 0 .plain s = retained 0 .plain r := by
  have hof : ∀ {o : Option Scalar} {s : Bytes}, Lexer.ofOption o s = some (v,r) → s = r := by
    intro o s h
    cases o with
    | none => cases h
    | some _ => cases h; rfl
  have hrun : ∀ s, Lexer.run isBareScalar s = some (s.takeWhile isBareScalar,s.dropWhile isBareScalar) :=
    fun _ => rfl
  obtain ⟨hs,hword⟩ := run_scan (fun c => isBareScalar_plain) (hrun s)
  simp only [bare,Lexer.bind_apply,Lexer.look_apply,Lexer.ite_apply,hrun] at h
  split at h
  · next hahead =>
    obtain ⟨s',hs'⟩ := head_of_peek hahead.2.1
    rw [hs'] at h hs hword
    simp only [Lexer.octet_cons] at h
    obtain ⟨hs₁,hmore⟩ := run_scan (fun c => isBareScalar_plain) (hrun s')
    rw [hof h] at hs₁ hmore
    refine ⟨s.takeWhile isBareScalar ++ 0x20 :: s'.takeWhile isBareScalar,?_,?_⟩
    · rw [List.append_assoc,List.cons_append,← hs₁]
      exact hs
    · rw [hword,← hmore]
      exact @retained_plain [0x20] (List.forall_mem_singleton.mpr (by decide)) s'
  · rw [hof h] at hs hword
    exact ⟨_,hs,hword⟩

/-- A scalar with its text. -/
theorem scalar_scan {s r : Bytes} {v : Scalar} (hr : NoQuote r) (h : scalar s = some (v,r)) :
    ∃ t, s = t ++ r ∧ (¬ EndsInQuote t → retained 0 .plain s = retained 0 .plain r) := by
  cases hc : (peek s).head? with
  | none =>
    simp only [scalar,Lexer.bind_apply,Lexer.look_apply,hc] at h
    cases h
  | some c =>
    simp only [scalar,Lexer.bind_apply,Lexer.look_apply,hc,Lexer.ite_apply] at h
    obtain ⟨s,rfl⟩ := head_of_peek hc
    split at h
    · next hq =>
      simp only [Lexer.octet_cons] at h
      split at h
      · cases h
      · next a r' ha =>
        cases h
        obtain ⟨t,rfl,ht⟩ := string_scan hq hr ha
        exact ⟨c :: t,rfl,ht⟩
    · obtain ⟨t,ht,hscan⟩ := bare_scan h
      exact ⟨t,ht,fun _ => hscan⟩

/-! ### Gaps -/

/-- The scan among blanks and comments. -/
def gapMode (inside : Bool) : Mode := if inside then .comment else .plain

/-- Whether the scan is inside a comment where the reader is in a state. -/
def GapInside (st : GapState) (inside : Bool) : Prop :=
  (st = .blank → inside = false) ∧ (st = .comment → inside = true)

/-- Whether a comment goes on behind an octet. -/
def insideAfter (inside : Bool) (c : UInt8) : Bool := if inside then c != lineFeed else c == 0x23

theorem gapComments_cons (inside : Bool) (c : UInt8) (t : Bytes) :
    gapComments inside (c :: t) = gapComments inside [c] ++ gapComments (insideAfter inside c) t := by
  cases inside with
  | true => rfl
  | false =>
    by_cases hc : c = 0x23
    · subst hc
      rfl
    · simp [gapComments,insideAfter,hc,beq_false_of_ne hc]

theorem retained_gap {inside : Bool} {c : UInt8} (hc : inside = false → isQuote c = false) (s : Bytes) :
    retained 0 (gapMode inside) (c :: s) =
      gapComments inside [c] ++ retained 0 (gapMode (insideAfter inside c)) s := by
  cases inside with
  | true =>
    by_cases hl : c = lineFeed
    · subst hl
      rfl
    · simp [gapComments,insideAfter,gapMode,retained,hl]
  | false =>
    have hq : ¬ (c = 0x27 ∨ c = 0x22) := by
      have := hc rfl
      rintro (rfl | rfl) <;> cases this
    by_cases h : c = 0x23
    · subst h
      rfl
    · simp [gapComments,insideAfter,gapMode,retained,hq,h]

theorem gapStep_next {c : UInt8} {st st' : GapState} {out : Bytes} {inside : Bool} (hst : GapInside st inside)
    (h : gapStep st (some c) = .next out st') :
    out = [c] ∧ GapInside st' (insideAfter inside c) ∧ (inside = false → isQuote c = false) := by
  cases st with
  | blank =>
    cases hst.1 rfl
    simp only [gapStep] at h
    split at h
    · next hc =>
      cases h
      have hc' : isQuote c = false ∧ c ≠ 0x23 := by
        rcases hc with hc | rfl
        · exact isBlank_plain hc
        · decide
      exact ⟨rfl,⟨fun _ => beq_false_of_ne hc'.2,GapState.noConfusion⟩,fun _ => hc'.1⟩
    · split at h
      · next hc =>
        cases h
        subst hc
        exact ⟨rfl,⟨GapState.noConfusion,fun _ => rfl⟩,fun _ => rfl⟩
      · split at h
        · next hc =>
          cases h
          subst hc
          exact ⟨rfl,⟨GapState.noConfusion,GapState.noConfusion⟩,fun _ => rfl⟩
        · cases h
  | comment =>
    cases hst.2 rfl
    simp only [gapStep] at h
    split at h
    · next hc =>
      cases h
      subst hc
      exact ⟨rfl,⟨fun _ => rfl,GapState.noConfusion⟩,Bool.noConfusion⟩
    · next hc =>
      split at h
      · cases h
        exact ⟨rfl,⟨GapState.noConfusion,GapState.noConfusion⟩,Bool.noConfusion⟩
      · split at h
        · cases h
          exact ⟨rfl,⟨GapState.noConfusion,fun _ => bne_iff_ne.mpr hc⟩,Bool.noConfusion⟩
        · cases h
  | «return» =>
    simp only [gapStep] at h
    split at h
    · next hc =>
      cases h
      subst hc
      exact ⟨rfl,⟨fun _ => by cases inside <;> rfl,GapState.noConfusion⟩,fun _ => rfl⟩
    · cases h

theorem gapStep_ends {c : UInt8} {st : GapState} {out : Bytes} :
    gapStep st (some c) ≠ .stop out ∧ (gapStep st (some c) = .before out → st = .blank ∧ out = []) := by
  cases st with
  | blank =>
    simp only [gapStep]
    repeat' split
    all_goals refine ⟨(by rintro ⟨⟩),fun h => ?_⟩
    all_goals cases h
    exact ⟨trivial,rfl⟩
  | _ =>
    simp only [gapStep]
    repeat' split
    all_goals refine ⟨(by rintro ⟨⟩),fun h => ?_⟩
    all_goals cases h

/-- A gap ends outside its comments, and the scan with it. -/
theorem gap_scan {st : GapState} {inside : Bool} (hst : GapInside st inside) {s t r : Bytes}
    (h : gapStep.read st s = some (t,r)) :
    retained 0 (gapMode inside) s = gapComments inside t ++ retained 0 .plain r ∧
      ∀ u, gapComments inside (t ++ u) = gapComments inside t ++ gapComments false u := by
  induction s generalizing st inside t with
  | nil => cases st <;> cases h
  | cons c s ih =>
    rw [Transducer.read] at h
    split at h
    · cases h
    · next out st' he =>
      obtain ⟨⟨t',r'⟩,hread,heq⟩ := Option.map_eq_some_iff.mp h
      cases heq
      obtain ⟨rfl,hst',hc⟩ := gapStep_next hst he
      obtain ⟨hscan,happend⟩ := ih hst' hread
      constructor
      · rw [retained_gap hc,hscan,← List.append_assoc,← gapComments_cons]
        rfl
      · intro u
        change gapComments inside (c :: (t' ++ u)) = gapComments inside (c :: t') ++ _
        rw [gapComments_cons,happend,← List.append_assoc,← gapComments_cons]
    · next out he => exact absurd he gapStep_ends.1
    · next out he =>
      cases h
      obtain ⟨rfl,rfl⟩ := gapStep_ends.2 he
      cases hst.1 rfl
      exact ⟨rfl,fun _ => rfl⟩

theorem gap_comments {s t r : Bytes} (h : gap s = some (t,r)) :
    retained 0 .plain s = gapComments false t ++ retained 0 .plain r ∧
      ∀ u, gapComments false (t ++ u) = gapComments false t ++ gapComments false u :=
  @gap_scan .blank false ⟨fun _ => rfl,GapState.noConfusion⟩ s t r h

/-- No quote follows the gap that ends before none. -/
theorem gap_noQuote {s t r : Bytes} (h : gap s = some (t,r)) (hr : NoQuote r) : NoQuote s := by
  intro c hc
  cases s with
  | nil => cases hc
  | cons d s =>
    cases hc
    cases hq : isQuote c with
    | false => rfl
    | true =>
      have hstep : gapStep .blank (some c) = .before [] := by
        rcases isQuote_iff.mp hq with rfl | rfl <;> rfl
      change gapStep.read .blank (c :: s) = _ at h
      rw [Transducer.read,hstep] at h
      cases h
      exact hq.symm.trans (hr c rfl)

/-! ### Keys -/

theorem isBareKey_plain {c : UInt8} (h : isBareKey c = true) : isQuote c = false ∧ c ≠ 0x23 :=
  isBareScalar_plain (by simp [isBareScalar,h])

theorem run_noQuote {p : UInt8 → Bool} (hp : ∀ c, p c = true → isQuote c = false) {s a r : Bytes}
    (h : Lexer.run p s = some (a,r)) (hr : NoQuote r) : NoQuote s := by
  cases h
  intro c hc
  cases s with
  | nil => cases hc
  | cons d s =>
    cases hc
    cases hpc : p c with
    | true => exact hp c hpc
    | false => exact hr c (by rw [List.dropWhile_cons,if_neg (by simp [hpc])]; rfl)

theorem simpleKey_scan {s k r : Bytes} (hr : NoQuote r) (h : simpleKey s = some (k,r)) :
    retained 0 .plain s = retained 0 .plain r := by
  cases hc : (peek s).head? with
  | none =>
    simp only [simpleKey,Lexer.bind_apply,Lexer.look_apply,hc] at h
    cases h
  | some c =>
    simp only [simpleKey,Lexer.bind_apply,Lexer.look_apply,hc,Lexer.ite_apply] at h
    split at h
    · next hq =>
      obtain ⟨s,rfl⟩ := head_of_peek hc
      simp only [Lexer.octet_cons] at h
      by_cases hs : s.head? = some c
      · cases s with
        | nil => cases hs
        | cons d s =>
          cases hs
          change (stringStep c false).read .plain (c :: s) = _ at h
          have hstep : stringStep c false .plain (some c) = .stop [] := if_pos rfl
          rw [Transducer.read,hstep] at h
          cases h
          exact retained_two hq hr
      · rw [retained_open hq (opens_single hs)]
        exact singleLine_scan hq (Or.inl rfl) h
    · split at h
      · exact (run_scan (fun c => isBareKey_plain) h).2
      · cases h

theorem noQuote_cons {c : UInt8} (hc : isQuote c = false) (r : Bytes) : NoQuote (c :: r) := by
  intro d hd
  cases hd
  exact hc

theorem retained_octet {c : UInt8} (hc : isQuote c = false ∧ c ≠ 0x23) (r : Bytes) :
    retained 0 .plain (c :: r) = retained 0 .plain r := retained_plain (List.forall_mem_singleton.mpr hc) r

theorem blanks_scan {s a r : Bytes} (hr : NoQuote r) (h : Lexer.run isBlank s = some (a,r)) :
    NoQuote s ∧ retained 0 .plain s = retained 0 .plain r :=
  ⟨run_noQuote (fun _ hc => (isBlank_plain hc).1) h hr,(run_scan (fun _ => isBlank_plain) h).2⟩

theorem dottedKey_scan {fuel : ℕ} {s r : Bytes} {ks : List Bytes} (hr : NoQuote r)
    (h : dottedKey fuel s = some (ks,r)) : retained 0 .plain s = retained 0 .plain r := by
  induction fuel generalizing s ks with
  | zero => cases h
  | succ fuel ih =>
    simp only [dottedKey,Lexer.bind_apply] at h
    split at h
    · cases h
    · next k r₁ hk =>
      have hrun : Lexer.run isBlank r₁ = some (r₁.takeWhile isBlank,r₁.dropWhile isBlank) := rfl
      simp only [hrun,Lexer.look_apply,Lexer.ite_apply] at h
      split at h
      · next hdot =>
        obtain ⟨r₂,hr₂⟩ := head_of_peek hdot
        rw [hr₂] at h hrun
        have hrun' : Lexer.run isBlank r₂ = some (r₂.takeWhile isBlank,r₂.dropWhile isBlank) := rfl
        simp only [Lexer.bind_apply,Lexer.octet_cons,hrun'] at h
        split at h
        · cases h
        · next ks' r' hks =>
          cases h
          obtain ⟨hr₁,hscan⟩ := blanks_scan (noQuote_cons (by decide) r₂) hrun
          rw [simpleKey_scan hr₁ hk,hscan,retained_octet (by decide),
            (run_scan (fun _ => isBlank_plain) hrun').2]
          exact ih hks
      · cases h
        obtain ⟨hr₁,hscan⟩ := blanks_scan hr hrun
        exact (simpleKey_scan hr₁ hk).trans hscan

/-! ### Values -/

/-- No string of these has content that ends in one quote. -/
def Closed (texts : List Bytes) : Prop := ∀ t ∈ texts, ¬ EndsInQuote t

theorem closed_append {ts us : List Bytes} : Closed (ts ++ us) ↔ Closed ts ∧ Closed us :=
  List.forall_mem_append

/-- What is read with some fuel leaves the scan where its comments are kept. -/
def ScansValue (fuel : ℕ) : Prop := ∀ ⦃s v r⦄, Syntax.value fuel s = some (v,r) → NoQuote r →
  Closed (scalarTexts v) → retained 0 .plain s = comments v ++ retained 0 .plain r

def ScansItems (fuel : ℕ) : Prop := ∀ ⦃s elements close r⦄,
  Syntax.items fuel s = some ((elements,close),0x5D :: r) → Closed (itemsScalarTexts elements) →
    retained 0 .plain s = itemsComments elements ++ (gapComments false close ++ retained 0 .plain r)

def ScansMembers (fuel : ℕ) : Prop := ∀ ⦃lead s ms r⦄,
  Syntax.members lead fuel s = some (ms,0x7D :: r) → Closed (membersScalarTexts ms) →
    retained 0 .plain s = membersComments ms ++ retained 0 .plain r

theorem scansItems_succ {fuel : ℕ} (hv : ScansValue fuel) (hi : ScansItems fuel) : ScansItems (fuel + 1) := by
  intro s elements close r h hc
  simp only [Syntax.items,Lexer.bind_apply,Lexer.look_apply,Lexer.ite_apply] at h
  split at h
  · cases h
  · next lead s₁ hlead =>
    rw [(gap_comments hlead).1]
    split at h
    · cases h
      rw [retained_octet (by decide)]
      rfl
    · split at h
      · cases h
      · next v s₂ hvalue =>
        split at h
        · cases h
        · next trail s₃ htrail =>
          split at h
          · next hcomma =>
            obtain ⟨s₄,rfl⟩ := head_of_peek hcomma
            have hs₂ := gap_noQuote htrail (noQuote_cons (by decide) s₄)
            simp only [Lexer.octet_cons] at h
            split at h
            · cases h
            · next x r' hrest =>
              cases h
              obtain ⟨hcv,hcs⟩ := closed_append.mp hc
              obtain ⟨hscan,happend⟩ := gap_comments htrail
              have hcomma : gapComments false [0x2C] = [] := rfl
              rw [hv hvalue hs₂ hcv,hscan,retained_octet (by decide),hi hrest hcs,itemsComments,happend,hcomma]
              simp only [List.append_assoc,List.append_nil]
          · cases h
            have hs₂ := gap_noQuote htrail (noQuote_cons (by decide) r)
            rw [hv hvalue hs₂ (closed_append.mp hc).1,(gap_comments htrail).1,retained_octet (by decide)]
            simp only [itemsComments,gapComments,List.append_assoc,List.append_nil,List.nil_append]

theorem key_scan {s r : Bytes} {k : Key} (hr : NoQuote r) (h : Syntax.key s = some (k,r)) :
    retained 0 .plain s = retained 0 .plain r := by
  simp only [Syntax.key,Lexer.bind_apply,Lexer.withText] at h
  cases hk : dottedKey readerFuel s with
  | none => rw [hk] at h; cases h
  | some x =>
    rw [hk] at h
    cases h
    exact dottedKey_scan hr hk

theorem equals_scan {s a r : Bytes} (h : Syntax.equals s = some (a,r)) :
    NoQuote s ∧ retained 0 .plain s = retained 0 .plain r := by
  simp only [Syntax.equals,Lexer.bind_apply] at h
  split at h
  · cases h
  · next sign s₁ hsign =>
    obtain ⟨rfl,-⟩ := Lexer.octet_some hsign
    refine ⟨noQuote_cons (by decide) s₁,?_⟩
    rw [retained_octet (by decide)]
    split at h
    · cases h
    · next blanks r' hblanks =>
      cases h
      exact (run_scan (fun _ => isBlank_plain) hblanks).2

theorem scansMembers_succ {fuel : ℕ} (hv : ScansValue fuel) (hm : ScansMembers fuel) :
    ScansMembers (fuel + 1) := by
  intro lead s ms r h hc
  simp only [Syntax.members,Lexer.bind_apply,Lexer.look_apply,Lexer.ite_apply] at h
  split at h
  · cases h
  · next k s₁ hkey =>
    split at h
    · cases h
    · next eq s₂ hequals =>
      obtain ⟨hs₁,hequals⟩ := equals_scan hequals
      rw [key_scan hs₁ hkey,hequals]
      split at h
      · cases h
      · next v s₃ hvalue =>
        split at h
        · cases h
        · next trail s₄ htrail =>
          split at h
          · next hcomma =>
            obtain ⟨s₅,rfl⟩ := head_of_peek hcomma
            obtain ⟨hs₃,htrail⟩ := blanks_scan (noQuote_cons (by decide) s₅) htrail
            simp only [Lexer.octet_cons] at h
            split at h
            · cases h
            · next lead' s₆ hlead =>
              split at h
              · cases h
              · next rest r' hrest =>
                cases h
                obtain ⟨hcv,hcs⟩ := closed_append.mp hc
                rw [hv hvalue hs₃ hcv,htrail,retained_octet (by decide),
                  (run_scan (fun _ => isBlank_plain) hlead).2,hm hrest hcs,membersComments,List.append_assoc]
          · cases h
            obtain ⟨hs₃,htrail⟩ := blanks_scan (noQuote_cons (by decide) r) htrail
            rw [hv hvalue hs₃ (closed_append.mp hc).1,htrail,retained_octet (by decide)]
            simp only [membersComments,List.append_nil]

theorem scansValue_succ {fuel : ℕ} (hi : ScansItems fuel) (hm : ScansMembers fuel) :
    ScansValue (fuel + 1) := by
  intro s v r h hr hc
  simp only [Syntax.value,Lexer.bind_apply,Lexer.look_apply,Lexer.ite_apply] at h
  split at h
  · next hopen =>
    obtain ⟨s,rfl⟩ := head_of_peek hopen
    simp only [Lexer.octet_cons] at h
    split at h
    · cases h
    · next x s₁ hitems =>
      split at h
      · cases h
      · next close s₂ hclose =>
        obtain ⟨rfl,-⟩ := Lexer.octet_some hclose
        cases h
        rw [retained_octet (by decide),hi hitems hc,comments,List.append_assoc]
  · split at h
    · next hopen =>
      obtain ⟨s,rfl⟩ := head_of_peek hopen
      simp only [Lexer.octet_cons] at h
      split at h
      · cases h
      · next blanks s₁ hblanks =>
        rw [retained_octet (by decide),(run_scan (fun _ => isBlank_plain) hblanks).2]
        split at h
        · next hclose =>
          obtain ⟨s₂,rfl⟩ := head_of_peek hclose
          simp only [Lexer.octet_cons] at h
          cases h
          exact retained_octet (by decide) r
        · split at h
          · cases h
          · next ms s₂ hmembers =>
            split at h
            · cases h
            · next close s₃ hclose =>
              obtain ⟨rfl,-⟩ := Lexer.octet_some hclose
              cases h
              exact hm hmembers hc
    · split at h
      · cases h
      · next x s₁ hscalar =>
        cases h
        obtain ⟨y,hy,hx⟩ := Option.map_eq_some_iff.mp hscalar
        obtain ⟨b,r'⟩ := y
        cases hx
        obtain ⟨t,rfl,hscan⟩ := scalar_scan hr hy
        refine hscan (hc t ?_)
        rw [scalarTexts,consumed_append]
        exact List.mem_singleton_self t

theorem scans (fuel : ℕ) : ScansValue fuel ∧ ScansItems fuel ∧ ScansMembers fuel := by
  induction fuel with
  | zero =>
    refine ⟨?_,?_,?_⟩
    · intro s v r h
      cases h
    · intro s elements close r h
      cases h
    · intro lead s ms r h
      cases h
  | succ fuel ih =>
    exact ⟨scansValue_succ ih.2.1 ih.2.2,scansItems_succ ih.1 ih.2.1,scansMembers_succ ih.1 ih.2.2⟩

/-- Where no multi-line string ends in one quote, exactly the comments are kept. -/
theorem retainedComments_exact {fuel : ℕ} {s : Bytes} {v : Value} (h : Syntax.value fuel s = some (v,[]))
    (hc : ∀ t ∈ scalarTexts v, ¬ EndsInQuote t) : retainedComments s = comments v := by
  have hs := (scans fuel).1 h (fun c hn => by cases hn) hc
  rwa [show retained 0 .plain [] = [] from rfl,List.append_nil] at hs

/-- `["""#a""",'#', #"` and a closing bracket on its own line. -/
def textArray : Bytes :=
  [0x5B,0x22,0x22,0x22,0x23,0x61,0x22,0x22,0x22,0x2C,0x27,0x23,0x27,0x2C,0x20,0x23,0x22,0x0A,0x5D]

theorem retainedComments_array : retainedComments textArray = [0x23,0x22,0x0A] := by
  let v : Value := .array [⟨[],.scalar [0x22,0x22,0x22,0x23,0x61,0x22,0x22,0x22] (.string [0x23,0x61]),[0x2C]⟩,
    ⟨[],.scalar [0x27,0x23,0x27] (.string [0x23]),[0x2C]⟩] [0x20,0x23,0x22,0x0A]
  refine @retainedComments_exact 4 textArray v rfl ?_
  intro t ht
  rcases List.mem_pair.mp ht with rfl | rfl
  · rintro ⟨q,r,-,he,hclose⟩
    cases he
    exact absurd hclose (by decide)
  · rintro ⟨q,r,-,he,-⟩
    cases he

/-- `["""a"""", # c` and a closing bracket on its own line. -/
def quotedArray : Bytes :=
  [0x5B,0x22,0x22,0x22,0x61,0x22,0x22,0x22,0x22,0x2C,0x20,0x23,0x20,0x63,0x0A,0x5D]

theorem retainedComments_loses : ¬ ∀ (fuel : ℕ) (s : Bytes) (v : Value),
    Syntax.value fuel s = some (v,[]) → retainedComments s = comments v := by
  intro h
  let v : Value := .array [⟨[],.scalar [0x22,0x22,0x22,0x61,0x22,0x22,0x22,0x22] (.string [0x61,0x22]),[0x2C]⟩]
    [0x20,0x23,0x20,0x63,0x0A]
  have hr := h 3 quotedArray v rfl
  revert hr
  decide +kernel

end

end Document
end HolonightConfig
