import HolonightConfig.Text.Bytes

/-! Lexers as finite-control transducers over octets. A transducer decides on each
octet, or on the end of the text, whether to go on, to stop behind it or to stop
before it; what it read therefore depends on the text behind only through the first
octet of that text. -/
namespace Text

inductive Action (σ : Type)
  | fail
  | next (out : Bytes) (state : σ)
  | stop (out : Bytes)
  | before (out : Bytes)

def Action.prepend {σ : Type} (out : Bytes) : Action σ → Action σ
  | .fail => .fail
  | .next o q => .next (out ++ o) q
  | .stop o => .stop (out ++ o)
  | .before o => .before (out ++ o)

/-- The control of a transducer; `none` is the end of the text. -/
abbrev Transducer (σ : Type) := σ → Option UInt8 → Action σ

namespace Transducer
variable {σ : Type} (T : Transducer σ)

/-- The output of a run and the text it leaves. -/
def read : σ → Bytes → Option (Bytes × Bytes)
  | q,[] =>
    match T q none with
    | .before out => some (out,[])
    | _ => none
  | q,c :: r =>
    match T q (some c) with
    | .fail => none
    | .next out q' => (read q' r).map (fun x => (out ++ x.1,x.2))
    | .stop out => some (out,r)
    | .before out => some (out,c :: r)

/-- Where it stops before the end of a line, it would stop before the end of the
text and before either octet of a line break. -/
def Blind : Prop :=
  ∀ q out, (T q none = .before out ∨ T q (some lineFeed) = .before out ∨
      T q (some carriageReturn) = .before out) →
    T q none = .before out ∧ T q (some lineFeed) = .before out ∧
      T q (some carriageReturn) = .before out

theorem read_before {q : σ} {out r : Bytes} (h : T q r.head? = .before out) :
    T.read q r = some (out,r) := by
  cases r with
  | nil => simp only [List.head?_nil] at h; simp [read,h]
  | cons c r => simp only [List.head?_cons] at h; simp [read,h]

theorem Blind.before {T : Transducer σ} (hT : T.Blind) {q : σ} {out r r' : Bytes}
    (h : T q r.head? = .before out) (hr : SameStart r r') : T q r'.head? = .before out := by
  rcases hr.head with he | ⟨hl,hl'⟩
  · rwa [← he]
  · have ha : T q none = .before out ∨ T q (some lineFeed) = .before out ∨
        T q (some carriageReturn) = .before out := by
      rcases hl with rfl | hl | hl
      · exact .inl h
      · exact .inr (.inl (hl ▸ h))
      · exact .inr (.inr (hl ▸ h))
    obtain ⟨h₀,h₁,h₂⟩ := hT q out ha
    rcases hl' with rfl | hl' | hl'
    · exact h₀
    · rwa [hl']
    · rwa [hl']

theorem read_suffix {q : σ} {s o r : Bytes} (h : T.read q s = some (o,r)) : ∃ t, s = t ++ r := by
  induction s generalizing q o with
  | nil =>
    rw [read] at h
    split at h
    · cases h; exact ⟨[],rfl⟩
    · cases h
  | cons c s ih =>
    rw [read] at h
    split at h
    · cases h
    · obtain ⟨⟨o',r'⟩,hs,he⟩ := Option.map_eq_some_iff.mp h
      cases he
      obtain ⟨t,rfl⟩ := ih hs
      exact ⟨c :: t,rfl⟩
    · cases h; exact ⟨[c],rfl⟩
    · cases h; exact ⟨[],rfl⟩

/-- A run splits its text, and repeats on any text that starts alike behind what it
consumed. -/
theorem read_local (hT : T.Blind) {q : σ} {s o r : Bytes} (h : T.read q s = some (o,r)) :
    ∃ t, s = t ++ r ∧ ∀ r', SameStart r r' → T.read q (t ++ r') = some (o,r') := by
  induction s generalizing q o with
  | nil =>
    simp only [read] at h
    split at h
    · next out hq =>
      cases h
      exact ⟨[],rfl,fun r' hr => T.read_before (hT.before (r := []) hq hr)⟩
    · cases h
  | cons c s ih =>
    simp only [read] at h
    split at h
    · cases h
    · next out q' hq =>
      obtain ⟨⟨o',r₁⟩,hs,he⟩ := Option.map_eq_some_iff.mp h
      cases he
      obtain ⟨t,rfl,ht⟩ := ih hs
      refine ⟨c :: t,rfl,?_⟩
      intro r' hr
      simp [read,hq,ht r' hr]
    · next out hq =>
      cases h
      exact ⟨[c],rfl,fun r' _ => by simp [read,hq]⟩
    · next out hq =>
      cases h
      exact ⟨[],rfl,fun r' hr => T.read_before (hT.before (r := c :: s) hq hr)⟩

/-- A transducer that emits exactly what it consumes. -/
def Copying : Prop :=
  (∀ q c, match T q (some c) with
    | .fail => True
    | .next out _ => out = [c]
    | .stop out => out = [c]
    | .before out => out = []) ∧
  ∀ q, match T q none with
    | .before out => out = []
    | _ => True

theorem read_copying (hT : T.Copying) {q : σ} {s o r : Bytes} (h : T.read q s = some (o,r)) :
    s = o ++ r := by
  induction s generalizing q o with
  | nil =>
    have hq := hT.2 q
    simp only [read] at h
    split at h
    · next out he => rw [he] at hq; cases h; simp [show o = [] from hq]
    · cases h
  | cons c s ih =>
    have hq := hT.1 q c
    simp only [read] at h
    split at h
    · cases h
    · next out q' he =>
      rw [he] at hq
      obtain ⟨⟨o',r₁⟩,hs,heq⟩ := Option.map_eq_some_iff.mp h
      cases heq
      simp [show out = [c] from hq,ih hs]
    · next out he => rw [he] at hq; cases h; simp [show o = [c] from hq]
    · next out he => rw [he] at hq; cases h; simp [show o = [] from hq]

end Transducer
end Text
