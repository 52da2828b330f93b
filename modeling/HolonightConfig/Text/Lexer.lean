import HolonightConfig.Text.Transducer

/-! Lexers as partial readers of a prefix. `Reads` says what a lexer consumed, and
that it would have read the same in front of any text that begins like the one it left. -/
namespace Text

def Lexer (α : Type) := Bytes → Option (α × Bytes)

namespace Lexer
variable {α β : Type}

instance : Monad Lexer where
  pure a := fun s => some (a,s)
  bind L k := fun s => match L s with
    | none => none
    | some (a,r) => k a r

def fail : Lexer α := fun _ => none

/-- The octets ahead, not consumed. -/
def look : Lexer Bytes := fun s => some (peek s,s)

def octet (c : UInt8) : Lexer Bytes
  | [] => none
  | d :: r => if d = c then some ([c],r) else none

/-- The longest run of a class of octets. -/
def run (p : UInt8 → Bool) : Lexer Bytes := fun s => some (s.takeWhile p,s.dropWhile p)

def token {σ : Type} (T : Transducer σ) (q : σ) : Lexer Bytes := T.read q

def ofOption : Option α → Lexer α
  | some a => pure a
  | none => fail

/-- Keep the text a lexer consumed beside what it returns. -/
def withText (L : Lexer α) : Lexer (Bytes × α) := fun s =>
  (L s).map (fun x => ((consumed s x.2,x.1),x.2))

theorem pure_apply (a : α) (s : Bytes) : (pure a : Lexer α) s = some (a,s) := rfl

theorem bind_apply (L : Lexer α) (k : α → Lexer β) (s : Bytes) :
    (L >>= k) s = match L s with
      | none => none
      | some (a,r) => k a r := rfl

theorem ite_apply (p : Prop) [Decidable p] (L M : Lexer α) (s : Bytes) :
    (if p then L else M) s = if p then L s else M s := by split <;> rfl

theorem bind_of_some {L : Lexer α} {k : α → Lexer β} {s r : Bytes} {a : α} (h : L s = some (a,r)) :
    (L >>= k) s = k a r := by rw [bind_apply,h]

@[simp] theorem look_apply (s : Bytes) : look s = some (peek s,s) := rfl

@[simp] theorem octet_cons (c : UInt8) (r : Bytes) : octet c (c :: r) = some ([c],r) := by
  simp [octet]

theorem octet_some {c : UInt8} {s a r : Bytes} (h : octet c s = some (a,r)) : s = c :: r ∧ a = [c] := by
  cases s with
  | nil => cases h
  | cons d s =>
    rw [octet] at h
    split at h
    · next hd => cases h; exact ⟨by rw [hd],rfl⟩
    · cases h

theorem run_stop {p : UInt8 → Bool} {t r : Bytes} (ht : ∀ c ∈ t, p c = true)
    (hr : ∀ c, r.head? = some c → p c = false) : run p (t ++ r) = some (t,r) := by
  obtain ⟨h₁,h₂⟩ := takeWhile_append_stop p ht hr
  simp [run,h₁,h₂]

theorem run_none {p : UInt8 → Bool} {r : Bytes} (hr : ∀ c, r.head? = some c → p c = false) :
    run p r = some ([],r) := run_stop (t := []) (by simp) hr

theorem withText_of_some {L : Lexer α} {t r : Bytes} {a : α} (h : L (t ++ r) = some (a,r)) :
    L.withText (t ++ r) = some ((t,a),r) := by simp [withText,h]

theorem withText_of_none {L : Lexer α} {s : Bytes} (h : L s = none) : L.withText s = none := by
  simp [withText,h]

/-- A lexer whose successes consume a text related to their result, whatever follows. -/
def Reads (L : Lexer α) (R : Bytes → α → Prop) : Prop :=
  ∀ ⦃s a r⦄, L s = some (a,r) →
    ∃ t, s = t ++ r ∧ R t a ∧ ∀ r', SameStart r r' → L (t ++ r') = some (a,r')

namespace Reads
variable {L : Lexer α} {R : Bytes → α → Prop}

theorem mono (h : L.Reads R) {Q : Bytes → α → Prop} (hQ : ∀ t a, R t a → Q t a) : L.Reads Q := by
  intro s a r hs
  obtain ⟨t,rfl,ht,hr⟩ := h hs
  exact ⟨t,rfl,hQ t a ht,hr⟩

theorem fail : (fail : Lexer α).Reads R := by
  intro s a r h
  cases h

theorem pure (a : α) : (Pure.pure a : Lexer α).Reads (fun t b => t = [] ∧ b = a) := by
  intro s b r h
  cases h
  exact ⟨[],rfl,⟨rfl,rfl⟩,fun r' _ => rfl⟩

theorem bind (h : L.Reads R) {k : α → Lexer β} {Q : α → Bytes → β → Prop}
    (hk : ∀ a, (k a).Reads (Q a)) :
    (L >>= k).Reads (fun t b => ∃ t₁ t₂ a, t = t₁ ++ t₂ ∧ R t₁ a ∧ Q a t₂ b) := by
  intro s b r hs
  rw [bind_apply] at hs
  split at hs
  · cases hs
  · next a r₁ ha =>
    obtain ⟨t₁,rfl,hR,h₁⟩ := h ha
    obtain ⟨t₂,rfl,hQ,h₂⟩ := hk a hs
    refine ⟨t₁ ++ t₂,by simp,⟨t₁,t₂,a,rfl,hR,hQ⟩,?_⟩
    intro r' hr
    rw [List.append_assoc,bind_of_some (h₁ (t₂ ++ r') (hr.append t₂))]
    exact h₂ r' hr

theorem look : Lexer.look.Reads (fun t _ => t = []) := by
  intro s a r h
  cases h
  refine ⟨[],rfl,rfl,?_⟩
  intro r' hr
  simp only [List.nil_append,Lexer.look]
  rw [hr]

theorem octet (c : UInt8) : (Lexer.octet c).Reads (fun t a => t = [c] ∧ a = [c]) := by
  intro s a r h
  cases s with
  | nil => cases h
  | cons d s =>
    simp only [Lexer.octet] at h
    split at h
    · next hd =>
      cases h
      exact ⟨[c],by simp [hd],⟨rfl,rfl⟩,fun r' _ => by simp [Lexer.octet]⟩
    · cases h

theorem run (p : UInt8 → Bool) (hp : p lineFeed = false ∧ p carriageReturn = false) :
    (Lexer.run p).Reads (fun t a => t = a ∧ ∀ c ∈ a, p c = true) := by
  intro s a r h
  cases h
  refine ⟨s.takeWhile p,(List.takeWhile_append_dropWhile).symm,
    ⟨rfl,fun c hc => List.mem_takeWhile_imp hc⟩,?_⟩
  intro r' hr
  obtain ⟨h₁,h₂⟩ := run_local p hp hr
  simp [Lexer.run,h₁,h₂]

theorem token {σ : Type} {T : Transducer σ} (hT : T.Blind) (q : σ) :
    (Lexer.token T q).Reads (fun _ _ => True) := by
  intro s a r h
  obtain ⟨t,rfl,ht⟩ := T.read_local hT h
  exact ⟨t,rfl,trivial,ht⟩

theorem token_copying {σ : Type} {T : Transducer σ} (hT : T.Blind) (hc : T.Copying) (q : σ) :
    (Lexer.token T q).Reads (fun t a => t = a) := by
  intro s a r h
  obtain ⟨t,rfl,ht⟩ := T.read_local hT h
  exact ⟨t,rfl,List.append_cancel_right (T.read_copying hc h),ht⟩

theorem ofOption (o : Option α) : (Lexer.ofOption o).Reads (fun t a => t = [] ∧ o = some a) := by
  cases o with
  | none => exact fail
  | some b => exact (pure b).mono (by rintro t a ⟨rfl,rfl⟩; exact ⟨rfl,rfl⟩)

theorem withText (h : L.Reads R) : L.withText.Reads (fun t a => a.1 = t ∧ R t a.2) := by
  intro s a r hs
  obtain ⟨⟨b,r₁⟩,hb,he⟩ := Option.map_eq_some_iff.mp hs
  cases he
  obtain ⟨t,rfl,hR,ht⟩ := h hb
  refine ⟨t,rfl,⟨by simp,hR⟩,?_⟩
  intro r' hr
  simp [Lexer.withText,ht r' hr]

end Reads
end Lexer
end Text
