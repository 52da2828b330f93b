import HolonightConfig.Toml.Expression

/-! What the reader of a value consumes is the text of the value, and it reads the same
value there whichever text stands behind. -/
namespace Text

/-- Only the first octet decides what is seen of it. -/
theorem peek_cons_head (c : UInt8) (r r' : Bytes) : (peek (c :: r)).head? = (peek (c :: r')).head? := by
  simp only [peek]
  split
  · rfl
  · split <;> rfl

namespace Transducer
variable {σ : Type} {T : Transducer σ}

/-- Where it stops before an octet, it would stop before the end of the text. -/
def Closing (T : Transducer σ) : Prop := ∀ q c out, T q (some c) = .before out → T q none = .before out

/-- A run repeats on what it consumed alone. -/
theorem read_alone (hT : T.Closing) {q : σ} {s o r : Bytes} (h : T.read q s = some (o,r)) :
    ∃ t, s = t ++ r ∧ T.read q t = some (o,[]) := by
  induction s generalizing q o with
  | nil =>
    have hr := h
    simp only [read] at h
    split at h
    · cases h; exact ⟨[],rfl,hr⟩
    · cases h
  | cons c s ih =>
    simp only [read] at h
    split at h
    · cases h
    · next out q' hq =>
      obtain ⟨⟨o',r₁⟩,hs,he⟩ := Option.map_eq_some_iff.mp h
      cases he
      obtain ⟨t,rfl,ht⟩ := ih hs
      exact ⟨c :: t,rfl,by simp [read,hq,ht]⟩
    · next out hq =>
      cases h
      exact ⟨[c],rfl,by simp [read,hq]⟩
    · next out hq =>
      cases h
      exact ⟨[],rfl,by simp [read,hT q c o hq]⟩

/-- The last octet of a run that takes a whole text stops it, or leads to where the run
may stop. -/
theorem read_last {q : σ} {t o : Bytes} (h : T.read q t = some (o,[])) :
    (t = [] ∧ ∃ out, T q none = .before out) ∨ ∃ t' c q', t = t' ++ [c] ∧
      ((∃ out, T q' (some c) = .stop out) ∨
        ∃ out q'' out', T q' (some c) = .next out q'' ∧ T q'' none = .before out') := by
  induction t generalizing q o with
  | nil =>
    simp only [read] at h
    split at h
    · next out hq => exact .inl ⟨rfl,out,hq⟩
    · cases h
  | cons c t ih =>
    right
    simp only [read] at h
    split at h
    · cases h
    · next out q' hq =>
      obtain ⟨⟨o',r₁⟩,hs,he⟩ := Option.map_eq_some_iff.mp h
      cases he
      rcases ih hs with ⟨rfl,out',hn⟩ | ⟨t',d,q₂,rfl,hd⟩
      · exact ⟨[],c,q,rfl,.inr ⟨out,q',out',hq,hn⟩⟩
      · exact ⟨c :: t',d,q₂,rfl,hd⟩
    · next out hq => exact ⟨[],c,q,by simpa using (Prod.ext_iff.mp (Option.some.inj h)).2,.inl ⟨out,hq⟩⟩
    · cases h

end Transducer

namespace Lexer
variable {α β : Type}

/-- Whatever one lexer reads the other one reads. -/
def Below (L M : Lexer α) : Prop := ∀ ⦃s x⦄, L s = some x → M s = some x

namespace Below
variable {L M : Lexer α}

theorem refl (L : Lexer α) : L.Below L := fun _ _ h => h

theorem bind {k j : α → Lexer β} (h : L.Below M) (hk : ∀ a, (k a).Below (j a)) :
    (L >>= k).Below (M >>= j) := by
  intro s x hx
  rw [bind_apply] at hx
  split at hx
  · cases hx
  · next a r ha =>
    rw [bind_of_some (h ha)]
    exact hk a hx

theorem ite {p : Prop} [Decidable p] {L' M' : Lexer α} (h : L.Below M) (h' : L'.Below M') :
    (if p then L else L').Below (if p then M else M') := by
  split
  · exact h
  · exact h'

end Below

theorem Reads.ite {p : Prop} [Decidable p] {L M : Lexer α} {R : Bytes → α → Prop} (h : p → L.Reads R)
    (h' : ¬ p → M.Reads R) : (if p then L else M).Reads R := by
  split
  · next hp => exact h hp
  · next hp => exact h' hp

theorem Reads.any {L : Lexer α} {R : Bytes → α → Prop} (h : L.Reads R) :
    L.Reads (fun _ _ => True) := h.mono (fun _ _ _ => trivial)

theorem Reads.seq {L : Lexer α} {k : α → Lexer β} {R : Bytes → α → Prop} (h : L.Reads R)
    (hk : ∀ a, (k a).Reads (fun _ _ => True)) : (L >>= k).Reads (fun _ _ => True) := (h.bind hk).any

/-- A lexer that reads the same from what it consumed alone. -/
def Alone (L : Lexer α) : Prop := ∀ ⦃s a r⦄, L s = some (a,r) → ∃ t, s = t ++ r ∧ L t = some (a,[])

theorem ofOption_some {o : Option α} {s r : Bytes} {a : α} (h : ofOption o s = some (a,r)) :
    s = r ∧ ∀ s', ofOption o s' = some (a,s') := by
  cases o with
  | none => cases h
  | some b => cases h; exact ⟨rfl,fun _ => rfl⟩

end Lexer
end Text

namespace Toml
namespace Syntax
open Text Lexical

/-! ### Fuel -/

theorem below_succ (fuel : ℕ) : (value fuel).Below (value (fuel + 1)) ∧
    (items fuel).Below (items (fuel + 1)) ∧
    ∀ lead, (members lead fuel).Below (members lead (fuel + 1)) := by
  induction fuel with
  | zero =>
    refine ⟨?_,?_,fun lead => ?_⟩ <;> intro s x h
    · rw [value] at h; cases h
    · rw [items] at h; cases h
    · rw [members] at h; cases h
  | succ fuel ih =>
    obtain ⟨hv,hi,hm⟩ := ih
    refine ⟨?_,?_,fun lead => ?_⟩
    · rw [value,value]
      refine .bind (.refl _) fun ahead => .ite (.bind (.refl _) fun _ => .bind hi fun x => ?_)
        (.ite (.bind (.refl _) fun _ => .bind (.refl _) fun close => .bind (.refl _) fun ahead' =>
          .ite (.refl _) (.bind (hm close) fun ms => .refl _)) (.refl _))
      exact .refl _
    · rw [items,items]
      refine .bind (.refl _) fun lead => .bind (.refl _) fun ahead => .ite (.refl _)
        (.bind hv fun v => .bind (.refl _) fun trail => .bind (.refl _) fun ahead' =>
          .ite (.bind (.refl _) fun comma => .bind hi fun x => .refl _) (.refl _))
    · rw [members,members]
      refine .bind (.refl _) fun k => .bind (.refl _) fun eq => .bind hv fun v =>
        .bind (.refl _) fun trail => .bind (.refl _) fun ahead => .ite (.bind (.refl _) fun comma =>
          .bind (.refl _) fun lead' => .bind (hm lead') fun rest => .refl _) (.refl _)

/-- What is read with some fuel is read with more. -/
theorem value_below {fuel fuel' : ℕ} (h : fuel ≤ fuel') : (value fuel).Below (value fuel') := by
  induction h with
  | refl => exact .refl _
  | step _ ih => exact fun s x hx => (below_succ _).1 (ih hx)

/-! ### Tokens -/

theorem plainStep_ne_before (quote : UInt8) (multiline : Bool) (c : UInt8) (out : Bytes) :
    plainStep quote multiline c ≠ .before out := by
  unfold plainStep
  split_ifs <;> simp

theorem trimStep_ne_before (c : UInt8) (out : Bytes) : (trimStep c).getD .fail ≠ .before out := by
  unfold trimStep
  split_ifs <;> simp

/-- A string token stops before an octet only behind its closing quotes. -/
theorem stringStep_before {quote : UInt8} {multiline : Bool} {st : StringState} {o : Option UInt8}
    {out : Bytes} (h : stringStep quote multiline st o = .before out) :
    ∃ n, st = .quotes n ∧ 2 < n ∧ out = [] := by
  cases o with
  | none =>
    cases st with
    | quotes n =>
      simp only [stringStep] at h
      split_ifs at h with hn
      · cases h; exact ⟨n,rfl,by omega,rfl⟩
    | _ => cases h
  | some c =>
    cases st with
    | quotes n =>
      simp only [stringStep] at h
      split_ifs at h with hn
      · cases hp : plainStep quote multiline c with
        | before o => exact absurd hp (plainStep_ne_before quote multiline c o)
        | _ => rw [hp] at h; cases h
      · cases h; exact ⟨n,rfl,by omega,rfl⟩
    | first =>
      simp only [stringStep] at h
      split_ifs at h
      exact absurd h (plainStep_ne_before quote multiline c out)
    | plain => exact absurd h (plainStep_ne_before quote multiline c out)
    | escape =>
      simp only [stringStep] at h
      split at h
      · cases h
      · split_ifs at h
        exact absurd h (trimStep_ne_before c out)
    | hex more value =>
      simp only [stringStep] at h
      split at h
      · cases h
      · split at h
        · split at h <;> cases h
        · cases h
    | trimBlank => exact absurd h (trimStep_ne_before c out)
    | trim =>
      simp only [stringStep] at h
      split_ifs at h
      exact absurd h (plainStep_ne_before quote multiline c out)
    | _ =>
      simp only [stringStep] at h
      split_ifs at h

theorem isQuote_ne {quote : UInt8} (hq : isQuote quote = true) :
    quote ≠ lineFeed ∧ quote ≠ carriageReturn := by
  simp only [isQuote,Bool.or_eq_true,beq_iff_eq] at hq
  rcases hq with rfl | rfl <;> decide

theorem stringStep_closed {quote : UInt8} {multiline : Bool} {n : ℕ} (hn : 2 < n) {o : Option UInt8}
    (ho : o ≠ some quote) : stringStep quote multiline (.quotes n) o = .before [] := by
  cases o with
  | none => simp [stringStep,show ¬ n ≤ 2 by omega]
  | some c =>
    have hc : c ≠ quote := fun h => ho (by rw [h])
    simp [stringStep,show ¬ n ≤ 2 by omega,hc]

theorem blind_stringStep {quote : UInt8} (hq : isQuote quote = true) (multiline : Bool) :
    (stringStep quote multiline).Blind := by
  obtain ⟨hl,hc⟩ := isQuote_ne hq
  intro st out h
  obtain ⟨n,rfl,hn,rfl⟩ : ∃ n, st = .quotes n ∧ 2 < n ∧ out = [] := by
    rcases h with h | h | h <;> exact stringStep_before h
  refine ⟨stringStep_closed hn (by simp),stringStep_closed hn (by simpa using hl.symm),
    stringStep_closed hn (by simpa using hc.symm)⟩

theorem gapStep_before {st : GapState} {o : Option UInt8} {out : Bytes} (h : gapStep st o = .before out) :
    st = .blank ∧ out = [] ∧ ∃ c, o = some c ∧ c ≠ lineFeed ∧ c ≠ carriageReturn := by
  cases o with
  | none => cases st <;> cases h
  | some c =>
    cases st with
    | blank =>
      simp only [gapStep] at h
      split_ifs at h with h₁ h₂ h₃
      · cases h; exact ⟨rfl,rfl,c,rfl,fun hl => h₁ (.inr hl),h₃⟩
    | _ =>
      simp only [gapStep] at h
      split_ifs at h

theorem blind_gapStep : gapStep.Blind := by
  intro st out h
  rcases h with h | h | h
  · obtain ⟨-,-,c,hc,-⟩ := gapStep_before h
    cases hc
  · obtain ⟨-,-,c,hc,hl,-⟩ := gapStep_before h
    cases hc
    exact absurd rfl hl
  · obtain ⟨-,-,c,hc,-,hr⟩ := gapStep_before h
    cases hc
    exact absurd rfl hr

theorem copying_gapStep : gapStep.Copying := by
  refine ⟨fun st c => ?_,fun st => by cases st <;> trivial⟩
  cases st <;> simp only [gapStep] <;> split_ifs <;> trivial

theorem copying_tailStep : tailStep.Copying := by
  refine ⟨fun st c => ?_,fun st => by cases st <;> trivial⟩
  cases st <;> simp only [tailStep] <;> split_ifs <;> trivial

theorem reads_gap : gap.Reads (fun t a => t = a) := .token_copying blind_gapStep copying_gapStep _

theorem reads_blanks : (Lexer.run isBlank).Reads (fun t a => t = a) :=
  (Lexer.Reads.run isBlank ⟨rfl,rfl⟩).mono (fun _ _ h => h.1)

theorem reads_singleLine {quote : UInt8} (hq : isQuote quote = true) :
    (singleLine quote).Reads (fun _ _ => True) := .token (blind_stringStep hq false) _

theorem reads_simpleKey : simpleKey.Reads (fun _ _ => True) := by
  refine .seq .look fun ahead => ?_
  split
  · refine .ite (fun hq => .seq (.octet _) fun _ => reads_singleLine hq)
      (fun _ => .ite (fun _ => (Lexer.Reads.run isBareKey ⟨rfl,rfl⟩).any) (fun _ => .fail))
  · exact .fail

theorem reads_dottedKey (fuel : ℕ) : (dottedKey fuel).Reads (fun _ _ => True) := by
  induction fuel with
  | zero => exact .fail
  | succ fuel ih =>
    rw [dottedKey]
    refine .seq reads_simpleKey fun k => .seq reads_blanks fun _ => .seq .look fun ahead => .ite
      (fun _ => .seq (.octet _) fun _ => .seq reads_blanks fun _ => .seq ih fun ks => (Lexer.Reads.pure _).any)
      (fun _ => (Lexer.Reads.pure _).any)

theorem reads_key : key.Reads (fun t k => t = k.text) := by
  refine ((reads_dottedKey readerFuel).withText.bind (fun x => .pure _)).mono ?_
  rintro t k ⟨t₁,t₂,x,rfl,⟨h,-⟩,rfl,rfl⟩
  simp [h]

theorem reads_equals : equals.Reads (fun t a => t = a) := by
  refine ((Lexer.Reads.octet _).bind fun sign => reads_blanks.bind fun blanks => .pure _).mono ?_
  rintro t a ⟨t₁,t₂,sign,rfl,⟨rfl,rfl⟩,t₃,t₄,blanks,rfl,rfl,rfl,rfl⟩
  simp

theorem reads_string {quote : UInt8} (hq : isQuote quote = true) : (string quote).Reads (fun _ _ => True) := by
  refine .seq .look fun second => .ite (fun _ => .seq (.octet _) fun _ => .seq .look fun third => .ite
    (fun _ => .seq (.octet _) fun _ => .token (blind_stringStep hq true) _)
    (fun _ => (Lexer.Reads.pure _).any)) (fun _ => reads_singleLine hq)

theorem reads_bare : bare.Reads (fun _ _ => True) := by
  have hrun : (Lexer.run isBareScalar).Reads (fun _ _ => True) :=
    (Lexer.Reads.run isBareScalar ⟨rfl,rfl⟩).any
  refine .seq hrun fun word => .seq .look fun ahead => .ite
    (fun _ => .seq (.octet _) fun _ => .seq hrun fun more => (Lexer.Reads.ofOption _).any)
    (fun _ => (Lexer.Reads.ofOption _).any)

theorem reads_scalar : scalar.Reads (fun _ _ => True) := by
  refine .seq .look fun ahead => ?_
  split
  · refine .ite (fun hq => .seq (.octet _) fun _ => .seq (reads_string hq) fun s =>
      (Lexer.Reads.pure _).any) (fun _ => reads_bare)
  · exact .fail

/-! ### Values -/

/-- Values, elements and members are read whatever stands behind them. -/
theorem reads (fuel : ℕ) : (value fuel).Reads (fun t v => t = v.text) ∧
    (items fuel).Reads (fun t x => t = Value.itemsText x.1 ++ x.2) ∧
    ∀ lead, (members lead fuel).Reads (fun t ms => lead ++ t = Value.membersText ms) := by
  induction fuel with
  | zero => exact ⟨.fail,.fail,fun _ => .fail⟩
  | succ fuel ih =>
    obtain ⟨hv,hi,hm⟩ := ih
    refine ⟨?_,?_,fun lead => ?_⟩
    · rw [value]
      refine (Lexer.Reads.look.bind (Q := fun _ t v => t = v.text) fun ahead => .ite (fun _ => ?_)
        (fun _ => .ite (fun _ => ?_) (fun _ => ?_))).mono ?_
      · refine ((Lexer.Reads.octet _).bind fun _ => hi.bind fun x => (Lexer.Reads.octet _).bind fun _ =>
          .pure _).mono ?_
        rintro t v ⟨t₁,t₂,a,rfl,⟨rfl,rfl⟩,t₃,t₄,⟨elements,close⟩,rfl,rfl,t₅,t₆,b,rfl,⟨rfl,rfl⟩,rfl,rfl⟩
        simp [Value.text]
      · refine ((Lexer.Reads.octet _).bind fun _ => reads_blanks.bind (Q := fun close t v =>
          0x7B :: (close ++ t) = v.text) fun close => (Lexer.Reads.look.bind (Q := fun _ t v =>
          0x7B :: (close ++ t) = v.text) fun ahead' => .ite (fun _ => ?_) (fun _ => ?_)).mono ?_).mono ?_
        · refine ((Lexer.Reads.octet _).bind fun _ => .pure _).mono ?_
          rintro t v ⟨t₁,t₂,a,rfl,⟨rfl,rfl⟩,rfl,rfl⟩
          simp [Value.text,Value.membersText]
        · refine ((hm close).bind fun ms => (Lexer.Reads.octet _).bind fun _ => .pure _).mono ?_
          rintro t v ⟨t₁,t₂,ms,rfl,h,t₃,t₄,a,rfl,⟨rfl,rfl⟩,rfl,rfl⟩
          simp [Value.text,← h]
        · rintro t v ⟨t₁,t₂,a,rfl,rfl,h⟩
          simpa using h
        · rintro t v ⟨t₁,t₂,a,rfl,⟨rfl,rfl⟩,t₃,t₄,close,rfl,rfl,h⟩
          simpa using h
      · refine (reads_scalar.withText.bind fun x => .pure _).mono ?_
        rintro t v ⟨t₁,t₂,x,rfl,⟨h,-⟩,rfl,rfl⟩
        simp [Value.text,h]
      · rintro t v ⟨t₁,t₂,a,rfl,rfl,h⟩
        simpa using h
    · rw [items]
      refine (reads_gap.bind (Q := fun lead t x => lead ++ t = Value.itemsText x.1 ++ x.2) fun lead =>
        (Lexer.Reads.look.bind (Q := fun _ t x => lead ++ t = Value.itemsText x.1 ++ x.2) fun ahead =>
        .ite (fun _ => ?_) (fun _ => ?_)).mono ?_).mono ?_
      · refine (Lexer.Reads.pure _).mono ?_
        rintro t x ⟨rfl,rfl⟩
        simp [Value.itemsText]
      · refine (hv.bind fun v => reads_gap.bind (Q := fun trail t x =>
          lead ++ (v.text ++ (trail ++ t)) = Value.itemsText x.1 ++ x.2) fun trail =>
          (Lexer.Reads.look.bind (Q := fun _ t x =>
          lead ++ (v.text ++ (trail ++ t)) = Value.itemsText x.1 ++ x.2) fun ahead' =>
          .ite (fun _ => ?_) (fun _ => ?_)).mono ?_).mono ?_
        · refine ((Lexer.Reads.octet _).bind fun comma => hi.bind fun x => .pure _).mono ?_
          rintro t x ⟨t₁,t₂,a,rfl,⟨rfl,rfl⟩,t₃,t₄,⟨rest,close⟩,rfl,rfl,rfl,rfl⟩
          simp [Value.itemsText]
        · refine (Lexer.Reads.pure _).mono ?_
          rintro t x ⟨rfl,rfl⟩
          simp [Value.itemsText]
        · rintro t x ⟨t₁,t₂,a,rfl,rfl,h⟩
          simpa using h
        · rintro t x ⟨t₁,t₂,v,rfl,rfl,t₃,t₄,trail,rfl,rfl,h⟩
          exact h
      · rintro t x ⟨t₁,t₂,a,rfl,rfl,h⟩
        simpa using h
      · rintro t x ⟨t₁,t₂,lead,rfl,rfl,h⟩
        exact h
    · rw [members]
      refine (reads_key.bind fun k => reads_equals.bind fun eq => hv.bind fun v => reads_blanks.bind
        (Q := fun trail t ms =>
          lead ++ (k.text ++ (eq ++ (v.text ++ (trail ++ t)))) = Value.membersText ms) fun trail =>
        (Lexer.Reads.look.bind (Q := fun _ t ms =>
          lead ++ (k.text ++ (eq ++ (v.text ++ (trail ++ t)))) = Value.membersText ms) fun ahead =>
        .ite (fun _ => ?_) (fun _ => ?_)).mono ?_).mono ?_
      · refine ((Lexer.Reads.octet _).bind fun comma => reads_blanks.bind fun lead' =>
          (hm lead').bind fun rest => .pure _).mono ?_
        rintro t ms ⟨t₁,t₂,a,rfl,⟨rfl,rfl⟩,t₃,t₄,lead',rfl,rfl,t₅,t₆,rest,rfl,h,rfl,rfl⟩
        simp [Value.membersText,← h]
      · refine (Lexer.Reads.pure _).mono ?_
        rintro t ms ⟨rfl,rfl⟩
        simp [Value.membersText]
      · rintro t ms ⟨t₁,t₂,a,rfl,rfl,h⟩
        simpa using h
      · rintro t ms ⟨t₁,t₂,k,rfl,rfl,t₃,t₄,eq,rfl,rfl,t₅,t₆,v,rfl,rfl,t₇,t₈,trail,rfl,rfl,h⟩
        exact h

/-! ### Scalars alone -/

/-- Octets a value may begin or end with. -/
def isEdge (c : UInt8) : Bool :=
  isBareScalar c || isQuote c || c == 0x5B || c == 0x5D || c == 0x7B || c == 0x7D

def Edged (t : Bytes) : Prop :=
  (∃ c u, t = c :: u ∧ isEdge c = true) ∧ ∃ u c, t = u ++ [c] ∧ isEdge c = true

theorem isEdge_quote {q : UInt8} (hq : isQuote q = true) : isEdge q = true := by simp [isEdge,hq]

theorem closing_stringStep (quote : UInt8) (multiline : Bool) : (stringStep quote multiline).Closing := by
  intro st c out h
  obtain ⟨n,rfl,hn,rfl⟩ := stringStep_before h
  exact stringStep_closed hn (by simp)

/-- Ends the string, or counts towards the quotes that do. -/
def Quoting (a : Action StringState) : Prop := (∃ out, a = .stop out) ∨ ∃ out n, a = .next out (.quotes n)

theorem not_quoting_plainStep {quote : UInt8} {multiline : Bool} {c : UInt8} (hc : c ≠ quote) :
    ¬ Quoting (plainStep quote multiline c) := by
  unfold plainStep
  rw [if_neg hc]
  split_ifs <;> rintro (⟨out,h⟩ | ⟨out,n,h⟩) <;> cases h

theorem not_quoting_trimStep (c : UInt8) : ¬ Quoting ((trimStep c).getD .fail) := by
  unfold trimStep
  split_ifs <;> rintro (⟨out,h⟩ | ⟨out,n,h⟩) <;> cases h

theorem not_quoting_prepend {out : Bytes} {a : Action StringState} (h : ¬ Quoting a) :
    ¬ Quoting (a.prepend out) := by
  cases a with
  | fail => rintro (⟨o,h'⟩ | ⟨o,n,h'⟩) <;> cases h'
  | next o st =>
    rintro (⟨o',h'⟩ | ⟨o',n,h'⟩)
    · cases h'
    · cases h'; exact h (.inr ⟨o,n,rfl⟩)
  | stop o => exact absurd (.inl ⟨o,rfl⟩) h
  | before o => rintro (⟨o',h'⟩ | ⟨o',n,h'⟩) <;> cases h'

theorem not_quoting_fail : ¬ Quoting .fail := by
  rintro (⟨o,h⟩ | ⟨o,n,h⟩) <;> cases h

theorem not_quoting_before (out : Bytes) : ¬ Quoting (.before out) := by
  rintro (⟨o,h⟩ | ⟨o,n,h⟩) <;> cases h

theorem not_quoting_next {out : Bytes} {st : StringState} (h : ∀ n, st ≠ .quotes n) :
    ¬ Quoting (.next out st) := by
  rintro (⟨o,h'⟩ | ⟨o,n,h'⟩)
  · cases h'
  · cases h'; exact h n rfl

theorem quoting_stringStep {quote : UInt8} {multiline : Bool} {st : StringState} {c : UInt8}
    (h : Quoting (stringStep quote multiline st (some c))) : c = quote := by
  by_contra hc
  have hp : ¬ Quoting (plainStep quote multiline c) := not_quoting_plainStep hc
  revert h
  cases st with
  | quotes n =>
    simp only [stringStep,if_neg hc]
    split_ifs
    · exact not_quoting_prepend hp
    · exact not_quoting_before _
  | escape =>
    simp only [stringStep]
    split
    · exact not_quoting_next (by simp)
    · split_ifs
      · exact not_quoting_next (by simp)
      · exact not_quoting_next (by simp)
      · exact not_quoting_trimStep c
      · exact not_quoting_fail
  | hex more value =>
    simp only [stringStep]
    split
    · exact not_quoting_fail
    · split
      · split
        · exact not_quoting_next (by simp)
        · exact not_quoting_fail
      · exact not_quoting_next (by simp)
  | trimBlank => exact not_quoting_trimStep c
  | plain => exact hp
  | _ =>
    simp only [stringStep]
    split_ifs <;> first | exact hp | exact not_quoting_fail | exact not_quoting_next (by simp)

/-- A string token ends with a quote. -/
theorem token_last {quote : UInt8} {multiline : Bool} {st : StringState} (hst : ∀ n, st ≠ .quotes n)
    {t o : Bytes} (h : (stringStep quote multiline).read st t = some (o,[])) :
    ∃ u, t = u ++ [quote] := by
  rcases Transducer.read_last h with ⟨rfl,out,hn⟩ | ⟨t',c,st',rfl,hc⟩
  · obtain ⟨n,hn,-⟩ := stringStep_before hn
    exact absurd hn (hst n)
  · have hq : Quoting (stringStep quote multiline st' (some c)) := by
      rcases hc with ⟨out,hc⟩ | ⟨out,st'',out',hc,hn⟩
      · exact .inl ⟨out,hc⟩
      · obtain ⟨n,rfl,-⟩ := stringStep_before hn
        exact .inr ⟨out,n,hc⟩
    rw [quoting_stringStep hq]
    exact ⟨t',rfl⟩

theorem string_alone {quote : UInt8} (hq : isQuote quote = true) {s a r : Bytes}
    (h : string quote s = some (a,r)) :
    ∃ t, s = t ++ r ∧ string quote t = some (a,[]) ∧ ∃ u, t = u ++ [quote] := by
  have hhead : ∀ s, (peek (quote :: s)).head? = some quote := by
    intro s
    obtain ⟨hl,hc⟩ := isQuote_ne hq
    rw [peek_cons ⟨hl,hc,by rintro rfl; cases hq⟩ s,List.head?_cons]
  simp only [string,Lexer.bind_apply,Lexer.look_apply,Lexer.ite_apply] at h
  split at h
  · next h₂ =>
    obtain ⟨s,rfl⟩ := head_of_peek h₂
    simp only [Lexer.octet_cons] at h
    split at h
    · next h₃ =>
      obtain ⟨s,rfl⟩ := head_of_peek h₃
      simp only [Lexer.octet_cons] at h
      obtain ⟨t,rfl,ht⟩ := Transducer.read_alone (closing_stringStep quote true) h
      obtain ⟨u,hu⟩ := token_last (by simp) ht
      refine ⟨quote :: quote :: t,rfl,?_,quote :: quote :: u,by simp [hu]⟩
      simp only [string,Lexer.bind_apply,Lexer.look_apply]
      rw [Lexer.ite_apply,if_pos (hhead _)]
      simp only [Lexer.bind_apply,Lexer.octet_cons,Lexer.look_apply]
      rw [Lexer.ite_apply,if_pos (hhead _)]
      simp only [Lexer.bind_apply,Lexer.octet_cons]
      exact ht
    · cases h
      refine ⟨[quote],rfl,?_,[],rfl⟩
      simp only [string,Lexer.bind_apply,Lexer.look_apply]
      rw [Lexer.ite_apply,if_pos (hhead _)]
      simp only [Lexer.bind_apply,Lexer.octet_cons,Lexer.look_apply]
      rw [Lexer.ite_apply,if_neg (by simp [peek])]
      rfl
  · next h₂ =>
    obtain ⟨t,rfl,ht⟩ := Transducer.read_alone (closing_stringStep quote false) h
    obtain ⟨u,hu⟩ := token_last (by simp) ht
    refine ⟨t,rfl,?_,u,hu⟩
    have hh : (peek t).head? ≠ some quote := by
      cases t with
      | nil => simp [peek]
      | cons c t => rwa [peek_cons_head c t (t ++ r)]
    simp only [string,Lexer.bind_apply,Lexer.look_apply,Lexer.ite_apply,if_neg hh]
    exact ht

theorem bareValue_nil : bareValue [] = none := by decide +kernel

theorem peek_space (s : Bytes) : peek (0x20 :: s) = 0x20 :: (peek s).take 1 := by
  rw [peek,if_neg (by decide),if_pos rfl]

theorem isDigit_bare {d : UInt8} (h : isDigit d = true) : isBareScalar d = true := by
  simp [isBareScalar,isBareKey,h]

theorem isEdge_bare {t : Bytes} (hne : t ≠ []) (h : ∀ c ∈ t, isBareScalar c = true) :
    (∃ c u, t = c :: u ∧ isBareScalar c = true) ∧ ∃ u c, t = u ++ [c] ∧ isBareScalar c = true := by
  constructor
  · obtain ⟨c,u,rfl⟩ := List.exists_cons_of_ne_nil hne
    exact ⟨c,u,rfl,h c (by simp)⟩
  · refine ⟨t.dropLast,t.getLast hne,(List.dropLast_append_getLast hne).symm,h _ (List.getLast_mem hne)⟩

theorem run_self {p : UInt8 → Bool} {t : Bytes} (h : ∀ c ∈ t, p c = true) :
    Lexer.run p t = some (t,[]) := by
  have hs := Lexer.run_stop (r := []) h (by simp)
  rwa [List.append_nil] at hs

theorem bare_alone {s r : Bytes} {v : Scalar} (h : bare s = some (v,r)) :
    ∃ t, s = t ++ r ∧ bare t = some (v,[]) ∧ (∃ c u, t = c :: u ∧ isBareScalar c = true) ∧
      ∃ u c, t = u ++ [c] ∧ isBareScalar c = true := by
  have hrun : ∀ s, Lexer.run isBareScalar s = some (s.takeWhile isBareScalar,s.dropWhile isBareScalar) :=
    fun _ => rfl
  have hall : ∀ s : Bytes, ∀ c ∈ s.takeWhile isBareScalar, isBareScalar c = true :=
    fun s c hc => List.mem_takeWhile_imp hc
  have hs := (List.takeWhile_append_dropWhile (p := isBareScalar) (l := s)).symm
  simp only [bare,Lexer.bind_apply,Lexer.look_apply,Lexer.ite_apply,hrun s] at h
  generalize hw : s.takeWhile isBareScalar = word at h hs
  have hword : ∀ c ∈ word, isBareScalar c = true := hw ▸ hall s
  split at h
  · next hahead =>
    obtain ⟨s',hs'⟩ := head_of_peek hahead.2.1
    rw [hs'] at h hs hahead
    simp only [Lexer.octet_cons,hrun s'] at h
    obtain ⟨hr,ho⟩ := Lexer.ofOption_some h
    obtain ⟨hdate,-,hdigit,hsome⟩ := hahead
    rw [peek_space,List.tail_cons] at hdigit hsome
    -- the time starts with a digit, whatever stands behind it
    obtain ⟨d,s₂,rfl,hd⟩ : ∃ d s₂, s' = d :: s₂ ∧ isDigit d = true := by
      cases hp : peek s' with
      | nil => simp [hp] at hsome
      | cons d ds =>
        obtain ⟨s₂,rfl⟩ := head_of_peek (c := d) (by rw [hp]; rfl)
        exact ⟨d,s₂,rfl,by simpa [hp] using hdigit⟩
    have hmore : (d :: s₂).takeWhile isBareScalar = d :: s₂.takeWhile isBareScalar := by
      simp [isDigit_bare hd]
    have hsplit := (List.takeWhile_append_dropWhile (p := isBareScalar) (l := d :: s₂)).symm
    have hm := hall (d :: s₂)
    rw [hr] at hsplit
    generalize (d :: s₂).takeWhile isBareScalar = more at *
    refine ⟨word ++ 0x20 :: more,?_,?_,?_,?_⟩
    · rw [hs,hsplit]
      simp
    · have hcond : (date word).isSome = true ∧ (peek (0x20 :: more)).head? = some 0x20 ∧
          (peek (0x20 :: more)).tail.all isDigit = true ∧ (peek (0x20 :: more)).tail ≠ [] := by
        have hpd : peek more = [d] := by
          rw [hmore]
          exact peek_cons (isBareScalar_ne (isDigit_bare hd)).1 _
        rw [peek_space,hpd]
        exact ⟨hdate,rfl,by simp [hd],by simp⟩
      have hr₁ : Lexer.run isBareScalar (word ++ 0x20 :: more) = some (word,0x20 :: more) :=
        Lexer.run_stop hword (by intro e he; cases he; decide)
      simp only [bare,Lexer.bind_apply,Lexer.look_apply,Lexer.ite_apply,hr₁]
      rw [if_pos hcond]
      simp only [Lexer.octet_cons,run_self hm]
      exact ho []
    · cases word with
      | nil => simp [date] at hdate
      | cons c w => exact ⟨c,w ++ 0x20 :: more,rfl,hword c (by simp)⟩
    · obtain ⟨u,c,hu,hc⟩ := (isEdge_bare (t := more) (by rw [hmore]; simp) hm).2
      exact ⟨word ++ 0x20 :: u,c,by simp [hu],hc⟩
  · obtain ⟨hr,ho⟩ := Lexer.ofOption_some h
    have hne : word ≠ [] := by
      rintro rfl
      rw [bareValue_nil] at h
      cases h
    refine ⟨word,by rw [← hr,← hs],?_,isEdge_bare hne hword⟩
    simp only [bare,Lexer.bind_apply,Lexer.look_apply,Lexer.ite_apply,run_self hword]
    rw [if_neg (by simp [peek])]
    exact ho []

theorem scalar_alone {s r : Bytes} {v : Scalar} (h : scalar s = some (v,r)) :
    ∃ t, s = t ++ r ∧ scalar t = some (v,[]) ∧ Edged t := by
  simp only [scalar,Lexer.bind_apply,Lexer.look_apply] at h
  cases hc : (peek s).head? with
  | none => rw [hc] at h; cases h
  | some c =>
    obtain ⟨s,rfl⟩ := head_of_peek hc
    simp only [hc] at h
    rw [Lexer.ite_apply] at h
    split at h
    · next hq =>
      simp only [Lexer.bind_apply,Lexer.octet_cons] at h
      split at h
      · cases h
      · next a r' ha =>
        cases h
        obtain ⟨t,rfl,ht,u,hu⟩ := string_alone hq ha
        refine ⟨c :: t,rfl,?_,⟨c,t,rfl,isEdge_quote hq⟩,c :: u,c,by simp [hu],isEdge_quote hq⟩
        have hc' : (peek (c :: t)).head? = some c := by rw [← hc]; exact peek_cons_head c _ _
        simp only [scalar,Lexer.bind_apply,Lexer.look_apply,hc']
        rw [Lexer.ite_apply,if_pos hq]
        simp only [Lexer.bind_apply,Lexer.octet_cons,ht]
        rfl
    · next hq =>
      obtain ⟨t,hs,ht,⟨d,u,rfl,hd⟩,u',d',hu',hd'⟩ := bare_alone h
      obtain ⟨rfl,-⟩ : c = d ∧ s = u ++ r := by simpa using hs
      refine ⟨c :: u,hs,?_,⟨c,u,rfl,by simp [isEdge,hd]⟩,u',d',hu',by simp [isEdge,hd']⟩
      have hc' : (peek (c :: u)).head? = some c := by rw [← hc]; exact peek_cons_head c _ _
      simp only [scalar,Lexer.bind_apply,Lexer.look_apply,hc']
      rw [Lexer.ite_apply,if_neg hq]
      exact ht

theorem scalar_head {s r : Bytes} {v : Scalar} (h : scalar s = some (v,r)) :
    ∃ c u, s = c :: u ∧ (isQuote c = true ∨ isBareScalar c = true) := by
  simp only [scalar,Lexer.bind_apply,Lexer.look_apply] at h
  cases hc : (peek s).head? with
  | none => rw [hc] at h; cases h
  | some c =>
    obtain ⟨s,rfl⟩ := head_of_peek hc
    simp only [hc] at h
    rw [Lexer.ite_apply] at h
    split at h
    · next hq => exact ⟨c,s,rfl,.inl hq⟩
    · obtain ⟨t,hs,-,⟨d,u,rfl,hd⟩,-⟩ := bare_alone h
      obtain ⟨rfl,-⟩ : c = d ∧ s = u ++ r := by simpa using hs
      exact ⟨c,s,rfl,.inr hd⟩

/-! ### Values alone -/

theorem text_array (items : List (Item Value)) (close : Bytes) :
    (Value.array items close).text = 0x5B :: (Value.itemsText items ++ close) ++ [0x5D] := by
  simp [Value.text]

theorem text_inlineTable (members : List (Member Value)) (close : Bytes) :
    (Value.inlineTable members close).text = 0x7B :: (Value.membersText members ++ close) ++ [0x7D] := by
  simp [Value.text]

/-- Behind a bracket nothing is looked at. -/
theorem sameStart_bracket {c : UInt8} (hc : c ≠ lineFeed ∧ c ≠ carriageReturn ∧ c ≠ 0x20) (r r' : Bytes) :
    SameStart (c :: r) (c :: r') := by
  unfold SameStart
  rw [peek_cons hc,peek_cons hc]

theorem edged_array (items : List (Item Value)) (close : Bytes) : Edged (Value.array items close).text := by
  rw [text_array]
  exact ⟨⟨_,_,rfl,rfl⟩,_,_,rfl,rfl⟩

theorem edged_inlineTable (members : List (Member Value)) (close : Bytes) :
    Edged (Value.inlineTable members close).text := by
  rw [text_inlineTable]
  exact ⟨⟨_,_,rfl,rfl⟩,_,_,rfl,rfl⟩

theorem peek_brace (u : Bytes) : (peek (0x7B :: u)).head? = some 0x7B := by
  rw [peek_cons (by decide)]
  rfl

section
variable {fuel : ℕ} {t close : Bytes}

theorem value_array {es : List (Item Value)} (h : items fuel (t ++ [0x5D]) = some ((es,close),[0x5D])) :
    value (fuel + 1) (0x5B :: (t ++ [0x5D])) = some (.array es close,[]) := by
  have hh : (peek (0x5B :: (t ++ [0x5D]))).head? = some 0x5B := by
    rw [peek_cons (by decide)]
    rfl
  simp only [value,Lexer.bind_apply,Lexer.look_apply]
  rw [Lexer.ite_apply,if_pos hh]
  simp only [Lexer.bind_apply,Lexer.octet_cons,h]
  rfl

theorem value_emptyTable (h : Lexer.run isBlank (close ++ [0x7D]) = some (close,[0x7D])) :
    value (fuel + 1) (0x7B :: (close ++ [0x7D])) = some (.inlineTable [] close,[]) := by
  simp only [value,Lexer.bind_apply,Lexer.look_apply]
  rw [Lexer.ite_apply,if_neg (by rw [peek_brace]; decide),Lexer.ite_apply,if_pos (peek_brace _)]
  simp only [Lexer.bind_apply,Lexer.octet_cons,h,Lexer.look_apply]
  rw [Lexer.ite_apply,if_pos (by rw [peek_cons (by decide)]; rfl)]
  rfl

theorem value_inlineTable {ms : List (Member Value)}
    (hblank : Lexer.run isBlank (close ++ (t ++ [0x7D])) = some (close,t ++ [0x7D]))
    (hne : ¬ (peek (t ++ [0x7D])).head? = some 0x7D) (h : members close fuel (t ++ [0x7D]) = some (ms,[0x7D])) :
    value (fuel + 1) (0x7B :: (close ++ (t ++ [0x7D]))) = some (.inlineTable ms [],[]) := by
  simp only [value,Lexer.bind_apply,Lexer.look_apply]
  rw [Lexer.ite_apply,if_neg (by rw [peek_brace]; decide),Lexer.ite_apply,if_pos (peek_brace _)]
  simp only [Lexer.bind_apply,Lexer.octet_cons,hblank,Lexer.look_apply]
  rw [Lexer.ite_apply,if_neg hne]
  simp only [Lexer.bind_apply,h,Lexer.octet_cons]
  rfl

theorem value_ofScalar {v : Scalar} (h₁ : ¬ (peek t).head? = some 0x5B) (h₂ : ¬ (peek t).head? = some 0x7B)
    (h : scalar t = some (v,[])) : value (fuel + 1) t = some (.scalar t v,[]) := by
  have hw : scalar.withText t = some ((t,v),[]) := by simp [Lexer.withText,h,consumed]
  simp only [value,Lexer.bind_apply,Lexer.look_apply]
  rw [Lexer.ite_apply,if_neg h₁,Lexer.ite_apply,if_neg h₂]
  simp only [Lexer.bind_apply,hw]
  rfl

end

/-- The text of a value alone reads as that value. -/
theorem value_alone {fuel : ℕ} {s r : Bytes} {v : Value} (h : value fuel s = some (v,r)) :
    value fuel v.text = some (v,[]) ∧ Edged v.text := by
  cases fuel with
  | zero => rw [value] at h; cases h
  | succ fuel =>
    simp only [value,Lexer.bind_apply,Lexer.look_apply,Lexer.ite_apply] at h
    split at h
    · next h₁ =>
      obtain ⟨s,rfl⟩ := head_of_peek h₁
      simp only [Lexer.octet_cons] at h
      split at h
      · cases h
      · next x r₁ hx =>
        obtain ⟨es,close⟩ := x
        obtain ⟨t,rfl,ht,hlocal⟩ := (reads fuel).2.1 hx
        split at h
        · cases h
        · next b r₂ hb =>
          obtain ⟨rfl,rfl⟩ := Lexer.octet_some hb
          cases h
          refine ⟨?_,edged_array es close⟩
          rw [text_array,← ht,List.cons_append]
          exact value_array (hlocal [0x5D] (sameStart_bracket (by decide) _ _))
    · next h₁ =>
      split at h
      · next h₂ =>
        obtain ⟨s,rfl⟩ := head_of_peek h₂
        simp only [Lexer.octet_cons] at h
        split at h
        · cases h
        · next close r₁ hclose =>
          obtain ⟨t,rfl,rfl,hlocal⟩ := reads_blanks hclose
          split at h
          · next h₃ =>
            obtain ⟨r₂,rfl⟩ := head_of_peek h₃
            simp only [Lexer.octet_cons] at h
            cases h
            refine ⟨?_,edged_inlineTable [] t⟩
            rw [text_inlineTable,Value.membersText,List.nil_append,List.cons_append]
            exact value_emptyTable (hlocal [0x7D] (sameStart_bracket (by decide) _ _))
          · next h₃ =>
            split at h
            · cases h
            · next ms r₂ hms =>
              obtain ⟨u,rfl,hu,hmlocal⟩ := (reads fuel).2.2 t hms
              split at h
              · cases h
              · next b r₃ hb =>
                obtain ⟨rfl,rfl⟩ := Lexer.octet_some hb
                cases h
                have hsame := sameStart_bracket (c := 0x7D) (by decide) r []
                refine ⟨?_,edged_inlineTable ms []⟩
                rw [text_inlineTable,← hu,List.append_nil,List.cons_append,List.append_assoc]
                exact value_inlineTable (hlocal (u ++ [0x7D]) (hsame.append u)) (by rwa [← hsame.append u])
                  (hmlocal [0x7D] hsame)
      · next h₂ =>
        split at h
        · cases h
        · next x r₁ hx =>
          obtain ⟨⟨a,r₂⟩,ha,he⟩ := Option.map_eq_some_iff.mp hx
          cases he
          cases h
          obtain ⟨t,rfl,ht,hedge⟩ := scalar_alone ha
          rw [consumed_append,Value.text]
          refine ⟨?_,hedge⟩
          obtain ⟨⟨c,u,rfl,hc⟩,-⟩ := hedge
          have hhead : (peek (c :: u)).head? = (peek (c :: u ++ r₂)).head? := peek_cons_head c _ _
          exact value_ofScalar (by rwa [hhead]) (by rwa [hhead]) ht

end Syntax

namespace Value

def members : Value → List (Member Value)
  | .inlineTable ms _ => ms
  | _ => []

/-- A value whose text alone reads as it, and so do the members of its tables. -/
inductive Sound : Value → Prop where
  | intro {v : Value} (alone : Syntax.value readerFuel v.text = some (v,[])) (edged : Syntax.Edged v.text)
      (below : ∀ m ∈ v.members, Sound m.value) : Sound v

end Value

def Line.Sound : Line → Prop
  | .assign _ _ _ v _ => v.Sound
  | _ => True

namespace Syntax
open Text Lexical

theorem sound_succ {fuel : ℕ} (hf : fuel + 1 ≤ readerFuel)
    (hm : ∀ ⦃lead s ms r⦄, members lead fuel s = some (ms,r) → ∀ m ∈ ms, m.value.Sound)
    {s r : Bytes} {v : Value} (h : value (fuel + 1) s = some (v,r)) : v.Sound := by
  obtain ⟨halone,hedged⟩ := value_alone h
  refine .intro (value_below hf halone) hedged ?_
  simp only [value,Lexer.bind_apply,Lexer.look_apply,Lexer.ite_apply] at h
  split at h
  · split at h
    · cases h
    · split at h
      · cases h
      · split at h
        · cases h
        · cases h; simp [Value.members]
  · split at h
    · split at h
      · cases h
      · split at h
        · cases h
        · split at h
          · split at h
            · cases h
            · cases h; simp [Value.members]
          · split at h
            · cases h
            · next ms r₂ hms =>
              split at h
              · cases h
              · cases h; exact hm hms
    · split at h
      · cases h
      · cases h; simp [Value.members]

theorem sound (fuel : ℕ) (hf : fuel ≤ readerFuel) :
    (∀ ⦃s v r⦄, value fuel s = some (v,r) → v.Sound) ∧
    ∀ ⦃lead s ms r⦄, members lead fuel s = some (ms,r) → ∀ m ∈ ms, m.value.Sound := by
  induction fuel with
  | zero =>
    refine ⟨fun s v r h => ?_,fun lead s ms r h => ?_⟩
    · rw [value] at h; cases h
    · rw [members] at h; cases h
  | succ fuel ih =>
    obtain ⟨hv,hm⟩ := ih (by omega)
    refine ⟨fun s v r h => sound_succ hf hm h,fun lead s ms r h => ?_⟩
    simp only [members,Lexer.bind_apply,Lexer.look_apply,Lexer.ite_apply] at h
    split at h
    · cases h
    · split at h
      · cases h
      · split at h
        · cases h
        · next v r₃ hvalue =>
          split at h
          · cases h
          · split at h
            · split at h
              · cases h
              · split at h
                · cases h
                · split at h
                  · cases h
                  · next rest r₇ hrest =>
                    cases h
                    exact List.forall_mem_cons.mpr ⟨hv hvalue,hm hrest⟩
            · cases h
              exact List.forall_mem_singleton.mpr (hv hvalue)

/-! ### Documents -/

theorem reads_tail {s t r : Bytes} (h : tail s = some (t,r)) : s = t ++ r :=
  tailStep.read_copying copying_tailStep h

theorem text_header {isArray : Bool} {lead s r : Bytes} {l : Line}
    (h : header isArray lead s = some (l,r)) :
    lead ++ (Line.bracket isArray 0x5B ++ s) = l.text ++ r ∧ l.Sound := by
  simp only [header,Lexer.bind_apply] at h
  split at h
  · cases h
  · next open_ r₁ ho =>
    obtain ⟨t₁,rfl,rfl,-⟩ := reads_blanks ho
    split at h
    · cases h
    · next k r₂ hk =>
      obtain ⟨t₂,rfl,rfl,-⟩ := reads_key hk
      split at h
      · cases h
      · next a r₃ ha =>
        obtain ⟨rfl,rfl⟩ := Lexer.octet_some ha
        cases isArray with
        | true =>
          simp only [if_true,Lexer.bind_apply] at h
          split at h
          · cases h
          · next b r₄ hb =>
            obtain ⟨rfl,rfl⟩ := Lexer.octet_some hb
            split at h
            · cases h
            · next t r₅ ht =>
              cases h
              rw [reads_tail ht]
              exact ⟨by simp [Line.text,Line.bracket],trivial⟩
        | false =>
          simp only [Bool.false_eq_true,if_false,Lexer.bind_apply] at h
          split at h
          · cases h
          · next t r₅ ht =>
            cases h
            rw [reads_tail ht]
            exact ⟨by simp [Line.text,Line.bracket],trivial⟩

theorem text_assignment {lead s r : Bytes} {l : Line} (h : assignment lead s = some (l,r)) :
    lead ++ s = l.text ++ r ∧ l.Sound := by
  simp only [assignment,Lexer.bind_apply] at h
  split at h
  · cases h
  · next k r₁ hk =>
    obtain ⟨t₁,rfl,rfl,-⟩ := reads_key hk
    split at h
    · cases h
    · next eq r₂ he =>
      obtain ⟨t₂,rfl,rfl,-⟩ := reads_equals he
      split at h
      · cases h
      · next v r₃ hv =>
        have hsound := (sound readerFuel le_rfl).1 hv
        obtain ⟨t₃,rfl,rfl,-⟩ := (reads readerFuel).1 hv
        split at h
        · cases h
        · next t r₄ ht =>
          cases h
          rw [reads_tail ht]
          exact ⟨by simp [Line.text],hsound⟩

theorem text_line {s r : Bytes} {l : Line} (h : line s = some (l,r)) : s = l.text ++ r ∧ l.Sound := by
  simp only [line,Lexer.bind_apply,Lexer.look_apply,Lexer.ite_apply] at h
  split at h
  · cases h
  · next lead r₁ hl =>
    obtain ⟨t₁,rfl,rfl,-⟩ := reads_blanks hl
    split at h
    · split at h
      · cases h
      · next a r₂ ha =>
        obtain ⟨rfl,rfl⟩ := Lexer.octet_some ha
        split at h
        · split at h
          · cases h
          · next b r₃ hb =>
            obtain ⟨rfl,rfl⟩ := Lexer.octet_some hb
            exact text_header h
        · exact text_header h
    · split at h
      · exact text_assignment h
      · split at h
        · cases h
        · next t r₂ ht =>
          cases h
          rw [reads_tail ht]
          exact ⟨by simp [Line.text],trivial⟩

/-- The lines of a text are its text, and their values are read as they stand alone. -/
theorem text_lines {fuel : ℕ} {s : Bytes} {ls : List Line} (h : lines fuel s = some ls) :
    s = ls.flatMap Line.text ∧ ∀ l ∈ ls, l.Sound := by
  induction fuel generalizing s ls with
  | zero =>
    cases s with
    | nil => cases h; simp
    | cons c s => cases h
  | succ fuel ih =>
    cases s with
    | nil => cases h; simp
    | cons c s =>
      rw [lines] at h
      · split at h
        · cases h
        · next l r hl =>
          obtain ⟨ls',hs,rfl⟩ := Option.map_eq_some_iff.mp h
          obtain ⟨ht,hsound⟩ := text_line hl
          obtain ⟨hr,hrest⟩ := ih hs
          exact ⟨by rw [ht,hr]; simp,List.forall_mem_cons.mpr ⟨hsound,hrest⟩⟩
      · simp

end Syntax
end Toml
