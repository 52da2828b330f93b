import HolonightConfig.Program
import Mathlib.Data.List.Induction
import Mathlib.Logic.Function.Basic
import Mathlib.Logic.Relation
import Mathlib.Order.WellFounded

/-! Programs side by side in one state, call by call in any order, with what else happens to it:
what each one relies on and guarantees, and who changed what of the state. -/
namespace Program
open Prog

section Withstands
variable {C : Type} {R : C → Type} {σ α β : Type}

/-- Whatever happens before each call, as far as it is relied on, the call keeps the guarantee,
and what is returned meets the postcondition. -/
def Withstands (sem guarantee : Semantics C R σ) (rely : σ → σ → Prop) (Q : α → σ → Prop) : Prog C R α → σ → Prop
  | ret a,s => Q a s
  | call c next,s => ∀ s₁, rely s s₁ → ∀ r s', sem s₁ c r s' →
    guarantee s₁ c r s' ∧ Withstands sem guarantee rely Q (next r) s'
  | exhausted,_ => True

variable {sem guarantee : Semantics C R σ} {rely : σ → σ → Prop} {Q : α → σ → Prop} {s s' : σ}

@[simp] theorem withstands_pure (a : α) : Withstands sem guarantee rely Q (pure a) s ↔ Q a s := Iff.rfl

/-- The rule of a call and what follows it. -/
theorem withstands_perform {c : C} {f : R c → Prog C R α}
    (h : ∀ s₁, rely s s₁ → ∀ r s', sem s₁ c r s' →
      guarantee s₁ c r s' ∧ Withstands sem guarantee rely Q (f r) s') :
    Withstands sem guarantee rely Q (perform c >>= f) s := h

/-- The rule of sequence. -/
theorem withstands_bind {P : β → σ → Prop} {p : Prog C R β} {f : β → Prog C R α}
    (hp : Withstands sem guarantee rely P p s)
    (hf : ∀ b s', P b s' → Withstands sem guarantee rely Q (f b) s') :
    Withstands sem guarantee rely Q (p >>= f) s := by
  induction p generalizing s with
  | ret b => exact hf b s hp
  | call c next ih =>
    intro s₁ hr r s' hs
    obtain ⟨hg,hnext⟩ := hp s₁ hr r s' hs
    exact ⟨hg,ih r hnext⟩
  | exhausted => trivial

theorem Withstands.mono {Q' : α → σ → Prop} {p : Prog C R α} (h : Withstands sem guarantee rely Q p s)
    (hQ : ∀ a s', Q a s' → Q' a s') : Withstands sem guarantee rely Q' p s := by
  induction p generalizing s with
  | ret a => exact hQ a s h
  | call c next ih =>
    intro s₁ hr r s' hs
    obtain ⟨hg,hnext⟩ := h s₁ hr r s' hs
    exact ⟨hg,ih r hnext⟩
  | exhausted => trivial

/-- Less may be asked of the calls, and less may happen. -/
theorem Withstands.weaken {guarantee' : Semantics C R σ} {rely' : σ → σ → Prop} {p : Prog C R α}
    (h : Withstands sem guarantee rely Q p s) (hG : ∀ s c r s', guarantee s c r s' → guarantee' s c r s')
    (hR : ∀ s s', rely' s s' → rely s s') : Withstands sem guarantee' rely' Q p s := by
  induction p generalizing s with
  | ret a => exact h
  | call c next ih =>
    intro s₁ hr r s' hs
    obtain ⟨hg,hnext⟩ := h s₁ (hR s s₁ hr) r s' hs
    exact ⟨hG s₁ c r s' hg,ih r hnext⟩
  | exhausted => trivial

/-- What is relied on may happen before the next call. -/
theorem Withstands.relied {p : Prog C R α} (h : Withstands sem guarantee rely Q p s)
    (htrans : ∀ {s s₁ s₂}, rely s s₁ → rely s₁ s₂ → rely s s₂)
    (hQ : ∀ a s', rely s s' → Q a s → Q a s') (hr : rely s s') :
    Withstands sem guarantee rely Q p s' := by
  cases p with
  | ret a => exact hQ a s' hr h
  | call c next => exact fun s₁ hr' => h s₁ (htrans hr hr')
  | exhausted => trivial

end Withstands

/-! ### Going on -/

/-- What a program may be after its next call. -/
inductive GoesOn {C : Type} {R : C → Type} {α : Type} : Prog C R α → Prog C R α → Prop
  | call (c : C) (next : R c → Prog C R α) (r : R c) : GoesOn (next r) (call c next)

theorem goesOn_wellFounded {C : Type} {R : C → Type} {α : Type} : WellFounded (@GoesOn C R α) := by
  refine ⟨fun p => ?_⟩
  induction p with
  | ret a =>
    refine ⟨_,fun q h => ?_⟩
    cases h
  | call c next ih =>
    refine ⟨_,fun q h => ?_⟩
    cases h
    exact ih _
  | exhausted =>
    refine ⟨_,fun q h => ?_⟩
    cases h

/-- No program is ever again what it was. -/
theorem not_again {C : Type} {R : C → Type} {α : Type} (p : Prog C R α) : ¬ Relation.TransGen GoesOn p p :=
  goesOn_wellFounded.transGen.irrefl.irrefl p

/-! ### Many programs -/

/-- Programs, each with its own results, and the state they share. -/
structure Pool (ι C : Type) (R : C → Type) (α σ : Type) where
  programs : ι → Prog C R α
  state : σ

namespace Pool
variable {ι C : Type} [DecidableEq ι] {R : C → Type} {α σ : Type}

/-- One of the programs makes its next call, or something else happens to the state. -/
inductive Step (sem : ι → Semantics C R σ) (env : σ → σ → Prop) : Pool ι C R α σ → Pool ι C R α σ → Prop
  | call {p : ι → Prog C R α} {s s' : σ} {c : C} {next : R c → Prog C R α} {r : R c} (i : ι)
    (hi : p i = call c next) (hs : sem i s c r s') :
    Step sem env ⟨p,s⟩ ⟨Function.update p i (next r),s'⟩
  | other {p : ι → Prog C R α} {s s' : σ} (he : env s s') : Step sem env ⟨p,s⟩ ⟨p,s'⟩

/-- Any number of steps, in any order. -/
abbrev Run (sem : ι → Semantics C R σ) (env : σ → σ → Prop) : Pool ι C R α σ → Pool ι C R α σ → Prop :=
  Relation.ReflTransGen (Step sem env)

/-- What every step keeps to, from its state to the next, a run does. -/
theorem Run.keeps {sem : ι → Semantics C R σ} {env : σ → σ → Prop} {x y : Pool ι C R α σ} (hr : Run sem env x y)
    (rel : σ → σ → Prop) (hrefl : ∀ s, rel s s) (htrans : ∀ {s s₁ s₂}, rel s s₁ → rel s₁ s₂ → rel s s₂)
    (hcall : ∀ i s c r s', sem i s c r s' → rel s s') (henv : ∀ s s', env s s' → rel s s') :
    rel x.state y.state := by
  induction hr with
  | refl => exact hrefl _
  | tail _ hstep ih =>
    cases hstep with
    | call i hi hs => exact htrans ih (hcall i _ _ _ _ hs)
    | other he => exact htrans ih (henv _ _ he)

/-- What one guarantees, and whatever else happens, the others may rely on. -/
structure Compatible (guarantee : ι → Semantics C R σ) (env : σ → σ → Prop) (rely : ι → σ → σ → Prop) : Prop where
  refl : ∀ i s, rely i s s
  trans : ∀ {i s s₁ s₂}, rely i s s₁ → rely i s₁ s₂ → rely i s s₂
  others : ∀ {i j s c r s'}, i ≠ j → guarantee j s c r s' → rely i s s'
  outside : ∀ {i s s'}, env s s' → rely i s s'

/-- Each program withstands the others. -/
def Safe (sem guarantee : ι → Semantics C R σ) (rely : ι → σ → σ → Prop) (Q : ι → α → σ → Prop)
    (x : Pool ι C R α σ) : Prop :=
  ∀ i, Withstands (sem i) (guarantee i) (rely i) (Q i) (x.programs i) x.state

section
variable {sem guarantee : ι → Semantics C R σ} {env : σ → σ → Prop} {rely : ι → σ → σ → Prop}
  {Q : ι → α → σ → Prop} {x y : Pool ι C R α σ}

/-- One step keeps to its guarantee, and all stay safe. -/
theorem Safe.step (hc : Compatible guarantee env rely) (hQ : ∀ i a s s', rely i s s' → Q i a s → Q i a s')
    (h : Safe sem guarantee rely Q x) (hs : Step sem env x y) : Safe sem guarantee rely Q y ∧
      ((∃ i c r, guarantee i x.state c r y.state) ∨ env x.state y.state) := by
  cases hs with
  | @call p s s' c next r i hi hs =>
    have hcall : Withstands (sem i) (guarantee i) (rely i) (Q i) (p i) s := h i
    rw [hi] at hcall
    obtain ⟨hg,hnext⟩ := hcall s (hc.refl i s) r s' hs
    refine ⟨fun j => ?_,.inl ⟨i,c,r,hg⟩⟩
    by_cases hij : j = i
    · subst hij
      simpa using hnext
    · have hj := (h j).relied hc.trans (fun a s' => hQ j a s s') (hc.others hij hg)
      simpa [hij] using hj
  | @other p s s' he =>
    exact ⟨fun j => (h j).relied hc.trans (fun a s' => hQ j a s s') (hc.outside he),.inr he⟩

theorem Safe.run (hc : Compatible guarantee env rely) (hQ : ∀ i a s s', rely i s s' → Q i a s → Q i a s')
    (h : Safe sem guarantee rely Q x) (hr : Run sem env x y) : Safe sem guarantee rely Q y := by
  induction hr with
  | refl => exact h
  | tail _ hs ih => exact (ih.step hc hQ hs).1

omit [DecidableEq ι] in
/-- A program's next call keeps to its guarantee. -/
theorem Safe.next (hc : Compatible guarantee env rely) (h : Safe sem guarantee rely Q x) {i : ι} {c : C}
    {next : R c → Prog C R α} (hi : x.programs i = call c next) {r : R c} {s' : σ}
    (hs : sem i x.state c r s') : guarantee i x.state c r s' := by
  have hcall := h i
  rw [hi] at hcall
  exact (hcall x.state (hc.refl i x.state) r s' hs).1

/-- Each program goes on. -/
theorem Run.goesOn (hr : Run sem env x y) (i : ι) :
    Relation.ReflTransGen GoesOn (y.programs i) (x.programs i) := by
  induction hr with
  | refl => exact .refl
  | tail _ hs ih =>
    cases hs with
    | @call p s s' c next r j hj hs =>
      dsimp only
      by_cases hij : i = j
      · subst hij
        rw [Function.update_self]
        have hstep : GoesOn (next r) (p i) := hj ▸ .call c next r
        exact .head hstep ih
      · rw [Function.update_of_ne hij]
        exact ih
    | other he => exact ih

/-- As long as a program has not begun, no more happens than what it relies on. -/
theorem Safe.waiting (hc : Compatible guarantee env rely) (hQ : ∀ i a s s', rely i s s' → Q i a s → Q i a s')
    (h : Safe sem guarantee rely Q x) (hr : Run sem env x y) {i : ι} (hi : y.programs i = x.programs i) :
    rely i x.state y.state := by
  induction hr with
  | refl => exact hc.refl _ _
  | tail hr hs ih =>
    cases hs with
    | @call p s s' c next r j hj hs =>
      dsimp only at hi
      by_cases hij : i = j
      · subst hij
        rw [Function.update_self] at hi
        have hstep : GoesOn (next r) (p i) := hj ▸ .call c next r
        have hback : Relation.ReflTransGen GoesOn (p i) (next r) := hi ▸ Run.goesOn hr i
        exact absurd (Relation.TransGen.head' hstep hback) (not_again (next r))
      · rw [Function.update_of_ne hij] at hi
        exact hc.trans (ih hi) (hc.others hij ((h.run hc hQ hr).next hc hj hs))
    | other he => exact hc.trans (ih hi) (hc.outside he)

/-- What every guaranteed step and all else keep holds along the run. -/
theorem Safe.invariant (hc : Compatible guarantee env rely)
    (hQ : ∀ i a s s', rely i s s' → Q i a s → Q i a s') (h : Safe sem guarantee rely Q x) {I : σ → Prop}
    (hI : I x.state) (hstep : ∀ i s c r s', guarantee i s c r s' → I s → I s')
    (henv : ∀ s s', env s s' → I s → I s') (hr : Run sem env x y) : I y.state := by
  induction hr with
  | refl => exact hI
  | tail hr hs ih =>
    rcases ((h.run hc hQ hr).step hc hQ hs).2 with ⟨i,c,r,hg⟩ | he
    · exact hstep i _ c r _ hg ih
    · exact henv _ _ he ih

omit [DecidableEq ι] in
/-- A program that is done has met its postcondition. -/
theorem Safe.returned (h : Safe sem guarantee rely Q x) {i : ι} {a : α} (hi : x.programs i = ret a) :
    Q i a x.state := by
  have hret := h i
  rwa [hi] at hret

end
end Pool

/-! ### Who changed what -/

/-- A change of what is seen of the state, with who made it. -/
structure Change (κ γ : Type) where
  who : κ
  before : γ
  after : γ

namespace Change
variable {κ γ : Type}

/-- What is seen after some changes. -/
def latest (start : γ) (changes : List (Change κ γ)) : γ := (changes.getLast?.map Change.after).getD start

@[simp] theorem latest_snoc (start : γ) (changes : List (Change κ γ)) (e : Change κ γ) :
    latest start (changes ++ [e]) = e.after := by
  simp [latest]

/-- What is seen at first or after one of the changes. -/
def Seen (start : γ) (changes : List (Change κ γ)) (v : γ) : Prop := v = start ∨ ∃ e ∈ changes, e.after = v

theorem seen_latest (start : γ) (changes : List (Change κ γ)) : Seen start changes (latest start changes) := by
  unfold latest
  cases h : changes.getLast? with
  | none => exact .inl rfl
  | some e => exact .inr ⟨e,List.mem_of_getLast? h,rfl⟩

theorem Seen.mono {start v : γ} {changes changes' : List (Change κ γ)} (h : Seen start changes v)
    (hp : changes <+: changes') : Seen start changes' v := by
  rcases h with h | ⟨e,he,hv⟩
  · exact .inl h
  · exact .inr ⟨e,hp.subset he,hv⟩

/-- A step is written down where something else is seen after it. -/
def note [DecidableEq γ] (who : κ) (before after : γ) (changes : List (Change κ γ)) : List (Change κ γ) :=
  if after = before then changes else changes ++ [⟨who,before,after⟩]

section
variable [DecidableEq γ]

@[simp] theorem note_self (who : κ) (b : γ) (changes : List (Change κ γ)) : note who b b changes = changes :=
  if_pos rfl

theorem note_of_ne {b a : γ} (h : a ≠ b) (who : κ) (changes : List (Change κ γ)) :
    note who b a changes = changes ++ [⟨who,b,a⟩] := if_neg h

theorem prefix_note (who : κ) (b a : γ) (changes : List (Change κ γ)) : changes <+: note who b a changes := by
  unfold note
  split
  · exact List.prefix_refl _
  · exact List.prefix_append _ _

theorem latest_note {start b : γ} {changes : List (Change κ γ)} (h : b = latest start changes) (who : κ) (a : γ) :
    a = latest start (note who b a changes) := by
  unfold note
  split
  · next he => exact he.trans h
  · rw [latest_snoc]

end

/-- The operations of some, one after another. -/
inductive Serial (op : κ → γ → γ → Prop) : γ → List (Change κ γ) → γ → Prop
  | nil (b : γ) : Serial op b [] b
  | snoc {a b c : γ} {changes : List (Change κ γ)} {who : κ} (h : Serial op a changes b) (hop : op who b c) :
    Serial op a (changes ++ [⟨who,b,c⟩]) c

theorem Serial.mem {op : κ → γ → γ → Prop} {a b : γ} {changes : List (Change κ γ)} (h : Serial op a changes b) :
    ∀ e ∈ changes, op e.who e.before e.after := by
  induction h with
  | nil => simp
  | snoc _ hop ih =>
    intro e he
    rcases List.mem_append.mp he with he | he
    · exact ih e he
    · rw [List.mem_singleton] at he
      rw [he]
      exact hop

theorem Serial.weaken {op op' : κ → γ → γ → Prop} {a b : γ} {changes : List (Change κ γ)} (h : Serial op a changes b)
    (hop : ∀ who b c, op who b c → op' who b c) : Serial op' a changes b := by
  induction h with
  | nil => exact .nil _
  | snoc _ hlast ih => exact .snoc ih (hop _ _ _ hlast)

theorem Serial.unchanged {op : κ → γ → γ → Prop} {a b : γ} {changes : List (Change κ γ)} (h : Serial op a changes b)
    (hc : changes = []) : b = a := by
  cases h with
  | nil => rfl
  | snoc => simp at hc

theorem Serial.unique {op : κ → γ → γ → Prop} {a b b' : γ} {changes : List (Change κ γ)} (h : Serial op a changes b)
    (h' : Serial op a changes b') : b = b' := by
  cases h with
  | nil => exact (h'.unchanged rfl).symm
  | snoc h hop =>
    generalize hl : _ ++ [_] = l at h'
    cases h' with
    | nil => simp at hl
    | snoc h' hop' =>
      obtain ⟨-,he⟩ := List.append_inj' hl rfl
      cases he
      rfl

/-- Some of the changes, and then the rest. -/
theorem Serial.split {op : κ → γ → γ → Prop} {a c : γ} {l₁ l₂ : List (Change κ γ)} (h : Serial op a (l₁ ++ l₂) c) :
    ∃ b, Serial op a l₁ b ∧ Serial op b l₂ c := by
  induction l₂ using List.reverseRecOn generalizing c with
  | nil => exact ⟨c,by simpa using h,.nil c⟩
  | append_singleton l e ih =>
    rw [← List.append_assoc] at h
    generalize hl : l₁ ++ l ++ [e] = changes at h
    cases h with
    | nil => simp at hl
    | snoc h hop =>
      obtain ⟨rfl,he⟩ := List.append_inj' hl rfl
      cases he
      obtain ⟨b,hb,hrest⟩ := ih h
      exact ⟨b,hb,.snoc hrest hop⟩

/-- What no longer holds was undone by some change. -/
theorem Serial.undone {op : κ → γ → γ → Prop} {a b : γ} {changes : List (Change κ γ)} (h : Serial op a changes b)
    {P : γ → Prop} (ha : P a) (hb : ¬ P b) :
    ∃ e ∈ changes, P e.before ∧ ¬ P e.after ∧ op e.who e.before e.after := by
  induction h with
  | nil => exact absurd ha hb
  | @snoc m c changes who h hop ih =>
    by_cases hm : P m
    · exact ⟨⟨who,m,c⟩,by simp,hm,hb,hop⟩
    · obtain ⟨e,he,hundone⟩ := ih hm
      exact ⟨e,List.mem_append_left _ he,hundone⟩

/-- What is seen last was made by an operation of whoever came last. -/
theorem Serial.last {op : κ → γ → γ → Prop} {a b : γ} {changes : List (Change κ γ)} (h : Serial op a changes b)
    {e : Change κ γ} (he : changes.getLast? = some e) : op e.who e.before b := by
  cases h with
  | nil => cases he
  | snoc _ hop =>
    rw [List.getLast?_concat] at he
    cases he
    exact hop

/-- The changes of one. -/
def own [DecidableEq κ] (who : κ) (changes : List (Change κ γ)) : List (Change κ γ) :=
  changes.filter (fun e => e.who = who)

section
variable [DecidableEq κ]

@[simp] theorem own_nil (who : κ) : own who ([] : List (Change κ γ)) = [] := rfl

theorem own_snoc_self (who : κ) (changes : List (Change κ γ)) (b a : γ) :
    own who (changes ++ [⟨who,b,a⟩]) = own who changes ++ [⟨who,b,a⟩] := by
  simp [own]

theorem own_snoc_of_ne {who who' : κ} (h : who' ≠ who) (changes : List (Change κ γ)) (b a : γ) :
    own who (changes ++ [⟨who',b,a⟩]) = own who changes := by
  simp [own,h]

theorem own_note_of_ne [DecidableEq γ] {who who' : κ} (h : who' ≠ who) (changes : List (Change κ γ)) (b a : γ) :
    own who (note who' b a changes) = own who changes := by
  unfold note
  split
  · rfl
  · exact own_snoc_of_ne h _ _ _

/-- The last change is one's own. -/
def Last (who : κ) (changes : List (Change κ γ)) : Prop := ∃ e, changes.getLast? = some e ∧ e.who = who

omit [DecidableEq κ] in
@[simp] theorem last_snoc (who : κ) (changes : List (Change κ γ)) (e : Change κ γ) :
    Last who (changes ++ [e]) ↔ e.who = who := by
  simp [Last]

/-- Where one comes last again without a change of its own, nobody has changed anything. -/
theorem Last.unchanged {who : κ} {changes changes' : List (Change κ γ)} (h : Last who changes')
    (hp : changes <+: changes') (ho : own who changes' = own who changes) : changes' = changes := by
  obtain ⟨more,rfl⟩ := hp
  obtain ⟨e,he,hwho⟩ := h
  have hnone : own who more = [] := by
    rw [own,List.filter_append] at ho
    exact List.append_right_eq_self.mp ho
  cases hmore : more.getLast? with
  | none => rw [List.getLast?_eq_none_iff.mp hmore,List.append_nil]
  | some e' =>
    rw [List.getLast?_append,hmore,Option.some_or] at he
    cases he
    have hmem : e ∈ own who more := List.mem_filter.mpr ⟨List.mem_of_getLast? hmore,by simpa using hwho⟩
    rw [hnone] at hmem
    cases hmem

omit [DecidableEq κ] in
theorem Last.note [DecidableEq γ] {who : κ} {b a : γ} {changes : List (Change κ γ)}
    (h : a ≠ b ∨ Last who changes) : Last who (note who b a changes) := by
  by_cases he : a = b
  · rw [he,note_self]
    exact h.resolve_left (fun hne => hne he)
  · rw [note_of_ne he,last_snoc]

end
end Change
end Program
