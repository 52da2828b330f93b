import HolonightConfig.AppearanceStore.Written

/-! Loading while writers are at work: the path is looked at three times, and each time somebody else
may have been there. -/
namespace HolonightConfig
open Text Toml Posix Program

namespace Readers
open Codec Storage Change

section
variable (L : Library)

/-- `load`, where the path is inspected, measured and opened at three times. -/
def loadAcross (inspected measured opened : PathState) (path : Path) : Result LoadedAppearance :=
  if inspected.exists_.1 = false then
    match inspected.exists_.2 with
    | some e => .failure [inspectError (some e) path]
    | none => .success ⟨defaults,.default⟩
      [⟨.missing,.info,bytes "appearance file is missing; shared defaults are active",some path,none⟩]
  else
    match measured.fileSize with
    | .error e => .failure [inspectError (some e) path]
    | .ok size =>
      if kMaximumDocumentBytes < size then .failure [tooLarge path]
      else
        match opened.open_ with
        | none => .failure [Store.fileDiagnostic .ioError (bytes "failed to open appearance file") path]
        | some (chunks,bad) => loadChunks L chunks bad path

/-- At one time it is `load`. -/
theorem loadAcross_self (s : PathState) (path : Path) : loadAcross L s s s path = load L s path := rfl

/-- What the system says of a path that leads to this file, which is read in some chunks. -/
inductive Shows : Option File → PathState → Prop
  | missing (isSymlink : Bool) : Shows none ⟨.error .noEntry,isSymlink⟩
  | regular (m : Metadata) {octets : Bytes} (input : Input octets) (hb : input.bad = false) (isSymlink : Bool) :
    Shows (some (.regular m octets)) ⟨.ok (.regular octets (some input)),isSymlink⟩

/-- The file is a document of the appearance, which it gives back. -/
structure Saved (a : Appearance) (f : Option File) : Prop where
  document : ∃ m octets, (serialize a).value = some octets ∧ f = some (.regular m octets)
  numbers : NumbersInverse (normalized a)
  strings : ∀ t ∈ strings (normalized a), Representable t

end

section
variable {L : Library} {a : Appearance} {f : Option File} {inspected measured opened : PathState}

theorem loadAcross_missing (h : Shows none inspected) (path : Path) :
    loadAcross L inspected measured opened path = .success ⟨defaults,.default⟩
      [⟨.missing,.info,bytes "appearance file is missing; shared defaults are active",some path,none⟩] := by
  cases h
  rfl

/-- What is opened is what is loaded, whatever was inspected and measured before. -/
theorem loadAcross_saved (hL : L.Permissive) (hT : L.Conforms kMaximumDocumentBytes) {f₁ f₂ f₃ : Option File}
    {a₂ a₃ : Appearance} (h₁ : Shows f₁ inspected) (hsome : f₁ ≠ none) (h₂ : Shows f₂ measured) (hs₂ : Saved a₂ f₂)
    (h₃ : Shows f₃ opened) (hs₃ : Saved a₃ f₃) (path : Path) :
    loadAcross L inspected measured opened path = .success ⟨normalized a₃,.file⟩ [] := by
  obtain ⟨m₂,octets₂,ho₂,rfl⟩ := hs₂.document
  obtain ⟨m₃,octets₃,ho₃,rfl⟩ := hs₃.document
  have hsize : ¬ kMaximumDocumentBytes < octets₂.length := by
    obtain ⟨hc,rfl⟩ := serialize_value ho₂
    exact Nat.not_lt.mpr (length_document_le hc)
  have hlength : ¬ kMaximumDocumentBytes < octets₃.length := by
    obtain ⟨hc,rfl⟩ := serialize_value ho₃
    exact Nat.not_lt.mpr (length_document_le hc)
  cases h₁ with
  | missing => exact absurd rfl hsome
  | regular m₁ input₁ hb₁ link₁ =>
    cases h₂ with
    | regular _ input₂ hb₂ link₂ =>
      cases h₃ with
      | regular _ input₃ hb₃ link₃ =>
        have hload := load_written hL hT ho₃ hs₃.numbers hs₃.strings input₃ hb₃ link₃ path
        rw [load_input,if_neg hlength] at hload
        change (if kMaximumDocumentBytes < octets₂.length then _ else loadChunks L input₃.chunks input₃.bad path) = _
        rw [if_neg hsize]
        exact hload

end

/-! ### Writers meanwhile -/

section
variable {ι : Type} [DecidableEq ι] {path : Path} {writers : ι → Store.Writer} {w : World}

theorem changes_grown {x y : Pool ι Call Call.Answer (Result Path) (Store.History ι)}
    (hr : Pool.Run (Store.writing writers) (Store.Outsider path) x y) (q : List Name) :
    x.state.changes q <+: y.state.changes q := by
  refine @Pool.Run.keeps _ _ _ _ _ _ _ _ _ _ hr (fun s s' => s.changes q <+: s'.changes q) ?_ ?_ ?_ ?_
  · exact fun s => List.prefix_refl _
  · exact fun h h' => h.trans h'
  · intro i s c r s' hs
    rw [hs.2]
    exact prefix_note _ _ _ _
  · intro s s' ho
    rw [ho.changes]
    exact prefix_note _ _ _ _

omit [DecidableEq ι] in
/-- Where writers alone change a destination and it is no directory now, it was none before. -/
theorem serial_before {a c : Option File} {l₁ l₂ : List (Change (Option ι) (Option File))}
    (h : Serial (Store.Puts writers) a (l₁ ++ l₂) c) (hwho : ∀ e ∈ l₁ ++ l₂, e.who ≠ none)
    (hc : c.any File.isDirectory = false) :
    ∃ b, Serial (Store.Puts writers) a l₁ b ∧ b.any File.isDirectory = false := by
  obtain ⟨b,hb,hrest⟩ := h.split
  refine ⟨b,hb,?_⟩
  by_contra hd
  obtain ⟨⟨who,before,after⟩,he,hbefore,hafter,hop⟩ := @Serial.undone _ _ _ _ _ _ hrest
    (fun f => f.any File.isDirectory = true) (by simpa using hd) (by simp [hc])
  cases hop with
  | outside => exact hwho _ (List.mem_append_right _ he) rfl
  | directory hnow => exact hafter hnow
  | document hplain _ =>
    rw [hplain] at hbefore
    cases hbefore

omit [DecidableEq ι] in
/-- Such a destination is what it was at first, or what some writer has put there. -/
theorem serial_settled {a b : Option File} {l : List (Change (Option ι) (Option File))}
    (h : Serial (Store.Puts writers) a l b) (hwho : ∀ e ∈ l, e.who ≠ none) (hb : b.any File.isDirectory = false) :
    (l = [] ∧ b = a) ∨ (l ≠ [] ∧ ∃ i, Store.Writes writers i b) := by
  cases h with
  | nil => exact .inl ⟨rfl,rfl⟩
  | @snoc before _ l who h hop =>
    refine .inr ⟨by simp,?_⟩
    cases hop with
    | outside => exact absurd rfl (hwho ⟨none,before,b⟩ (by simp))
    | directory hd =>
      rw [hb] at hd
      cases hd
    | document _ hw => exact ⟨_,hw⟩

end

section
variable {L : Library} {ι : Type} [DecidableEq ι] {path : Path} {writers : ι → Store.Writer} {w : World}
  {p₁ p₂ p₃ : ι → Command (Result Path)} {s₁ s₂ s₃ : Store.History ι} {q : List Name}

/-- A load that writers overtake as often as they like finds the defaults, where nothing was there when it
began, or the preferences of whoever was last when it opened the file. -/
theorem load_races (hL : L.Permissive) (hT : L.Conforms kMaximumDocumentBytes) (hlinks : Store.NoLinks path w.tree)
    (hr₁ : Store.Runs path writers w p₁ s₁)
    (hr₂ : Pool.Run (Store.writing writers) (Store.Outsider path) ⟨p₁,s₁⟩ ⟨p₂,s₂⟩)
    (hr₃ : Pool.Run (Store.writing writers) (Store.Outsider path) ⟨p₂,s₂⟩ ⟨p₃,s₃⟩)
    (hq : Store.IsDestination path q) (hothers : ∀ e ∈ s₃.changes q, e.who ≠ none)
    (hfile : (s₃.file q).any File.isDirectory = false)
    (hstart : w.tree.file q = none ∨ ∃ a, Saved a (w.tree.file q))
    (hwriters : ∀ i, NumbersInverse (normalized (writers i).appearance) ∧
      ∀ t ∈ strings (normalized (writers i).appearance), Representable t)
    {inspected measured opened : PathState} (h₁ : Shows (s₁.file q) inspected) (h₂ : Shows (s₂.file q) measured)
    (h₃ : Shows (s₃.file q) opened) (from_ : Path) :
    (s₁.file q = none ∧ loadAcross L inspected measured opened from_ = .success ⟨defaults,.default⟩
      [⟨.missing,.info,bytes "appearance file is missing; shared defaults are active",some from_,none⟩]) ∨
    ∃ a, Saved a (s₃.file q) ∧ loadAcross L inspected measured opened from_ = .success ⟨normalized a,.file⟩ [] := by
  by_cases hnone : s₁.file q = none
  · exact .inl ⟨hnone,loadAcross_missing (hnone ▸ h₁) from_⟩
  have hrun₂ := hr₁.trans hr₂
  have hrun₃ := hrun₂.trans hr₃
  have hgrown₂ := changes_grown hr₂ q
  have hgrown₃ := changes_grown hr₃ q
  have hserial := Store.Runs.serial hlinks hrun₃ hq
  -- At each of the three times the destination is what it was at first, or some writer's.
  have hsettled : ∀ {p : ι → Command (Result Path)} {s : Store.History ι}, Store.Runs path writers w p s →
      s.changes q <+: s₃.changes q →
      (s.changes q = [] ∧ s.file q = w.tree.file q) ∨ (s.changes q ≠ [] ∧ ∃ i, Store.Writes writers i (s.file q)) := by
    intro p s hr hprefix
    obtain ⟨later,hlater⟩ := hprefix
    obtain ⟨b,hb,hplain⟩ := serial_before (hlater ▸ hserial) (hlater ▸ hothers) hfile
    have hs := Store.Runs.serial hlinks hr hq
    obtain rfl := hb.unique hs
    refine serial_settled hs (fun e he => hothers e ?_) hplain
    rw [← hlater]
    exact List.mem_append_left _ he
  have hsaved : ∀ {p : ι → Command (Result Path)} {s : Store.History ι}, Store.Runs path writers w p s →
      s.changes q <+: s₃.changes q → s₁.changes q <+: s.changes q → ∃ a, Saved a (s.file q) := by
    intro p s hr hprefix hfirst
    rcases hsettled hr hprefix with ⟨hempty,hsame⟩ | ⟨-,i,hw⟩
    · have hempty₁ : s₁.changes q = [] := List.prefix_nil.mp (hempty ▸ hfirst)
      have hsame₁ : s₁.file q = w.tree.file q := by
        rcases hsettled hr₁ (hgrown₂.trans hgrown₃) with ⟨-,h⟩ | ⟨h,-⟩
        · exact h
        · exact absurd hempty₁ h
      rw [hsame]
      exact hstart.resolve_left (hsame₁ ▸ hnone)
    · obtain ⟨m,octets,ho,hf⟩ := hw
      exact ⟨_,⟨m,octets,ho,hf⟩,(hwriters i).1,(hwriters i).2⟩
  obtain ⟨a₂,hs₂⟩ := hsaved hrun₂ hgrown₃ hgrown₂
  obtain ⟨a₃,hs₃⟩ := hsaved hrun₃ (List.prefix_refl _) (hgrown₂.trans hgrown₃)
  exact .inr ⟨a₃,hs₃,loadAcross_saved hL hT h₁ hnone h₂ hs₂ h₃ hs₃ from_⟩

end

/-! ### Three writers, one between any two looks -/

def accents : ℕ → Bytes
  | 0 => bytes "blue"
  | 1 => bytes "teal"
  | _ => bytes "rose"

def accented (accent : Bytes) : Appearance := { defaults with theme := { accent := accent } }

def accentWriters (i : ℕ) : Store.Writer := ⟨⟨i,[]⟩,accented (accents i),kMaximumDocumentBytes,False⟩

theorem accents_written (i : ℕ) : (∃ octets, (serialize (accented (accents i))).value = some octets ∧
      octets.length ≤ kMaximumDocumentBytes) ∧ NumbersInverse (normalized (accented (accents i))) ∧
    ∀ t ∈ strings (normalized (accented (accents i))), Representable t := by
  have hcases : accents i = bytes "blue" ∨ accents i = bytes "teal" ∨ accents i = bytes "rose" := by
    unfold accents
    split <;> simp
  have hnumbers : NumbersInverse (normalized defaults) :=
    ⟨by decide +kernel,by decide +kernel,by decide +kernel,by decide +kernel⟩
  refine ⟨?_,⟨hnumbers.layout,hnumbers.shape,hnumbers.baseRadius,hnumbers.baseChamfer⟩,?_⟩
  · have hserialize : (serialize (accented (accents i))).value.any (fun o => o.length ≤ kMaximumDocumentBytes) = true := by
      rcases hcases with h | h | h <;> rw [h] <;> decide +kernel
    obtain ⟨octets,ho,hle⟩ := (Option.any_eq_true _ _).mp hserialize
    exact ⟨octets,ho,by simpa using hle⟩
  · rcases hcases with h | h | h <;> rw [h] <;> decide +kernel

/-- What the destination alone has changed in, by the hands of the writers. -/
structure Raced (s : Store.History ℕ) : Prop where
  others : ∀ q, q ≠ [DocumentStore.configName] → s.file q = DocumentStore.bareHome.tree.file q
  plain : s.world.tree.isDirectory [DocumentStore.configName] = false
  written : ∀ l, ∀ e ∈ s.changes l, e.who ≠ none

theorem Raced.next {s : Store.History ℕ} (h : Raced s) {p : ℕ → Command (Result Path)} {i : ℕ}
    (hp : p i = Store.writes (.ofLocation [DocumentStore.configName]) accentWriters i) :
    ∃ r s', Pool.Run (Store.writing accentWriters) (Store.Outsider (.ofLocation [DocumentStore.configName])) ⟨p,s⟩
      ⟨Function.update p i (.ret r),s'⟩ ∧ Raced s' ∧ Saved (accented (accents i)) (s'.file [DocumentStore.configName]) := by
  obtain ⟨⟨octets,ho,hle⟩,hnumbers,hstrings⟩ := accents_written i
  obtain ⟨r,s',hrun,-,⟨m,hfile⟩,hothers,hwho⟩ := @Store.writer_finishes ℕ _ (.ofLocation [DocumentStore.configName])
    accentWriters i p s hp [] (Store.home_writable h.others h.plain i) octets ho hle
  refine ⟨r,s',hrun,⟨fun q hq => (hothers q hq).trans (h.others q hq),?_,fun l e he => ?_⟩,
    ⟨m,octets,ho,hfile⟩,hnumbers,hstrings⟩
  · change (s'.file [DocumentStore.configName]).any File.isDirectory = false
    rw [show s'.file [DocumentStore.configName] = _ from hfile]
    rfl
  · rcases hwho l e he with he | he
    · exact h.written l e he
    · simp [he]

theorem Saved.shows {a : Appearance} {f : Option File} (h : Saved a f) : ∃ s, Shows f s := by
  obtain ⟨m,octets,-,rfl⟩ := h.document
  exact ⟨_,.regular m ⟨[octets],false,by simp,by simp⟩ rfl false⟩

/-- The path is inspected after the first of the writers, measured after the second and opened after the third. -/
theorem load_races_home : ∃ p₁ p₂ p₃ s₁ s₂ s₃ inspected measured opened a,
    Store.Runs (.ofLocation [DocumentStore.configName]) accentWriters DocumentStore.bareHome p₁ s₁ ∧
    Pool.Run (Store.writing accentWriters) (Store.Outsider (.ofLocation [DocumentStore.configName])) ⟨p₁,s₁⟩ ⟨p₂,s₂⟩ ∧
    Pool.Run (Store.writing accentWriters) (Store.Outsider (.ofLocation [DocumentStore.configName])) ⟨p₂,s₂⟩ ⟨p₃,s₃⟩ ∧
    Saved (accented (bytes "blue")) (s₁.file [DocumentStore.configName]) ∧
    Saved (accented (bytes "teal")) (s₂.file [DocumentStore.configName]) ∧
    Saved (accented (bytes "rose")) (s₃.file [DocumentStore.configName]) ∧
    Shows (s₁.file [DocumentStore.configName]) inspected ∧ Shows (s₂.file [DocumentStore.configName]) measured ∧
    Shows (s₃.file [DocumentStore.configName]) opened ∧ Saved a (s₃.file [DocumentStore.configName]) ∧
    loadAcross Reference.library inspected measured opened (.ofLocation [DocumentStore.configName]) =
      .success ⟨normalized a,.file⟩ [] := by
  have hraced : Raced ⟨DocumentStore.bareHome,fun _ => []⟩ := ⟨fun _ _ => rfl,rfl,by simp⟩
  obtain ⟨r₁,s₁,hrun₁,hraced₁,hs₁⟩ := @Raced.next _ hraced
    (Store.writes (.ofLocation [DocumentStore.configName]) accentWriters) 0 rfl
  obtain ⟨r₂,s₂,hrun₂,hraced₂,hs₂⟩ := @Raced.next _ hraced₁ _ 1 (Function.update_of_ne one_ne_zero _ _)
  obtain ⟨r₃,s₃,hrun₃,hraced₃,hs₃⟩ := @Raced.next _ hraced₂ _ 2
    ((Function.update_of_ne (OfNat.ofNat_ne_one 2) _ _).trans (Function.update_of_ne two_ne_zero _ _))
  obtain ⟨inspected,h₁⟩ := hs₁.shows
  obtain ⟨measured,h₂⟩ := hs₂.shows
  obtain ⟨opened,h₃⟩ := hs₃.shows
  have hsome : s₁.file [DocumentStore.configName] ≠ none := by
    obtain ⟨m,octets,-,hf⟩ := hs₁.document
    simp [hf]
  have hraces := load_races Reference.permissive (Reference.conforms _) Store.bareHome_noLinks hrun₁ hrun₂ hrun₃
    ⟨[],rfl⟩ (hraced₃.written _) hraced₃.plain (.inl rfl) (fun i => (accents_written i).2) h₁ h₂ h₃
    (.ofLocation [DocumentStore.configName])
  obtain ⟨a,ha,hload⟩ := hraces.resolve_left (fun h => hsome h.1)
  exact ⟨_,_,_,s₁,s₂,s₃,inspected,measured,opened,a,hrun₁,hrun₂,hrun₃,hs₁,hs₂,hs₃,h₁,h₂,h₃,ha,hload⟩

end Readers
end HolonightConfig
