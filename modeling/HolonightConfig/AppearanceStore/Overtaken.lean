import HolonightConfig.AppearanceStore.Concurrent
import HolonightConfig.AppearanceStore.Racing

/-! Reading without the lock while documents are edited: a read ends with what is there when the file
is opened, or a rollback has taken the file away meanwhile. -/
namespace HolonightConfig
open Text Toml Posix Program

namespace Readers
open Storage Document Change

section
variable (L : Library)

/-- `readDocument`, where the path is looked at, its link is and the file is opened at three times. -/
def readAcross (stated linked opened : PathState) (path : Path) : Result DocumentSnapshot :=
  if (stated.status.1 = .notFound ∧ (stated.status.2 = none ∨ stated.status.2 = some .noEntry)) ∧ !linked.isSymlink then
    .success (.missing path) []
  else if stated.status.2.isSome ∨ stated.status.1 ≠ .regular then
    .failure [ioError (bytes "configuration is not a readable regular file") path]
  else
    match opened.open_ with
    | none => .failure [ioError (bytes "cannot open configuration file") path]
    | some (chunks,bad) =>
      let read := takeChunks bad [] chunks
      if read.2 then .failure [ioError (bytes "cannot read configuration file") path]
      else Document.parseDocument L read.1 path

/-- `readAppearanceDocument` of such a read. -/
def readAppearanceAcross (stated linked opened : PathState) (path : Path) : Result AppearanceDocument :=
  decodeSnapshot L (readAcross L stated linked opened path)

/-- At one time it is `readAppearanceDocument`. -/
theorem readAppearanceAcross_self (s : PathState) (path : Path) :
    readAppearanceAcross L s s s path = readAppearanceDocument L s path := rfl

end

/-- A failure of the storage, not of the document. -/
def FailsToRead {α : Type} (r : Result α) : Prop := ∃ d, r = .failure [d] ∧ d.code = .ioError

section
variable {L : Library} {f₁ f₂ f₃ : Option File} {first second third : PathState} {path : Path}

theorem loads_document {m : Metadata} {octets : Bytes} (h : AppearanceStore.Loads L path (some (.regular m octets))) :
    octets.length ≤ kMaximumDocumentBytes ∧ ∃ d, (decodeSnapshot L (parseDocument L octets path)).value = some d ∧
      (AppearanceStore.decodeRead L path (AppearanceStore.contentOf (some (.regular m octets)))).value = some d := by
  have hread : AppearanceStore.decodeRead L path (AppearanceStore.contentOf (some (.regular m octets))) =
      decodeSnapshot L (parseDocument L octets path) := by
    rw [← DocumentStore.parseDocument_readChunks]
    rfl
  obtain ⟨d,hd⟩ := Option.isSome_iff_exists.mp h
  refine ⟨?_,d,hread ▸ hd,hd⟩
  by_contra hlong
  rw [hread,decodeSnapshot,parseDocument_tooLarge (Nat.not_le.mp hlong)] at hd
  cases hd

/-- Chunks of a document that is not too long are all of it. -/
theorem takeChunks_whole {octets : Bytes} (input : Input octets) (hb : input.bad = false)
    (hlength : octets.length ≤ kMaximumDocumentBytes) : takeChunks input.bad [] input.chunks = (octets,false) := by
  rcases takeChunks_eq input.bad [] input.chunks with h | ⟨-,hlong⟩
  · rw [h,List.nil_append,input.whole hb,hb]
  · rw [List.nil_append,input.whole hb] at hlong
    omega

theorem loadChunks_whole {octets : Bytes} (input : Input octets) (hb : input.bad = false)
    (hlength : octets.length ≤ kMaximumDocumentBytes) :
    loadChunks L input.chunks input.bad path = loadDocument L octets path := by
  rw [loadChunks_eq,input.whole hb,if_neg (Nat.not_lt.mpr hlength),hb,if_neg Bool.false_ne_true]

/-- What `load` makes of a file that loads whenever it is looked at, and may be gone the next time. -/
theorem loadAcross_loads (h₁ : Shows f₁ first) (hsome : f₁ ≠ none) (h₂ : Shows f₂ second)
    (hl₂ : AppearanceStore.Loads L path f₂) (h₃ : Shows f₃ third) (hl₃ : AppearanceStore.Loads L path f₃) :
    ((f₂ = none ∨ f₃ = none) ∧ FailsToRead (loadAcross L first second third path)) ∨
    (f₃ ≠ none ∧ ∃ d, (AppearanceStore.decodeRead L path (AppearanceStore.contentOf f₃)).value = some d ∧
      (loadAcross L first second third path).value = some ⟨d.appearance,.file⟩) := by
  cases h₁ with
  | missing => exact absurd rfl hsome
  | regular m₁ input₁ hb₁ link₁ =>
    cases h₂ with
    | missing => exact .inl ⟨.inl rfl,_,rfl,rfl⟩
    | @regular m₂ octets₂ input₂ hb₂ link₂ =>
      have hsize : ¬ kMaximumDocumentBytes < octets₂.length := Nat.not_lt.mpr (loads_document hl₂).1
      cases h₃ with
      | missing link₃ =>
        refine .inl ⟨.inr rfl,Store.fileDiagnostic .ioError (bytes "failed to open appearance file") path,?_,rfl⟩
        change (if kMaximumDocumentBytes < octets₂.length then _ else _) = _
        rw [if_neg hsize]
      | @regular m₃ octets₃ input₃ hb₃ link₃ =>
        obtain ⟨hlength,d,hd,hread⟩ := loads_document hl₃
        refine .inr ⟨by simp,d,hread,?_⟩
        have hacross : loadAcross L ⟨.ok (.regular _ (some input₁)),link₁⟩ ⟨.ok (.regular octets₂ (some input₂)),link₂⟩
            ⟨.ok (.regular octets₃ (some input₃)),link₃⟩ path = loadDocument L octets₃ path := by
          change (if kMaximumDocumentBytes < octets₂.length then _ else loadChunks L input₃.chunks input₃.bad path) = _
          rw [if_neg hsize,loadChunks_whole input₃ hb₃ hlength]
        have hagree := @agree_document L octets₃ path
        obtain ⟨loaded,hloaded⟩ := Option.isSome_iff_exists.mp (hagree.success.trans (by rw [hd]; rfl))
        rw [hacross,hloaded]
        obtain ⟨appearance,origin⟩ := loaded
        obtain rfl := hagree.appearance _ _ hloaded hd
        cases origin with
        | file => rfl
        | default =>
          obtain ⟨d',hd',hmissing⟩ := hagree.origin.mp ⟨_,hloaded,rfl⟩
          unfold decodeSnapshot at hd'
          cases hp : (parseDocument L octets₃ path).value with
          | none => simp [hp,Result.failure] at hd'
          | some snapshot =>
            simp only [hp] at hd'
            rw [decode_snapshot hd',(parseDocument_some L hp).2] at hmissing
            cases hmissing

/-- What `readAppearanceDocument` makes of it. -/
theorem readAppearanceAcross_loads (h₁ : Shows f₁ first) (hsome : f₁ ≠ none) (h₃ : Shows f₃ third)
    (hl₃ : AppearanceStore.Loads L path f₃) :
    (f₃ = none ∧ FailsToRead (readAppearanceAcross L first second third path)) ∨
    (f₃ ≠ none ∧ ∃ d, (AppearanceStore.decodeRead L path (AppearanceStore.contentOf f₃)).value = some d ∧
      (readAppearanceAcross L first second third path).value = some d) := by
  cases h₁ with
  | missing => exact absurd rfl hsome
  | regular m₁ input₁ hb₁ link₁ =>
    cases h₃ with
    | missing link₃ => exact .inl ⟨rfl,_,rfl,rfl⟩
    | @regular m₃ octets₃ input₃ hb₃ link₃ =>
      obtain ⟨hlength,d,hd,hread⟩ := loads_document hl₃
      refine .inr ⟨by simp,d,hread,?_⟩
      change (decodeSnapshot L (if (takeChunks input₃.bad [] input₃.chunks).2 then _ else
        parseDocument L (takeChunks input₃.bad [] input₃.chunks).1 path)).value = _
      rw [takeChunks_whole input₃ hb₃ hlength]
      exact hd

end
end Readers

/-! ### Editors meanwhile -/

namespace AppearanceStore
open Storage Document DocumentStore AppearanceDocument Change Readers

section
variable {ι : Type} [DecidableEq ι] (L : Library) (target : List Name) (editors : ι → Editor)

/-- Between two times somebody removed the target: another program, or the rollback to a document that was not
there. -/
def Removed (s s' : Ledger ι) : Prop :=
  ∃ later, s'.changes = s.changes ++ later ∧ ∃ e ∈ later, e.before ≠ none ∧ e.after = none ∧
    ∀ i, e.who = some i → ∃ staged previous, (editors i).action = .restore staged previous ∧
      previous.revision.exists_ = false

/-- How a read ends that began at one time and opened the file at another, where others edit: as without a file,
where none was there at first; with a failure to read, where it was removed meanwhile; or with the document
that was there in the end. -/
def Overtaken {α : Type} (path : Path) (s s' : Ledger ι) (absent : Result α) (made : AppearanceDocument → α)
    (r : Result α) : Prop :=
  (document target s.world = none ∧ r = absent) ∨ (Removed editors s s' ∧ FailsToRead r) ∨
  (document target s'.world ≠ none ∧ ∃ d, (decodeRead L path (contentOf (document target s'.world))).value = some d ∧
    r.value = some (made d))

end

section
variable {L : Library} {target : List Name} {ι : Type} [DecidableEq ι] {editors : ι → Editor} {w : World}

theorem changes_kept {request : Request} {x y : Pool ι Call Call.Answer SaveResult (Ledger ι)}
    (hr : Pool.Run (cooperating target (asked editors request)) (Outsider target) x y) :
    x.state.changes <+: y.state.changes := by
  refine @Pool.Run.keeps _ _ _ _ _ _ _ _ _ _ hr (fun s s' => s.changes <+: s'.changes) ?_ ?_ ?_ ?_
  · exact fun s => List.prefix_refl _
  · exact fun h h' => h.trans h'
  · intro i s c r s' hs
    rw [hs.2.2.1]
    exact prefix_note _ _ _ _
  · intro s s' ho
    rw [ho.changes]
    exact prefix_note _ _ _ _

omit [DecidableEq ι] in
/-- Only the rollback to a document that was not there leaves none. -/
theorem edition_removes {i : ι} {before : Option File} (h : Edition L target editors (some i) before none) :
    ∃ staged previous, (editors i).action = .restore staged previous ∧ previous.revision.exists_ = false := by
  obtain ⟨request,current,hrequest,happ⟩ := h
  have hm : restoresMissing request = true := by
    by_contra hm
    obtain ⟨m,s,-,-,hafter⟩ := happ.replaces (by simpa using hm)
    cases hafter
  generalize ha : (editors i).action = action at hrequest
  cases hrequest with
  | save => cases hm
  | stage => cases hm
  | restore staged previous => exact ⟨staged,previous,rfl,by simpa [restoresMissing] using hm⟩

section
variable {p₁ p₂ p₃ : ι → Command SaveResult} {s₁ s₂ s₃ : Ledger ι}

/-- Where the target is gone, it was removed. -/
theorem removed_of_gone (hid : ∀ i j, (editors i).me.id = (editors j).me.id → i = j)
    (hfree : w.holder (lockPath target).components = none) (hr₁ : Editions L target editors w p₁ s₁)
    (hr₂ : Pool.Run (cooperating target (asked editors nothing)) (Outsider target) ⟨p₁,s₁⟩ ⟨p₂,s₂⟩)
    (hthere : document target s₁.world ≠ none) (hgone : document target s₂.world = none) :
    Removed editors s₁ s₂ := by
  obtain ⟨later,hlater⟩ := changes_kept hr₂
  obtain ⟨b,hb,hrest⟩ := (hlater ▸ Editions.serial hid hfree (hr₁.trans hr₂)).split
  obtain rfl := hb.unique (Editions.serial hid hfree hr₁)
  obtain ⟨e,he,hbefore,hafter,hop⟩ := @Serial.undone _ _ _ _ _ _ hrest (fun f => f ≠ none) hthere (not_not.mpr hgone)
  have hnone := not_not.mp hafter
  refine ⟨later,hlater.symm,e,he,hbefore,hnone,fun i hi => ?_⟩
  rw [hi,hnone] at hop
  exact edition_removes hop

omit [DecidableEq ι] in
theorem Removed.mono {s s' s'' : Ledger ι} (h : Removed editors s s') (hp : s'.changes <+: s''.changes) :
    Removed editors s s'' := by
  obtain ⟨later,hlater,e,he,hremoved⟩ := h
  obtain ⟨more,hmore⟩ := hp
  exact ⟨later ++ more,by rw [← hmore,hlater,List.append_assoc],e,List.mem_append_left _ he,hremoved⟩

variable (hL : L.Permissive) (hC : L.Conforms kMaximumDocumentBytes)
include hL hC

/-- However many edits overtake them, both readers end with nothing, a removal or a whole document. -/
theorem reads_overtaken (hid : ∀ i j, (editors i).me.id = (editors j).me.id → i = j)
    (hfree : w.holder (lockPath target).components = none) (hr₁ : Editions L target editors w p₁ s₁)
    (hr₂ : Pool.Run (cooperating target (asked editors nothing)) (Outsider target) ⟨p₁,s₁⟩ ⟨p₂,s₂⟩)
    (hr₃ : Pool.Run (cooperating target (asked editors nothing)) (Outsider target) ⟨p₂,s₂⟩ ⟨p₃,s₃⟩)
    {path : Path} (hstart : Loads L path (document target w))
    (hothers : ∀ e ∈ s₃.changes, e.who = none → Loads L path e.after) {first second third : PathState}
    (h₁ : Shows (document target s₁.world) first) (h₂ : Shows (document target s₂.world) second)
    (h₃ : Shows (document target s₃.world) third) (hlink : second.isSymlink = false) :
    Overtaken L target editors path s₁ s₃ (.success ⟨defaults,.default⟩
      [⟨.missing,.info,bytes "appearance file is missing; shared defaults are active",some path,none⟩])
      (fun d => ⟨d.appearance,.file⟩) (loadAcross L first second third path) ∧
    Overtaken L target editors path s₁ s₃ (decodeAppearanceDocument L (.missing path)) (fun d => d)
      (readAppearanceAcross L first second third path) := by
  by_cases hnone : document target s₁.world = none
  · refine ⟨.inl ⟨hnone,loadAcross_missing (hnone ▸ h₁) path⟩,.inl ⟨hnone,?_⟩⟩
    rw [hnone] at h₁
    cases h₁
    unfold readAppearanceAcross readAcross
    rw [if_pos ⟨⟨rfl,.inr rfl⟩,by rw [hlink]; rfl⟩]
    rfl
  have hgrown := changes_kept hr₃
  -- At each of the three times the target can be read.
  have hloads : ∀ {p : ι → Command SaveResult} {s : Ledger ι}, Editions L target editors w p s →
      s.changes <+: s₃.changes → Loads L path (document target s.world) := fun hr hp =>
    serial_loads hL hC (Editions.serial hid hfree hr) hstart (fun e he => hothers e (hp.subset he))
  have hl₂ := hloads (hr₁.trans hr₂) hgrown
  have hl₃ := hloads ((hr₁.trans hr₂).trans hr₃) (List.prefix_refl _)
  have hremoved : document target s₂.world = none ∨ document target s₃.world = none → Removed editors s₁ s₃ := by
    rintro (hgone | hgone)
    · exact (removed_of_gone hid hfree hr₁ hr₂ hnone hgone).mono hgrown
    · exact removed_of_gone hid hfree hr₁ (hr₂.trans hr₃) hnone hgone
  constructor
  · rcases loadAcross_loads h₁ hnone h₂ hl₂ h₃ hl₃ with ⟨hgone,hfails⟩ | hread
    · exact .inr (.inl ⟨hremoved hgone,hfails⟩)
    · exact .inr (.inr hread)
  · rcases readAppearanceAcross_loads h₁ hnone h₃ hl₃ with ⟨hgone,hfails⟩ | hread
    · exact .inr (.inl ⟨hremoved (.inr hgone),hfails⟩)
    · exact .inr (.inr hread)

end
end

/-! ### Three saves, one between any two looks -/

/-- The accent of the save before is set to the next one. -/
def accentEdit : ℕ → EditBatch
  | 0 => [⟨[bytes "theme",bytes "accent"],none,some (.string (accents 0))⟩]
  | i + 1 => [⟨[bytes "theme",bytes "accent"],some (.string (accents i)),some (.string (accents (i + 1)))⟩]

def accentEditors (i : ℕ) : Editor := ⟨⟨i,[]⟩,homePath,.save (accentEdit i),kMaximumDocumentBytes⟩

def accentSave (current : DocumentSnapshot) (i : ℕ) : SaveResult :=
  patchDocument Reference.library current (accentEdit i ++ [versionEdit current])
    (appearanceDocumentSchema Reference.library)

/-- The document after so many saves. -/
def accentDocument : ℕ → DocumentSnapshot
  | 0 => .missing homePath
  | i + 1 => (accentSave (accentDocument i) i).snapshot.getD (.missing homePath)

theorem accentDocument_saves : ∀ i < 3, (accentSave (accentDocument i) i).status = .success ∧
    (accentSave (accentDocument i) i).snapshot = some (accentDocument (i + 1)) ∧
    (accentDocument (i + 1)).revision.exists_ = true ∧
    (accentDocument (i + 1)).revision.bytes.length ≤ kMaximumDocumentBytes ∧
    (accentDocument (i + 1)).revision.bytes ≠ (accentDocument i).revision.bytes ∧
    (decodeAppearanceDocument Reference.library (accentDocument i)).value.map AppearanceDocument.snapshot =
      some (accentDocument i) ∧ (accentEdit i).any (fun edit => edit.key = versionKey) = false := by
  decide +kernel

/-- A run goes on with the next of the saves. -/
theorem accentEditors_next {p : ℕ → Command SaveResult} {s : Ledger ℕ} {i : ℕ} (hi : i < 3)
    (hrun : Editions Reference.library [configName] accentEditors lockedHome p s)
    (hp : p i = programs Reference.library accentEditors i) (hwho : ∀ e ∈ s.changes, e.who ≠ none)
    (h : Savable Reference.library ⟨i,[]⟩ [configName] s.world (accentDocument i)) :
    ∃ r s', Pool.Run (cooperating [configName] (asked accentEditors nothing)) (Outsider [configName]) ⟨p,s⟩
        ⟨Function.update p i (.ret r),s'⟩ ∧ (∀ e ∈ s'.changes, e.who ≠ none) ∧
      Savable Reference.library ⟨i + 1,[]⟩ [configName] s'.world (accentDocument (i + 1)) := by
  obtain ⟨hs,hsnapshot,-,hlen,hne,hd,hedits⟩ := accentDocument_saves i hi
  obtain ⟨⟨snapshot,version,appearance⟩,hd,rfl⟩ := Option.map_eq_some_iff.mp hd
  obtain ⟨r,s',before,next,hrun',-,hup,-,more,hmore,hown⟩ := @Editions.saves Reference.library [configName] ℕ _
    accentEditors lockedHome p s i (fun _ _ h => h) rfl (lockedHome_standing Reference.library).physical.plain hrun hp
    rfl (accentEdit i) rfl _ h version appearance hd hedits hs
    (by rw [show (patchDocument _ _ _ _).snapshot = _ from hsnapshot]; exact hlen)
    (show 0 < kMaximumDocumentBytes by decide)
  refine ⟨r,s',hrun',fun e he => ?_,?_⟩
  · rw [hmore] at he
    rcases List.mem_append.mp he with he | he
    · exact hwho e he
    · simp [hown e he]
  · rcases hup.kept with ⟨-,hb⟩ | ⟨hnext,-,hname⟩
    · rw [show (patchDocument _ _ _ _).snapshot = _ from hsnapshot] at hb
      exact absurd (Option.some.inj hb) hne
    · cases hnext.symm.trans hsnapshot
      have hstand := hup.standing
      exact ⟨⟨hstand.resolved,hstand.directory,hstand.holds,hstand.snapshot⟩,hup.ready.lockable,hname⟩

/-- Who looks at a document that is there sees it. -/
theorem Savable.shows {L : Library} {me : Process} {target : List Name} {w : World} {current : DocumentSnapshot}
    (h : Savable L me target w current) (he : current.revision.exists_ = true) :
    ∃ m, document target w = some (.regular m current.revision.bytes) ∧ Shows (document target w)
      ⟨.ok (.regular current.revision.bytes (some ⟨[current.revision.bytes],false,by simp,by simp⟩)),false⟩ := by
  rcases h.standing.holds.cases with ⟨-,hr⟩ | ⟨m,hf,-⟩
  · rw [hr] at he
    cases he
  · refine ⟨m,hf,?_⟩
    rw [show document target w = _ from hf]
    exact .regular m ⟨[current.revision.bytes],false,by simp,by simp⟩ rfl false

/-- Both readers begin after the first save, the second comes between, and they open the file after the third. -/
theorem reads_overtaken_home : ∃ p₁ p₂ p₃ s₁ s₂ s₃ first second third d,
    Editions Reference.library [configName] accentEditors lockedHome p₁ s₁ ∧
    Pool.Run (cooperating [configName] (asked accentEditors nothing)) (Outsider [configName]) ⟨p₁,s₁⟩ ⟨p₂,s₂⟩ ∧
    Pool.Run (cooperating [configName] (asked accentEditors nothing)) (Outsider [configName]) ⟨p₂,s₂⟩ ⟨p₃,s₃⟩ ∧
    Holds (document [configName] s₁.world) (accentDocument 1).revision ∧
    Holds (document [configName] s₂.world) (accentDocument 2).revision ∧
    Holds (document [configName] s₃.world) (accentDocument 3).revision ∧
    Shows (document [configName] s₁.world) first ∧ Shows (document [configName] s₂.world) second ∧
    Shows (document [configName] s₃.world) third ∧ d.appearance.theme.accent = accents 2 ∧
    (loadAcross Reference.library first second third homePath).value = some ⟨d.appearance,.file⟩ ∧
    (readAppearanceAcross Reference.library first second third homePath).value = some d := by
  have hzero : Savable Reference.library ⟨0,[]⟩ [configName] lockedHome (accentDocument 0) := lockedHome_savable
  obtain ⟨r₁,s₁,hrun₁,hwho₁,hs₁⟩ := @accentEditors_next _ ⟨lockedHome,[],false⟩ 0 (by decide) .refl rfl (by simp) hzero
  obtain ⟨r₂,s₂,hrun₂,hwho₂,hs₂⟩ := @accentEditors_next _ s₁ 1 (by decide) hrun₁
    (Function.update_of_ne one_ne_zero _ _) hwho₁ hs₁
  obtain ⟨r₃,s₃,hrun₃,hwho₃,hs₃⟩ := @accentEditors_next _ s₂ 2 (by decide) (hrun₁.trans hrun₂)
    ((Function.update_of_ne (OfNat.ofNat_ne_one 2) _ _).trans (Function.update_of_ne two_ne_zero _ _)) hwho₂ hs₂
  obtain ⟨m₁,hf₁,h₁⟩ := hs₁.shows (accentDocument_saves 0 (by decide)).2.2.1
  obtain ⟨m₂,hf₂,h₂⟩ := hs₂.shows (accentDocument_saves 1 (by decide)).2.2.1
  obtain ⟨m₃,hf₃,h₃⟩ := hs₃.shows (accentDocument_saves 2 (by decide)).2.2.1
  have hsome : document [configName] s₁.world ≠ none := by simp [hf₁]
  have hkept : ¬ Removed accentEditors s₁ s₃ := by
    rintro ⟨later,hlater,e,he,-,-,hremoves⟩
    cases hw : e.who with
    | none => exact hwho₃ e (hlater ▸ List.mem_append_right _ he) hw
    | some i =>
      obtain ⟨staged,previous,ha,-⟩ := hremoves i hw
      cases ha
  have hmissing : Loads Reference.library homePath (document [configName] lockedHome) := by
    rw [lockedHome_document]
    unfold Loads
    decide +kernel
  obtain ⟨hload,hread⟩ := reads_overtaken Reference.permissive (Reference.conforms _) (fun _ _ h => h) rfl hrun₁ hrun₂
    hrun₃ hmissing (fun e he hnone => absurd hnone (hwho₃ e he)) h₁ h₂ h₃ rfl
  obtain ⟨-,d,hd,hload⟩ := (hload.resolve_left (fun h => hsome h.1)).resolve_left (fun h => hkept h.1)
  obtain ⟨-,d',hd',hread⟩ := (hread.resolve_left (fun h => hsome h.1)).resolve_left (fun h => hkept h.1)
  obtain rfl := Option.some.inj (hd.symm.trans hd')
  refine ⟨_,_,_,s₁,s₂,s₃,_,_,_,d,hrun₁,hrun₂,hrun₃,hs₁.standing.holds,hs₂.standing.holds,hs₃.standing.holds,h₁,h₂,h₃,?_,
    hload,hread⟩
  have haccent : (decodeRead Reference.library homePath (.content (accentDocument 3).revision.bytes)).value.map
      (fun d => d.appearance.theme.accent) = some (accents 2) := by decide +kernel
  rw [hf₃] at hd
  change (decodeRead _ homePath (contentOf (some (.regular m₃ _)))).value.map _ = _ at haccent
  rw [hd] at haccent
  exact Option.some.inj haccent

end AppearanceStore
end HolonightConfig
