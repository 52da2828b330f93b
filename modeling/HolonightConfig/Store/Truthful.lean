import HolonightConfig.DocumentStore.Rivals
import HolonightConfig.Store.Atomic

/-! What a storage operation returns is what it did, under every schedule of faults. -/
namespace HolonightConfig
open Text Toml Posix Program

namespace DocumentStore
open Storage Document
variable (L : Library)

/-- The document a location held, or the whole document the request makes of it. -/
def OldOrNew (target : List Name) (request : Request) (old f : Option File) : Prop :=
  f = old ∨ ∃ current s, Holds old current.revision ∧ snapshotAt L target current.revision = some current ∧
    (patchFor L request current).status = .success ∧ (patchFor L request current).snapshot = some s ∧
    Holds f s.revision

/-- Of all but the target, at most directories above it and its lock file are new. -/
def Tidy (target : List Name) (t t' : Tree) : Prop :=
  ∀ q, q ≠ target → t'.file q = t.file q ∨
    (t.file q = none ∧ q <+: target.dropLast ∧ t'.isDirectory q = true) ∨
    (t.file q = none ∧ q = (lockPath target).components ∧ ∃ m, t'.file q = some (.regular m []))

theorem Grown.tidy {target : List Name} {t t₁ t' : Tree} (h : Grown target t t₁)
    (hothers : ∀ q, q ≠ target → t'.file q = t₁.file q) : Tidy target t t' := by
  intro q hq
  rw [Tree.isDirectory,hothers q hq]
  exact h q

/-- So it is but for a temporary file, where removing it may fail. -/
def TidyBut (removal : Prop) (target : List Name) (t t' : Tree) : Prop :=
  ∃ t₁, Tidy target t t₁ ∧ CleanedUp removal (IsTemporary target) t₁ t'

/-- A failure changes no document and shows none; else the document shown is there. -/
inductive Truthful (removal : Prop) (me : Process) (path : Path) (w : World) (r : SaveResult)
    (previous : Option DocumentSnapshot) (w' : World) : Prop
  | unresolved (h : r.Failed) (hp : previous = none) (hw : w' = w)
  | failed {target : List Name} (hT : resolveTarget w.tree me.current path = .ok target) (h : r.Failed)
      (hp : previous = none) (hfile : w'.tree.file target = w.tree.file target)
      (htidy : TidyBut removal target w.tree w'.tree)
  | updated {target : List Name} {s : DocumentSnapshot}
      (hT : resolveTarget w.tree me.current path = .ok target)
      (h : r.status = .success ∨ r.status = .durabilityFailure) (hs : r.snapshot = some s)
      (hfile : Holds (w'.tree.file target) s.revision)
      (hmode : ∀ f f', w.tree.file target = some f → w'.tree.file target = some f' →
        (fileMetadata f').permissions = (fileMetadata f).permissions)
      (htidy : Tidy target w.tree w'.tree)

section
variable {removal : Prop} {me : Process} {path : Path} {request : Request}

/-- A document in place is shown under the path asked for. -/
theorem InPlace.shown {patched r : SaveResult} {s : DocumentSnapshot} (h : InPlace path patched r)
    (hs : patched.snapshot = some s) : r.snapshot = some { s with path := path } := by
  rw [h.snapshot,hs]
  rfl

/-- What was settled under the lock is what the result says. -/
theorem Settled.truthful {target : List Name} {w w₁ w₂ w' : World} {r : SaveResult × Option DocumentSnapshot}
    (hT : resolveTarget w.tree me.current path = .ok target) (hgrown : Grown target w.tree w₁.tree)
    (h : Settled L removal me path target request w₁ r w₂) (htree : w₂.tree = w'.tree) :
    (r.1.Failed ∧ w'.tree.file target = w.tree.file target ∧ TidyBut removal target w.tree w'.tree) ∨
      Truthful removal me path w r.1 (stagedResult r).previous w' := by
  rw [← htree]
  have hsame : Tidy target w.tree w₁.tree := hgrown.tidy (fun _ _ => rfl)
  have hkept : ∀ f f', w.tree.file target = some f → w₁.tree.file target = some f' →
      (fileMetadata f').permissions = (fileMetadata f).permissions := by
    intro f f' hf hf'
    rw [hgrown.target,hf] at hf'
    cases hf'
    rfl
  cases h with
  | failed h hclean => exact .inl ⟨h,hclean.target.trans hgrown.target,_,hsame,hclean⟩
  | kept ha hm hb =>
    refine .inr (.updated hT (.inl ha.success) rfl ?_ ?_ ?_) <;> rw [← htree]
    · exact ha.holds
    · exact hkept
    · exact hsame
  | absent ha hm he =>
    obtain ⟨s,hs,hmissing,-,-⟩ := patchFor_success L ha.success
    refine .inr (.updated hT (.inl ha.success) hs ?_ ?_ ?_) <;> rw [← htree]
    · rcases ha.holds.cases with ⟨hf,-⟩ | ⟨-,-,he'⟩
      · rw [hf,hmissing hm]
        rfl
      · rw [he'] at he
        cases he
    · exact hkept
    · exact hsame
  | removed ha hm he hr hfile hothers hholder =>
    obtain ⟨s,hs,hmissing,-,-⟩ := patchFor_success L ha.success
    refine .inr (.updated hT hr.status (hr.shown hs) ?_ ?_ ?_) <;> rw [← htree]
    · rw [hfile,hmissing hm]
      rfl
    · rw [hfile]
      intro f f' _ hf'
      cases hf'
    · exact hgrown.tidy hothers
  | @replaced current s r w₂ m ha hm hs hb hr hname hfile hmode hothers hholder =>
    obtain ⟨s',hs',-,hexists,-⟩ := patchFor_success L ha.success
    cases hs.symm.trans hs'
    refine .inr (.updated hT hr.status (hr.shown hs) ?_ ?_ ?_) <;> rw [← htree]
    · rw [hfile]
      change s.revision = ⟨true,s.revision.bytes⟩
      rw [← hexists hm]
    · rw [hfile]
      intro f f' hf hf'
      cases hf'
      exact hmode f (hgrown.target.trans hf)
    · exact hgrown.tidy hothers

theorem stagedResult_failed {r : SaveResult × Option DocumentSnapshot} (h : r.1.Failed) :
    (stagedResult r).previous = none := by
  unfold stagedResult
  rw [if_neg (not_or.mpr h.status)]

theorem Outcome.truthful {w w' : World} {r : SaveResult × Option DocumentSnapshot}
    (h : Outcome L removal me path request w r w') : Truthful removal me path w r.1 (stagedResult r).previous w' := by
  rcases h with ⟨hf,rfl⟩ | ⟨target,hT,-,⟨hf,hgrown⟩ | ⟨-,-,w₁,w₂,hgrown,-,hset,htree⟩⟩
  · exact .unresolved hf (stagedResult_failed hf) rfl
  · exact .failed hT hf (stagedResult_failed hf) hgrown.target ⟨_,hgrown.tidy (fun _ _ => rfl),.inl rfl⟩
  · rcases hset.truthful L hT hgrown htree with ⟨hf,hfile,htidy⟩ | h
    · exact .failed hT hf (stagedResult_failed hf) hfile htidy
    · exact h

theorem Truthful.tidy {target : List Name} {w w' : World} {r : SaveResult}
    {before : Option DocumentSnapshot} (h : Truthful removal me path w r before w') (hs : r.status = .success)
    (hT : resolveTarget w.tree me.current path = .ok target) : Tidy target w.tree w'.tree := by
  cases h with
  | unresolved h => exact absurd hs h.status.1
  | failed _ h => exact absurd hs h.status.1
  | updated hT' _ _ _ _ htidy =>
    cases hT.symm.trans hT'
    exact htidy

variable (removal) in
/-- Every step of an update leaves the old document, or the whole new one. -/
theorem updateDocument_truthful (budget : ℕ) (w : World) :
    Ensures (failing removal me)
      (fun _ _ _ w' => ∀ target, resolveTarget w.tree me.current path = .ok target →
        OldOrNew L target request (w.tree.file target) (w'.tree.file target))
      (fun r w' => Truthful removal me path w r.1 (stagedResult r).previous w')
      (updateDocument L budget me path request) w := by
  have h := @updateDocument_faulty L me removal (fun f => ∀ target, resolveTarget w.tree me.current path = .ok target →
    OldOrNew L target request (w.tree.file target) f) w path request ?_ ?_ budget
  · refine (h.weaken (fun _ _ _ w' hk target hT => hk target hT target hT)).mono (fun r w' ho => ho.truthful L)
  · intro target hT target' hT'
    cases hT.symm.trans hT'
    exact .inl rfl
  · intro target hT t current s hfile ha hs f hf target' hT'
    cases hT.symm.trans hT'
    exact .inr ⟨current,s,hfile ▸ ha.holds,ha.snapshot,ha.success,hs,hf⟩

theorem Truthful.unstaged {w w' : World} {r : SaveResult} {before : Option DocumentSnapshot}
    (h : Truthful removal me path w r before w') : Truthful removal me path w r none w' := by
  cases h with
  | unresolved h hp hw => exact .unresolved h rfl hw
  | failed hT h hp hfile htidy => exact .failed hT h rfl hfile htidy
  | updated hT h hs hfile hmode htidy => exact .updated hT h hs hfile hmode htidy

end
end DocumentStore

namespace Store
open Storage Document DocumentStore
variable (L : Library)

/-- Saving, staging and restoring tell what they did: a failure leaves the target alone,
shows no document and leaves no temporary file unless removing it fails, and a document shown is the
target's, with the permissions of the one before. Writing the strict document leaves the destination alone
or puts the whole document there. Between two calls the old document stands or the new. -/
theorem storage_truthful (removal : Prop) (budget : ℕ) (me : Process) (path : Path) (edits : EditBatch)
    (schema : DocumentSchema) (staged : DocumentRevision) (previous : DocumentSnapshot) (appearance : Appearance)
    (w : World) :
    Ensures (failing removal me)
      (fun _ _ _ w' => ∀ target, resolveTarget w.tree me.current path = .ok target →
        OldOrNew L target ⟨edits,schema,none,none⟩ (w.tree.file target) (w'.tree.file target))
      (fun r w' => Truthful removal me path w r none w')
      (saveDocument L budget me path edits schema) w ∧
    Ensures (failing removal me)
      (fun _ _ _ w' => ∀ target, resolveTarget w.tree me.current path = .ok target →
        OldOrNew L target ⟨edits,schema,none,none⟩ (w.tree.file target) (w'.tree.file target))
      (fun r w' => Truthful removal me path w r.result r.previous w')
      (stageDocument L budget me path edits schema) w ∧
    Ensures (failing removal me)
      (fun _ _ _ w' => ∀ target, resolveTarget w.tree me.current path = .ok target →
        OldOrNew L target ⟨[],schema,some staged,some previous⟩ (w.tree.file target) (w'.tree.file target))
      (fun r w' => Truthful removal me path w r none w')
      (restoreDocument L budget me path staged previous schema) w ∧
    Ensures (failing removal me)
      (fun _ _ _ w' => ∀ octets, (Codec.serialize appearance).value = some octets → Whole path octets w w')
      (fun r w' => (r.value = none ∧ GivenUp removal path w w') ∨
        ∃ octets, (Codec.serialize appearance).value = some octets ∧ r.value = some path ∧
          Placed me path octets w w')
      (writeAtomically budget appearance path) w := by
  refine ⟨?_,?_,?_,writeAtomically_faulty removal budget me appearance path w⟩
  · exact ensures_bind (updateDocument_truthful L removal budget w) (fun r w' h => h.unstaged)
  · exact ensures_bind (updateDocument_truthful L removal budget w) (fun r w' h => h)
  · exact ensures_bind (updateDocument_truthful L removal budget w) (fun r w' h => h.unstaged)

end Store

namespace DocumentStore
open Storage Document

/-! ### A temporary file that stays -/

section
variable {L : Library} {me : Process} {path : Path} {target : List Name} {w : World} {current : DocumentSnapshot}

/-- The write fails, and so does the removal after it. -/
theorem replaceDocument_leaves (h : Standing L me path target w.tree current) (hmissing : current.revision.exists_ = false)
    (hname : FreeName target w.tree) {patched : SaveResult}
    (hne : (patched.snapshot.map (fun s => s.revision.bytes)).getD [] ≠ []) (budget : ℕ) :
    ∃ r w' suffix, Reaches (faulty me) (replaceDocument L (budget + 1) path target current patched) w (.ret r) w' ∧
      r.status = .storageFailure ∧ w'.tree.file (temporaryAt target suffix) ≠ none ∧
      w.tree.file (temporaryAt target suffix) = none ∧ w'.holder = w.holder := by
  obtain ⟨suffix,hsuffix,hfree⟩ := hname
  obtain ⟨c,octets,hoctets⟩ := List.exists_cons_of_ne_nil hne
  let file : Descriptor := ⟨target.dropLast,temporaryBase target ++ suffix⟩
  let temporary : Temporary := ⟨(Path.ofLocation target).parentPath.child (temporaryBase target ++ suffix),file⟩
  let w₁ := w.on (w.tree.put file.directory file.name (some (.regular ⟨temporaryMode,0,0⟩ [])))
  have hmade : faulty me w (.mkstemp (Path.ofLocation target).parentPath (temporaryBase target)) (.ok temporary) w₁ :=
    .inl ⟨suffix,⟨temporaryMode,0,0⟩,hsuffix,rfl,rfl,h.entry _,hfree,rfl⟩
  have hwrite : faulty me w₁ (.write file (c :: octets)) (.error (.other [])) w₁ := .inr ⟨.inl ⟨_,rfl⟩,rfl⟩
  have hremove : faulty me w₁ (.remove temporary.path) () w₁ := .inr ⟨trivial,rfl⟩
  have hthere : w₁.tree.file (temporaryAt target suffix) = some (.regular ⟨temporaryMode,0,0⟩ []) := by
    refine Tree.file_put_self h.directory ?_ _
    rw [Tree.isDirectory]
    exact (congrArg (Option.any _) hfree).trans rfl
  have hreach : Reaches (faulty me) (replaceDocument L (budget + 1) path target current patched) w
      (.ret (storageError (bytes "write configuration temporary file") (.other []) path)) w₁ := by
    unfold replaceDocument inspectTarget
    rw [if_neg (by simp [hmissing]),hoctets]
    exact reaches_perform hmade (reaches_perform hwrite (reaches_perform hremove .start))
  exact ⟨_,w₁,suffix,hreach,rfl,by rw [hthere]; simp,hfree,rfl⟩

/-- So it goes under the lock. -/
theorem lockTaken_leaves (h : Standing L me path target w.tree current) (hmissing : current.revision.exists_ = false)
    (hname : FreeName target w.tree) {edits : EditBatch} {schema : DocumentSchema}
    (hs : (patchDocument L current edits schema).status = .success)
    (hne : ((patchDocument L current edits schema).snapshot.map (fun s => s.revision.bytes)).getD [] ≠ [])
    (hempty : current.revision.bytes = []) (budget : ℕ) :
    ∃ r w' suffix, Reaches (faulty me) (lockTaken L (budget + 1) path target ⟨edits,schema,none,none⟩) w (.ret r) w' ∧
      r.1.status = .storageFailure ∧ w'.tree.file (temporaryAt target suffix) ≠ none ∧
      w.tree.file (temporaryAt target suffix) = none := by
  obtain ⟨r,w₁,suffix,hreach,hr,hthere,hfree,-⟩ := replaceDocument_leaves h hmissing hname hne budget
  have hresolved : faulty me w (.resolve .locked path) (.ok target) w := .inl ⟨rfl,h.resolved.symm⟩
  have hread : faulty me w (.read .locked (.ofLocation target)) (reading w.tree target) w :=
    .inl ⟨rfl,by rw [Path.absolute_ofLocation]⟩
  have hchanged : (patchFor L ⟨edits,schema,none,none⟩ current).snapshot.map (fun s => s.revision.bytes) ≠
      some current.revision.bytes := by
    rw [hempty]
    intro he
    have he : (patchDocument L current edits schema).snapshot.map (fun s => s.revision.bytes) = some [] := he
    rw [he] at hne
    exact hne rfl
  have hlocked : Reaches (faulty me) (updateLocked L (budget + 1) path target ⟨edits,schema,none,none⟩) w
      (.ret (r,some current)) w₁ := by
    refine reaches_perform hresolved ?_
    dsimp only
    rw [if_neg (by simp)]
    refine reaches_perform hread ?_
    rw [h.read]
    dsimp only
    rw [if_neg (by simp),if_neg (by simp),if_neg (by simpa [patchFor] using hs),if_neg hchanged]
    exact reaches_bind hreach .start
  have hunlock : faulty me w₁ (.unlock (lockPath target)) () (if w₁.holder ((lockPath target).absolute me.current) =
      some me.id then w₁.hold ((lockPath target).absolute me.current) none else w₁) := .inl rfl
  refine ⟨(r,some current),_,suffix,reaches_bind hlocked (reaches_perform hunlock .start),hr,?_,hfree⟩
  split <;> exact hthere

end

/-- Where writing fails and removing the temporary file does too, a save leaves it. -/
theorem saveDocument_leaves_temporary : ∃ r w', Reaches (faulty ⟨0,[]⟩)
    (saveDocument Reference.library kMaximumDocumentBytes ⟨0,[]⟩ homePath setX anyDocument) lockedHome (.ret r) w' ∧
    r.status = .storageFailure ∧
    (∃ suffix, lockedHome.tree.file (temporaryAt [configName] suffix) = none ∧
      w'.tree.file (temporaryAt [configName] suffix) ≠ none) ∧
    ¬ Truthful False ⟨0,[]⟩ homePath lockedHome r none w' := by
  have hfacts : (patchDocument Reference.library (.missing homePath) setX anyDocument).status = .success ∧
      ((patchDocument Reference.library (.missing homePath) setX anyDocument).snapshot.map
        (fun s => s.revision.bytes)).getD [] ≠ [] := by decide +kernel
  obtain ⟨hs,hne⟩ := hfacts
  have hstand := lockedHome_standing Reference.library
  have hpath : ¬ (homePath.isEmpty ∨ homePath.filename = []) := by decide +kernel
  have hname : FreeName [configName] lockedHome.tree := ⟨bytes "aaaaaa",by decide +kernel,by decide +kernel⟩
  have hlocks := @updateDocument_locks Reference.library ⟨0,[]⟩ homePath [configName] (.missing homePath)
    ⟨setX,anyDocument,none,none⟩ lockedHome hpath hstand rfl lockedHome_ready (kMaximumDocumentBytes - 1)
  have hheld : Standing Reference.library ⟨0,[]⟩ homePath [configName]
    (lockedHome.hold (lockPath [configName]).components (some 0)).tree (.missing homePath) := hstand
  obtain ⟨r,w',suffix,hreach,hr,hthere,hfree⟩ := lockTaken_leaves hheld rfl hname hs hne rfl (kMaximumDocumentBytes - 1)
  have hfree : lockedHome.tree.file (temporaryAt [configName] suffix) = none := hfree
  have hupdate := (hlocks.mono (fun _ _ _ _ => .inl)).trans hreach
  refine ⟨r.1,w',hupdate.bind (fun r => Prog.ret r.1),hr,⟨suffix,hfree,hthere⟩,fun htruth => ?_⟩
  cases htruth with
  | unresolved _ _ hw => exact hthere (hw ▸ hfree)
  | @failed target hT _ _ _ htidy =>
    cases hT.symm.trans hstand.resolved
    obtain ⟨t,htidy,hclean⟩ := htidy
    obtain rfl : w'.tree = t := hclean.resolve_right (fun hc => hc.1)
    rcases htidy _ (temporaryAt_ne [configName] suffix) with he | ⟨-,hp,-⟩ | ⟨-,hl,-⟩
    · exact hthere (he.trans hfree)
    · have hnil : temporaryAt [configName] suffix = [] := List.prefix_nil.mp hp
      simp [temporaryAt] at hnil
    · exact temporaryAt_ne_lock [configName] suffix hl
  | updated _ h =>
    rw [hr] at h
    simp at h

end DocumentStore
end HolonightConfig
