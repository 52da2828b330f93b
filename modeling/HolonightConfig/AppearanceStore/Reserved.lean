import HolonightConfig.AppearanceStore.Loadable
import HolonightConfig.DocumentStore.Rivals
import HolonightConfig.DocumentStore.WellFormed
import HolonightConfig.Store.Truthful

/-! The reserved version edit, and the conflicts that saving an appearance reports. -/
namespace HolonightConfig
open Text Toml Posix Program

namespace AppearanceStore
open Storage Document DocumentStore AppearanceDocument
variable (L : Library)

/-- The version that a read of the path finds. -/
def versionRead (path : Path) (found : FileContent) : Option Value :=
  (readDocument L path found).value.bind (fun s => s.value versionKey)

/-- Any answers at all, and so any steps of other writers in between, but that a document that
is read under the lock has the version the first read found, or the one every edit sets. -/
def steady : Semantics Call Call.Answer (Option (Option Value))
  | first,.read .before path,found,first' => first' = some (first.getD (versionRead L path found))
  | first,.read .locked path,found,first' => first' = first ∧
    ∀ current, (readDocument L path found).value = some current →
      (Value.same (current.value versionKey) (some (.integer kEditingDocumentVersion)) = true ∨
        ∃ version, first = some version ∧ Value.same (current.value versionKey) version = true)
  | first,_,_,first' => first' = first

/-- Every conflict is about a key of the batch. -/
def Asked (edits : EditBatch) (r : SaveResult) : Prop := ∀ c ∈ r.conflicts, ∃ edit ∈ edits, c.key = edit.key

section
variable {L}

theorem closed_asked (edits : EditBatch) : Closed (Asked edits) where
  failure := by
    intro status h message path c hc
    cases hc
  sync := by
    intro sem patched hp hs message path target
    refine ensures_perform (fun r _ _ => ⟨trivial,?_⟩)
    cases r with
    | error e =>
      intro c hc
      cases hc
    | ok u => exact hp
  kept := fun hp _ => hp

theorem asked_unreadable (edits : EditBatch) (ds : List Diagnostic) : Asked edits (unreadable ds) := by
  intro c hc
  cases hc

/-- A document is read as it was found. -/
theorem decodeRead_version {path : Path} {found : FileContent} {document : AppearanceDocument}
    (h : (decodeRead L path found).value = some document) :
    document.snapshot.value versionKey = versionRead L path found := by
  unfold decodeRead at h
  dsimp only at h
  unfold versionRead
  split at h
  · cases h
  · next s hs =>
    rw [hs,Option.bind_some]
    suffices hsnap : document.snapshot = s by rw [hsnap]
    unfold decodeAppearanceDocument at h
    dsimp only at h
    split at h
    · cases h
      rfl
    · split at h
      · split at h
        · split at h
          · cases h
          · cases h
            rfl
        · split at h
          · cases h
          · split at h
            · cases h
            · split at h
              · cases h
              · cases h
                rfl
      · cases h

/-- Once a version was read, the calls do not change which one that is. -/
theorem steady_stays {version : Option Value} {c : Call} {r : c.Answer} {v : Option (Option Value)}
    (h : steady L (some version) c r v) : v = some version := by
  cases c with
  | read phase path =>
    cases phase with
    | locked => exact h.1
    | _ => exact h
  | _ => exact h

/-- A batch with the version edit conflicts in its own keys only, where the version is the
one read before or the one it sets. -/
theorem patchDocument_asked (hV : PrintsVersion L) {current document : DocumentSnapshot} {edits : EditBatch}
    {schema : DocumentSchema}
    (hv : Value.same (current.value versionKey) (some (.integer kEditingDocumentVersion)) = true ∨
      Value.same (current.value versionKey) (document.value versionKey) = true) :
    Asked edits (patchDocument L current (edits ++ [versionEdit document]) schema) := by
  intro c hc
  obtain ⟨batch,hn,edit',hm,hconf,rfl⟩ := patchDocument_conflicts_mem L current hc
  rw [normalizeEdits_value] at hn
  obtain ⟨edit,hmem,he⟩ := normalizeEdits_mem_of_mem L hn edit' hm
  have hkey := normalizeEdit_key L he
  rcases List.mem_append.mp hmem with hmem | hmem
  · exact ⟨edit,hmem,hkey⟩
  · rw [List.mem_singleton] at hmem
    subst hmem
    unfold normalizeEdit versionEdit at he
    dsimp only at he
    rw [hV] at he
    cases he
    rcases hv with hv | hv <;> simp [conflicting,hv] at hconf

end

section
variable {L : Library} {me : Process} {path : Path} {target : List Name} {w : World} {current : DocumentSnapshot}

/-- A staging of a document that loads comes to the staging of its edits and the version. -/
theorem stage_reaches {document : AppearanceDocument} {edits : EditBatch} (hpath : path.isEmpty = false)
    (h : Standing L me path target w.tree current)
    (hd : (decodeAppearanceDocument L current).value = some document)
    (he : edits.any (fun edit => edit.key = versionKey) = false) (budget : ℕ) :
    Reaches (faultless me) (stageAppearanceDocument L budget me path edits) w
      (stageDocument L budget me path (edits ++ [versionEdit document.snapshot]) (appearanceDocumentSchema L)) w := by
  have hresolve : Reaches (faultless me) (resolveDocumentTarget path) w (.ret (.success target [])) w := by
    unfold resolveDocumentTarget
    rw [if_neg (by simp [hpath])]
    exact @Reaches.step _ _ _ _ (faultless me) _ w (.resolve .before path) _ (.ok target) w w .start
      ⟨rfl,h.resolved.symm⟩
  have hread : Reaches (faultless me) (readAppearanceDocument L .before (.ofLocation target)) w
      (.ret (decodeRead L (.ofLocation target) (reading w.tree target))) w :=
    @Reaches.step _ _ _ _ (faultless me) _ w (.read .before (.ofLocation target)) _ (reading w.tree target) w w .start
      ⟨rfl,by rw [Path.absolute_ofLocation]⟩
  have hdec : (decodeRead L (.ofLocation target) (reading w.tree target)).value = some document := by
    unfold decodeRead
    dsimp only
    rw [h.read]
    exact hd
  refine (hresolve.bind _).trans ((hread.bind _).trans ?_)
  dsimp only [Bind.bind,Prog.bind]
  rw [hdec]
  dsimp only
  rw [if_neg (by simp [he])]
  exact .start

end

/-- In every run, whatever the other writers do, in which the document found under the lock
has the version read before or the one the edits set, no save or staging reports a conflict
in a key its caller did not ask for; a rollback reports none at all. -/
theorem appearance_conflicts_asked (hV : PrintsVersion L) (budget : ℕ) (me : Process) (path : Path)
    (edits : EditBatch) :
    Ensures (steady L) anyStep (fun r _ => Asked edits r) (saveAppearanceDocument L budget me path edits) none ∧
    Ensures (steady L) anyStep (fun r _ => Asked edits r.result)
      (stageAppearanceDocument L budget me path edits) none ∧
    ∀ staged previous schema, Ensures arbitrary anyStep (fun r _ => r.conflicts = [])
      (restoreDocument L budget me path staged previous schema) () := by
  have hstage : Ensures (steady L) anyStep (fun r _ => Asked edits r.result)
      (stageAppearanceDocument L budget me path edits) none := by
    unfold stageAppearanceDocument
    refine ensures_bind (P := fun _ s => s = none) ?_ (fun target s hs => ?_)
    · unfold resolveDocumentTarget
      split
      · rfl
      · refine ensures_perform (fun r s hs => ⟨trivial,?_⟩)
        cases r <;> exact hs
    subst hs
    split
    · intro c hc
      cases hc
    next location hl =>
    refine ensures_bind (P := fun r s => ∀ document, r.value = some document →
      s = some (document.snapshot.value versionKey)) ?_ (fun read s hs => ?_)
    · refine ensures_perform (fun found s hs => ⟨trivial,fun document hd => ?_⟩)
      rw [decodeRead_version hd]
      exact hs
    split
    · exact asked_unreadable edits _
    next document hd =>
    obtain rfl := hs document hd
    split
    · intro c hc
      cases hc
    -- What is left runs as if the first read had been a constant.
    have hrest := @ensures_updateDocument L
      (fun _ c r _ => steady L (some (document.snapshot.value versionKey)) c r
        (some (document.snapshot.value versionKey))) (Asked edits) (closed_asked edits)
      ⟨edits ++ [versionEdit document.snapshot],appearanceDocumentSchema L,none,none⟩
      (fun _ _ _ => asked_unreadable edits _) ?_ budget me path
    · refine ensures_bind (hrest.transport (fun c r v hv => ?_)) (fun r s hr => hr)
      obtain rfl := steady_stays hv
      exact ⟨rfl,hv,trivial⟩
    · intro path found current hsem hv
      exact patchDocument_asked hV ((hsem.2 current hv).imp id (fun ⟨version,h,hs⟩ => by cases h; exact hs))
  refine ⟨ensures_bind hstage (fun r s hr => hr),hstage,fun staged previous schema => ?_⟩
  have hrestore := @ensures_updateDocument L arbitrary (Asked []) (closed_asked [])
    ⟨[],schema,some staged,some previous⟩ (fun _ _ _ => asked_unreadable [] _) ?_ budget me path
  · refine ensures_bind hrestore (fun r s hr => List.eq_nil_iff_forall_not_mem.mpr (fun c hc => ?_))
    obtain ⟨edit,hm,-⟩ := hr c hc
    cases hm
  · intro path found current _ hv c hc
    change c ∈ (prepareRestore L previous schema).conflicts at hc
    unfold prepareRestore at hc
    dsimp only at hc
    split at hc
    · cases hc
    · split at hc <;> cases hc

/-- Staging one value where no file is. -/
theorem appearance_conflicts_asked_home :
    Ensures (steady Reference.library) anyStep (fun r _ => Asked setX r)
      (saveAppearanceDocument Reference.library kMaximumDocumentBytes ⟨0,[]⟩ homePath setX) none ∧
    Ensures (steady Reference.library) anyStep (fun r _ => Asked setX r.result)
      (stageAppearanceDocument Reference.library kMaximumDocumentBytes ⟨0,[]⟩ homePath setX) none ∧
    ∀ staged previous schema, Ensures arbitrary anyStep (fun r _ => r.conflicts = [])
      (restoreDocument Reference.library kMaximumDocumentBytes ⟨0,[]⟩ homePath staged previous schema) () :=
  appearance_conflicts_asked Reference.library (by unfold PrintsVersion; decide +kernel) kMaximumDocumentBytes ⟨0,[]⟩
    homePath setX

/-! ### A rollback between the two reads -/

/-- What an update leaves beside the target is what there was, where the lock file is there. -/
theorem tidy_home {t t' : Tree} (h : Tidy [configName] t t')
    (ht : ∀ q, q ≠ [configName] → t.file q = lockedHome.tree.file q) :
    ∀ q, q ≠ [configName] → t'.file q = lockedHome.tree.file q := by
  intro q hq
  rw [← ht q hq]
  rcases h q hq with he | ⟨hn,hp,-⟩ | ⟨hn,hl,-⟩
  · exact he
  · obtain rfl : q = [] := List.prefix_nil.mp hp
    have hroot := t.root
    rw [hn] at hroot
    cases hroot
  · have hlock : (lockPath [configName]).components = [configName ++ bytes ".lock"] := rfl
    rw [hl,hlock] at hq hn
    rw [ht _ hq,lockedHome_lock] at hn
    cases hn

/-- Without the document, and nothing else changed, everything is as it was at the start. -/
theorem home_again {w : World} (hothers : ∀ q, q ≠ [configName] → w.tree.file q = lockedHome.tree.file q)
    (hgone : Holds (w.tree.file [configName]) ⟨false,[]⟩) (hholder : w.holder = lockedHome.holder) : w = lockedHome := by
  have htree : w.tree = lockedHome.tree := by
    refine Tree.ext (fun q => ?_)
    by_cases hq : q = [configName]
    · subst hq
      rcases hgone.cases with ⟨h,-⟩ | ⟨m,-,h⟩
      · rw [h]
        decide +kernel
      · cases h
    · exact hothers q hq
  calc w = ⟨w.tree,w.holder⟩ := rfl
    _ = lockedHome := by rw [htree,hholder]

/-- What was put in place is read as a document of the version that edits set. -/
theorem Updated.decoded (hL : L.Permissive) (hC : L.Conforms kMaximumDocumentBytes) (hV : PrintsVersion L)
    {me : Process} {path : Path} {target : List Name} {edits : EditBatch} {w w' : World}
    {r : SaveResult × Option DocumentSnapshot} {document current next : DocumentSnapshot}
    (h : Updated L me path target (edits ++ [versionEdit document]) (appearanceDocumentSchema L) w r w' current next) :
    ∃ d, (decodeAppearanceDocument L next).value = some d ∧
      d.snapshot.value versionKey = some (.integer kEditingDocumentVersion) := by
  obtain ⟨candidate,hparse⟩ := (patchDocument_patching _ _ (patched_of_updated hC hV h)).parsed
  have hheld := h.standing.holds
  rw [(parseDocument_some _ hparse).2] at hheld
  obtain ⟨m,hfile,-⟩ := hheld.cases.resolve_left (by simp)
  obtain ⟨d,hd,-,hversion,-⟩ := edited_of_updated hL hC hV h (.ofLocation target)
  rw [hfile,← reading_eq_contentOf h.standing.physical hfile] at hd
  unfold decodeRead at hd
  dsimp only at hd
  rw [h.standing.read] at hd
  exact ⟨d,hd,hversion⟩

/-- Staging what conflicts with no document reports the conflicts. -/
theorem stageDocument_conflicts_home {edits : EditBatch} {schema : DocumentSchema}
    (hconf : (patchDocument Reference.library (.missing homePath) edits schema).status ≠ .success) :
    Returns (faultless ⟨1,[]⟩) anyStep (fun r _ => r.result.conflicts =
        (patchDocument Reference.library (.missing homePath) edits schema).conflicts)
      (stageDocument Reference.library kMaximumDocumentBytes ⟨1,[]⟩ homePath edits schema) lockedHome := by
  have hstand := lockedHome_standing Reference.library
  have hlast : Standing Reference.library ⟨1,[]⟩ homePath [configName] lockedHome.tree (.missing homePath) :=
    ⟨hstand.resolved,hstand.directory,hstand.holds,hstand.snapshot⟩
  have hlocked : Standing Reference.library ⟨1,[]⟩ homePath [configName]
    (lockedHome.hold (lockPath [configName]).components (some 1)).tree (.missing homePath) := hlast
  have hreturns : Returns (faultless ⟨1,[]⟩) anyStep (fun r _ => r.1.conflicts =
      (patchDocument Reference.library (.missing homePath) edits schema).conflicts)
      (updateDocument Reference.library kMaximumDocumentBytes ⟨1,[]⟩ homePath ⟨edits,schema,none,none⟩) lockedHome := by
    refine updateDocument_returns _ (fun _ _ _ _ _ => trivial) hlast.named hlast rfl lockedHome_ready (by decide) ?_
    refine (updateLocked_conflicts _ _ hlocked hconf).mono (fun r w' h => ?_)
    rw [h]
  exact returns_bind hreturns (fun r w' h => h)

/-- A rollback to no document between the two reads of another writer's save makes it
conflict in the version. -/
theorem rollback_conflicts_version : ∃ staged previous snapshot restored p r w₁ w₂ w₃,
    Reaches (faultless ⟨0,[]⟩) (stageAppearanceDocument Reference.library kMaximumDocumentBytes ⟨0,[]⟩ homePath [])
      lockedHome (.ret staged) w₁ ∧ staged.result.status = .success ∧ staged.previous = some previous ∧
    staged.result.snapshot.map DocumentSnapshot.revision = some snapshot ∧
    Reaches (faultless ⟨1,[]⟩) (saveAppearanceDocument Reference.library kMaximumDocumentBytes ⟨1,[]⟩ homePath [])
      w₁ p w₁ ∧
    Reaches (faultless ⟨0,[]⟩) (restoreDocument Reference.library kMaximumDocumentBytes ⟨0,[]⟩ homePath snapshot
      previous (appearanceDocumentSchema Reference.library)) w₁ (.ret restored) w₂ ∧ restored.status = .success ∧
    Reaches (faultless ⟨1,[]⟩) p w₂ (.ret r) w₃ ∧ r.conflicts.map Conflict.key = [versionKey] := by
  have hstand : Standing Reference.library ⟨0,[]⟩ homePath [configName] lockedHome.tree (.missing homePath) :=
    lockedHome_standing Reference.library
  have hprints : PrintsVersion Reference.library := by
    unfold PrintsVersion
    decide +kernel
  have hfacts : (patchDocument Reference.library (.missing homePath) [versionEdit (.missing homePath)]
        (appearanceDocumentSchema Reference.library)).status = .success ∧
      (((patchDocument Reference.library (.missing homePath) [versionEdit (.missing homePath)]
        (appearanceDocumentSchema Reference.library)).snapshot.map
        (fun s => s.revision.bytes)).getD []).length ≤ kMaximumDocumentBytes ∧
      (patchDocument Reference.library (.missing homePath)
        [⟨versionKey,some (.integer kEditingDocumentVersion),some (.integer kEditingDocumentVersion)⟩]
        (appearanceDocumentSchema Reference.library)).status ≠ .success ∧
      (patchDocument Reference.library (.missing homePath)
        [⟨versionKey,some (.integer kEditingDocumentVersion),some (.integer kEditingDocumentVersion)⟩]
        (appearanceDocumentSchema Reference.library)).conflicts.map Conflict.key = [versionKey] ∧
      (prepareRestore Reference.library (.missing homePath) (appearanceDocumentSchema Reference.library)).status =
        .success := by decide +kernel
  obtain ⟨hs,hlen,hconf,hkeys,hprep⟩ := hfacts
  -- The first writer stages a document where none is.
  obtain ⟨staged,w₁,hreach₁,r,next,rfl,hr,hprevious,hout,hup⟩ := (stageDocument_home hs hlen).exists
  -- The second one reads it.
  obtain ⟨document,hd,hversion⟩ := @Updated.decoded Reference.library Reference.permissive (Reference.conforms _) hprints
    ⟨0,[]⟩ homePath [configName] [] lockedHome w₁ r (.missing homePath) (.missing homePath) next hup
  have hstand₁ : Standing Reference.library ⟨1,[]⟩ homePath [configName] w₁.tree next :=
    ⟨hup.standing.resolved,hup.standing.directory,hup.standing.holds,hup.standing.snapshot⟩
  have hbegun := (@stage_reaches _ _ _ _ _ _ _ [] (by decide +kernel) hstand₁ hd rfl kMaximumDocumentBytes).bind
    (fun r => Prog.ret r.result)
  -- The first one rolls back.
  obtain ⟨restored,w₂,hreach₂,hrestored,hgone,before,hout₂⟩ :=
    (restoreDocument_home hup.standing hup.ready hprep).exists
  obtain rfl : w₂ = lockedHome :=
    home_again (tidy_home ((hout₂.truthful _).tidy hrestored hup.standing.resolved)
      (tidy_home ((hout.truthful _).tidy hr hstand.resolved) (fun _ _ => rfl))) hgone (hout₂.holder.trans hout.holder)
  have hedit : versionEdit document.snapshot =
      ⟨versionKey,some (.integer kEditingDocumentVersion),some (.integer kEditingDocumentVersion)⟩ := by
    unfold versionEdit
    rw [hversion]
  have hfinal : Returns (faultless ⟨1,[]⟩) anyStep (fun r _ => r.conflicts.map Conflict.key = [versionKey])
      (Prog.bind (stageDocument Reference.library kMaximumDocumentBytes ⟨1,[]⟩ homePath
        ([] ++ [versionEdit document.snapshot]) (appearanceDocumentSchema Reference.library))
        (fun r => Prog.ret r.result)) lockedHome := by
    rw [List.nil_append,hedit]
    refine returns_bind (stageDocument_conflicts_home hconf) (fun r w' h => ?_)
    change r.result.conflicts.map Conflict.key = _
    rw [h,hkeys]
  obtain ⟨last,w₃,hreach₃,hlast⟩ := hfinal.exists
  exact ⟨stagedResult r,.missing homePath,next.revision,restored,_,last,w₁,lockedHome,w₃,
    (stage_reaches (by decide +kernel) hstand rfl rfl _).trans hreach₁,hr,hprevious,hup.snapshot,hbegun,hreach₂,
    hrestored,hreach₃,hlast⟩

end AppearanceStore
end HolonightConfig
