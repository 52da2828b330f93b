import HolonightConfig.AppearanceDocument.Upgrade
import HolonightConfig.AppearanceStore.Loadable
import HolonightConfig.Document.Keys
import HolonightConfig.DocumentStore.Rivals
import HolonightConfig.Toml.Revised

/-! Saving a version 1 document with no edits: which ones become a version 2 document of the
same meaning. -/
namespace HolonightConfig
open Text Toml Posix Program

namespace AppearanceStore
open Storage Document DocumentStore AppearanceDocument
open Sparse (TypesOk StyleTrimmed SameKnown projection)

section
variable {L : Library}

/-! ### The version in place -/

theorem lookup_withoutEntries (k : Bytes) (es : Entries Region) : (Node.withoutEntries es).lookup k =
    (es.lookup k).map Node.withoutTableRegions := by
  induction es with
  | nil => rfl
  | cons e es ih =>
    obtain ⟨k',n⟩ := e
    rw [Node.withoutEntries,List.lookup_cons,List.lookup_cons,ih]
    cases k == k' <;> rfl

/-- The literal of the version that edits set. -/
def PrintsTwo (L : Library) : Prop := L.format (.scalar () (.integer kEditingDocumentVersion)) = bytes "2"

theorem bytes_two : bytes "2" = [0x32] := by decide +kernel

theorem printsVersion (hC : L.Conforms kMaximumDocumentBytes) (hP : PrintsTwo L) : PrintsVersion L := by
  have h := @normalizeValue_scalar L hC (.integer kEditingDocumentVersion) (.integer kEditingDocumentVersion)
    (.integer kEditingDocumentVersion) rfl
  rw [hP] at h
  have hlength : (probe (encode L (.integer kEditingDocumentVersion))).length ≤ kMaximumDocumentBytes := by
    rw [encode,hP]
    decide +kernel
  rw [if_pos hlength] at h
  exact h (by decide +kernel) (by decide +kernel)

/-- A text with another value in the place of one. -/
structure Replaced (s : Bytes) (span : SourceSpan) (literal s' : Bytes) : Prop where
  inside : span.begin < span.stop ∧ span.stop ≤ s.length
  text : s' = s.take span.begin ++ literal ++ s.drop span.stop

/-- Version 2 in the place of the version: that document parses as the other one but for it. -/
theorem version_revised (hC : L.Conforms kMaximumDocumentBytes) {s : Bytes} {root : Entries Region}
    (hsize : s.length ≤ kMaximumDocumentBytes) (hparse : L.parse s = .ok root)
    (hbom : byteOrderMark.isPrefixOf s = false) {src : Region} {n : ℤ}
    (hv : root.get (bytes "version") = some (.scalar src (.integer n))) :
    (entryOf L s (.scalar src (.integer n))).assignment.isSome = true ∧
    ∃ s', Replaced s (entryOf L s (.scalar src (.integer n))).source (bytes "2") s' ∧
      s'.length ≤ kMaximumDocumentBytes ∧
      ∃ root', L.parse s' = .ok root' ∧ Node.eraseEntries root' =
        Entries.replace (bytes "version") (.scalar () (.integer kEditingDocumentVersion)) (Node.eraseEntries root) := by
  obtain ⟨t,ht,hw⟩ := hC.ok hsize hparse
  have hget : t.get (bytes "version") = some (.scalar src (.integer n)) := by
    have h := congrArg (List.lookup (bytes "version")) hw
    rw [lookup_withoutEntries,lookup_withoutEntries,show root.lookup (bytes "version") = _ from hv] at h
    obtain ⟨m,hm,he⟩ := Option.map_eq_some_iff.mp h
    rw [Entries.get,hm]
    cases m with
    | scalar src' v => cases he; rfl
    | _ => cases he
  have hutf : Utf8.valid s = true := by
    unfold Toml.parse at ht
    split at ht
    · next hs => exact hs
    · cases ht
  obtain ⟨as,lead,key,equals,v,tail,bs,hls,hnode,hrevise⟩ := parse_revised ht hbom hget
  obtain ⟨htext,hsound⟩ := Syntax.text_lines hls
  obtain ⟨-,hedged,-⟩ : v.Sound := hsound (.assign lead key equals v tail) (by simp)
  obtain ⟨line,-,hassignment⟩ := @assignment_assigned L s _ (.scalar src (.integer n)) hutf hls
    ⟨as,lead,key,equals,v,tail,bs,rfl,hnode⟩
  have hsource := source_node hnode
  obtain ⟨pre,hpre⟩ : ∃ pre, pre = as.flatMap Line.text ++ (lead ++ (key.text ++ equals)) := ⟨_,rfl⟩
  obtain ⟨post,hpost⟩ : ∃ post, post = tail ++ bs.flatMap Line.text := ⟨_,rfl⟩
  rw [← hpre,← hpost] at hrevise
  rw [← hpre] at hsource
  have hc : s = pre ++ (v.text ++ post) := by
    rw [htext,hpre,hpost]
    simp [Line.text]
  obtain ⟨-,hbegin,hstop⟩ := offset_value (hc ▸ hutf) hedged
  rw [← hc] at hbegin hstop
  have hspan : (entryOf L s (.scalar src (.integer n))).source = ⟨pre.length,pre.length + v.text.length⟩ := by
    rw [← hstop,← hbegin]
    change (⟨offset s src.begin,offset s src.stop⟩ : SourceSpan) = _
    rw [show src = _ from hsource]
  have hpos : 0 < v.text.length := by
    obtain ⟨⟨b,u,hb,-⟩,-⟩ := hedged
    rw [hb]
    simp
  obtain ⟨t',ht',he⟩ := hrevise 0x32 [] (.integer kEditingDocumentVersion)
    (fun d hd => by rw [List.mem_singleton.mp hd]; rfl) rfl (by decide +kernel) (by decide) (by decide)
  have hlength : (pre ++ ([0x32] ++ post)).length ≤ kMaximumDocumentBytes := by
    rw [hc] at hsize
    simp only [List.length_append,List.length_singleton] at hsize ⊢
    omega
  obtain ⟨root',hroot',hw'⟩ := hC.parses hlength ht'
  refine ⟨by rw [hassignment]; rfl,_,⟨?_,?_⟩,hlength,root',hroot',?_⟩
  · rw [hspan,hc]
    simp only [List.length_append]
    omega
  · have hdrop : (pre ++ (v.text ++ post)).drop (pre.length + v.text.length) = post := by
      rw [← List.append_assoc,← List.length_append,List.drop_left]
    rw [hspan,hc,bytes_two,hdrop,List.take_left,List.append_assoc]
  · rw [← Node.eraseEntries_withoutEntries root',hw',Node.eraseEntries_withoutEntries,he,
      ← Node.eraseEntries_withoutEntries t,hw,Node.eraseEntries_withoutEntries]

/-- One replacement is put in its place. -/
theorem substitute_single {s s' literal : Bytes} {span : SourceSpan} (h : Replaced s span literal s') :
    substitute s.length s ((coalesceInsertions [⟨span,literal⟩]).insertionSort laterSpan) = some s' := by
  have hne : span.begin ≠ span.stop := h.inside.1.ne
  have hone : coalesceInsertions [⟨span,literal⟩] = [⟨span,literal⟩] := by
    simp only [coalesceInsertions,List.length_singleton,coalesce,ne_eq,hne,not_false_eq_true,if_true]
  rw [hone,List.insertionSort_cons,List.insertionSort_nil]
  change substitute s.length s [⟨span,literal⟩] = some s'
  rw [substitute,if_neg (by have := h.inside; simp only; omega),substitute,h.text]

/-- The entry of the version of a document of the first one. -/
theorem entry_version (hC : L.Conforms kMaximumDocumentBytes) {current : DocumentSnapshot} {root : Entries Region}
    (h : Reads L current root) {src : Region}
    (hv : root.get (bytes "version") = some (.scalar src (.integer kDocumentVersion))) :
    current.entry versionKey = some (entryOf L current.revision.bytes (.scalar src (.integer kDocumentVersion))) := by
  rw [h.entry hC (by simp [versionKey])]
  simp only [versionKey,Entries.find,hv,Option.bind_some,overrideOf]
  rfl

/-- Setting the version is one replacement, of the value there. -/
theorem planEdits_version (hP : PrintsTwo L) {current : DocumentSnapshot} {src : Region}
    (hentry : current.entry versionKey =
      some (entryOf L current.revision.bytes (.scalar src (.integer kDocumentVersion))))
    (hassigned : (entryOf L current.revision.bytes (.scalar src (.integer kDocumentVersion))).assignment.isSome = true)
    (ds : List Diagnostic) :
    planEdits L current [] [versionEdit current] { diagnostics := ds } =
      (true,{ diagnostics := ds, replacements := [⟨(entryOf L current.revision.bytes
        (.scalar src (.integer kDocumentVersion))).source,bytes "2"⟩] }) := by
  have hvalue : current.value versionKey = some (.integer kDocumentVersion) := by
    rw [DocumentSnapshot.value,hentry]
    rfl
  obtain ⟨whole,hwhole⟩ := Option.isSome_iff_exists.mp hassigned
  have hdiffers : Value.same (some (.integer kDocumentVersion)) (some (.integer kEditingDocumentVersion)) = false := by
    decide
  have hsame : Value.same (some (.integer kDocumentVersion)) (some (.integer kDocumentVersion)) = true := by
    decide
  have hone : planEdit L current (versionEdit current) { diagnostics := ds } =
      (true,{ diagnostics := ds, replacements := [⟨(entryOf L current.revision.bytes
        (.scalar src (.integer kDocumentVersion))).source,bytes "2"⟩] }) := by
    simp only [planEdit,versionEdit,hvalue,hdiffers,hsame,hentry,hwhole,encode,Bool.not_true,
      Bool.false_eq_true,if_false,List.nil_append]
    rw [show L.format (.scalar () (.integer kEditingDocumentVersion)) = bytes "2" from hP]
  rw [planEdits,if_neg (by simp [versionEdit,versionKey]),hone]
  rfl

/-- What it makes is the text with another version, where that has it. -/
theorem applyReplacements_version {current : DocumentSnapshot} {span : SourceSpan} {s' : Bytes}
    {root' : Entries Region} (hs' : Replaced current.revision.bytes span (bytes "2") s')
    (hlength : s'.length ≤ kMaximumDocumentBytes) (hroot' : L.parse s' = .ok root')
    (hv' : (DocumentSnapshot.mk current.path ⟨true,s'⟩ (collect L s' [] root')).value versionKey =
      some (.integer kEditingDocumentVersion)) :
    (applyReplacements L current [⟨span,bytes "2"⟩] [versionEdit current]).value =
      some ⟨current.path,⟨true,s'⟩,collect L s' [] root'⟩ := by
  have hsame : Value.same (some (.integer kEditingDocumentVersion)) (some (.integer kEditingDocumentVersion)) = true := by
    decide
  unfold applyReplacements
  dsimp only
  rw [substitute_single hs']
  simp only [parseDocument_of_ok hlength hroot',Result.value_success]
  rw [if_pos]
  · rfl
  · simp only [List.all_cons,List.all_nil,Bool.and_true]
    change Value.same (DocumentSnapshot.value _ versionKey) _ = true
    rw [hv']
    exact hsame

/-- Only setting the version, on a document of the first one, puts it in its place. -/
theorem patchDocument_version (hC : L.Conforms kMaximumDocumentBytes) (hP : PrintsTwo L)
    {current : DocumentSnapshot} {root root' : Entries Region} (h : Reads L current root)
    {src : Region} (hv : root.get (bytes "version") = some (.scalar src (.integer kDocumentVersion)))
    {schema : DocumentSchema} (hvalid : hasErrors (validateDocument L current schema) = false)
    {s' : Bytes}
    (hassigned : (entryOf L current.revision.bytes (.scalar src (.integer kDocumentVersion))).assignment.isSome = true)
    (hs' : Replaced current.revision.bytes
      (entryOf L current.revision.bytes (.scalar src (.integer kDocumentVersion))).source (bytes "2") s')
    (hlength : s'.length ≤ kMaximumDocumentBytes) (hroot' : L.parse s' = .ok root')
    (hv' : (DocumentSnapshot.mk current.path ⟨true,s'⟩ (collect L s' [] root')).value versionKey =
      some (.integer kEditingDocumentVersion))
    (hvalid' : hasErrors (validateDocument L ⟨current.path,⟨true,s'⟩,collect L s' [] root'⟩ schema) = false) :
    (patchDocument L current [versionEdit current] schema).status = .success ∧
    (patchDocument L current [versionEdit current] schema).snapshot =
      some ⟨current.path,⟨true,s'⟩,collect L s' [] root'⟩ := by
  have hnormal : normalizeEdit L (versionEdit current) = some (versionEdit current) := by
    change (normalizeValue L (.integer kEditingDocumentVersion)).map _ = _
    rw [printsVersion hC hP]
    rfl
  have hbatch : (normalizeEdits L [versionEdit current] current.path).value = some [versionEdit current] := by
    rw [normalizeEdits_value,List.mapM_cons,hnormal]
    rfl
  have hpatch : patchDocument L current [versionEdit current] schema =
      { status := .success, snapshot := some ⟨current.path,⟨true,s'⟩,collect L s' [] root'⟩,
        diagnostics := validateDocument L ⟨current.path,⟨true,s'⟩,collect L s' [] root'⟩ schema } := by
    unfold patchDocument
    dsimp only
    rw [if_neg (by simp [hvalid]),hbatch]
    dsimp only
    rw [planEdits_version hP (entry_version hC h hv) hassigned]
    simp only [Bool.not_true,Bool.false_eq_true,if_false,ne_eq,not_true_eq_false,planInsertions,List.map_nil,
      List.append_nil,applyReplacements_version hs' hlength hroot' hv',hvalid']
  rw [hpatch]
  exact ⟨rfl,rfl⟩

end

/-! ### The upgraded document -/

section
variable {L : Library} {current next : DocumentSnapshot} {root root' : Entries Region} {a : Appearance}

theorem validateDocument_appearance (snapshot : DocumentSnapshot) :
    validateDocument L snapshot (appearanceDocumentSchema L) =
      (appearanceDocumentSchema L).fields.flatMap (fieldDiagnostics L snapshot) ++
        (decodeAppearanceDocument L snapshot).diagnostics := rfl

/-- A document differs from another in the octets of its version only, and is read, as one
of the second version, as the same appearance. -/
structure Upgraded (L : Library) (current next : DocumentSnapshot) (a : Appearance) : Prop where
  version : ∃ e, current.entry versionKey = some e ∧
    Replaced current.revision.bytes e.source (bytes "2") next.revision.bytes
  parsed : (parseDocument L next.revision.bytes current.path).value = some next
  decoded : (decodeAppearanceDocument L next).value = some ⟨next,kEditingDocumentVersion,a⟩

/-- The text with the version replaced, and what it parses as. -/
structure Candidate (L : Library) (current : DocumentSnapshot) (root : Entries Region) (s' : Bytes)
    (root' : Entries Region) : Prop where
  assigned : ∃ src, root.get (bytes "version") = some (.scalar src (.integer kDocumentVersion)) ∧
    (entryOf L current.revision.bytes (.scalar src (.integer kDocumentVersion))).assignment.isSome = true ∧
    current.entry versionKey = some (entryOf L current.revision.bytes (.scalar src (.integer kDocumentVersion))) ∧
    Replaced current.revision.bytes
      (entryOf L current.revision.bytes (.scalar src (.integer kDocumentVersion))).source (bytes "2") s'
  reads : Reads L ⟨current.path,⟨true,s'⟩,collect L s' [] root'⟩ root'
  version : IsVersion2 root'
  known : SameKnown root root'

theorem candidate_exists (hC : L.Conforms kMaximumDocumentBytes) (h : Reads L current root)
    (hbom : byteOrderMark.isPrefixOf current.revision.bytes = false)
    (hv : ∃ src, root.get (bytes "version") = some (.scalar src (.integer kDocumentVersion))) :
    ∃ s' root', Candidate L current root s' root' := by
  obtain ⟨src,hv⟩ := hv
  obtain ⟨hassigned,s',hs',hlength,root',hroot',herase⟩ := version_revised hC h.size h.parse hbom hv
  refine ⟨s',root',⟨src,hv,hassigned,?_,hs'⟩,⟨hlength,hroot',rfl,rfl⟩,?_,Sparse.sameKnown_replace herase⟩
  · rw [h.entry hC (by simp [versionKey])]
    simp only [versionKey,Entries.find,hv,Option.bind_some,overrideOf]
    rfl
  · have hget : (root'.get (bytes "version")).map Node.erase =
        some (.scalar () (.integer kEditingDocumentVersion)) := by
      rw [← Entries.get_eraseEntries,herase]
      have hold : (Node.eraseEntries root : Entries Unit).lookup (bytes "version") =
          some (.scalar () (.integer kDocumentVersion)) := by
        change Entries.get _ _ = _
        rw [Entries.get_eraseEntries,hv]
        rfl
      exact Entries.lookup_replace_self _ _ hold
    obtain ⟨n,hn,he⟩ := Option.map_eq_some_iff.mp hget
    cases n with
    | scalar src' v => cases he; exact ⟨src',hn⟩
    | _ => cases he

theorem Candidate.projectedText {s' : Bytes} (h : Candidate L current root s' root') :
    AppearanceDocument.projectedText L root' = AppearanceDocument.projectedText L root := by
  rw [AppearanceDocument.projectedText,AppearanceDocument.projectedText,h.known.projection]

/-- The upgraded document is the candidate. -/
theorem Upgraded.candidate {s' : Bytes} (hc : Candidate L current root s' root')
    (h : Upgraded L current next a) : next = ⟨current.path,⟨true,s'⟩,collect L s' [] root'⟩ := by
  obtain ⟨src,-,-,hentry,hs'⟩ := hc.assigned
  obtain ⟨e,he,hnext⟩ := h.version
  cases hentry.symm.trans he
  have hparsed := h.parsed
  rw [hnext.text,← hs'.text,parseDocument_of_ok hc.reads.size hc.reads.parse] at hparsed
  cases hparsed
  rfl

/-- What upgrading asks of a document: numbers that need no conversion, and a projection
that prints as a short enough text. -/
def Upgradable (L : Library) (root : Entries Region) : Prop :=
  Schema.NativeNumbers root ∧ (AppearanceDocument.projectedText L root).length ≤ kMaximumDocumentBytes

section
variable (hL : L.Permissive) (hC : L.Conforms kMaximumDocumentBytes)
include hL hC

theorem upgradable_of_upgraded {s' : Bytes} (hc : Candidate L current root s' root')
    (hback : L.ReadsBack (projection root)) (hu : Upgraded L current next a) : Upgradable L root := by
  have hdecoded := hu.decoded
  rw [hu.candidate hc] at hdecoded
  have hback' : L.ReadsBack (projection root') := hc.known.projection ▸ hback
  obtain ⟨hsize,hdoc,-,-⟩ := (decode_value_iff hL hC hc.reads hc.version hback' _).mp hdecoded
  obtain ⟨src,hv,-⟩ := hc.assigned
  refine ⟨Sparse.nativeNumbers_of_kinds (fun n hn => ?_) (hc.known.symm.typesOk hdoc.typesOk).2,
    hc.projectedText ▸ hsize⟩
  rw [hv] at hn
  cases hn
  rfl

/-- An upgradable document is patched to the candidate, which is read as it was. -/
theorem upgraded_of_upgradable (hP : PrintsTwo L) (h : Reads L current root) {s' : Bytes} (hc : Candidate L current root s' root')
    (hback : L.ReadsBack (projection root))
    (hd : (decodeAppearanceDocument L current).value = some ⟨current,kDocumentVersion,a⟩)
    (hup : Upgradable L root) :
    Upgraded L current ⟨current.path,⟨true,s'⟩,collect L s' [] root'⟩ a ∧
    (patchDocument L current [versionEdit current] (appearanceDocumentSchema L)).status = .success ∧
    (patchDocument L current [versionEdit current] (appearanceDocumentSchema L)).snapshot =
      some ⟨current.path,⟨true,s'⟩,collect L s' [] root'⟩ := by
  obtain ⟨-,hsilent,-,hconverted⟩ := decode_version1 hL hC h hd rfl
  obtain ⟨src,hv,hassigned,hentry,hs'⟩ := hc.assigned
  have hnative := (Schema.native_document_iff root a).mpr ⟨hconverted,hup.1⟩
  have hversion : a.version = kDocumentVersion := by
    have hfield := hnative.version
    rw [Schema.field,hv] at hfield
    exact (Option.some.inj hfield).symm
  obtain ⟨hdoc,hstyle⟩ := Sparse.document_of_native hnative hversion
  have htypes' : TypesOk root' := hc.known.typesOk hdoc.typesOk
  have hdoc' : Sparse.Document root' a ∧ StyleTrimmed root' := by
    rw [← Sparse.document_projection,← hc.known.projection]
    exact ⟨htypes',((Sparse.document_projection a).mpr ⟨hdoc,hstyle⟩).2⟩
  have hback' : L.ReadsBack (projection root') := hc.known.projection ▸ hback
  have hdecoded := (decode_value_iff hL hC hc.reads hc.version hback' ⟨_,kEditingDocumentVersion,a⟩).mpr
    ⟨hc.projectedText ▸ hup.2,hdoc'.1,hdoc'.2,rfl⟩
  refine ⟨⟨⟨_,hentry,hs'⟩,by rw [parseDocument_of_ok hc.reads.size hc.reads.parse]; rfl,hdecoded⟩,?_⟩
  refine patchDocument_version hC hP h hv ?_ hassigned hs' hc.reads.size hc.reads.parse
    (value_version hC hc.reads hc.version) ?_
  · rw [validateDocument_appearance,schema_silent hC h hdoc.typesOk,hsilent]
    rfl
  · rw [validateDocument_appearance,schema_silent hC hc.reads htypes',List.nil_append]
    exact decode_silent hC hc.reads hc.version (by rw [hdecoded]; rfl)

end

end

/-! ### Saving -/

section
variable {L : Library} {me : Process} {path : Path} {target : List Name} {w : World} {current : DocumentSnapshot}

/-- Staging nothing of a document that loads returns what setting the version does. -/
theorem stage_returns {document : AppearanceDocument} (hpath : path.isEmpty = false)
    (h : Standing L me path target w.tree current)
    (hd : (decodeAppearanceDocument L current).value = some document) {budget : ℕ}
    {Q : StagedSaveResult → World → Prop}
    (hstage : Returns (faultless me) anyStep Q
      (stageDocument L budget me path [versionEdit document.snapshot] (appearanceDocumentSchema L)) w) :
    Returns (faultless me) anyStep Q (stageAppearanceDocument L budget me path []) w := by
  unfold stageAppearanceDocument
  refine returns_bind (P := fun r w' => r = .success target [] ∧ w' = w) ?_ (fun r w' hr => ?_)
  · unfold resolveDocumentTarget
    rw [if_neg (by simp [hpath])]
    refine returns_perform ⟨_,w,rfl,rfl⟩ (fun r w' hs => ⟨trivial,?_⟩)
    obtain ⟨rfl,rfl⟩ := hs
    rw [h.resolved]
    exact ⟨rfl,rfl⟩
  obtain ⟨rfl,rfl⟩ := hr
  refine returns_bind (P := fun r w'' => r.value = some document ∧ w'' = w') ?_ (fun r w'' hr => ?_)
  · refine returns_perform ⟨_,w',rfl,rfl⟩ (fun found w'' hs => ⟨trivial,?_⟩)
    obtain ⟨rfl,rfl⟩ := hs
    rw [Path.absolute_ofLocation]
    refine ⟨?_,rfl⟩
    unfold decodeRead
    dsimp only
    rw [h.read]
    exact hd
  obtain ⟨hread,rfl⟩ := hr
  rw [hread]
  exact hstage

/-- Saving without faults, nothing but the version, gives the upgraded document. -/
def Upgrades (L : Library) (budget : ℕ) (me : Process) (path : Path) (target : List Name) (current : DocumentSnapshot)
    (a : Appearance) (w : World) : Prop :=
  Returns (faultless me) anyStep (fun r w' => r.status = .success ∧ ∃ next,
    r.snapshot.map DocumentSnapshot.revision = some next.revision ∧ Upgraded L current next a ∧
    Holds (w'.tree.file target) next.revision) (saveAppearanceDocument L budget me path []) w

/-- A document of the first version that loads, where it can be replaced. -/
structure Offered (L : Library) (me : Process) (path : Path) (target : List Name) (w : World)
    (current : DocumentSnapshot) (root : Entries Region) (a : Appearance) : Prop where
  named : ¬ (path.isEmpty ∨ path.filename = [])
  standing : Standing L me path target w.tree current
  lockable : Lockable target w
  name : FreeName target w.tree
  reads : Reads L current root
  unmarked : byteOrderMark.isPrefixOf current.revision.bytes = false
  accepted : (decodeAppearanceDocument L current).value = some ⟨current,kDocumentVersion,a⟩
  readsBack : L.ReadsBack (projection root)

/-- A document of the first version is upgraded exactly if it needs no conversion of numbers
and is not too large as it is printed. -/
theorem upgrades_iff (hL : L.Permissive) (hC : L.Conforms kMaximumDocumentBytes) (hP : PrintsTwo L)
    {root : Entries Region} {a : Appearance} (ho : Offered L me path target w current root a) {budget : ℕ}
    (hb : kMaximumDocumentBytes ≤ budget) :
    Upgrades L budget me path target current a w ↔ Upgradable L root := by
  obtain ⟨hpath,hstand,hlock,hname,h,hbom,hd,hback⟩ := ho
  obtain ⟨-,-,hversion,-⟩ := decode_version1 hL hC h hd rfl
  obtain ⟨s',root',hc⟩ := candidate_exists hC h hbom hversion
  constructor
  · intro hreturns
    obtain ⟨r,w',-,-,next,-,hup,-⟩ := hreturns.exists
    exact upgradable_of_upgraded hL hC hc hback hup
  · intro hable
    obtain ⟨hup,hstatus,hsnapshot⟩ := upgraded_of_upgradable hL hC hP h hc hback hd hable
    have hpos : 0 < budget := lt_of_lt_of_le (by decide) hb
    have hlength : (((patchDocument L current [versionEdit current] (appearanceDocumentSchema L)).snapshot.map
        (fun s => s.revision.bytes)).getD []).length ≤ budget := by
      rw [hsnapshot]
      exact le_trans hc.reads.size hb
    have hupdate := updateDocument_patches hpath hstand hlock hname hstatus hlength hpos
    have hstage : Returns (faultless me) anyStep (fun staged w' => staged.result.status = .success ∧
        ∃ r, staged.result = r.1 ∧ r.1.status = .success ∧
          Outcome L True me path ⟨[versionEdit current],appearanceDocumentSchema L,none,none⟩ w r w')
        (stageDocument L budget me path [versionEdit current] (appearanceDocumentSchema L)) w :=
      returns_bind hupdate (fun r w' hr => ⟨hr.1,r,rfl,hr.1,hr.2⟩)
    have hempty : path.isEmpty = false := by
      cases he : path.isEmpty with
      | false => rfl
      | true => exact absurd (.inl he) hpath
    refine returns_bind (stage_returns hempty hstand hd hstage) (fun staged w' hr => ?_)
    obtain ⟨-,r,hresult,hsuccess,hout⟩ := hr
    obtain ⟨target',current',next,hupdated⟩ := hout.updated (.inl hsuccess)
    obtain ⟨hT,hholds,hsnap⟩ := hupdated.before
    cases hT.symm.trans hstand.resolved
    obtain rfl : current' = current := by
      rw [hholds.unique hstand.holds,hstand.snapshot] at hsnap
      exact (Option.some.inj hsnap).symm
    have hupdated' : Updated L me path target ([] ++ [versionEdit current']) (appearanceDocumentSchema L) w r w'
      current' next := hupdated
    have hnext := patched_of_updated hC (printsVersion hC hP) hupdated'
    cases hsnapshot.symm.trans hnext
    change staged.result.status = .success ∧ _
    rw [hresult]
    exact ⟨hsuccess,_,hupdated.snapshot,hup,hupdated.standing.holds⟩

end

/-! ### The default document -/

/-- The default document, with more octets behind the font size of the interface. -/
def sizedText (more : Bytes) : Bytes := (Codec.document defaults).take 109 ++ more ++ (Codec.document defaults).drop 109

def sizedRoot (more : Bytes) : Entries Region := (Toml.parse (sizedText more)).getD []

def sizedSnapshot (more : Bytes) : DocumentSnapshot :=
  ⟨homePath,⟨true,sizedText more⟩,collect Reference.library (sizedText more) [] (sizedRoot more)⟩

/-- A directory with that document alone. -/
def sizedHome (more : Bytes) : World where
  tree := bareHome.tree.put [] configName (some (.regular ⟨0o100600,3,1⟩ (sizedText more)))
  holder := fun _ => none

theorem sized_offered {more : Bytes} {a : Appearance} (h : (sizedText more).length ≤ kMaximumDocumentBytes ∧
      (Toml.parse (sizedText more)).isSome = true ∧ byteOrderMark.isPrefixOf (sizedText more) = false ∧
      (decodeAppearanceDocument Reference.library (sizedSnapshot more)).value.map
        (fun d => (d.snapshot,d.documentVersion,d.appearance)) = some (sizedSnapshot more,kDocumentVersion,a) ∧
      (Toml.parse (projectedText Reference.library (sizedRoot more))).isSome = true ∧
      Node.eraseEntries ((Toml.parse (projectedText Reference.library (sizedRoot more))).getD []) =
        projection (sizedRoot more)) :
    Offered Reference.library ⟨0,[]⟩ homePath [configName] (sizedHome more) (sizedSnapshot more) (sizedRoot more) a := by
  obtain ⟨hsize,hparse,hbom,haccept,hprint,hback⟩ := h
  have hnone : bareHome.tree.file [configName] = none := by decide +kernel
  have hfile : (sizedHome more).tree.file [configName] = some (.regular ⟨0o100600,3,1⟩ (sizedText more)) :=
    @Tree.file_put_self bareHome.tree [] configName (by decide +kernel) (by decide +kernel) _
  have hothers : ∀ q, q ≠ [configName] → (sizedHome more).tree.file q = bareHome.tree.file q :=
    fun q hq => @Tree.file_put_of_ne bareHome.tree [] configName q hq _
  have hroot : Reference.library.parse (sizedText more) = .ok (sizedRoot more) := Reference.parse_ok hparse
  have hdirectory : (sizedHome more).tree.isDirectory [] = true := by
    rw [Tree.isDirectory,hothers [] (by simp)]
    rfl
  have hlock : (sizedHome more).tree.file (lockPath [configName]).components = none := by
    rw [hothers _ (by decide +kernel)]
    decide +kernel
  refine ⟨by decide +kernel,⟨?_,hdirectory,?_,?_⟩,⟨hdirectory,fun f hf => ?_,rfl⟩,
    ⟨bytes "aaaaaa",by decide +kernel,?_⟩,⟨hsize,hroot,rfl,rfl⟩,hbom,?_,⟨_,Reference.parse_ok hprint,hback⟩⟩
  · exact resolveTarget_written ⟨hothers,.inl hnone,_,_,hfile⟩ (.inl rfl)
      (bareHome_standing Reference.library).resolved
  · rw [hfile]
    rfl
  · change (parseDocument Reference.library (sizedText more) homePath).value = _
    rw [parseDocument_of_ok hsize hroot]
    rfl
  · rw [hlock] at hf
    cases hf
  · rw [hothers _ (by decide +kernel)]
    decide +kernel
  · obtain ⟨⟨snapshot,version,appearance⟩,hd,he⟩ := Option.map_eq_some_iff.mp haccept
    simp only [Prod.mk.injEq] at he
    obtain ⟨rfl,rfl,rfl⟩ := he
    exact hd

theorem plain_offered : Offered Reference.library ⟨0,[]⟩ homePath [configName] (sizedHome []) (sizedSnapshot [])
    (sizedRoot []) defaults :=
  sized_offered (by decide +kernel)

/-- A font size of `12.0` is read as 12. -/
theorem fraction_offered : Offered Reference.library ⟨0,[]⟩ homePath [configName] (sizedHome (bytes ".0"))
    (sizedSnapshot (bytes ".0")) (sizedRoot (bytes ".0")) defaults :=
  sized_offered (by decide +kernel)

theorem reference_printsTwo : PrintsTwo Reference.library := by
  unfold PrintsTwo
  decide +kernel

theorem upgrades_plain :
    Upgrades Reference.library kMaximumDocumentBytes ⟨0,[]⟩ homePath [configName] (sizedSnapshot []) defaults
      (sizedHome []) ↔ Upgradable Reference.library (sizedRoot []) :=
  upgrades_iff Reference.permissive (Reference.conforms _) reference_printsTwo plain_offered le_rfl

/-- That document loads, and saving it is refused. -/
theorem upgrades_rejects_fraction :
    Offered Reference.library ⟨0,[]⟩ homePath [configName] (sizedHome (bytes ".0")) (sizedSnapshot (bytes ".0"))
      (sizedRoot (bytes ".0")) defaults ∧
    ¬ Upgrades Reference.library kMaximumDocumentBytes ⟨0,[]⟩ homePath [configName] (sizedSnapshot (bytes ".0"))
      defaults (sizedHome (bytes ".0")) ∧
    (patchDocument Reference.library (sizedSnapshot (bytes ".0")) [versionEdit (sizedSnapshot (bytes ".0"))]
      (appearanceDocumentSchema Reference.library)).status = .invalid := by
  have ho := fraction_offered
  have hfacts : ((sizedRoot (bytes ".0")).find [bytes "typography",bytes "ui_size"]).map Node.type =
        some .floating ∧
      (patchDocument Reference.library (sizedSnapshot (bytes ".0")) [versionEdit (sizedSnapshot (bytes ".0"))]
        (appearanceDocumentSchema Reference.library)).status = .invalid := by decide +kernel
  obtain ⟨hsize,hstatus⟩ := hfacts
  refine ⟨ho,fun hu => ?_,hstatus⟩
  obtain ⟨-,-,hversion,-⟩ := decode_version1 Reference.permissive (Reference.conforms _) ho.reads ho.accepted rfl
  obtain ⟨s',root',hc⟩ := candidate_exists (Reference.conforms _) ho.reads ho.unmarked hversion
  obtain ⟨r,w',-,-,next,-,hup,-⟩ := hu.exists
  obtain ⟨⟨hint,-⟩,-⟩ := upgradable_of_upgraded Reference.permissive (Reference.conforms _) hc ho.readsBack hup
  obtain ⟨n,hn,htype⟩ := Option.map_eq_some_iff.mp hsize
  have hinteger := hint [bytes "typography",bytes "ui_size"] (by simp [Schema.integerFields]) n hn
  rw [htype] at hinteger
  cases hinteger

end AppearanceStore
end HolonightConfig
