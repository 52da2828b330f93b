import HolonightConfig.AppearanceDocument.Projection
import HolonightConfig.AppearanceDocument.Unknown

/-! Decoding a version 2 document is reading it as a sparse one, up to the size of the
projected text and the white space around a shape style. -/
namespace HolonightConfig
open Text Toml Posix

namespace AppearanceDocument
open Sparse Document

section
variable {L : Library} (hC : L.Conforms kMaximumDocumentBytes)
include hC

theorem parsed_defaults : Node.eraseEntries (parsed L encodedDefaults) = defaultTable := by
  have he : encodedDefaults = Codec.document defaults := by decide +kernel
  have hs : (Codec.document defaults).length ≤ kMaximumDocumentBytes := by decide +kernel
  obtain ⟨t,ht,hd⟩ := Option.map_eq_some_iff.mp parse_defaults
  obtain ⟨root,hp,hw⟩ := hC.parses hs ht
  rw [he,parsed,hp]
  change Node.eraseEntries root = defaultTable
  rw [← hd,← Node.eraseEntries_withoutEntries root,hw,Node.eraseEntries_withoutEntries]

end

/-- The text the projection of a tree is printed as. -/
def projectedText (L : Library) (root : Entries Region) : Bytes :=
  L.format (.table () false (projection root))

section Version2
variable {L : Library} {snapshot : DocumentSnapshot} {root : Entries Region}

/-- A document whose version is the integer 2. -/
def IsVersion2 (root : Entries Region) : Prop :=
  ∃ src, root.get (bytes "version") = some (.scalar src (.integer kEditingDocumentVersion))

theorem value_version (hC : L.Conforms kMaximumDocumentBytes) (h : Reads L snapshot root)
    (hv : IsVersion2 root) : snapshot.value versionKey = some (.integer kEditingDocumentVersion) := by
  obtain ⟨src,hv⟩ := hv
  rw [h.value hC (by simp [versionKey])]
  simp only [versionKey,Entries.find,hv]
  rfl

/-- The document laid over the default one, with the notes on it. -/
def laidOver (L : Library) (snapshot : DocumentSnapshot) (root : Entries Region) :
    Entries Region × List Diagnostic := overlay snapshot (parsed L encodedDefaults) [] root

theorem decode_version2 (hC : L.Conforms kMaximumDocumentBytes) (h : Reads L snapshot root)
    (hv : IsVersion2 root) :
    decodeAppearanceDocument L snapshot =
      if hasErrors (laidOver L snapshot root).2 then .failure (laidOver L snapshot root).2
      else
        let decoded := Codec.parse L
          (L.format (.table () false (Node.eraseEntries (laidOver L snapshot root).1))) snapshot.path
        match decoded.value with
        | none => .failure decoded.diagnostics
        | some a => .success ⟨snapshot,kEditingDocumentVersion,a⟩ (laidOver L snapshot root).2 := by
  have hroot : parsed L snapshot.revision.bytes = root := by rw [parsed,h.parse]; rfl
  have hne : ¬ kEditingDocumentVersion = kDocumentVersion := by decide
  unfold decodeAppearanceDocument
  simp only [h.exists_,Bool.not_true,Bool.false_eq_true,if_false,value_version hC h hv,hne,ne_eq,
    not_true_eq_false,projectDocument,hroot]
  rfl

/-- Decoding step by step: types, then the size of the projected text, then the strict
schema on it. -/
theorem decode_value_iff (hL : L.Permissive) (hC : L.Conforms kMaximumDocumentBytes)
    (h : Reads L snapshot root) (hv : IsVersion2 root) (hback : L.ReadsBack (projection root))
    (d : AppearanceDocument) :
    (decodeAppearanceDocument L snapshot).value = some d ↔
      (projectedText L root).length ≤ kMaximumDocumentBytes ∧
      Sparse.Document root d.appearance ∧ StyleTrimmed root ∧
      d = ⟨snapshot,kEditingDocumentVersion,d.appearance⟩ := by
  have hT := parsed_defaults hC
  have hd := h.distinct hC
  have hnotes : hasErrors (laidOver L snapshot root).2 = false ↔ TypesOk root :=
    (root_notes snapshot hT hd).1
  rw [decode_version2 hC h hv]
  cases he : hasErrors (laidOver L snapshot root).2 with
  | true =>
    constructor
    · intro hf; cases hf
    · rintro ⟨-,hdoc,-⟩
      rw [hnotes.mpr hdoc.typesOk] at he
      cases he
  | false =>
    have htypes := hnotes.mp he
    have hproj : Node.eraseEntries (laidOver L snapshot root).1 = projection root :=
      overlay_projection snapshot hT hd htypes
    simp only [Bool.false_eq_true,if_false,hproj]
    change (match (Codec.parse L (projectedText L root) snapshot.path).value with
      | none => Result.failure _
      | some appearance => Result.success _ _).value = some d ↔ _
    by_cases hsize : (projectedText L root).length ≤ kMaximumDocumentBytes
    · obtain ⟨root',hp,hr⟩ := hback
      have hparse : ∀ a, (Codec.parse L (projectedText L root) snapshot.path).value = some a ↔
          Sparse.Document root a ∧ StyleTrimmed root := by
        intro a
        rw [Codec.parse_value_iff hL snapshot.path hsize hp,Codec.readers_eq hL,← Schema.document_erase,hr,
          ← document_projection]
        simp [htypes]
      cases hval : (Codec.parse L (projectedText L root) snapshot.path).value with
      | none =>
        simp only [Result.value_failure,reduceCtorEq,false_iff]
        rintro ⟨-,hdoc,hst,-⟩
        rw [(hparse _).mpr ⟨hdoc,hst⟩] at hval
        cases hval
      | some a =>
        simp only [Result.value_success,Option.some.injEq]
        obtain ⟨hdoc,hst⟩ := (hparse a).mp hval
        constructor
        · rintro rfl
          exact ⟨hsize,hdoc,hst,rfl⟩
        · rintro ⟨-,hdoc',hst',heq⟩
          have := (hparse _).mpr ⟨hdoc',hst'⟩
          rw [hval] at this
          rw [heq,Option.some.inj this]
    · have hlarge : (Codec.parse L (projectedText L root) snapshot.path).value = none := by
        rw [Codec.parse,if_pos (not_le.mp hsize)]
        rfl
      simp [hlarge,hsize]

/-- On success the notes are the warnings. -/
theorem decode_notes (hC : L.Conforms kMaximumDocumentBytes) (h : Reads L snapshot root)
    (hv : IsVersion2 root) (hs : (decodeAppearanceDocument L snapshot).value.isSome = true) :
    (decodeAppearanceDocument L snapshot).diagnostics =
      (unknownPaths root).map (fun p => unknownNote snapshot (pathText p)) := by
  have hnotes : hasErrors (laidOver L snapshot root).2 = false →
      (laidOver L snapshot root).2 = _ := (root_notes snapshot (parsed_defaults hC) (h.distinct hC)).2
  rw [decode_version2 hC h hv] at hs ⊢
  cases he : hasErrors (laidOver L snapshot root).2 with
  | true => simp [he] at hs
  | false =>
    simp only [he,Bool.false_eq_true,if_false] at hs ⊢
    split at hs
    · simp at hs
    · exact hnotes he

theorem decode_appearance_iff (hL : L.Permissive) (hC : L.Conforms kMaximumDocumentBytes)
    (h : Reads L snapshot root) (hv : IsVersion2 root) (hback : L.ReadsBack (projection root))
    (a : Appearance) :
    (decodeAppearanceDocument L snapshot).value.map AppearanceDocument.appearance = some a ↔
      (projectedText L root).length ≤ kMaximumDocumentBytes ∧ Sparse.Document root a ∧ StyleTrimmed root := by
  rw [Option.map_eq_some_iff]
  constructor
  · rintro ⟨d,hd,rfl⟩
    obtain ⟨h₁,h₂,h₃,-⟩ := (decode_value_iff hL hC h hv hback d).mp hd
    exact ⟨h₁,h₂,h₃⟩
  · rintro ⟨h₁,h₂,h₃⟩
    exact ⟨⟨snapshot,kEditingDocumentVersion,a⟩,(decode_value_iff hL hC h hv hback _).mpr ⟨h₁,h₂,h₃,rfl⟩,rfl⟩

/-- Unknown fields make no difference. -/
theorem decode_unknown (hL : L.Permissive) (hC : L.Conforms kMaximumDocumentBytes)
    (h : Reads L snapshot root) (hv : IsVersion2 root) (hback : L.ReadsBack (projection root))
    {snapshot' : DocumentSnapshot} {root' : Entries Region} (h' : Reads L snapshot' root')
    (hv' : IsVersion2 root') (hsame : SameKnown root root') :
    (decodeAppearanceDocument L snapshot').value.map AppearanceDocument.appearance =
      (decodeAppearanceDocument L snapshot).value.map AppearanceDocument.appearance := by
  have hp := hsame.projection
  have hback' : L.ReadsBack (projection root') := hp ▸ hback
  apply Option.ext
  intro a
  rw [decode_appearance_iff hL hC h hv hback,decode_appearance_iff hL hC h' hv' hback',
    ← document_projection,← document_projection,projectedText,projectedText,← hp]
  have ht : TypesOk root' ↔ TypesOk root := ⟨hsame.symm.typesOk,hsame.typesOk⟩
  rw [ht]

/-- Decoding as "the built-in preferences overridden by what is present". -/
structure DecodesSparsely (L : Library) (snapshot : DocumentSnapshot) (root : Entries Region) : Prop where
  accepts : (decodeAppearanceDocument L snapshot).value.isSome = true ↔ ∃ a, Sparse.Document root a
  result : ∀ d, (decodeAppearanceDocument L snapshot).value = some d →
    d.snapshot = snapshot ∧ d.documentVersion = kEditingDocumentVersion ∧ Sparse.Document root d.appearance
  warnings : (decodeAppearanceDocument L snapshot).value.isSome = true →
    ∃ paths : List KeyPath, paths.Nodup ∧ (∀ p, p ∈ paths ↔ MaximalUnknown root p) ∧
      (decodeAppearanceDocument L snapshot).diagnostics =
        paths.map (fun p => unknownNote snapshot (pathText p))
  unknown : ∀ snapshot' root', Reads L snapshot' root' → IsVersion2 root' → SameKnown root root' →
    (decodeAppearanceDocument L snapshot').value.map AppearanceDocument.appearance =
      (decodeAppearanceDocument L snapshot).value.map AppearanceDocument.appearance

/-- Sparse decoding is exactly that, except where a style has white space around it or
the projection prints as too large a text. -/
theorem decode_sparse_iff (hL : L.Permissive) (hC : L.Conforms kMaximumDocumentBytes)
    (h : Reads L snapshot root) (hv : IsVersion2 root) (hback : L.ReadsBack (projection root)) :
    DecodesSparsely L snapshot root ↔
      ((∃ a, Sparse.Document root a) →
        StyleTrimmed root ∧ (projectedText L root).length ≤ kMaximumDocumentBytes) := by
  have hd := h.distinct hC
  constructor
  · rintro hs ⟨a,ha⟩
    obtain ⟨d,hdec⟩ := Option.isSome_iff_exists.mp (hs.accepts.mpr ⟨a,ha⟩)
    obtain ⟨hsize,-,hst,-⟩ := (decode_value_iff hL hC h hv hback d).mp hdec
    exact ⟨hst,hsize⟩
  · intro hcond
    refine ⟨⟨fun hs => ?_,fun ⟨a,ha⟩ => ?_⟩,fun d hdec => ?_,fun hs => ?_,
      fun snapshot' root' h' hv' hsame => decode_unknown hL hC h hv hback h' hv' hsame⟩
    · obtain ⟨d,hdec⟩ := Option.isSome_iff_exists.mp hs
      exact ⟨_,((decode_value_iff hL hC h hv hback d).mp hdec).2.1⟩
    · obtain ⟨hst,hsize⟩ := hcond ⟨a,ha⟩
      rw [(decode_value_iff hL hC h hv hback ⟨snapshot,kEditingDocumentVersion,a⟩).mpr ⟨hsize,ha,hst,rfl⟩]
      rfl
    · obtain ⟨-,hdoc,-,heq⟩ := (decode_value_iff hL hC h hv hback d).mp hdec
      exact ⟨by rw [heq],by rw [heq],hdoc⟩
    · obtain ⟨d,hdec⟩ := Option.isSome_iff_exists.mp hs
      have htypes := ((decode_value_iff hL hC h hv hback d).mp hdec).2.1.typesOk
      obtain ⟨src,hversion⟩ := hv
      exact ⟨unknownPaths root,
        nodup_unknownPaths hd.1 (fun s n es hn hes => ((hd.get hn).asTable hes).1),
        mem_unknownPaths hd.1 htypes hversion,decode_notes hC h ⟨src,hversion⟩ hs⟩

end Version2

/-- A text as a snapshot, read as the grammar has it. -/
def snapshotOf (s : Bytes) : DocumentSnapshot :=
  ⟨.none,⟨true,s⟩,Document.collect Reference.library s [] ((Toml.parse s).getD [])⟩

theorem reads_snapshotOf {s : Bytes} (hs : s.length ≤ kMaximumDocumentBytes)
    (hp : (Toml.parse s).isSome = true) :
    Reads Reference.library (snapshotOf s) ((Toml.parse s).getD []) :=
  ⟨hs,Reference.parse_ok hp,rfl,rfl⟩

/-- An accent with white space around it, and an unknown table. -/
def sparseText : Bytes := bytes "version = 2\n[theme]\naccent = ' teal '\n[other]\nx = 1\n"

def sparseRoot : Entries Region := (Toml.parse sparseText).getD []

theorem decode_sparse_accent :
    DecodesSparsely Reference.library (snapshotOf sparseText) sparseRoot ↔
      ((∃ a, Sparse.Document sparseRoot a) → StyleTrimmed sparseRoot ∧
        (projectedText Reference.library sparseRoot).length ≤ kMaximumDocumentBytes) :=
  decode_sparse_iff Reference.permissive (Reference.conforms _)
    (reads_snapshotOf (by decide +kernel) (by decide +kernel))
    ⟨⟨⟨1,11⟩,⟨1,12⟩⟩,by decide +kernel⟩
    ⟨(Toml.parse (projectedText Reference.library sparseRoot)).getD [],Reference.parse_ok (by decide +kernel),
      by decide +kernel⟩

/-- A style with white space around it. -/
def looseStyle : Bytes := bytes "version = 2\n[shape]\nstyle = ' rounded '\n"

def looseRoot : Entries Region :=
  [(bytes "shape",.table ⟨⟨2,1⟩,⟨2,8⟩⟩ false
      [(bytes "style",.scalar ⟨⟨3,9⟩,⟨3,20⟩⟩ (.string (bytes " rounded ")))]),
    (bytes "version",.scalar ⟨⟨1,11⟩,⟨1,12⟩⟩ (.integer 2))]

theorem decode_rejects_looseStyle :
    Toml.parse looseStyle = some looseRoot ∧
      ¬ DecodesSparsely Reference.library (snapshotOf looseStyle) looseRoot := by
  refine ⟨by decide +kernel,fun h => ?_⟩
  have htables : sections.all (fun s => (looseRoot.get s).all Node.isTable) = true := by decide +kernel
  let rounded : Appearance := { defaults with shape := { defaults.shape with style := .rounded } }
  have hvalid : rounded.Valid := by
    have hn : normalized rounded = rounded := by decide +kernel
    exact hn ▸ (validate_eq_nil rounded).mp (by decide +kernel)
  have hdoc : Sparse.Document looseRoot rounded := by
    refine ⟨fun s hs n hn => ?_,rfl,?_,?_,?_,?_,?_,?_,?_,?_,?_,?_,?_,?_,?_,?_,?_,?_,?_,?_,hvalid⟩
    · simpa [hn] using List.all_eq_true.mp htables s hs
    all_goals decide +kernel
  have hnone : (decodeAppearanceDocument Reference.library (snapshotOf looseStyle)).value.isSome = false := by
    decide +kernel
  rw [h.accepts.mpr ⟨rounded,hdoc⟩] at hnone
  cases hnone

end AppearanceDocument
end HolonightConfig
