import HolonightConfig.AppearanceDocument.Decoding
import HolonightConfig.AppearanceStore.Readers
import HolonightConfig.Codec.RoundTrip
import HolonightConfig.Store.Faultless

/-! What writers of a path leave there is loaded again: whoever came last, and in whatever chunks
the file is read. -/
namespace HolonightConfig
open Text Toml Toml.Syntax Posix Program

namespace Codec
open Schema

/-- The version of a written document is an integer. -/
theorem document_version {c : Appearance} {r : Reading} (h : Reading.start.lines (linesOf c) = some r) :
    ∃ source, (Build.nodeEntries r.entries : Entries Region).get (bytes "version") =
      some (.scalar source (.integer kDocumentVersion)) := by
  obtain ⟨p,source,hv⟩ := line_version
  have hfresh : ∀ k, k ≠ bytes "version" → List.lookup k
      [(bytes "version",Build.value (.scalar source (.integer 1)))] = none := by
    intro k hk
    have hb : (k == bytes "version") = false := by simpa using hk
    simp only [List.lookup_cons,hb,List.lookup_nil]
  obtain ⟨r',hr,-,hsame,-⟩ := Reading.lines_sections (sections c)
    ⟨p,[],[(bytes "version",.value (.scalar source (.integer 1)))]⟩
    (by
      intro s hs
      have hm : s.name ∈ sectionNames := sections_names c ▸ List.mem_map_of_mem hs
      refine hfresh _ (fun he => ?_)
      exact absurd (he ▸ hm) (by decide +kernel))
    (by rw [sections_names]; decide +kernel) (sections_nodup c)
  rw [linesOf,Reading.lines_cons_of_some hv,hr] at h
  cases h
  rw [sections_names] at hsame
  refine ⟨source,?_⟩
  rw [Entries.get,Build.lookup_nodeEntries,hsame _ (by decide +kernel)]
  simp only [List.lookup_cons,beq_self_eq_true,Option.map_some,Build.node]
  rfl

variable {L : Library} {c : Appearance}

theorem parse_silent {document : Bytes} {path : Path} {a : Appearance} (h : (parse L document path).value = some a) :
    parse L document path = .success a [] := by
  unfold parse at h ⊢
  split at h
  · cases h
  · next hsize =>
    rw [if_neg hsize]
    split at h
    · cases h
    · dsimp only at h ⊢
      split at h
      · next he =>
        rw [if_pos he]
        cases h
        rfl
      · cases h

/-- A written document as it is parsed. -/
theorem parse_document (hT : L.Conforms kMaximumDocumentBytes) (hc : c.Valid) (ht : normalized c = c)
    (hn : NumbersInverse c) (hs : ∀ s ∈ strings c, Representable s) :
    ∃ root, L.parse (document c) = .ok root ∧ Document converted root c ∧
      ∃ source, root.get (bytes "version") = some (.scalar source (.integer kDocumentVersion)) := by
  obtain ⟨r,hr,hdoc⟩ := document_tree hc ht
  obtain ⟨source,hversion⟩ := document_version hr
  have hparse : Toml.parse (document c) = some (Build.nodeEntries r.entries) := by
    rw [Toml.parse,if_pos (valid_document hc),content_document,document_eq,
      (lines_text (isLine_linesOf hc hn) (length_linesOf c)).1 ((accepted_iff c).mpr hs),Option.bind_some,hr,
      Option.map_some]
  obtain ⟨root,hroot,hw⟩ := hT.parses (length_document_le hc) hparse
  have he : Node.eraseEntries root = Node.eraseEntries (Build.nodeEntries r.entries) := by
    rw [← Node.eraseEntries_withoutEntries root,hw,Node.eraseEntries_withoutEntries]
  refine ⟨root,hroot,?_,?_⟩
  · rw [← document_erase,he,document_erase]
    exact hdoc
  · have hget := Entries.get_eraseEntries root (bytes "version")
    rw [he,Entries.get_eraseEntries,hversion] at hget
    cases hroot : root.get (bytes "version") with
    | none =>
      rw [hroot] at hget
      cases hget
    | some n =>
      rw [hroot] at hget
      cases n with
      | scalar src v =>
        cases hget
        exact ⟨src,rfl⟩
      | _ => cases hget

end Codec

namespace Readers
open Codec Schema Storage Change

variable {L : Library}

/-- A document that was written is loaded as the normal form of what was written. -/
theorem load_written (hL : L.Permissive) (hT : L.Conforms kMaximumDocumentBytes) {a : Appearance} {octets : Bytes}
    (ho : (serialize a).value = some octets) (hn : NumbersInverse (normalized a))
    (hs : ∀ s ∈ strings (normalized a), Representable s) (input : Input octets) (hb : input.bad = false)
    (isSymlink : Bool) (path : Path) :
    load L ⟨.ok (.regular octets (some input)),isSymlink⟩ path = .success ⟨normalized a,.file⟩ [] := by
  obtain ⟨hc,rfl⟩ := serialize_value ho
  have hsize := length_document_le hc
  obtain ⟨root,hroot,hdoc,source,hversion⟩ := parse_document hT hc (normalized_normalized a) hn hs
  rw [load_input,if_neg (Nat.not_lt.mpr hsize),loadChunks_eq,input.whole hb,if_neg (Nat.not_lt.mpr hsize),hb,
    if_neg Bool.false_ne_true]
  let snapshot : DocumentSnapshot := ⟨path,⟨true,document (normalized a)⟩,
    HolonightConfig.Document.collect L (document (normalized a)) [] root⟩
  have hsnapshot : (HolonightConfig.Document.parseDocument L (document (normalized a)) path).value = some snapshot := by
    unfold HolonightConfig.Document.parseDocument
    rw [if_neg (Nat.not_lt.mpr hsize),hroot]
    rfl
  have hreads : HolonightConfig.Document.Reads L snapshot root := ⟨hsize,hroot,rfl,rfl⟩
  have hread := parse_silent ((parse_value_iff hL path hsize hroot (normalized a)).mpr
    (by rw [readers_eq hL]; exact hdoc))
  have hvalue : snapshot.value AppearanceDocument.versionKey = some (.integer kDocumentVersion) := by
    rw [hreads.value hT (by simp [AppearanceDocument.versionKey])]
    simp only [AppearanceDocument.versionKey,Entries.find,hversion]
    rfl
  unfold loadDocument
  simp only [hsnapshot,AppearanceDocument.decodeAppearanceDocument,hvalue]
  simp only [snapshot,Bool.not_true,Bool.false_eq_true,if_false,if_true,hread]
  rfl

section
variable {ι : Type} [DecidableEq ι] {path : Path} {writers : ι → Store.Writer} {i : ι} {w : World}
  {p : ι → Command (Result Path)} {s : Store.History ι}

/-- Loading a destination finds the preferences of whichever writer came last, whatever the others are
about to do. -/
theorem writers_loaded (hL : L.Permissive) (hT : L.Conforms kMaximumDocumentBytes)
    (h : Store.NoLinks path w.tree) (hr : Store.Runs path writers w p s) {q : List Name}
    (hq : Store.IsDestination path q) (hlast : Last (some i) (s.changes q)) {m : Metadata} {octets : Bytes}
    (hf : s.file q = some (.regular m octets)) (hn : NumbersInverse (normalized (writers i).appearance))
    (hs : ∀ t ∈ strings (normalized (writers i).appearance), Representable t) (input : Input octets)
    (hb : input.bad = false) (isSymlink : Bool) (from_ : Path) :
    load L ⟨.ok (.regular octets (some input)),isSymlink⟩ from_ =
      .success ⟨normalized (writers i).appearance,.file⟩ [] := by
  obtain ⟨e,he,hwho⟩ := hlast
  have hputs := (hr.serial h hq).last he
  rw [hwho,hf] at hputs
  generalize e.before = before at hputs
  cases hputs with
  | directory hd => cases hd
  | document _ hw =>
    obtain ⟨m',octets',ho,hsame⟩ := hw
    cases hsame
    exact load_written hL hT ho hn hs input hb isSymlink from_

end

theorem writers_loaded_home : ∃ p s q m octets input,
    Store.Runs (.ofLocation [DocumentStore.configName]) Store.homeWriters DocumentStore.bareHome p s ∧
    s.file q = some (.regular m octets) ∧
    load Reference.library ⟨.ok (.regular octets (some input)),false⟩ (.ofLocation [DocumentStore.configName]) =
      .success ⟨normalized defaults,.file⟩ [] := by
  obtain ⟨p,s,r,hrun,-,-,q,m,octets,hq,hf,hlast,-⟩ := Store.homeWriters_runs
  have hstrings : ∀ t ∈ strings (normalized defaults), Representable t := by decide +kernel
  exact ⟨p,s,q,m,octets,⟨[octets],false,by simp,by simp⟩,hrun,hf,writers_loaded Reference.permissive
    (Reference.conforms _) Store.bareHome_noLinks hrun hq hlast hf ⟨by decide +kernel,by decide +kernel,
      by decide +kernel,by decide +kernel⟩ hstrings _ rfl false _⟩

end Readers
end HolonightConfig
