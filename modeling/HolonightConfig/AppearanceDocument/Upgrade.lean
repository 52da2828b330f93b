import HolonightConfig.AppearanceDocument.Effective
import HolonightConfig.Document.Editable

/-! What a version 1 document that is accepted has in common with a version 2 one: the strict
schema, read as the sparse one, and the fields the editing schema knows. -/
namespace HolonightConfig
open Text Toml Posix

namespace Sparse
open Schema
variable {σ : Type} {root t : Entries σ}

theorem overrides_field {α : Type} {reader : Node Unit → Option α} {s k : Bytes} {v : α}
    (ht : TableField root s t) (h : field reader t k = some v) (builtIn : α) :
    Overrides reader root s k builtIn v := by
  obtain ⟨n,hn,hv⟩ := (field_eq_some ..).mp h
  rw [Overrides,find_of_tableField ht,hn]
  exact hv

theorem overrides_string {s k v : Bytes} (ht : TableField root s t) (h : StringField t k v) (builtIn : Bytes) :
    Overrides trimmedText root s k builtIn v := by
  obtain ⟨text,htext,rfl⟩ := h
  obtain ⟨n,hn,hv⟩ := (field_eq_some ..).mp htext
  rw [Overrides,find_of_tableField ht,hn]
  change (Schema.text n.erase).map trim = _
  rw [hv]
  rfl

theorem overrides_optional {s k : Bytes} {v : Option Binary64} (ht : TableField root s t)
    (h : OptionalField native t k v) : Overrides extentOf root s k none v := by
  unfold OptionalField at h
  split at h
  · obtain ⟨d,hd,rfl⟩ := h
    obtain ⟨n,hn,hv⟩ := (field_eq_some ..).mp hd
    rw [Overrides,find_of_tableField ht,hn]
    change (nativeNum n.erase).map some = _
    rw [show nativeNum n.erase = some d from hv]
    rfl
  · next hc =>
    rw [Overrides,find_of_tableField ht,h]
    have hnone : t.get k = none := by simpa [Entries.contains] using hc
    rw [hnone]
    rfl

/-- A document of the strict schema is a sparse one that is silent about nothing. -/
theorem document_of_native {a : Appearance} (h : Schema.Document native root a)
    (hv : a.version = kDocumentVersion) : Document root a ∧ StyleTrimmed root := by
  obtain ⟨-,-,⟨θ,hθ,-,h₁,h₂⟩,⟨τ,hτ,-,h₃,h₄,h₅,h₆,h₇,h₈,h₉,h₁₀⟩,⟨ι,hι,-,h₁₁,h₁₂,h₁₃⟩,⟨l,hl,-,h₁₄⟩,
    ⟨sh,hsh,-,⟨name,hname,hstyle⟩,h₁₆,h₁₇,h₁₈⟩,valid⟩ := h
  have htable : ∀ {s : Bytes} {t : Entries σ}, TableField root s t → ∀ n, root.get s = some n →
      n.isTable = true := by
    intro s t ht n hn
    rw [TableField,hn,Option.bind_some] at ht
    cases n <;> simp [Node.asTable,Node.isTable] at ht ⊢
  obtain ⟨n,hn,htext⟩ := (field_eq_some ..).mp hname
  have hfind : root.find [bytes "shape",bytes "style"] = some n := by rw [find_of_tableField hsh,hn]
  refine ⟨⟨?_,hv,overrides_string hθ h₁ _,overrides_string hθ h₂ _,overrides_string hτ h₃ _,overrides_field hτ h₄ _,
    overrides_string hτ h₅ _,overrides_field hτ h₆ _,overrides_string hτ h₇ _,overrides_field hτ h₈ _,
    overrides_string hτ h₉ _,overrides_field hτ h₁₀ _,overrides_string hι h₁₁ _,overrides_string hι h₁₂ _,
    overrides_string hι h₁₃ _,overrides_field hl h₁₄ _,?_,overrides_field hsh h₁₆ _,overrides_optional hsh h₁₇,
    overrides_optional hsh h₁₈,valid⟩,?_⟩
  · simp only [sections,List.forall_mem_cons]
    exact ⟨htable hθ,htable hτ,htable hι,htable hl,htable hsh,by simp⟩
  · rw [Overrides,hfind]
    simp only [Option.elim_some,styleOf,trimmedText,htext,Option.map_some,Option.bind_some,trim_styleName hstyle]
    exact hstyle
  · intro m hm name' hname'
    rw [hfind] at hm
    cases hm
    rw [htext] at hname'
    cases hname'
    exact trim_styleName hstyle

theorem find_section (root : Entries σ) (s k : Bytes) :
    root.find [s,k] = ((root.get s).bind Node.asTable).bind (fun t => t.get k) := rfl

/-- The version is none of the known fields. -/
theorem sameKnown_replace {root root' : Entries σ} {n : Node Unit}
    (h : Node.eraseEntries root' = Entries.replace (bytes "version") n (Node.eraseEntries root)) :
    SameKnown root root' := by
  have hget : ∀ s ∈ sections, (root.get s).map Node.erase = (root'.get s).map Node.erase := by
    intro s hs
    have hne : s ≠ bytes "version" := by
      rintro rfl
      exact version_notMem_sections hs
    rw [← Entries.get_eraseEntries,← Entries.get_eraseEntries,h]
    exact (Entries.lookup_replace_of_ne hne n _).symm
  have herase : ∀ (es : Entries σ) s k, (es.find [s,k]).map Node.erase =
      (((es.get s).map Node.erase).bind Node.asTable).bind (fun t => Entries.get t k) := by
    intro es s k
    rw [find_section]
    cases es.get s with
    | none => rfl
    | some n =>
      simp only [Option.map_some,Option.bind_some,Node.asTable_erase]
      cases n.asTable with
      | none => rfl
      | some t => simp only [Option.map_some,Option.bind_some,Entries.get_eraseEntries]
  refine ⟨fun s hs => ?_,fun s hs k _ => ?_⟩
  · have htable : ∀ es : Entries σ, (es.get s).map Node.isTable = ((es.get s).map Node.erase).map Node.isTable := by
      intro es
      cases es.get s <;> simp
    rw [htable,htable,hget s hs]
  · rw [herase,herase,hget s hs]

end Sparse

namespace AppearanceDocument
open Document
open Sparse (Kind sections kindOf TypesOk defaultTable defaultTable_spec default_keys default_version
  default_unknown default_field template_section)

/-! ### The editing schema -/

/-- The alternative of the variant that a field of this kind has in the default document. -/
def kindIndex : Kind → ℕ
  | .text => 3
  | .integer => 1
  | .number => 2

section
variable {L : Library}

theorem valueOf_index {n : Node Region} {kind : Kind} (h : kind.admits n.type = true) :
    (valueOf L n).index = kindIndex kind ∨ kindIndex kind = 2 ∧ (valueOf L n).index = 1 := by
  cases n with
  | scalar src v => cases kind <;> cases v <;>
      simp [Kind.admits,Scalar.type,valueOf,Value.index,kindIndex] at h ⊢
  | array src ns => cases kind <;> simp [Kind.admits] at h
  | table src i es => cases kind <;> simp [Kind.admits,Node.type] at h

theorem builtIn_index (src : Region) {v : Scalar} {kind : Kind} (h : v.type = kind.builtIn) :
    (valueOf L (.scalar src v)).index = kindIndex kind := by
  cases kind <;> cases v <;> simp [Scalar.type,Kind.builtIn,valueOf,Value.index,kindIndex] at h ⊢

/-- The overrides of the default document are its known fields, and the version. -/
theorem default_records {template : Entries Region} (hT : Node.eraseEntries template = defaultTable)
    (hd : Node.DistinctEntries template) : ∀ r ∈ records [] template, r.1 = versionKey ∨
      ∃ s ∈ sections, ∃ k kind, r.1 = [s,k] ∧ kindOf s k = some kind ∧ (valueOf L r.2).index = kindIndex kind := by
  intro r hr
  obtain ⟨s,ks,hpath,hfind⟩ := find_records [] template hd r hr
  rw [List.nil_append] at hpath
  have hkey : ∀ n, template.get s = some n → s = bytes "version" ∨ s ∈ sections := by
    intro n hn
    refine default_keys ?_
    rw [← hT,Entries.get_eraseEntries,hn]
    rfl
  cases ks with
  | nil =>
    rcases hkey _ hfind with rfl | hs
    · exact .inl hpath
    · obtain ⟨src,t,hget,-⟩ := template_section hT hs
      have hn : r.2 = .table src false t := Option.some.inj (hfind.symm.trans hget)
      have hinline := inline_records [] template r hr
      rw [hn] at hinline
      exact absurd (hinline rfl) (by simp [Node.isInline])
  | cons k ks =>
    rw [Entries.find,Option.bind_eq_some_iff] at hfind
    obtain ⟨es,hes,hfind⟩ := hfind
    obtain ⟨m,hm,htable⟩ := Option.bind_eq_some_iff.mp hes
    rcases hkey m hm with rfl | hs
    · have hversion := default_version
      rw [← hT,Entries.get_eraseEntries,hm] at hversion
      cases m <;> simp [Node.erase,Node.asTable] at hversion htable
    obtain ⟨src,t,hget,ht⟩ := template_section hT hs
    rw [hm] at hget
    cases hget
    cases htable
    have hfield : ∀ n, es.get k = some n → ∃ kind src v, kindOf s k = some kind ∧ n = .scalar src v ∧
        v.type = kind.builtIn := by
      intro n hn
      have herased : (Node.eraseEntries es : Entries Unit).get k = some n.erase := by
        rw [Entries.get_eraseEntries,hn]
        rfl
      cases hkind : kindOf s k with
      | none =>
        rw [(default_unknown hs hkind ht).1] at herased
        cases herased
      | some kind =>
        rcases default_field hkind ht with ⟨hnone,-,-⟩ | ⟨v,hv,htype,-⟩
        · rw [hnone] at herased
          cases herased
        · rw [hv] at herased
          cases n with
          | scalar src w => cases herased; exact ⟨kind,src,v,rfl,rfl,htype⟩
          | _ => simp [Node.erase] at herased
    cases ks with
    | nil =>
      obtain ⟨kind,src',v,hkind,hn,htype⟩ := hfield r.2 hfind
      exact .inr ⟨s,hs,k,kind,hpath,hkind,by rw [hn]; exact builtIn_index src' htype⟩
    | cons k' ks =>
      rw [Entries.find,Option.bind_eq_some_iff] at hfind
      obtain ⟨es',hes',-⟩ := hfind
      obtain ⟨n,hn,hasTable⟩ := Option.bind_eq_some_iff.mp hes'
      obtain ⟨kind,src',v,-,rfl,-⟩ := hfield n hn
      cases hasTable

/-- Every field of the schema is a known one, and its default has the type of its kind. -/
theorem schema_fields (hC : L.Conforms kMaximumDocumentBytes) :
    ∀ f ∈ (appearanceDocumentSchema L).fields, f.validate = none ∧
      ∃ s ∈ sections, ∃ k kind, f.key = [s,k] ∧ kindOf s k = some kind ∧
        ∀ d, f.defaultValue = some d → d.index = kindIndex kind := by
  intro f hf
  have hoptional : ∀ k, k = bytes "base_radius" ∨ k = bytes "base_chamfer" →
      ∃ s ∈ sections, ∃ k' kind, [bytes "shape",k] = [s,k'] ∧ kindOf s k' = some kind ∧
        ∀ d, (none : Option Value) = some d → d.index = kindIndex kind := by
    intro k hk
    have hknown : (kindOf (bytes "shape") k).isSome = true :=
      List.all_eq_true.mp defaultTable_spec.optional k (by simpa using hk)
    obtain ⟨kind,hkind⟩ := Option.isSome_iff_exists.mp hknown
    exact ⟨bytes "shape",by simp [sections],k,kind,rfl,hkind,fun d hd => by cases hd⟩
  unfold appearanceDocumentSchema at hf
  dsimp only at hf
  rcases List.mem_append.mp hf with hf | hf
  swap
  · simp only [List.mem_cons,List.not_mem_nil,or_false] at hf
    rcases hf with rfl | rfl
    · exact ⟨rfl,hoptional _ (.inl rfl)⟩
    · exact ⟨rfl,hoptional _ (.inr rfl)⟩
  · obtain ⟨e,he,rfl⟩ := List.mem_map.mp hf
    obtain ⟨he,hne⟩ := List.mem_filter.mp he
    refine ⟨rfl,?_⟩
    cases hp : (parseDocument L encodedDefaults .none).value with
    | none => simp [hp] at he
    | some snapshot =>
      obtain ⟨template,hsize,hparse,rfl⟩ := parseDocument_value hp
      have hT : Node.eraseEntries template = defaultTable := by
        have h := parsed_defaults hC
        rw [parsed,hparse] at h
        exact h
      simp only [hp,Option.map_some,Option.getD_some,collect_eq_map] at he
      obtain ⟨r,hr,rfl⟩ := List.mem_map.mp he
      rcases default_records (L := L) hT (hC.distinct hsize hparse) r hr with h | ⟨s,hs,k,kind,hkey,hkind,hindex⟩
      · simp [h] at hne
      · refine ⟨s,hs,k,kind,hkey,hkind,fun d hd => ?_⟩
        cases hd
        exact hindex

/-- With types in order the schema has nothing to say about the fields. -/
theorem schema_silent (hC : L.Conforms kMaximumDocumentBytes) {snapshot : DocumentSnapshot}
    {root : Entries Region} (h : Reads L snapshot root) (ht : TypesOk root) :
    (appearanceDocumentSchema L).fields.flatMap (fieldDiagnostics L snapshot) = [] := by
  rw [List.flatMap_eq_nil_iff]
  intro f hf
  obtain ⟨hvalidate,s,hs,k,kind,hkey,hkind,hdefault⟩ := schema_fields hC f hf
  unfold fieldDiagnostics
  split
  · rfl
  next value hv =>
  rw [hvalidate,if_neg]
  · rfl
  rw [Bool.not_eq_true]
  cases hd : f.defaultValue with
  | none => rfl
  | some d =>
    have hindex := hdefault d hd
    have hval : value.index = kindIndex kind ∨ kindIndex kind = 2 ∧ value.index = 1 := by
      cases hread : snapshot.value f.key with
      | none =>
        rw [hread,hd] at hv
        cases hv
        exact .inl hindex
      | some v =>
        rw [hread] at hv
        cases hv
        rw [hkey,h.value hC (by simp)] at hread
        obtain ⟨e,he,rfl⟩ := Option.map_eq_some_iff.mp hread
        obtain ⟨n,hn,ho⟩ := Option.bind_eq_some_iff.mp he
        unfold overrideOf at ho
        split at ho
        · cases ho
        · cases ho
          exact valueOf_index (ht.2 s hs k kind hkind n hn)
    rcases hval with hval | ⟨htwo,hone⟩
    · simp [hindex,hval]
    · simp [hindex,htwo,hone]

/-! ### The first version -/

variable {current : DocumentSnapshot} {root : Entries Region}

/-- What accepting a document of the first version says of it. -/
theorem decode_version1 (hL : L.Permissive) (hC : L.Conforms kMaximumDocumentBytes) (h : Reads L current root)
    {document : AppearanceDocument} (hd : (decodeAppearanceDocument L current).value = some document)
    (hv : document.documentVersion = kDocumentVersion) :
    document.snapshot = current ∧ (decodeAppearanceDocument L current).diagnostics = [] ∧
    (∃ src, root.get (bytes "version") = some (.scalar src (.integer kDocumentVersion))) ∧
    Schema.Document Schema.converted root document.appearance := by
  unfold decodeAppearanceDocument at hd ⊢
  simp only [h.exists_,Bool.not_true,Bool.false_eq_true,if_false] at hd ⊢
  split at hd
  · next version hversion =>
    split at hd
    · next hone =>
      subst hone
      simp only [if_true]
      have hsound : ∀ b, (Codec.parse L current.revision.bytes current.path).value = some b →
          Schema.Document Schema.converted root b := by
        intro b hb
        rw [← Codec.readers_eq hL]
        exact (Codec.parse_value_iff hL current.path h.size h.parse b).mp hb
      have hsilent : ∀ b, (Codec.parse L current.revision.bytes current.path).value = some b →
          (Codec.parse L current.revision.bytes current.path).diagnostics = [] := by
        intro b hb
        unfold Codec.parse at hb ⊢
        rw [if_neg (not_lt.mpr h.size),h.parse] at hb ⊢
        dsimp only at hb ⊢
        split at hb
        · next he => rw [if_pos he]; rfl
        · cases hb
      cases hread : (Codec.parse L current.revision.bytes current.path).value with
      | none => simp [hread] at hd
      | some b =>
        simp only [hread,Result.value_success,Option.some.injEq] at hd
        subst hd
        exact ⟨rfl,hsilent b hread,version_of_value hC h hversion,hsound b hread⟩
    · next hone =>
      split at hd
      · cases hd
      · split at hd
        · cases hd
        · split at hd
          · cases hd
          · cases hd
            exact absurd hv hone
  · cases hd

/-- A document of the second version without errors has warnings only. -/
theorem decode_silent (hC : L.Conforms kMaximumDocumentBytes) (h : Reads L current root) (hv : IsVersion2 root)
    (hs : (decodeAppearanceDocument L current).value.isSome = true) :
    hasErrors (decodeAppearanceDocument L current).diagnostics = false := by
  rw [decode_notes hC h hv hs]
  unfold hasErrors
  rw [List.any_map,List.any_eq_false]
  intro p _
  simp [Sparse.unknownNote,diagnostic]

end
end AppearanceDocument
end HolonightConfig
