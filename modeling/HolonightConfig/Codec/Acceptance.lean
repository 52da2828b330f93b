import HolonightConfig.Codec.Validation
import HolonightConfig.Toml.Reference
import Mathlib.Tactic.MkIffOfInductiveProp

/-! What version 1 documents the strict reader accepts, and with which values. -/
namespace HolonightConfig
open Text Toml Posix

/-! ### The schema -/

/-- How integer and number fields are read off a node. -/
structure NumberReaders where
  int : Node Unit → Option ℤ
  num : Node Unit → Option Binary64

namespace Schema
variable {σ : Type}

def text : Node Unit → Option Bytes
  | .scalar _ (.string s) => some s
  | _ => none

/-- A field of a table through a reader of nodes. -/
def field {α : Type} (reader : Node Unit → Option α) (t : Entries σ) (k : Bytes) : Option α :=
  (t.get k).bind (fun n => reader n.erase)

def OnlyKeys (t : Entries σ) (keys : List Bytes) : Prop := ∀ e ∈ t, e.1 ∈ keys

def TableField (root : Entries σ) (k : Bytes) (t : Entries σ) : Prop :=
  (root.get k).bind Node.asTable = some t

def StringField (t : Entries σ) (k v : Bytes) : Prop :=
  ∃ s, field text t k = some s ∧ trim s = v

def StyleField (t : Entries σ) (v : ShapeStyle) : Prop :=
  ∃ name, field text t (bytes "style") = some name ∧ shapeStyleFromName name = some v

def OptionalField (R : NumberReaders) (t : Entries σ) (k : Bytes) (v : Option Binary64) : Prop :=
  if t.contains k then ∃ d, field R.num t k = some d ∧ v = some d else v = none

@[mk_iff]
structure ThemeSchema (t : Entries σ) (v : Theme) : Prop where
  keys : OnlyKeys t [bytes "scheme",bytes "accent"]
  scheme : StringField t (bytes "scheme") v.scheme
  accent : StringField t (bytes "accent") v.accent

@[mk_iff]
structure TypographySchema (R : NumberReaders) (t : Entries σ) (v : Typography) : Prop where
  keys : OnlyKeys t Codec.typographyFields
  uiFamily : StringField t (bytes "ui_family") v.uiFamily
  uiSize : field R.int t (bytes "ui_size") = some v.uiSize
  monospaceFamily : StringField t (bytes "monospace_family") v.monospaceFamily
  monospaceSize : field R.int t (bytes "monospace_size") = some v.monospaceSize
  titleFamily : StringField t (bytes "title_family") v.titleFamily
  titleSize : field R.int t (bytes "title_size") = some v.titleSize
  displayFamily : StringField t (bytes "display_family") v.displayFamily
  displaySize : field R.int t (bytes "display_size") = some v.displaySize

@[mk_iff]
structure IconsSchema (t : Entries σ) (v : Icons) : Prop where
  keys : OnlyKeys t [bytes "theme",bytes "fallback",bytes "cursor"]
  theme : StringField t (bytes "theme") v.theme
  fallback : StringField t (bytes "fallback") v.fallback
  cursor : StringField t (bytes "cursor") v.cursor

@[mk_iff]
structure LayoutSchema (R : NumberReaders) (t : Entries σ) (v : Layout) : Prop where
  keys : OnlyKeys t [bytes "scale"]
  scale : field R.num t (bytes "scale") = some v.scale

@[mk_iff]
structure ShapeSchema (R : NumberReaders) (t : Entries σ) (v : Shape) : Prop where
  keys : OnlyKeys t [bytes "style",bytes "scale",bytes "base_radius",bytes "base_chamfer"]
  style : StyleField t v.style
  scale : field R.num t (bytes "scale") = some v.scale
  baseRadius : OptionalField R t (bytes "base_radius") v.baseRadius
  baseChamfer : OptionalField R t (bytes "base_chamfer") v.baseChamfer

/-- The tree of a version 1 document, and the appearance it stands for. -/
@[mk_iff]
structure Document (R : NumberReaders) (root : Entries σ) (a : Appearance) : Prop where
  keys : OnlyKeys root Codec.rootFields
  version : field R.int root (bytes "version") = some a.version
  theme : ∃ t, TableField root (bytes "theme") t ∧ ThemeSchema t a.theme
  typography : ∃ t, TableField root (bytes "typography") t ∧ TypographySchema R t a.typography
  icons : ∃ t, TableField root (bytes "icons") t ∧ IconsSchema t a.icons
  layout : ∃ t, TableField root (bytes "layout") t ∧ LayoutSchema R t a.layout
  shape : ∃ t, TableField root (bytes "shape") t ∧ ShapeSchema R t a.shape
  valid : a.Valid

/-! The schema sees the values of a tree, not the regions they were read from. -/

theorem field_erase {α : Type} (reader : Node Unit → Option α) (t : Entries σ) (k : Bytes) :
    field reader (Node.eraseEntries t : Entries Unit) k = field reader t k := by
  unfold field
  rw [Entries.get_eraseEntries]
  cases t.get k <;> simp

theorem onlyKeys_erase (t : Entries σ) (keys : List Bytes) :
    OnlyKeys (Node.eraseEntries t : Entries Unit) keys ↔ OnlyKeys t keys := by
  unfold OnlyKeys
  rw [Node.eraseEntries_eq_map]
  simp only [List.forall_mem_map]

theorem tableField_erase (root : Entries σ) (k : Bytes) (u : Entries Unit) :
    TableField (Node.eraseEntries root : Entries Unit) k u ↔
      ∃ t, TableField root k t ∧ Node.eraseEntries t = u := by
  unfold TableField
  rw [Entries.get_eraseEntries]
  cases root.get k with
  | none => simp
  | some n => simp [Node.asTable_erase]

theorem exists_tableField_erase {root : Entries σ} {k : Bytes} {P : Entries Unit → Prop} :
    (∃ u, TableField (Node.eraseEntries root : Entries Unit) k u ∧ P u) ↔
      ∃ t, TableField root k t ∧ P (Node.eraseEntries t) := by
  simp only [tableField_erase]
  constructor
  · rintro ⟨u,⟨t,ht,rfl⟩,hP⟩; exact ⟨t,ht,hP⟩
  · rintro ⟨t,ht,hP⟩; exact ⟨_,⟨t,ht,rfl⟩,hP⟩

theorem optionalField_erase (R : NumberReaders) (t : Entries σ) (k : Bytes) (v : Option Binary64) :
    OptionalField R (Node.eraseEntries t : Entries Unit) k v ↔ OptionalField R t k v := by
  have hc : (Node.eraseEntries t : Entries Unit).contains k = t.contains k := by
    simp [Entries.contains,Entries.get_eraseEntries]
  simp only [OptionalField,field_erase,hc]

theorem document_erase (R : NumberReaders) (root : Entries σ) (a : Appearance) :
    Document R (Node.eraseEntries root : Entries Unit) a ↔ Document R root a := by
  have ht : ∀ (t : Entries σ) k v, StringField (Node.eraseEntries t : Entries Unit) k v ↔ StringField t k v := by
    intro t k v; simp only [StringField,field_erase]
  have hs : ∀ (t : Entries σ) v, StyleField (Node.eraseEntries t : Entries Unit) v ↔ StyleField t v := by
    intro t v; simp only [StyleField,field_erase]
  simp only [document_iff,exists_tableField_erase,themeSchema_iff,typographySchema_iff,iconsSchema_iff,
    layoutSchema_iff,shapeSchema_iff,onlyKeys_erase,field_erase,optionalField_erase,ht,hs]

end Schema

/-! ### The reading functions -/
namespace Codec
open Schema

theorem rejectUnknown_eq_nil (t : Entries Region) (accepted : List Bytes) (pre : Bytes) (path : Path) :
    rejectUnknown t accepted pre path = [] ↔ OnlyKeys t accepted := by
  simp [rejectUnknown,OnlyKeys,List.filter_eq_nil_iff]

theorem requiredTable_of_field {root t : Entries Region} {k : Bytes} (h : TableField root k t) (path : Path) :
    requiredTable root k path = (some t,[]) := by simp [requiredTable,show _ = some t from h]

theorem requiredTable_cases (root : Entries Region) (k : Bytes) (path : Path) :
    (∃ t, TableField root k t ∧ requiredTable root k path = (some t,[])) ∨
    ((∀ t, ¬ TableField root k t) ∧ ∃ d, requiredTable root k path = (none,[d])) := by
  cases h : (root.get k).bind Node.asTable with
  | some t => exact .inl ⟨t,h,requiredTable_of_field h path⟩
  | none => exact .inr ⟨fun t ht => by simp [TableField,h] at ht,_,by simp [requiredTable,h]; rfl⟩

section Fields
variable {α : Type} (accessor : Node Unit → Option α) (t : Entries Region) (key qualified : Bytes)
  (path : Path)

@[simp] theorem requiredValue_value :
    (requiredValue accessor t key qualified path).1 = field accessor t key := by
  unfold requiredValue field
  cases t.get key with
  | none => rfl
  | some n => cases h : accessor n.erase <;> simp [h]

@[simp] theorem requiredValue_silent :
    (requiredValue accessor t key qualified path).2 = [] ↔ ∃ v, field accessor t key = some v := by
  unfold requiredValue field
  cases t.get key with
  | none => simp
  | some n => cases h : accessor n.erase <;> simp [h]

end Fields

/-- The readers the decoder uses. -/
def readers (L : Library) : NumberReaders := ⟨L.toInt64,numberAccessor L⟩

/-- Trimming one section's strings. -/
def trimmedTheme (t : Theme) : Theme := ⟨trim t.scheme,trim t.accent⟩
def trimmedTypography (t : Typography) : Typography :=
  { t with uiFamily := trim t.uiFamily, monospaceFamily := trim t.monospaceFamily,
           titleFamily := trim t.titleFamily, displayFamily := trim t.displayFamily }
def trimmedIcons (i : Icons) : Icons := ⟨trim i.theme,trim i.fallback,trim i.cursor⟩

theorem normalized_eq (a : Appearance) :
    normalized a = ⟨a.version,trimmedTheme a.theme,trimmedTypography a.typography,
      trimmedIcons a.icons,a.layout,a.shape⟩ := rfl

section Sections
variable {L : Library} (hL : L.Permissive) (root : Entries Region) (path : Path)
include hL

theorem toText_eq : L.toText = text := by
  funext n
  rw [hL.toText]
  cases n with
  | scalar u v => cases v <;> rfl
  | array u ns => rfl
  | table u i es => rfl

theorem parseTheme_iff (t₀ v : Theme) :
    (∃ r, parseTheme L root path t₀ = (r,[]) ∧ trimmedTheme r = v) ↔
      ∃ t, TableField root (bytes "theme") t ∧ ThemeSchema t v := by
  constructor
  · rintro ⟨r,h,rfl⟩
    rcases requiredTable_cases root (bytes "theme") path with ⟨t,ht,he⟩ | ⟨-,d,he⟩
    · simp only [parseTheme,he,Prod.mk.injEq,List.append_eq_nil_iff,rejectUnknown_eq_nil,
        requiredValue_silent,requiredValue_value,toText_eq hL] at h
      obtain ⟨rfl,⟨hk,s,hs⟩,a,ha⟩ := h
      exact ⟨t,ht,hk,⟨s,hs,by simp [trimmedTheme,hs]⟩,⟨a,ha,by simp [trimmedTheme,ha]⟩⟩
    · simp [parseTheme,he] at h
  · rintro ⟨t,ht,hk,⟨s,hs,h₁⟩,a,ha,h₂⟩
    refine ⟨⟨s,a⟩,?_,by simp [trimmedTheme,h₁,h₂]⟩
    simp [parseTheme,requiredTable_of_field ht,toText_eq hL,rejectUnknown_eq_nil,hk,hs,ha]

theorem parseIcons_iff (i₀ v : Icons) :
    (∃ r, parseIcons L root path i₀ = (r,[]) ∧ trimmedIcons r = v) ↔
      ∃ t, TableField root (bytes "icons") t ∧ IconsSchema t v := by
  constructor
  · rintro ⟨r,h,rfl⟩
    rcases requiredTable_cases root (bytes "icons") path with ⟨t,ht,he⟩ | ⟨-,d,he⟩
    · simp only [parseIcons,he,Prod.mk.injEq,List.append_eq_nil_iff,rejectUnknown_eq_nil,
        requiredValue_silent,requiredValue_value,toText_eq hL] at h
      obtain ⟨rfl,⟨⟨hk,s,hs⟩,f,hf⟩,c,hc⟩ := h
      exact ⟨t,ht,hk,⟨s,hs,by simp [trimmedIcons,hs]⟩,⟨f,hf,by simp [trimmedIcons,hf]⟩,
        ⟨c,hc,by simp [trimmedIcons,hc]⟩⟩
    · simp [parseIcons,he] at h
  · rintro ⟨t,ht,hk,⟨s,hs,h₁⟩,⟨f,hf,h₂⟩,c,hc,h₃⟩
    refine ⟨⟨s,f,c⟩,?_,by simp [trimmedIcons,h₁,h₂,h₃]⟩
    simp [parseIcons,requiredTable_of_field ht,toText_eq hL,rejectUnknown_eq_nil,hk,hs,hf,hc]

theorem parseTypography_iff (t₀ v : Typography) :
    (∃ r, parseTypography L root path t₀ = (r,[]) ∧ trimmedTypography r = v) ↔
      ∃ t, TableField root (bytes "typography") t ∧ TypographySchema (readers L) t v := by
  constructor
  · rintro ⟨r,h,rfl⟩
    rcases requiredTable_cases root (bytes "typography") path with ⟨t,ht,he⟩ | ⟨-,d,he⟩
    · simp only [parseTypography,he,Prod.mk.injEq,List.append_eq_nil_iff,rejectUnknown_eq_nil,
        requiredValue_silent,requiredValue_value,toText_eq hL] at h
      obtain ⟨rfl,⟨⟨⟨⟨⟨⟨⟨hk,s₁,h₁⟩,n₁,k₁⟩,s₂,h₂⟩,n₂,k₂⟩,s₃,h₃⟩,n₃,k₃⟩,s₄,h₄⟩,n₄,k₄⟩ := h
      refine ⟨t,ht,hk,⟨s₁,h₁,?_⟩,?_,⟨s₂,h₂,?_⟩,?_,⟨s₃,h₃,?_⟩,?_,⟨s₄,h₄,?_⟩,?_⟩ <;>
        simp [trimmedTypography,readers,h₁,h₂,h₃,h₄,k₁,k₂,k₃,k₄]
    · simp [parseTypography,he] at h
  · rintro ⟨t,ht,hk,⟨s₁,h₁,e₁⟩,k₁,⟨s₂,h₂,e₂⟩,k₂,⟨s₃,h₃,e₃⟩,k₃,⟨s₄,h₄,e₄⟩,k₄⟩
    simp only [readers] at k₁ k₂ k₃ k₄
    refine ⟨⟨s₁,v.uiSize,s₂,v.monospaceSize,s₃,v.titleSize,s₄,v.displaySize⟩,?_,
      by simp [trimmedTypography,e₁,e₂,e₃,e₄]⟩
    simp [parseTypography,requiredTable_of_field ht,toText_eq hL,rejectUnknown_eq_nil,hk,h₁,h₂,h₃,h₄,
      k₁,k₂,k₃,k₄]

omit hL in
theorem parseLayout_iff (l₀ v : Layout) :
    parseLayout L root path l₀ = (v,[]) ↔
      ∃ t, TableField root (bytes "layout") t ∧ LayoutSchema (readers L) t v := by
  constructor
  · intro h
    rcases requiredTable_cases root (bytes "layout") path with ⟨t,ht,he⟩ | ⟨-,d,he⟩
    · simp only [parseLayout,requiredNumber,he,Prod.mk.injEq,List.append_eq_nil_iff,
        rejectUnknown_eq_nil,requiredValue_silent,requiredValue_value] at h
      obtain ⟨rfl,hk,d,hd⟩ := h
      exact ⟨t,ht,hk,by simp [readers,hd]⟩
    · simp [parseLayout,he] at h
  · rintro ⟨t,ht,hk,hd⟩
    simp only [readers] at hd
    simp [parseLayout,requiredNumber,requiredTable_of_field ht,rejectUnknown_eq_nil,hk,hd]

theorem parseStyle_iff (t : Entries Region) :
    (∃ ds, parseStyle L path t = (none,ds) ∧ ds ≠ [] ∧ ∀ v, ¬ StyleField t v) ∨
    (∃ v, parseStyle L path t = (some v,[]) ∧ StyleField t v ∧ ∀ w, StyleField t w → w = v) := by
  unfold parseStyle requiredValue StyleField field
  rw [toText_eq hL]
  cases t.get (bytes "style") with
  | none => simp
  | some n =>
    cases hn : text n.erase with
    | none => simp [hn]
    | some name =>
      cases hv : shapeStyleFromName name with
      | none => simp [hn,hv]
      | some v => simp [hn,hv]

omit hL in
theorem optionalNumber_iff (t : Entries Region) (key qualified : Bytes) (v : Option Binary64) :
    optionalNumber L path t key qualified = (v,[]) ↔ OptionalField (readers L) t key v := by
  unfold optionalNumber OptionalField
  split
  · constructor
    · intro h
      have h₁ := congrArg Prod.fst h
      have h₂ := congrArg Prod.snd h
      simp only [requiredNumber,requiredValue_value,requiredValue_silent] at h₁ h₂
      obtain ⟨d,hd⟩ := h₂
      exact ⟨d,hd,by rw [← h₁,hd]⟩
    · rintro ⟨d,hd,rfl⟩
      simp only [readers] at hd
      apply Prod.ext
      · simp [requiredNumber,hd]
      · simp [requiredNumber,hd]
  · simp [eq_comm]

theorem parseShape_iff (s₀ v : Shape) (h₀ : s₀.baseRadius = none ∧ s₀.baseChamfer = none) :
    parseShape L root path s₀ = (v,[]) ↔
      ∃ t, TableField root (bytes "shape") t ∧ ShapeSchema (readers L) t v := by
  constructor
  · intro h
    rcases requiredTable_cases root (bytes "shape") path with ⟨t,ht,he⟩ | ⟨-,d,he⟩
    · simp only [parseShape,requiredNumber,he,Prod.mk.injEq,List.append_eq_nil_iff,
        rejectUnknown_eq_nil,requiredValue_silent,requiredValue_value,h₀,Option.or_none] at h
      obtain ⟨rfl,⟨⟨⟨hk,hs⟩,d,hd⟩,hr⟩,hc⟩ := h
      refine ⟨t,ht,hk,?_,by simp [readers,hd],?_,?_⟩
      · rcases parseStyle_iff hL path t with ⟨ds,hp,hne,-⟩ | ⟨w,hp,hw,-⟩
        · rw [hp] at hs; exact absurd hs hne
        · rw [hp]; exact hw
      · exact (optionalNumber_iff path t _ _ _).mp (Prod.ext rfl hr)
      · exact (optionalNumber_iff path t _ _ _).mp (Prod.ext rfl hc)
    · simp [parseShape,he] at h
  · rintro ⟨t,ht,hk,hs,hd,hr,hc⟩
    simp only [readers] at hd
    rw [← optionalNumber_iff path t (bytes "base_radius") (bytes "shape.base_radius")] at hr
    rw [← optionalNumber_iff path t (bytes "base_chamfer") (bytes "shape.base_chamfer")] at hc
    rcases parseStyle_iff hL path t with ⟨ds,-,-,hn⟩ | ⟨w,hp,hw,hu⟩
    · exact absurd hs (hn _)
    · rw [← hu _ hs] at hp
      simp [parseShape,requiredNumber,requiredTable_of_field ht,rejectUnknown_eq_nil,hk,hd,hr,hc,hp,h₀]

/-- The whole tree: some appearance is read without a diagnostic and has this normal form. -/
theorem parseRoot_iff (a : Appearance) :
    (∃ r, parseRoot L root path = (r,[]) ∧ normalized r = a ∧ (normalized r).Valid) ↔
      Document (readers L) root a := by
  have hs₀ : (({} : Shape).baseRadius = none) ∧ (({} : Shape).baseChamfer = none) := ⟨rfl,rfl⟩
  constructor
  · rintro ⟨r,h,rfl,hv⟩
    simp only [parseRoot,Prod.mk.injEq,List.append_eq_nil_iff,rejectUnknown_eq_nil,
      requiredValue_silent,requiredValue_value] at h
    obtain ⟨rfl,⟨⟨⟨⟨⟨hk,n,hn⟩,ht⟩,hy⟩,hi⟩,hl⟩,hs⟩ := h
    exact {
      keys := hk
      version := by simp [normalized,readers,hn]
      theme := (parseTheme_iff hL root path _ _).mp ⟨_,Prod.ext rfl ht,rfl⟩
      typography := (parseTypography_iff hL root path _ _).mp ⟨_,Prod.ext rfl hy,rfl⟩
      icons := (parseIcons_iff hL root path _ _).mp ⟨_,Prod.ext rfl hi,rfl⟩
      layout := (parseLayout_iff root path _ _).mp (Prod.ext rfl hl)
      shape := (parseShape_iff hL root path _ _ hs₀).mp (Prod.ext rfl hs)
      valid := hv }
  · rintro ⟨hk,hn,ht,hy,hi,hl,hs,hv⟩
    obtain ⟨θ,ht,hθ⟩ := (parseTheme_iff hL root path {} _).mpr ht
    obtain ⟨τ,hy,hτ⟩ := (parseTypography_iff hL root path {} _).mpr hy
    obtain ⟨ι,hi,hι⟩ := (parseIcons_iff hL root path {} _).mpr hi
    have hl := (parseLayout_iff (L := L) root path {} _).mpr hl
    have hs := (parseShape_iff hL root path {} _ hs₀).mpr hs
    have ha : normalized ⟨a.version,θ,τ,ι,a.layout,a.shape⟩ = a := by
      rw [normalized_eq]; simp only [hθ,hτ,hι]
    refine ⟨⟨a.version,θ,τ,ι,a.layout,a.shape⟩,?_,ha,by rwa [ha]⟩
    simp only [readers] at hn
    simp [parseRoot,rejectUnknown_eq_nil,hk,hn,ht,hy,hi,hl,hs]

end Sections

/-! ### Acceptance -/

theorem attachPath_eq_nil (ds : List Diagnostic) (path : Path) : attachPath ds path = [] ↔ ds = [] := by
  unfold attachPath
  split <;> simp

/-- The reader succeeds on a parsed document exactly with the appearance its tree
stands for. -/
theorem parse_value_iff {L : Library} (hL : L.Permissive) {document : Bytes} (path : Path)
    (hsize : document.length ≤ kMaximumDocumentBytes) {root : Entries Region}
    (hroot : L.parse document = .ok root) (a : Appearance) :
    (parse L document path).value = some a ↔ Document (readers L) root a := by
  rw [← parseRoot_iff hL root path]
  simp only [parse,if_neg (not_lt.mpr hsize),hroot]
  split
  · next h =>
    simp only [List.isEmpty_iff,List.append_eq_nil_iff,attachPath_eq_nil,validate_eq_nil,
      normalized_normalized] at h
    constructor
    · intro he
      simp only [Result.value_success,Option.some.injEq] at he
      exact ⟨_,Prod.ext rfl h.1,he,h.2⟩
    · rintro ⟨r,hr,rfl,-⟩
      simp [hr]
  · next h =>
    constructor
    · intro he; cases he
    · rintro ⟨r,hr,rfl,hv⟩
      have hn := (validate_eq_nil (normalized r)).mpr (by simpa using hv)
      simp [hr,hn,attachPath_eq_nil] at h

end Codec

/-! ### Native numbers -/

namespace Schema
variable {σ : Type}

/-- TOML's own integers and numbers, without conversion from another type. -/
def nativeInt : Node Unit → Option ℤ
  | .scalar _ (.integer i) => some i
  | _ => none

def nativeNum : Node Unit → Option Binary64
  | .scalar _ (.integer i) => some (.ofInteger i)
  | .scalar _ (.floating d) => some d
  | _ => none

def native : NumberReaders := ⟨nativeInt,nativeNum⟩

/-- What the converting accessors make of a node. -/
def convertedInt : Node Unit → Option ℤ
  | .scalar _ (.integer i) => some i
  | .scalar _ (.floating d) => d.toInteger.filter (fun i => -2 ^ 63 ≤ i ∧ i < 2 ^ 63)
  | .scalar _ (.boolean b) => some (if b then 1 else 0)
  | _ => none

def convertedNum : Node Unit → Option Binary64
  | .scalar _ (.integer i) => some (.ofInteger i)
  | .scalar _ (.floating d) => some d
  | .scalar _ (.boolean b) => some (.ofInteger (if b then 1 else 0))
  | _ => none

def converted : NumberReaders := ⟨convertedInt,convertedNum⟩

def integerFields : List (List Bytes) :=
  [[bytes "version"],[bytes "typography",bytes "ui_size"],[bytes "typography",bytes "monospace_size"],
    [bytes "typography",bytes "title_size"],[bytes "typography",bytes "display_size"]]

def numberFields : List (List Bytes) :=
  [[bytes "layout",bytes "scale"],[bytes "shape",bytes "scale"],[bytes "shape",bytes "base_radius"],
    [bytes "shape",bytes "base_chamfer"]]

/-- Integer fields hold integers and number fields hold numbers. -/
def NativeNumbers (root : Entries σ) : Prop :=
  (∀ p ∈ integerFields, ∀ n, root.find p = some n → n.type = .integer) ∧
  (∀ p ∈ numberFields, ∀ n, root.find p = some n → n.isNumber = true)

theorem nativeInt_eq_some (n : Node Unit) (i : ℤ) :
    nativeInt n = some i ↔ convertedInt n = some i ∧ n.type = .integer := by
  cases n with
  | scalar u v => cases v <;> simp [nativeInt,convertedInt,Scalar.type]
  | array u ns => simp [nativeInt,convertedInt]
  | table u b es => simp [nativeInt,convertedInt]

theorem nativeNum_eq_some (n : Node Unit) (d : Binary64) :
    nativeNum n = some d ↔ convertedNum n = some d ∧ n.isNumber = true := by
  cases n with
  | scalar u v => cases v <;> simp [nativeNum,convertedNum,Node.isNumber,Scalar.type]
  | array u ns => simp [nativeNum,convertedNum]
  | table u b es => simp [nativeNum,convertedNum]

theorem field_eq_some {α : Type} (reader : Node Unit → Option α) (t : Entries σ) (k : Bytes) (v : α) :
    field reader t k = some v ↔ ∃ n, t.get k = some n ∧ reader n.erase = some v := by
  simp [field,Option.bind_eq_some_iff]

theorem native_int_iff (t : Entries σ) (k : Bytes) (v : ℤ) :
    field nativeInt t k = some v ↔
      field convertedInt t k = some v ∧ ∀ n, t.get k = some n → n.type = .integer := by
  simp only [field_eq_some,nativeInt_eq_some,Node.type_erase]
  constructor
  · rintro ⟨n,hn,hv,ht⟩
    exact ⟨⟨n,hn,hv⟩,fun m hm => by rw [hn] at hm; cases hm; exact ht⟩
  · rintro ⟨⟨n,hn,hv⟩,ht⟩
    exact ⟨n,hn,hv,ht n hn⟩

theorem native_num_iff (t : Entries σ) (k : Bytes) (v : Binary64) :
    field nativeNum t k = some v ↔
      field convertedNum t k = some v ∧ ∀ n, t.get k = some n → n.isNumber = true := by
  have he : ∀ n : Node σ, n.erase.isNumber = n.isNumber := fun n => by simp [Node.isNumber]
  simp only [field_eq_some,nativeNum_eq_some,he]
  constructor
  · rintro ⟨n,hn,hv,ht⟩
    exact ⟨⟨n,hn,hv⟩,fun m hm => by rw [hn] at hm; cases hm; exact ht⟩
  · rintro ⟨⟨n,hn,hv⟩,ht⟩
    exact ⟨n,hn,hv,ht n hn⟩

theorem native_optional_iff (t : Entries σ) (k : Bytes) (v : Option Binary64) :
    OptionalField native t k v ↔
      OptionalField converted t k v ∧ ∀ n, t.get k = some n → n.isNumber = true := by
  unfold OptionalField
  split
  · simp only [native,converted,native_num_iff]
    constructor
    · rintro ⟨d,⟨hd,hn⟩,hv⟩; exact ⟨⟨d,hd,hv⟩,hn⟩
    · rintro ⟨⟨d,hd,hv⟩,hn⟩; exact ⟨d,⟨hd,hn⟩,hv⟩
  · next h =>
    constructor
    · intro hv
      exact ⟨hv,fun n hn => absurd (by simp [Entries.contains,hn]) h⟩
    · exact fun hv => hv.1

theorem native_typography_iff (t : Entries σ) (v : Typography) :
    TypographySchema native t v ↔ TypographySchema converted t v ∧
      (∀ n, t.get (bytes "ui_size") = some n → n.type = .integer) ∧
      (∀ n, t.get (bytes "monospace_size") = some n → n.type = .integer) ∧
      (∀ n, t.get (bytes "title_size") = some n → n.type = .integer) ∧
      (∀ n, t.get (bytes "display_size") = some n → n.type = .integer) := by
  constructor
  · rintro ⟨hk,f₁,h₁,f₂,h₂,f₃,h₃,f₄,h₄⟩
    simp only [native,native_int_iff] at h₁ h₂ h₃ h₄
    exact ⟨⟨hk,f₁,h₁.1,f₂,h₂.1,f₃,h₃.1,f₄,h₄.1⟩,h₁.2,h₂.2,h₃.2,h₄.2⟩
  · rintro ⟨⟨hk,f₁,h₁,f₂,h₂,f₃,h₃,f₄,h₄⟩,n₁,n₂,n₃,n₄⟩
    exact ⟨hk,f₁,(native_int_iff ..).mpr ⟨h₁,n₁⟩,f₂,(native_int_iff ..).mpr ⟨h₂,n₂⟩,
      f₃,(native_int_iff ..).mpr ⟨h₃,n₃⟩,f₄,(native_int_iff ..).mpr ⟨h₄,n₄⟩⟩

theorem native_layout_iff (t : Entries σ) (v : Layout) :
    LayoutSchema native t v ↔ LayoutSchema converted t v ∧
      ∀ n, t.get (bytes "scale") = some n → n.isNumber = true := by
  constructor
  · rintro ⟨hk,h⟩
    obtain ⟨h,hn⟩ := (native_num_iff ..).mp h
    exact ⟨⟨hk,h⟩,hn⟩
  · rintro ⟨⟨hk,h⟩,hn⟩
    exact ⟨hk,(native_num_iff ..).mpr ⟨h,hn⟩⟩

theorem native_shape_iff (t : Entries σ) (v : Shape) :
    ShapeSchema native t v ↔ ShapeSchema converted t v ∧
      (∀ n, t.get (bytes "scale") = some n → n.isNumber = true) ∧
      (∀ n, t.get (bytes "base_radius") = some n → n.isNumber = true) ∧
      (∀ n, t.get (bytes "base_chamfer") = some n → n.isNumber = true) := by
  constructor
  · rintro ⟨hk,hs,h,hr,hc⟩
    obtain ⟨h,hn⟩ := (native_num_iff ..).mp h
    obtain ⟨hr,hrn⟩ := (native_optional_iff ..).mp hr
    obtain ⟨hc,hcn⟩ := (native_optional_iff ..).mp hc
    exact ⟨⟨hk,hs,h,hr,hc⟩,hn,hrn,hcn⟩
  · rintro ⟨⟨hk,hs,h,hr,hc⟩,hn,hrn,hcn⟩
    exact ⟨hk,hs,(native_num_iff ..).mpr ⟨h,hn⟩,(native_optional_iff ..).mpr ⟨hr,hrn⟩,
      (native_optional_iff ..).mpr ⟨hc,hcn⟩⟩

theorem find_of_tableField {root t : Entries σ} {s : Bytes} (h : TableField root s t) (k : Bytes) :
    root.find [s,k] = t.get k := by
  simp only [Entries.find]
  rw [show (root.get s).bind Node.asTable = some t from h]
  rfl

/-- Native numbers are all that the strict schema asks beyond the converting one. -/
theorem native_document_iff (root : Entries σ) (a : Appearance) :
    Document native root a ↔ Document converted root a ∧ NativeNumbers root := by
  constructor
  · rintro ⟨hk,hv,hθ,⟨ty,hty,τ⟩,hι,⟨ly,hly,l⟩,⟨sh,hsh,s⟩,valid⟩
    obtain ⟨hv,n₀⟩ := (native_int_iff ..).mp hv
    obtain ⟨τ,n₁,n₂,n₃,n₄⟩ := (native_typography_iff ..).mp τ
    obtain ⟨l,m₁⟩ := (native_layout_iff ..).mp l
    obtain ⟨s,m₂,m₃,m₄⟩ := (native_shape_iff ..).mp s
    refine ⟨⟨hk,hv,hθ,⟨ty,hty,τ⟩,hι,⟨ly,hly,l⟩,⟨sh,hsh,s⟩,valid⟩,?_,?_⟩
    · simp only [integerFields,List.forall_mem_cons,find_of_tableField hty]
      exact ⟨n₀,n₁,n₂,n₃,n₄,by simp⟩
    · simp only [numberFields,List.forall_mem_cons,find_of_tableField hly,find_of_tableField hsh]
      exact ⟨m₁,m₂,m₃,m₄,by simp⟩
  · rintro ⟨⟨hk,hv,hθ,⟨ty,hty,τ⟩,hι,⟨ly,hly,l⟩,⟨sh,hsh,s⟩,valid⟩,hi,hn⟩
    simp only [integerFields,List.forall_mem_cons,find_of_tableField hty] at hi
    simp only [numberFields,List.forall_mem_cons,find_of_tableField hly,find_of_tableField hsh] at hn
    obtain ⟨n₀,n₁,n₂,n₃,n₄,-⟩ := hi
    obtain ⟨m₁,m₂,m₃,m₄,-⟩ := hn
    exact ⟨hk,(native_int_iff ..).mpr ⟨hv,n₀⟩,hθ,
      ⟨ty,hty,(native_typography_iff ..).mpr ⟨τ,n₁,n₂,n₃,n₄⟩⟩,hι,
      ⟨ly,hly,(native_layout_iff ..).mpr ⟨l,m₁⟩⟩,
      ⟨sh,hsh,(native_shape_iff ..).mpr ⟨s,m₂,m₃,m₄⟩⟩,valid⟩

end Schema

namespace Codec
open Schema

theorem readers_eq {L : Library} (hL : L.Permissive) : readers L = converted := by
  have hi : L.toInt64 = convertedInt := by
    funext n
    rw [hL.toInt64]
    cases n with
    | scalar u v => cases v <;> rfl
    | _ => rfl
  have hn : numberAccessor L = convertedNum := by
    funext n
    unfold numberAccessor
    rw [hL.toDouble,hL.toInt64]
    cases n with
    | scalar u v => cases v <;> rfl
    | _ => rfl
  simp only [readers,hi,hn,converted]

/-! ### Diagnostics -/

def AllErrors (ds : List Diagnostic) : Prop := ∀ d ∈ ds, d.severity = .error

@[simp] theorem allErrors_nil : AllErrors [] := by simp [AllErrors]
@[simp] theorem allErrors_append (ds es : List Diagnostic) :
    AllErrors (ds ++ es) ↔ AllErrors ds ∧ AllErrors es := by simp [AllErrors,or_imp,forall_and]
@[simp] theorem allErrors_singleton (d : Diagnostic) : AllErrors [d] ↔ d.severity = .error := by
  simp [AllErrors]

theorem validate_allErrors (a : Appearance) : AllErrors (validate a) := by
  have hi : ∀ f v n, AllErrors (validateIdentifier f v n) := by
    intro f v n; unfold validateIdentifier; split_ifs <;> simp [addError]
  have hf : ∀ f v, AllErrors (validateFontSize f v) := by
    intro f v; unfold validateFontSize; split_ifs <;> simp [addError]
  have hr : ∀ f v l u, AllErrors (validateFiniteRange f v l u) := by
    intro f v l u; unfold validateFiniteRange; split_ifs <;> simp [addError]
  have ho : ∀ f o, AllErrors (validateOptional f o) := by
    intro f o; cases o with | none => simp [validateOptional] | some d => exact hr f d zero kMaximumShapeExtent
  have hv : AllErrors (validateVersion (normalized a).version) := by
    unfold validateVersion; split_ifs <;> simp
  simp only [validate,allErrors_append,hi,hf,hr,ho,hv,and_self]

theorem attachPath_allErrors {ds : List Diagnostic} (h : AllErrors ds) (path : Path) :
    AllErrors (attachPath ds path) := by
  unfold attachPath
  split
  · exact h
  · intro d hd
    obtain ⟨e,he,rfl⟩ := List.mem_map.mp hd
    exact h e he

theorem parseRoot_allErrors (L : Library) (root : Entries Region) (path : Path) :
    AllErrors (parseRoot L root path).2 := by
  have hr : ∀ t as p, AllErrors (rejectUnknown t as p path) := by
    intro t as p d hd
    obtain ⟨e,-,rfl⟩ := List.mem_map.mp hd
    rfl
  have hv : ∀ {α : Type} (f : Node Unit → Option α) t k q, AllErrors (requiredValue f t k q path).2 := by
    intro α f t k q
    unfold requiredValue
    split
    · simp [missingField,diagnostic]
    · split <;> simp [invalidType,diagnostic]
  have hn : ∀ t k q, AllErrors (requiredNumber L t k q path).2 := fun t k q => hv _ t k q
  have ho : ∀ t k q, AllErrors (optionalNumber L path t k q).2 := by
    intro t k q; unfold optionalNumber; split <;> simp [hn]
  have hs : ∀ t, AllErrors (parseStyle L path t).2 := by
    intro t
    have ht := hv L.toText t (bytes "style") (bytes "shape.style")
    unfold parseStyle
    split
    · next h => rw [h] at ht; exact ht
    · split <;> simp [diagnostic]
  have hq : ∀ k ds, requiredTable root k path = (none,ds) → AllErrors ds := by
    intro k ds h
    unfold requiredTable at h
    split at h
    · cases h
    · cases h; simp [diagnostic]
  have h₁ : ∀ θ, AllErrors (parseTheme L root path θ).2 := by
    intro θ; unfold parseTheme; split
    · next h => exact hq _ _ h
    · simp only [allErrors_append,hr,hv,and_self]
  have h₂ : ∀ θ, AllErrors (parseTypography L root path θ).2 := by
    intro θ; unfold parseTypography; split
    · next h => exact hq _ _ h
    · simp only [allErrors_append,hr,hv,and_self]
  have h₃ : ∀ θ, AllErrors (parseIcons L root path θ).2 := by
    intro θ; unfold parseIcons; split
    · next h => exact hq _ _ h
    · simp only [allErrors_append,hr,hv,and_self]
  have h₄ : ∀ θ, AllErrors (parseLayout L root path θ).2 := by
    intro θ; unfold parseLayout; split
    · next h => exact hq _ _ h
    · simp only [allErrors_append,hr,hn,and_self]
  have h₅ : ∀ θ, AllErrors (parseShape L root path θ).2 := by
    intro θ; unfold parseShape; split
    · next h => exact hq _ _ h
    · simp only [allErrors_append,hr,hn,ho,hs,and_self]
  simp only [parseRoot,allErrors_append,hr,hv,h₁,h₂,h₃,h₄,h₅,and_self]

/-- A failure is never without an error. -/
theorem parse_failure {L : Library} {document : Bytes} {path : Path}
    (h : (parse L document path).value = none) :
    (parse L document path).diagnostics ≠ [] ∧ AllErrors (parse L document path).diagnostics := by
  unfold parse at h ⊢
  split
  · simp [tooLarge,diagnostic]
  · next hs =>
    simp only [if_neg hs] at h
    split
    · simp [diagnostic]
    · next root hr =>
      simp only [hr] at h
      dsimp only
      split
      · next he => simp [he] at h
      · next he =>
        refine ⟨by simpa [List.isEmpty_iff] using he,?_⟩
        simp only [Result.diagnostics_failure,allErrors_append]
        exact ⟨parseRoot_allErrors L root path,attachPath_allErrors (validate_allErrors _) _⟩

/-- Success exactly on documents of the schema, with their values; a failure carries an
error and no value. -/
def AcceptsSchema (L : Library) (document : Bytes) (path : Path) (root : Entries Region) : Prop :=
  ((parse L document path).value.isSome = true ↔ ∃ a, Document native root a) ∧
  (∀ a, (parse L document path).value = some a → Document native root a) ∧
  ((parse L document path).value = none →
    ∃ d ∈ (parse L document path).diagnostics, d.severity = .error)

/-- The reader keeps to the schema except where an accessor converts: a document that
meets it but for a float or a boolean in an integer field, or a boolean in a number
field, is accepted all the same. -/
theorem parse_acceptsSchema_iff {L : Library} (hL : L.Permissive) {document : Bytes} (path : Path)
    (hsize : document.length ≤ kMaximumDocumentBytes) {root : Entries Region}
    (hroot : L.parse document = .ok root) :
    AcceptsSchema L document path root ↔ ((∃ a, Document converted root a) → NativeNumbers root) := by
  have hp : ∀ a, (parse L document path).value = some a ↔ Document converted root a := by
    rw [← readers_eq hL]
    exact parse_value_iff hL path hsize hroot
  constructor
  · rintro ⟨h,-,-⟩ ⟨a,ha⟩
    obtain ⟨b,hb⟩ := h.mp (by rw [(hp a).mpr ha]; rfl)
    exact ((native_document_iff root b).mp hb).2
  · intro h
    refine ⟨?_,?_,?_⟩
    · rw [Option.isSome_iff_exists]
      constructor
      · rintro ⟨a,ha⟩
        have hd := (hp a).mp ha
        exact ⟨a,(native_document_iff root a).mpr ⟨hd,h ⟨a,hd⟩⟩⟩
      · rintro ⟨a,ha⟩
        exact ⟨a,(hp a).mpr ((native_document_iff root a).mp ha).1⟩
    · intro a ha
      have hd := (hp a).mp ha
      exact (native_document_iff root a).mpr ⟨hd,h ⟨a,hd⟩⟩
    · intro hn
      obtain ⟨hne,he⟩ := parse_failure hn
      obtain ⟨d,ds,hd⟩ := List.exists_cons_of_ne_nil hne
      exact ⟨d,by simp [hd],he d (by simp [hd])⟩

/-- A document of the schema but for its version, which is a boolean. -/
def booleanVersion : Bytes :=
  bytes "version = true" ++ (document defaults).drop 11

theorem parse_acceptsSchema_defaults :
    let d := document defaults
    AcceptsSchema Reference.library d .none ((Toml.parse d).getD []) ↔
      ((∃ a, Document converted ((Toml.parse d).getD []) a) → NativeNumbers ((Toml.parse d).getD [])) :=
  parse_acceptsSchema_iff Reference.permissive .none (by decide +kernel)
    (Reference.parse_ok (by decide +kernel))

theorem parse_accepts_booleanVersion :
    ¬ AcceptsSchema Reference.library booleanVersion .none ((Toml.parse booleanVersion).getD []) := by
  rintro ⟨h,-,-⟩
  obtain ⟨a,ha⟩ := h.mp (by decide +kernel)
  have hv : field nativeInt ((Toml.parse booleanVersion).getD []) (bytes "version") = none := by
    decide +kernel
  have := ha.version
  simp [native,hv] at this

end Codec
end HolonightConfig
