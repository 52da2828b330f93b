import HolonightConfig.Codec.Acceptance
import HolonightConfig.Toml.Sections
import HolonightConfig.Number.Decimal

/-! Reading back what the writer writes. -/
namespace HolonightConfig
open Text Toml Toml.Syntax Toml.Lexical Posix

namespace Codec
open Schema

/-- Control characters that a basic string cannot hold and `quote` does not escape. -/
def isUnescapedControl (c : UInt8) : Bool :=
  c < 0x08 || c == 0x0B || (0x0E ≤ c && c ≤ 0x1F) || c == 0x7F

def Representable (s : Bytes) : Prop := ∀ c ∈ s, isUnescapedControl c = false

instance (s : Bytes) : Decidable (Representable s) :=
  decidable_of_iff (s.all (fun c => !isUnescapedControl c) = true) (by simp [Representable])

/-! ### Strings -/

/-- A quoted octet stands for itself, is a control character left as it is, or is an
escape. -/
theorem quoteOctet_cases : ∀ c : UInt8,
    (isNonEol c = true ∧ c ≠ 0x5C ∧ c ≠ 0x22 ∧ quoteOctet c = [c] ∧ isUnescapedControl c = false) ∨
    (isNonEol c = false ∧ c ≠ 0x5C ∧ c ≠ 0x22 ∧ quoteOctet c = [c] ∧ isUnescapedControl c = true) ∨
    ∃ e ∈ ([0x5C,0x22,0x62,0x74,0x6E,0x66,0x72] : Bytes),
      quoteOctet c = [0x5C,e] ∧ escaped e = some c ∧ isUnescapedControl c = false := by
  apply forall_octet
  decide +kernel

/-- The reader of a basic string undoes one quoted octet, or refuses it. -/
theorem read_quoteOctet (c : UInt8) (s : Bytes) :
    (stringStep 0x22 false).read .plain (quoteOctet c ++ s) =
      if isUnescapedControl c then none
      else ((stringStep 0x22 false).read .plain s).map (fun x => (c :: x.1,x.2)) := by
  rcases quoteOctet_cases c with ⟨hn,h₁,h₂,hq,hu⟩ | ⟨hn,h₁,h₂,hq,hu⟩ | ⟨e,-,hq,he,hu⟩
  · rw [hq,hu]
    simp [Transducer.read,stringStep,plainStep,hn,h₁,h₂]
  · rw [hq,hu]
    simp [Transducer.read,stringStep,plainStep,hn,h₁,h₂]
  · rw [hq,hu]
    simp [Transducer.read,stringStep,plainStep,he,Option.map_map,Function.comp_def]

theorem read_quoted (s r : Bytes) :
    singleLine 0x22 (s.flatMap quoteOctet ++ 0x22 :: r) =
      if Representable s then some (s,r) else none := by
  change (stringStep 0x22 false).read .plain _ = _
  induction s with
  | nil => simp [Transducer.read,stringStep,plainStep,Representable]
  | cons c s ih =>
    rw [List.flatMap_cons,List.append_assoc,read_quoteOctet,ih]
    by_cases hc : isUnescapedControl c = true
    · simp [hc,Representable]
    · by_cases hs : Representable s
      · have : Representable (c :: s) := by
          intro d hd
          rcases List.mem_cons.mp hd with rfl | hd
          · simpa using hc
          · exact hs d hd
        simp [hc,hs,this]
      · have : ¬ Representable (c :: s) := fun h => hs (fun d hd => h d (by simp [hd]))
        simp [hc,hs,this]

/-! ### Lines -/

theorem bytes_equals : bytes " = " = [0x20,0x3D,0x20] := by simp [bytes,String.utf8EncodeChar]
theorem bytes_fraction : bytes ".0" = [0x2E,0x30] := by simp [bytes,String.utf8EncodeChar]

def stringEntry (key value : Bytes) : Entry := ⟨key,quote value,.string value⟩
def integerEntry (key : Bytes) (value : ℤ) : Entry :=
  ⟨key,Binary64.decimalInteger value,.integer value⟩
def numberEntry (key : Bytes) (value : Binary64) : Entry := ⟨key,number value,.floating value⟩

def versionEntry : Entry := integerEntry (bytes "version") 1

def themeSection (t : Theme) : Section :=
  ⟨bytes "theme",[stringEntry (bytes "scheme") t.scheme,stringEntry (bytes "accent") t.accent]⟩

def typographySection (t : Typography) : Section :=
  ⟨bytes "typography",
    [stringEntry (bytes "ui_family") t.uiFamily,integerEntry (bytes "ui_size") t.uiSize,
      stringEntry (bytes "monospace_family") t.monospaceFamily,
      integerEntry (bytes "monospace_size") t.monospaceSize,
      stringEntry (bytes "title_family") t.titleFamily,integerEntry (bytes "title_size") t.titleSize,
      stringEntry (bytes "display_family") t.displayFamily,
      integerEntry (bytes "display_size") t.displaySize]⟩

def iconsSection (i : Icons) : Section :=
  ⟨bytes "icons",[stringEntry (bytes "theme") i.theme,stringEntry (bytes "fallback") i.fallback,
    stringEntry (bytes "cursor") i.cursor]⟩

def layoutSection (l : Layout) : Section := ⟨bytes "layout",[numberEntry (bytes "scale") l.scale]⟩

def shapeSection (s : Shape) : Section :=
  ⟨bytes "shape",[stringEntry (bytes "style") (shapeStyleName s.style),
    numberEntry (bytes "scale") s.scale] ++
    ((s.baseRadius.map (numberEntry (bytes "base_radius"))).toList ++
      (s.baseChamfer.map (numberEntry (bytes "base_chamfer"))).toList)⟩

def sections (c : Appearance) : List Section :=
  [themeSection c.theme,typographySection c.typography,iconsSection c.icons,
    layoutSection c.layout,shapeSection c.shape]

@[simp] theorem themeSection_name (t : Theme) : (themeSection t).name = bytes "theme" := by
  simp only [themeSection]
@[simp] theorem typographySection_name (t : Typography) :
    (typographySection t).name = bytes "typography" := by simp only [typographySection]
@[simp] theorem iconsSection_name (i : Icons) : (iconsSection i).name = bytes "icons" := by
  simp only [iconsSection]
@[simp] theorem layoutSection_name (l : Layout) : (layoutSection l).name = bytes "layout" := by
  simp only [layoutSection]
@[simp] theorem shapeSection_name (s : Shape) : (shapeSection s).name = bytes "shape" := by
  simp only [shapeSection]

/-- The lines of the document. -/
def linesOf (c : Appearance) : List Line :=
  versionEntry.line :: (sections c).flatMap Section.lines

theorem text_bareLine (k w : Bytes) (v : Scalar) :
    (bareLine k w v).text = k ++ bytes " = " ++ w ++ newline := by
  simp [bareLine,Line.text,Value.text,newline,bytes_equals]

theorem text_headerLine (k : Bytes) :
    (Section.headerLine k).text = 0x5B :: (k ++ [0x5D,lineFeed]) := by
  simp [Section.headerLine,Line.text,Line.bracket]

theorem document_eq (c : Appearance) : document c = (linesOf c).flatMap Line.text := by
  have h₀ : bytes "version = 1\n\n[theme]\n" = versionEntry.line.text ++
      (Section.emptyLine.text ++ (Section.headerLine (bytes "theme")).text) := by decide +kernel
  have h₁ : bytes "\n[typography]\n" =
      Section.emptyLine.text ++ (Section.headerLine (bytes "typography")).text := by decide +kernel
  have h₂ : bytes "\n[icons]\n" =
      Section.emptyLine.text ++ (Section.headerLine (bytes "icons")).text := by decide +kernel
  have h₃ : bytes "\n[layout]\n" =
      Section.emptyLine.text ++ (Section.headerLine (bytes "layout")).text := by decide +kernel
  have h₄ : bytes "\n[shape]\n" =
      Section.emptyLine.text ++ (Section.headerLine (bytes "shape")).text := by decide +kernel
  simp only [document,h₀,h₁,h₂,h₃,h₄,linesOf,sections,themeSection,typographySection,iconsSection,
    layoutSection,shapeSection]
  cases c.shape.baseRadius <;> cases c.shape.baseChamfer <;>
    simp only [Section.lines,List.flatMap_cons,List.flatMap_nil,List.map_cons,
      List.map_nil,List.nil_append,List.cons_append,List.append_nil,List.append_assoc,Option.map_some,
      Option.map_none,Option.toList_some,Option.toList_none,optionalLine,stringLine,integerLine,
      numberLine,stringEntry,integerEntry,numberEntry,Entry.line,text_bareLine]

def IsKey (k : Bytes) : Prop := k ≠ [] ∧ ∀ c ∈ k, isBareKey c = true

instance (k : Bytes) : Decidable (IsKey k) :=
  decidable_of_iff (k ≠ [] ∧ k.all isBareKey = true) (by simp [IsKey])

/-- The names of the tables and fields that the writer writes. -/
def writtenNames : List String :=
  ["version","theme","typography","icons","layout","shape","scheme","accent","ui_family","ui_size",
    "monospace_family","monospace_size","title_family","title_size","display_family","display_size",
    "fallback","cursor","scale","style","base_radius","base_chamfer"]

/-- What a line relies on of the name it begins with. -/
structure LineKey (k : Bytes) : Prop where
  isKey : IsKey k
  length_le : k.length ≤ 16

theorem lineKey_written {s : String} (h : s ∈ writtenNames) : LineKey (bytes s) := by
  have hall : writtenNames.all (fun s => decide (IsKey (bytes s) ∧ (bytes s).length ≤ 16)) = true := by
    decide +kernel
  have hs := of_decide_eq_true (List.all_eq_true.mp hall s h)
  exact ⟨hs.1,hs.2⟩

/-- What the writer relies on of the name of a shape style. -/
structure StyleWord (w : Bytes) : Prop where
  nonempty : w ≠ []
  representable : Representable w
  valid : Utf8.valid (quote w) = true
  length_le : (stringLine (bytes "style") w).length ≤ 64

theorem styleName_written (s : ShapeStyle) : StyleWord (shapeStyleName s) := by
  have hall : [ShapeStyle.inherit,.hybrid,.rounded,.chamfered].all (fun s =>
      decide (shapeStyleName s ≠ [] ∧ Representable (shapeStyleName s) ∧
        Utf8.valid (quote (shapeStyleName s)) = true ∧
        (stringLine (bytes "style") (shapeStyleName s)).length ≤ 64)) = true := by decide +kernel
  obtain ⟨h₁,h₂,h₃,h₄⟩ := of_decide_eq_true (List.all_eq_true.mp hall s (by cases s <;> simp))
  exact ⟨h₁,h₂,h₃,h₄⟩

/-- A line is refused for a string that cannot be represented, and for nothing else. -/
def Accepted : Line → Prop
  | .assign _ _ _ (.scalar _ (.string s)) _ => Representable s
  | _ => True

theorem isLine_stringEntry {k v : Bytes} (hk : IsKey k) (hv : v ≠ []) :
    IsLine (Accepted (stringEntry k v).line) (stringEntry k v).line := by
  obtain ⟨c,v',rfl⟩ := List.exists_cons_of_ne_nil hv
  have hq : quoteOctet c ≠ [] ∧ (quoteOctet c).head? ≠ some 0x22 := by
    rcases quoteOctet_cases c with ⟨-,-,h,hq,-⟩ | ⟨-,-,h,hq,-⟩ | ⟨e,-,hq,-⟩ <;> rw [hq] <;> simp [*]
  obtain ⟨d,q,hd⟩ := List.exists_cons_of_ne_nil hq.1
  rw [hd] at hq
  have hl := fun r => line_basic (e := (c :: v').flatMap quoteOctet) hk.1 hk.2
    (by simpa [hd] using hq.2) (by simp [hd])
    (o := if Representable (c :: v') then some (c :: v') else none)
    (by intro r; rw [read_quoted]; split <;> rfl) r
  have ht : ∀ r, (stringEntry k (c :: v')).line.text ++ r = k ++ 0x20 :: 0x3D :: 0x20 ::
      (0x22 :: ((c :: v').flatMap quoteOctet ++ 0x22 :: lineFeed :: r)) := by
    simp [stringEntry,Entry.line,text_bareLine,quote,newline,bytes_equals]
  refine ⟨by simp [stringEntry,Entry.line,text_bareLine,newline],?_⟩
  intro r
  rw [ht,hl]
  constructor
  · intro ha
    rw [if_pos (show Representable (c :: v') from ha)]
    rfl
  · intro ha
    rw [if_neg (show ¬ Representable (c :: v') from ha)]
    rfl

theorem isLine_bare {k w : Bytes} {v : Scalar} (hk : IsKey k) (hnw : w ≠ [])
    (hw : ∀ c ∈ w, isBareScalar c = true) (hv : bareValue w = some v) :
    IsLine True (bareLine k w v) := by
  refine ⟨by simp [text_bareLine,newline],?_⟩
  intro r
  have hl := line_bare hk.1 hk.2 hnw hw hv r
  refine ⟨fun _ => ?_,fun h => absurd trivial h⟩
  simpa [text_bareLine,newline,bytes_equals] using hl

/-- The sizes of fonts, as they are printed. -/
theorem decimalInteger_small : ∀ m : Fin 49, bareValue (Binary64.decimalInteger m.val) = some (.integer m.val) ∧
    (Binary64.decimalInteger m.val).all isBareScalar = true ∧ Binary64.decimalInteger m.val ≠ [] ∧
    (Binary64.decimalInteger m.val).length ≤ 2 := by decide +kernel

/-- The font sizes read back, and the version. -/
theorem bareValue_decimalInteger {n : ℤ} (h : 0 ≤ n ∧ n ≤ 48) :
    bareValue (Binary64.decimalInteger n) = some (.integer n) ∧
    (∀ c ∈ Binary64.decimalInteger n, isBareScalar c = true) ∧ Binary64.decimalInteger n ≠ [] := by
  obtain ⟨hread,hbare,hne,-⟩ := decimalInteger_small ⟨n.toNat,by omega⟩
  rw [show ((n.toNat : ℕ) : ℤ) = n by omega] at hread hbare hne
  exact ⟨hread,List.all_eq_true.mp hbare,hne⟩

theorem isLine_integerEntry {k : Bytes} (hk : IsKey k) {n : ℤ} (h : 0 ≤ n ∧ n ≤ 48) :
    IsLine (Accepted (integerEntry k n).line) (integerEntry k n).line := by
  obtain ⟨hv,hw,hne⟩ := bareValue_decimalInteger h
  exact isLine_bare hk hne hw hv

theorem bareScalar_ascii : ∀ c : UInt8, isBareScalar c = true → Utf8.isAscii c = true := by
  apply forall_octet
  decide +kernel

theorem isNumeral_bare : ∀ c : UInt8, Binary64.isNumeral c = true →
    isBareScalar c = true ∧ Utf8.isAscii c = true := by
  apply forall_octet
  decide +kernel

theorem number_spec {d : Binary64} (h : d.isFinite = true) :
    number d ≠ [] ∧ (∀ c ∈ number d, Binary64.isNumeral c = true) ∧ (number d).length ≤ 27 := by
  obtain ⟨hn,hc,hl⟩ := Binary64.general_spec (p := 17) (by decide) h
  unfold number
  dsimp only
  split
  · exact ⟨hn,hc,by omega⟩
  · refine ⟨by simp [hn],?_,by simp [bytes_fraction]; omega⟩
    intro c hc'
    rcases List.mem_append.mp hc' with hc' | hc'
    · exact hc c hc'
    · exact List.all_eq_true.mp (by decide +kernel : (bytes ".0").all Binary64.isNumeral = true) c hc'

/-- Printing a number and reading it as TOML gives it back. -/
def NumberInverse (d : Binary64) : Prop := bareValue (number d) = some (.floating d)

instance (d : Binary64) : Decidable (NumberInverse d) := by unfold NumberInverse; infer_instance

theorem isLine_numberEntry {k : Bytes} (hk : IsKey k) {d : Binary64} (hf : d.isFinite = true)
    (hd : NumberInverse d) : IsLine (Accepted (numberEntry k d).line) (numberEntry k d).line := by
  obtain ⟨hne,hc,-⟩ := number_spec hf
  exact isLine_bare hk hne (fun c h => (isNumeral_bare c (hc c h)).1) hd

theorem isLine_headerLine {k : Bytes} (hk : IsKey k) :
    IsLine (Accepted (Section.headerLine k)) (Section.headerLine k) := by
  refine ⟨by simp [text_headerLine],?_⟩
  intro r
  refine ⟨fun _ => ?_,fun h => absurd trivial h⟩
  rw [text_headerLine]
  simpa [Section.headerLine] using line_header hk.1 hk.2 r

theorem isLine_emptyLine : IsLine (Accepted Section.emptyLine) Section.emptyLine :=
  ⟨by simp [Section.emptyLine,Line.text],fun r => ⟨fun _ => line_empty r,fun h => absurd trivial h⟩⟩

/-- What the numbers of an appearance are assumed of. -/
structure NumbersInverse (a : Appearance) : Prop where
  layout : NumberInverse a.layout.scale
  shape : NumberInverse a.shape.scale
  baseRadius : ∀ d, a.shape.baseRadius = some d → NumberInverse d
  baseChamfer : ∀ d, a.shape.baseChamfer = some d → NumberInverse d

/-- The string fields. -/
def strings (a : Appearance) : List Bytes :=
  [a.theme.scheme,a.theme.accent,a.typography.uiFamily,a.typography.monospaceFamily,
    a.typography.titleFamily,a.typography.displayFamily,a.icons.theme,a.icons.fallback,a.icons.cursor]

theorem isLine_section {s : Section} (hk : IsKey s.name)
    (he : ∀ e ∈ s.entries, IsLine (Accepted e.line) e.line) : ∀ l ∈ s.lines, IsLine (Accepted l) l := by
  simp only [Section.lines,List.forall_mem_cons,List.forall_mem_map]
  exact ⟨isLine_emptyLine,isLine_headerLine hk,he⟩

theorem isLine_optional {k : Bytes} (hk : IsKey k) {o : Option Binary64}
    (h : ∀ d, o = some d → d.isFinite = true ∧ NumberInverse d) :
    ∀ e ∈ (o.map (numberEntry k)).toList, IsLine (Accepted e.line) e.line := by
  cases o with
  | none => simp
  | some d =>
    obtain ⟨hf,hi⟩ := h d rfl
    simpa using isLine_numberEntry hk hf hi

theorem isLine_linesOf {c : Appearance} (hc : c.Valid) (hn : NumbersInverse c) :
    ∀ l ∈ linesOf c, IsLine (Accepted l) l := by
  have key : ∀ {s : String}, s ∈ writtenNames → IsKey (bytes s) := fun h => (lineKey_written h).isKey
  have hs : ∀ {s : String} {v : Bytes} {n : ℕ}, s ∈ writtenNames → Identifier n v →
      IsLine (Accepted (stringEntry (bytes s) v).line) (stringEntry (bytes s) v).line :=
    fun hk hv => isLine_stringEntry (key hk) hv.nonempty
  have hi : ∀ {s : String} {n : ℤ}, s ∈ writtenNames → FontSize n →
      IsLine (Accepted (integerEntry (bytes s) n).line) (integerEntry (bytes s) n).line :=
    fun hk hf => isLine_integerEntry (key hk) ⟨by have := hf.1; omega,hf.2⟩
  have hstyle := (styleName_written c.shape.style).nonempty
  obtain ⟨-,θ,τ,ι,l,σ⟩ := hc
  have hall : ∀ s ∈ sections c, ∀ l ∈ s.lines, IsLine (Accepted l) l := by
    simp only [sections,List.forall_mem_cons]
    refine ⟨isLine_section (key (by simp [writtenNames])) ?_,
      isLine_section (key (by simp [writtenNames])) ?_,
      isLine_section (key (by simp [writtenNames])) ?_,
      isLine_section (key (by simp [writtenNames])) ?_,
      isLine_section (key (by simp [writtenNames])) ?_,by simp⟩
    · simp only [themeSection,List.forall_mem_cons]
      exact ⟨hs (by simp [writtenNames]) θ.scheme,hs (by simp [writtenNames]) θ.accent,by simp⟩
    · simp only [typographySection,List.forall_mem_cons]
      exact ⟨hs (by simp [writtenNames]) τ.uiFamily,hi (by simp [writtenNames]) τ.uiSize,
        hs (by simp [writtenNames]) τ.monospaceFamily,hi (by simp [writtenNames]) τ.monospaceSize,
        hs (by simp [writtenNames]) τ.titleFamily,hi (by simp [writtenNames]) τ.titleSize,
        hs (by simp [writtenNames]) τ.displayFamily,hi (by simp [writtenNames]) τ.displaySize,by simp⟩
    · simp only [iconsSection,List.forall_mem_cons]
      exact ⟨hs (by simp [writtenNames]) ι.theme,hs (by simp [writtenNames]) ι.fallback,
        hs (by simp [writtenNames]) ι.cursor,by simp⟩
    · simp only [layoutSection,List.forall_mem_cons]
      exact ⟨isLine_numberEntry (key (by simp [writtenNames])) l.finite hn.layout,by simp⟩
    · simp only [shapeSection,List.cons_append,List.nil_append,List.forall_mem_cons,
        List.forall_mem_append]
      exact ⟨isLine_stringEntry (key (by simp [writtenNames])) hstyle,
        isLine_numberEntry (key (by simp [writtenNames])) σ.scale.finite hn.shape,
        isLine_optional (key (by simp [writtenNames]))
          (fun d h => ⟨(σ.baseRadius d h).finite,hn.baseRadius d h⟩),
        isLine_optional (key (by simp [writtenNames]))
          (fun d h => ⟨(σ.baseChamfer d h).finite,hn.baseChamfer d h⟩)⟩
  intro l hl
  rcases List.mem_cons.mp hl with rfl | hl
  · exact isLine_integerEntry (key (by simp [writtenNames])) (by omega)
  · obtain ⟨s,hs,hl⟩ := List.mem_flatMap.mp hl
    exact hall s hs l hl

/-- The lines of a section are accepted if its entries are. -/
theorem accepted_section (s : Section) :
    (∀ l ∈ s.lines, Accepted l) ↔ ∀ e ∈ s.entries, Accepted e.line := by
  simp only [Section.lines,List.forall_mem_cons,List.forall_mem_map]
  exact ⟨fun h => h.2.2,fun h => ⟨trivial,trivial,h⟩⟩

theorem accepted_iff (c : Appearance) :
    (∀ l ∈ linesOf c, Accepted l) ↔ ∀ s ∈ strings c, Representable s := by
  have hs : ∀ k v, Accepted (stringEntry k v).line ↔ Representable v := fun _ _ => Iff.rfl
  have hi : ∀ k n, Accepted (integerEntry k n).line ↔ True := fun _ _ => Iff.rfl
  have hn : ∀ k d, Accepted (numberEntry k d).line ↔ True := fun _ _ => Iff.rfl
  have ho : ∀ k (o : Option Binary64),
      (∀ e ∈ (o.map (numberEntry k)).toList, Accepted e.line) ↔ True := by
    intro k o; cases o <;> simp [hn]
  have hstyle := (styleName_written c.shape.style).representable
  have hsec : (∀ l ∈ (sections c).flatMap Section.lines, Accepted l) ↔
      ∀ s ∈ sections c, ∀ e ∈ s.entries, Accepted e.line := by
    simp only [List.forall_mem_flatMap,accepted_section]
  rw [linesOf,List.forall_mem_cons,hsec]
  simp only [versionEntry,List.forall_mem_cons,hi,true_and,sections,themeSection,typographySection,
    iconsSection,layoutSection,shapeSection,List.cons_append,List.nil_append,List.forall_mem_append,
    hs,hn,ho,hstyle,strings,and_true]
  tauto

/-! ### Encoding -/

theorem valid_lines {ls : List Line} (h : ∀ l ∈ ls, Utf8.valid l.text = true) :
    Utf8.valid (ls.flatMap Line.text) = true := by
  induction ls with
  | nil => rfl
  | cons l ls ih =>
    rw [List.flatMap_cons,Utf8.valid_append (h l (by simp))]
    exact ih (fun m hm => h m (by simp [hm]))

theorem valid_quote {v : Bytes} (h : Utf8.valid v = true) : Utf8.valid (quote v) = true := by
  have hplain : ∀ b, Utf8.isAscii b = false → quoteOctet b = [b] := by
    apply forall_octet
    decide +kernel
  have hascii : ∀ b, Utf8.isAscii b = true →
      quoteOctet b ≠ [] ∧ (quoteOctet b).all Utf8.isAscii = true := by
    apply forall_octet
    decide +kernel
  simp only [List.all_eq_true] at hascii
  have hf := (Utf8.valid_flatMap hplain hascii v).trans h
  change Utf8.valid ([0x22] ++ (v.flatMap quoteOctet ++ [0x22])) = true
  rw [Utf8.valid_append (by decide),Utf8.valid_append hf]
  decide

/-- A bare key is ASCII. -/
theorem ascii_key {k : Bytes} (hk : IsKey k) : ∀ b ∈ k, Utf8.isAscii b = true := by
  intro b h
  exact bareScalar_ascii b (by simp [isBareScalar,hk.2 b h])

theorem valid_entry {k w : Bytes} {v : Scalar} (hk : IsKey k) (hw : Utf8.valid w = true) :
    Utf8.valid (bareLine k w v).text = true := by
  rw [text_bareLine,List.append_assoc,List.append_assoc,Utf8.valid_append (Utf8.valid_ascii (ascii_key hk)),
    bytes_equals,Utf8.valid_append (by decide),Utf8.valid_append hw]
  decide

theorem valid_section {s : Section} (hk : IsKey s.name)
    (he : ∀ e ∈ s.entries, IsKey e.key ∧ Utf8.valid e.text = true) :
    ∀ l ∈ s.lines, Utf8.valid l.text = true := by
  simp only [Section.lines,List.forall_mem_cons,List.forall_mem_map]
  refine ⟨by decide,?_,fun e h => valid_entry (he e h).1 (he e h).2⟩
  rw [text_headerLine]
  apply Utf8.valid_ascii
  intro b hb
  rcases List.mem_cons.mp hb with rfl | hb
  · decide
  · rcases List.mem_append.mp hb with h | h
    · exact ascii_key hk b h
    · exact List.all_eq_true.mp (by decide : [0x5D,lineFeed].all Utf8.isAscii = true) b h

theorem valid_document {c : Appearance} (hc : c.Valid) : Utf8.valid (document c) = true := by
  have key : ∀ {s : String}, s ∈ writtenNames → IsKey (bytes s) := fun h => (lineKey_written h).isKey
  have hi : ∀ {s : String} {n : ℤ}, s ∈ writtenNames → 0 ≤ n ∧ n ≤ 48 →
      IsKey (integerEntry (bytes s) n).key ∧ Utf8.valid (integerEntry (bytes s) n).text = true := by
    intro s n hk hn
    refine ⟨key hk,?_⟩
    exact Utf8.valid_ascii (fun b hb => bareScalar_ascii b ((bareValue_decimalInteger hn).2.1 b hb))
  have hf : ∀ {n : ℤ}, FontSize n → 0 ≤ n ∧ n ≤ 48 := fun h => ⟨by have := h.1; omega,h.2⟩
  have hn : ∀ {s : String} {d : Binary64}, s ∈ writtenNames → d.isFinite = true →
      IsKey (numberEntry (bytes s) d).key ∧ Utf8.valid (numberEntry (bytes s) d).text = true := by
    intro s d hk hd
    refine ⟨key hk,Utf8.valid_ascii ?_⟩
    exact fun b hb => (isNumeral_bare b ((number_spec hd).2.1 b hb)).2
  have hs : ∀ {s : String} {v : Bytes} {n : ℕ}, s ∈ writtenNames → Identifier n v →
      IsKey (stringEntry (bytes s) v).key ∧ Utf8.valid (stringEntry (bytes s) v).text = true :=
    fun hk h => ⟨key hk,valid_quote h.wellFormed⟩
  have ho : ∀ {s : String} {o : Option Binary64}, s ∈ writtenNames →
      (∀ d, o = some d → ShapeExtent d) → ∀ e ∈ (o.map (numberEntry (bytes s))).toList,
        IsKey e.key ∧ Utf8.valid e.text = true := by
    intro s o hk h
    cases o with
    | none => simp
    | some d => simpa using hn hk (h d rfl).finite
  have hstyle := (styleName_written c.shape.style).valid
  obtain ⟨-,θ,τ,ι,l,σ⟩ := hc
  have hall : ∀ s ∈ sections c, ∀ l ∈ s.lines, Utf8.valid l.text = true := by
    simp only [sections,List.forall_mem_cons]
    refine ⟨valid_section (key (by simp [writtenNames])) ?_,
      valid_section (key (by simp [writtenNames])) ?_,
      valid_section (key (by simp [writtenNames])) ?_,
      valid_section (key (by simp [writtenNames])) ?_,
      valid_section (key (by simp [writtenNames])) ?_,by simp⟩
    · simp only [themeSection,List.forall_mem_cons]
      exact ⟨hs (by simp [writtenNames]) θ.scheme,hs (by simp [writtenNames]) θ.accent,by simp⟩
    · simp only [typographySection,List.forall_mem_cons]
      exact ⟨hs (by simp [writtenNames]) τ.uiFamily,hi (by simp [writtenNames]) (hf τ.uiSize),
        hs (by simp [writtenNames]) τ.monospaceFamily,hi (by simp [writtenNames]) (hf τ.monospaceSize),
        hs (by simp [writtenNames]) τ.titleFamily,hi (by simp [writtenNames]) (hf τ.titleSize),
        hs (by simp [writtenNames]) τ.displayFamily,hi (by simp [writtenNames]) (hf τ.displaySize),by simp⟩
    · simp only [iconsSection,List.forall_mem_cons]
      exact ⟨hs (by simp [writtenNames]) ι.theme,hs (by simp [writtenNames]) ι.fallback,
        hs (by simp [writtenNames]) ι.cursor,by simp⟩
    · simp only [layoutSection,List.forall_mem_cons]
      exact ⟨hn (by simp [writtenNames]) l.finite,by simp⟩
    · simp only [shapeSection,List.cons_append,List.nil_append,List.forall_mem_cons,
        List.forall_mem_append]
      exact ⟨⟨key (by simp [writtenNames]),hstyle⟩,hn (by simp [writtenNames]) σ.scale.finite,
        ho (by simp [writtenNames]) σ.baseRadius,ho (by simp [writtenNames]) σ.baseChamfer⟩
  rw [document_eq]
  apply valid_lines
  intro l hl
  rcases List.mem_cons.mp hl with rfl | hl
  · have hv := hi (s := "version") (n := 1) (by simp [writtenNames]) (by omega)
    exact valid_entry hv.1 hv.2
  · obtain ⟨s,hs,hl⟩ := List.mem_flatMap.mp hl
    exact hall s hs l hl

/-! ### The tree -/

section Holds
variable {entries : List Entry} {sub : List (Bytes × Build)} (h : Build.Holds entries sub)
include h

theorem field_of_holds {α : Type} (reader : Node Unit → Option α) {e : Entry} (he : e ∈ entries) :
    field reader (Build.nodeEntries sub : Entries Region) e.key = reader (.scalar () e.value) := by
  obtain ⟨source,hs⟩ := h.1 e he
  simp only [field,Entries.get,Build.lookup_nodeEntries,hs]
  rfl

theorem onlyKeys_of_holds {keys : List Bytes} (hk : ∀ k ∈ entries.map Entry.key, k ∈ keys) :
    OnlyKeys (Build.nodeEntries sub : Entries Region) keys := by
  intro m hm
  rw [Build.nodeEntries_eq_map] at hm
  obtain ⟨n,hn,rfl⟩ := List.mem_map.mp hm
  exact hk _ (h.2 n hn)

theorem contains_of_holds (k : Bytes) :
    (Build.nodeEntries sub : Entries Region).contains k = true ↔ k ∈ entries.map Entry.key := by
  simp only [Entries.contains,Entries.get,Build.lookup_nodeEntries,Option.isSome_map]
  constructor
  · intro hs
    obtain ⟨b,hb⟩ := Option.isSome_iff_exists.mp hs
    by_contra hn
    have : sub.lookup k = none := by
      rw [List.lookup_eq_none_iff]
      intro m hm
      simp only [bne_iff_ne,ne_eq]
      intro he
      exact hn (he ▸ h.2 m hm)
    simp [this] at hb
  · intro hk
    obtain ⟨e,he,rfl⟩ := List.mem_map.mp hk
    obtain ⟨source,hs⟩ := h.1 e he
    simp [hs]

theorem text_of_holds {k v : Bytes} (he : stringEntry k v ∈ entries) :
    field text (Build.nodeEntries sub : Entries Region) k = some v := field_of_holds h text he

theorem string_of_holds {k v : Bytes} (he : stringEntry k v ∈ entries) (hv : trim v = v) :
    StringField (Build.nodeEntries sub : Entries Region) k v := ⟨v,text_of_holds h he,hv⟩

theorem integer_of_holds {k : Bytes} {n : ℤ} (he : integerEntry k n ∈ entries) :
    field convertedInt (Build.nodeEntries sub : Entries Region) k = some n :=
  field_of_holds h convertedInt he

theorem number_of_holds {k : Bytes} {d : Binary64} (he : numberEntry k d ∈ entries) :
    field convertedNum (Build.nodeEntries sub : Entries Region) k = some d :=
  field_of_holds h convertedNum he

end Holds

/-- An optional number among the entries of a section. -/
theorem optional_of_holds {entries : List Entry} {sub : List (Bytes × Build)}
    (h : Build.Holds entries sub) {k : Bytes} {o : Option Binary64}
    (hsome : ∀ d, o = some d → numberEntry k d ∈ entries)
    (hnone : o = none → k ∉ entries.map Entry.key) :
    OptionalField converted (Build.nodeEntries sub : Entries Region) k o := by
  unfold OptionalField
  cases o with
  | none =>
    rw [if_neg (by rw [contains_of_holds h]; exact hnone rfl)]
  | some d =>
    have hm := hsome d rfl
    rw [if_pos (by rw [contains_of_holds h]; exact List.mem_map_of_mem hm)]
    exact ⟨d,field_of_holds h convertedNum hm,rfl⟩

theorem theme_keys (t : Theme) :
    (themeSection t).entries.map Entry.key = [bytes "scheme",bytes "accent"] := by
  simp only [themeSection,stringEntry,List.map_cons,List.map_nil]

theorem typography_keys (t : Typography) :
    (typographySection t).entries.map Entry.key = typographyFields := by
  simp only [typographySection,stringEntry,integerEntry,List.map_cons,List.map_nil,typographyFields]

theorem icons_keys (i : Icons) : (iconsSection i).entries.map Entry.key =
    [bytes "theme",bytes "fallback",bytes "cursor"] := by
  simp only [iconsSection,stringEntry,List.map_cons,List.map_nil]

theorem layout_keys (l : Layout) : (layoutSection l).entries.map Entry.key = [bytes "scale"] := by
  simp only [layoutSection,numberEntry,List.map_cons,List.map_nil]

theorem shape_keys (s : Shape) : (shapeSection s).entries.map Entry.key =
    [bytes "style",bytes "scale"] ++ ((s.baseRadius.map (fun _ => bytes "base_radius")).toList ++
      (s.baseChamfer.map (fun _ => bytes "base_chamfer")).toList) := by
  unfold shapeSection
  cases s.baseRadius <;> cases s.baseChamfer <;>
    simp only [stringEntry,numberEntry,Option.map_some,Option.map_none,Option.toList_some,
      Option.toList_none,List.map_append,List.map_cons,List.map_nil]

/-- The keys of the shape section: its optional ones exactly if they are set. -/
structure ShapeKeys (s : Shape) (keys : List Bytes) : Prop where
  nodup : keys.Nodup
  baseRadius : s.baseRadius = none → bytes "base_radius" ∉ keys
  baseChamfer : s.baseChamfer = none → bytes "base_chamfer" ∉ keys
  known : ∀ k ∈ keys, k ∈ [bytes "style",bytes "scale",bytes "base_radius",bytes "base_chamfer"]

theorem shape_keys_spec (s : Shape) : ShapeKeys s ((shapeSection s).entries.map Entry.key) := by
  have hall : [bytes "style",bytes "scale",bytes "base_radius",bytes "base_chamfer"].Nodup := by
    decide +kernel
  simp only [List.nodup_cons,List.mem_cons,List.not_mem_nil,or_false,not_or] at hall
  rw [shape_keys]
  constructor
  all_goals
    cases s.baseRadius <;> cases s.baseChamfer <;> simp [hall] <;> tauto

def sectionNames : List Bytes :=
  [bytes "theme",bytes "typography",bytes "icons",bytes "layout",bytes "shape"]

theorem sections_names (c : Appearance) : (sections c).map Section.name = sectionNames := by
  simp only [sections,themeSection_name,typographySection_name,iconsSection_name,layoutSection_name,
    shapeSection_name,List.map_cons,List.map_nil,sectionNames]

theorem sections_nodup (c : Appearance) : ∀ s ∈ sections c, (s.entries.map Entry.key).Nodup := by
  simp only [sections,List.forall_mem_cons,theme_keys,typography_keys,icons_keys,layout_keys]
  have hkeys : [bytes "scheme",bytes "accent"].Nodup ∧ typographyFields.Nodup ∧
      [bytes "theme",bytes "fallback",bytes "cursor"].Nodup := by decide +kernel
  exact ⟨hkeys.1,hkeys.2.1,hkeys.2.2,by simp,(shape_keys_spec c.shape).nodup,by simp⟩

/-- The reading of the first line. -/
theorem line_version : ∃ p source, Reading.start.line versionEntry.line = some
    ⟨p,[],[(bytes "version",.value (.scalar source (.integer 1)))]⟩ := by
  simp only [versionEntry,integerEntry,Entry.line,bareLine,Reading.line,Reading.start,Value.node,
    Option.bind_some,Build.inside,Build.put,List.lookup_nil,Entries.insert,Option.map_some]
  exact ⟨_,_,rfl⟩

theorem table_of_section {r : Reading} {name : Bytes} {source : Region} {sub : List (Bytes × Build)}
    (h : r.entries.lookup name = some (.table .header source sub)) :
    TableField (Build.nodeEntries r.entries : Entries Region) name (Build.nodeEntries sub) := by
  simp [TableField,Entries.get,Build.lookup_nodeEntries,h,Build.node,Node.asTable]

section Schemas
variable {sub : List (Bytes × Build)}

theorem theme_schema {t : Theme} (h : Build.Holds (themeSection t).entries sub)
    (ht : trimmedTheme t = t) : ThemeSchema (Build.nodeEntries sub : Entries Region) t where
  keys := onlyKeys_of_holds h (by rw [theme_keys]; exact fun k hk => hk)
  scheme := string_of_holds h (by simp only [themeSection,List.mem_cons,true_or])
    (congrArg Theme.scheme ht)
  accent := string_of_holds h (by simp only [themeSection,List.mem_cons,true_or,or_true])
    (congrArg Theme.accent ht)

theorem typography_schema {t : Typography} (h : Build.Holds (typographySection t).entries sub)
    (ht : trimmedTypography t = t) :
    TypographySchema converted (Build.nodeEntries sub : Entries Region) t where
  keys := onlyKeys_of_holds h (by rw [typography_keys]; exact fun k hk => hk)
  uiFamily := string_of_holds h (by simp only [typographySection,List.mem_cons,true_or])
    (congrArg Typography.uiFamily ht)
  uiSize := integer_of_holds h (by simp only [typographySection,List.mem_cons,true_or,or_true])
  monospaceFamily := string_of_holds h
    (by simp only [typographySection,List.mem_cons,true_or,or_true])
    (congrArg Typography.monospaceFamily ht)
  monospaceSize := integer_of_holds h
    (by simp only [typographySection,List.mem_cons,true_or,or_true])
  titleFamily := string_of_holds h (by simp only [typographySection,List.mem_cons,true_or,or_true])
    (congrArg Typography.titleFamily ht)
  titleSize := integer_of_holds h (by simp only [typographySection,List.mem_cons,true_or,or_true])
  displayFamily := string_of_holds h (by simp only [typographySection,List.mem_cons,true_or,or_true])
    (congrArg Typography.displayFamily ht)
  displaySize := integer_of_holds h (by simp only [typographySection,List.mem_cons,true_or,or_true])

theorem icons_schema {i : Icons} (h : Build.Holds (iconsSection i).entries sub)
    (ht : trimmedIcons i = i) : IconsSchema (Build.nodeEntries sub : Entries Region) i where
  keys := onlyKeys_of_holds h (by rw [icons_keys]; exact fun k hk => hk)
  theme := string_of_holds h (by simp only [iconsSection,List.mem_cons,true_or])
    (congrArg Icons.theme ht)
  fallback := string_of_holds h (by simp only [iconsSection,List.mem_cons,true_or,or_true])
    (congrArg Icons.fallback ht)
  cursor := string_of_holds h (by simp only [iconsSection,List.mem_cons,true_or,or_true])
    (congrArg Icons.cursor ht)

theorem layout_schema {l : Layout} (h : Build.Holds (layoutSection l).entries sub) :
    LayoutSchema converted (Build.nodeEntries sub : Entries Region) l where
  keys := onlyKeys_of_holds h (by rw [layout_keys]; exact fun k hk => hk)
  scale := number_of_holds h (by simp only [layoutSection,List.mem_cons,true_or])

theorem shape_schema {s : Shape} (h : Build.Holds (shapeSection s).entries sub) :
    ShapeSchema converted (Build.nodeEntries sub : Entries Region) s := by
  have hkeys := shape_keys_spec s
  exact {
    keys := onlyKeys_of_holds h hkeys.known
    style := ⟨shapeStyleName s.style,
      text_of_holds h (by simp only [shapeSection,List.mem_append,List.mem_cons,true_or]),
      shapeStyleFromName_name s.style⟩
    scale := number_of_holds h (by simp only [shapeSection,List.mem_append,List.mem_cons,true_or,or_true])
    baseRadius := optional_of_holds h
      (fun d hd => by simp only [shapeSection,hd,Option.map_some,Option.toList_some,List.mem_append,
        List.mem_singleton,true_or,or_true]) hkeys.baseRadius
    baseChamfer := optional_of_holds h
      (fun d hd => by simp only [shapeSection,hd,Option.map_some,Option.toList_some,List.mem_append,
        List.mem_singleton,or_true]) hkeys.baseChamfer }

end Schemas

/-- The tree of the document meets the schema with the appearance. -/
theorem document_tree {c : Appearance} (hc : c.Valid) (ht : normalized c = c) :
    ∃ r, Reading.start.lines (linesOf c) = some r ∧
      Document converted (Build.nodeEntries r.entries : Entries Region) c := by
  obtain ⟨p,source,hv⟩ := line_version
  have hversion : ∀ k, k ≠ bytes "version" → List.lookup k
      [(bytes "version",Build.value (.scalar source (.integer 1)))] = none := by
    intro k hk
    have hb : (k == bytes "version") = false := by simpa using hk
    simp only [List.lookup_cons,hb,List.lookup_nil]
  obtain ⟨r,hr,hsec,hsame,hkeys⟩ := Reading.lines_sections (sections c)
    ⟨p,[],[(bytes "version",.value (.scalar source (.integer 1)))]⟩
    (by
      intro s hs
      have hm : s.name ∈ sectionNames := sections_names c ▸ List.mem_map_of_mem hs
      apply hversion
      intro he
      exact absurd (he ▸ hm) (by decide +kernel))
    (by rw [sections_names]; decide +kernel) (sections_nodup c)
  refine ⟨r,by rw [linesOf,Reading.lines_cons_of_some hv,hr],?_⟩
  rw [sections_names] at hsame hkeys
  simp only [sections,List.forall_mem_cons,themeSection_name,typographySection_name,iconsSection_name,
    layoutSection_name,shapeSection_name] at hsec
  obtain ⟨⟨_,θ,hθ,θh⟩,⟨_,τ,hτ,τh⟩,⟨_,ι,hι,ιh⟩,⟨_,l,hl,lh⟩,⟨_,σ,hσ,σh⟩,-⟩ := hsec
  have hver := hsame (bytes "version") (by decide +kernel)
  rw [normalized_eq] at ht
  constructor
  · intro m hm
    rw [Build.nodeEntries_eq_map] at hm
    obtain ⟨n,hn,rfl⟩ := List.mem_map.mp hm
    rcases hkeys n hn with ⟨n',hn',he⟩ | h
    · rw [List.mem_singleton] at hn'
      rw [← he,hn']
      exact (by decide +kernel : bytes "version" ∈ rootFields)
    · exact (by decide +kernel : ∀ k ∈ sectionNames, k ∈ rootFields) _ h
  · rw [hc.version]
    simp only [field,Entries.get,Build.lookup_nodeEntries,hver,List.lookup_cons,beq_self_eq_true,
      Option.map_some,Option.bind_some,Build.node,Node.erase,converted,convertedInt]
  · exact ⟨_,table_of_section hθ,theme_schema θh (congrArg Appearance.theme ht)⟩
  · exact ⟨_,table_of_section hτ,typography_schema τh (congrArg Appearance.typography ht)⟩
  · exact ⟨_,table_of_section hι,icons_schema ιh (congrArg Appearance.icons ht)⟩
  · exact ⟨_,table_of_section hl,layout_schema lh⟩
  · exact ⟨_,table_of_section hσ,shape_schema σh⟩
  · exact hc

/-! ### Size -/

theorem length_quote_le (v : Bytes) : (quote v).length ≤ 2 * v.length + 2 := by
  have ho : ∀ c : UInt8, (quoteOctet c).length ≤ 2 := by
    intro c
    rcases quoteOctet_cases c with ⟨-,-,-,h,-⟩ | ⟨-,-,-,h,-⟩ | ⟨e,-,h,-⟩ <;> simp [h]
  have hf : (v.flatMap quoteOctet).length ≤ 2 * v.length := by
    induction v with
    | nil => simp
    | cons c v ih =>
      have := ho c
      simp only [List.flatMap_cons,List.length_append,List.length_cons]
      omega
  simp only [quote,List.length_cons,List.length_append,List.length_nil]
  omega

theorem length_line_le {k w t : Bytes} {n : ℕ} (ht : t = k ++ bytes " = " ++ w ++ newline)
    (hk : k.length ≤ 16) (hw : w.length ≤ n) : t.length ≤ n + 20 := by
  rw [ht,bytes_equals]
  simp only [List.length_append,List.length_cons,List.length_nil,newline]
  omega

theorem length_stringLine_le {k v : Bytes} {n : ℕ} (hk : k.length ≤ 16) (hv : Identifier n v) :
    (stringLine k v).length ≤ 2 * n + 22 := by
  have hq := length_quote_le v
  have hl := hv.length_le
  exact length_line_le rfl hk (n := 2 * n + 2) (by omega)

theorem length_integerLine_le {k : Bytes} {n : ℤ} (hk : k.length ≤ 16) (hn : FontSize n) :
    (integerLine k n).length ≤ 22 := by
  obtain ⟨-,-,-,hlen⟩ := decimalInteger_small ⟨n.toNat,by have := hn.1; have := hn.2; omega⟩
  rw [show ((n.toNat : ℕ) : ℤ) = n by have := hn.1; omega] at hlen
  exact length_line_le rfl hk hlen

theorem length_numberLine_le {k : Bytes} {d : Binary64} (hk : k.length ≤ 16) (hd : d.isFinite = true) :
    (numberLine k d).length ≤ 47 := length_line_le rfl hk (number_spec hd).2.2

theorem length_optionalLine_le {k : Bytes} {o : Option Binary64} (hk : k.length ≤ 16)
    (h : ∀ d, o = some d → ShapeExtent d) : (optionalLine k o).length ≤ 47 := by
  cases o with
  | none => simp [optionalLine]
  | some d => exact length_numberLine_le hk (h d rfl).finite

theorem length_append_le {a b : Bytes} {m n : ℕ} (ha : a.length ≤ m) (hb : b.length ≤ n) :
    (a ++ b).length ≤ m + n := by
  rw [List.length_append]
  exact Nat.add_le_add ha hb

theorem length_document_le {c : Appearance} (hc : c.Valid) :
    (document c).length ≤ kMaximumDocumentBytes := by
  have key : ∀ {s : String}, s ∈ writtenNames → (bytes s).length ≤ 16 :=
    fun h => (lineKey_written h).length_le
  have hstyle := (styleName_written c.shape.style).length_le
  obtain ⟨-,θ,τ,ι,l,σ⟩ := hc
  have hfixed : ∀ t ∈ [bytes "version = 1\n\n[theme]\n",bytes "\n[typography]\n",bytes "\n[icons]\n",
      bytes "\n[layout]\n",bytes "\n[shape]\n"], t.length ≤ 32 := by decide +kernel
  have hlen : (document c).length ≤ _ :=
    length_append_le (hfixed _ (by simp only [List.mem_cons,true_or])) <|
    length_append_le (length_stringLine_le (key (by simp [writtenNames])) θ.scheme) <|
    length_append_le (length_stringLine_le (key (by simp [writtenNames])) θ.accent) <|
    length_append_le (hfixed _ (by simp only [List.mem_cons,true_or,or_true])) <|
    length_append_le (length_stringLine_le (key (by simp [writtenNames])) τ.uiFamily) <|
    length_append_le (length_integerLine_le (key (by simp [writtenNames])) τ.uiSize) <|
    length_append_le (length_stringLine_le (key (by simp [writtenNames])) τ.monospaceFamily) <|
    length_append_le (length_integerLine_le (key (by simp [writtenNames])) τ.monospaceSize) <|
    length_append_le (length_stringLine_le (key (by simp [writtenNames])) τ.titleFamily) <|
    length_append_le (length_integerLine_le (key (by simp [writtenNames])) τ.titleSize) <|
    length_append_le (length_stringLine_le (key (by simp [writtenNames])) τ.displayFamily) <|
    length_append_le (length_integerLine_le (key (by simp [writtenNames])) τ.displaySize) <|
    length_append_le (hfixed _ (by simp only [List.mem_cons,true_or,or_true])) <|
    length_append_le (length_stringLine_le (key (by simp [writtenNames])) ι.theme) <|
    length_append_le (length_stringLine_le (key (by simp [writtenNames])) ι.fallback) <|
    length_append_le (length_stringLine_le (key (by simp [writtenNames])) ι.cursor) <|
    length_append_le (hfixed _ (by simp only [List.mem_cons,true_or,or_true])) <|
    length_append_le (length_numberLine_le (key (by simp [writtenNames])) l.finite) <|
    length_append_le (hfixed _ (by simp only [List.mem_cons,true_or,or_true])) <|
    length_append_le hstyle <|
    length_append_le (length_numberLine_le (key (by simp [writtenNames])) σ.scale.finite) <|
    length_append_le (length_optionalLine_le (key (by simp [writtenNames])) σ.baseRadius)
      (length_optionalLine_le (key (by simp [writtenNames])) σ.baseChamfer)
  exact hlen.trans (by decide)

/-! ### Round trip -/

theorem content_document (c : Appearance) : content (document c) = document c := by
  have hb : bytes "version = 1\n\n[theme]\n" = 0x76 :: (bytes "version = 1\n\n[theme]\n").tail := by
    unfold bytes
    rfl
  have hn : byteOrderMark.isPrefixOf (document c) = false := by
    unfold document
    rw [hb]
    rfl
  unfold content
  rw [if_neg (by simp [hn])]

theorem length_linesOf (c : Appearance) : (linesOf c).length ≤ readerFuel := by
  have h : (linesOf c).length ≤ 64 := by
    simp only [linesOf,sections,themeSection,typographySection,iconsSection,layoutSection,shapeSection,
      Section.lines,List.flatMap_cons,List.flatMap_nil,List.length_cons,List.length_append,
      List.length_map,List.length_nil]
    cases c.shape.baseRadius <;> cases c.shape.baseChamfer <;> simp
  exact h.trans (by decide)

/-- The grammar reads the document back if every string can be represented, and refuses
it otherwise. -/
theorem toml_document {c : Appearance} (hc : c.Valid) (ht : normalized c = c) (hn : NumbersInverse c) :
    ((∀ s ∈ strings c, Representable s) → ∃ t, Toml.parse (document c) = some t ∧ Document converted t c) ∧
    ((∃ s ∈ strings c, ¬ Representable s) → Toml.parse (document c) = none) := by
  obtain ⟨hall,hsome⟩ := lines_text (isLine_linesOf hc hn) (length_linesOf c)
  constructor
  · intro h
    obtain ⟨r,hr,hd⟩ := document_tree hc ht
    refine ⟨_,?_,hd⟩
    rw [Toml.parse,if_pos (valid_document hc),content_document,document_eq,
      hall ((accepted_iff c).mpr h),Option.bind_some,hr,Option.map_some]
  · rintro ⟨s,hs,h⟩
    have hrej : ∃ l ∈ linesOf c, ¬ Accepted l := by
      by_contra hno
      push Not at hno
      exact h ((accepted_iff c).mp hno s hs)
    rw [Toml.parse,if_pos (valid_document hc),content_document,document_eq,hsome hrej,Option.bind_none,
      Option.map_none]

theorem serialize_value {a : Appearance} {d : Bytes} (h : (serialize a).value = some d) :
    (normalized a).Valid ∧ d = document (normalized a) := by
  simp only [serialize] at h
  split at h
  · next he =>
    rw [List.isEmpty_iff,validate_eq_nil,normalized_normalized] at he
    simp only [Result.value_success,Option.some.injEq] at h
    exact ⟨he,h.symm⟩
  · cases h

/-- What is written is read back as the normal form, within the size limit, exactly if
no string holds a control character that is left unescaped. -/
theorem parse_serialize_iff {L : Library} (hL : L.Permissive) (hT : L.Conforms kMaximumDocumentBytes)
    {a : Appearance} {d : Bytes} (hd : (serialize a).value = some d)
    (hn : NumbersInverse (normalized a)) (path : Path) :
    (d.length ≤ kMaximumDocumentBytes ∧ (parse L d path).value = some (normalized a)) ↔
      ∀ s ∈ strings (normalized a), Representable s := by
  obtain ⟨hc,rfl⟩ := serialize_value hd
  have hsize := length_document_le hc
  obtain ⟨hread,hrej⟩ := toml_document hc (normalized_normalized a) hn
  constructor
  · rintro ⟨-,hp⟩ s hs
    by_contra h
    have hnone := hrej ⟨s,hs,h⟩
    cases hl : L.parse (document (normalized a)) with
    | error e => simp [parse,not_lt.mpr hsize,hl] at hp
    | ok root =>
      obtain ⟨t,ht,-⟩ := hT.ok hsize hl
      rw [hnone] at ht
      cases ht
  · intro h
    refine ⟨hsize,?_⟩
    obtain ⟨t,ht,hdoc⟩ := hread h
    obtain ⟨root,hroot,hw⟩ := hT.parses hsize ht
    rw [parse_value_iff hL path hsize hroot,readers_eq hL]
    have he : Node.eraseEntries root = Node.eraseEntries t := by
      rw [← Node.eraseEntries_withoutEntries root,hw,Node.eraseEntries_withoutEntries]
    rw [← document_erase,he,document_erase]
    exact hdoc

/-- An appearance with white space around its strings, characters that are escaped and both extents. -/
def paddedAppearance : Appearance where
  theme := ⟨bytes " dark\t",bytes "\n\"blue\"\\\tsky"⟩
  layout := ⟨.ofRatio false 5 4⟩
  shape := ⟨.rounded,.ofInteger 1,some (.ofRatio false 9 2),some (.ofInteger 8)⟩

theorem parse_serialize_padded :
    ((document (normalized paddedAppearance)).length ≤ kMaximumDocumentBytes ∧
      (parse Reference.library (document (normalized paddedAppearance)) .none).value = some (normalized paddedAppearance)) ↔
    ∀ s ∈ strings (normalized paddedAppearance), Representable s :=
  parse_serialize_iff Reference.permissive (Reference.conforms _) (a := paddedAppearance) (by decide +kernel)
    ⟨by decide +kernel,by decide +kernel,by decide +kernel,by decide +kernel⟩ .none

/-- The defaults with a control character in the accent. -/
def controlAccent : Appearance := { defaults with theme := { accent := bytes "a\x01b" } }

theorem parse_serialize_control : ∃ d, (serialize controlAccent).value = some d ∧
    (parse Reference.library d .none).value = none :=
  ⟨document controlAccent,by decide +kernel,by decide +kernel⟩

end Codec
end HolonightConfig
