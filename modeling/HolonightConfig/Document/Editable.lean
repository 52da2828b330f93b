import HolonightConfig.Document.Comments
import HolonightConfig.Document.Merge
import HolonightConfig.Document.Overrides
import HolonightConfig.Document.Spans
import HolonightConfig.Toml.Revised

/-! Which overrides can be edited: those that are the value of an assignment of their own.
The scan for it sees one line, which may begin inside the value of the statement. -/
namespace HolonightConfig
open Text Toml Posix

namespace Document

/-! ### The scan of a line -/

/-- The octets outside quotes, where a text is taken for the beginning of a line. -/
def outside (quote : Option UInt8) (escape : Bool) : Bytes → Bytes
  | [] => []
  | c :: r =>
    match quote with
    | some q =>
      if escape then outside quote false r
      else if q = 0x22 ∧ c = 0x5C then outside quote true r
      else if c = q then outside none false r
      else outside quote false r
    | none => if c = 0x27 ∨ c = 0x22 then outside (some c) escape r else c :: outside none escape r

def isStructure (c : UInt8) : Bool := c == 0x7B || c == 0x5B || c == 0x2C || c == 0x23

theorem isStructure_iff {c : UInt8} : isStructure c = true ↔ c = 0x7B ∨ c = 0x5B ∨ c = 0x2C ∨ c = 0x23 := by
  simp [isStructure,or_assoc]

/-- A text that looks like the `key =` of a line: outside quotes it has one equals sign and
no other structure. -/
def LooksAssigned (t : Bytes) : Prop :=
  (outside none false t).count 0x3D = 1 ∧ ∀ c ∈ outside none false t, isStructure c = false

theorem scanPrefix_outside (quote : Option UInt8) (escape equal : Bool) (t : Bytes) :
    scanPrefix quote escape equal t = some true ↔
      (outside quote escape t).count 0x3D + equal.toNat = 1 ∧
      ∀ c ∈ outside quote escape t, isStructure c = false := by
  induction t generalizing quote escape equal with
  | nil => cases equal <;> simp [scanPrefix,outside]
  | cons c t ih =>
    cases quote with
    | some q =>
      simp only [scanPrefix,outside]
      repeat' split
      all_goals exact ih _ _ _
    | none =>
      simp only [scanPrefix,outside]
      split
      · exact ih _ _ _
      · split
        · next hc =>
          cases equal with
          | true => simp [hc]
          | false => simp [hc,ih,isStructure]
        · next hc =>
          split
          · next hs =>
            simp [isStructure_iff.mpr hs]
          · next hs =>
            have : isStructure c = false := by simpa using fun h => hs (isStructure_iff.mp h)
            rw [ih,List.count_cons_of_ne hc]
            simp [this]

theorem assignment_isSome {s : Bytes} {span : SourceSpan} : (assignment s span).isSome = true ↔
    LooksAssigned (slice s (lineStart (s.take span.begin)) span.begin) := by
  have h := scanPrefix_outside none false false (slice s (lineStart (s.take span.begin)) span.begin)
  rw [Bool.toNat_false,Nat.add_zero] at h
  rw [LooksAssigned,← h,assignment]
  split
  · next he => simp [he]
  · next he => simpa using he

/-! ### What stands in front of a value -/

/-- A text within a line that the scan passes over. -/
def Passed (t : Bytes) : Prop :=
  lineFeed ∉ t ∧ ∀ equal r, scanPrefix none false equal (t ++ r) = scanPrefix none false equal r

theorem Passed.nil : Passed [] := ⟨by simp,fun _ _ => rfl⟩

theorem Passed.append {t u : Bytes} (ht : Passed t) (hu : Passed u) : Passed (t ++ u) :=
  ⟨by simp [ht.1,hu.1],fun equal r => by rw [List.append_assoc,ht.2,hu.2]⟩

/-- Octets without a meaning to the scan. -/
def isPassed (c : UInt8) : Bool := c != lineFeed && !Lexical.isQuote c && c != 0x3D && !isStructure c

theorem passed_octets {t : Bytes} (h : ∀ c ∈ t, isPassed c = true) : Passed t := by
  induction t with
  | nil => exact .nil
  | cons c t ih =>
    obtain ⟨hc,ht⟩ := List.forall_mem_cons.mp h
    have ih := ih ht
    simp only [isPassed,Lexical.isQuote,isStructure,Bool.and_eq_true,bne_iff_ne,ne_eq,Bool.not_eq_true',
      Bool.or_eq_false_iff,beq_eq_false_iff_ne] at hc
    refine ⟨by simp [ih.1,Ne.symm hc.1.1.1],fun equal r => ?_⟩
    rw [List.cons_append,scanPrefix,if_neg (by simp [hc]),if_neg hc.1.2,if_neg (by simp [hc]),ih.2]

theorem isPassed_of {c : UInt8} {p : UInt8 → Bool} (h : p c = true) (hl : p lineFeed = false)
    (hq : p 0x22 = false ∧ p 0x27 = false) (he : p 0x3D = false)
    (hs : p 0x7B = false ∧ p 0x5B = false ∧ p 0x2C = false ∧ p 0x23 = false) : isPassed c = true := by
  have hne : ∀ d, p d = false → (c == d) = false := by
    rintro d hd
    rw [beq_eq_false_iff_ne]
    rintro rfl
    rw [h] at hd
    cases hd
  simp [isPassed,Lexical.isQuote,isStructure,bne,hne _ hl,hne _ hq.1,hne _ hq.2,hne _ he,hne _ hs.1,
    hne _ hs.2.1,hne _ hs.2.2.1,hne _ hs.2.2.2]

theorem passed_blanks {t : Bytes} (h : ∀ c ∈ t, Lexical.isBlank c = true) : Passed t :=
  passed_octets (fun c hc => isPassed_of (h c hc) rfl ⟨rfl,rfl⟩ rfl ⟨rfl,rfl,rfl,rfl⟩)

theorem passed_bareKey {t : Bytes} (h : ∀ c ∈ t, Lexical.isBareKey c = true) : Passed t :=
  passed_octets (fun c hc => isPassed_of (h c hc) rfl ⟨rfl,rfl⟩ rfl ⟨rfl,rfl,rfl,rfl⟩)

section
open Lexical Syntax

/-- A step within a single-line string keeps the scan within its quotes. -/
theorem single_scan {q c : UInt8} {st st' : StringState} {out : Bytes} (hq : isQuote q = true)
    (hst : SingleLine st) (h : stringStep q false st (some c) = .next out st') :
    SingleLine st' ∧ c ≠ lineFeed ∧ ∀ equal r,
      scanPrefix (some q) (st = .escape) equal (c :: r) = scanPrefix (some q) (st' = .escape) equal r := by
  have hfeed : c ≠ lineFeed := by
    rintro rfl
    rcases hst with rfl | rfl | ⟨more,value,rfl⟩
    · rcases isQuote_iff.mp hq with rfl | rfl <;> cases h
    · cases h
    · cases h
  refine ⟨(single_next hq hst h []).1,hfeed,fun equal r => ?_⟩
  rcases hst with rfl | rfl | ⟨more,value,rfl⟩
  · obtain ⟨hc,⟨h22,h5c,rfl⟩ | ⟨hn,rfl⟩⟩ := plainStep_single h
    · simp [scanPrefix,h22,h5c]
    · simp [scanPrefix,hn,hc]
  · have hst' : st' ≠ .escape := by
      simp only [stringStep,Bool.false_eq_true,if_false] at h
      repeat' split at h
      all_goals first | cases h; simp | cases h
    simp [scanPrefix,hst']
  · have hst' : st' ≠ .escape := by
      simp only [stringStep] at h
      repeat' split at h
      all_goals first | cases h; simp | cases h
    simp only [stringStep] at h
    split at h
    · cases h
    · next d hd =>
      obtain ⟨hc,hb⟩ := hexValue_other hd
      have hcq : c ≠ q := by
        rintro rfl
        rw [hq] at hc
        cases hc
      simp [scanPrefix,hst',hb,hcq]

/-- Behind a single-line string the scan is outside quotes. -/
theorem quoted_scan {q : UInt8} {st : StringState} {s out r : Bytes} (hq : isQuote q = true)
    (hst : SingleLine st) (h : (stringStep q false).read st s = some (out,r)) :
    ∃ t, s = t ++ r ∧ lineFeed ∉ t ∧ ∀ equal r',
      scanPrefix (some q) (st = .escape) equal (t ++ r') = scanPrefix none false equal r' := by
  induction s generalizing st out with
  | nil =>
    rw [Transducer.read] at h
    split at h
    · next o he => cases (single_ends hst ⟨o,.inr he⟩).2.1
    · cases h
  | cons c s ih =>
    rw [Transducer.read] at h
    split at h
    · cases h
    · next o st' he =>
      obtain ⟨⟨o',r'⟩,hr,heq⟩ := Option.map_eq_some_iff.mp h
      cases heq
      obtain ⟨hst',hc,hscan⟩ := single_scan hq hst he
      obtain ⟨t,rfl,hl,ht⟩ := ih hst' hr
      refine ⟨c :: t,rfl,by simp [hl,Ne.symm hc],fun equal r' => ?_⟩
      rw [List.cons_append,hscan,ht]
    · next o he =>
      cases h
      obtain ⟨rfl,hc,-⟩ := single_ends hst ⟨_,.inl he⟩
      cases hc
      have hl := (isQuote_ne hq).1
      refine ⟨[q],rfl,by simp [Ne.symm hl],fun equal r' => ?_⟩
      rcases isQuote_iff.mp hq with rfl | rfl <;> simp [scanPrefix]
    · next o he =>
      have hs := (single_ends hst ⟨_,.inr he⟩).2.2
      rw [he] at hs
      cases hs

theorem passed_simpleKey {s k r : Bytes} (h : simpleKey s = some (k,r)) : ∃ t, s = t ++ r ∧ Passed t := by
  simp only [simpleKey,Lexer.bind_apply,Lexer.look_apply] at h
  cases hc : (peek s).head? with
  | none => rw [hc] at h; cases h
  | some c =>
    rw [hc] at h
    obtain ⟨s,rfl⟩ := head_of_peek hc
    simp only [] at h
    rw [Lexer.ite_apply] at h
    split at h
    · next hq =>
      simp only [Lexer.bind_apply,Lexer.octet_cons] at h
      obtain ⟨t,rfl,hl,ht⟩ := quoted_scan hq (.inl rfl) h
      have hne := (isQuote_ne hq).1
      refine ⟨c :: t,rfl,by simp [hl,Ne.symm hne],fun equal r' => ?_⟩
      rw [List.cons_append,← ht equal r']
      rcases isQuote_iff.mp hq with rfl | rfl <;> simp [scanPrefix]
    · rw [Lexer.ite_apply] at h
      split at h
      · simp only [Lexer.run,Option.some.injEq,Prod.mk.injEq] at h
        obtain ⟨-,rfl⟩ := h
        exact ⟨_,(List.takeWhile_append_dropWhile).symm,passed_bareKey (fun c => List.mem_takeWhile_imp)⟩
      · cases h

theorem blanks_some {s b r : Bytes} (h : Lexer.run isBlank s = some (b,r)) :
    s = b ++ r ∧ ∀ c ∈ b, isBlank c = true := by
  simp only [Lexer.run,Option.some.injEq,Prod.mk.injEq] at h
  obtain ⟨rfl,rfl⟩ := h
  exact ⟨(List.takeWhile_append_dropWhile).symm,fun c => List.mem_takeWhile_imp⟩

theorem passed_dottedKey {fuel : ℕ} {s r : Bytes} {ks : List Bytes} (h : dottedKey fuel s = some (ks,r)) :
    ∃ t, s = t ++ r ∧ Passed t := by
  induction fuel generalizing s ks with
  | zero => cases h
  | succ fuel ih =>
    simp only [dottedKey,Lexer.bind_apply] at h
    split at h
    · cases h
    · next k r₁ hk =>
      obtain ⟨t₁,rfl,h₁⟩ := passed_simpleKey hk
      split at h
      · cases h
      · next b r₂ hb =>
        obtain ⟨rfl,h₂⟩ := blanks_some hb
        simp only [Lexer.look_apply,Lexer.ite_apply,Lexer.bind_apply] at h
        split at h
        · split at h
          · cases h
          · next d r₃ hd =>
            obtain ⟨rfl,rfl⟩ := Lexer.octet_some hd
            split at h
            · cases h
            · next b' r₄ hb' =>
              obtain ⟨rfl,h₃⟩ := blanks_some hb'
              split at h
              · cases h
              · next ks' r₅ hks =>
                cases h
                obtain ⟨t₄,rfl,h₄⟩ := ih hks
                have hdot : Passed [0x2E] := passed_octets (List.forall_mem_singleton.mpr (by decide))
                exact ⟨t₁ ++ (b ++ ([0x2E] ++ (b' ++ t₄))),by simp,
                  h₁.append ((passed_blanks h₂).append (hdot.append ((passed_blanks h₃).append h₄)))⟩
        · cases h
          exact ⟨t₁ ++ b,by simp,h₁.append (passed_blanks h₂)⟩

theorem passed_key {s r : Bytes} {k : Key} (h : key s = some (k,r)) : Passed k.text := by
  obtain ⟨t,rfl,rfl,-⟩ := reads_key h
  simp only [key,Lexer.bind_apply,Lexer.withText] at h
  split at h
  · cases h
  · next x r' hx =>
    obtain ⟨⟨ks,r''⟩,hks,he⟩ := Option.map_eq_some_iff.mp hx
    cases he
    simp only [Lexer.pure_apply,Option.some.injEq,Prod.mk.injEq] at h
    obtain ⟨-,rfl⟩ := h
    obtain ⟨u,hu,hp⟩ := passed_dottedKey hks
    rwa [List.append_cancel_right hu]

theorem equals_some {s eq r : Bytes} (h : equals s = some (eq,r)) :
    ∃ b, eq = 0x3D :: b ∧ s = eq ++ r ∧ ∀ c ∈ b, isBlank c = true := by
  simp only [equals,Lexer.bind_apply] at h
  split at h
  · cases h
  · next sign r₁ hs =>
    obtain ⟨rfl,rfl⟩ := Lexer.octet_some hs
    split at h
    · cases h
    · next b r₂ hb =>
      obtain ⟨rfl,hblank⟩ := blanks_some hb
      cases h
      exact ⟨b,rfl,rfl,hblank⟩

/-- The beginning of an assignment, up to its value. -/
def Opening (t : Bytes) : Prop :=
  lineFeed ∉ t ∧ ∀ r, scanPrefix none false false (t ++ r) = scanPrefix none false true r

theorem Passed.opening {lead k b : Bytes} (hl : Passed lead) (hk : Passed k) (hb : Passed b) :
    Opening (lead ++ (k ++ 0x3D :: b)) := by
  have hne : (0x3D : UInt8) ≠ lineFeed := by decide
  refine ⟨by simp [hl.1,hk.1,hb.1,Ne.symm hne],fun r => ?_⟩
  have ht := (hl.append hk).2 false (0x3D :: (b ++ r))
  simp only [List.append_assoc,List.cons_append] at ht ⊢
  rw [ht,scanPrefix,if_neg (by decide),if_pos rfl,if_neg (by decide),hb.2]

/-- What the scan needs of a line in front of its value or its header. -/
def Begun : Line → Prop
  | .blank _ => True
  | .header _ lead _ _ _ => Passed lead
  | .assign lead key equals _ _ => Opening (lead ++ (key.text ++ equals))

theorem begun_header {isArray : Bool} {lead s r : Bytes} {l : Line} (hlead : Passed lead)
    (h : header isArray lead s = some (l,r)) : Begun l := by
  simp only [header,Lexer.bind_apply] at h
  split at h
  · cases h
  · split at h
    · cases h
    · split at h
      · cases h
      · cases isArray with
        | true =>
          simp only [if_true,Lexer.bind_apply] at h
          split at h
          · cases h
          · split at h
            · cases h
            · cases h
              exact hlead
        | false =>
          simp only [Bool.false_eq_true,if_false,Lexer.bind_apply] at h
          split at h
          · cases h
          · cases h
            exact hlead

theorem begun_assignment {lead s r : Bytes} {l : Line} (hlead : Passed lead)
    (h : Syntax.assignment lead s = some (l,r)) : Begun l := by
  simp only [Syntax.assignment,Lexer.bind_apply] at h
  split at h
  · cases h
  · next k r₁ hk =>
    split at h
    · cases h
    · next eq r₂ he =>
      obtain ⟨b,rfl,-,hb⟩ := equals_some he
      split at h
      · cases h
      · split at h
        · cases h
        · cases h
          exact hlead.opening (passed_key hk) (passed_blanks hb)

theorem begun_line {s r : Bytes} {l : Line} (h : line s = some (l,r)) : Begun l := by
  simp only [line,Lexer.bind_apply,Lexer.look_apply,Lexer.ite_apply] at h
  split at h
  · cases h
  · next lead r₁ hl =>
    have hlead := passed_blanks (blanks_some hl).2
    split at h
    · split at h
      · cases h
      · split at h
        · split at h
          · cases h
          · exact begun_header hlead h
        · exact begun_header hlead h
    · split at h
      · exact begun_assignment hlead h
      · split at h
        · cases h
        · cases h
          trivial

/-- A text that a line begins behind. -/
def Boundary (t : Bytes) : Prop := t = [] ∨ t.getLast? = some lineFeed

theorem begun_lines {fuel : ℕ} {s : Bytes} {ls : List Line} (h : lines fuel s = some ls) :
    (∀ l ∈ ls, Begun l) ∧ ∀ as l bs, ls = as ++ l :: bs → Boundary (as.flatMap Line.text) := by
  induction fuel generalizing s ls with
  | zero =>
    cases s with
    | nil => cases h; simp
    | cons c s => cases h
  | succ fuel ih =>
    cases s with
    | nil => cases h; simp
    | cons c s =>
      rw [lines] at h
      · split at h
        · cases h
        · next l r hl =>
          obtain ⟨ls',hs,rfl⟩ := Option.map_eq_some_iff.mp h
          obtain ⟨hrest,hbound⟩ := ih hs
          refine ⟨List.forall_mem_cons.mpr ⟨begun_line hl,hrest⟩,fun as m bs he => ?_⟩
          cases as with
          | nil => exact .inl rfl
          | cons a as =>
            obtain ⟨rfl,rfl⟩ := List.cons.inj he
            right
            rcases hbound as m bs rfl with hnil | hlast
            · rcases line_again hl with rfl | ⟨hlast,-⟩
              · simp [lines] at hs
              · rw [List.flatMap_cons,hnil,List.append_nil]
                exact hlast
            · rw [List.flatMap_cons,List.getLast?_append,hlast]
              rfl
      · simp

end

/-! ### Lines and spans -/

theorem lineStart_boundary {t h : Bytes} (ht : Boundary t) (hh : lineFeed ∉ h) :
    lineStart (t ++ h) = t.length := by
  have hall : ∀ c ∈ h.reverse, decide (c ≠ lineFeed) = true := by
    intro c hc
    rw [List.mem_reverse] at hc
    simp only [ne_eq,decide_eq_true_eq]
    rintro rfl
    exact hh hc
  have htake : t.reverse.takeWhile (· ≠ lineFeed) = [] := by
    rcases ht with rfl | hlast
    · rfl
    · obtain ⟨u,rfl⟩ : ∃ u, t = u ++ [lineFeed] := by
        obtain ⟨u,hu⟩ := List.getLast?_eq_some_iff.mp hlast
        exact ⟨u,hu⟩
      simp
  rw [lineStart,List.reverse_append,List.takeWhile_append_of_pos hall,htake]
  simp

/-- A line that begins behind a text is found again from a place within it. -/
theorem line_found {a h r s : Bytes} (hs : s = a ++ (h ++ r)) (ha : Boundary a) (hh : lineFeed ∉ h) :
    lineStart (s.take (a ++ h).length) = a.length ∧ slice s a.length (a ++ h).length = h := by
  subst hs
  have htake : (a ++ (h ++ r)).take (a ++ h).length = a ++ h := by
    rw [← List.append_assoc,List.take_left]
  exact ⟨by rw [htake,lineStart_boundary ha hh],by simp [slice]⟩

/-! ### Statements and members -/

section
variable {L : Library} {s : Bytes}

/-- A span is that of the value of an assignment, which begins a line at an octet. -/
def IsStatement (s : Bytes) (line : ℕ) (span : SourceSpan) : Prop :=
  ∃ as lead key equals v tail bs,
    Syntax.lines readerFuel s = some (as ++ .assign lead key equals v tail :: bs) ∧
    line = (as.flatMap Line.text).length ∧
    span.begin = line + (lead ++ (key.text ++ equals)).length ∧
    span.stop = span.begin + v.text.length

def spanOf (s : Bytes) (n : Node Region) : SourceSpan := ⟨offset s n.source.begin,offset s n.source.stop⟩

theorem spanOf_congr {n m : Node Region} (h : n.source = m.source) : spanOf s n = spanOf s m := by
  rw [spanOf,spanOf,h]

theorem assignment_entryOf (n : Node Region) : (entryOf L s n).assignment = assignment s (spanOf s n) := rfl

/-- What stands on the line of an override in front of it. -/
def lineBefore (s : Bytes) (n : Node Region) : Bytes :=
  slice s (lineStart (s.take (spanOf s n).begin)) (spanOf s n).begin

theorem assignment_isSome_iff (n : Node Region) :
    (entryOf L s n).assignment.isSome = true ↔ LooksAssigned (lineBefore s n) := assignment_isSome

theorem assignment_assigned {ls : List Line} {n : Node Region} (hs : Utf8.valid s = true)
    (hls : Syntax.lines readerFuel s = some ls) (h : Assigned ls n) :
    ∃ line, IsStatement s line (spanOf s n) ∧
      (entryOf L s n).assignment = some ⟨line,(spanOf s n).stop⟩ := by
  obtain ⟨as,lead,key,equals,v,tail,bs,rfl,hn⟩ := h
  obtain ⟨htext,hsound⟩ := Syntax.text_lines hls
  obtain ⟨hbegun,hbound⟩ := begun_lines hls
  obtain ⟨hfeed,hscan⟩ : Opening (lead ++ (key.text ++ equals)) :=
    hbegun (.assign lead key equals v tail) (by simp)
  obtain ⟨-,hedged,-⟩ : v.Sound := hsound (.assign lead key equals v tail) (by simp)
  have hc : s = (as.flatMap Line.text ++ (lead ++ (key.text ++ equals))) ++
      (v.text ++ (tail ++ bs.flatMap Line.text)) := by
    rw [htext]
    simp [Line.text]
  have hsource := source_node hn
  obtain ⟨-,hbegin,hstop⟩ := offset_value (hc ▸ hs) hedged
  rw [← hc] at hbegin hstop
  have hspan : spanOf s n = ⟨(as.flatMap Line.text ++ (lead ++ (key.text ++ equals))).length,
      (as.flatMap Line.text ++ (lead ++ (key.text ++ equals))).length + v.text.length⟩ := by
    rw [spanOf,hsource]
    simp only [hbegin,hstop]
  refine ⟨(as.flatMap Line.text).length,⟨as,lead,key,equals,v,tail,bs,hls,rfl,?_,?_⟩,?_⟩
  · rw [hspan,List.length_append]
  · rw [hspan]
  · obtain ⟨hstart,hslice⟩ := line_found (s := s) (by rw [hc,List.append_assoc])
      (hbound as _ bs rfl) hfeed
    change assignment s (spanOf s n) = _
    have hlone := hscan []
    rw [List.append_nil,scanPrefix] at hlone
    rw [hspan,assignment]
    simp only [hstart,hslice,hlone]

/-- In front of a header there are blanks. -/
theorem assignment_headed {ls : List Line} {n : Node Region} (hs : Utf8.valid s = true)
    (hls : Syntax.lines readerFuel s = some ls) (h : Headed ls n.source.begin) :
    (entryOf L s n).assignment = none := by
  obtain ⟨as,isArray,lead,open_,key,tail,bs,rfl,hp⟩ := h
  obtain ⟨htext,-⟩ := Syntax.text_lines hls
  obtain ⟨hbegun,hbound⟩ := begun_lines hls
  obtain ⟨hfeed,hscan⟩ : Passed lead := hbegun (.header isArray lead open_ key tail) (by simp)
  obtain ⟨r,hr⟩ : ∃ r, s = (as.flatMap Line.text ++ lead) ++ 0x5B :: r := by
    cases isArray with
    | true => exact ⟨_,by rw [htext]; simp [Line.text,Line.bracket]; rfl⟩
    | false => exact ⟨_,by rw [htext]; simp [Line.text,Line.bracket]; rfl⟩
  have hpre : Utf8.valid (as.flatMap Line.text ++ lead) = true :=
    Utf8.valid_before_ascii (b := 0x5B) (t := r) rfl (hr ▸ hs)
  have hbegin : (spanOf s n).begin = (as.flatMap Line.text ++ lead).length := by
    rw [spanOf,hp,hr]
    exact offset_advance hpre (hr ▸ hs)
  obtain ⟨hstart,hslice⟩ := line_found (s := s) (by rw [hr,List.append_assoc]) (hbound as _ bs rfl) hfeed
  change assignment s (spanOf s n) = none
  have hnone := hscan false []
  rw [List.append_nil,scanPrefix] at hnone
  rw [assignment,hbegin]
  simp only [hstart,hslice,hnone]

/-- A member of an assigned inline table begins on a later line than the table, or behind
the opening brace on the table's own. -/
theorem lineBefore_member {ls : List Line} {o r : KeyPath × Node Region} (hs : Utf8.valid s = true)
    (hls : Syntax.lines readerFuel s = some ls) (h : Assigned ls o.2) (hr : r ∈ below o) :
    o.2.source.begin.line < r.2.source.begin.line ∨ ¬ LooksAssigned (lineBefore s r.2) := by
  obtain ⟨as,lead,key,equals,v,tail,bs,rfl,hn⟩ := h
  obtain ⟨htext,hsound⟩ := Syntax.text_lines hls
  obtain ⟨hbegun,hbound⟩ := begun_lines hls
  obtain ⟨hfeed,hscan⟩ : Opening (lead ++ (key.text ++ equals)) :=
    hbegun (.assign lead key equals v tail) (by simp)
  have hv : v.Sound := hsound (.assign lead key equals v tail) (by simp)
  obtain ⟨path,n⟩ := o
  simp only at hn ⊢
  cases v with
  | scalar t v => cases hn; cases hr
  | array items close =>
    obtain ⟨ns,-,rfl⟩ := Option.map_eq_some_iff.mp hn
    cases hr
  | inlineTable members close =>
    obtain ⟨es,hes,rfl⟩ := Option.map_eq_some_iff.mp hn
    obtain ⟨-,-,hbelow⟩ := hv
    generalize hhead : as.flatMap Line.text ++ (lead ++ (key.text ++ equals)) = head at *
    have hc : s = (head ++ [0x7B]) ++ ([] ++ (Toml.Value.membersText members ++
        (close ++ 0x7D :: (tail ++ bs.flatMap Line.text)))) := by
      rw [htext,← hhead]
      simp [Line.text,Toml.Value.text]
    have hplaced := Toml.Value.placed_memberEntries members [] _ [] es hbelow hc Build.BearsEntries.nil
      (by rw [List.append_nil,Position.advance_append]; exact hes)
    obtain ⟨pre,post,v,hc,hv,hr⟩ :=
      stands_records path _ (Build.placed_nodeEntries es hplaced) r hr
    obtain ⟨-,hedged,-⟩ := hv
    have hc' : s = (head ++ [0x7B] ++ pre) ++ (v.text ++ post) := by rw [hc]; simp
    have hbegin : r.2.source.begin = Position.start.advance (head ++ [0x7B] ++ pre) := by
      rw [source_node hr]
    by_cases hpre : lineFeed ∈ pre
    · left
      have hcount := List.count_pos_iff.mpr hpre
      rw [hbegin]
      change (Position.start.advance head).line < (Position.start.advance (head ++ [0x7B] ++ pre)).line
      rw [advance_eq,advance_eq]
      simp only [List.count_append]
      omega
    · right
      have hoffset : (spanOf s r.2).begin = (head ++ [0x7B] ++ pre).length := by
        rw [spanOf,hbegin]
        have := (offset_value (hc' ▸ hs) hedged).2.1
        rwa [← hc'] at this
      obtain ⟨hstart,hslice⟩ := line_found (s := s)
        (a := as.flatMap Line.text) (h := (lead ++ (key.text ++ equals)) ++ 0x7B :: pre) (r := v.text ++ post)
        (by rw [hc',← hhead]; simp) (hbound as _ bs rfl)
        (by
          simp only [List.mem_append,List.mem_cons,not_or] at hfeed ⊢
          exact ⟨hfeed,by decide,hpre⟩)
      have heq : head ++ [0x7B] ++ pre = as.flatMap Line.text ++ ((lead ++ (key.text ++ equals)) ++ 0x7B :: pre) := by
        rw [← hhead]
        simp
      have hnone := hscan (0x7B :: pre)
      rw [scanPrefix,if_neg (by decide),if_neg (by decide),if_pos (by decide)] at hnone
      have hiff := scanPrefix_outside none false false ((lead ++ (key.text ++ equals)) ++ 0x7B :: pre)
      rw [hnone,Bool.toNat_false,Nat.add_zero] at hiff
      rw [lineBefore,hoffset,heq,hstart,hslice]
      exact fun h => by cases hiff.mpr h

end

/-! ### The tree of the library -/

mutual
theorem nodeStatements_without (path : KeyPath) : ∀ n : Node Region,
    nodeStatements path n.withoutTableRegions =
      (nodeStatements path n).map (fun r => (r.1,r.2.withoutTableRegions))
  | .scalar _ _ => rfl
  | .array _ _ => rfl
  | .table source isInline es => by
    cases isInline with
    | true => rfl
    | false => exact statements_without path es
theorem statements_without (pre : KeyPath) : ∀ es : Entries Region, statements pre (Node.withoutEntries es) =
    (statements pre es).map (fun r => (r.1,r.2.withoutTableRegions))
  | [] => rfl
  | (k,n) :: es => by
    rw [Node.withoutEntries,statements,statements,List.map_append,nodeStatements_without (pre ++ [k]) n,
      statements_without pre es]
end

theorem below_without (path : KeyPath) (n : Node Region) : below (path,n.withoutTableRegions) =
    (below (path,n)).map (fun r => (r.1,r.2.withoutTableRegions)) := by
  cases n with
  | table source isInline es =>
    cases isInline with
    | true => exact records_without path es
    | false => rfl
  | _ => rfl

/-- What is in a list stands in every list with the same images. -/
theorem mem_of_map_eq {α β : Type} {f : α → β} {l l' : List α} (h : l.map f = l'.map f) {x : α}
    (hx : x ∈ l) : ∃ y ∈ l', f y = f x := by
  have hmem := List.mem_map_of_mem (f := f) hx
  rw [h] at hmem
  exact List.mem_map.mp hmem

/-- The overrides of the library's tree are those of the grammar's. -/
theorem statement_parsed {L : Library} {bound : ℕ} (hL : L.Conforms bound) {s : Bytes} {root : Entries Region}
    (hsize : s.length ≤ bound) (hroot : L.parse s = .ok root) (hbom : byteOrderMark.isPrefixOf s = false) :
    Utf8.valid s = true ∧ ∃ ls, Syntax.lines readerFuel s = some ls ∧ ∀ o ∈ statements [] root,
      ∃ o' : KeyPath × Node Region, o'.2.source = o.2.source ∧
        (Assigned ls o'.2 ∨ o'.2.isArrayOfTables = true ∧ Headed ls o'.2.source.begin) ∧
        o'.2.isArrayOfTables = o.2.isArrayOfTables ∧
        ∀ r ∈ below o, ∃ r' ∈ below o', r'.2.source = r.2.source := by
  have hcontent : content s = s := by rw [content,if_neg (by simp [hbom])]
  obtain ⟨t,ht,hw⟩ := hL.ok hsize hroot
  have hs : Utf8.valid s = true := by
    unfold Toml.parse at ht
    split at ht
    · next hs => exact hs
    · cases ht
  obtain ⟨ls,es,hls,rfl,he⟩ := assigned_parse ht
  rw [hcontent] at hls
  refine ⟨hs,ls,hls,fun o ho => ?_⟩
  have hstatements := congrArg (statements []) hw.symm
  rw [statements_without,statements_without] at hstatements
  obtain ⟨o',ho',heq⟩ := mem_of_map_eq hstatements ho
  obtain ⟨-,hnode⟩ := Prod.ext_iff.mp heq
  simp only at hnode
  refine ⟨o',(source_without hnode.symm (inline_records [] _ o' ((mem_records [] o' _).mpr ⟨o',ho',.inl rfl⟩))).symm,
    assigned_statements [] es he o' ho',?_,fun r hr => ?_⟩
  · rw [← isArrayOfTables_erase,← Node.erase_withoutTableRegions,hnode,Node.erase_withoutTableRegions,
      isArrayOfTables_erase]
  · have hbelow : (below o).map (fun r => (r.1,r.2.withoutTableRegions)) =
        (below o').map (fun r => (r.1,r.2.withoutTableRegions)) := by
      obtain ⟨path,n⟩ := o
      obtain ⟨path',n'⟩ := o'
      obtain rfl : path' = path := (Prod.ext_iff.mp heq).1
      rw [← below_without,← below_without]
      exact congrArg (fun n => below (_,n)) hnode.symm
    obtain ⟨r',hr',heq'⟩ := mem_of_map_eq hbelow hr
    obtain ⟨-,hnode'⟩ := Prod.ext_iff.mp heq'
    exact ⟨r',hr',(source_without hnode'.symm
      (inline_records [] _ r' ((mem_records [] r' _).mpr ⟨o',ho',.inr hr'⟩))).symm⟩

mutual
theorem find_nodeRecords (path : KeyPath) : ∀ n : Node Region, n.Distinct → ∀ r ∈ nodeRecords path n,
    r = (path,n) ∨ ∃ k ks, r.1 = path ++ k :: ks ∧ n.asTable.bind (Entries.find · (k :: ks)) = some r.2
  | .scalar source v,_,r,hr => .inl (List.mem_singleton.mp hr)
  | .array source ns,_,r,hr => .inl (List.mem_singleton.mp hr)
  | .table source isInline es,hd,r,hr => by
    rcases List.mem_append.mp hr with hr | hr
    · cases isInline with
      | true => exact .inl (List.mem_singleton.mp hr)
      | false => cases hr
    · exact .inr (find_records path es (hd.asTable rfl) r hr)
/-- An override is found at its key path. -/
theorem find_records (pre : KeyPath) : ∀ es : Entries Region, Node.DistinctEntries es →
    ∀ r ∈ records pre es, ∃ k ks, r.1 = pre ++ k :: ks ∧ es.find (k :: ks) = some r.2
  | [],_,r,hr => by cases hr
  | (k',n) :: es,hd,r,hr => by
    obtain ⟨hk,hm⟩ := hd
    simp only [DistinctKeys,List.map_cons,List.nodup_cons] at hk
    rcases List.mem_append.mp hr with hr | hr
    · rcases find_nodeRecords (pre ++ [k']) n (hm (k',n) (by simp)) r hr with rfl | ⟨k,ks,hpath,hfind⟩
      · exact ⟨k',[],by simp,by simp [Entries.find,Entries.get]⟩
      · exact ⟨k',k :: ks,by simp [hpath],by simpa [Entries.find,Entries.get] using hfind⟩
    · obtain ⟨k,ks,hpath,hfind⟩ := find_records pre es ⟨hk.2,fun e he => hm e (by simp [he])⟩ r hr
      refine ⟨k,ks,hpath,?_⟩
      have hne : (k == k') = false := by
        rw [beq_eq_false_iff_ne]
        rintro rfl
        have hget : Entries.get es k ≠ none := by
          cases ks with
          | nil => rw [Entries.find] at hfind; rw [hfind]; simp
          | cons k' ks =>
            rw [Entries.find] at hfind
            intro hnone
            rw [hnone] at hfind
            cases hfind
        obtain ⟨m,hm'⟩ := Option.ne_none_iff_exists'.mp hget
        exact hk.1 (List.mem_map.mpr ⟨(k,m),mem_of_lookup hm',rfl⟩)
      cases ks <;> simpa [Entries.find,Entries.get,List.lookup_cons,hne] using hfind
end

theorem entry_record {L : Library} (hL : L.Conforms kMaximumDocumentBytes) {s : Bytes} {path : Path}
    {root : Entries Region} (hsize : s.length ≤ kMaximumDocumentBytes) (hroot : L.parse s = .ok root)
    {r : KeyPath × Node Region} (hr : r ∈ records [] root) :
    (DocumentSnapshot.mk path ⟨true,s⟩ (collect L s [] root)).entry r.1 = some (entryOf L s r.2) := by
  have hd := hL.distinct hsize hroot
  obtain ⟨k,ks,hpath,hfind⟩ := find_records [] root hd r hr
  have hne : r.1 ≠ [] := by
    rw [hpath]
    simp
  have hnot : (r.2.isTable && !r.2.isInline) = false := by
    cases ht : r.2.isTable with
    | false => rfl
    | true => simp [inline_records [] root r hr ht]
  rw [entry_parsed L s hd path hne,hpath,List.nil_append,hfind,Option.bind_some,overrideOf,hnot]
  rfl

/-! ### Edits -/

section
variable (L : Library)

/-- An override without an assignment, which no batch changes. -/
structure Refused (s : Bytes) (current : DocumentSnapshot) (r : KeyPath × Node Region) : Prop where
  assignment : (entryOf L s r.2).assignment = none
  patch : ∀ edits schema edit, edit ∈ edits → edit.key = r.1 →
    (∀ edit', normalizeEdit L edit = some edit' → Value.same (current.value r.1) edit'.pending = false) →
    (patchDocument L current edits schema).status ≠ .success

theorem stopsIn_unsafe {current : DocumentSnapshot} {keys : List KeyPath} {batch : EditBatch}
    (h : stopsIn current keys batch = false) : ∀ edit ∈ batch, unsafeEdit current edit = false := by
  induction batch generalizing keys with
  | nil => simp
  | cons edit batch ih =>
    rw [stopsIn,stops,Bool.or_eq_false_iff,Bool.or_eq_false_iff] at h
    exact List.forall_mem_cons.mpr ⟨h.1.2,ih h.2⟩

variable {L}

theorem refused_of_none {s : Bytes} {current : DocumentSnapshot} {r : KeyPath × Node Region}
    (hentry : current.entry r.1 = some (entryOf L s r.2)) (hnone : (entryOf L s r.2).assignment = none) :
    Refused L s current r := by
  refine ⟨hnone,fun edits schema edit hm hk hchange hstatus => ?_⟩
  have hcases := patchDocument_cases L current edits schema
  generalize patchDocument L current edits schema = result at hcases hstatus
  cases hcases with
  | success hv batch hn hs hc plan hp snapshot ha hv' =>
    rw [normalizeEdits_value] at hn
    obtain ⟨edit',hm',hn'⟩ := normalizeEdits_mem L hn edit hm
    have hkey := (normalizeEdit_key L hn').trans hk
    have hsame := hchange edit' hn'
    have hsafe := stopsIn_unsafe hs edit' hm'
    have hconflict : conflicting current edit' = false := by
      have := List.filter_eq_nil_iff.mp hc edit' hm'
      simpa using this
    rw [← hkey] at hsame hentry
    simp only [conflicting,hsame,Bool.not_false,Bool.true_and,Bool.not_eq_false'] at hconflict
    simp [unsafeEdit,hsame,hconflict,hentry,hnone] at hsafe
  | _ => cases hstatus

variable (L)

/-- An override has an assignment exactly if it is an assigned value, then from the start of
its line to its end; the others are refused. -/
def Editable (s : Bytes) : Prop := ∀ path current root, (parseDocument L s path).value = some current →
  L.parse s = .ok root → ∀ o ∈ statements [] root,
    (o.2.isArrayOfTables = false → ∃ line, IsStatement s line (entryOf L s o.2).source ∧
      (entryOf L s o.2).assignment = some ⟨line,(entryOf L s o.2).source.stop⟩) ∧
    (o.2.isArrayOfTables = true → Refused L s current o) ∧ ∀ r ∈ below o, Refused L s current r

/-- No member of an inline table that begins on a later line than the table has what looks
like an assignment in front of it on that line. -/
def Confined (s : Bytes) : Prop := ∀ root, s.length ≤ kMaximumDocumentBytes → L.parse s = .ok root →
  ∀ o ∈ statements [] root, ∀ r ∈ below o,
    o.2.source.begin.line < r.2.source.begin.line → ¬ LooksAssigned (lineBefore s r.2)

variable {L}

theorem editable_iff (hL : L.Conforms kMaximumDocumentBytes) {s : Bytes}
    (hbom : byteOrderMark.isPrefixOf s = false) : Editable L s ↔ Confined L s := by
  constructor
  · intro h root hsize hroot o ho r hr _ hlooks
    have hparse : (parseDocument L s .none).value = some ⟨.none,⟨true,s⟩,collect L s [] root⟩ := by
      rw [parseDocument_of_ok hsize hroot]
      rfl
    obtain ⟨-,-,hbelow⟩ := h .none _ root hparse hroot o ho
    have hsome := (assignment_isSome_iff (L := L) r.2).mpr hlooks
    rw [(hbelow r hr).assignment] at hsome
    cases hsome
  · intro h path current root hparse hroot o ho
    obtain ⟨root',hsize,hroot',rfl⟩ := parseDocument_value hparse
    cases hroot.symm.trans hroot'
    obtain ⟨hs,ls,hls,hall⟩ := statement_parsed hL hsize hroot hbom
    obtain ⟨o',hsource,hcase,hA,hbelow⟩ := hall o ho
    have hrefused : ∀ r ∈ records [] root, (entryOf L s r.2).assignment = none →
        Refused L s ⟨path,⟨true,s⟩,collect L s [] root⟩ r :=
      fun r hr => refused_of_none (entry_record hL hsize hroot hr)
    refine ⟨fun hn => ?_,fun hA' => ?_,fun r hr => ?_⟩
    · rcases hcase with ha | ⟨hA',-⟩
      · obtain ⟨line,hstatement,hassign⟩ := assignment_assigned (L := L) hs hls ha
        rw [assignment_entryOf] at hassign
        rw [spanOf_congr hsource] at hstatement hassign
        exact ⟨line,hstatement,hassign⟩
      · rw [hA,hn] at hA'
        cases hA'
    · refine hrefused o ((mem_records [] o _).mpr ⟨o,ho,.inl rfl⟩) ?_
      rcases hcase with ⟨as,lead,key,equals,v,tail,bs,-,hv⟩ | ⟨-,hheaded⟩
      · rw [← hA,Toml.Value.isArrayOfTables_node hv] at hA'
        cases hA'
      · rw [assignment_entryOf,← spanOf_congr hsource,← assignment_entryOf (L := L)]
        exact assignment_headed hs hls hheaded
    · refine hrefused r ((mem_records [] r _).mpr ⟨o,ho,.inr hr⟩) ?_
      obtain ⟨r',hr',hsource'⟩ := hbelow r hr
      have hlooks : ¬ LooksAssigned (lineBefore s r.2) := by
        rcases hcase with ha | ⟨hA',-⟩
        · rcases lineBefore_member hs hls ha hr' with hline | hnot
          · rw [hsource,hsource'] at hline
            exact h root hsize hroot o ho r hr hline
          · rwa [lineBefore,spanOf_congr hsource',← lineBefore] at hnot
        · obtain ⟨path,n⟩ := o'
          cases n with
          | array => cases hr'
          | _ => cases hA'
      rw [← assignment_isSome_iff (L := L)] at hlooks
      simpa using hlooks

end

/-- An array over two lines within an inline table, and a dotted key. -/
def tableDocument : Bytes := bytes "t = \x7b c = [1,\n 2], d = 2 \x7d\n'a'.b = 1"

theorem editable_table : Editable Reference.library tableDocument ↔ Confined Reference.library tableDocument :=
  editable_iff (Reference.conforms _) (by decide +kernel)

/-- The line of `b = 1` begins within the string of `a`. -/
def memberDocument : Bytes := bytes "x = \x7b a = '''\nk = ''', b = 1 \x7d\n"

def memberTree : Entries Region :=
  [(bytes "x",.table ⟨⟨1,5⟩,⟨2,17⟩⟩ true
    [(bytes "a",.scalar ⟨⟨1,11⟩,⟨2,8⟩⟩ (.string (bytes "k = "))),
      (bytes "b",.scalar ⟨⟨2,14⟩,⟨2,15⟩⟩ (.integer 1))])]

theorem parse_member : Toml.parse memberDocument = some memberTree := by decide +kernel

/-- A member of an inline table is given an assignment, and is edited. -/
theorem editable_member :
    byteOrderMark.isPrefixOf memberDocument = false ∧ ¬ Editable Reference.library memberDocument ∧
    (patchDocument Reference.library (referenceSnapshot memberDocument)
      [⟨[bytes "x",bytes "b"],some (.integer 1),some (.integer 2)⟩] anyDocument).status = .success := by
  refine ⟨by decide +kernel,fun h => ?_,by decide +kernel⟩
  have hroot : Reference.library.parse memberDocument = .ok memberTree := reference_parse parse_member
  have hparse : (parseDocument Reference.library memberDocument .none).value =
      some ⟨.none,⟨true,memberDocument⟩,collect Reference.library memberDocument [] memberTree⟩ := by
    rw [parseDocument_of_ok (by decide +kernel) hroot]
    rfl
  obtain ⟨-,-,hbelow⟩ := h .none _ memberTree hparse hroot _ (List.mem_singleton_self _)
  have hrefused := hbelow ([bytes "x",bytes "b"],.scalar ⟨⟨2,14⟩,⟨2,15⟩⟩ (.integer 1))
    (by simp [below,records,nodeRecords])
  exact absurd hrefused.assignment (by decide +kernel)

end Document
end HolonightConfig
