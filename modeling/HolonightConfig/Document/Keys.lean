import HolonightConfig.Document.Comments
import HolonightConfig.Document.Planning
import HolonightConfig.Document.Spans

/-! Key paths as they are printed, in headers and in front of values. Keys are printed with
the formatter of values, which prints a string with a line feed as a multi-line one, and
that is no key. -/
namespace HolonightConfig
open Text Toml Posix

namespace Document

/-! ### Printing -/

/-- A segment is printed as a single-line quoted string, or a multi-line one if it has a
line feed. -/
structure PrintsKey (L : Library) (k : Bytes) : Prop where
  valid : Utf8.valid (encode L (.string k)) = true
  quoted : lineFeed ∉ k → (∃ q t, encode L (.string k) = q :: t ∧ Lexical.isQuote q = true) ∧
    Lexical.simpleKey (encode L (.string k)) = some (k,[])
  multiline : lineFeed ∈ k → ∃ q t, encode L (.string k) = q :: q :: q :: t ∧ Lexical.isQuote q = true

/-- A scalar is printed as a literal that reads back as it. -/
structure PrintsScalar (L : Library) (v : Scalar) : Prop where
  valid : Utf8.valid (L.format (.scalar () v)) = true
  reads : ∃ v', v'.plain = v.plain ∧ Lexical.scalar (L.format (.scalar () v)) = some (v',[])

/-! ### Keys in front of anything -/

section
open Lexical Syntax

/-- What is not read to its end is not read at all, so a single-line string that ends with
its text ends there in front of anything. -/
theorem singleLine_append {q : UInt8} {st : StringState} (hst : SingleLine st) (hq : isQuote q = true)
    {t out : Bytes} (h : (stringStep q false).read st t = some (out,[])) (r : Bytes) :
    (stringStep q false).read st (t ++ r) = some (out,r) := by
  induction t generalizing st out with
  | nil =>
    rw [Transducer.read] at h
    split at h
    · next o he => cases (single_ends hst ⟨o,.inr he⟩).2.1
    · cases h
  | cons c t ih =>
    rw [Transducer.read] at h
    rw [List.cons_append,Transducer.read]
    split at h
    · cases h
    · next o st' he =>
      obtain ⟨⟨o',r'⟩,hr,heq⟩ := Option.map_eq_some_iff.mp h
      cases heq
      simp only [ih (single_next hq hst he t).1 hr,Option.map_some]
    · next o he =>
      simp only [Option.some.injEq,Prod.mk.injEq] at h
      obtain ⟨rfl,rfl⟩ := h
      simp only [List.nil_append]
    · cases h

theorem peek_quote {q : UInt8} (hq : isQuote q = true) (r : Bytes) : (peek (q :: r)).head? = some q := by
  obtain ⟨hl,hc⟩ := isQuote_ne hq
  rw [peek_cons ⟨hl,hc,by rintro rfl; cases hq⟩,List.head?_cons]

theorem simpleKey_append {q : UInt8} {t k : Bytes} (hq : isQuote q = true)
    (h : simpleKey (q :: t) = some (k,[])) (r : Bytes) : simpleKey (q :: t ++ r) = some (k,r) := by
  simp only [simpleKey,Lexer.bind_apply,Lexer.look_apply,peek_quote hq,List.cons_append] at h ⊢
  rw [Lexer.ite_apply,if_pos hq] at h ⊢
  simp only [Lexer.bind_apply,Lexer.octet_cons] at h ⊢
  exact singleLine_append (.inl rfl) hq h r

end

section
variable {L : Library}

theorem PrintsKey.append {k : Bytes} (h : PrintsKey L k) (hk : lineFeed ∉ k) (r : Bytes) :
    Lexical.simpleKey (encode L (.string k) ++ r) = some (k,r) := by
  obtain ⟨⟨q,t,ht,hq⟩,hread⟩ := h.quoted hk
  rw [ht] at hread ⊢
  exact simpleKey_append hq hread r

theorem PrintsKey.head {k : Bytes} (h : PrintsKey L k) :
    ∃ q t, encode L (.string k) = q :: t ∧ Lexical.isQuote q = true := by
  by_cases hk : lineFeed ∈ k
  · obtain ⟨q,t,ht,hq⟩ := h.multiline hk
    exact ⟨q,q :: q :: t,ht,hq⟩
  · exact (h.quoted hk).1

/-- The segments behind the first one, each behind its dot. -/
def dotted (L : Library) (ks : List Bytes) : Bytes := ks.flatMap (fun k => 0x2E :: encode L (.string k))

theorem keyText_cons {k : Bytes} {ks : List Bytes} (h : PrintsKey L k) :
    keyText L (k :: ks) = encode L (.string k) ++ dotted L ks := by
  have hfold : ∀ (ks : List Bytes) (result : Bytes), result ≠ [] →
      ks.foldl (fun result key => (if result = [] then result else result ++ [0x2E]) ++
        encode L (.string key)) result = result ++ dotted L ks := by
    intro ks
    induction ks with
    | nil => simp [dotted]
    | cons k ks ih =>
      intro result hne
      rw [List.foldl_cons,if_neg hne,ih _ (by simp [hne])]
      simp [dotted]
  obtain ⟨q,t,ht,-⟩ := h.head
  rw [keyText,List.foldl_cons,if_pos rfl,List.nil_append,hfold ks _ (by simp [ht])]

/-- What may follow a key: an octet that neither goes on with it nor is blank. -/
def StopsKey (d : UInt8) : Prop :=
  Lexical.isBlank d = false ∧ d ≠ 0x2E ∧ d ≠ lineFeed ∧ d ≠ carriageReturn

theorem isQuote_notBlank {q : UInt8} (hq : Lexical.isQuote q = true) : Lexical.isBlank q = false := by
  rcases isQuote_iff.mp hq with rfl | rfl <;> rfl

theorem run_blank_none {c : UInt8} (hc : Lexical.isBlank c = false) (r : Bytes) :
    Lexer.run Lexical.isBlank (c :: r) = some ([],c :: r) :=
  Lexer.run_none (by intro e he; cases he; exact hc)

open Lexical Syntax in
theorem dottedKey_printed {k : Bytes} {ks : List Bytes} (h : ∀ k' ∈ k :: ks, PrintsKey L k' ∧ lineFeed ∉ k')
    {b r : Bytes} (hb : ∀ c ∈ b, isBlank c = true) {d : UInt8} (hd : StopsKey d) {fuel : ℕ}
    (hf : ks.length < fuel) :
    dottedKey fuel (encode L (.string k) ++ (dotted L ks ++ (b ++ d :: r))) = some (k :: ks,d :: r) := by
  induction ks generalizing k fuel with
  | nil =>
    obtain ⟨fuel,rfl⟩ := Nat.exists_eq_succ_of_ne_zero (by omega : fuel ≠ 0)
    obtain ⟨hk,-⟩ := List.forall_mem_cons.mp h
    have hblank : Lexer.run isBlank (b ++ d :: r) = some (b,d :: r) :=
      Lexer.run_stop hb (by intro e he; cases he; exact hd.1)
    have hdot : (peek (d :: r)).head? ≠ some 0x2E := by
      rw [peek_head (by simp [atLineEnd,hd.2.2])]
      simpa using hd.2.1
    simp only [dottedKey,Lexer.bind_apply,dotted,List.flatMap_nil,List.nil_append,hk.1.append hk.2,hblank,
      Lexer.look_apply]
    rw [Lexer.ite_apply,if_neg hdot]
    rfl
  | cons k' ks ih =>
    obtain ⟨fuel,rfl⟩ := Nat.exists_eq_succ_of_ne_zero (by omega : fuel ≠ 0)
    obtain ⟨hk,hks⟩ := List.forall_mem_cons.mp h
    obtain ⟨q,t,ht,hq⟩ := (List.forall_mem_cons.mp hks).1.1.head
    have hi := @ih k' hks fuel (by simpa using hf)
    have hsplit : dotted L (k' :: ks) ++ (b ++ d :: r) =
        0x2E :: (encode L (.string k') ++ (dotted L ks ++ (b ++ d :: r))) := by
      simp [dotted]
    rw [hsplit]
    rw [ht,List.cons_append] at hi ⊢
    simp only [dottedKey,Lexer.bind_apply,hk.1.append hk.2,run_blank_none (c := 0x2E) (by decide),
      Lexer.look_apply]
    rw [Lexer.ite_apply,if_pos (by rw [peek_cons (by decide)]; rfl)]
    simp only [Lexer.bind_apply,Lexer.octet_cons,run_blank_none (isQuote_notBlank hq),hi]
    rfl

open Lexical Syntax in
theorem key_printed {path : KeyPath} (hne : path ≠ []) (h : ∀ k ∈ path, PrintsKey L k ∧ lineFeed ∉ k)
    (hf : path.length ≤ readerFuel) {b r : Bytes} (hb : ∀ c ∈ b, isBlank c = true) {d : UInt8}
    (hd : StopsKey d) :
    key (keyText L path ++ (b ++ d :: r)) = some (⟨keyText L path ++ b,path⟩,d :: r) := by
  obtain ⟨k,ks,rfl⟩ := List.exists_cons_of_ne_nil hne
  have hdot := dottedKey_printed h hb hd (r := r) (show ks.length < readerFuel from hf)
  have hw := Lexer.withText_of_some (L := dottedKey readerFuel) (t := keyText L (k :: ks) ++ b)
    (r := d :: r) (a := k :: ks) (by
      rw [keyText_cons (h k (by simp)).1]
      simpa using hdot)
  rw [List.append_assoc] at hw
  simp only [key,Lexer.bind_apply,hw,Lexer.pure_apply]

theorem keyText_one {k : Bytes} (h : PrintsKey L k) : keyText L [k] = encode L (.string k) := by
  simp [keyText_cons h,dotted]

theorem keyText_head {path : KeyPath} (hne : path ≠ []) (h : ∀ k ∈ path, PrintsKey L k) :
    ∃ q t, keyText L path = q :: t ∧ Lexical.isQuote q = true := by
  obtain ⟨k,ks,rfl⟩ := List.exists_cons_of_ne_nil hne
  have hk := h k (by simp)
  obtain ⟨q,t,ht,hq⟩ := hk.head
  exact ⟨q,t ++ dotted L ks,by rw [keyText_cons hk,ht]; rfl,hq⟩

/-! ### Lines -/

def IsNewline (nl : Bytes) : Prop := nl = [lineFeed] ∨ nl = [carriageReturn,lineFeed]

theorem tail_newline {nl : Bytes} (h : IsNewline nl) (r : Bytes) : Lexical.tail (nl ++ r) = some (nl,r) := by
  rcases h with rfl | rfl
  · exact Syntax.tail_lineFeed r
  · simp [Lexical.tail,Lexer.token,Transducer.read,Lexical.tailStep,Lexical.isBlank,lineFeed,carriageReturn]

theorem stopsKey_bracket : StopsKey 0x5D := by unfold StopsKey; decide
theorem stopsKey_equals : StopsKey 0x3D := by unfold StopsKey; decide

open Lexical Syntax in
theorem line_headerPrinted {path : KeyPath} (hne : path ≠ []) (h : ∀ k ∈ path, PrintsKey L k ∧ lineFeed ∉ k)
    (hf : path.length ≤ readerFuel) {nl : Bytes} (hnl : IsNewline nl) (r : Bytes) :
    line (0x5B :: (keyText L path ++ 0x5D :: (nl ++ r))) =
      some (.header false [] [] ⟨keyText L path,path⟩ nl,r) := by
  have hkey := key_printed hne h hf (b := []) (r := nl ++ r) (by simp) stopsKey_bracket
  rw [List.nil_append,List.append_nil] at hkey
  obtain ⟨q,t,ht,hq⟩ := keyText_head hne (fun k hk => (h k hk).1)
  obtain ⟨hl,hc⟩ := isQuote_ne hq
  have hq' : (peek (q :: (t ++ 0x5D :: (nl ++ r)))).head? ≠ some 0x5B := by
    rw [peek_cons ⟨hl,hc,by rintro rfl; cases hq⟩,List.head?_cons]
    rintro he
    cases he
    cases hq
  rw [ht,List.cons_append] at hkey ⊢
  simp only [line,Lexer.bind_apply,run_blank_none (c := 0x5B) (by decide),Lexer.look_apply]
  rw [Lexer.ite_apply,if_pos (by rw [peek_cons (by decide)]; rfl)]
  simp only [Lexer.bind_apply,Lexer.octet_cons,Lexer.look_apply]
  rw [Lexer.ite_apply,if_neg hq']
  simp only [header,Lexer.bind_apply,run_blank_none (isQuote_notBlank hq),hkey,Lexer.octet_cons]
  simp [Lexer.bind_apply,tail_newline hnl,Lexer.pure_apply]

open Lexical Syntax in
theorem value_literal {lit : Bytes} {v : Scalar} (h : scalar lit = some (v,[])) (r : Bytes) :
    value readerFuel (lit ++ lineFeed :: r) = some (.scalar lit v,lineFeed :: r) := by
  obtain ⟨t,ht,-,hlocal⟩ := reads_scalar h
  rw [List.append_nil] at ht
  subst ht
  have hs := hlocal (lineFeed :: r) (sameStart_of_atLineEnd (by simp [atLineEnd]) (by simp [atLineEnd]))
  have hw := Lexer.withText_of_some hs
  obtain ⟨c,u,rfl,hc⟩ := scalar_head h
  obtain ⟨hne,hopen⟩ : (c ≠ lineFeed ∧ c ≠ carriageReturn ∧ c ≠ 0x20) ∧ (c ≠ 0x5B ∧ c ≠ 0x7B) := by
    rcases hc with hc | hc
    · rcases isQuote_iff.mp hc with rfl | rfl <;> decide
    · exact ⟨(isBareScalar_ne hc).1,(isBareScalar_ne hc).2.1⟩
  rw [List.cons_append] at hw ⊢
  rw [value_scalar hne hopen,hw,Option.map_some]

open Lexical Syntax in
/-- A quoted key with the blanks behind it. -/
theorem key_quoted {q : UInt8} {t k : Bytes} (hq : isQuote q = true) (ht : simpleKey (q :: t) = some (k,[]))
    {b r : Bytes} (hb : ∀ c ∈ b, isBlank c = true) {d : UInt8} (hd : StopsKey d) :
    key (q :: t ++ (b ++ d :: r)) = some (⟨q :: t ++ b,[k]⟩,d :: r) := by
  have hblank : Lexer.run isBlank (b ++ d :: r) = some (b,d :: r) :=
    Lexer.run_stop hb (by intro e he; cases he; exact hd.1)
  have hdot : (peek (d :: r)).head? ≠ some 0x2E := by
    rw [peek_head (by simp [atLineEnd,hd.2.2])]
    simpa using hd.2.1
  have hread : dottedKey readerFuel (q :: t ++ (b ++ d :: r)) = some ([k],d :: r) := by
    obtain ⟨fuel,hfuel⟩ := readerFuel_succ
    rw [hfuel]
    simp only [dottedKey,Lexer.bind_apply,simpleKey_append hq ht,hblank,Lexer.look_apply]
    rw [Lexer.ite_apply,if_neg hdot]
    rfl
  have hw := Lexer.withText_of_some (L := dottedKey readerFuel) (t := q :: t ++ b) (r := d :: r) (a := [k])
    (by rwa [List.append_assoc])
  rw [List.append_assoc] at hw
  simp only [key,Lexer.bind_apply,hw,Lexer.pure_apply]

open Lexical Syntax in
theorem line_assignQuoted {t k lit : Bytes} {q : UInt8} {v : Scalar} (hq : isQuote q = true)
    (ht : simpleKey (q :: t) = some (k,[])) (h : scalar lit = some (v,[])) (r : Bytes) :
    line (q :: t ++ 0x20 :: 0x3D :: 0x20 :: (lit ++ lineFeed :: r)) =
      some (.assign [] ⟨q :: t ++ [0x20],[k]⟩ [0x3D,0x20] (.scalar lit v) [lineFeed],r) := by
  have hkey := key_quoted hq ht (b := [0x20]) (r := 0x20 :: (lit ++ lineFeed :: r))
    (List.forall_mem_singleton.mpr rfl) stopsKey_equals
  obtain ⟨hl,hc⟩ := isQuote_ne hq
  have hopen : q ≠ 0x5B := by rintro rfl; cases hq
  have hblank : ∀ d, (lit ++ lineFeed :: r).head? = some d → isBlank d = false := by
    obtain ⟨c,u,rfl,hc⟩ := scalar_head h
    intro d hd
    cases hd
    rcases hc with hc | hc
    · exact isQuote_notBlank hc
    · exact (isBareScalar_ne hc).2.2
  rw [line_key ⟨hl,hc,by rintro rfl; cases hq⟩ (isQuote_notBlank hq) hopen (by simp [hq]) hkey hblank,
    value_literal h]
  simp [tail_lineFeed]

/-! ### Documents -/

/-- The tree of a header and an assignment below it. -/
def nested {σ : Type} (source : σ) : KeyPath → Entries σ → Entries σ
  | [],es => es
  | k :: ks,es => [(k,.table source false (nested source ks es))]

/-- The same tree under construction. -/
def opened (source : Region) : KeyPath → List (Bytes × Build) → List (Bytes × Build)
  | [],es => es
  | [k],es => [(k,.table .header source es)]
  | k :: k' :: ks,es => [(k,.table .implicit source (opened source (k' :: ks) es))]

theorem openHeader_opened (source : Region) {path : KeyPath} (hne : path ≠ []) :
    Build.openHeader false source path [] = some (opened source path []) := by
  induction path with
  | nil => exact absurd rfl hne
  | cons k ks ih =>
    cases ks with
    | nil => rfl
    | cons k' ks =>
      simp only [Build.openHeader,List.lookup_nil,ih (by simp),Option.map_some]
      rfl

theorem inside_opened (source : Region) {act : List (Bytes × Build) → Option (List (Bytes × Build))}
    {es es' : List (Bytes × Build)} (h : act es = some es') (path : KeyPath) :
    Build.inside act path (opened source path es) = some (opened source path es') := by
  induction path with
  | nil => exact h
  | cons k ks ih =>
    cases ks with
    | nil => simp [opened,Build.inside,h,Entries.replace]
    | cons k' ks =>
      have hl : (opened source (k :: k' :: ks) es).lookup k =
          some (.table .implicit source (opened source (k' :: ks) es)) := by simp [opened]
      rw [Build.inside,hl]
      simp only [ih,Option.map_some]
      simp [opened,Entries.replace]

theorem nodeEntries_opened (source : Region) (path : KeyPath) (es : List (Bytes × Build)) :
    Build.nodeEntries (opened source path es) = nested source path (Build.nodeEntries es) := by
  induction path with
  | nil => rfl
  | cons k ks ih =>
    cases ks with
    | nil => rfl
    | cons k' ks => simp [opened,nested,Build.nodeEntries,Build.node,ih]

theorem records_nested (source : Region) (path pre : KeyPath) (k : Bytes) (region : Region) (v : Scalar) :
    records pre (nested source path [(k,.scalar region v)]) = [(pre ++ path ++ [k],.scalar region v)] := by
  induction path generalizing pre with
  | nil => simp [nested,records,nodeRecords]
  | cons k' ks ih => simp [nested,records,nodeRecords,ih]

theorem content_cons {c : UInt8} (hc : c ≠ 0xEF) (r : Bytes) : content (c :: r) = c :: r := by
  rw [content,if_neg]
  simp [byteOrderMark,List.isPrefixOf,Ne.symm hc]

/-- The header of a key path with what ends its line. -/
def headerText (L : Library) (path : KeyPath) (nl : Bytes) : Bytes := 0x5B :: (keyText L path ++ 0x5D :: nl)

def assignText (key lit : Bytes) : Bytes := key ++ 0x20 :: 0x3D :: 0x20 :: (lit ++ [lineFeed])

/-- The lines of a header, if there is one, of a blank line, if there is one, and of an
assignment. -/
def declaring (L : Library) (path : KeyPath) (nl : Bytes) (blank : Bool) (key k lit : Bytes) (v : Scalar) :
    List Line :=
  (if path = [] then [] else [.header false [] [] ⟨keyText L path,path⟩ nl]) ++
    ((if blank then [.blank [lineFeed]] else []) ++
      [.assign [] ⟨key ++ [0x20],[k]⟩ [0x3D,0x20] (.scalar lit v) [lineFeed]])

theorem text_declaring (path : KeyPath) (nl : Bytes) (blank : Bool) (key k lit : Bytes) (v : Scalar) :
    (declaring L path nl blank key k lit v).flatMap Line.text =
      (if path = [] then [] else headerText L path nl) ++
        ((if blank then [lineFeed] else []) ++ assignText key lit) := by
  unfold declaring
  by_cases hp : path = [] <;> cases blank <;>
    simp [hp,Line.text,Line.bracket,headerText,assignText,Value.text]

/-- A key path that the library can print and the reader has the fuel for. -/
structure Plain (L : Library) (path : KeyPath) : Prop where
  prints : ∀ k ∈ path, PrintsKey L k ∧ lineFeed ∉ k
  length : path.length ≤ readerFuel

theorem isLine_declaring {path : KeyPath} (hpath : Plain L path) {nl : Bytes} (hnl : IsNewline nl)
    (blank : Bool) {q : UInt8} {t k lit : Bytes} {v : Scalar} (hq : Lexical.isQuote q = true)
    (ht : Lexical.simpleKey (q :: t) = some (k,[])) (hv : Lexical.scalar lit = some (v,[])) :
    ∀ l ∈ declaring L path nl blank (q :: t) k lit v, Syntax.IsLine True l := by
  have hsure : ∀ {l : Line}, l.text ≠ [] → (∀ r, Syntax.line (l.text ++ r) = some (l,r)) →
      Syntax.IsLine True l := fun hne h => ⟨hne,fun r => ⟨fun _ => h r,fun hn => absurd trivial hn⟩⟩
  intro l hl
  rcases List.mem_append.mp hl with hl | hl
  · by_cases hp : path = []
    · rw [if_pos hp] at hl
      cases hl
    · rw [if_neg hp] at hl
      obtain rfl := List.mem_singleton.mp hl
      refine hsure (by simp [Line.text,Line.bracket]) (fun r => ?_)
      have h := line_headerPrinted hp hpath.prints hpath.length hnl r
      simpa [Line.text,Line.bracket] using h
  · rcases List.mem_append.mp hl with hl | hl
    · cases blank with
      | false => cases hl
      | true =>
        obtain rfl := List.mem_singleton.mp hl
        exact hsure (by simp [Line.text]) (fun r => Syntax.line_empty r)
    · obtain rfl := List.mem_singleton.mp hl
      refine hsure (by simp [Line.text]) (fun r => ?_)
      have h := line_assignQuoted hq ht hv r
      simpa [Line.text,Value.text] using h

theorem line_declared (source : Region) (path : KeyPath) (key k lit : Bytes) (v : Scalar) (p : Position) :
    ∃ p' region, (Reading.mk p path (opened source path [])).line
      (.assign [] ⟨key,[k]⟩ [0x3D,0x20] (.scalar lit v) [lineFeed]) =
        some ⟨p',path,opened source path [(k,.value (.scalar region v))]⟩ := by
  let before := p.advance ([] ++ (key ++ [0x3D,0x20]))
  refine ⟨p.advance (Line.assign [] ⟨key,[k]⟩ [0x3D,0x20] (.scalar lit v) [lineFeed]).text,
    ⟨before,before.advance lit⟩,?_⟩
  have hput : Build.put ⟨p.advance [],p.advance ([] ++ key)⟩
      (.scalar ⟨before,before.advance lit⟩ v) [k] [] =
      some [(k,.value (.scalar ⟨before,before.advance lit⟩ v))] := rfl
  simp only [Reading.line,Toml.Value.node,Option.bind_some]
  rw [inside_opened source hput path]
  rfl

theorem lines_declaring (path : KeyPath) (nl : Bytes) (blank : Bool) (key k lit : Bytes) (v : Scalar) :
    ∃ p source region, Reading.start.lines (declaring L path nl blank key k lit v) =
      some ⟨p,path,opened source path [(k,.value (.scalar region v))]⟩ := by
  -- the header leaves its table open, and a blank line changes nothing
  obtain ⟨p,source,hstart⟩ : ∃ p source, Reading.start.lines
      (if path = [] then [] else [.header false [] [] ⟨keyText L path,path⟩ nl]) =
        some ⟨p,path,opened source path []⟩ := by
    by_cases hp : path = []
    · subst hp
      exact ⟨.start,Node.nowhere,rfl⟩
    · rw [if_neg hp]
      refine ⟨Position.start.advance (Line.header false [] [] ⟨keyText L path,path⟩ nl).text,
        Reading.headerRegion .start false [] [] ⟨keyText L path,path⟩,?_⟩
      simp only [Reading.lines,Reading.line,Reading.start,openHeader_opened _ hp,Option.map_some,
        Option.bind_some]
  obtain ⟨p₁,hblank⟩ : ∃ p₁, (Reading.mk p path (opened source path [])).lines
      (if blank then [.blank [lineFeed]] else []) = some ⟨p₁,path,opened source path []⟩ := by
    cases blank with
    | false => exact ⟨p,rfl⟩
    | true => exact ⟨p.advance [lineFeed],rfl⟩
  obtain ⟨p₂,region,hline⟩ := line_declared source path (key ++ [0x20]) k lit v p₁
  refine ⟨p₂,source,region,?_⟩
  rw [declaring,Reading.lines_append,hstart,Option.bind_some,Reading.lines_append,hblank,Option.bind_some,
    Reading.lines,hline]
  rfl

/-- The text of a header and an assignment declares the key below the path of the header. -/
theorem parse_declaring {path : KeyPath} (hpath : Plain L path) {nl : Bytes} (hnl : IsNewline nl)
    (blank : Bool) {q : UInt8} {t k lit : Bytes} {v : Scalar} (hq : Lexical.isQuote q = true)
    (ht : Lexical.simpleKey (q :: t) = some (k,[])) (hv : Lexical.scalar lit = some (v,[]))
    (hu : Utf8.valid ((declaring L path nl blank (q :: t) k lit v).flatMap Line.text) = true)
    (hb : path = [] → blank = false) :
    ∃ source region, Toml.parse ((declaring L path nl blank (q :: t) k lit v).flatMap Line.text) =
      some (nested source path [(k,.scalar region v)]) := by
  obtain ⟨p,source,region,hlines⟩ := lines_declaring (L := L) path nl blank (q :: t) k lit v
  have hlength : (declaring L path nl blank (q :: t) k lit v).length ≤ readerFuel := by
    have : (declaring L path nl blank (q :: t) k lit v).length ≤ 3 := by
      unfold declaring
      split <;> split <;> simp
    exact this.trans (by decide)
  have hread := (@Syntax.lines_text (fun _ => True) _ (isLine_declaring hpath hnl blank hq ht hv) _
    hlength).1 (fun _ _ => trivial)
  have hcontent : content ((declaring L path nl blank (q :: t) k lit v).flatMap Line.text) =
      (declaring L path nl blank (q :: t) k lit v).flatMap Line.text := by
    rw [text_declaring]
    by_cases hp : path = []
    · rw [if_pos hp,hb hp]
      have hne : q ≠ 0xEF := by rintro rfl; cases hq
      exact content_cons hne _
    · rw [if_neg hp]
      exact content_cons (by decide) _
  refine ⟨source,region,?_⟩
  rw [Toml.parse,if_pos hu,hcontent,hread,Option.bind_some,hlines]
  simp [nodeEntries_opened,Build.nodeEntries,Build.node]

/-! ### Segments with a line feed -/

open Lexical Syntax in
/-- The first two quotes of a multi-line string are an empty key. -/
theorem dottedKey_stops {k : Bytes} (h : PrintsKey L k) (hk : lineFeed ∈ k) (r : Bytes) (fuel : ℕ) :
    ∃ q rest, dottedKey (fuel + 1) (encode L (.string k) ++ r) = some ([[]],q :: rest) ∧ isQuote q = true := by
  obtain ⟨q,t,ht,hq⟩ := h.multiline hk
  have hread : simpleKey (q :: q :: q :: t ++ r) = some ([],q :: (t ++ r)) := by
    simp only [simpleKey,Lexer.bind_apply,Lexer.look_apply,List.cons_append,peek_quote hq]
    rw [Lexer.ite_apply,if_pos hq]
    simp only [Lexer.bind_apply,Lexer.octet_cons]
    simp [singleLine,Lexer.token,Transducer.read,stringStep,plainStep]
  refine ⟨q,t ++ r,?_,hq⟩
  have hdot : (peek (q :: (t ++ r))).head? ≠ some 0x2E := by
    rw [peek_quote hq]
    rintro he
    cases he
    cases hq
  rw [ht]
  simp only [dottedKey,Lexer.bind_apply,hread,run_blank_none (isQuote_notBlank hq),Lexer.look_apply]
  rw [Lexer.ite_apply,if_neg hdot]
  rfl

open Lexical Syntax in
theorem dottedKey_multiline {k : Bytes} {ks : List Bytes} (h : ∀ k' ∈ k :: ks, PrintsKey L k')
    (hn : ¬ ∀ k' ∈ k :: ks, lineFeed ∉ k') (r : Bytes) {fuel : ℕ} (hf : ks.length < fuel) :
    ∃ path q rest, dottedKey fuel (encode L (.string k) ++ (dotted L ks ++ r)) = some (path,q :: rest) ∧
      isQuote q = true := by
  induction ks generalizing k fuel with
  | nil =>
    obtain ⟨fuel,rfl⟩ := Nat.exists_eq_succ_of_ne_zero (by omega : fuel ≠ 0)
    have hk : lineFeed ∈ k := by simpa using hn
    obtain ⟨q,rest,hread,hq⟩ := dottedKey_stops (h k (by simp)) hk (dotted L [] ++ r) fuel
    exact ⟨_,q,rest,hread,hq⟩
  | cons k' ks ih =>
    obtain ⟨fuel,rfl⟩ := Nat.exists_eq_succ_of_ne_zero (by omega : fuel ≠ 0)
    by_cases hk : lineFeed ∈ k
    · obtain ⟨q,rest,hread,hq⟩ := dottedKey_stops (h k (by simp)) hk (dotted L (k' :: ks) ++ r) fuel
      exact ⟨_,q,rest,hread,hq⟩
    · obtain ⟨hprint,hprints⟩ := List.forall_mem_cons.mp h
      have hn' : ¬ ∀ k₁ ∈ k' :: ks, lineFeed ∉ k₁ := fun hall => hn (List.forall_mem_cons.mpr ⟨hk,hall⟩)
      obtain ⟨path,q,rest,hread,hq⟩ := @ih k' hprints hn' fuel (by simpa using hf)
      obtain ⟨q',t',ht',hq'⟩ := (hprints k' (by simp)).head
      have hsplit : dotted L (k' :: ks) ++ r = 0x2E :: (encode L (.string k') ++ (dotted L ks ++ r)) := by
        simp [dotted]
      refine ⟨k :: path,q,rest,?_,hq⟩
      rw [hsplit]
      rw [ht',List.cons_append] at hread ⊢
      simp only [dottedKey,Lexer.bind_apply,hprint.append hk,run_blank_none (c := 0x2E) (by decide),
        Lexer.look_apply]
      rw [Lexer.ite_apply,if_pos (by rw [peek_cons (by decide)]; rfl)]
      simp only [Lexer.bind_apply,Lexer.octet_cons,run_blank_none (isQuote_notBlank hq'),hread]
      rfl

theorem octet_ne {c d : UInt8} (h : d ≠ c) (r : Bytes) : Lexer.octet c (d :: r) = none := by
  rw [Lexer.octet,if_neg h]

open Lexical Syntax in
theorem key_multiline {path : KeyPath} (h : ∀ k ∈ path, PrintsKey L k) (hn : ¬ ∀ k ∈ path, lineFeed ∉ k)
    (hf : path.length ≤ readerFuel) (r : Bytes) :
    ∃ k q rest, key (keyText L path ++ r) = some (k,q :: rest) ∧ isQuote q = true := by
  cases path with
  | nil => exact absurd (by simp) hn
  | cons k ks =>
    obtain ⟨p,q,rest,hread,hq⟩ := dottedKey_multiline h hn r (show ks.length < readerFuel from hf)
    refine ⟨⟨consumed (keyText L (k :: ks) ++ r) (q :: rest),p⟩,q,rest,?_,hq⟩
    rw [keyText_cons (h k (by simp)),List.append_assoc]
    simp [key,Lexer.bind_apply,Lexer.withText,hread,Lexer.pure_apply]

open Lexical Syntax in
theorem line_headerMultiline {path : KeyPath} (h : ∀ k ∈ path, PrintsKey L k)
    (hn : ¬ ∀ k ∈ path, lineFeed ∉ k) (hf : path.length ≤ readerFuel) (r : Bytes) :
    line (0x5B :: (keyText L path ++ r)) = none := by
  obtain ⟨k,q,rest,hkey,hq⟩ := key_multiline h hn hf r
  obtain ⟨q',t',ht',hq'⟩ := keyText_head (by rintro rfl; exact hn (by simp)) h
  have hopen : (peek (q' :: (t' ++ r))).head? ≠ some 0x5B := by
    rw [peek_quote hq']
    rintro he
    cases he
    cases hq'
  have hne : q ≠ 0x5D := by rintro rfl; cases hq
  rw [ht',List.cons_append] at hkey ⊢
  simp only [line,Lexer.bind_apply,run_blank_none (c := 0x5B) (by decide),Lexer.look_apply]
  rw [Lexer.ite_apply,if_pos (by rw [peek_cons (by decide)]; rfl)]
  simp only [Lexer.bind_apply,Lexer.octet_cons,Lexer.look_apply]
  rw [Lexer.ite_apply,if_neg hopen]
  simp only [header,Lexer.bind_apply,run_blank_none (isQuote_notBlank hq'),hkey,octet_ne hne]

open Lexical Syntax in
theorem line_assignMultiline {k : Bytes} (h : PrintsKey L k) (hk : lineFeed ∈ k) (r : Bytes) :
    line (encode L (.string k) ++ r) = none := by
  obtain ⟨k',q,rest,hkey,hq⟩ := @key_multiline L [k] (List.forall_mem_singleton.mpr h)
    (by simpa using hk) (show 1 ≤ readerFuel by decide) r
  rw [keyText_one h] at hkey
  obtain ⟨q',t',ht',hq'⟩ := h.head
  have hne : q ≠ 0x3D := by rintro rfl; cases hq
  have hopen : (peek (q' :: (t' ++ r))).head? ≠ some 0x5B := by
    rw [peek_quote hq']
    rintro he
    cases he
    cases hq'
  rw [ht',List.cons_append] at hkey ⊢
  simp only [line,Lexer.bind_apply,run_blank_none (isQuote_notBlank hq'),Lexer.look_apply]
  rw [Lexer.ite_apply,if_neg hopen,Lexer.ite_apply,if_pos (by rw [peek_quote hq']; simp [hq'])]
  simp only [Syntax.assignment,Lexer.bind_apply,hkey,equals,octet_ne hne]

theorem lines_of_none {c : UInt8} {s : Bytes} (h : Syntax.line (c :: s) = none) (fuel : ℕ) :
    Syntax.lines (fuel + 1) (c :: s) = none := by
  rw [Syntax.lines]
  · rw [h]
  · simp

/-- The text of an inserted value: the header of its table, if it has one, and the
assignment. -/
def insertedText (L : Library) (path : KeyPath) (k lit : Bytes) : Bytes :=
  (if path = [] then [] else headerText L path [lineFeed]) ++ assignText (encode L (.string k)) lit

/-- A segment with a line feed makes no TOML, wherever it stands. -/
theorem parse_multiline {path : KeyPath} {k : Bytes} (hpath : ∀ k' ∈ path, PrintsKey L k')
    (hk : PrintsKey L k) (hn : ¬ ((∀ k' ∈ path, lineFeed ∉ k') ∧ lineFeed ∉ k))
    (hf : path.length ≤ readerFuel) (lit : Bytes) : Toml.parse (insertedText L path k lit) = none := by
  obtain ⟨q,t,ht,hq⟩ := hk.head
  have hassign : lineFeed ∈ k → Syntax.line (assignText (encode L (.string k)) lit) = none :=
    fun hmem => line_assignMultiline hk hmem _
  obtain ⟨fuel,hfuel⟩ : ∃ fuel, readerFuel = fuel + 1 + 1 := ⟨1048574,rfl⟩
  have hlines : Syntax.lines readerFuel (insertedText L path k lit) = none := by
    unfold insertedText
    by_cases hp : path = []
    · have hmem : lineFeed ∈ k := by
        by_contra hmem
        exact hn ⟨by simp [hp],hmem⟩
      rw [if_pos hp,List.nil_append,hfuel]
      have h := hassign hmem
      rw [ht] at h ⊢
      exact lines_of_none h _
    · rw [if_neg hp,headerText,List.cons_append,List.append_assoc]
      by_cases hplain : ∀ k' ∈ path, lineFeed ∉ k'
      · have hmem : lineFeed ∈ k := by
          by_contra hmem
          exact hn ⟨hplain,hmem⟩
        have hheader := line_headerPrinted hp (fun k' hk' => ⟨hpath k' hk',hplain k' hk'⟩) hf
          (show IsNewline [lineFeed] from .inl rfl) (assignText (encode L (.string k)) lit)
        have h := hassign hmem
        rw [List.cons_append,hfuel,Syntax.lines,hheader]
        · simp only
          rw [ht] at h ⊢
          have hrest : Syntax.lines (fuel + 1) (assignText (q :: t) lit) = none := lines_of_none h fuel
          rw [hrest]
          rfl
        · simp
      · rw [hfuel]
        exact lines_of_none (line_headerMultiline hpath hplain hf _) _
  have hcontent : content (insertedText L path k lit) = insertedText L path k lit := by
    unfold insertedText
    by_cases hp : path = []
    · rw [if_pos hp,List.nil_append,ht]
      exact content_cons (by rintro rfl; cases hq) _
    · rw [if_neg hp]
      exact content_cons (by decide) _
  rw [Toml.parse,hcontent,hlines]
  split <;> rfl

/-! ### Well-formed texts -/

theorem valid_concat {s t : Bytes} (hs : Utf8.valid s = true) (ht : Utf8.valid t = true) :
    Utf8.valid (s ++ t) = true := by rwa [Utf8.valid_append hs]

theorem valid_cons {b : UInt8} (hb : Utf8.isAscii b = true) {s : Bytes} (hs : Utf8.valid s = true) :
    Utf8.valid (b :: s) = true :=
  valid_concat (s := [b]) (Utf8.valid_ascii (List.forall_mem_singleton.mpr hb)) hs

theorem valid_keyText {path : KeyPath} (h : ∀ k ∈ path, PrintsKey L k) : Utf8.valid (keyText L path) = true := by
  cases path with
  | nil => rfl
  | cons k ks =>
    obtain ⟨hk,hks⟩ := List.forall_mem_cons.mp h
    rw [keyText_cons hk]
    refine valid_concat hk.valid ?_
    clear hk h
    induction ks with
    | nil => rfl
    | cons k' ks ih =>
      obtain ⟨hk',hks'⟩ := List.forall_mem_cons.mp hks
      exact valid_cons rfl (valid_concat hk'.valid (ih hks'))

theorem valid_headerText {path : KeyPath} (h : ∀ k ∈ path, PrintsKey L k) {nl : Bytes}
    (hnl : Utf8.valid nl = true) : Utf8.valid (headerText L path nl) = true :=
  valid_cons rfl (valid_concat (valid_keyText h) (valid_cons rfl hnl))

theorem valid_assignText {key lit : Bytes} (hk : Utf8.valid key = true) (hl : Utf8.valid lit = true) :
    Utf8.valid (assignText key lit) = true :=
  valid_concat hk (valid_cons rfl (valid_cons rfl (valid_cons rfl (valid_concat hl rfl))))

theorem length_keyText {path : KeyPath} (h : ∀ k ∈ path, PrintsKey L k) : path.length ≤ (keyText L path).length := by
  cases path with
  | nil => exact Nat.zero_le _
  | cons k ks =>
    obtain ⟨hk,hks⟩ := List.forall_mem_cons.mp h
    obtain ⟨q,t,ht,-⟩ := hk.head
    have hdotted : ks.length ≤ (dotted L ks).length := by
      clear hk h ht hks
      induction ks with
      | nil => exact Nat.zero_le _
      | cons k' ks ih =>
        have hcons : dotted L (k' :: ks) = 0x2E :: (encode L (.string k') ++ dotted L ks) := by simp [dotted]
        rw [hcons]
        simp only [List.length_cons,List.length_append]
        omega
    rw [keyText_cons hk,ht]
    simp only [List.length_cons,List.length_append]
    omega

/-! ### What the program reads -/

theorem withoutEntries_nested (source : Region) (path : KeyPath) (es : Entries Region) :
    Node.withoutEntries (nested source path es) = nested Node.nowhere path (Node.withoutEntries es) := by
  induction path with
  | nil => rfl
  | cons k ks ih => simp [nested,Node.withoutEntries,Node.withoutTableRegions,ih]

theorem eraseEntries_nested (source : Region) (path : KeyPath) (es : Entries Region) :
    Node.eraseEntries (nested source path es) = nested () path (Node.eraseEntries es) := by
  induction path with
  | nil => rfl
  | cons k ks ih => simp [nested,Node.eraseEntries,Node.erase,ih]

/-- The library reads the declared tree, and its override is the value. -/
theorem reads_declared {bound : ℕ} (hL : L.Conforms bound) {s : Bytes} (hs : s.length ≤ bound)
    {source region : Region} {path : KeyPath} {k : Bytes} {v : Scalar}
    (hp : Toml.parse s = some (nested source path [(k,.scalar region v)])) :
    ∃ root, L.parse s = .ok root ∧ Node.eraseEntries root = nested () path [(k,.scalar () v)] ∧
      records [] root = [(path ++ [k],.scalar region v)] := by
  obtain ⟨root,hroot,hw⟩ := hL.parses hs hp
  refine ⟨root,hroot,?_,?_⟩
  · rw [← Node.eraseEntries_withoutEntries root,hw,Node.eraseEntries_withoutEntries,eraseEntries_nested]
    rfl
  · have h := congrArg (records []) hw
    rw [records_without,withoutEntries_nested,Node.withoutEntries,Node.withoutEntries,
      Node.withoutTableRegions,records_nested,List.nil_append] at h
    obtain ⟨r,hr,he⟩ := List.map_eq_singleton_iff.mp h
    obtain ⟨key,n⟩ := r
    obtain ⟨rfl,hn⟩ := Prod.ext_iff.mp he
    rw [hr]
    cases n with
    | scalar region' v' =>
      simp only [Node.withoutTableRegions,Node.scalar.injEq] at hn
      rw [hn.1,hn.2]
    | _ => cases hn

theorem parseDocument_declared {bound : ℕ} (hL : L.Conforms bound) (hb : kMaximumDocumentBytes ≤ bound)
    {s : Bytes} (hs : s.length ≤ kMaximumDocumentBytes) {source region : Region} {path : KeyPath} {k : Bytes}
    {v : Scalar} (hp : Toml.parse s = some (nested source path [(k,.scalar region v)])) (file : Path) :
    (parseDocument L s file).value =
      some ⟨file,⟨true,s⟩,[(path ++ [k],entryOf L s (.scalar region v))]⟩ := by
  obtain ⟨root,hroot,-,hrecords⟩ := reads_declared hL (hs.trans hb) hp
  rw [parseDocument_of_ok hs hroot,collect_eq_map,hrecords]
  rfl

/-! ### Headers -/

/-- The key the header probe assigns to. -/
def probeKey : Bytes := bytes "__hn_probe"

theorem probe_parts : ∃ t, probeText = lineFeed :: assignText (0x22 :: t) [0x30] ∧
    Lexical.simpleKey (0x22 :: t) = some (probeKey,[]) ∧ Utf8.valid (0x22 :: t) = true := by
  refine ⟨bytes "__hn_probe\"",?_⟩
  decide +kernel

theorem scalar_zero : Lexical.scalar [0x30] = some (.integer 0,[]) := by decide +kernel

/-- What may stand behind the bracket of a header that is looked at. -/
def EndsLine (nl : Bytes) : Prop := nl = [] ∨ IsNewline nl

theorem text_probed (path : KeyPath) (hp : path ≠ []) {nl : Bytes} (hnl : EndsLine nl) {t : Bytes}
    (ht : probeText = lineFeed :: assignText (0x22 :: t) [0x30]) :
    ∃ nl' blank, IsNewline nl' ∧ headerText L path nl ++ probeText =
      (declaring L path nl' blank (0x22 :: t) probeKey [0x30] (.integer 0)).flatMap Line.text := by
  rcases hnl with rfl | hnl
  · refine ⟨[lineFeed],false,.inl rfl,?_⟩
    rw [text_declaring,if_neg hp,ht]
    simp [headerText]
  · refine ⟨nl,true,hnl,?_⟩
    rw [text_declaring,if_neg hp,ht]
    simp

theorem headerMatches_short {statement : Bytes} {parent : KeyPath} (h : headerMatches L statement parent = true) :
    (statement ++ probeText).length ≤ kMaximumDocumentBytes := by
  by_contra hlong
  unfold headerMatches at h
  simp only [parseDocument,if_pos (not_le.mp hlong)] at h
  split at h <;> cases h

/-- A printed header is the header of its path and of no other one. -/
theorem headerMatches_printed {bound : ℕ} (hL : L.Conforms bound) (hb : kMaximumDocumentBytes ≤ bound)
    {path : KeyPath} (hp : path ≠ []) (hpath : Plain L path) {nl : Bytes} (hnl : EndsLine nl)
    (hs : (headerText L path nl ++ probeText).length ≤ kMaximumDocumentBytes) (parent : KeyPath) :
    headerMatches L (headerText L path nl) parent = true ↔ parent = path := by
  have hprints : ∀ k ∈ path, PrintsKey L k := fun k hk => (hpath.prints k hk).1
  obtain ⟨t,ht,hkey,hkv⟩ := probe_parts
  obtain ⟨nl',blank,hnl',htext⟩ := text_probed (L := L) path hp hnl ht
  have hu : Utf8.valid (headerText L path nl ++ probeText) = true := by
    refine valid_concat (valid_headerText hprints ?_) (by rw [ht]; exact valid_cons rfl (valid_assignText hkv rfl))
    rcases hnl with rfl | rfl | rfl <;> rfl
  have hparse := parse_declaring hpath hnl' blank (q := 0x22) rfl hkey scalar_zero
    (by rwa [← htext]) (fun h => absurd h hp)
  obtain ⟨source,region,hparse⟩ := hparse
  rw [← htext] at hparse
  have hdoc := parseDocument_declared hL hb hs hparse .none
  obtain ⟨q,u,hq,hquote⟩ := keyText_head hp hprints
  have hdrop : (headerText L path nl).dropWhile isHeaderSpace = headerText L path nl := by
    rw [headerText,List.dropWhile_cons_of_neg (by decide)]
  have hopen : (headerText L path nl).head? = some 0x5B ∧ (headerText L path nl).take 2 ≠ [0x5B,0x5B] := by
    refine ⟨rfl,?_⟩
    rw [headerText,hq]
    intro h
    simp only [List.cons_append,List.take_succ_cons,List.cons.injEq] at h
    rw [h.2.1] at hquote
    cases hquote
  unfold headerMatches
  simp only [hdrop,if_pos hopen,hdoc,List.dropLast_concat,beq_iff_eq]
  exact eq_comm

/-! ### Insertions -/

/-- The scalar a value is, if it is one. -/
def scalarOf : Value → Option Scalar
  | .boolean b => some (.boolean b)
  | .integer n => some (.integer n)
  | .floating d => some (.floating d)
  | .string t => some (.string t)
  | .aggregate _ => none

theorem encode_scalarOf {v : Value} {w : Scalar} (h : scalarOf v = some w) :
    encode L v = L.format (.scalar () w) := by
  cases v <;> cases h <;> rfl

theorem valueOf_scalarOf {v : Value} {w : Scalar} (h : scalarOf v = some w) (region : Region) :
    valueOf L (.scalar region w) = v := by
  cases v <;> cases h <;> rfl

theorem newlineOf_nil : newlineOf [] = [lineFeed] := rfl

theorem bytes_assign : bytes " = " = [0x20,0x3D,0x20] := by decide +kernel

/-- What a value inserted into an empty document makes of it. -/
theorem planned_insertion {current : DocumentSnapshot} (hbytes : current.revision.bytes = []) (path : KeyPath)
    {k : Bytes} (hk : PrintsKey L k) (lit : Bytes) :
    substitute 0 [] ((coalesceInsertions (planInsertions L current
      [(path,keyText L [k] ++ bytes " = " ++ lit ++ newlineOf [])])).insertionSort laterSpan) =
      some (insertedText L path k lit) := by
  have hplan : planInsertion L current path (keyText L [k] ++ bytes " = " ++ lit ++ newlineOf []) =
      ⟨⟨0,0⟩,insertedText L path k lit⟩ := by
    unfold planInsertion insertionPoint insertedText
    rw [keyText_one hk,bytes_assign,newlineOf_nil,hbytes]
    by_cases hp : path = []
    · rw [if_pos hp,if_pos hp]
      simp [behindText,assignText]
    · rw [if_neg hp,if_neg hp]
      simp [headerEnd,splitLines,behindText,assignText,headerText,newlineOf_nil]
  rw [planInsertions,List.map_singleton,hplan]
  simp [coalesceInsertions,coalesce,substitute]

section
variable {current : DocumentSnapshot}

/-- Setting a key of an empty document is one insertion. -/
theorem planEdits_insert (hbytes : current.revision.bytes = []) (hempty : current.overrides = []) (path : KeyPath)
    (k : Bytes) (v : Value) (plan : Plan) :
    planEdits L current [] [⟨path ++ [k],none,some v⟩] plan =
      (true,⟨plan.replacements,addInsertion path
        (keyText L [k] ++ bytes " = " ++ encode L v ++ newlineOf []) plan.insertions,plan.conflicts,
        plan.diagnostics⟩) := by
  have hvalue : current.value (path ++ [k]) = none := by
    simp [DocumentSnapshot.value,DocumentSnapshot.entry,hempty]
  have hentry : current.entry (path ++ [k]) = none := by simp [DocumentSnapshot.entry,hempty]
  simp [planEdits,planEdit,hvalue,hentry,Value.same,hbytes]

/-- What it makes is the inserted text, where that parses and has the value. -/
theorem applyReplacements_insert (hbytes : current.revision.bytes = []) (path : KeyPath) {k : Bytes}
    (hk : PrintsKey L k) (v : Value) (snapshot : DocumentSnapshot) :
    (applyReplacements L current ([] ++ planInsertions L current
        [(path,keyText L [k] ++ bytes " = " ++ encode L v ++ newlineOf [])])
        [⟨path ++ [k],none,some v⟩]).value = some snapshot ↔
      (parseDocument L (insertedText L path k (encode L v)) current.path).value = some snapshot ∧
        Value.same (snapshot.value (path ++ [k])) (some v) = true := by
  have hsub := planned_insertion hbytes path hk (encode L v)
  unfold applyReplacements
  simp only [hbytes,List.length_nil,List.nil_append,hsub]
  cases hp : (parseDocument L (insertedText L path k (encode L v)) current.path).value with
  | none => simp [hp]
  | some parsed =>
    simp only [List.all_cons,List.all_nil,Bool.and_true]
    split
    · next hsame =>
      rw [hp]
      constructor
      · intro h
        cases h
        exact ⟨rfl,hsame⟩
      · exact fun h => h.1
    · next hsame =>
      constructor
      · intro h
        cases h
      · rintro ⟨h,hs⟩
        cases h
        exact absurd hs hsame

theorem status_insert (hbytes : current.revision.bytes = [])
    (hempty : current.overrides = []) {schema : DocumentSchema}
    (hschema : ∀ snapshot, hasErrors (validateDocument L snapshot schema) = false) (path : KeyPath)
    {k : Bytes} (hk : PrintsKey L k) (v : Value) :
    (patchDocument L current [⟨path ++ [k],none,some v⟩] schema).status = .success ↔
      ∃ v' snapshot, normalizeValue L v = some v' ∧
        (parseDocument L (insertedText L path k (encode L v')) current.path).value = some snapshot ∧
        Value.same (snapshot.value (path ++ [k])) (some v') = true := by
  cases hn : normalizeValue L v with
  | none =>
    have hedits : (normalizeEdits L [⟨path ++ [k],none,some v⟩] current.path).value = none := by
      simp [normalizeEdits,normalizeEdit,hn,Result.failure]
    unfold patchDocument
    simp only [hschema,hedits]
    simp
  | some v' =>
    have hedits : (normalizeEdits L [⟨path ++ [k],none,some v⟩] current.path).value =
        some [⟨path ++ [k],none,some v'⟩] := by
      simp [normalizeEdits,normalizeEdit,hn,Result.success]
    have happly := applyReplacements_insert (L := L) hbytes path hk v'
    unfold patchDocument
    simp only [hschema,hedits,planEdits_insert hbytes hempty,addInsertion,Bool.false_eq_true,if_false,Bool.not_true,
      ne_eq,not_true_eq_false]
    cases ha : (applyReplacements L current ([] ++ planInsertions L current
        [(path,keyText L [k] ++ bytes " = " ++ encode L v' ++ newlineOf [])])
        [⟨path ++ [k],none,some v'⟩]).value with
    | none =>
      simp only
      constructor
      · intro h
        cases h
      · rintro ⟨w,snapshot,hw,h⟩
        cases hw
        rw [(happly snapshot).mpr h] at ha
        cases ha
    | some snapshot =>
      simp only
      exact ⟨fun _ => ⟨v',snapshot,rfl,(happly snapshot).mp ha⟩,fun _ => trivial⟩

end

theorem same_nan_right {a : Option Value} {d : Binary64} (hd : d.isNaN = true) :
    Value.same a (some (.floating d)) = false := by
  cases a with
  | none => rfl
  | some v => cases v <;> simp [Value.same,Value.eq,Binary64.eq,hd]

/-- What a scalar reads back as is the scalar, or both are nan. -/
theorem reads_scalarOf {v : Value} {w w' : Scalar} (hw : scalarOf v = some w) (h : w'.plain = w.plain) :
    (isNaN (some v) = false ∧ w' = w) ∨
      (isNaN (some v) = true ∧ ∃ d, w' = .floating d ∧ d.isNaN = true) := by
  cases v with
  | floating d =>
    obtain rfl : Scalar.floating d = w := Option.some.inj hw
    cases w' with
    | floating d' =>
      simp only [Scalar.plain,Scalar.floating.injEq] at h
      cases hd : d.isNaN with
      | true =>
        right
        refine ⟨hd,d',rfl,?_⟩
        rw [hd,if_pos rfl] at h
        split at h
        · next hd' => exact hd'
        · rw [h]
          rfl
      | false =>
        left
        refine ⟨hd,?_⟩
        rw [hd,if_neg Bool.false_ne_true] at h
        split at h
        · rw [← h] at hd
          cases hd
        · rw [h]
    | _ => simp [Scalar.plain] at h
  | aggregate t => cases hw
  | _ =>
    cases hw
    left
    refine ⟨rfl,?_⟩
    cases w' <;> simp_all [Scalar.plain]

theorem normalizeValue_scalar (hL : L.Conforms kMaximumDocumentBytes) {v : Value} {w w' : Scalar}
    (hw : scalarOf v = some w) (hu : Utf8.valid (L.format (.scalar () w)) = true)
    (hread : Lexical.scalar (L.format (.scalar () w)) = some (w',[])) :
    normalizeValue L v = if (probe (encode L v)).length ≤ kMaximumDocumentBytes then
      some (valueOf L (.scalar Node.nowhere w')) else none := by
  rw [encode_scalarOf hw]
  have hsound := (Syntax.sound readerFuel le_rfl).1 (value_literal hread [])
  obtain ⟨n,hparse,hn⟩ := parse_probe (p := .start) hsound (by simpa [Toml.Value.text] using hu) rfl
  rw [Toml.Value.text] at hparse
  obtain ⟨region,rfl⟩ : ∃ region, n = .scalar region w' := by
    cases n with
    | scalar region w₁ =>
      simp only [Node.erase,Node.scalar.injEq,true_and] at hn
      exact ⟨region,by rw [hn]⟩
    | _ => cases hn
  unfold normalizeValue
  rw [encode_scalarOf hw,← probe]
  split_ifs with hlength
  · have hnested : Toml.parse (probe (L.format (.scalar () w))) =
        some (nested Node.nowhere [] [(bytes "value",.scalar region w')]) := hparse
    have hdoc := parseDocument_declared hL le_rfl hlength hnested .none
    simp only [hdoc,List.nil_append,List.length_singleton,if_true]
    simp only [DocumentSnapshot.value,DocumentSnapshot.entry,valueKey,List.lookup_cons_self,Option.map_some,entryOf]
    cases w' <;> rfl
  · rw [parseDocument,if_pos (not_le.mp hlength)]
    rfl

/-! ### The law -/

/-- A header and an assignment below it mean the path and the key they were printed for,
and so do the header for the program and the insertion of the key path. -/
structure Unambiguous (L : Library) (path : KeyPath) (k : Bytes) (v : Value) (w : Scalar) : Prop where
  declares : path ≠ [] → ∃ root, L.parse (headerText L path [lineFeed] ++
    assignText (keyText L [k]) (encode L v)) = .ok root ∧
      Node.eraseEntries root = nested () path [(k,.scalar () w)]
  assigns : ∃ root, L.parse (assignText (keyText L [k]) (encode L v)) = .ok root ∧
    Node.eraseEntries root = [(k,.scalar () w)]
  matches_ : path ≠ [] → ∀ nl, EndsLine nl → ∀ parent,
    headerMatches L (headerText L path nl) parent = true ↔ parent = path
  inserts : ∀ current schema, current.revision.bytes = [] → current.overrides = [] →
    (∀ snapshot, hasErrors (validateDocument L snapshot schema) = false) →
      (patchDocument L current [⟨path ++ [k],none,some v⟩] schema).status = .success

/-- The length of a printed path, from those of its segments. -/
def keyLength (L : Library) (path : KeyPath) : ℕ :=
  (path.map (fun k => (encode L (.string k)).length + 1)).sum - 1

/-- No segment has a line feed, the value is not a nan, and the texts that are parsed stay
within the limit: the header with the longest line end and the probe's eighteen octets, the
literal behind `value = `, and the candidate. -/
structure Insertable (L : Library) (path : KeyPath) (k : Bytes) (v : Value) : Prop where
  singleLine : (∀ k' ∈ path, lineFeed ∉ k') ∧ lineFeed ∉ k
  notNaN : isNaN (some v) = false
  header : path ≠ [] → keyLength L path + 22 ≤ kMaximumDocumentBytes
  literal : (encode L v).length + 8 ≤ kMaximumDocumentBytes
  candidate : (if path = [] then 0 else keyLength L path + 3) + (encode L (.string k)).length +
    (encode L v).length + 4 ≤ kMaximumDocumentBytes

theorem keyText_length {path : KeyPath} (h : ∀ k ∈ path, PrintsKey L k) :
    (keyText L path).length = keyLength L path := by
  cases path with
  | nil => rfl
  | cons k ks =>
    have hdotted : (dotted L ks).length = (ks.map (fun k => (encode L (.string k)).length + 1)).sum := by
      simp [dotted,List.length_flatMap]
    rw [keyText_cons (h k (by simp)),List.length_append,hdotted,keyLength,List.map_cons,List.sum_cons]
    omega

theorem headerText_length {path : KeyPath} (h : ∀ k ∈ path, PrintsKey L k) (nl : Bytes) :
    (headerText L path nl ++ probeText).length = keyLength L path + nl.length + 20 := by
  have hprobe : probeText.length = 18 := by decide +kernel
  simp only [headerText,List.length_append,List.length_cons,keyText_length h,hprobe]
  omega

theorem insertedText_length {path : KeyPath} (h : ∀ k ∈ path, PrintsKey L k) (k lit : Bytes) :
    (insertedText L path k lit).length = (if path = [] then 0 else keyLength L path + 3) +
      (encode L (.string k)).length + lit.length + 4 := by
  unfold insertedText assignText headerText
  split <;> simp only [List.length_append,List.length_cons,List.length_nil,keyText_length h] <;> omega

theorem length_insertedText {path : KeyPath} (h : ∀ k' ∈ path, PrintsKey L k') (k lit : Bytes) :
    path.length ≤ (insertedText L path k lit).length := by
  unfold insertedText
  by_cases hp : path = []
  · simp [hp]
  · have := length_keyText h
    rw [if_neg hp,headerText]
    simp only [List.length_append,List.length_cons]
    omega

theorem maximum_le_readerFuel : kMaximumDocumentBytes ≤ readerFuel := by decide

theorem Insertable.plain {path : KeyPath} {k : Bytes} {v : Value} (h : Insertable L path k v)
    (hprints : ∀ k' ∈ path, PrintsKey L k') : Plain L path := by
  refine ⟨fun k' hk' => ⟨hprints k' hk',h.singleLine.1 k' hk'⟩,?_⟩
  have hsize := h.candidate
  rw [← insertedText_length hprints] at hsize
  exact (length_insertedText hprints k _).trans (hsize.trans maximum_le_readerFuel)

/-- Where an insertion succeeds, what it was planned from is insertable. -/
theorem insertable_of_unambiguous (hL : L.Conforms kMaximumDocumentBytes) {path : KeyPath} {k : Bytes}
    {v : Value} {w : Scalar} (hpath : ∀ k' ∈ path, PrintsKey L k') (hk : PrintsKey L k)
    (hw : scalarOf v = some w) (hv : PrintsScalar L w) (h : Unambiguous L path k v w) :
    Insertable L path k v := by
  obtain ⟨w',hplain,hread⟩ := hv.reads
  have hschema : ∀ snapshot, hasErrors (validateDocument L snapshot ⟨[],none⟩) = false := fun _ => rfl
  have hstatus := h.inserts (.missing .none) ⟨[],none⟩ rfl rfl hschema
  obtain ⟨v',snapshot,hnormal,hcandidate,hsame⟩ := (status_insert rfl rfl hschema path hk v).mp hstatus
  rw [normalizeValue_scalar hL hw hv.valid hread] at hnormal
  split at hnormal
  · next hliteral =>
    cases hnormal
    obtain ⟨hnan,rfl⟩ | ⟨-,d,rfl,hd⟩ := reads_scalarOf hw hplain
    · rw [valueOf_scalarOf hw] at hcandidate
      obtain ⟨root,hsize,hroot,-⟩ := parseDocument_value hcandidate
      refine ⟨?_,hnan,fun hp => ?_,by rwa [length_probe] at hliteral,by rwa [insertedText_length hpath] at hsize⟩
      · by_contra hmulti
        have hf := (length_insertedText hpath k (encode L v)).trans (hsize.trans maximum_le_readerFuel)
        obtain ⟨t,ht,-⟩ := hL.ok hsize hroot
        rw [parse_multiline hpath hk hmulti hf] at ht
        cases ht
      · have hshort := headerMatches_short ((h.matches_ hp _ (.inr (.inr rfl)) path).mpr rfl)
        rwa [headerText_length hpath] at hshort
    · have hfalse := @same_nan_right (snapshot.value (path ++ [k])) d hd
      change Value.same _ (some (.floating d)) = true at hsame
      rw [hfalse] at hsame
      cases hsame
  · cases hnormal

/-- The text of a table path and an assignment, and what it means. -/
theorem parse_insertedText {path : KeyPath} {k : Bytes} {v : Value} {w : Scalar} (hk : PrintsKey L k)
    (hw : scalarOf v = some w) (hv : PrintsScalar L w) (hread : Lexical.scalar (encode L v) = some (w,[]))
    (hline : lineFeed ∉ k) (hp : Plain L path) :
    ∃ source region, Toml.parse (insertedText L path k (encode L v)) = some (nested source path [(k,.scalar region w)]) := by
  obtain ⟨⟨q,t,ht,hq⟩,hkey⟩ := hk.quoted hline
  rw [ht] at hkey
  have htext : (declaring L path [lineFeed] false (q :: t) k (encode L v) w).flatMap Line.text =
      insertedText L path k (encode L v) := by
    rw [text_declaring,insertedText,ht]
    rfl
  have hassign : Utf8.valid (assignText (encode L (.string k)) (encode L v)) = true :=
    valid_assignText hk.valid (by rw [encode_scalarOf hw]; exact hv.valid)
  have hu : Utf8.valid (insertedText L path k (encode L v)) = true := by
    unfold insertedText
    refine valid_concat ?_ hassign
    split
    · rfl
    · exact valid_headerText (fun k' hk' => (hp.prints k' hk').1) rfl
  have hparse := parse_declaring hp (show IsNewline [lineFeed] from .inl rfl) false hq hkey hread
    (by rwa [htext]) (fun _ => rfl)
  rwa [htext] at hparse

theorem unambiguous_of_insertable (hL : L.Conforms kMaximumDocumentBytes) {path : KeyPath} {k : Bytes}
    {v : Value} {w : Scalar} (hpath : ∀ k' ∈ path, PrintsKey L k') (hk : PrintsKey L k)
    (hw : scalarOf v = some w) (hv : PrintsScalar L w) (h : Insertable L path k v) :
    Unambiguous L path k v w := by
  obtain ⟨w',hplain,hread⟩ := hv.reads
  obtain ⟨-,heq⟩ | ⟨hnan,-⟩ := reads_scalarOf hw hplain
  · obtain rfl : w = w' := heq.symm
    have hp := h.plain hpath
    have hcandidate : (insertedText L path k (encode L v)).length ≤ kMaximumDocumentBytes := by
      rw [insertedText_length hpath]
      exact h.candidate
    have hscalar : Lexical.scalar (encode L v) = some (w,[]) := by rw [encode_scalarOf hw]; exact hread
    have htree : ∀ path', Plain L path' → ∃ source region, Toml.parse (insertedText L path' k (encode L v)) =
        some (nested source path' [(k,.scalar region w)]) :=
      fun path' hp' => parse_insertedText hk hw hv hscalar h.singleLine.2 hp'
    refine ⟨fun hne => ?_,?_,fun hne nl hnl parent => ?_,fun current schema hbytes hempty hschema => ?_⟩
    · obtain ⟨source,region,hparse⟩ := htree path hp
      obtain ⟨root,hroot,herase,-⟩ := reads_declared hL hcandidate hparse
      rw [insertedText,if_neg hne,← keyText_one hk] at hroot
      exact ⟨root,hroot,herase⟩
    · obtain ⟨source,region,hparse⟩ := htree [] ⟨by simp,Nat.zero_le _⟩
      have hsize : (insertedText L [] k (encode L v)).length ≤ kMaximumDocumentBytes := by
        have := h.candidate
        rw [insertedText_length (by simp),if_pos rfl]
        omega
      obtain ⟨root,hroot,herase,-⟩ := reads_declared hL hsize hparse
      rw [insertedText,if_pos rfl,List.nil_append,← keyText_one hk] at hroot
      exact ⟨root,hroot,herase⟩
    · refine headerMatches_printed hL le_rfl hne hp hnl ?_ parent
      have hlong := h.header hne
      have hnl' : nl.length ≤ 2 := by rcases hnl with rfl | rfl | rfl <;> decide
      rw [headerText_length hpath]
      omega
    · obtain ⟨source,region,hparse⟩ := htree path hp
      have hnormal := normalizeValue_scalar hL hw hv.valid hread
      rw [if_pos (by rw [length_probe]; exact h.literal),valueOf_scalarOf hw] at hnormal
      have hdoc := parseDocument_declared hL le_rfl hcandidate hparse current.path
      refine (status_insert hbytes hempty hschema path hk v).mpr ⟨v,_,hnormal,hdoc,?_⟩
      have hvalue : (DocumentSnapshot.mk current.path ⟨true,insertedText L path k (encode L v)⟩
          [(path ++ [k],entryOf L (insertedText L path k (encode L v)) (.scalar region w))]).value
            (path ++ [k]) = some v := by
        simp only [DocumentSnapshot.value,DocumentSnapshot.entry,List.lookup_cons_self,Option.map_some,entryOf]
        rw [valueOf_scalarOf hw]
      rw [hvalue]
      refine (Value.same_refl_or (some v)).resolve_right ?_
      rintro ⟨d,hd,hdn⟩
      cases hd
      exact absurd hdn (by simpa [isNaN] using h.notNaN)
  · rw [h.notNaN] at hnan
    cases hnan

/-- Key paths print unambiguously and can be inserted exactly where they are insertable. -/
theorem unambiguous_iff (hL : L.Conforms kMaximumDocumentBytes) {path : KeyPath} {k : Bytes} {v : Value}
    {w : Scalar} (hpath : ∀ k' ∈ path, PrintsKey L k') (hk : PrintsKey L k) (hw : scalarOf v = some w)
    (hv : PrintsScalar L w) : Unambiguous L path k v w ↔ Insertable L path k v :=
  ⟨insertable_of_unambiguous hL hpath hk hw hv,unambiguous_of_insertable hL hpath hk hw hv⟩

/-- Single-line printing of a segment can be checked. -/
theorem printsKey_of_quoted {k : Bytes} (h : Utf8.valid (encode L (.string k)) = true ∧ lineFeed ∉ k ∧
    ((encode L (.string k)).head?.any Lexical.isQuote) = true ∧
    Lexical.simpleKey (encode L (.string k)) = some (k,[])) : PrintsKey L k := by
  obtain ⟨hu,hk,hq,hread⟩ := h
  refine ⟨hu,fun _ => ⟨?_,hread⟩,fun hmem => absurd hmem hk⟩
  cases ht : encode L (.string k) with
  | nil => rw [ht] at hq; cases hq
  | cons q t => exact ⟨q,t,rfl,by simpa [ht] using hq⟩

end

/-- A dot, an empty segment and quotes of both kinds. -/
def quotedPath : KeyPath := [bytes "a.b",[]]
def quotedKey : Bytes := bytes "x \"y'\t"

theorem unambiguous_quoted :
    Unambiguous Reference.library quotedPath quotedKey (.integer 1) (.integer 1) ↔
      Insertable Reference.library quotedPath quotedKey (.integer 1) := by
  refine unambiguous_iff (Reference.conforms _) (fun k hk => printsKey_of_quoted ?_)
    (printsKey_of_quoted (by decide +kernel)) rfl ⟨by decide +kernel,.integer 1,rfl,by decide +kernel⟩
  rcases List.mem_pair.mp hk with rfl | rfl <;> decide +kernel

/-! A library that prints a string with a line feed as a multi-line one. -/

def linesText (s : Bytes) : Bytes :=
  0x22 :: 0x22 :: 0x22 :: lineFeed ::
    (s.flatMap (fun c => if c = lineFeed then [c] else Reference.escapeOctet c) ++ [0x22,0x22,0x22])

def linesFormat : Node Unit → Bytes
  | .scalar u (.string s) => if lineFeed ∈ s then linesText s else Reference.nodeText (.scalar u (.string s))
  | n => Reference.nodeText n

def linesLibrary : Library := { Reference.library with format := linesFormat }

/-- A segment of two lines. -/
def brokenKey : Bytes := [0x61,lineFeed,0x62]
def plainKey : Bytes := [0x78]

theorem printsKey_broken : PrintsKey linesLibrary brokenKey := by
  refine ⟨by decide +kernel,fun h => absurd (by simp [brokenKey]) h,fun _ => ?_⟩
  exact ⟨0x22,_,rfl,rfl⟩

theorem unambiguous_broken : ¬ ∀ (path : KeyPath) (k : Bytes) (v : Value) (w : Scalar), path ≠ [] →
    (∀ k' ∈ path, Utf8.valid k' = true ∧ PrintsKey linesLibrary k') → Utf8.valid k = true →
    PrintsKey linesLibrary k → scalarOf v = some w → PrintsScalar linesLibrary w →
    Unambiguous linesLibrary path k v w := by
  intro h
  have hk : PrintsKey linesLibrary plainKey := printsKey_of_quoted (by decide +kernel)
  have hbroken : ∀ k' ∈ [brokenKey], PrintsKey linesLibrary k' :=
    List.forall_mem_singleton.mpr printsKey_broken
  have hbad := h [brokenKey] plainKey (.integer 1) (.integer 1) (by simp)
    (List.forall_mem_singleton.mpr ⟨by decide +kernel,printsKey_broken⟩) (by decide +kernel) hk rfl
    ⟨by decide +kernel,.integer 1,rfl,by decide +kernel⟩
  obtain ⟨root,hroot,-⟩ := hbad.declares (by simp)
  have hmulti : ¬ ((∀ k' ∈ [brokenKey], lineFeed ∉ k') ∧ lineFeed ∉ plainKey) :=
    fun hplain => hplain.1 brokenKey (by simp) (by simp [brokenKey])
  have hnone := parse_multiline hbroken hk hmulti (show 1 ≤ readerFuel by decide)
    (encode linesLibrary (.integer 1))
  rw [insertedText,if_neg (by simp),← keyText_one hk] at hnone
  have hparse : linesLibrary.parse = Reference.parse := rfl
  rw [hparse,Reference.parse,hnone] at hroot
  cases hroot

end Document
end HolonightConfig
