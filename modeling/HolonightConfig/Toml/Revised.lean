import HolonightConfig.Toml.Placed

/-! Putting another value in the place of one that a document assigns: the other lines are
read as they were, and the tree changes at that key alone. -/
namespace Text

/-- Behind a line feed nothing is looked at. -/
theorem sameStart_of_lineFeed {t : Bytes} (h : t.getLast? = some lineFeed) (r r' : Bytes) :
    SameStart (t ++ r) (t ++ r') := by
  obtain ⟨u,rfl⟩ := List.getLast?_eq_some_iff.mp h
  rw [List.append_assoc,List.append_assoc]
  exact (sameStart_of_atLineEnd (by simp [atLineEnd]) (by simp [atLineEnd])).append u

namespace Lexer
variable {α β : Type}

/-- A lexer that ends with its line reads the same line in front of any other text. -/
def Ends (L : Lexer α) : Prop := ∀ ⦃s a r⦄, L s = some (a,r) →
  ∃ t, s = t ++ r ∧ (r = [] ∨ (t.getLast? = some lineFeed ∧ ∀ r', L (t ++ r') = some (a,r')))

theorem Ends.fail : (Lexer.fail : Lexer α).Ends := by
  intro s a r h
  cases h

theorem Ends.ite {p : Prop} [Decidable p] {L M : Lexer α} (h : L.Ends) (h' : M.Ends) :
    (if p then L else M).Ends := by
  split
  · exact h
  · exact h'

theorem Reads.ends {L : Lexer α} {R : Bytes → α → Prop} (h : L.Reads R) {k : α → Lexer β}
    (hk : ∀ a, (k a).Ends) : (L >>= k).Ends := by
  intro s b r hs
  rw [bind_apply] at hs
  split at hs
  · cases hs
  · next a r₁ ha =>
    obtain ⟨t₁,rfl,-,hagain⟩ := h ha
    obtain ⟨t₂,rfl,hr⟩ := hk a hs
    refine ⟨t₁ ++ t₂,by simp,hr.imp id (fun ⟨hlast,hr'⟩ => ⟨?_,fun r' => ?_⟩)⟩
    · rw [List.getLast?_append,hlast]
      rfl
    · rw [List.append_assoc,bind_of_some (hagain _ (sameStart_of_lineFeed hlast r r')),hr']

theorem Ends.pure {L : Lexer α} (h : L.Ends) (f : α → β) : (L >>= fun a => Pure.pure (f a)).Ends := by
  intro s b r hs
  rw [bind_apply] at hs
  split at hs
  · cases hs
  · next a r₁ ha =>
    cases hs
    obtain ⟨t,rfl,hr⟩ := h ha
    exact ⟨t,rfl,hr.imp id (fun ⟨hlast,hr'⟩ => ⟨hlast,fun r' => by rw [bind_of_some (hr' r')]; rfl⟩)⟩

end Lexer
end Text

namespace Toml
open Text

namespace Syntax
open Lexical

theorem ends_tail : tail.Ends := by
  have h : ∀ (s : Bytes) (st : GapState) (a r : Bytes), tailStep.read st s = some (a,r) →
      ∃ t, s = t ++ r ∧ (r = [] ∨ (t.getLast? = some lineFeed ∧
        ∀ r', tailStep.read st (t ++ r') = some (a,r'))) := by
    intro s
    induction s with
    | nil =>
      intro st a r h
      rw [Transducer.read] at h
      split at h
      · cases h; exact ⟨[],rfl,.inl rfl⟩
      · cases h
    | cons c s ih =>
      intro st a r h
      rw [Transducer.read] at h
      split at h
      · cases h
      · next o st' he =>
        obtain ⟨⟨o',r'⟩,hr,heq⟩ := Option.map_eq_some_iff.mp h
        cases heq
        obtain ⟨t,rfl,hend⟩ := ih st' o' r' hr
        refine ⟨c :: t,rfl,?_⟩
        rcases hend with hnil | ⟨hlast,hagain⟩
        · exact .inl hnil
        · refine .inr ⟨?_,fun r'' => ?_⟩
          · rw [List.getLast?_cons,hlast]
            rfl
          · rw [List.cons_append,Transducer.read,he]
            simp only [hagain,Option.map_some]
      · next o he =>
        have hc : c = lineFeed := by
          cases st <;> simp only [tailStep] at he <;> repeat' split at he
          all_goals first | assumption | cases he
        cases h
        exact ⟨[c],rfl,.inr ⟨by rw [hc]; rfl,fun r' => by rw [List.singleton_append,Transducer.read,he]⟩⟩
      · next o he =>
        cases st <;> simp only [tailStep] at he <;> repeat' split at he
        all_goals cases he
  exact fun s a r => h s .blank a r

theorem ends_header (isArray : Bool) (lead : Bytes) : (header isArray lead).Ends := by
  refine reads_blanks.ends fun open_ => reads_key.ends fun k => (Lexer.Reads.octet _).ends fun _ => ?_
  cases isArray with
  | true => exact (Lexer.Reads.octet _).ends fun _ => ends_tail.pure _
  | false => exact ends_tail.pure _

theorem ends_assignment (lead : Bytes) : (assignment lead).Ends :=
  reads_key.ends fun _ => reads_equals.ends fun _ => (reads readerFuel).1.ends fun _ => ends_tail.pure _

/-- A line that ends in a line feed is read whatever stands behind it. -/
theorem ends_line : line.Ends := by
  refine reads_blanks.ends fun lead => Lexer.Reads.look.ends fun ahead => .ite ?_ (.ite ?_ ?_)
  · exact (Lexer.Reads.octet _).ends fun _ => Lexer.Reads.look.ends fun _ => .ite
      ((Lexer.Reads.octet _).ends fun _ => ends_header true lead) (ends_header false lead)
  · exact ends_assignment lead
  · exact ends_tail.pure _

theorem line_again {s r : Bytes} {l : Line} (h : line s = some (l,r)) :
    r = [] ∨ (l.text.getLast? = some lineFeed ∧ ∀ r', line (l.text ++ r') = some (l,r')) := by
  obtain ⟨t,rfl,hend⟩ := ends_line h
  obtain rfl : t = l.text := List.append_cancel_right (text_line h).1
  exact hend

end Syntax

namespace Entries
variable {β : Type}

theorem lookup_replace {k : Bytes} {b b₀ : β} {es : List (Bytes × β)} (h : es.lookup k = some b₀) (k' : Bytes) :
    (replace k b es).lookup k' = if k' = k then some b else es.lookup k' := by
  split
  · next he => rw [he]; exact lookup_replace_self k b h
  · next he => exact lookup_replace_of_ne he b es

theorem insert_replace {k k' : Bytes} (h : k' ≠ k) (b b' : β) (es : List (Bytes × β)) :
    insert k' b' (replace k b es) = replace k b (insert k' b' es) := by
  have hcons : ∀ (k₁ : Bytes) (c : β) (fs : List (Bytes × β)), replace k b ((k₁,c) :: fs) =
      (if k₁ = k then (k₁,b) else (k₁,c)) :: replace k b fs := by
    intro k₁ c fs
    simp [replace]
  induction es with
  | nil => simp [insert,replace,h]
  | cons e es ih =>
    obtain ⟨k₁,b₁⟩ := e
    rw [hcons]
    by_cases hk₁ : k₁ = k
    · rw [if_pos hk₁,insert,insert]
      split
      · rw [hcons,hcons,if_neg h,if_pos hk₁]
      · rw [hcons,if_pos hk₁,ih]
    · rw [if_neg hk₁,insert,insert]
      split
      · rw [hcons,hcons,if_neg h,if_neg hk₁]
      · rw [hcons,if_neg hk₁,ih]

theorem replace_replace {k k' : Bytes} (h : k' ≠ k) (b b' : β) (es : List (Bytes × β)) :
    replace k' b' (replace k b es) = replace k b (replace k' b' es) := by
  simp only [replace,List.map_map]
  congr 1
  funext e
  simp only [Function.comp_apply]
  by_cases he : e.1 = k
  · simp [he,Ne.symm h]
  · simp only [beq_iff_eq,he,if_false]
    split <;> rfl

end Entries

namespace Build

/-- An action on a table leaves a value at a key alone, whichever it is. -/
def Spares (k : Bytes) (act : List (Bytes × Build) → Option (List (Bytes × Build))) : Prop :=
  ∀ ⦃es n⦄, es.lookup k = some (.value n) →
    (∀ m, act (Entries.replace k (.value m) es) = (act es).map (Entries.replace k (.value m))) ∧
    ∀ es', act es = some es' → es'.lookup k = some (.value n)

section
variable {k k' : Bytes} {es : List (Bytes × Build)} {n : Node Region}

theorem spares_insert (hk : k' ≠ k) (o : Option (List (Bytes × Build))) (f : List (Bytes × Build) → Build)
    (h : es.lookup k = some (.value n)) :
    (∀ m, o.map (fun sub => Entries.insert k' (f sub) (Entries.replace k (.value m) es)) =
      (o.map (fun sub => Entries.insert k' (f sub) es)).map (Entries.replace k (.value m))) ∧
    ∀ es', o.map (fun sub => Entries.insert k' (f sub) es) = some es' → es'.lookup k = some (.value n) := by
  constructor
  · intro m
    cases o with
    | none => rfl
    | some sub => exact congrArg some (Entries.insert_replace hk _ _ es)
  · intro es' he
    obtain ⟨sub,-,rfl⟩ := Option.map_eq_some_iff.mp he
    rwa [Entries.lookup_insert_of_ne (Ne.symm hk)]

theorem spares_replace (hk : k' ≠ k) (o : Option (List (Bytes × Build))) (f : List (Bytes × Build) → Build)
    (h : es.lookup k = some (.value n)) :
    (∀ m, o.map (fun sub => Entries.replace k' (f sub) (Entries.replace k (.value m) es)) =
      (o.map (fun sub => Entries.replace k' (f sub) es)).map (Entries.replace k (.value m))) ∧
    ∀ es', o.map (fun sub => Entries.replace k' (f sub) es) = some es' → es'.lookup k = some (.value n) := by
  constructor
  · intro m
    cases o with
    | none => rfl
    | some sub => exact congrArg some (Entries.replace_replace hk _ _ es)
  · intro es' he
    obtain ⟨sub,-,rfl⟩ := Option.map_eq_some_iff.mp he
    rwa [Entries.lookup_replace_of_ne (Ne.symm hk)]

end

theorem spares_none {k : Bytes} {act : List (Bytes × Build) → Option (List (Bytes × Build))}
    (h : ∀ es n, es.lookup k = some (.value n) → act es = none) : Spares k act := by
  intro es n hes
  refine ⟨fun m => ?_,fun es' he => ?_⟩
  · rw [h es n hes,h _ m (Entries.lookup_replace_self k _ hes)]
    rfl
  · rw [h es n hes] at he
    cases he

theorem spares_put (k : Bytes) (source : Region) (n : Node Region) (ks : List Bytes) :
    Spares k (put source n ks) := by
  cases ks with
  | nil => exact spares_none fun _ _ _ => rfl
  | cons k' ks =>
    by_cases hk : k' = k
    · subst hk
      refine spares_none fun es m hes => ?_
      cases ks with
      | nil => simp only [put,hes]
      | cons k'' ks => simp only [put,hes]
    · intro es m hes
      cases ks with
      | nil =>
        simp only [put,Entries.lookup_replace hes,if_neg hk]
        cases es.lookup k' with
        | none => exact spares_insert hk (some []) (fun _ => .value n) hes
        | some b => exact ⟨fun _ => rfl,fun es' he => by cases he⟩
      | cons k'' ks =>
        simp only [put,Entries.lookup_replace hes,if_neg hk]
        cases es.lookup k' with
        | none => exact spares_insert hk _ (.table .dotted source) hes
        | some b =>
          cases b with
          | table o s sub =>
            cases o with
            | header => exact ⟨fun _ => rfl,fun es' he => by cases he⟩
            | implicit => exact spares_replace hk _ (.table .dotted s) hes
            | dotted => exact spares_replace hk _ (.table .dotted s) hes
          | _ => exact ⟨fun _ => rfl,fun es' he => by cases he⟩

theorem spares_inside {k : Bytes} {act : List (Bytes × Build) → Option (List (Bytes × Build))}
    (h : Spares k act) (ks : List Bytes) : Spares k (inside act ks) := by
  cases ks with
  | nil => exact h
  | cons k' ks =>
    by_cases hk : k' = k
    · subst hk
      exact spares_none fun es m hes => by simp only [inside,hes]
    · intro es m hes
      simp only [inside,Entries.lookup_replace hes,if_neg hk]
      split
      · next o s sub _ => exact spares_replace hk _ (.table o s) hes
      · next s o s' sub older _ => exact spares_replace hk _ (fun sub' => .tables s (.table o s' sub' :: older)) hes
      · exact ⟨fun _ => rfl,fun es' he => by cases he⟩

theorem spares_openHeader (k : Bytes) (isArray : Bool) (source : Region) (ks : List Bytes) :
    Spares k (openHeader isArray source ks) := by
  cases ks with
  | nil => exact spares_none fun _ _ _ => rfl
  | cons k' ks =>
    by_cases hk : k' = k
    · subst hk
      refine spares_none fun es m hes => ?_
      cases ks with
      | nil => cases isArray <;> simp only [openHeader,hes]
      | cons k'' ks => simp only [openHeader,hes]
    · intro es m hes
      cases ks with
      | nil =>
        simp only [openHeader,Entries.lookup_replace hes,if_neg hk]
        split
        · exact spares_insert hk (some []) (fun _ => .table .header source []) hes
        · next s sub _ => exact spares_replace hk (some sub) (.table .header source) hes
        · exact spares_insert hk (some []) (fun _ => .tables source [.table .header source []]) hes
        · next s els _ =>
          exact spares_replace hk (some [])
            (fun _ => .tables ⟨s.begin,source.stop⟩ (.table .header source [] :: els)) hes
        · exact ⟨fun _ => rfl,fun es' he => by cases he⟩
      | cons k'' ks =>
        simp only [openHeader,Entries.lookup_replace hes,if_neg hk]
        split
        · exact spares_insert hk _ (.table .implicit source) hes
        · next o s sub _ => exact spares_replace hk _ (.table o s) hes
        · next s o s' sub older _ => exact spares_replace hk _ (fun sub' => .tables s (.table o s' sub' :: older)) hes
        · exact ⟨fun _ => rfl,fun es' he => by cases he⟩

/-! Where tables stand makes no difference either. -/

theorem inside_unplaced {act act' : List (Bytes × Build) → Option (List (Bytes × Build))}
    (h : ∀ es, act' (unplacedMembers es) = (act es).map unplacedMembers) (ks : List Bytes)
    (es : List (Bytes × Build)) :
    inside act' ks (unplacedMembers es) = (inside act ks es).map unplacedMembers := by
  induction ks generalizing es with
  | nil => exact h es
  | cons k ks ih =>
    simp only [inside,lookup_unplacedMembers]
    cases es.lookup k with
    | none => rfl
    | some b =>
      cases b with
      | value n => rfl
      | table o s sub =>
        simp only [Option.map_some,unplaced,ih,Option.map_map]
        congr 1
        funext sub'
        exact replace_unplacedMembers k (.table o s sub') es
      | tables s els =>
        cases els with
        | nil => rfl
        | cons b els =>
          cases b with
          | table o s' sub =>
            simp only [Option.map_some,unplaced,unplacedElements,ih,Option.map_map]
            congr 1
            funext sub'
            exact replace_unplacedMembers k (.tables s (.table o s' sub' :: els)) es
          | _ => rfl

theorem openHeader_unplaced (isArray : Bool) (source : Region) (ks : List Bytes) (es : List (Bytes × Build)) :
    openHeader isArray Node.nowhere ks (unplacedMembers es) =
      (openHeader isArray source ks es).map unplacedMembers := by
  induction ks generalizing es with
  | nil => rfl
  | cons k ks ih =>
    cases ks with
    | nil =>
      simp only [openHeader,lookup_unplacedMembers]
      cases es.lookup k with
      | none =>
        cases isArray with
        | false => exact congrArg some (insert_unplacedMembers k (.table .header source []) es)
        | true => exact congrArg some (insert_unplacedMembers k (.tables source [.table .header source []]) es)
      | some b =>
        cases b with
        | value n => cases isArray <;> rfl
        | table o s sub =>
          cases isArray with
          | true => rfl
          | false =>
            cases o with
            | implicit => exact congrArg some (replace_unplacedMembers k (.table .header source sub) es)
            | _ => rfl
        | tables s els =>
          cases isArray with
          | false => rfl
          | true =>
            exact congrArg some
              (replace_unplacedMembers k (.tables ⟨s.begin,source.stop⟩ (.table .header source [] :: els)) es)
    | cons k' ks =>
      have hnil := ih []
      rw [unplacedMembers] at hnil
      simp only [openHeader,lookup_unplacedMembers]
      cases es.lookup k with
      | none =>
        simp only [Option.map_none,hnil,Option.map_map]
        congr 1
        funext sub
        exact insert_unplacedMembers k (.table .implicit source sub) es
      | some b =>
        cases b with
        | value n => rfl
        | table o s sub =>
          simp only [Option.map_some,unplaced,ih,Option.map_map]
          congr 1
          funext sub'
          exact replace_unplacedMembers k (.table o s sub') es
        | tables s els =>
          cases els with
          | nil => rfl
          | cons b els =>
            cases b with
            | table o s' sub =>
              simp only [Option.map_some,unplaced,unplacedElements,ih,Option.map_map]
              congr 1
              funext sub'
              exact replace_unplacedMembers k (.tables s (.table o s' sub' :: els)) es
            | _ => rfl

end Build

/-! ### Lines over a revised table -/

/-- A reading whose entries differ in the value at a key, and in places. -/
structure Revised (k : Bytes) (m : Node Region) (r r' : Reading) : Prop where
  section_ : r'.section_ = r.section_
  kept : ∃ n, r.entries.lookup k = some (.value n)
  entries : Build.unplacedMembers r'.entries =
    Entries.replace k (.value m) (Build.unplacedMembers r.entries)

namespace Revised
open Build
variable {k : Bytes} {m : Node Region} {r r' : Reading}

/-- An action that does not look at places and spares the key does the same to both. -/
theorem act (h : Revised k m r r') {act act' bare : List (Bytes × Build) → Option (List (Bytes × Build))}
    (hact : ∀ es, bare (unplacedMembers es) = (act es).map unplacedMembers)
    (hact' : ∀ es, bare (unplacedMembers es) = (act' es).map unplacedMembers)
    (hs : Spares k act) (hb : Spares k bare) {es : List (Bytes × Build)} (he : act r.entries = some es) :
    ∃ es', act' r'.entries = some es' ∧ (∃ n, es.lookup k = some (.value n)) ∧
      unplacedMembers es' = Entries.replace k (.value m) (unplacedMembers es) := by
  obtain ⟨n,hn⟩ := h.kept
  have hlookup : (unplacedMembers r.entries).lookup k = some (.value n.unplaced) := by
    rw [lookup_unplacedMembers,hn]
    rfl
  have hboth : (act' r'.entries).map unplacedMembers =
      some (Entries.replace k (.value m) (unplacedMembers es)) := by
    rw [← hact',h.entries,(hb hlookup).1 m,hact,he]
    rfl
  obtain ⟨es',he',hes'⟩ := Option.map_eq_some_iff.mp hboth
  exact ⟨es',he',⟨n,(hs hn).2 es he⟩,hes'⟩

theorem line (h : Revised k m r r') {l : Line} {r₁ : Reading} (hl : r.line l = some r₁) :
    ∃ r₁', r'.line l = some r₁' ∧ Revised k m r₁ r₁' := by
  cases l with
  | blank t =>
    cases hl
    exact ⟨_,rfl,h.section_,h.kept,h.entries⟩
  | header a lead open_ key tail =>
    obtain ⟨es,he,rfl⟩ := Option.map_eq_some_iff.mp hl
    obtain ⟨es',he',hkept,hes⟩ := h.act (openHeader_unplaced a _ key.path)
      (openHeader_unplaced a (Reading.headerRegion r'.position a lead open_ key) key.path)
      (spares_openHeader k a _ _) (spares_openHeader k a _ _) he
    exact ⟨⟨r'.position.advance (Line.header a lead open_ key tail).text,key.path,es'⟩,
      by simp only [Reading.line,he',Option.map_some],rfl,hkept,hes⟩
  | assign lead key equals v tail =>
    simp only [Reading.line,Option.bind_eq_some_iff,Option.map_eq_some_iff] at hl
    obtain ⟨n,hn,es,he,rfl⟩ := hl
    rcases Value.alike_cases (v.node_unplaced (r.position.advance (lead ++ (key.text ++ equals)))
      (r'.position.advance (lead ++ (key.text ++ equals)))) with ⟨h₁,-⟩ | ⟨x,n',hx,hn',hplain⟩
    · rw [hn] at h₁; cases h₁
    · cases hn.symm.trans hx
      have hput : ∀ (source : Region) (n₀ : Node Region), n₀.unplaced = n.unplaced → ∀ es,
          put Node.nowhere n.unplaced key.path (unplacedMembers es) =
            (put source n₀ key.path es).map unplacedMembers := by
        intro source n₀ h₀ es
        rw [← h₀,put_unplaced]
      rw [← h.section_] at he
      obtain ⟨es',he',hkept,hes⟩ := h.act (inside_unplaced (hput _ n rfl) r'.section_)
        (inside_unplaced (hput ⟨r'.position.advance lead,r'.position.advance (lead ++ key.text)⟩ n' hplain.symm)
          r'.section_)
        (spares_inside (spares_put k _ _ _) _) (spares_inside (spares_put k _ _ _) _) he
      exact ⟨⟨r'.position.advance (Line.assign lead key equals v tail).text,r'.section_,es'⟩,
        by simp only [Reading.line,hn',Option.bind_some,he',Option.map_some],h.section_,hkept,hes⟩

theorem lines (h : Revised k m r r') {ls : List Line} {r₁ : Reading} (hl : r.lines ls = some r₁) :
    ∃ r₁', r'.lines ls = some r₁' ∧ Revised k m r₁ r₁' := by
  induction ls generalizing r r' with
  | nil => cases hl; exact ⟨r',rfl,h⟩
  | cons l ls ih =>
    obtain ⟨r₂,h₂,hl⟩ := Option.bind_eq_some_iff.mp hl
    obtain ⟨r₂',h₂',hr⟩ := h.line h₂
    obtain ⟨r₁',h₁',hr'⟩ := ih hr hl
    exact ⟨r₁',by rw [Reading.lines_cons_of_some h₂',h₁'],hr'⟩

end Revised

/-! ### The line that assigns a key -/

namespace Build
variable {k : Bytes} {n : Node Region} {es es' : List (Bytes × Build)}

/-- Where a value comes from: it was there, or it is put at its key alone. -/
theorem lookup_put {source : Region} {m : Node Region} {ks : List Bytes} (h : put source m ks es = some es')
    (hn : es'.lookup k = some (.value n)) :
    es.lookup k = some (.value n) ∨ (ks = [k] ∧ m = n ∧ es.lookup k = none) := by
  cases ks with
  | nil => cases h
  | cons k' ks =>
    cases ks with
    | nil =>
      simp only [put] at h
      split at h
      · next hnone =>
        cases h
        by_cases hk : k = k'
        · subst hk
          rw [Entries.lookup_insert_self k _ hnone] at hn
          cases hn
          exact .inr ⟨rfl,rfl,hnone⟩
        · rw [Entries.lookup_insert_of_ne hk] at hn
          exact .inl hn
      · cases h
    | cons k'' ks =>
      left
      simp only [put] at h
      split at h
      · next hnone =>
        obtain ⟨sub,-,rfl⟩ := Option.map_eq_some_iff.mp h
        by_cases hk : k = k'
        · subst hk
          rw [Entries.lookup_insert_self k _ hnone] at hn
          cases hn
        · rwa [Entries.lookup_insert_of_ne hk] at hn
      · next hsome =>
        obtain ⟨sub,-,rfl⟩ := Option.map_eq_some_iff.mp h
        rw [Entries.lookup_replace hsome] at hn
        split at hn
        · cases hn
        · exact hn
      · next hsome =>
        obtain ⟨sub,-,rfl⟩ := Option.map_eq_some_iff.mp h
        rw [Entries.lookup_replace hsome] at hn
        split at hn
        · cases hn
        · exact hn
      · cases h

theorem lookup_inside {act : List (Bytes × Build) → Option (List (Bytes × Build))} {k' : Bytes} {ks : List Bytes}
    (h : inside act (k' :: ks) es = some es') (hn : es'.lookup k = some (.value n)) :
    es.lookup k = some (.value n) := by
  simp only [inside] at h
  split at h
  · next hsome =>
    obtain ⟨sub,-,rfl⟩ := Option.map_eq_some_iff.mp h
    rw [Entries.lookup_replace hsome] at hn
    split at hn
    · cases hn
    · exact hn
  · next hsome =>
    obtain ⟨sub,-,rfl⟩ := Option.map_eq_some_iff.mp h
    rw [Entries.lookup_replace hsome] at hn
    split at hn
    · cases hn
    · exact hn
  · cases h

theorem lookup_openHeader {isArray : Bool} {source : Region} {ks : List Bytes}
    (h : openHeader isArray source ks es = some es') (hn : es'.lookup k = some (.value n)) :
    es.lookup k = some (.value n) := by
  have hinsert : ∀ {k' : Bytes} {b : Build}, es.lookup k' = none → (∀ m, b ≠ .value m) →
      (Entries.insert k' b es).lookup k = some (.value n) → es.lookup k = some (.value n) := by
    intro k' b hnone hb hn
    by_cases hk : k = k'
    · subst hk
      rw [Entries.lookup_insert_self k _ hnone] at hn
      exact absurd (Option.some.inj hn) (hb n)
    · rwa [Entries.lookup_insert_of_ne hk] at hn
  have hreplace : ∀ {k' : Bytes} {b b₀ : Build}, es.lookup k' = some b₀ → (∀ m, b ≠ .value m) →
      (Entries.replace k' b es).lookup k = some (.value n) → es.lookup k = some (.value n) := by
    intro k' b b₀ hsome hb hn
    rw [Entries.lookup_replace hsome] at hn
    split at hn
    · exact absurd (Option.some.inj hn) (hb n)
    · exact hn
  cases ks with
  | nil => cases h
  | cons k' ks =>
    cases ks with
    | nil =>
      simp only [openHeader] at h
      split at h
      · next hnone => cases h; exact hinsert hnone (by simp) hn
      · next hsome => cases h; exact hreplace hsome (by simp) hn
      · next hnone => cases h; exact hinsert hnone (by simp) hn
      · next hsome => cases h; exact hreplace hsome (by simp) hn
      · cases h
    | cons k'' ks =>
      simp only [openHeader] at h
      split at h
      · next hnone =>
        obtain ⟨sub,-,rfl⟩ := Option.map_eq_some_iff.mp h
        exact hinsert hnone (by simp) hn
      · next hsome =>
        obtain ⟨sub,-,rfl⟩ := Option.map_eq_some_iff.mp h
        exact hreplace hsome (by simp) hn
      · next hsome =>
        obtain ⟨sub,-,rfl⟩ := Option.map_eq_some_iff.mp h
        exact hreplace hsome (by simp) hn
      · cases h

end Build

/-- The line that gives a key of the document its value. -/
structure AssignedAt (k : Bytes) (n : Node Region) (r r₁ : Reading) (as : List Line)
    (lead : Bytes) (key : Key) (equals : Bytes) (v : Value) : Prop where
  before : r.lines as = some r₁
  top : r₁.section_ = []
  path : key.path = [k]
  absent : r₁.entries.lookup k = none
  value : v.node (r₁.position.advance (lead ++ (key.text ++ equals))) = some n

theorem assignedAt_lines {k : Bytes} {n : Node Region} {r r' : Reading} {ls : List Line}
    (h : r.lines ls = some r') (hn : r'.entries.lookup k = some (.value n)) :
    r.entries.lookup k = some (.value n) ∨ ∃ as lead key equals v tail bs r₁,
      ls = as ++ .assign lead key equals v tail :: bs ∧ AssignedAt k n r r₁ as lead key equals v := by
  induction ls generalizing r with
  | nil => cases h; exact .inl hn
  | cons l ls ih =>
    obtain ⟨r₂,h₂,h⟩ := Option.bind_eq_some_iff.mp h
    rcases ih h with h₁ | ⟨as,lead,key,equals,v,tail,bs,r₁,rfl,hat⟩
    · cases l with
      | blank t => cases h₂; exact .inl h₁
      | header a lead open_ key tail =>
        obtain ⟨es,ho,rfl⟩ := Option.map_eq_some_iff.mp h₂
        exact .inl (Build.lookup_openHeader ho h₁)
      | assign lead key equals v tail =>
        simp only [Reading.line,Option.bind_eq_some_iff,Option.map_eq_some_iff] at h₂
        obtain ⟨m,hm,es,hi,rfl⟩ := h₂
        cases hs : r.section_ with
        | cons k' ks =>
          rw [hs] at hi
          exact .inl (Build.lookup_inside hi h₁)
        | nil =>
          rw [hs] at hi
          rcases Build.lookup_put hi h₁ with h₀ | ⟨hpath,rfl,hnone⟩
          · exact .inl h₀
          · exact .inr ⟨[],lead,key,equals,v,tail,ls,r,rfl,rfl,hs,hpath,hnone,hm⟩
    · exact .inr ⟨l :: as,lead,key,equals,v,tail,bs,r₁,rfl,
        by rw [Reading.lines_cons_of_some h₂,hat.before],hat.top,hat.path,hat.absent,hat.value⟩

namespace Reading

theorem position_line {r r' : Reading} {l : Line} (h : r.line l = some r') :
    r'.position = r.position.advance l.text := by
  cases l with
  | blank t => cases h; rfl
  | header a lead open_ key tail =>
    obtain ⟨es,-,rfl⟩ := Option.map_eq_some_iff.mp h
    rfl
  | assign lead key equals v tail =>
    simp only [line,Option.bind_eq_some_iff,Option.map_eq_some_iff] at h
    obtain ⟨n,-,es,-,rfl⟩ := h
    rfl

theorem position_lines {r r' : Reading} {ls : List Line} (h : r.lines ls = some r') :
    r'.position = r.position.advance (ls.flatMap Line.text) := by
  induction ls generalizing r with
  | nil => cases h; rfl
  | cons l ls ih =>
    obtain ⟨r₁,h₁,h⟩ := Option.bind_eq_some_iff.mp h
    rw [ih h,position_line h₁,List.flatMap_cons,Position.advance_append]

end Reading

namespace Syntax
open Lexical

theorem header_ne_assign {isArray : Bool} {lead s r lead' equals_ t : Bytes} {k : Key} (v : Value) :
    header isArray lead s ≠ some (.assign lead' k equals_ v t,r) := by
  intro h
  simp only [header,Lexer.bind_apply] at h
  split at h
  · cases h
  · split at h
    · cases h
    · split at h
      · cases h
      · cases isArray with
        | true =>
          simp only [if_true,Lexer.bind_apply] at h
          split at h
          · cases h
          · split at h <;> cases h
        | false =>
          simp only [Bool.false_eq_true,if_false,Lexer.bind_apply] at h
          split at h <;> cases h

/-- An assignment is read with another value in place of its own. -/
theorem line_revised {s r lead equals_ t : Bytes} {k : Key} {v : Value}
    (h : line s = some (.assign lead k equals_ v t,r)) : tail (t ++ r) = some (t,r) ∧
      ∀ w v', w ≠ [] → (∀ c, w.head? = some c → isBlank c = false) →
        value readerFuel (w ++ (t ++ r)) = some (v',t ++ r) →
        line (lead ++ (k.text ++ (equals_ ++ (w ++ (t ++ r))))) = some (.assign lead k equals_ v' t,r) := by
  simp only [line,Lexer.bind_apply,Lexer.look_apply,Lexer.ite_apply] at h
  split at h
  · cases h
  · next lead' s₁ hlead =>
    split at h
    · split at h
      · cases h
      · next a r₂ ha =>
        split at h
        · split at h
          · cases h
          · exact absurd h (header_ne_assign _)
        · exact absurd h (header_ne_assign _)
    · next hopen =>
      split at h
      · next hkey =>
        simp only [assignment,Lexer.bind_apply] at h
        split at h
        · cases h
        · next k' s₂ hk =>
          split at h
          · cases h
          · next eq s₃ he =>
            split at h
            · cases h
            · next v'' s₄ hv =>
              split at h
              · cases h
              · next t' r' ht =>
                cases h
                have hs₄ := reads_tail ht
                rw [hs₄] at ht
                refine ⟨ht,fun w v' hne hw hv' => ?_⟩
                obtain ⟨t₁,rfl,rfl,hlead'⟩ := reads_blanks hlead
                obtain ⟨t₂,rfl,rfl,hk'⟩ := reads_key hk
                obtain ⟨b,hb,rfl,heq⟩ : ∃ b, equals_ = 0x3D :: b ∧ s₂ = equals_ ++ s₃ ∧ ∀ c ∈ b, isBlank c = true := by
                  simp only [equals,Lexer.bind_apply] at he
                  split at he
                  · cases he
                  · next sign r₁ hsign =>
                    obtain ⟨rfl,rfl⟩ := Lexer.octet_some hsign
                    simp only [Lexer.run] at he
                    cases he
                    exact ⟨_,rfl,by simp,fun c hc => List.mem_takeWhile_imp hc⟩
                have hsame : SameStart (equals_ ++ s₃) (equals_ ++ (w ++ (t ++ r))) := by
                  rw [hb,List.cons_append,List.cons_append,SameStart,peek_cons (by decide),peek_cons (by decide)]
                have hsame' : SameStart (k.text ++ (equals_ ++ s₃)) (k.text ++ (equals_ ++ (w ++ (t ++ r)))) :=
                  hsame.append k.text
                have hpeek : peek (k.text ++ (equals_ ++ (w ++ (t ++ r)))) = peek (k.text ++ (equals_ ++ s₃)) :=
                  hsame'.symm
                have hequals : equals (equals_ ++ (w ++ (t ++ r))) = some (equals_,w ++ (t ++ r)) := by
                  have hrun : Lexer.run isBlank (b ++ (w ++ (t ++ r))) = some (b,w ++ (t ++ r)) := by
                    refine Lexer.run_stop heq (fun c hc => hw c ?_)
                    obtain ⟨d,w,rfl⟩ := List.exists_cons_of_ne_nil hne
                    exact hc
                  rw [hb,List.cons_append]
                  simp only [equals,Lexer.bind_apply,Lexer.octet_cons,hrun]
                  rfl
                simp only [line,Lexer.bind_apply,Lexer.look_apply,Lexer.ite_apply,hlead' _ hsame',hpeek,hopen,
                  if_false,hkey,if_true,assignment,hk' _ hsame,hequals,hv',ht]
                rfl
      · split at h
        · cases h
        · cases h

theorem line_ne_nil {s r : Bytes} {l : Line} (h : line s = some (l,r)) (hr : r ≠ []) (r' : Bytes) :
    l.text ++ r' ≠ [] := by
  rcases line_again h with rfl | ⟨hlast,-⟩
  · exact absurd rfl hr
  · intro he
    rw [(List.append_eq_nil_iff.mp he).1] at hlast
    cases hlast

theorem lines_revised {fuel : ℕ} {s : Bytes} {as bs : List Line} {lead equals_ t : Bytes} {k : Key} {v : Value}
    (h : lines fuel s = some (as ++ .assign lead k equals_ v t :: bs)) :
    (∃ r', tail (t ++ bs.flatMap Line.text) = some (t,r')) ∧
      ∀ w v', w ≠ [] → v'.text = w → (∀ c, w.head? = some c → isBlank c = false) →
        value readerFuel (w ++ (t ++ bs.flatMap Line.text)) = some (v',t ++ bs.flatMap Line.text) →
        lines fuel (as.flatMap Line.text ++ (lead ++ (k.text ++ (equals_ ++ (w ++ (t ++ bs.flatMap Line.text)))))) =
          some (as ++ .assign lead k equals_ v' t :: bs) := by
  induction as generalizing fuel s with
  | nil =>
    cases fuel with
    | zero => cases s <;> cases h
    | succ fuel =>
      cases s with
      | nil => cases h
      | cons c s =>
        rw [lines] at h
        · split at h
          · cases h
          · next l r hl =>
            obtain ⟨ls,hls,he⟩ := Option.map_eq_some_iff.mp h
            obtain ⟨rfl,rfl⟩ := List.cons.inj he
            obtain ⟨rfl,-⟩ := text_lines hls
            obtain ⟨htail,hline⟩ := line_revised hl
            refine ⟨⟨_,htail⟩,fun w v' hne _ hw hv' => ?_⟩
            have hnew := hline w v' hne hw hv'
            rw [List.flatMap_nil,List.nil_append,lines,hnew]
            · simp only [hls,Option.map_some,List.nil_append]
            · intro he
              simp [hne] at he
        · simp
  | cons a as ih =>
    cases fuel with
    | zero => cases s <;> cases h
    | succ fuel =>
      cases s with
      | nil => cases h
      | cons c s =>
        rw [lines] at h
        · split at h
          · cases h
          · next l r hl =>
            obtain ⟨ls,hls,he⟩ := Option.map_eq_some_iff.mp h
            obtain ⟨rfl,rfl⟩ := List.cons.inj he
            obtain ⟨htail,hrest⟩ := ih hls
            have hr : r ≠ [] := by
              rintro rfl
              simp [lines] at hls
            refine ⟨htail,fun w v' hne hw' hw hv' => ?_⟩
            obtain rfl | ⟨-,hagain⟩ := line_again hl
            · exact absurd rfl hr
            · rw [List.flatMap_cons,List.append_assoc,lines,hagain]
              · simp only [hrest w v' hne hw' hw hv',Option.map_some,List.cons_append]
              · exact line_ne_nil hl hr _
        · simp

theorem tail_head {s t r : Bytes} (h : tail s = some (t,r)) : ∀ c, s.head? = some c → isBareScalar c = false := by
  intro c hc
  cases s with
  | nil => cases hc
  | cons d s =>
    cases hc
    cases hb : isBareScalar c with
    | false => rfl
    | true =>
      have hne : ∀ d, isBareScalar d = false → c ≠ d := by
        rintro d hd rfl
        rw [hb] at hd
        cases hd
      have hblank : isBlank c = false := (isBareScalar_ne hb).2.2
      have hstep : tailStep .blank (some c) = .fail := by
        simp only [tailStep,hblank,Bool.false_eq_true,if_false,if_neg (hne 0x23 rfl),if_neg (hne lineFeed rfl),
          if_neg (hne carriageReturn rfl)]
      change tailStep.read .blank (c :: s) = some (t,r) at h
      rw [Transducer.read,hstep] at h
      cases h

/-- A bare token in front of the end of an expression. -/
theorem value_bare {w s : Bytes} {x : Scalar} (hne : w ≠ []) (hw : ∀ c ∈ w, isBareScalar c = true)
    (hd : date w = none) (hx : bareValue w = some x) (hs : ∀ c, s.head? = some c → isBareScalar c = false) :
    value readerFuel (w ++ s) = some (.scalar w x,s) := by
  have hbare : bare (w ++ s) = some (x,s) := by
    simp only [bare,Lexer.bind_apply,Lexer.run_stop hw hs,Lexer.look_apply,Lexer.ite_apply]
    rw [if_neg (by simp [hd]),hx]
    rfl
  obtain ⟨c,w',rfl⟩ := List.exists_cons_of_ne_nil hne
  obtain ⟨hc,ha,-⟩ := isBareScalar_ne (hw c (by simp))
  have hq : isQuote c = false := by
    cases hq : isQuote c with
    | false => rfl
    | true =>
      have hcw := hw c (by simp)
      simp only [isQuote,Bool.or_eq_true,beq_iff_eq] at hq
      rcases hq with rfl | rfl <;> cases hcw
  have hscalar : scalar (c :: w' ++ s) = some (x,s) := by
    simp only [scalar,Lexer.bind_apply,Lexer.look_apply,List.cons_append,peek_cons hc,List.head?_cons,Lexer.ite_apply,hq]
    exact hbare
  rw [List.cons_append,value_scalar hc ha,← List.cons_append,Lexer.withText_of_some hscalar]
  rfl

end Syntax

namespace Entries
variable {β γ : Type}

theorem replace_of_none {k : Bytes} {es : List (Bytes × β)} (h : es.lookup k = none) (b : β) :
    replace k b es = es := by
  induction es with
  | nil => rfl
  | cons e es ih =>
    obtain ⟨k',b'⟩ := e
    rw [List.lookup_cons] at h
    split at h
    · cases h
    · next hk =>
      have hk' : ¬ k' = k := by
        rintro rfl
        simp at hk
      have ih := ih h
      simp only [replace,beq_iff_eq] at ih
      simp only [replace,List.map_cons,beq_iff_eq,hk',if_false,ih]

theorem replace_insert {k : Bytes} {es : List (Bytes × β)} (h : es.lookup k = none) (b b₀ : β) :
    replace k b (insert k b₀ es) = insert k b es := by
  induction es with
  | nil => simp [insert,replace]
  | cons e es ih =>
    obtain ⟨k',b'⟩ := e
    have hall := replace_of_none h b
    rw [List.lookup_cons] at h
    split at h
    · cases h
    · next hk =>
      have hk' : ¬ k' = k := by
        rintro rfl
        simp at hk
      rw [insert,insert]
      split
      · have hcons : replace k b ((k,b₀) :: (k',b') :: es) = (k,b) :: replace k b ((k',b') :: es) := by
          simp [replace]
        rw [hcons,hall]
      · have hcons : replace k b ((k',b') :: insert k b₀ es) = (k',b') :: replace k b (insert k b₀ es) := by
          simp [replace,hk']
        rw [hcons,ih h]

theorem map_replace (f : β → γ) (k : Bytes) (b : β) (es : List (Bytes × β)) :
    (replace k b es).map (fun e => (e.1,f e.2)) = replace k (f b) (es.map (fun e => (e.1,f e.2))) := by
  simp only [replace,List.map_map]
  congr 1
  funext e
  simp only [Function.comp_apply]
  split <;> rfl

end Entries

/-- A text that does not begin with a mark has none when something stands in place of a part
of it, unless it is the mark's own octets. -/
theorem noMark {pre u post w : Bytes} {c : UInt8} (h : byteOrderMark.isPrefixOf (pre ++ (u ++ post)) = false)
    (hc : c ∉ byteOrderMark) : byteOrderMark.isPrefixOf (pre ++ (c :: w ++ post)) = false := by
  cases hp : byteOrderMark.isPrefixOf (pre ++ (c :: w ++ post)) with
  | false => rfl
  | true =>
    have hprefix : byteOrderMark <+: pre ++ (c :: w ++ post) := List.isPrefixOf_iff_prefix.mp hp
    by_cases hlength : byteOrderMark.length ≤ pre.length
    · have hpre : byteOrderMark <+: pre := List.prefix_of_prefix_length_le hprefix (List.prefix_append _ _) hlength
      rw [List.isPrefixOf_iff_prefix.mpr (hpre.trans (List.prefix_append _ _))] at h
      cases h
    · have hlong : pre ++ [c] <+: byteOrderMark := by
        refine @List.prefix_of_prefix_length_le _ _ _ (pre ++ (c :: w ++ post)) ?_ hprefix ?_
        · exact ⟨w ++ post,by simp⟩
        · rw [List.length_append,List.length_singleton]
          omega
      exact absurd (hlong.subset (by simp)) hc

namespace Build

/-- A scalar of the document's tree stands so among the entries it was made from. -/
theorem lookup_scalar {k : Bytes} {src : Region} {u : Scalar} {es : List (Bytes × Build)}
    (h : (nodeEntries es).get k = some (.scalar src u)) : es.lookup k = some (.value (.scalar src u)) := by
  rw [Entries.get,lookup_nodeEntries] at h
  obtain ⟨b,hb,hn⟩ := Option.map_eq_some_iff.mp h
  cases b with
  | value n => rw [hb]; exact congrArg (fun n => some (Build.value n)) hn
  | _ => cases hn

theorem eraseEntries_unplacedMembers (es : List (Bytes × Build)) :
    Node.eraseEntries (nodeEntries (unplacedMembers es)) = Node.eraseEntries (nodeEntries es) := by
  rw [nodeEntries_unplaced,Node.eraseEntries_unplacedEntries]

end Build

/-- The values of two readings that differ at a key. -/
theorem Revised.erased {k : Bytes} {x : Scalar} {r r' : Reading} (h : Revised k (.scalar Node.nowhere x) r r') :
    Node.eraseEntries (Build.nodeEntries r'.entries) =
      Entries.replace k (.scalar () x) (Node.eraseEntries (Build.nodeEntries r.entries)) := by
  rw [← Build.eraseEntries_unplacedMembers,h.entries,← Build.eraseEntries_unplacedMembers r.entries,
    Build.nodeEntries_eq_map,Entries.map_replace,← Build.nodeEntries_eq_map,Node.eraseEntries_eq_map,
    Entries.map_replace,← Node.eraseEntries_eq_map]
  rfl

namespace AssignedAt
variable {k : Bytes} {src : Region} {u x : Scalar} {r r₁ r₂ : Reading} {as : List Line}
  {lead equals tail w : Bytes} {key : Key} {v : Value}

theorem put (hat : AssignedAt k (.scalar src u) r r₁ as lead key equals v) (source : Region) (m : Node Region) :
    Build.put source m key.path r₁.entries = some (Entries.insert k (.value m) r₁.entries) := by
  rw [hat.path]
  simp only [Build.put,hat.absent]

/-- From the revised line on the readings differ at its key. -/
theorem revised (hat : AssignedAt k (.scalar src u) r r₁ as lead key equals v)
    (h₂ : r₁.line (.assign lead key equals v tail) = some r₂) :
    ∃ r₂', r₁.line (.assign lead key equals (.scalar w x) tail) = some r₂' ∧
      Revised k (.scalar Node.nowhere x) r₂ r₂' := by
  simp only [Reading.line,hat.top,Build.inside,hat.value,hat.put,Option.bind_some,Option.map_some,
    Option.some.injEq] at h₂
  subst h₂
  refine ⟨⟨r₁.position.advance (Line.assign lead key equals (.scalar w x) tail).text,[],
    Entries.insert k (.value (.scalar ⟨r₁.position.advance (lead ++ (key.text ++ equals)),
      (r₁.position.advance (lead ++ (key.text ++ equals))).advance w⟩ x)) r₁.entries⟩,
    by simp only [Reading.line,hat.top,Build.inside,Value.node,hat.put,Option.bind_some,Option.map_some],
    rfl,⟨_,Entries.lookup_insert_self k _ hat.absent⟩,?_⟩
  have hnone : (Build.unplacedMembers r₁.entries).lookup k = none := by
    rw [Build.lookup_unplacedMembers,hat.absent]
    rfl
  rw [← Build.insert_unplacedMembers,← Build.insert_unplacedMembers,Entries.replace_insert hnone]
  rfl

/-- The lines behind it are read as before. -/
theorem revised_lines {bs : List Line} {r' : Reading} (hat : AssignedAt k (.scalar src u) r r₁ as lead key equals v)
    (h : r.lines (as ++ .assign lead key equals v tail :: bs) = some r') (w : Bytes) (x : Scalar) :
    ∃ r₃, r.lines (as ++ .assign lead key equals (.scalar w x) tail :: bs) = some r₃ ∧
      Revised k (.scalar Node.nowhere x) r' r₃ := by
  rw [Reading.lines_append,hat.before] at h
  obtain ⟨r₂,h₂,hbs⟩ : ∃ r₂, r₁.line (.assign lead key equals v tail) = some r₂ ∧ r₂.lines bs = some r' :=
    Option.bind_eq_some_iff.mp h
  obtain ⟨r₂',h₂',hrevised⟩ := hat.revised h₂
  obtain ⟨r₃,h₃,hrevised⟩ := hrevised.lines hbs
  refine ⟨r₃,?_,hrevised⟩
  rw [Reading.lines_append,hat.before,Option.bind_some,Reading.lines_cons_of_some h₂',h₃]

end AssignedAt

/-- A text without a mark and the lines behind its tree. -/
theorem lines_of_parse {s : Bytes} {t : Entries Region} (h : parse s = some t)
    (hbom : byteOrderMark.isPrefixOf s = false) :
    Utf8.valid s = true ∧ ∃ ls r, Syntax.lines readerFuel s = some ls ∧ Reading.start.lines ls = some r ∧
      t = Build.nodeEntries r.entries := by
  unfold parse at h
  split at h
  · next hs =>
    obtain ⟨r,hr,rfl⟩ := Option.map_eq_some_iff.mp h
    obtain ⟨ls,hls,hl⟩ := Option.bind_eq_some_iff.mp hr
    rw [content,if_neg (by simp [hbom])] at hls
    exact ⟨hs,ls,r,hls,hl,rfl⟩
  · cases h

theorem parse_of_lines {s : Bytes} (hs : Utf8.valid s = true) (hbom : byteOrderMark.isPrefixOf s = false)
    {ls : List Line} {r : Reading} (hls : Syntax.lines readerFuel s = some ls) (hr : Reading.start.lines ls = some r) :
    parse s = some (Build.nodeEntries r.entries) := by
  rw [parse,if_pos hs,content,if_neg (by simp [hbom]),hls,Option.bind_some,hr]
  rfl

/-- Well-formed octets in place of others that begin and end with an ASCII one. -/
theorem Syntax.valid_revised {pre t w post : Bytes} (h : Utf8.valid (pre ++ (t ++ post)) = true)
    (ht : Syntax.Edged t) (hw : Utf8.valid w = true) : Utf8.valid (pre ++ (w ++ post)) = true := by
  obtain ⟨hpre,hv⟩ := Syntax.valid_around h ht
  rw [Utf8.valid_append hpre,Utf8.valid_append hv] at h
  rw [Utf8.valid_append hpre,Utf8.valid_append hw]
  exact h

/-- The scalar at a key of the document with the line that assigns it, and the document with
another bare token there: its tree has the other value at that key. -/
theorem parse_revised {s : Bytes} {t : Entries Region} (h : parse s = some t)
    (hbom : byteOrderMark.isPrefixOf s = false) {k : Bytes} {src : Region} {u : Scalar}
    (hk : t.get k = some (.scalar src u)) :
    ∃ as lead key equals v tail bs, Syntax.lines readerFuel s = some (as ++ .assign lead key equals v tail :: bs) ∧
      v.node (Position.start.advance (as.flatMap Line.text ++ (lead ++ (key.text ++ equals)))) = some (.scalar src u) ∧
      ∀ c w x, (∀ d ∈ c :: w, Lexical.isBareScalar d = true) → Lexical.date (c :: w) = none →
        Lexical.bareValue (c :: w) = some x → c ∉ byteOrderMark → Utf8.valid (c :: w) = true →
        ∃ t', parse ((as.flatMap Line.text ++ (lead ++ (key.text ++ equals))) ++
            (c :: w ++ (tail ++ bs.flatMap Line.text))) = some t' ∧
          Node.eraseEntries t' = Entries.replace k (.scalar () x) (Node.eraseEntries t) := by
  obtain ⟨hs,ls,r,hls,hl,rfl⟩ := lines_of_parse h hbom
  rcases assignedAt_lines hl (Build.lookup_scalar hk) with h₀ | ⟨as,lead,key,equals,v,tail,bs,r₁,rfl,hat⟩
  · cases h₀
  have hposition : r₁.position = Position.start.advance (as.flatMap Line.text) :=
    Reading.position_lines hat.before
  have hnode := hat.value
  rw [hposition,← Position.advance_append] at hnode
  refine ⟨as,lead,key,equals,v,tail,bs,hls,hnode,fun c w x hw hdate hx hc hvalid => ?_⟩
  obtain ⟨⟨r',htail⟩,hagain⟩ := Syntax.lines_revised hls
  obtain ⟨htext,hsound⟩ := Syntax.text_lines hls
  obtain ⟨-,hedged,-⟩ : v.Sound := hsound (.assign lead key equals v tail) (by simp)
  have hsplit : s = (as.flatMap Line.text ++ (lead ++ (key.text ++ equals))) ++
      (v.text ++ (tail ++ bs.flatMap Line.text)) := by
    rw [htext]
    simp [Line.text]
  have hlines := hagain (c :: w) (.scalar (c :: w) x) (by simp) rfl
    (by intro d hd; cases hd; exact (Syntax.isBareScalar_ne (hw c (by simp))).2.2)
    (Syntax.value_bare (by simp) hw hdate hx (Syntax.tail_head htail))
  rw [hsplit] at hs hbom
  obtain ⟨r₃,hnew,hrevised⟩ := hat.revised_lines hl (c :: w) x
  refine ⟨Build.nodeEntries r₃.entries,?_,hrevised.erased⟩
  refine parse_of_lines (Syntax.valid_revised hs hedged hvalid) (noMark hbom hc) ?_ hnew
  simp only [List.append_assoc] at hlines ⊢
  exact hlines

end Toml
