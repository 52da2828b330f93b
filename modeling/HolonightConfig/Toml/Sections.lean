import HolonightConfig.Toml.Expression

/-! Documents made of bare assignments under one header after the other: their trees
hold what was assigned, and nothing else. -/
namespace Toml
open Text Syntax

/-- A bare key assigned a scalar that is written in some way. -/
structure Entry where
  key : Bytes
  text : Bytes
  value : Scalar

namespace Entry

def line (e : Entry) : Line := bareLine e.key e.text e.value

end Entry

/-- A blank line, a header and the assignments under it. -/
structure Section where
  name : Bytes
  entries : List Entry

namespace Section

def emptyLine : Line := .blank [lineFeed]
def headerLine (name : Bytes) : Line := .header false [] [] ⟨name,[name]⟩ [lineFeed]

def lines (s : Section) : List Line :=
  emptyLine :: headerLine s.name :: s.entries.map Entry.line

end Section

namespace Build

/-- The members of a table are what some entries assign. -/
def Holds (entries : List Entry) (t : List (Bytes × Build)) : Prop :=
  (∀ e ∈ entries, ∃ source, t.lookup e.key = some (.value (.scalar source e.value))) ∧
  ∀ m ∈ t, m.1 ∈ entries.map Entry.key

theorem mem_insert {β : Type} {k : Bytes} {b : β} {m : Bytes × β} {es : List (Bytes × β)}
    (h : m ∈ Entries.insert k b es) : m.1 = k ∨ m ∈ es := by
  induction es with
  | nil =>
    simp only [Entries.insert,List.mem_singleton] at h
    exact .inl (by rw [h])
  | cons e es ih =>
    unfold Entries.insert at h
    split at h
    · rcases List.mem_cons.mp h with rfl | h
      · exact .inl rfl
      · exact .inr h
    · rcases List.mem_cons.mp h with rfl | h
      · exact .inr (by simp)
      · rcases ih h with h | h
        · exact .inl h
        · exact .inr (by simp [h])

theorem key_replace {β : Type} {k : Bytes} {b : β} {m : Bytes × β} {es : List (Bytes × β)}
    (h : m ∈ Entries.replace k b es) : ∃ n ∈ es, n.1 = m.1 := by
  obtain ⟨n,hn,rfl⟩ := List.mem_map.mp h
  exact ⟨n,hn,by split <;> rfl⟩

theorem put_fresh (source : Region) (n : Node Region) {k : Bytes} {es : List (Bytes × Build)}
    (h : es.lookup k = none) : put source n [k] es = some (Entries.insert k (.value n) es) := by
  simp [put,h]

end Build

namespace Reading
open Build

theorem line_empty (r : Reading) :
    r.line Section.emptyLine = some ⟨r.position.advance [lineFeed],r.section_,r.entries⟩ := rfl

/-- A new header opens an empty table. -/
theorem line_header (r : Reading) {n : Bytes} (h : r.entries.lookup n = none) :
    ∃ p source, r.line (Section.headerLine n) =
      some ⟨p,[n],Entries.insert n (.table .header source []) r.entries⟩ := by
  simp only [line,Section.headerLine,openHeader,h]
  exact ⟨_,_,rfl⟩

/-- An assignment to a new key of the open table. -/
theorem line_entry (r : Reading) {name : Bytes} {source : Region} {sub : List (Bytes × Build)}
    (hs : r.section_ = [name]) (hn : r.entries.lookup name = some (.table .header source sub))
    (e : Entry) (he : sub.lookup e.key = none) :
    ∃ p source', r.line e.line = some ⟨p,[name],
      Entries.replace name (.table .header source
        (Entries.insert e.key (.value (.scalar source' e.value)) sub)) r.entries⟩ := by
  simp only [line,Entry.line,bareLine,Value.node,Option.bind_some,hs,inside,hn,put_fresh _ _ he]
  exact ⟨_,_,rfl⟩

/-- Entries under an open header end up in its table; nothing else changes. -/
theorem lines_entries {name : Bytes} {source : Region} (entries done : List Entry) (r : Reading)
    (sub : List (Bytes × Build)) (hs : r.section_ = [name])
    (hn : r.entries.lookup name = some (.table .header source sub)) (hd : Holds done sub)
    (hk : ((done ++ entries).map Entry.key).Nodup) :
    ∃ r' sub', r.lines (entries.map Entry.line) = some r' ∧
      r'.entries.lookup name = some (.table .header source sub') ∧ Holds (done ++ entries) sub' ∧
      (∀ k, k ≠ name → r'.entries.lookup k = r.entries.lookup k) ∧
      ∀ m ∈ r'.entries, ∃ n ∈ r.entries, n.1 = m.1 := by
  induction entries generalizing done r sub with
  | nil => exact ⟨r,sub,rfl,hn,by simpa using hd,fun _ _ => rfl,fun m hm => ⟨m,hm,rfl⟩⟩
  | cons e entries ih =>
    have hnew : e.key ∉ done.map Entry.key := by
      rw [List.map_append,List.map_cons] at hk
      exact fun hm => (List.nodup_append.mp hk).2.2 _ hm _ (by simp) rfl
    have he : sub.lookup e.key = none := by
      rw [List.lookup_eq_none_iff]
      intro m hm
      have := hd.2 m hm
      simp only [bne_iff_ne,ne_eq]
      intro heq
      exact hnew (heq ▸ this)
    obtain ⟨p,src,hl⟩ := r.line_entry hs hn e he
    obtain ⟨r',sub',hr,hn',hd',hsame,hkeys⟩ := ih (done ++ [e])
      ⟨p,[name],Entries.replace name (.table .header source
        (Entries.insert e.key (.value (.scalar src e.value)) sub)) r.entries⟩ _ rfl
      (Entries.lookup_replace_self name _ hn)
      (by
        constructor
        · intro f hf
          rcases List.mem_append.mp hf with hf | hf
          · obtain ⟨s,hf'⟩ := hd.1 f hf
            refine ⟨s,?_⟩
            rw [Entries.lookup_insert_of_ne _]
            · exact hf'
            · rintro heq
              exact hnew (heq ▸ List.mem_map_of_mem hf)
          · obtain rfl := List.mem_singleton.mp hf
            exact ⟨src,Entries.lookup_insert_self _ _ he⟩
        · intro m hm
          rcases mem_insert hm with hm | hm
          · simp [hm]
          · have := hd.2 m hm
            simp only [List.map_append,List.mem_append]
            exact .inl this)
      (by simpa using hk)
    refine ⟨r',sub',?_,hn',by simpa using hd',?_,?_⟩
    · simp only [List.map_cons,lines,hl,Option.bind_some,hr]
    · intro k hk'
      rw [hsame k hk']
      exact Entries.lookup_replace_of_ne hk' _ _
    · intro m hm
      obtain ⟨n,hn₁,hn₂⟩ := hkeys m hm
      obtain ⟨n',hn₃,hn₄⟩ := key_replace hn₁
      exact ⟨n',hn₃,hn₄.trans hn₂⟩

/-- Sections with names of their own each become a table of what they assign. -/
theorem lines_sections (sections : List Section) (r : Reading)
    (hfresh : ∀ s ∈ sections, r.entries.lookup s.name = none)
    (hn : (sections.map Section.name).Nodup)
    (hk : ∀ s ∈ sections, (s.entries.map Entry.key).Nodup) :
    ∃ r', r.lines (sections.flatMap Section.lines) = some r' ∧
      (∀ s ∈ sections, ∃ source sub, r'.entries.lookup s.name = some (.table .header source sub) ∧
        Holds s.entries sub) ∧
      (∀ k ∉ sections.map Section.name, r'.entries.lookup k = r.entries.lookup k) ∧
      ∀ m ∈ r'.entries, (∃ n ∈ r.entries, n.1 = m.1) ∨ m.1 ∈ sections.map Section.name := by
  induction sections generalizing r with
  | nil => exact ⟨r,rfl,by simp,fun _ _ => rfl,fun m hm => .inl ⟨m,hm,rfl⟩⟩
  | cons s sections ih =>
    obtain ⟨hs,hn⟩ := List.nodup_cons.mp hn
    have hf := hfresh s (by simp)
    obtain ⟨p,src,hh⟩ := Reading.line_header
      ⟨r.position.advance [lineFeed],r.section_,r.entries⟩ (n := s.name) hf
    obtain ⟨r₁,sub,hr₁,hn₁,hd₁,hsame₁,hkeys₁⟩ := @lines_entries s.name _ s.entries []
      ⟨p,[s.name],Entries.insert s.name (.table .header src []) r.entries⟩ [] rfl
      (Entries.lookup_insert_self _ _ hf) ⟨by simp,by simp⟩ (by simpa using hk s (by simp))
    have hother : ∀ k, k ≠ s.name → r₁.entries.lookup k = r.entries.lookup k := by
      intro k hk'
      rw [hsame₁ k hk']
      exact Entries.lookup_insert_of_ne hk' _ _
    obtain ⟨r₂,hr₂,hsec,hsame₂,hkeys₂⟩ := ih r₁
      (by
        intro t ht
        have hne : t.name ≠ s.name := fun he => hs (he ▸ List.mem_map_of_mem ht)
        rw [hother _ hne]
        exact hfresh t (by simp [ht]))
      hn (fun t ht => hk t (by simp [ht]))
    refine ⟨r₂,?_,?_,?_,?_⟩
    · simp only [List.flatMap_cons,Section.lines,List.cons_append,lines,line_empty,Option.bind_some,hh]
      rw [lines_append,hr₁]
      exact hr₂
    · intro t ht
      rcases List.mem_cons.mp ht with rfl | ht
      · refine ⟨src,sub,?_,by simpa using hd₁⟩
        rw [hsame₂ _ hs,hn₁]
      · exact hsec t ht
    · intro k hk'
      simp only [List.map_cons,List.mem_cons,not_or] at hk'
      rw [hsame₂ k hk'.2,hother k hk'.1]
    · intro m hm
      rcases hkeys₂ m hm with ⟨n,hn₃,hn₄⟩ | h
      · obtain ⟨n',hn₅,hn₆⟩ := hkeys₁ n hn₃
        rcases mem_insert hn₅ with h | h
        · right
          simp [← hn₄,← hn₆,h]
        · exact .inl ⟨n',h,hn₆.trans hn₄⟩
      · exact .inr (by simp [h])

end Reading
end Toml
