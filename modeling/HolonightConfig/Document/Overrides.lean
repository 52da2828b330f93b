import HolonightConfig.Document
import HolonightConfig.Toml.Distinct

/-! The overrides of a document are what its tree holds at their key paths. -/
namespace HolonightConfig
open Text Toml Posix

namespace Document

/-- The override a node is; tables of headers and dotted keys are none. -/
def overrideOf (L : Library) (s : Bytes) (n : Node Region) : Option DocumentEntry :=
  if n.isTable && !n.isInline then none else some (entryOf L s n)

section
variable (L : Library) (s : Bytes)

mutual
theorem prefix_collectNode (path : KeyPath) :
    ∀ n : Node Region, ∀ e ∈ collectNode L s path n, path <+: e.1
  | .table source isInline es,e,he => by
    simp only [collectNode,List.mem_append] at he
    rcases he with he | he
    · cases isInline <;> simp at he
      simp [he]
    · obtain ⟨k,-,hk⟩ := prefix_collect path es e he
      exact (List.prefix_append path [k]).trans hk
  | .array source items,e,he => by
    simp only [collectNode,List.mem_singleton] at he
    simp [he]
  | .scalar source v,e,he => by
    simp only [collectNode,List.mem_singleton] at he
    simp [he]
theorem prefix_collect (pre : KeyPath) :
    ∀ es : Entries Region, ∀ e ∈ collect L s pre es, ∃ k ∈ es.map Prod.fst, pre ++ [k] <+: e.1
  | [],e,he => by simp [collect] at he
  | (k,n) :: es,e,he => by
    rcases List.mem_append.mp he with he | he
    · exact ⟨k,by simp,prefix_collectNode (pre ++ [k]) n e he⟩
    · obtain ⟨k',hk',hp⟩ := prefix_collect pre es e he
      exact ⟨k',by simp only [List.map_cons,List.mem_cons,hk',or_true],hp⟩
end

/-- Overrides below one key have no path through another. -/
theorem lookup_collectNode_of_ne {k k' : Bytes} (h : k ≠ k') (pre ks : KeyPath) (n : Node Region) :
    (collectNode L s (pre ++ [k']) n).lookup (pre ++ k :: ks) = none := by
  rw [List.lookup_eq_none_iff]
  intro e he
  obtain ⟨t,ht⟩ := prefix_collectNode L s (pre ++ [k']) n e he
  simp only [bne_iff_ne,ne_eq]
  intro heq
  rw [← heq,List.append_assoc,List.append_cancel_left_eq] at ht
  simp only [List.singleton_append,List.cons.injEq] at ht
  exact h ht.1.symm

theorem lookup_collect_of_notMem {k : Bytes} {es : Entries Region} (h : k ∉ es.map Prod.fst)
    (pre ks : KeyPath) : (collect L s pre es).lookup (pre ++ k :: ks) = none := by
  induction es with
  | nil => rfl
  | cons e es ih =>
    obtain ⟨k',n⟩ := e
    simp only [List.map_cons,List.mem_cons,not_or] at h
    rw [collect,List.lookup_append,lookup_collectNode_of_ne L s h.1,ih h.2]
    rfl

theorem lookup_shorter {β : Type} (path : KeyPath) (k : Bytes) (ks : KeyPath) (b : β) :
    [(path,b)].lookup (path ++ k :: ks) = none := by
  have hb : (path ++ k :: ks == path) = false := by simp
  simp [List.lookup_cons,hb]

mutual
theorem lookup_collectNode (path : KeyPath) : ∀ n : Node Region, n.Distinct → ∀ q : KeyPath,
    (collectNode L s path n).lookup (path ++ q) =
      (match q with
        | [] => some n
        | k :: ks => n.asTable.bind (Entries.find · (k :: ks))).bind (overrideOf L s)
  | .table source isInline es,hd,q => by
    have he := hd.asTable rfl
    rw [collectNode,List.lookup_append]
    cases q with
    | nil =>
      have hn : (collect L s path es).lookup path = none := by
        rw [List.lookup_eq_none_iff]
        intro e he
        obtain ⟨k,-,t,ht⟩ := prefix_collect L s path es e he
        simp only [bne_iff_ne,ne_eq]
        intro heq
        have := congrArg List.length (heq.trans ht.symm)
        simp at this
      cases isInline <;> simp [overrideOf,Node.isTable,Node.isInline,hn]
    | cons k ks =>
      have hne : ((if isInline = true then [(path,entryOf L s (.table source isInline es))] else [] :
          List (KeyPath × DocumentEntry))).lookup (path ++ k :: ks) = none := by
        cases isInline
        · rfl
        · exact lookup_shorter path k ks _
      rw [hne,lookup_collect path es he k ks]
      rfl
  | .array source items,_,q => by
    cases q with
    | nil => simp [collectNode,overrideOf,Node.isTable]
    | cons k ks => simp [collectNode,Node.asTable,lookup_shorter]
  | .scalar source v,_,q => by
    cases q with
    | nil => simp [collectNode,overrideOf,Node.isTable]
    | cons k ks => simp [collectNode,Node.asTable,lookup_shorter]
theorem lookup_collect (pre : KeyPath) : ∀ es : Entries Region, Node.DistinctEntries es →
    ∀ (k : Bytes) (ks : KeyPath), (collect L s pre es).lookup (pre ++ k :: ks) =
      (es.find (k :: ks)).bind (overrideOf L s)
  | [],_,k,ks => by cases ks <;> rfl
  | (k',n) :: es,hd,k,ks => by
    obtain ⟨hk,hm⟩ := hd
    simp only [DistinctKeys,List.map_cons,List.nodup_cons] at hk
    rw [collect,List.lookup_append]
    by_cases h : k = k'
    · subst h
      have hn := lookup_collectNode (pre ++ [k]) n (hm (k,n) (by simp)) ks
      rw [List.append_assoc,List.singleton_append] at hn
      rw [hn,lookup_collect_of_notMem L s hk.1,Option.or_none]
      cases ks <;> simp [Entries.find,Entries.get]
    · rw [lookup_collectNode_of_ne L s h,Option.none_or,
        lookup_collect pre es ⟨hk.2,fun e he => hm e (by simp [he])⟩ k ks]
      have hb : (k == k') = false := by simpa using h
      cases ks <;> simp [Entries.find,Entries.get,List.lookup_cons,hb]
end

/-- The override at a key path, read off the tree. -/
theorem entry_parsed {root : Entries Region} (hd : Node.DistinctEntries root) (path : Path)
    {key : KeyPath} (hk : key ≠ []) :
    (DocumentSnapshot.mk path ⟨true,s⟩ (collect L s [] root)).entry key =
      (root.find key).bind (overrideOf L s) := by
  obtain ⟨k,ks,rfl⟩ := List.exists_cons_of_ne_nil hk
  exact lookup_collect L s [] root hd k ks

end

theorem parseDocument_of_ok {L : Library} {s : Bytes} (hs : s.length ≤ kMaximumDocumentBytes)
    {root : Entries Region} (hp : L.parse s = .ok root) (path : Path) :
    parseDocument L s path = .success ⟨path,⟨true,s⟩,collect L s [] root⟩ [] := by
  rw [parseDocument,if_neg (not_lt.mpr hs),hp]

/-- What a document that is read is read from. -/
theorem parseDocument_value {L : Library} {s : Bytes} {path : Path} {snapshot : DocumentSnapshot}
    (h : (parseDocument L s path).value = some snapshot) :
    ∃ root, s.length ≤ kMaximumDocumentBytes ∧ L.parse s = .ok root ∧
      snapshot = ⟨path,⟨true,s⟩,collect L s [] root⟩ := by
  unfold parseDocument at h
  split at h
  · cases h
  · next hs =>
    split at h
    · next root hp => cases h; exact ⟨root,not_lt.mp hs,hp,rfl⟩
    · cases h

/-- A document as it is read, with the tree it was read from. -/
structure Reads (L : Library) (snapshot : DocumentSnapshot) (root : Entries Region) : Prop where
  size : snapshot.revision.bytes.length ≤ kMaximumDocumentBytes
  parse : L.parse snapshot.revision.bytes = .ok root
  exists_ : snapshot.revision.exists_ = true
  overrides : snapshot.overrides = collect L snapshot.revision.bytes [] root

theorem Reads.eq {L : Library} {snapshot : DocumentSnapshot} {root : Entries Region}
    (h : Reads L snapshot root) :
    snapshot = ⟨snapshot.path,⟨true,snapshot.revision.bytes⟩,
      collect L snapshot.revision.bytes [] root⟩ := by
  have he := h.exists_
  have ho := h.overrides
  obtain ⟨path,⟨e,b⟩,o⟩ := snapshot
  dsimp only at he ho ⊢
  subst he ho
  rfl

theorem reads_parseDocument {L : Library} {s : Bytes} {path : Path} {snapshot : DocumentSnapshot}
    (h : (parseDocument L s path).value = some snapshot) : ∃ root, Reads L snapshot root := by
  obtain ⟨root,hs,hp,rfl⟩ := parseDocument_value h
  exact ⟨root,hs,hp,rfl,rfl⟩

theorem Reads.distinct {L : Library} (hC : L.Conforms kMaximumDocumentBytes) {snapshot : DocumentSnapshot}
    {root : Entries Region} (h : Reads L snapshot root) : Node.DistinctEntries root :=
  hC.distinct h.size h.parse

theorem Reads.entry {L : Library} (hC : L.Conforms kMaximumDocumentBytes) {snapshot : DocumentSnapshot}
    {root : Entries Region} (h : Reads L snapshot root) {key : KeyPath} (hk : key ≠ []) :
    snapshot.entry key = (root.find key).bind (overrideOf L snapshot.revision.bytes) := by
  rw [h.eq]
  exact entry_parsed L snapshot.revision.bytes (h.distinct hC) snapshot.path hk

theorem Reads.value {L : Library} (hC : L.Conforms kMaximumDocumentBytes) {snapshot : DocumentSnapshot}
    {root : Entries Region} (h : Reads L snapshot root) {key : KeyPath} (hk : key ≠ []) :
    snapshot.value key = ((root.find key).bind (overrideOf L snapshot.revision.bytes)).map
      DocumentEntry.value := by
  rw [DocumentSnapshot.value,h.entry hC hk]

/-- An empty document has no values. -/
theorem overrides_empty {L : Library} (hC : L.Conforms kMaximumDocumentBytes) {snapshot : DocumentSnapshot}
    {path : Path} (h : (parseDocument L [] path).value = some snapshot) : snapshot.overrides = [] := by
  obtain ⟨root,-,hparse,rfl⟩ := parseDocument_value h
  have hempty := hC.erase (Nat.zero_le _) hparse
  have hnil : (Toml.parse []).map Node.eraseEntries = some [] := by decide +kernel
  rw [hnil,Option.some.injEq] at hempty
  cases root with
  | nil => rfl
  | cons e root => simp [Node.eraseEntries_eq_map] at hempty

end Document
end HolonightConfig
