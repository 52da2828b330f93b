import HolonightConfig.Toml.Library
import HolonightConfig.Toml.Sections

/-! No table of a document holds a key twice. -/
namespace Toml
open Text

def DistinctKeys {β : Type} (es : List (Bytes × β)) : Prop := (es.map Prod.fst).Nodup

namespace DistinctKeys
variable {β : Type} {es : List (Bytes × β)}

theorem lookup_of_mem (h : DistinctKeys es) {k : Bytes} {b : β} (hm : (k,b) ∈ es) :
    es.lookup k = some b := by
  induction es with
  | nil => cases hm
  | cons e es ih =>
    obtain ⟨k',b'⟩ := e
    simp only [DistinctKeys,List.map_cons,List.nodup_cons] at h
    rcases List.mem_cons.mp hm with he | hm
    · cases he; simp
    · have hk : (k == k') = false := by
        simp only [beq_eq_false_iff_ne,ne_eq]
        intro hk
        exact h.1 (List.mem_map.mpr ⟨(k,b),hm,hk⟩)
      simp only [List.lookup_cons,hk]
      exact ih h.2 hm

theorem insert (h : DistinctKeys es) {k : Bytes} (hk : es.lookup k = none) (b : β) :
    DistinctKeys (Entries.insert k b es) := by
  induction es with
  | nil => simp [DistinctKeys,Entries.insert]
  | cons e es ih =>
    obtain ⟨k',b'⟩ := e
    simp only [DistinctKeys,List.map_cons,List.nodup_cons] at h
    have hne : ∀ e ∈ (k',b') :: es, e.1 ≠ k := by
      intro e he heq
      simpa [heq] using List.lookup_eq_none_iff.mp hk e he
    unfold Entries.insert
    split
    · simp only [DistinctKeys,List.map_cons,List.nodup_cons,List.mem_cons,not_or]
      refine ⟨⟨fun hk' => hne (k',b') (by simp) hk'.symm,fun hm => ?_⟩,h⟩
      obtain ⟨e,he,hek⟩ := List.mem_map.mp hm
      exact hne e (by simp [he]) hek
    · have hk' : es.lookup k = none := by
        rw [List.lookup_eq_none_iff] at hk ⊢
        exact fun e he => hk e (by simp [he])
      simp only [DistinctKeys,List.map_cons,List.nodup_cons]
      refine ⟨fun hm => ?_,ih h.2 hk'⟩
      obtain ⟨e,he,hek⟩ := List.mem_map.mp hm
      rcases Build.mem_insert he with heq | he
      · exact hne (k',b') (by simp) (hek.symm.trans heq)
      · exact h.1 (List.mem_map.mpr ⟨e,he,hek⟩)

theorem replace (h : DistinctKeys es) (k : Bytes) (b : β) : DistinctKeys (Entries.replace k b es) := by
  have hm : (Entries.replace k b es).map Prod.fst = es.map Prod.fst := by
    simp only [Entries.replace,List.map_map]
    apply List.map_congr_left
    intro e _
    simp only [Function.comp]
    split <;> rfl
  unfold DistinctKeys
  rwa [hm]

end DistinctKeys

theorem mem_replace {β : Type} {k : Bytes} {b : β} {m : Bytes × β} {es : List (Bytes × β)}
    (h : m ∈ Entries.replace k b es) : m.2 = b ∨ m ∈ es := by
  obtain ⟨n,hn,rfl⟩ := List.mem_map.mp h
  split
  · exact .inl rfl
  · exact .inr hn

theorem mem_insert {β : Type} {k : Bytes} {b : β} {m : Bytes × β} {es : List (Bytes × β)}
    (h : m ∈ Entries.insert k b es) : m.2 = b ∨ m ∈ es := by
  induction es with
  | nil =>
    simp only [Entries.insert,List.mem_singleton] at h
    exact .inl (by rw [h])
  | cons e es ih =>
    unfold Entries.insert at h
    split at h
    · rcases List.mem_cons.mp h with rfl | h
      · exact .inl rfl
      · exact .inr h
    · rcases List.mem_cons.mp h with rfl | h
      · exact .inr (by simp)
      · rcases ih h with h | h
        · exact .inl h
        · exact .inr (by simp [h])

theorem mem_of_lookup {β : Type} {k : Bytes} {b : β} {es : List (Bytes × β)}
    (h : es.lookup k = some b) : (k,b) ∈ es := by
  induction es with
  | nil => simp at h
  | cons e es ih =>
    obtain ⟨k',b'⟩ := e
    rw [List.lookup_cons] at h
    split at h
    · next hk =>
      obtain rfl : k = k' := by simpa using hk
      cases h
      simp
    · simp [ih h]

/-- A table's members stand in the order of their keys. -/
def SortedKeys {β : Type} (es : List (Bytes × β)) : Prop :=
  es.Pairwise (fun e f => lexLt e.1 f.1 = true)

instance {β : Type} (es : List (Bytes × β)) : Decidable (SortedKeys es) :=
  inferInstanceAs (Decidable (es.Pairwise _))

namespace SortedKeys
variable {β : Type} {es fs : List (Bytes × β)}

theorem insert (h : SortedKeys es) {k : Bytes} (hk : es.lookup k = none) (b : β) :
    SortedKeys (Entries.insert k b es) := by
  induction es with
  | nil => simp [SortedKeys,Entries.insert]
  | cons e es ih =>
    obtain ⟨k',b'⟩ := e
    obtain ⟨hhead,htail⟩ := List.pairwise_cons.mp h
    have hne : k' ≠ k := by
      intro heq
      simp [heq] at hk
    unfold Entries.insert
    split
    · next hlt =>
      refine List.pairwise_cons.mpr ⟨fun e he => ?_,h⟩
      rcases List.mem_cons.mp he with rfl | he
      · exact hlt
      · exact lexLt_trans hlt (hhead e he)
    · next hlt =>
      have hk' : es.lookup k = none := by
        rw [List.lookup_eq_none_iff] at hk ⊢
        exact fun e he => hk e (by simp [he])
      refine List.pairwise_cons.mpr ⟨fun e he => ?_,ih htail hk'⟩
      rcases Build.mem_insert he with heq | he
      · by_contra hlt'
        exact hne (lexLt_connected (by simpa [heq] using hlt') (by simpa using hlt))
      · exact hhead e he

theorem replace (h : SortedKeys es) (k : Bytes) (b : β) : SortedKeys (Entries.replace k b es) := by
  refine List.Pairwise.map _ (fun e f hef => ?_) h
  split <;> split <;> exact hef

theorem insertOrAssign (h : SortedKeys es) (k : Bytes) (b : β) :
    SortedKeys (Entries.insertOrAssign k b es) := by
  unfold Entries.insertOrAssign
  split
  · exact h.replace k b
  · next hk => exact h.insert hk b

theorem lookup_head {k k' : Bytes} {b : β} (h : SortedKeys ((k,b) :: es)) (hk : lexLt k' k = true) :
    ((k,b) :: es).lookup k' = none := by
  rw [List.lookup_eq_none_iff]
  intro e he
  simp only [bne_iff_ne,ne_eq]
  rintro rfl
  have hlt : lexLt k e.1 = true ∨ k = e.1 := by
    rcases List.mem_cons.mp he with rfl | he
    · exact .inr rfl
    · exact .inl ((List.pairwise_cons.mp h).1 e he)
  rcases hlt with hlt | rfl
  · simpa [lexLt_irrefl] using lexLt_trans hk hlt
  · simp [lexLt_irrefl] at hk

/-- Sorted members are determined by what they map keys to. -/
theorem ext (h : SortedKeys es) (h' : SortedKeys fs) (hl : ∀ k, es.lookup k = fs.lookup k) :
    es = fs := by
  induction es generalizing fs with
  | nil =>
    cases fs with
    | nil => rfl
    | cons f fs =>
      obtain ⟨k',b'⟩ := f
      simpa using hl k'
  | cons e es ih =>
    obtain ⟨k,b⟩ := e
    cases fs with
    | nil => simpa using hl k
    | cons f fs =>
      obtain ⟨k',b'⟩ := f
      have hk : k = k' := by
        apply lexLt_connected
        · by_contra hlt
          have := hl k
          rw [h'.lookup_head (by simpa using hlt)] at this
          simp at this
        · by_contra hlt
          have := hl k'
          rw [h.lookup_head (by simpa using hlt)] at this
          simp at this
      subst hk
      have hb : b = b' := by simpa using hl k
      obtain ⟨hhead,htail⟩ := List.pairwise_cons.mp h
      obtain ⟨hhead',htail'⟩ := List.pairwise_cons.mp h'
      have habsent : ∀ {gs : List (Bytes × β)}, (∀ e ∈ gs, lexLt k e.1 = true) → gs.lookup k = none := by
        intro gs hgs
        rw [List.lookup_eq_none_iff]
        intro e he
        simp only [bne_iff_ne,ne_eq]
        rintro rfl
        simpa [lexLt_irrefl] using hgs e he
      have htl : ∀ j, es.lookup j = fs.lookup j := by
        intro j
        by_cases hj : j = k
        · rw [hj,habsent hhead,habsent hhead']
        · have hjk : (j == k) = false := by simpa using hj
          simpa only [List.lookup_cons,hjk] using hl j
      rw [hb,ih htail htail' htl]

end SortedKeys

namespace Node
variable {σ : Type}

/-- Keys are distinct in this node and below it. -/
inductive Distinct : Node σ → Prop where
  | scalar (s : σ) (v : Scalar) : Distinct (.scalar s v)
  | array (s : σ) {ns : List (Node σ)} (items : ∀ n ∈ ns, Distinct n) : Distinct (.array s ns)
  | table (s : σ) (i : Bool) {es : Entries σ} (keys : DistinctKeys es)
      (members : ∀ e ∈ es, Distinct e.2) : Distinct (.table s i es)

def DistinctEntries (es : Entries σ) : Prop := DistinctKeys es ∧ ∀ e ∈ es, e.2.Distinct

theorem DistinctEntries.get {es : Entries σ} (h : DistinctEntries es) {k : Bytes} {n : Node σ}
    (hn : es.get k = some n) : n.Distinct := h.2 _ (mem_of_lookup hn)

theorem Distinct.asTable {n : Node σ} (h : n.Distinct) {es : Entries σ} (he : n.asTable = some es) :
    DistinctEntries es := by
  cases h with
  | table s i keys members => cases he; exact ⟨keys,members⟩
  | _ => cases he

theorem distinctKeys_erase (es : Entries σ) : DistinctKeys (eraseEntries es) ↔ DistinctKeys es := by
  simp only [DistinctKeys,eraseEntries_eq_map,List.map_map]
  rfl

theorem sortedKeys_erase (es : Entries σ) : SortedKeys (eraseEntries es) ↔ SortedKeys es := by
  unfold SortedKeys
  rw [eraseEntries_eq_map,List.pairwise_map]

mutual
theorem Distinct.of_erase : ∀ n : Node σ, n.erase.Distinct → n.Distinct
  | .scalar s v,_ => .scalar s v
  | .array s ns,h => .array s (items_of_erase ns (by cases h with | array _ items => exact items))
  | .table s i es,h => by
    cases h with
    | table _ _ keys members =>
      exact .table s i ((distinctKeys_erase es).mp keys) (entries_of_erase es members)
theorem items_of_erase : ∀ ns : List (Node σ), (∀ n ∈ eraseItems ns, n.Distinct) → ∀ n ∈ ns, n.Distinct
  | [],_ => by simp
  | n :: ns,h => by
    simp only [eraseItems,List.forall_mem_cons] at h ⊢
    exact ⟨Distinct.of_erase n h.1,items_of_erase ns h.2⟩
theorem entries_of_erase :
    ∀ es : Entries σ, (∀ e ∈ eraseEntries es, e.2.Distinct) → ∀ e ∈ es, e.2.Distinct
  | [],_ => by simp
  | (k,n) :: es,h => by
    simp only [eraseEntries,List.forall_mem_cons] at h ⊢
    exact ⟨Distinct.of_erase n h.1,entries_of_erase es h.2⟩
end

mutual
theorem Distinct.erase : ∀ n : Node σ, n.Distinct → n.erase.Distinct
  | .scalar _ v,_ => .scalar () v
  | .array _ ns,h => .array () (items_erase ns (by cases h with | array _ items => exact items))
  | .table _ i es,h => by
    cases h with
    | table _ _ keys members =>
      exact .table () i ((distinctKeys_erase es).mpr keys) (entries_erase es members)
theorem items_erase : ∀ ns : List (Node σ), (∀ n ∈ ns, n.Distinct) → ∀ n ∈ eraseItems ns, n.Distinct
  | [],_ => by simp [eraseItems]
  | n :: ns,h => by
    simp only [eraseItems,List.forall_mem_cons] at h ⊢
    exact ⟨Distinct.erase n h.1,items_erase ns h.2⟩
theorem entries_erase :
    ∀ es : Entries σ, (∀ e ∈ es, e.2.Distinct) → ∀ e ∈ eraseEntries es, e.2.Distinct
  | [],_ => by simp [eraseEntries]
  | (k,n) :: es,h => by
    simp only [eraseEntries,List.forall_mem_cons] at h ⊢
    exact ⟨Distinct.erase n h.1,entries_erase es h.2⟩
end

theorem distinctEntries_erase (es : Entries σ) : DistinctEntries (eraseEntries es) ↔ DistinctEntries es :=
  ⟨fun h => ⟨(distinctKeys_erase es).mp h.1,entries_of_erase es h.2⟩,
    fun h => ⟨(distinctKeys_erase es).mpr h.1,entries_erase es h.2⟩⟩

end Node

namespace Build

/-- The same of a tree under construction. -/
inductive Distinct : Build → Prop where
  | value {n : Node Region} (h : n.Distinct) : Distinct (.value n)
  | table (o : Origin) (s : Region) {es : List (Bytes × Build)} (keys : DistinctKeys es)
      (members : ∀ e ∈ es, Distinct e.2) : Distinct (.table o s es)
  | tables (s : Region) {els : List Build} (elements : ∀ b ∈ els, Distinct b) : Distinct (.tables s els)

def DistinctEntries (es : List (Bytes × Build)) : Prop := DistinctKeys es ∧ ∀ e ∈ es, e.2.Distinct

theorem Distinct.entries {o : Origin} {s : Region} {es : List (Bytes × Build)}
    (h : Distinct (.table o s es)) : DistinctEntries es := by
  cases h with
  | table _ _ keys members => exact ⟨keys,members⟩

namespace DistinctEntries
variable {es es' sub : List (Bytes × Build)}

theorem nil : DistinctEntries [] := ⟨List.nodup_nil,by simp⟩

theorem get (h : DistinctEntries es) {k : Bytes} {b : Build} (hb : es.lookup k = some b) : b.Distinct :=
  h.2 _ (mem_of_lookup hb)

theorem toTable (h : DistinctEntries es) (o : Origin) (s : Region) : Distinct (.table o s es) :=
  .table o s h.1 h.2

theorem insert (h : DistinctEntries es) {k : Bytes} (hk : es.lookup k = none) {b : Build}
    (hb : b.Distinct) : DistinctEntries (Entries.insert k b es) :=
  ⟨h.1.insert hk b,fun e he => (Toml.mem_insert he).elim (fun h' => h' ▸ hb) (h.2 e)⟩

theorem replace (h : DistinctEntries es) (k : Bytes) {b : Build} (hb : b.Distinct) :
    DistinctEntries (Entries.replace k b es) :=
  ⟨h.1.replace k b,fun e he => (mem_replace he).elim (fun h' => h' ▸ hb) (h.2 e)⟩

/-- One more element, or another newest one, of an array of tables. -/
theorem newest {s : Region} {els : List Build} {b : Build} (h : Distinct (.tables s els))
    (hb : b.Distinct) (s' : Region) : Distinct (.tables s' (b :: els)) := by
  cases h with
  | tables _ elements => exact .tables s' (List.forall_mem_cons.mpr ⟨hb,elements⟩)

theorem head {s : Region} {els : List Build} {b : Build} (h : Distinct (.tables s (b :: els))) :
    b.Distinct := by
  cases h with
  | tables _ elements => exact elements b (by simp)

theorem tail {s : Region} {els : List Build} {b : Build} (h : Distinct (.tables s (b :: els))) :
    Distinct (.tables s els) := by
  cases h with
  | tables _ elements => exact .tables s (fun c hc => elements c (by simp [hc]))

theorem put {source : Region} {n : Node Region} (hn : n.Distinct) {ks : List Bytes}
    (h : DistinctEntries es) (hp : Build.put source n ks es = some es') : DistinctEntries es' := by
  induction ks generalizing es es' with
  | nil => cases hp
  | cons k ks ih =>
    cases ks with
    | nil =>
      simp only [Build.put] at hp
      split at hp
      · next hk => cases hp; exact h.insert hk (.value hn)
      · cases hp
    | cons k' ks =>
      simp only [Build.put] at hp
      split at hp
      · next hk =>
        obtain ⟨sub,hs,rfl⟩ := Option.map_eq_some_iff.mp hp
        exact h.insert hk ((ih nil hs).toTable _ _)
      · next hk =>
        obtain ⟨sub,hs,rfl⟩ := Option.map_eq_some_iff.mp hp
        exact h.replace k ((ih (h.get hk).entries hs).toTable _ _)
      · next hk =>
        obtain ⟨sub,hs,rfl⟩ := Option.map_eq_some_iff.mp hp
        exact h.replace k ((ih (h.get hk).entries hs).toTable _ _)
      · cases hp

theorem inside {act : List (Bytes × Build) → Option (List (Bytes × Build))}
    (hact : ∀ {es es'}, DistinctEntries es → act es = some es' → DistinctEntries es') {ks : List Bytes}
    (h : DistinctEntries es) (hi : Build.inside act ks es = some es') : DistinctEntries es' := by
  induction ks generalizing es es' with
  | nil => exact hact h hi
  | cons k ks ih =>
    simp only [Build.inside] at hi
    split at hi
    · next hk =>
      obtain ⟨sub,hs,rfl⟩ := Option.map_eq_some_iff.mp hi
      exact h.replace k ((ih (h.get hk).entries hs).toTable _ _)
    · next hk =>
      obtain ⟨sub,hs,rfl⟩ := Option.map_eq_some_iff.mp hi
      have hd := h.get hk
      exact h.replace k (newest (tail hd) ((ih (head hd).entries hs).toTable _ _) _)
    · cases hi

theorem openHeader {isArray : Bool} {source : Region} {ks : List Bytes} (h : DistinctEntries es)
    (ho : Build.openHeader isArray source ks es = some es') : DistinctEntries es' := by
  induction ks generalizing es es' with
  | nil => cases ho
  | cons k ks ih =>
    cases ks with
    | nil =>
      simp only [Build.openHeader] at ho
      split at ho
      · next hk => cases ho; exact h.insert hk (nil.toTable _ _)
      · next hk => cases ho; exact h.replace k ((h.get hk).entries.toTable _ _)
      · next hk =>
        cases ho
        exact h.insert hk (.tables _ (by simpa using nil.toTable _ _))
      · next hk => cases ho; exact h.replace k (newest (h.get hk) (nil.toTable _ _) _)
      · cases ho
    | cons k' ks =>
      simp only [Build.openHeader] at ho
      split at ho
      · next hk =>
        obtain ⟨sub,hs,rfl⟩ := Option.map_eq_some_iff.mp ho
        exact h.insert hk ((ih nil hs).toTable _ _)
      · next hk =>
        obtain ⟨sub,hs,rfl⟩ := Option.map_eq_some_iff.mp ho
        exact h.replace k ((ih (h.get hk).entries hs).toTable _ _)
      · next hk =>
        obtain ⟨sub,hs,rfl⟩ := Option.map_eq_some_iff.mp ho
        have hd := h.get hk
        exact h.replace k (newest (tail hd) ((ih (head hd).entries hs).toTable _ _) _)
      · cases ho

end DistinctEntries

mutual
theorem Distinct.node : ∀ b : Build, b.Distinct → b.node.Distinct
  | .value _,h => by cases h with | value h => exact h
  | .table o s es,h => .table s false (by
      rw [nodeEntries_eq_map]
      simpa [DistinctKeys,Function.comp_def] using h.entries.1) (members_node es h.entries.2)
  | .tables s els,h => .array s (by
      cases h with
      | tables _ elements => simpa using items_node els elements)
theorem items_node : ∀ els : List Build, (∀ b ∈ els, b.Distinct) → ∀ n ∈ nodeItems els, n.Distinct
  | [],_ => by simp [nodeItems]
  | b :: els,h => by
    simp only [nodeItems,List.forall_mem_cons] at h ⊢
    exact ⟨Distinct.node b h.1,items_node els h.2⟩
theorem members_node : ∀ es : List (Bytes × Build), (∀ e ∈ es, e.2.Distinct) →
    ∀ e ∈ nodeEntries es, e.2.Distinct
  | [],_ => by simp [nodeEntries]
  | (k,b) :: es,h => by
    simp only [nodeEntries,List.forall_mem_cons] at h ⊢
    exact ⟨Distinct.node b h.1,members_node es h.2⟩
end

theorem DistinctEntries.node {es : List (Bytes × Build)} (h : DistinctEntries es) :
    Node.DistinctEntries (nodeEntries es) :=
  (Distinct.node _ (h.toTable .header Node.nowhere)).asTable rfl

end Build

namespace Value
open Build

mutual
theorem distinct_node (p : Position) : ∀ (v : Value) (n : Node Region), v.node p = some n → n.Distinct
  | .scalar t v,n,h => by simp only [node,Option.some.injEq] at h; subst h; exact .scalar _ v
  | .array items close,n,h => by
    obtain ⟨ns,hs,rfl⟩ := Option.map_eq_some_iff.mp h
    exact .array _ (distinct_itemNodes _ items ns hs)
  | .inlineTable members close,n,h => by
    obtain ⟨es,hs,rfl⟩ := Option.map_eq_some_iff.mp h
    have hd := (distinct_memberEntries _ members [] es .nil hs).node
    exact .table _ true hd.1 hd.2
theorem distinct_itemNodes (p : Position) : ∀ (items : List (Item Value)) (ns : List (Node Region)),
    itemNodes p items = some ns → ∀ n ∈ ns, n.Distinct
  | [],ns,h => by cases h; simp
  | ⟨lead,v,trail⟩ :: items,ns,h => by
    simp only [itemNodes,Option.bind_eq_some_iff,Option.map_eq_some_iff] at h
    obtain ⟨n,hn,ns',hs,rfl⟩ := h
    exact List.forall_mem_cons.mpr ⟨distinct_node _ v n hn,distinct_itemNodes _ items ns' hs⟩
theorem distinct_memberEntries (p : Position) : ∀ (members : List (Member Value))
    (es es' : List (Bytes × Build)), DistinctEntries es → memberEntries p members es = some es' →
    DistinctEntries es'
  | [],es,es',hd,h => by cases h; exact hd
  | ⟨lead,key,equals,v,trail⟩ :: members,es,es',hd,h => by
    simp only [memberEntries,Option.bind_eq_some_iff] at h
    obtain ⟨n,hn,es₁,hp,h⟩ := h
    exact distinct_memberEntries _ members es₁ es' (hd.put (distinct_node _ v n hn) hp) h
end

end Value

namespace Reading
open Build

theorem distinct_line {r r' : Reading} {l : Line} (hd : DistinctEntries r.entries)
    (h : r.line l = some r') : DistinctEntries r'.entries := by
  cases l with
  | blank t => cases h; exact hd
  | header a lead open_ key tail =>
    obtain ⟨es,ho,rfl⟩ := Option.map_eq_some_iff.mp h
    exact hd.openHeader ho
  | assign lead key equals v tail =>
    simp only [line,Option.bind_eq_some_iff,Option.map_eq_some_iff] at h
    obtain ⟨n,hn,es,hi,rfl⟩ := h
    exact hd.inside (fun hs hp => hs.put (v.distinct_node _ n hn) hp) hi

theorem distinct_lines {r r' : Reading} {ls : List Line} (hd : DistinctEntries r.entries)
    (h : r.lines ls = some r') : DistinctEntries r'.entries := by
  induction ls generalizing r with
  | nil => cases h; exact hd
  | cons l ls ih =>
    obtain ⟨r₁,h₁,h⟩ := Option.bind_eq_some_iff.mp h
    exact ih (distinct_line hd h₁) h

end Reading

/-- Every tree of a document has distinct keys throughout. -/
theorem distinct_parse {s : Bytes} {t : Entries Region} (h : parse s = some t) : Node.DistinctEntries t := by
  unfold parse at h
  split at h
  · obtain ⟨r,hr,rfl⟩ := Option.map_eq_some_iff.mp h
    obtain ⟨ls,-,hl⟩ := Option.bind_eq_some_iff.mp hr
    exact (Reading.distinct_lines .nil hl).node
  · cases h

theorem Library.Conforms.distinct {L : Library} {bound : ℕ} (h : L.Conforms bound) {s : Bytes}
    (hs : s.length ≤ bound) {root : Entries Region} (hp : L.parse s = .ok root) :
    Node.DistinctEntries root := by
  obtain ⟨t,ht,he⟩ := Option.map_eq_some_iff.mp (h.erase hs hp)
  rw [← Node.distinctEntries_erase,← he,Node.distinctEntries_erase]
  exact distinct_parse ht

end Toml
