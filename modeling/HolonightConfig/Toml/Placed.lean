import HolonightConfig.Toml.Assignments
import HolonightConfig.Toml.Distinct
import HolonightConfig.Toml.Locality

/-! Where the values of a tree stand in the text it was read from, and that what a value
is does not depend on where it stands. -/
namespace Toml
open Text

/-! ### Values without places -/

namespace Node

mutual
/-- A node with every region forgotten. -/
def unplaced : Node Region → Node Region
  | .scalar _ v => .scalar nowhere v
  | .array _ ns => .array nowhere (unplacedItems ns)
  | .table _ i es => .table nowhere i (unplacedEntries es)
def unplacedItems : List (Node Region) → List (Node Region)
  | [] => []
  | n :: ns => n.unplaced :: unplacedItems ns
def unplacedEntries : Entries Region → Entries Region
  | [] => []
  | (k,n) :: es => (k,n.unplaced) :: unplacedEntries es
end

mutual
@[simp] theorem erase_unplaced : ∀ n : Node Region, n.unplaced.erase = n.erase
  | .scalar _ _ => rfl
  | .array _ ns => by simp [unplaced,erase,eraseItems_unplacedItems ns]
  | .table _ _ es => by simp [unplaced,erase,eraseEntries_unplacedEntries es]
@[simp] theorem eraseItems_unplacedItems : ∀ ns : List (Node Region),
    eraseItems (unplacedItems ns) = eraseItems ns
  | [] => rfl
  | n :: ns => by simp [unplacedItems,eraseItems,erase_unplaced n,eraseItems_unplacedItems ns]
@[simp] theorem eraseEntries_unplacedEntries : ∀ es : Entries Region,
    eraseEntries (unplacedEntries es) = eraseEntries es
  | [] => rfl
  | (k,n) :: es => by
    simp [unplacedEntries,eraseEntries,erase_unplaced n,eraseEntries_unplacedEntries es]
end

theorem unplacedItems_eq_map (ns : List (Node Region)) : unplacedItems ns = ns.map unplaced := by
  induction ns with
  | nil => rfl
  | cons n ns ih => simp [unplacedItems,ih]

end Node

namespace Build

mutual
def unplaced : Build → Build
  | .value n => .value n.unplaced
  | .table o _ es => .table o Node.nowhere (unplacedMembers es)
  | .tables _ els => .tables Node.nowhere (unplacedElements els)
def unplacedElements : List Build → List Build
  | [] => []
  | b :: els => b.unplaced :: unplacedElements els
def unplacedMembers : List (Bytes × Build) → List (Bytes × Build)
  | [] => []
  | (k,b) :: es => (k,b.unplaced) :: unplacedMembers es
end

theorem lookup_unplacedMembers (es : List (Bytes × Build)) (k : Bytes) :
    (unplacedMembers es).lookup k = (es.lookup k).map unplaced := by
  induction es with
  | nil => rfl
  | cons e es ih =>
    obtain ⟨k',b⟩ := e
    simp only [unplacedMembers,List.lookup_cons]
    split <;> simp [ih]

theorem insert_unplacedMembers (k : Bytes) (b : Build) (es : List (Bytes × Build)) :
    Entries.insert k b.unplaced (unplacedMembers es) = unplacedMembers (Entries.insert k b es) := by
  induction es with
  | nil => rfl
  | cons e es ih =>
    obtain ⟨k',b'⟩ := e
    simp only [unplacedMembers,Entries.insert]
    split
    · rfl
    · simp only [unplacedMembers,ih]

theorem replace_unplacedMembers (k : Bytes) (b : Build) (es : List (Bytes × Build)) :
    Entries.replace k b.unplaced (unplacedMembers es) = unplacedMembers (Entries.replace k b es) := by
  induction es with
  | nil => rfl
  | cons e es ih =>
    obtain ⟨k',b'⟩ := e
    have hcons : ∀ (c : Build) (fs : List (Bytes × Build)), Entries.replace k c ((k',b') :: fs) =
        (if k' == k then (k',c) else (k',b')) :: Entries.replace k c fs := fun _ _ => rfl
    have hcons' : ∀ (c : Build) (fs : List (Bytes × Build)),
        Entries.replace k c ((k',b'.unplaced) :: fs) =
        (if k' == k then (k',c) else (k',b'.unplaced)) :: Entries.replace k c fs := fun _ _ => rfl
    rw [unplacedMembers,hcons,hcons',ih]
    split <;> rfl

/-- Putting a value does not look at regions. -/
theorem put_unplaced (source : Region) (n : Node Region) (ks : List Bytes) (es : List (Bytes × Build)) :
    put Node.nowhere n.unplaced ks (unplacedMembers es) = (put source n ks es).map unplacedMembers := by
  induction ks generalizing es with
  | nil => rfl
  | cons k ks ih =>
    cases ks with
    | nil =>
      simp only [put,lookup_unplacedMembers]
      cases es.lookup k with
      | none => exact congrArg some (insert_unplacedMembers k (.value n) es)
      | some b => rfl
    | cons k' ks =>
      have htable : ∀ (o : Origin) (s : Region) (sub : List (Bytes × Build)),
          (Build.table o s sub).unplaced = .table o Node.nowhere (unplacedMembers sub) := fun _ _ _ => rfl
      have hnil := ih []
      rw [unplacedMembers] at hnil
      simp only [put,lookup_unplacedMembers]
      cases es.lookup k with
      | none =>
        simp only [Option.map_none,hnil,Option.map_map]
        congr 1
        funext sub
        exact insert_unplacedMembers k (.table .dotted source sub) es
      | some b =>
        cases b with
        | table o s sub =>
          cases o with
          | header => rfl
          | implicit =>
            simp only [Option.map_some,htable,ih,Option.map_map]
            congr 1
            funext sub'
            exact replace_unplacedMembers k (.table .dotted s sub') es
          | dotted =>
            simp only [Option.map_some,htable,ih,Option.map_map]
            congr 1
            funext sub'
            exact replace_unplacedMembers k (.table .dotted s sub') es
        | _ => rfl

mutual
theorem node_unplaced : ∀ b : Build, b.unplaced.node = b.node.unplaced
  | .value _ => rfl
  | .table o s es => by simp [unplaced,node,Node.unplaced,nodeEntries_unplaced es]
  | .tables s els => by
    simp [unplaced,node,Node.unplaced,nodeItems_unplaced els,Node.unplacedItems_eq_map]
theorem nodeItems_unplaced : ∀ els : List Build,
    nodeItems (unplacedElements els) = Node.unplacedItems (nodeItems els)
  | [] => rfl
  | b :: els => by simp [unplacedElements,nodeItems,Node.unplacedItems,node_unplaced b,nodeItems_unplaced els]
theorem nodeEntries_unplaced : ∀ es : List (Bytes × Build),
    nodeEntries (unplacedMembers es) = Node.unplacedEntries (nodeEntries es)
  | [] => rfl
  | (k,b) :: es => by
    simp [unplacedMembers,nodeEntries,Node.unplacedEntries,node_unplaced b,nodeEntries_unplaced es]
end

end Build

namespace Value
open Build

/-- Results that agree up to an image are both there, with one image, or both missing. -/
theorem alike_cases {α β : Type} {f : α → β} {a b : Option α} (h : a.map f = b.map f) :
    (a = none ∧ b = none) ∨ ∃ x y, a = some x ∧ b = some y ∧ f x = f y := by
  cases a with
  | none =>
    cases b with
    | none => exact .inl ⟨rfl,rfl⟩
    | some y => cases h
  | some x =>
    cases b with
    | none => cases h
    | some y => exact .inr ⟨x,y,rfl,rfl,Option.some.inj h⟩

mutual
/-- What a value is does not depend on where it stands. -/
theorem node_unplaced (p p' : Position) : ∀ v : Value,
    (v.node p).map Node.unplaced = (v.node p').map Node.unplaced
  | .scalar t v => rfl
  | .array items close => by
    rcases alike_cases (itemNodes_unplaced (p.step 0x5B) (p'.step 0x5B) items) with
      ⟨h,h'⟩ | ⟨ns,ns',h,h',he⟩
    · simp only [node,h,h',Option.map_none]
    · simp only [node,h,h',Option.map_some,Node.unplaced,he]
  | .inlineTable members close => by
    rcases alike_cases (memberEntries_unplaced (p.step 0x7B) (p'.step 0x7B) members [] [] rfl) with
      ⟨h,h'⟩ | ⟨es,es',h,h',he⟩
    · simp only [node,h,h',Option.map_none]
    · simp only [node,h,h',Option.map_some,Node.unplaced,← nodeEntries_unplaced,he]
theorem itemNodes_unplaced (p p' : Position) : ∀ items : List (Item Value),
    (itemNodes p items).map Node.unplacedItems = (itemNodes p' items).map Node.unplacedItems
  | [] => rfl
  | ⟨lead,v,trail⟩ :: items => by
    simp only [itemNodes]
    rcases alike_cases (node_unplaced (p.advance lead) (p'.advance lead) v) with
      ⟨h,h'⟩ | ⟨n,n',h,h',hn⟩
    · simp only [h,h',Option.bind_none]
    · simp only [h,h',Option.bind_some]
      rcases alike_cases (itemNodes_unplaced (p.advance (lead ++ (v.text ++ trail)))
        (p'.advance (lead ++ (v.text ++ trail))) items) with ⟨hi,hi'⟩ | ⟨ns,ns',hi,hi',he⟩
      · simp only [hi,hi',Option.map_none]
      · simp only [hi,hi',Option.map_some,Node.unplacedItems,hn,he]
theorem memberEntries_unplaced (p p' : Position) : ∀ (members : List (Member Value))
    (es es' : List (Bytes × Build)), unplacedMembers es = unplacedMembers es' →
    (memberEntries p members es).map unplacedMembers = (memberEntries p' members es').map unplacedMembers
  | [],es,es',h => congrArg some h
  | ⟨lead,key,equals,v,trail⟩ :: members,es,es',h => by
    simp only [memberEntries]
    rcases alike_cases (node_unplaced (p.advance (lead ++ (key.text ++ equals)))
      (p'.advance (lead ++ (key.text ++ equals))) v) with ⟨hv,hv'⟩ | ⟨n,n',hv,hv',hn⟩
    · simp only [hv,hv',Option.bind_none]
    · simp only [hv,hv',Option.bind_some]
      have hput : (put ⟨p.advance lead,p.advance (lead ++ key.text)⟩ n key.path es).map unplacedMembers =
          (put ⟨p'.advance lead,p'.advance (lead ++ key.text)⟩ n' key.path es').map unplacedMembers := by
        rw [← put_unplaced,← put_unplaced,hn,h]
      rcases alike_cases hput with ⟨hp,hp'⟩ | ⟨fs,fs',hp,hp',hf⟩
      · simp only [hp,hp',Option.bind_none]
      · simp only [hp,hp',Option.bind_some]
        exact memberEntries_unplaced _ _ members fs fs' hf
end

/-- A value that stands somewhere is the same value anywhere. -/
theorem node_elsewhere {p : Position} {v : Value} {n : Node Region} (h : v.node p = some n)
    (p' : Position) : ∃ n', v.node p' = some n' ∧ n'.erase = n.erase := by
  rcases alike_cases (node_unplaced p p' v) with ⟨h',-⟩ | ⟨m,m',hm,hm',he⟩
  · rw [h] at h'; cases h'
  · rw [h] at hm
    cases hm
    exact ⟨m',hm',by rw [← Node.erase_unplaced m',← he,Node.erase_unplaced]⟩

end Value

/-! ### Placed values -/

namespace Syntax

theorem isEdge_ascii : ∀ b : UInt8, isEdge b = true → Utf8.isAscii b = true := by
  apply forall_octet
  decide +kernel

/-- A value cuts a well-formed text into well-formed parts. -/
theorem valid_around {pre t post : Bytes} (h : Utf8.valid (pre ++ (t ++ post)) = true) (ht : Edged t) :
    Utf8.valid pre = true ∧ Utf8.valid t = true := by
  obtain ⟨⟨b,u,hb,hbe⟩,w,d,hd,hde⟩ := ht
  have hpre : Utf8.valid pre = true := by
    rw [hb] at h
    exact Utf8.valid_before_ascii (isEdge_ascii b hbe) h
  refine ⟨hpre,?_⟩
  rw [Utf8.valid_append hpre,hd] at h
  rw [hd]
  refine Utf8.valid_behind_ascii (t := post) (isEdge_ascii d hde) ?_
  simpa using h

end Syntax


/-- A node is a value of the text behind a beginning of it, where its region says. -/
def Stands (base c : Bytes) (n : Node Region) : Prop :=
  ∃ (pre post : Bytes) (v : Value), c = base ++ (pre ++ (v.text ++ post)) ∧ v.Sound ∧
    v.node (Position.start.advance (base ++ pre)) = some n

namespace Node

mutual
/-- All values stand in the text. -/
def Placed (base c : Bytes) : Node Region → Prop
  | .scalar s v => Stands base c (.scalar s v)
  | .array s ns => Stands base c (.array s ns)
  | .table s i es => (i = true → Stands base c (.table s i es)) ∧ PlacedEntries base c es
def PlacedEntries (base c : Bytes) : Entries Region → Prop
  | [] => True
  | (_,n) :: es => Placed base c n ∧ PlacedEntries base c es
end

end Node

namespace Build

/-- Every value has a property, and the region of every array of tables begins where
another one says. -/
inductive Bears (P : Node Region → Prop) (Q : Position → Prop) : Build → Prop where
  | value {n : Node Region} (h : P n) : Bears P Q (.value n)
  | table (o : Origin) (s : Region) {es : List (Bytes × Build)} (members : ∀ e ∈ es, Bears P Q e.2) :
      Bears P Q (.table o s es)
  | tables {s : Region} {els : List Build} (begins : Q s.begin) (nonempty : els ≠ [])
      (elements : ∀ b ∈ els, ∃ o s' es, b = .table o s' es) : Bears P Q (.tables s els)

def BearsEntries (P : Node Region → Prop) (Q : Position → Prop) (es : List (Bytes × Build)) : Prop :=
  ∀ e ∈ es, e.2.Bears P Q

namespace BearsEntries
variable {P : Node Region → Prop} {Q : Position → Prop} {es es' : List (Bytes × Build)}

theorem nil : BearsEntries P Q [] := by simp [BearsEntries]

theorem get (h : BearsEntries P Q es) {k : Bytes} {b : Build} (hb : es.lookup k = some b) : b.Bears P Q :=
  h _ (mem_of_lookup hb)

theorem entries {o : Origin} {s : Region} (h : Build.Bears P Q (.table o s es)) : BearsEntries P Q es := by
  cases h with
  | table _ _ members => exact members

theorem insert (h : BearsEntries P Q es) (k : Bytes) {b : Build} (hb : b.Bears P Q) :
    BearsEntries P Q (Entries.insert k b es) :=
  fun e he => (Toml.mem_insert he).elim (fun h' => h' ▸ hb) (h e)

theorem replace (h : BearsEntries P Q es) (k : Bytes) {b : Build} (hb : b.Bears P Q) :
    BearsEntries P Q (Entries.replace k b es) :=
  fun e he => (mem_replace he).elim (fun h' => h' ▸ hb) (h e)

theorem newest {s : Region} {els : List Build} (hs : Q s.begin) (h : ∀ b ∈ els, ∃ o s' es, b = .table o s' es)
    (o : Origin) (s' : Region) (sub : List (Bytes × Build)) :
    Build.Bears P Q (.tables s (.table o s' sub :: els)) :=
  .tables hs (by simp) (List.forall_mem_cons.mpr ⟨⟨o,s',sub,rfl⟩,h⟩)

theorem elements {s : Region} {els : List Build} (h : Build.Bears P Q (.tables s els)) :
    Q s.begin ∧ ∀ b ∈ els, ∃ o s' es, b = .table o s' es := by
  cases h with
  | tables begins _ elements => exact ⟨begins,elements⟩

theorem put {source : Region} {n : Node Region} (hn : P n) {ks : List Bytes}
    (h : BearsEntries P Q es) (hp : Build.put source n ks es = some es') : BearsEntries P Q es' := by
  induction ks generalizing es es' with
  | nil => cases hp
  | cons k ks ih =>
    cases ks with
    | nil =>
      simp only [Build.put] at hp
      split at hp
      · cases hp; exact h.insert k (.value hn)
      · cases hp
    | cons k' ks =>
      simp only [Build.put] at hp
      split at hp
      · obtain ⟨sub,hs,rfl⟩ := Option.map_eq_some_iff.mp hp
        exact h.insert k (.table _ _ (ih nil hs))
      · next hk =>
        obtain ⟨sub,hs,rfl⟩ := Option.map_eq_some_iff.mp hp
        exact h.replace k (.table _ _ (ih (entries (h.get hk)) hs))
      · next hk =>
        obtain ⟨sub,hs,rfl⟩ := Option.map_eq_some_iff.mp hp
        exact h.replace k (.table _ _ (ih (entries (h.get hk)) hs))
      · cases hp

theorem inside {act : List (Bytes × Build) → Option (List (Bytes × Build))}
    (hact : ∀ {es es'}, BearsEntries P Q es → act es = some es' → BearsEntries P Q es') {ks : List Bytes}
    (h : BearsEntries P Q es) (hi : Build.inside act ks es = some es') : BearsEntries P Q es' := by
  induction ks generalizing es es' with
  | nil => exact hact h hi
  | cons k ks ih =>
    simp only [Build.inside] at hi
    split at hi
    · next hk =>
      obtain ⟨sub,hs,rfl⟩ := Option.map_eq_some_iff.mp hi
      exact h.replace k (.table _ _ (ih (entries (h.get hk)) hs))
    · next hk =>
      obtain ⟨sub,hs,rfl⟩ := Option.map_eq_some_iff.mp hi
      obtain ⟨hq,he⟩ := elements (h.get hk)
      exact h.replace k (newest hq (List.forall_mem_cons.mp he).2 _ _ _)
    · cases hi

theorem openHeader {isArray : Bool} {source : Region} (hs : Q source.begin) {ks : List Bytes}
    (h : BearsEntries P Q es) (ho : Build.openHeader isArray source ks es = some es') :
    BearsEntries P Q es' := by
  induction ks generalizing es es' with
  | nil => cases ho
  | cons k ks ih =>
    cases ks with
    | nil =>
      simp only [Build.openHeader] at ho
      split at ho
      · cases ho; exact h.insert k (.table _ _ nil)
      · next hk => cases ho; exact h.replace k (.table _ _ (entries (h.get hk)))
      · cases ho; exact h.insert k (newest hs (by simp) _ _ _)
      · next hk =>
        cases ho
        obtain ⟨hq,he⟩ := elements (h.get hk)
        exact h.replace k (newest (s := ⟨_,source.stop⟩) hq he _ _ _)
      · cases ho
    | cons k' ks =>
      simp only [Build.openHeader] at ho
      split at ho
      · obtain ⟨sub,hs,rfl⟩ := Option.map_eq_some_iff.mp ho
        exact h.insert k (.table _ _ (ih nil hs))
      · next hk =>
        obtain ⟨sub,hs,rfl⟩ := Option.map_eq_some_iff.mp ho
        exact h.replace k (.table _ _ (ih (entries (h.get hk)) hs))
      · next hk =>
        obtain ⟨sub,hs,rfl⟩ := Option.map_eq_some_iff.mp ho
        obtain ⟨hq,he⟩ := elements (h.get hk)
        exact h.replace k (newest hq (List.forall_mem_cons.mp he).2 _ _ _)
      · cases ho

end BearsEntries

theorem nodeItems_eq_map (els : List Build) : nodeItems els = els.map node := by
  induction els with
  | nil => rfl
  | cons b els ih => simp [nodeItems,ih]

theorem isArrayOfTables_node {s : Region} {els : List Build} (hne : els ≠ [])
    (h : ∀ b ∈ els, ∃ o s' es, b = .table o s' es) : (Build.tables s els).node.isArrayOfTables = true := by
  have hall : ∀ n ∈ (nodeItems els).reverse, (n.isTable && !n.isInline) = true := by
    intro n hn
    rw [List.mem_reverse,nodeItems_eq_map] at hn
    obtain ⟨b,hb,rfl⟩ := List.mem_map.mp hn
    obtain ⟨o,s',es,rfl⟩ := h b hb
    rfl
  have hn : (nodeItems els).reverse ≠ [] := by simpa [nodeItems_eq_map] using hne
  obtain ⟨n,ns,hns⟩ := List.exists_cons_of_ne_nil hn
  rw [hns] at hall
  rw [node,hns]
  exact List.all_eq_true.mpr hall

/-- The members of an inline table; none of them is an array of tables. -/
def PlacedEntries (base c : Bytes) : List (Bytes × Build) → Prop :=
  BearsEntries (Node.Placed base c) (fun _ => False)

mutual
theorem placed_node {base c : Bytes} : ∀ b : Build, b.Bears (Node.Placed base c) (fun _ => False) →
    b.node.Placed base c
  | .value _,h => by cases h with | value h => exact h
  | .table o s es,h => ⟨(fun hi => by cases hi),placed_nodeEntries es (BearsEntries.entries h)⟩
  | .tables s els,h => (BearsEntries.elements h).1.elim
theorem placed_nodeEntries {base c : Bytes} : ∀ es : List (Bytes × Build), PlacedEntries base c es →
    Node.PlacedEntries base c (nodeEntries es)
  | [],_ => trivial
  | (_,b) :: es,h => ⟨placed_node b (List.forall_mem_cons.mp h).1,
      placed_nodeEntries es (List.forall_mem_cons.mp h).2⟩
end

end Build

namespace Value
open Build

mutual
theorem placed_node {base c : Bytes} : ∀ (v : Value) (pre post : Bytes) (n : Node Region), v.Sound →
    c = base ++ (pre ++ (v.text ++ post)) → v.node (Position.start.advance (base ++ pre)) = some n →
    n.Placed base c
  | .scalar t v,pre,post,n,hs,hc,hn => by
    have hst : Stands base c n := ⟨pre,post,.scalar t v,hc,hs,hn⟩
    cases hn
    exact hst
  | .array items close,pre,post,n,hs,hc,hn => by
    have hst : Stands base c n := ⟨pre,post,.array items close,hc,hs,hn⟩
    obtain ⟨ns,-,rfl⟩ := Option.map_eq_some_iff.mp hn
    exact hst
  | .inlineTable members close,pre,post,n,hs,hc,hn => by
    have hst : Stands base c n := ⟨pre,post,.inlineTable members close,hc,hs,hn⟩
    obtain ⟨es,hes,rfl⟩ := Option.map_eq_some_iff.mp hn
    cases hs with
    | intro _ _ below =>
      refine ⟨fun _ => hst,placed_nodeEntries es ?_⟩
      refine placed_memberEntries members (pre ++ [0x7B]) (close ++ (0x7D :: post)) [] es below ?_
        BearsEntries.nil ?_
      · rw [hc]
        simp [text]
      · rw [← List.append_assoc,Position.advance_append]
        exact hes
theorem placed_memberEntries {base c : Bytes} : ∀ (members : List (Member Value)) (pre post : Bytes)
    (es es' : List (Bytes × Build)), (∀ m ∈ members, m.value.Sound) →
    c = base ++ (pre ++ (membersText members ++ post)) → PlacedEntries base c es →
    memberEntries (Position.start.advance (base ++ pre)) members es = some es' → PlacedEntries base c es'
  | [],pre,post,es,es',_,_,he,h => by cases h; exact he
  | ⟨lead,key,equals,v,trail⟩ :: members,pre,post,es,es',hs,hc,he,h => by
    obtain ⟨hv,hs⟩ := List.forall_mem_cons.mp hs
    simp only [memberEntries,Option.bind_eq_some_iff,← Position.advance_append,List.append_assoc] at h
    obtain ⟨n,hn,es₁,hp,h⟩ := h
    have hplaced : n.Placed base c := by
      refine placed_node v (pre ++ (lead ++ (key.text ++ equals)))
        (trail ++ (membersText members ++ post)) n hv ?_ hn
      rw [hc]
      simp [membersText]
    refine placed_memberEntries members (pre ++ (lead ++ (key.text ++ (equals ++ (v.text ++ trail)))))
      post es₁ es' hs ?_ (BearsEntries.put hplaced he hp) h
    rw [hc]
    simp [membersText]
end

theorem inline_node {v : Value} {p : Position} {n : Node Region} (h : v.node p = some n) :
    n.isTable = true → n.isInline = true := by
  cases v with
  | scalar t v => cases h; rintro ⟨⟩
  | array items close =>
    obtain ⟨ns,-,rfl⟩ := Option.map_eq_some_iff.mp h
    rintro ⟨⟩
  | inlineTable members close =>
    obtain ⟨es,-,rfl⟩ := Option.map_eq_some_iff.mp h
    exact fun _ => rfl

/-- The tables of an array that is a value are inline. -/
theorem isArrayOfTables_node {v : Value} {p : Position} {n : Node Region} (h : v.node p = some n) :
    n.isArrayOfTables = false := by
  cases v with
  | scalar t v => cases h; rfl
  | inlineTable members close =>
    obtain ⟨es,-,rfl⟩ := Option.map_eq_some_iff.mp h
    rfl
  | array items close =>
    obtain ⟨ns,hns,rfl⟩ := Option.map_eq_some_iff.mp h
    cases items with
    | nil => cases hns; rfl
    | cons item items =>
      obtain ⟨lead,v,trail⟩ := item
      obtain ⟨n,hn,hns⟩ := Option.bind_eq_some_iff.mp hns
      obtain ⟨ns,-,rfl⟩ := Option.map_eq_some_iff.mp hns
      have hinline := inline_node hn
      cases ht : n.isTable with
      | false => simp [Node.isArrayOfTables,ht]
      | true => simp [Node.isArrayOfTables,ht,hinline ht]

end Value

/-! ### Lines -/

/-- A node is the value that one of the lines assigns, where it stands. -/
def Assigned (ls : List Line) (n : Node Region) : Prop :=
  ∃ as lead key equals v tail bs, ls = as ++ .assign lead key equals v tail :: bs ∧
    v.node (Position.start.advance (as.flatMap Line.text ++ (lead ++ (key.text ++ equals)))) = some n

/-- A position is where the bracket of a header stands. -/
def Headed (ls : List Line) (p : Position) : Prop :=
  ∃ as isArray lead open_ key tail bs, ls = as ++ .header isArray lead open_ key tail :: bs ∧
    p = Position.start.advance (as.flatMap Line.text ++ lead)

namespace Reading
open Build

theorem assigned_line {as bs : List Line} {l : Line} {r r' : Reading}
    (hp : r.position = Position.start.advance (as.flatMap Line.text))
    (he : BearsEntries (Assigned (as ++ l :: bs)) (Headed (as ++ l :: bs)) r.entries)
    (h : r.line l = some r') : r'.position = Position.start.advance ((as ++ [l]).flatMap Line.text) ∧
      BearsEntries (Assigned (as ++ l :: bs)) (Headed (as ++ l :: bs)) r'.entries := by
  cases l with
  | blank t =>
    cases h
    exact ⟨by simp [hp,Line.text],he⟩
  | header a lead open_ key tail =>
    obtain ⟨es,ho,rfl⟩ := Option.map_eq_some_iff.mp h
    refine ⟨by simp [hp],BearsEntries.openHeader ?_ he ho⟩
    exact ⟨as,a,lead,open_,key,tail,bs,rfl,by simp only [headerRegion,hp,Position.advance_append]⟩
  | assign lead key equals v tail =>
    simp only [line,Option.bind_eq_some_iff,Option.map_eq_some_iff,hp,← Position.advance_append] at h
    obtain ⟨n,hn,es,hi,rfl⟩ := h
    have hassigned : Assigned (as ++ .assign lead key equals v tail :: bs) n :=
      ⟨as,lead,key,equals,v,tail,bs,rfl,hn⟩
    exact ⟨by simp,BearsEntries.inside (BearsEntries.put hassigned) he hi⟩

theorem assigned_lines {as ls : List Line} {r r' : Reading}
    (hp : r.position = Position.start.advance (as.flatMap Line.text))
    (he : BearsEntries (Assigned (as ++ ls)) (Headed (as ++ ls)) r.entries)
    (h : r.lines ls = some r') : BearsEntries (Assigned (as ++ ls)) (Headed (as ++ ls)) r'.entries := by
  induction ls generalizing r as with
  | nil => cases h; exact he
  | cons l ls ih =>
    obtain ⟨r₁,h₁,h⟩ := Option.bind_eq_some_iff.mp h
    obtain ⟨hp₁,he₁⟩ := assigned_line hp he h₁
    have hls : as ++ l :: ls = as ++ [l] ++ ls := by simp
    rw [hls] at he₁ ⊢
    exact ih hp₁ he₁ h

end Reading

/-- Every value of a document is assigned by one of its lines, and every array of tables
begins at a header. -/
theorem assigned_parse {s : Bytes} {t : Entries Region} (h : parse s = some t) :
    ∃ ls es, Syntax.lines readerFuel (content s) = some ls ∧ t = Build.nodeEntries es ∧
      Build.BearsEntries (Assigned ls) (Headed ls) es := by
  unfold parse at h
  split at h
  · obtain ⟨r,hr,rfl⟩ := Option.map_eq_some_iff.mp h
    obtain ⟨ls,hls,hl⟩ := Option.bind_eq_some_iff.mp hr
    have he := @Reading.assigned_lines [] ls .start r rfl Build.BearsEntries.nil hl
    exact ⟨ls,r.entries,hls,rfl,he⟩
  · cases h

end Toml
