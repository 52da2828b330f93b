import HolonightConfig.Toml.Syntax
import HolonightConfig.Text.Utf8

/-! The meaning of a document: headers open tables, assignments put values into the
table the last header opened, and the result is the tree of the document. -/
namespace Toml
open Text

/-- What a table owes its existence to; only the last two may still be extended by a
header or a dotted key. -/
inductive Origin
  | header | implicit | dotted
  deriving DecidableEq

/-- A tree under construction. The elements of an array of tables stand newest first. -/
inductive Build where
  | value (node : Node Region)
  | table (origin : Origin) (source : Region) (entries : List (Bytes × Build))
  | tables (source : Region) (elements : List Build)

namespace Build

mutual
def node : Build → Node Region
  | .value n => n
  | .table _ s es => .table s false (nodeEntries es)
  | .tables s els => .array s (nodeItems els).reverse
def nodeEntries : List (Bytes × Build) → Entries Region
  | [] => []
  | (k,b) :: es => (k,b.node) :: nodeEntries es
def nodeItems : List Build → List (Node Region)
  | [] => []
  | b :: bs => b.node :: nodeItems bs
end

theorem nodeEntries_eq_map (es : List (Bytes × Build)) :
    nodeEntries es = es.map (fun e => (e.1,e.2.node)) := by
  induction es with
  | nil => rfl
  | cons e es ih => simp [nodeEntries,ih]

theorem lookup_nodeEntries (es : List (Bytes × Build)) (k : Bytes) :
    (nodeEntries es).lookup k = (es.lookup k).map node := by
  induction es with
  | nil => rfl
  | cons e es ih =>
    obtain ⟨k',b⟩ := e
    simp only [nodeEntries,List.lookup_cons]
    split <;> simp [ih]

/-- Put a value at a dotted key. The tables on the way are new, or were made by a
header below them or by another dotted key. -/
def put (source : Region) (n : Node Region) :
    List Bytes → List (Bytes × Build) → Option (List (Bytes × Build))
  | [],_ => none
  | [k],es =>
    match es.lookup k with
    | none => some (Entries.insert k (.value n) es)
    | some _ => none
  | k :: k' :: ks,es =>
    match es.lookup k with
    | none => (put source n (k' :: ks) []).map
        (fun sub => Entries.insert k (.table .dotted source sub) es)
    | some (.table .implicit s sub) => (put source n (k' :: ks) sub).map
        (fun sub' => Entries.replace k (.table .dotted s sub') es)
    | some (.table .dotted s sub) => (put source n (k' :: ks) sub).map
        (fun sub' => Entries.replace k (.table .dotted s sub') es)
    | some _ => none

/-- Act on the entries of the table a header path names; an array of tables stands for
its newest element. -/
def inside (act : List (Bytes × Build) → Option (List (Bytes × Build))) :
    List Bytes → List (Bytes × Build) → Option (List (Bytes × Build))
  | [],es => act es
  | k :: ks,es =>
    match es.lookup k with
    | some (.table o s sub) => (inside act ks sub).map
        (fun sub' => Entries.replace k (.table o s sub') es)
    | some (.tables s (.table o s' sub :: older)) => (inside act ks sub).map
        (fun sub' => Entries.replace k (.tables s (.table o s' sub' :: older)) es)
    | _ => none

/-- Open the table a header names, or a new element of the array it names. -/
def openHeader (isArray : Bool) (source : Region) :
    List Bytes → List (Bytes × Build) → Option (List (Bytes × Build))
  | [],_ => none
  | [k],es =>
    match isArray,es.lookup k with
    | false,none => some (Entries.insert k (.table .header source []) es)
    | false,some (.table .implicit _ sub) => some (Entries.replace k (.table .header source sub) es)
    | true,none => some (Entries.insert k (.tables source [.table .header source []]) es)
    | true,some (.tables s els) =>
      some (Entries.replace k (.tables ⟨s.begin,source.stop⟩ (.table .header source [] :: els)) es)
    | _,_ => none
  | k :: k' :: ks,es =>
    match es.lookup k with
    | none => (openHeader isArray source (k' :: ks) []).map
        (fun sub => Entries.insert k (.table .implicit source sub) es)
    | some (.table o s sub) => (openHeader isArray source (k' :: ks) sub).map
        (fun sub' => Entries.replace k (.table o s sub') es)
    | some (.tables s (.table o s' sub :: older)) => (openHeader isArray source (k' :: ks) sub).map
        (fun sub' => Entries.replace k (.tables s (.table o s' sub' :: older)) es)
    | some _ => none

end Build

namespace Value

mutual
/-- The node a value stands for when it starts at a position. -/
def node (p : Position) : Value → Option (Node Region)
  | .scalar t v => some (.scalar ⟨p,p.advance t⟩ v)
  | .array items close => (itemNodes (p.step 0x5B) items).map
      (.array ⟨p,p.advance (Value.array items close).text⟩)
  | .inlineTable members close => (memberEntries (p.step 0x7B) members []).map
      (fun es => .table ⟨p,p.advance (Value.inlineTable members close).text⟩ true
        (Build.nodeEntries es))
def itemNodes (p : Position) : List (Item Value) → Option (List (Node Region))
  | [] => some []
  | ⟨lead,v,trail⟩ :: items =>
    (v.node (p.advance lead)).bind (fun n =>
      (itemNodes (p.advance (lead ++ (v.text ++ trail))) items).map (n :: ·))
def memberEntries (p : Position) :
    List (Member Value) → List (Bytes × Build) → Option (List (Bytes × Build))
  | [],es => some es
  | ⟨lead,key,equals,v,trail⟩ :: members,es =>
    (v.node (p.advance (lead ++ (key.text ++ equals)))).bind (fun n =>
      (Build.put ⟨p.advance lead,p.advance (lead ++ key.text)⟩ n key.path es).bind (fun es' =>
        memberEntries (p.advance (lead ++ (key.text ++ (equals ++ (v.text ++ trail))))) members es'))
end

end Value

/-- A document being read: the next position, the table the last header opened, and the
entries so far. -/
structure Reading where
  position : Position
  section_ : List Bytes
  entries : List (Bytes × Build)

namespace Reading

def start : Reading := ⟨.start,[],[]⟩

/-- The region of a header line's brackets and key. -/
def headerRegion (p : Position) (isArray : Bool) (lead open_ : Bytes) (key : Key) : Region :=
  ⟨p.advance lead,p.advance (lead ++ (Line.bracket isArray 0x5B ++ (open_ ++ (key.text ++
    Line.bracket isArray 0x5D))))⟩

def line (r : Reading) : Line → Option Reading
  | .blank t => some { r with position := r.position.advance t }
  | .header a lead open_ key tail =>
    (Build.openHeader a (headerRegion r.position a lead open_ key) key.path r.entries).map
      (fun es => ⟨r.position.advance (Line.header a lead open_ key tail).text,key.path,es⟩)
  | .assign lead key equals v tail =>
    (v.node (r.position.advance (lead ++ (key.text ++ equals)))).bind (fun n =>
      (Build.inside (Build.put ⟨r.position.advance lead,r.position.advance (lead ++ key.text)⟩ n
          key.path) r.section_ r.entries).map
        (fun es => ⟨r.position.advance (Line.assign lead key equals v tail).text,r.section_,es⟩))

def lines : Reading → List Line → Option Reading
  | r,[] => some r
  | r,l :: ls => (r.line l).bind (lines · ls)

theorem lines_cons_of_some {r r' : Reading} {l : Line} (h : r.line l = some r') (ls : List Line) :
    r.lines (l :: ls) = r'.lines ls := by
  rw [lines,h]
  rfl

theorem lines_append (r : Reading) (ls ms : List Line) :
    r.lines (ls ++ ms) = (r.lines ls).bind (lines · ms) := by
  induction ls generalizing r with
  | nil => rfl
  | cons l ls ih =>
    simp only [List.cons_append,lines]
    cases r.line l with
    | none => rfl
    | some r' => simpa using ih r'

end Reading

/-- The octets a text may start with to say that it is UTF-8. -/
def byteOrderMark : Bytes := [0xEF,0xBB,0xBF]

/-- The text behind its byte order mark, if it has one. -/
def content (s : Bytes) : Bytes := if byteOrderMark.isPrefixOf s then s.drop 3 else s

/-- The tree of a document, `none` where it is not TOML. Positions count from behind a
byte order mark. -/
def parse (s : Bytes) : Option (Entries Region) :=
  if Utf8.valid s then
    ((Syntax.lines readerFuel (content s)).bind Reading.start.lines).map
      (fun r => Build.nodeEntries r.entries)
  else none

namespace Node

/-- A region every header and dotted table is given where its own does not matter. -/
def nowhere : Region := ⟨.start,.start⟩

mutual
/-- Forget where the tables of headers and dotted keys stand; the grammar does not make
them one stretch of text. -/
def withoutTableRegions : Node Region → Node Region
  | .scalar s v => .scalar s v
  | .array s ns => .array s (withoutItems ns)
  | .table s i es => .table (if i then s else nowhere) i (withoutEntries es)
def withoutItems : List (Node Region) → List (Node Region)
  | [] => []
  | n :: ns => n.withoutTableRegions :: withoutItems ns
def withoutEntries : Entries Region → Entries Region
  | [] => []
  | (k,n) :: es => (k,n.withoutTableRegions) :: withoutEntries es
end

mutual
@[simp] theorem erase_withoutTableRegions :
    ∀ n : Node Region, n.withoutTableRegions.erase = n.erase
  | .scalar _ _ => rfl
  | .array _ ns => by simp [withoutTableRegions,erase,eraseItems_withoutItems ns]
  | .table _ _ es => by simp [withoutTableRegions,erase,eraseEntries_withoutEntries es]
@[simp] theorem eraseItems_withoutItems :
    ∀ ns : List (Node Region), eraseItems (withoutItems ns) = eraseItems ns
  | [] => rfl
  | n :: ns => by
    simp [withoutItems,eraseItems,erase_withoutTableRegions n,eraseItems_withoutItems ns]
@[simp] theorem eraseEntries_withoutEntries :
    ∀ es : Entries Region, eraseEntries (withoutEntries es) = eraseEntries es
  | [] => rfl
  | (k,n) :: es => by
    simp [withoutEntries,eraseEntries,erase_withoutTableRegions n,eraseEntries_withoutEntries es]
end

end Node
end Toml
