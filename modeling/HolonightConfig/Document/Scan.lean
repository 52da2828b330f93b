import HolonightConfig.Text.Bytes
import HolonightConfig.Toml.Node
import Mathlib.Logic.Function.Iterate

/-! The scans that find an edit's place in the bytes of a document. -/
namespace HolonightConfig
open Text

structure SourceSpan where
  begin : ℕ
  stop : ℕ
  deriving DecidableEq

namespace Document

/-- The text behind one code point. -/
def skipCodePoint : Bytes → Bytes
  | [] => []
  | _ :: r => r.dropWhile isContinuation

/-- What is left of a text at a position. -/
def restAt (s : Bytes) (position : Toml.Position) : Bytes :=
  skipCodePoint^[position.column - 1] (skipLine^[position.line - 1] s)

/-- The octet a position denotes; its column counts code points. -/
def offset (s : Bytes) (position : Toml.Position) : ℕ := s.length - (restAt s position).length

/-- `std::string_view::substr` between two offsets. -/
def slice (s : Bytes) (begin stop : ℕ) : Bytes := (s.drop begin).take (stop - begin)

/-- The scan of a line up to a value: whether it holds exactly one equals sign outside
quotes and no other structure; `none` where it gives up. -/
def scanPrefix (quote : Option UInt8) (escape equal : Bool) : Bytes → Option Bool
  | [] => some equal
  | c :: r =>
    match quote with
    | some q =>
      if escape then scanPrefix quote false equal r
      else if q = 0x22 ∧ c = 0x5C then scanPrefix quote true equal r
      else if c = q then scanPrefix none false equal r
      else scanPrefix quote false equal r
    | none =>
      if c = 0x27 ∨ c = 0x22 then scanPrefix (some c) escape equal r
      else if c = 0x3D then if equal then none else scanPrefix none escape true r
      else if c = 0x7B ∨ c = 0x5B ∨ c = 0x2C ∨ c = 0x23 then none
      else scanPrefix none escape equal r

/-- The span of the assignment a value belongs to, where it can be removed safely. -/
def assignment (s : Bytes) (value : SourceSpan) : Option SourceSpan :=
  let line := lineStart (s.take value.begin)
  match scanPrefix none false false (slice s line value.begin) with
  | some true => some ⟨line,value.stop⟩
  | _ => none

inductive Mode
  | plain | quoted (quote : UInt8) (multiline : Bool) | comment
  deriving DecidableEq

def opensThree (quote : UInt8) (s : Bytes) : Bool := s.take 3 == List.replicate 3 quote

/-- The comments of a value's text. `skip` octets are passed over before the next one is
looked at. -/
def retained : ℕ → Mode → Bytes → Bytes
  | _,_,[] => []
  | n + 1,mode,_ :: r => retained n mode r
  | 0,.quoted q multiline,c :: r =>
    if q = 0x22 ∧ c = 0x5C then retained 1 (.quoted q multiline) r
    else if c = q ∧ (!multiline ∨ opensThree q (c :: r)) then
      retained (if multiline then 2 else 0) .plain r
    else retained 0 (.quoted q multiline) r
  | 0,.comment,c :: r =>
    c :: (if c = lineFeed then retained 0 .plain r else retained 0 .comment r)
  | 0,.plain,c :: r =>
    if c = 0x27 ∨ c = 0x22 then
      let multiline := opensThree c (c :: r)
      retained (if multiline then 2 else 0) (.quoted c multiline) r
    else if c = 0x23 then c :: retained 0 .comment r
    else retained 0 .plain r

def retainedComments (value : Bytes) : Bytes := retained 0 .plain value

end Document
end HolonightConfig
