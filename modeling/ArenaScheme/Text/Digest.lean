/-! A 32-bit digest of a name, by which frames order their bindings: SipHash with one compression
round and three finalisation rounds, under the zero key, cut to its low half. -/

namespace ArenaScheme.Text

structure SipState where
  v0 : UInt64
  v1 : UInt64
  v2 : UInt64
  v3 : UInt64

namespace SipState

private def rotl (x : UInt64) (k : UInt64) : UInt64 := x <<< k ||| x >>> (64 - k)

def round (s : SipState) : SipState :=
  let a := s.v0 + s.v1
  let b := rotl s.v1 13 ^^^ a
  let c := s.v2 + s.v3
  let d := rotl s.v3 16 ^^^ c
  let e := rotl a 32 + d
  let f := c + b
  ⟨e, rotl b 17 ^^^ f, rotl f 32, rotl d 21 ^^^ e⟩

/-- The state under the zero key. -/
def start : SipState :=
  ⟨0x736f6d6570736575, 0x646f72616e646f6d, 0x6c7967656e657261, 0x7465646279746573⟩

/-- Takes in one word. -/
def absorb (s : SipState) (word : UInt64) : SipState :=
  let t := round { s with v3 := s.v3 ^^^ word }
  { t with v0 := t.v0 ^^^ word }

def finish (s : SipState) : UInt64 :=
  let t := round (round (round { s with v2 := s.v2 ^^^ 0xff }))
  t.v0 ^^^ t.v1 ^^^ t.v2 ^^^ t.v3

end SipState

/-- The number that up to eight bytes stand for, the least significant first. -/
def wordOf (bytes : List UInt8) : UInt64 :=
  bytes.foldr (fun b word => word <<< 8 ||| b.toUInt64) 0

/-- Takes in the bytes eight at a time; the last word also holds the low byte of their number. -/
def absorbBytes (length : Nat) : SipState → List UInt8 → SipState
  | s, a :: b :: c :: d :: e :: f :: g :: h :: rest =>
    absorbBytes length (s.absorb (wordOf [a, b, c, d, e, f, g, h])) rest
  | s, rest => s.absorb (wordOf rest ||| UInt64.ofNat length <<< 56)

/-- The digest of a name. A byte that occurs in no text marks its end. -/
def digest (name : List UInt8) : Nat :=
  let bytes := name ++ [0xff]
  (absorbBytes bytes.length .start bytes).finish.toNat % 4294967296

end ArenaScheme.Text
