/-! UTF-8 in which some bytes may be wrong. A part that begins a character but cannot complete it
reads as one replacement character, and so does every byte that begins none. -/

namespace ArenaScheme.Text

def replacement : Char := '\ufffd'

/-- A character that lacks bytes: how many, the bounds of the next one, and the code so far. -/
structure Unfinished where
  missing : Nat
  low : UInt8
  high : UInt8
  code : Nat
  deriving DecidableEq, Repr

/-- What a byte that begins a character gives: a complete character or an unfinished one. The bounds
leave out the longer forms of smaller codes, surrogates, and codes past the last one. -/
def firstByte (b : UInt8) : List Char × Option Unfinished :=
  if b < 0x80 then ([Char.ofNat b.toNat], none)
  else if b < 0xc2 then ([replacement], none)
  else if b < 0xe0 then
    ([], some { missing := 1, low := 0x80, high := 0xbf, code := b.toNat - 0xc0 })
  else if b < 0xf0 then
    let low := if b = 0xe0 then 0xa0 else 0x80
    let high := if b = 0xed then 0x9f else 0xbf
    ([], some { missing := 2, low, high, code := b.toNat - 0xe0 })
  else if b < 0xf5 then
    let low := if b = 0xf0 then 0x90 else 0x80
    let high := if b = 0xf4 then 0x8f else 0xbf
    ([], some { missing := 3, low, high, code := b.toNat - 0xf0 })
  else ([replacement], none)

/-- Takes in the next byte of an unfinished character, if it can be one. -/
def Unfinished.nextByte (u : Unfinished) (b : UInt8) : Option (List Char × Option Unfinished) :=
  let code := 64 * u.code + b.toNat % 64
  if b < u.low || u.high < b then none
  else if u.missing = 1 then some ([Char.ofNat code], none)
  else some ([], some { missing := u.missing - 1, low := 0x80, high := 0xbf, code })

def decodeFrom : Option Unfinished → List UInt8 → List Char
  | none, [] => []
  | some _, [] => [replacement]
  | none, b :: bytes =>
    let (chars, rest) := firstByte b
    chars ++ decodeFrom rest bytes
  | some u, b :: bytes =>
    match u.nextByte b with
    | some (chars, rest) => chars ++ decodeFrom rest bytes
    | none =>
      let (chars, rest) := firstByte b
      replacement :: (chars ++ decodeFrom rest bytes)

/-- The text that bytes stand for, with replacements where they are wrong. -/
def decode (bytes : List UInt8) : String :=
  match String.fromUTF8? ⟨bytes.toArray⟩ with
  | some text => text
  | none => String.ofList (decodeFrom none bytes)

end ArenaScheme.Text
