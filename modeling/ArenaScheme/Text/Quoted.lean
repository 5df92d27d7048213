import ArenaScheme.Text.Unprintable

/-! Text between double quotes in which nothing is lost: quotes, backslashes, controls and
characters without a glyph are escaped. -/

namespace ArenaScheme.Text

/-- The code point of `c` in hexadecimal, between braces after a backslash and `u`. -/
def codeEscape (c : Char) : String :=
  "\\u\x7b" ++ String.ofList (Nat.toDigits 16 c.toNat) ++ "\x7d"

def quotedChar (c : Char) : String :=
  match c with
  | '\x00' => "\\0"
  | '\t' => "\\t"
  | '\n' => "\\n"
  | '\r' => "\\r"
  | '"' => "\\\""
  | '\\' => "\\\\"
  | c => if isUnprintable c then codeEscape c else c.toString

def quoted (text : String) : String :=
  "\"" ++ text.foldl (fun out c => out ++ quotedChar c) "" ++ "\""

end ArenaScheme.Text
