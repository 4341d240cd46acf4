import ReadThrough.Text.Glyph

/-! # Quoted Text

  A text between double quotes, in which every character can be told apart on a printed page.

  - The quote and the backslash are preceded by a backslash.
  - Tab, line feed, carriage return and NUL are written `\t`, `\n`, `\r` and `\0`.
  - Other characters without a glyph of their own are written by their number in lower-case
    hexadecimal digits, between braces, after `\u`.
-/

namespace ReadThrough.Text

/-- A number in lower-case hexadecimal digits. -/
def hexadecimal (n : Nat) : String :=
  String.ofList (Nat.toDigits 16 n)

/-- How a character is written between quotes. -/
def quotedChar (c : Char) : String :=
  match c with
  | '\x00' => "\\0"
  | '\t' => "\\t"
  | '\n' => "\\n"
  | '\r' => "\\r"
  | '\\' => "\\\\"
  | '"' => "\\\""
  | c => if isGlyphless c then "\\u\x7b" ++ hexadecimal c.toNat ++ "\x7d" else c.toString

/-- A text between double quotes. -/
def quoted (s : String) : String :=
  "\"" ++ String.join (s.toList.map quotedChar) ++ "\""

end ReadThrough.Text
