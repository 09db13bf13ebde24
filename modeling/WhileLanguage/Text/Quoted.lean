/-!
# Quoted text

A text between double quotes, in which a quote, a backslash and the control characters are
written as escapes, so that the quoted text is a single line. Four control characters have
escapes of their own; the others are written by their code point in hexadecimal. The text is
meant to be ASCII: beyond that, only control characters are escaped.
-/

namespace WhileLanguage.Quoted

/-- Whether a character is a control character. -/
def isControl (c : Char) : Bool :=
  c.toNat < 0x20 || (0x7f ≤ c.toNat && c.toNat ≤ 0x9f)

/-- The characters that stand for one character of the text. -/
def escape (c : Char) : List Char :=
  if c = '"' then ['\\', '"']
  else if c = '\\' then ['\\', '\\']
  else if c = '\n' then ['\\', 'n']
  else if c = '\r' then ['\\', 'r']
  else if c = '\t' then ['\\', 't']
  else if c.toNat = 0 then ['\\', '0']
  else if isControl c then "\\u\x7b".toList ++ Nat.toDigits 16 c.toNat ++ "\x7d".toList
  else [c]

/-- A text between quotes, with its characters escaped. -/
def quote (text : String) : String :=
  "\"" ++ String.ofList (text.toList.flatMap escape) ++ "\""

end WhileLanguage.Quoted
