import Stencil.Text.Hidden

/-!
# Quoted text

Text between double quotes, as it is shown in the message about a pair of tags. Every character that
does not show is written by name or by code point, so the quoted form holds no line break.
-/

namespace Stencil
namespace Text

/-- The code point in hexadecimal, lower case and without padding, between braces. -/
def codePoint (c : Char) : Text :=
  ['\\', 'u', '{'] ++ Nat.toDigits 16 c.toNat ++ ['}']

def quoteChar (c : Char) : Text :=
  if c = '"' then ['\\', '"']
  else if c = '\\' then ['\\', '\\']
  else if c = '\t' then ['\\', 't']
  else if c = '\r' then ['\\', 'r']
  else if c = '\n' then ['\\', 'n']
  else if c = '\x00' then ['\\', '0']
  else if isHidden c then codePoint c
  else [c]

def quote (t : Text) : Text :=
  '"' :: t.flatMap quoteChar ++ ['"']

theorem quoteChar_of_not_isHidden {c : Char} (hq : c ≠ '"') (hb : c ≠ '\\')
    (h : isHidden c = false) : quoteChar c = [c] := by
  have ht : c ≠ '\t' := by rintro rfl; revert h; decide
  have hr : c ≠ '\r' := by rintro rfl; revert h; decide
  have hn : c ≠ '\n' := by rintro rfl; revert h; decide
  have hz : c ≠ '\x00' := by rintro rfl; revert h; decide
  simp [quoteChar, hq, hb, ht, hr, hn, hz, h]

end Text
end Stencil
