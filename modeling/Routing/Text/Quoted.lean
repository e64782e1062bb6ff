import Routing.Text
import Routing.Text.Printable

/-!
# Quoted texts

The form in which a text is shown inside a message or inside a list: between quotes, with the characters that
would be misread or not be seen at all written as escapes.

The quote is `'`, or `"` for a text that holds the first and not the second.
-/

namespace Routing.Text

/-- The quote that a text is shown between. -/
def quoteFor (t : Text) : Char :=
  if t.contains '\'' && !t.contains '"' then '"' else '\''

/-- One character as it is written between the quotes `quote`. -/
def escapeIn (quote c : Char) : Text :=
  if c = quote ∨ c = '\\' then ['\\', c]
  else if c = '\n' then ['\\', 'n']
  else if c = '\r' then ['\\', 'r']
  else if c = '\t' then ['\\', 't']
  else if isPrintable c then [c]
  else if c.toNat < 0x100 then '\\' :: 'x' :: hexOf 2 c.toNat
  else if c.toNat < 0x10000 then '\\' :: 'u' :: hexOf 4 c.toNat
  else '\\' :: 'U' :: hexOf 8 c.toNat

/-- The text between its quotes. -/
def quoted (t : Text) : Text :=
  let quote := quoteFor t
  quote :: t.flatMap (escapeIn quote) ++ [quote]

end Routing.Text
