import BoundValues.Text.Numeral
import BoundValues.Text.Printable

namespace BoundValues.Text

def quoteChar (c : Char) : List Char :=
  if c = '"' || c = '\\' then ['\\', c]
  else if c = '\n' then ['\\', 'n']
  else if c = '\r' then ['\\', 'r']
  else if c = '\t' then ['\\', 't']
  else if c.toNat = 0 then ['\\', '0']
  else if isPrintable c then [c]
  else '\\' :: 'u' :: '\x7b' :: hexText c.toNat ++ ['\x7d']

def quote (cs : List Char) : List Char := '"' :: cs.flatMap quoteChar ++ ['"']

end BoundValues.Text
