import DagSelect.Text.Printable

/-! # Quoted text

Text inside a message is put between double quotes with everything escaped that would be invisible
there: quotes and backslashes, the common controls by a letter, and any other character that does
not print by itself as its code point in braces.
-/

namespace DagSelect.Text

def quoteChar (c : Char) : List Char :=
  match c with
  | '"' => ['\\', '"']
  | '\\' => ['\\', '\\']
  | '\n' => ['\\', 'n']
  | '\r' => ['\\', 'r']
  | '\t' => ['\\', 't']
  | '\x00' => ['\\', '0']
  | c =>
    if isExtender c || !isPrintable c then
      '\\' :: 'u' :: '\x7b' :: (Nat.toDigits 16 c.toNat ++ ['\x7d'])
    else [c]

def quoted (s : String) : String :=
  String.ofList ('"' :: (s.toList.flatMap quoteChar ++ ['"']))

end DagSelect.Text
