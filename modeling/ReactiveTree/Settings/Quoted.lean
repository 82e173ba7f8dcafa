import ReactiveTree.Settings.Printable

/-! # Quoted text

A text in a message stands in double quotes. Quotes, backslashes and the common controls are written
with a backslash, other characters that cannot be seen by their number.
-/

namespace ReactiveTree

/-- One character of a quoted text. -/
def quotedChar (char : Char) : List Char :=
  match char with
  | '"' => ['\\', '"']
  | '\\' => ['\\', '\\']
  | '\n' => ['\\', 'n']
  | '\r' => ['\\', 'r']
  | '\t' => ['\\', 't']
  | '\x00' => ['\\', '0']
  | _ =>
    if isPrintable char then [char]
    else ['\\', 'u', '\x7b'] ++ Nat.toDigits 16 char.toNat ++ ['\x7d']

/-- A text in quotes. -/
def quoted (text : String) : String :=
  String.ofList (['"'] ++ text.toList.flatMap quotedChar ++ ['"'])

end ReactiveTree
