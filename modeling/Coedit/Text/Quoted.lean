import Coedit.Text.Unprintable

/-!
# Quoted text in messages

Messages show a text in double quotes.  Quotes, backslashes and the common controls get a short escape,
other characters that do not print on their own are shown by their code point.
-/

namespace Coedit.Text

/-- The form of one character inside a quoted text. -/
def shown (c : Char) : List Char :=
  match c with
  | '"' => ['\\', '"']
  | '\\' => ['\\', '\\']
  | '\n' => ['\\', 'n']
  | '\r' => ['\\', 'r']
  | '\t' => ['\\', 't']
  | '\x00' => ['\\', '0']
  | c =>
    if isUnprintable c then '\\' :: 'u' :: '\x7b' :: Nat.toDigits 16 c.toNat ++ ['\x7d'] else [c]

def quoted (s : List Char) : String := String.ofList ('"' :: s.flatMap shown ++ ['"'])

end Coedit.Text
