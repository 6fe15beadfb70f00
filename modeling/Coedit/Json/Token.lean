import Coedit.Json.Number

/-!
# JSON tokens

A text is first cut into tokens, which fixes the literals; `Coedit.Json.Reader` then builds the tree.
A string whose escapes name half of a surrogate pair is a token without a text.
-/

namespace Coedit.Json

inductive Token where
  | openArr
  | closeArr
  | openObj
  | closeObj
  | comma
  | colon
  /-- `null`, a Boolean or a number. -/
  | leaf (j : Json)
  /-- A string, and its text if it has one. -/
  | text (s : Option String)

def hexDigit? (c : Char) : Option Nat :=
  if c.isDigit then some (c.toNat - '0'.toNat)
  else if 'a' ≤ c ∧ c ≤ 'f' then some (c.toNat - 'a'.toNat + 10)
  else if 'A' ≤ c ∧ c ≤ 'F' then some (c.toNat - 'A'.toNat + 10)
  else none

/-- The character that a one-letter escape stands for. -/
def simpleEscape? : Char → Option Char
  | '"' => some '"'
  | '\\' => some '\\'
  | '/' => some '/'
  | 'b' => some '\x08'
  | 'f' => some '\x0c'
  | 'n' => some '\n'
  | 'r' => some '\r'
  | 't' => some '\t'
  | _ => none

/-- Reads the inside of a string up to its closing quote, as code points and halves of surrogate pairs.
Control characters must be escaped. -/
def codePoints? : List Char → Option (List Nat × List Char)
  | [] => none
  | '"' :: cs => some ([], cs)
  | '\\' :: 'u' :: a :: b :: c :: d :: cs => do
    let unit := (((← hexDigit? a) * 16 + (← hexDigit? b)) * 16 + (← hexDigit? c)) * 16 + (← hexDigit? d)
    let (units, rest) ← codePoints? cs
    return (unit :: units, rest)
  | '\\' :: e :: cs => do
    let c ← simpleEscape? e
    let (units, rest) ← codePoints? cs
    return (c.toNat :: units, rest)
  | c :: cs =>
    if c.toNat < 0x20 ∨ c = '\\' then none
    else do
      let (units, rest) ← codePoints? cs
      return (c.toNat :: units, rest)

/-- Joins surrogate pairs; half a pair denotes no character. -/
def joinSurrogates : List Nat → Option (List Char)
  | [] => some []
  | u :: v :: rest =>
    if 0xd800 ≤ u ∧ u < 0xdc00 then
      if 0xdc00 ≤ v ∧ v < 0xe000 then
        (joinSurrogates rest).map (Char.ofNat (0x10000 + (u - 0xd800) * 0x400 + (v - 0xdc00)) :: ·)
      else none
    else if 0xdc00 ≤ u ∧ u < 0xe000 then none
    else (joinSurrogates (v :: rest)).map (Char.ofNat u :: ·)
  | [u] => if 0xd800 ≤ u ∧ u < 0xe000 then none else some [Char.ofNat u]

def isBlank (c : Char) : Bool := c == ' ' || c == '\n' || c == '\t' || c == '\r'

/-- The token at the front of `cs`, which starts with no blank. -/
def Token.first? : List Char → Option (Token × List Char)
  | '[' :: cs => some (.openArr, cs)
  | ']' :: cs => some (.closeArr, cs)
  | '\x7b' :: cs => some (.openObj, cs)
  | '\x7d' :: cs => some (.closeObj, cs)
  | ',' :: cs => some (.comma, cs)
  | ':' :: cs => some (.colon, cs)
  | 'n' :: 'u' :: 'l' :: 'l' :: cs => some (.leaf .null, cs)
  | 't' :: 'r' :: 'u' :: 'e' :: cs => some (.leaf (.bool true), cs)
  | 'f' :: 'a' :: 'l' :: 's' :: 'e' :: cs => some (.leaf (.bool false), cs)
  | '"' :: cs => (codePoints? cs).map fun (units, rest) => (.text ((joinSurrogates units).map String.ofList), rest)
  | cs => (literal? cs).map fun (l, rest) => (.leaf l.json, rest)

/-- Cuts `cs` into tokens, with at most one step for each character. -/
def Token.scanFrom : Nat → List Char → Option (List Token)
  | _, [] => some []
  | 0, _ :: _ => none
  | steps + 1, c :: cs =>
    if isBlank c then scanFrom steps cs
    else do
      let (t, rest) ← Token.first? (c :: cs)
      return t :: (← scanFrom steps rest)

def Token.scan? (s : String) : Option (List Token) :=
  let cs := s.toList
  Token.scanFrom cs.length cs

end Coedit.Json
