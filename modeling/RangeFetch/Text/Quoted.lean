import RangeFetch.Text.Marks

/-!
# Quoted text

Text between double quotes, written so that nothing in it can be mistaken for its end: a quote
and a backslash take a backslash in front, line feed, carriage return, tab and NUL have a letter
of their own, and every other character without a mark is written by its code point in braces.

So texts are printed for debugging, those of `Credentials` and of `ConfigError` among them.

Headlines:
* **`escape`** writes one character, `quote` a text; `escape_ne_nil`: no character is lost.
-/

namespace RangeFetch.Text

/-- The lower case hexadecimal digits of `n`, without leading zeros. -/
def hexDigits (n : Nat) : List Char :=
  Nat.toDigits 16 n

/-- A code point in braces. -/
def codePoint (c : Char) : List Char :=
  '\\' :: 'u' :: '{' :: (hexDigits c.toNat ++ ['}'])

/-- One character of a quoted text. -/
def escape (c : Char) : List Char :=
  if c = '"' then ['\\', '"']
  else if c = '\\' then ['\\', '\\']
  else if c = '\n' then ['\\', 'n']
  else if c = '\r' then ['\\', 'r']
  else if c = '\t' then ['\\', 't']
  else if c = '\x00' then ['\\', '0']
  else if hasMark c then [c]
  else codePoint c

/-- The characters of a text between quotes. -/
def escapeAll (cs : List Char) : List Char :=
  cs.flatMap escape

/-- A text with its quotes. -/
def quote (cs : List Char) : List Char :=
  '"' :: (escapeAll cs ++ ['"'])

/-- A text that may be missing: the word `None`, or the quoted text in the brackets of `Some`. -/
def quoteOption : Option (List Char) → List Char
  | none => ['N', 'o', 'n', 'e']
  | some cs => ['S', 'o', 'm', 'e', '('] ++ quote cs ++ [')']

@[simp] theorem escapeAll_nil : escapeAll [] = [] := rfl

@[simp] theorem escapeAll_cons (c : Char) (cs : List Char) :
    escapeAll (c :: cs) = escape c ++ escapeAll cs := rfl

@[simp] theorem escapeAll_append (as bs : List Char) :
    escapeAll (as ++ bs) = escapeAll as ++ escapeAll bs := by
  simp [escapeAll]

theorem escape_ne_nil (c : Char) : escape c ≠ [] := by
  unfold escape codePoint
  repeat' split
  all_goals simp

end RangeFetch.Text
