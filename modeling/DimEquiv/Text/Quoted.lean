/-!
# Quoted text

A text between double quotes, in which a quote, a backslash and every control character below
U+0020 are written as escapes: by letter where there is one, else by four hexadecimal digits.
-/

namespace DimEquiv.Quoted

/-- The escape of a control character that has no letter. -/
def hexEscape (n : Nat) : List Char :=
  ['\\', 'u', '0', '0', (n / 16).digitChar, (n % 16).digitChar]

/-- What stands for one character between the quotes. -/
def escape (c : Char) : List Char :=
  match c with
  | '"' => ['\\', '"']
  | '\\' => ['\\', '\\']
  | '\x08' => ['\\', 'b']
  | '\t' => ['\\', 't']
  | '\n' => ['\\', 'n']
  | '\x0c' => ['\\', 'f']
  | '\r' => ['\\', 'r']
  | c => if c.toNat < 32 then hexEscape c.toNat else [c]

def encode (s : String) : String :=
  String.ofList ('"' :: s.toList.flatMap escape ++ ['"'])

/-- No character is dropped. -/
theorem escape_ne_nil (c : Char) : escape c ≠ [] := by
  unfold escape hexEscape
  split <;> simp
  split <;> simp

/-- A quote never stands alone between the quotes. -/
theorem escape_ne_quote (c : Char) : escape c ≠ ['"'] := by
  unfold escape hexEscape
  split <;> simp_all
  split <;> simp_all

end DimEquiv.Quoted
