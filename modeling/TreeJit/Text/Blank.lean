/-!
# Blanks

Blanks are added on the left (`padLeft`) or on the right (`padRight`) until a text has the asked
number of characters; a longer text stays as it is.  What counts as blank at the ends of a text are
the characters of Unicode's white-space property (`trimBlanks`).
-/

namespace TreeJit

def padLeft (n : Nat) (s : String) : String :=
  String.ofList (List.replicate (n - s.length) ' ' ++ s.toList)

def padRight (n : Nat) (s : String) : String :=
  String.ofList (s.toList ++ List.replicate (n - s.length) ' ')

def joinWith (sep : String) (parts : List String) : String := String.intercalate sep parts

/-- a signed number whose sign is always written -/
def signed (i : Int) : String := if i < 0 then toString i else "+" ++ toString i

def isBlank (c : Char) : Bool :=
  let n := c.toNat
  decide (9 ≤ n ∧ n ≤ 13) || n == 0x20 || n == 0x85 || n == 0xA0 || n == 0x1680 ||
    decide (0x2000 ≤ n ∧ n ≤ 0x200A) || n == 0x2028 || n == 0x2029 || n == 0x202F ||
    n == 0x205F || n == 0x3000

def trimBlanks (s : String) : String :=
  String.ofList ((s.toList.dropWhile isBlank).reverse.dropWhile isBlank).reverse

theorem isBlank_of_isWhitespace (c : Char) (h : c.isWhitespace = true) : isBlank c = true := by
  simp only [Char.isWhitespace, Bool.or_eq_true, decide_eq_true_eq] at h
  rcases h with ((rfl | rfl) | rfl) | rfl <;> decide

end TreeJit
