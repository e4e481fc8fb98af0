/-! # Readers

A reader takes a value off the front of a text or fails. Alternatives are tried in order and see
the same text.
-/

namespace DecimalPattern.Toml

abbrev Reader := StateT (List Char) Option

namespace Reader

variable {α β : Type}

def peek : Reader (Option Char) := fun cs => some (cs.head?, cs)

def satisfy (p : Char → Bool) : Reader Char
  | [] => none
  | c :: cs => if p c then some (c, cs) else none

def char (c : Char) : Reader Unit := do
  let _ ← satisfy (· == c)

def word (w : String) : Reader Unit := w.toList.forM char

/-- The longest run of characters of a class, perhaps empty. -/
def span (p : Char → Bool) : Reader (List Char) := fun cs => some (cs.takeWhile p, cs.dropWhile p)

def atEnd : Reader Unit
  | [] => some ((), [])
  | _ :: _ => none

def repeatUpTo (item : Reader α) : Nat → Reader (List α)
  | 0 => pure []
  | n + 1 => do
    match ← optional item with
    | some a => return a :: (← repeatUpTo item n)
    | none => return []

/-- As many items as can be read. Each takes at least one character, so that the length of the text
bounds their number. -/
def many (item : Reader α) : Reader (List α) := fun cs => repeatUpTo item cs.length cs

/-- Items with a separator between any two; a separator that no item follows is left. -/
def separated (item : Reader α) (separator : Reader β) : Reader (List α) := do
  let first ← item
  let others ← many (do let _ ← separator; item)
  return first :: others

end Reader

end DecimalPattern.Toml
