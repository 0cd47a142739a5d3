/-!
# Words

Closed vocabularies, such as the states of a transaction, are written with one fixed word for each
value. Reading a word is looking it up among the words of all values.
-/

namespace Provision

/-- A word that the vocabulary does not have. -/
structure UnknownWord where
  vocabulary : String
  word : String
  deriving DecidableEq, Repr

def UnknownWord.message (w : UnknownWord) : String := s!"Invalid {w.vocabulary}: {w.word}"

/-- The value among `all` that is written as `word`. -/
def readWord {α : Type} (vocabulary : String) (all : List α) (text : α → String) (word : String) :
    Except UnknownWord α :=
  match all.find? fun a => text a == word with
  | some a => .ok a
  | none => .error ⟨vocabulary, word⟩

theorem text_of_readWord {α : Type} {vocabulary word : String} {all : List α} {text : α → String}
    {a : α} (h : readWord vocabulary all text word = .ok a) : text a = word := by
  unfold readWord at h
  split at h
  · rename_i hfind
    cases h
    simpa using List.find?_some hfind
  · cases h

end Provision
