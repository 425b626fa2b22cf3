/-!
Splitting: the pieces of a list between separators.
-/

namespace Piezo.Text

/-- The pieces between separators; there is one more of them than there are separators. -/
def splitAt {α : Type} [DecidableEq α] (separator : α) (xs : List α) : List (List α) :=
  xs.foldr
    (fun x pieces =>
      if x = separator then [] :: pieces
      else
        match pieces with
        | [] => [[x]]
        | piece :: rest => (x :: piece) :: rest)
    [[]]

end Piezo.Text
