import Nifre.Py

/-!
# Batches of token lists
-/

namespace Nifre

/-- A row of a batch: the tokens with padding on the left. -/
def padRow (padId maxLen : Nat) (tokens : List Nat) : List Nat :=
  List.replicate (maxLen - tokens.length) padId ++ tokens

/-- Left-pad token lists to a batch and return per-row real lengths. -/
def batchTokenIds (tokenLists : List (List Nat)) (padId : Nat) :
    Except PyError (List (List Nat) × List Nat) :=
  match (tokenLists.map List.length).max? with
  | none => .error (.valueError "max() iterable argument is empty")
  | some maxLen => .ok (tokenLists.map (padRow padId maxLen), tokenLists.map List.length)

end Nifre
