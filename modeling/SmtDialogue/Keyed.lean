import SmtDialogue.Symbol

/-!
# Lists in ascending order of a word

Entries that belong to words, kept in ascending order with at most one entry for
each word. The entry's word is found by a function, so any structure that holds
one can be kept this way.
-/

namespace SmtDialogue.Keyed

variable {α : Type}

/-- Adds an entry, in place of an earlier one for the same word. -/
def put (key : α → WordId) (x : α) : List α → List α
  | [] => [x]
  | y :: rest =>
    if (key x).index < (key y).index then x :: y :: rest
    else if key x = key y then x :: rest
    else y :: put key x rest

def get? (key : α → WordId) (id : WordId) (xs : List α) : Option α :=
  xs.find? fun x => key x = id

def remove (key : α → WordId) (id : WordId) (xs : List α) : List α :=
  xs.filter fun x => key x ≠ id

/-- The last entry of every word, in ascending order. -/
def ofList (key : α → WordId) (xs : List α) : List α :=
  xs.foldl (fun acc x => put key x acc) []

theorem get?_put_self (key : α → WordId) (x : α) (xs : List α) :
    get? key (key x) (put key x xs) = some x := by
  induction xs with
  | nil => simp [put, get?]
  | cons y rest ih =>
    simp only [put]
    split
    · simp [get?]
    · split
      · simp [get?]
      · next differ => simpa [get?, Ne.symm differ] using ih

/-- Adding an entry leaves the entries of the other words. -/
theorem get?_put_of_ne {key : α → WordId} {x : α} {id : WordId} (h : key x ≠ id)
    (xs : List α) : get? key id (put key x xs) = get? key id xs := by
  induction xs with
  | nil => simp [put, get?, h]
  | cons y rest ih =>
    simp only [put]
    split
    · simp [get?, h]
    · split
      · next same => simp [get?, h, ← same]
      · simp only [get?, List.find?_cons]
        split
        · rfl
        · exact ih

/-- Removing the word of an entry that is found makes the list shorter. -/
theorem length_remove_lt {key : α → WordId} {id : WordId} {xs : List α} {x : α}
    (h : get? key id xs = some x) : (remove key id xs).length < xs.length := by
  have found := List.find?_some h
  refine List.length_filter_lt_length_iff_exists.2 ⟨x, List.mem_of_find?_eq_some h, ?_⟩
  simpa using found

end SmtDialogue.Keyed
