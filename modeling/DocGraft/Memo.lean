/-!
# Memo tables

A memo table for a function remembers the values that it has been asked for, in the order of the
first request. What it remembers is what the function gives, so asking the table or the function
is the same.
-/

namespace DocGraft

/-- The values of `f` that have been asked for. -/
structure Memo {κ α : Type} (f : κ → α) where
  /-- The arguments with their values, in the order of the first request. -/
  entries : List (κ × α) := []
  /-- Every remembered value is the one that `f` gives. -/
  sound : ∀ entry ∈ entries, entry.2 = f entry.1 := by simp

namespace Memo

variable {κ α : Type} [DecidableEq κ] {f : κ → α}

/-- The table before the first request. -/
def empty : Memo f := {}

/-- The remembered value of an argument. -/
def find? (memo : Memo f) (k : κ) : Option α :=
  (memo.entries.find? (·.1 = k)).map (·.2)

/-- The place of an argument in the order of the first request. -/
def slot? (memo : Memo f) (k : κ) : Option Nat :=
  memo.entries.findIdx? (·.1 = k)

def size (memo : Memo f) : Nat :=
  memo.entries.length

/-- The value of an argument, remembered or not. -/
def value (memo : Memo f) (k : κ) : α :=
  (memo.find? k).getD (f k)

/-- The table that also remembers the value of an argument. -/
def remember (memo : Memo f) (k : κ) : Memo f :=
  match memo.find? k with
  | some _ => memo
  | none =>
    { entries := memo.entries ++ [(k, f k)]
      sound := by
        intro entry h
        rcases List.mem_append.1 h with h | h
        · exact memo.sound entry h
        · rw [List.mem_singleton.1 h] }

def isEmpty (memo : Memo f) : Bool :=
  memo.entries.isEmpty

/-- The table that also remembers the values of some arguments. -/
def rememberAll (memo : Memo f) (ks : List κ) : Memo f :=
  ks.foldl remember memo

@[simp]
theorem value_eq (memo : Memo f) (k : κ) : memo.value k = f k := by
  unfold value find?
  cases h : memo.entries.find? (·.1 = k) with
  | none => rfl
  | some entry =>
    have hk : entry.1 = k := by simpa using List.find?_some h
    have hv : entry.2 = f entry.1 := memo.sound entry (List.mem_of_find?_eq_some h)
    simp [hv, hk]

end Memo

end DocGraft
