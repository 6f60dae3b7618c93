/-!
# Trees

Page markup and Java sources are read as trees whose nodes have any number of children. Walks over a
tree keep the list of the trees still to be seen, so that the first one is always the next in
document order.
-/

namespace DocGraft

/-- A tree with a label at every node. -/
inductive Tree (α : Type) where
  /-- A node with its label and its children in document order. -/
  | node (label : α) (children : List (Tree α))

namespace Tree

variable {α : Type}

def label : Tree α → α
  | node a _ => a

def children : Tree α → List (Tree α)
  | node _ ts => ts

mutual

def size : Tree α → Nat
  | node _ ts => sizes ts + 1

def sizes : List (Tree α) → Nat
  | [] => 0
  | t :: ts => size t + sizes ts

end

theorem sizes_append (ts us : List (Tree α)) : sizes (ts ++ us) = sizes ts + sizes us := by
  induction ts with
  | nil => simp [sizes]
  | cons t ts ih => simp only [List.cons_append, sizes, ih]; omega

theorem size_eq (t : Tree α) : t.size = sizes t.children + 1 := by
  cases t with
  | node a ts => simp only [size, children]

/-- The trees to see after the first of a list: those below it, if it is entered, and the others. -/
def onward (enter : Tree α → Bool) (t : Tree α) (rest : List (Tree α)) : List (Tree α) :=
  if enter t then t.children ++ rest else rest

theorem sizes_onward_lt (enter : Tree α → Bool) (t : Tree α) (rest : List (Tree α)) :
    sizes (onward enter t rest) < sizes (t :: rest) := by
  have h := size_eq t
  unfold onward
  split
  · rw [sizes_append, sizes]; omega
  · rw [sizes]; omega

/-- The trees satisfying `keep` that are met in document order below and among the given ones, where
the walk goes below a tree only if it satisfies `enter`. -/
def select (keep enter : Tree α → Bool) : List (Tree α) → List (Tree α)
  | [] => []
  | t :: rest =>
    if keep t then t :: select keep enter (onward enter t rest)
    else select keep enter (onward enter t rest)
termination_by ts => sizes ts
decreasing_by all_goals exact sizes_onward_lt enter t rest

end Tree

end DocGraft
