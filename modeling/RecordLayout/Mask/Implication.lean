/-
**Chains of implications.**

The implications of a mask form a directed graph on the indices of its flags, given here by the
list of direct successors of each index.

* `visit` searches depth first for a cycle. It knows the chain of flags that led to the one it
  looks at (`path`) and the flags that are already cleared (`done`); a flag met again on its own
  path closes a cycle.
* `closure` collects an index and everything it leads to, each once, in the order in which a stack
  of unexplored indices brings them up.

Both take the number of flags as a bound: a path without a repetition is no longer than that, and
no index enters the stack twice.
-/

namespace RecordLayout.Implication

/-- Searches for a cycle from `index` on. Yields the flags that are now known to lead to none, or
the flag at which a cycle closes. -/
def visit (next : Nat → List Nat) :
    (depth : Nat) → (path done : List Nat) → (index : Nat) → Except Nat (List Nat)
  | depth, path, done, index =>
      if index ∈ done then .ok done
      else if index ∈ path then .error index
      else
        match depth with
        | 0 => .ok done
        | depth + 1 => do
            let done ← (next index).foldlM (visit next depth (index :: path)) done
            return index :: done

/-- The flag at which a cycle closes, if the flags below `count` have one. -/
def cycle? (next : Nat → List Nat) (count : Nat) : Option Nat :=
  match (List.range count).foldlM (visit next count []) [] with
  | .ok _ => none
  | .error index => some index

/-- The indices seen so far, in order, and those of them still to be explored, last seen first. -/
structure Frontier where
  seen : List Nat
  stack : List Nat
  deriving DecidableEq, Repr

/-- Takes note of an index, unless it has been seen. -/
def Frontier.note (frontier : Frontier) (index : Nat) : Frontier :=
  if index ∈ frontier.seen then frontier
  else ⟨frontier.seen ++ [index], index :: frontier.stack⟩

/-- Explores the stack, for at most `steps` indices. -/
def explore (next : Nat → List Nat) : (steps : Nat) → Frontier → List Nat
  | 0, frontier => frontier.seen
  | steps + 1, frontier =>
      match frontier.stack with
      | [] => frontier.seen
      | top :: rest => explore next steps ((next top).foldl Frontier.note ⟨frontier.seen, rest⟩)

/-- An index and everything it leads to, in a graph of `count` indices. -/
def closure (next : Nat → List Nat) (count index : Nat) : List Nat :=
  explore next count ⟨[index], [index]⟩

end RecordLayout.Implication
