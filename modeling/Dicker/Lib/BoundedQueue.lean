import Mathlib

/-! A first-in-first-out queue with a bound, that can be closed. -/

namespace Lib

structure BoundedQueue (α : Type) where
  items : List α
  closed : Bool

namespace BoundedQueue
variable {α : Type}

def empty : BoundedQueue α := ⟨[], false⟩

inductive Step (cap : ℕ) : BoundedQueue α → BoundedQueue α → Prop where
  | enqueue (q : BoundedQueue α) (x : α) (h : q.items.length < cap) :
      Step cap q { q with items := q.items ++ [x] }
  | dequeue (q : BoundedQueue α) (x : α) (rest : List α) (h : q.items = x :: rest) :
      Step cap q { q with items := rest }
  | close (q : BoundedQueue α) : Step cap q { q with closed := true }

end BoundedQueue
end Lib
