namespace Yeeroot.Futures

variable {E ε α β : Type}

-- A future of the futures 0.1 crate, as whoever polls it sees it: how often it is not
-- ready, the events it causes while it is polled, and its result.
inductive Future (E ε α : Type) where
  | done (result : Except ε α)
  | notReady (next : Future E ε α)
  | emit (event : E) (next : Future E ε α)

inductive Poll (E ε α : Type) where
  | ready (value : α)
  | notReady (next : Future E ε α)
  | failed (error : ε)

namespace Future

def poll : Future E ε α → List E × Poll E ε α
  | .done (.ok value) => ([], .ready value)
  | .done (.error error) => ([], .failed error)
  | .notReady next => ([], .notReady next)
  | .emit event next => (event :: next.poll.1, next.poll.2)

-- The second future is polled in the poll that the first one is ready in.
def andThen : Future E ε α → (α → Future E ε β) → Future E ε β
  | .done (.ok value), next => next value
  | .done (.error error), _ => .done (.error error)
  | .notReady first, next => .notReady (first.andThen next)
  | .emit event first, next => .emit event (first.andThen next)

-- `Future::then`: both results are handled.
def thenWith : Future E ε α → (Except ε α → Future E ε β) → Future E ε β
  | .done result, next => next result
  | .notReady first, next => .notReady (first.thenWith next)
  | .emit event first, next => .emit event (first.thenWith next)

def wait : Nat → Future E ε α → Future E ε α
  | 0, next => next
  | polls + 1, next => .notReady (wait polls next)

theorem wait_andThen (polls : Nat) (first : Future E ε α) (next : α → Future E ε β) :
    (wait polls first).andThen next = wait polls (first.andThen next) := by
  induction polls with
  | zero => rfl
  | succ polls ih => rw [wait, andThen, ih, wait]

end Future

variable {futures : List (Future E ε α)} {future : Future E ε α}

end Yeeroot.Futures
