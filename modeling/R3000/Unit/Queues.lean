import R3000.Word

/-!
# Compilation queues

Units waiting for background work, by address.  Links are followed before anything is compiled,
and first executables come before second ones.  No unit waits twice in one queue.  The work is done
by a worker, which takes the jobs at times of its own, or else by whoever pumps.
-/

namespace R3000

inductive Job
  | followLinks (base : Word)
  | compileFirst (base : Word)
  | compileSecond (base : Word)
deriving DecidableEq, Repr, Inhabited

structure Queues where
  links : List Word := []
  first : List Word := []
  second : List Word := []
  closed : Bool := false
  worker : Bool := false
deriving DecidableEq, Repr, Inhabited

namespace Queues

/-- Add a unit at the end unless it is waiting already. -/
def enqueue (queue : List Word) (base : Word) : List Word :=
  if queue.contains base then queue else queue ++ [base]

def addSecond (q : Queues) (base : Word) : Queues :=
  if q.closed then q else { q with second := enqueue q.second base }

def addFirst (q : Queues) (base : Word) : Queues :=
  if q.closed then q else { q with first := enqueue q.first base }

/-- Ask for the callees of a unit; `urgent` requests go to the front. -/
def addLinks (q : Queues) (base : Word) (urgent : Bool) : Queues :=
  if q.closed || q.links.contains base then q
  else { q with links := if urgent then base :: q.links else q.links ++ [base] }

def pop (q : Queues) : Option (Job × Queues) :=
  match q.links, q.first, q.second with
  | base :: rest, _, _ => some (.followLinks base, { q with links := rest })
  | [], base :: rest, _ => some (.compileFirst base, { q with first := rest })
  | [], [], base :: rest => some (.compileSecond base, { q with second := rest })
  | [], [], [] => none

def size (q : Queues) : Nat :=
  q.links.length + q.first.length + q.second.length

def clear (q : Queues) : Queues :=
  { closed := q.closed, worker := q.worker }

def start (q : Queues) : Queues :=
  { q with worker := true }

/-- Take no more jobs, and dismiss the worker. -/
def close (q : Queues) : Queues :=
  { q with closed := true, worker := false }

end Queues

end R3000
