/-!
# A pool of workers

Tasks are handed to a pool in order.  A free worker picks up the first task that waits, and a task
that is being worked on may finish at any time, whatever became of the others; so a run of the pool
is a list of moves.  A move that is not possible does nothing.  The results are read off in the
order of the tasks.
-/

namespace HiddenText

/-- A task and what became of it. -/
inductive Slot (α β : Type)
  | waiting (task : α)
  | running (task : α)
  | done (task : α) (result : β)

def Slot.isRunning {α β : Type} : Slot α β → Bool
  | .running _ => true
  | _ => false

def Slot.result? {α β : Type} : Slot α β → Option β
  | .done _ result => some result
  | _ => none

/-- The tasks in the order in which they were handed over. -/
abbrev Pool (α β : Type) := List (Slot α β)

inductive Move
  /-- A worker picks up the first task that waits. -/
  | start
  /-- The task at this index finishes. -/
  | finish (index : Nat)

namespace Pool

variable {α β : Type}

def ofTasks (tasks : List α) : Pool α β := tasks.map Slot.waiting

def startFirst : Pool α β → Pool α β
  | [] => []
  | .waiting task :: rest => .running task :: rest
  | slot :: rest => slot :: startFirst rest

def finishAt (work : α → β) : Nat → Pool α β → Pool α β
  | _, [] => []
  | 0, .running task :: rest => .done task (work task) :: rest
  | 0, slot :: rest => slot :: rest
  | i + 1, slot :: rest => slot :: finishAt work i rest

/-- One move, with so many workers. -/
def step (workers : Int) (work : α → β) (pool : Pool α β) : Move → Pool α β
  | .start => if (pool.countP Slot.isRunning : Int) < workers then pool.startFirst else pool
  | .finish i => pool.finishAt work i

def run (workers : Int) (work : α → β) (pool : Pool α β) (moves : List Move) : Pool α β :=
  moves.foldl (step workers work) pool

/-- Every task has been done. -/
def isComplete (pool : Pool α β) : Bool := pool.all fun slot => slot.result?.isSome

def results (pool : Pool α β) : List β := pool.filterMap Slot.result?

/-- The moves of a pool that finishes each of so many tasks before it starts the next. -/
def oneByOne (tasks : Nat) : List Move := (List.range tasks).flatMap fun i => [.start, .finish i]

end Pool

end HiddenText
