import HiddenText.Scan.Pool

/-!
# What a pool keeps

`Inv` holds of a pool along every run: its slots are those of the tasks in their order, a slot that
is done has the result of its own task, and the tasks that were picked up, with those that still
wait, are the tasks in their order.  `Inv.step` is about one move and `Inv.run` about any number of
them.

`run_oneByOne` says that the moves of `oneByOne` do every task.
-/

namespace HiddenText

namespace Slot

variable {α β : Type}

def task : Slot α β → α
  | .waiting t | .running t | .done t _ => t

def waiting? : Slot α β → Option α
  | .waiting t => some t
  | _ => none

end Slot

namespace Pool

variable {α β : Type}

/-- The tasks that nobody has picked up. -/
def waiting (pool : Pool α β) : List α := pool.filterMap Slot.waiting?

/-- The task that a move hands to a worker. -/
def pickedUp (workers : Int) (pool : Pool α β) : Move → Option α
  | .start => if (pool.countP Slot.isRunning : Int) < workers then pool.waiting.head? else none
  | .finish _ => none

/-- The tasks that are handed to workers along the moves. -/
def calls (workers : Int) (work : α → β) : Pool α β → List Move → List α
  | _, [] => []
  | pool, move :: moves =>
    (pickedUp workers pool move).toList ++ calls workers work (step workers work pool move) moves

/-- The slots belong to the tasks, what is done is done right, and the tasks are called in order. -/
structure Inv (work : α → β) (tasks called : List α) (pool : Pool α β) : Prop where
  tasks_eq : pool.map Slot.task = tasks
  result_eq : ∀ slot ∈ pool, ∀ r, slot.result? = some r → r = work slot.task
  called_eq : called ++ pool.waiting = tasks

/-! ## One move -/

theorem map_task_startFirst (pool : Pool α β) :
    pool.startFirst.map Slot.task = pool.map Slot.task := by
  induction pool with
  | nil => rfl
  | cons slot pool ih =>
    cases slot with
    | waiting t => rfl
    | running t => exact congrArg (t :: ·) ih
    | done t r => exact congrArg (t :: ·) ih

theorem waiting_startFirst (pool : Pool α β) : pool.startFirst.waiting = pool.waiting.tail := by
  induction pool with
  | nil => rfl
  | cons slot pool ih =>
    cases slot with
    | waiting t => rfl
    | running t => exact ih
    | done t r => exact ih

theorem result?_of_mem_startFirst {pool : Pool α β} {slot : Slot α β} {r : β}
    (h : slot ∈ pool.startFirst) (hr : slot.result? = some r) : slot ∈ pool := by
  induction pool with
  | nil => exact h
  | cons first pool ih =>
    cases first with
    | waiting t =>
      rcases List.mem_cons.mp h with rfl | h
      · cases hr
      · exact List.mem_cons_of_mem _ h
    | running t =>
      rcases List.mem_cons.mp h with rfl | h
      · cases hr
      · exact List.mem_cons_of_mem _ (ih h)
    | done t s =>
      rcases List.mem_cons.mp h with rfl | h
      · exact List.mem_cons_self
      · exact List.mem_cons_of_mem _ (ih h)

theorem finishAt_succ (work : α → β) (i : Nat) (slot : Slot α β) (pool : Pool α β) :
    finishAt work (i + 1) (slot :: pool) = slot :: finishAt work i pool := by
  rw [finishAt]

theorem map_task_finishAt (work : α → β) (pool : Pool α β) : ∀ i : Nat,
    (pool.finishAt work i).map Slot.task = pool.map Slot.task := by
  induction pool with
  | nil => intro i; cases i <;> rfl
  | cons slot pool ih =>
    intro i
    cases i with
    | zero => cases slot <;> rfl
    | succ i => rw [finishAt_succ, List.map_cons, List.map_cons, ih]

theorem waiting_finishAt (work : α → β) (pool : Pool α β) : ∀ i : Nat,
    (pool.finishAt work i).waiting = pool.waiting := by
  induction pool with
  | nil => intro i; cases i <;> rfl
  | cons slot pool ih =>
    intro i
    cases i with
    | zero => cases slot <;> rfl
    | succ i =>
      have h := ih i
      rw [waiting, waiting] at h
      rw [finishAt_succ, waiting, waiting, List.filterMap_cons, List.filterMap_cons, h]

theorem result?_of_mem_finishAt {work : α → β} {pool : Pool α β} {slot : Slot α β} {r : β} :
    ∀ {i : Nat}, slot ∈ pool.finishAt work i → slot.result? = some r →
      slot ∈ pool ∨ r = work slot.task := by
  induction pool with
  | nil => intro i h _; cases i <;> exact .inl h
  | cons first pool ih =>
    intro i h hr
    cases i with
    | zero =>
      cases first with
      | running t =>
        rcases List.mem_cons.mp h with rfl | h
        · exact .inr (Option.some.inj hr).symm
        · exact .inl (List.mem_cons_of_mem _ h)
      | waiting t => exact .inl h
      | done t s => exact .inl h
    | succ i =>
      rw [finishAt_succ] at h
      rcases List.mem_cons.mp h with rfl | h
      · exact .inl List.mem_cons_self
      · exact (ih h hr).imp_left (List.mem_cons_of_mem _)

variable {work : α → β} {tasks called : List α} {pool : Pool α β}

theorem inv_ofTasks (work : α → β) (tasks : List α) : Inv work tasks [] (ofTasks tasks) where
  tasks_eq := by rw [ofTasks, List.map_map]; exact List.map_id tasks
  result_eq := by
    intro slot h r hr
    obtain ⟨t, -, rfl⟩ := List.mem_map.mp h
    cases hr
  called_eq := by
    rw [ofTasks, waiting, List.filterMap_map]
    exact List.filterMap_some

/-- A move keeps the invariant. -/
theorem Inv.step (h : Inv work tasks called pool) (workers : Int) (move : Move) :
    Inv work tasks (called ++ (pickedUp workers pool move).toList)
      (Pool.step workers work pool move) := by
  cases move with
  | start =>
    rw [pickedUp, Pool.step]
    split
    · refine ⟨?_, ?_, ?_⟩
      · rw [map_task_startFirst, h.tasks_eq]
      · intro slot hmem r hr
        exact h.result_eq slot (result?_of_mem_startFirst hmem hr) r hr
      · rw [waiting_startFirst, ← h.called_eq]
        cases pool.waiting <;> simp
    · rwa [Option.toList_none, List.append_nil]
  | finish i =>
    rw [pickedUp, Option.toList_none, List.append_nil]
    refine ⟨?_, ?_, ?_⟩
    · rw [Pool.step, map_task_finishAt, h.tasks_eq]
    · intro slot hmem r hr
      rcases result?_of_mem_finishAt hmem hr with hmem | hwork
      · exact h.result_eq slot hmem r hr
      · exact hwork
    · rw [Pool.step, waiting_finishAt, h.called_eq]

/-- Any number of moves keeps the invariant. -/
theorem Inv.run (h : Inv work tasks called pool) (workers : Int) (moves : List Move) :
    Inv work tasks (called ++ calls workers work pool moves)
      (Pool.run workers work pool moves) := by
  induction moves generalizing called pool with
  | nil => rwa [calls, List.append_nil]
  | cons move moves ih =>
    rw [calls, ← List.append_assoc]
    exact ih (h.step workers move)

/-! ## Every task done -/

def doneSlot (work : α → β) (t : α) : Slot α β := .done t (work t)

theorem waiting_eq_nil (h : pool.isComplete) : pool.waiting = [] := by
  refine List.filterMap_eq_nil_iff.mpr fun slot hmem => ?_
  have hdone := List.all_eq_true.mp h slot hmem
  cases slot with
  | done t r => rfl
  | waiting t => cases hdone
  | running t => cases hdone

/-- In a complete pool the tasks were called one for one. -/
theorem Inv.called_eq_tasks (h : Inv work tasks called pool) (hc : pool.isComplete) :
    called = tasks := by
  have heq := h.called_eq
  rwa [waiting_eq_nil hc, List.append_nil] at heq

theorem countP_isRunning_eq_zero (ran tasks : List α) :
    (ran.map (doneSlot work) ++ ofTasks tasks).countP Slot.isRunning = 0 := by
  refine List.countP_eq_zero.mpr fun slot hmem => ?_
  rcases List.mem_append.mp hmem with hmem | hmem
  · obtain ⟨t, -, rfl⟩ := List.mem_map.mp hmem
    exact Bool.false_ne_true
  · obtain ⟨t, -, rfl⟩ := List.mem_map.mp hmem
    exact Bool.false_ne_true

theorem startFirst_append (ran : List α) (pool : Pool α β) :
    startFirst (ran.map (doneSlot work) ++ pool) = ran.map (doneSlot work) ++ pool.startFirst := by
  induction ran with
  | nil => rfl
  | cons t ran ih => exact congrArg (doneSlot work t :: ·) ih

theorem finishAt_append (before pool : Pool α β) :
    finishAt work before.length (before ++ pool) = before ++ finishAt work 0 pool := by
  induction before with
  | nil => rfl
  | cons slot before ih => rw [List.length_cons, List.cons_append, finishAt_succ, ih]; rfl

/-- Starting a task and finishing it, one after the other, does them all. -/
theorem run_append_oneByOne {workers : Int} (hw : 0 < workers) (tasks : List α) : ∀ ran : List α,
    run workers work (ran.map (doneSlot work) ++ ofTasks tasks)
      ((List.range' ran.length tasks.length).flatMap fun i => [.start, .finish i])
      = (ran ++ tasks).map (doneSlot work) := by
  induction tasks with
  | nil => intro ran; simp [run, ofTasks]
  | cons t tasks ih =>
    intro ran
    have hstart : Pool.step workers work (ran.map (doneSlot work) ++ ofTasks (t :: tasks)) .start
        = ran.map (doneSlot work) ++ .running t :: ofTasks tasks := by
      rw [Pool.step, countP_isRunning_eq_zero, if_pos (by exact_mod_cast hw), startFirst_append]
      rfl
    have hfinish : Pool.step workers work (ran.map (doneSlot work) ++ .running t :: ofTasks tasks)
        (.finish ran.length) = (ran ++ [t]).map (doneSlot work) ++ ofTasks tasks := by
      have hlen : ran.length = (ran.map (doneSlot work)).length := (List.length_map _).symm
      rw [Pool.step, hlen, finishAt_append, List.map_append, List.append_assoc]
      rfl
    have hrest := ih (ran ++ [t])
    rw [List.length_append, List.length_singleton, List.append_assoc] at hrest
    rw [List.length_cons, List.range'_succ, List.flatMap_cons, run, List.foldl_append,
      List.foldl_cons, List.foldl_cons, List.foldl_nil, hstart, hfinish]
    exact hrest

theorem run_oneByOne {workers : Int} (hw : 0 < workers) (work : α → β) (tasks : List α) :
    run workers work (ofTasks tasks) (oneByOne tasks.length) = tasks.map (doneSlot work) := by
  rw [oneByOne, List.range_eq_range']
  exact run_append_oneByOne hw tasks []

end Pool

end HiddenText
