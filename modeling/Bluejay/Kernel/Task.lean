import Bluejay.Lib.Bytes
import Bluejay.Lib.System
import Mathlib.Data.Finset.Insert
import Mathlib.Data.Finset.Card

/-!
# Tasks

`task.c`: the tasks are a doubly linked list, which the scheduler goes round.

* `Task`, `Process`, `Registers` : the structures of the same names; `Tasks` : the list in memory
  and the variables of the file.
* `initTasks`, `spawnThread`, `killThisThread`, `doSwitchTask`, `setWaiting` : its functions.
* `tasks` : the system of all orders of these calls.
* `alive ls`, `saved t ls` : what the calls `ls` have made of the tasks: which ones there are, and
  the registers with which `t` is to go on.

The fields of a `struct ll_task_i` are functions of its address, so that memory that has been freed
keeps what it held.  New stacks are left out: nothing here reads them.
-/

namespace Bluejay

namespace Kernel

/-- `struct registers`. -/
structure Registers where
  ds : ℕ
  edi : ℕ
  esi : ℕ
  ebp : ℕ
  esp : ℕ
  ebx : ℕ
  edx : ℕ
  ecx : ℕ
  eax : ℕ
  interruptNumber : ℕ
  errorCode : ℕ
  eip : ℕ
  cs : ℕ
  eflags : ℕ
  useresp : ℕ
  ss : ℕ
  deriving DecidableEq

/-- `struct registers` with all fields zero. -/
def Registers.zero : Registers := ⟨0, 0, 0, 0, 0, 0, 0, 0, 0, 0, 0, 0, 0, 0, 0, 0⟩

/-- `struct process`. -/
structure Process where
  pageDirectoryP : ℕ
  lastStackPos : ℕ

/-- `struct task`; `proc` is an index of `processes`. -/
structure Task where
  id : ℕ
  waiting : Bool
  proc : ℕ
  state : Registers

/-- The task list in memory, and the variables of `task.c`.  `NULL` is `0`. -/
structure Tasks where
  next : ℕ → ℕ
  prev : ℕ → ℕ
  task : ℕ → Task
  /-- The nodes that are allocated. -/
  allocated : Finset ℕ
  firstTask : ℕ
  lastTask : ℕ
  currentTask : ℕ
  nextTaskId : ℕ
  processes : ℕ → Process

namespace Tasks

/-- `init_tasks`, where `malloc` returns `p` and `dir` is the kernel's page directory. -/
def initTasks (s : Tasks) (p dir : ℕ) : Tasks where
  next := Function.update s.next p 0
  prev := Function.update s.prev p 0
  task := Function.update s.task p ⟨0, false, 0, .zero⟩
  allocated := {p}
  firstTask := p
  lastTask := p
  currentTask := p
  nextTaskId := 1
  processes := Function.update s.processes 0 ⟨dir, 0xFFFFF000⟩

/-- The registers a new thread starts with. -/
def spawnState (s : Tasks) (function : ℕ) : Registers :=
  let task := s.task s.currentTask
  let base := (s.processes task.proc).lastStackPos
  { task.state with ebp := sub32 base 8, esp := sub32 base 8, eip := function }

/-- `spawn_thread`, where `malloc` returns `p`. -/
def spawnThread (s : Tasks) (p function : ℕ) : Tasks :=
  let task := s.task s.currentTask
  let proc := s.processes task.proc
  { s with
    processes := Function.update s.processes task.proc
      { proc with lastStackPos := sub32 proc.lastStackPos 0x1000 }
    task := Function.update s.task p
      { task with id := s.nextTaskId, state := s.spawnState function, waiting := false }
    nextTaskId := u32 (s.nextTaskId + 1)
    next := Function.update (Function.update s.next p 0) s.lastTask p
    prev := Function.update s.prev p s.lastTask
    allocated := insert p s.allocated
    lastTask := p }

/-- The task that `kill_this_thread` hands over to. -/
def successor (s : Tasks) : ℕ :=
  if s.next s.currentTask ≠ 0 then s.next s.currentTask else s.firstTask

/-- `kill_this_thread`; `none` is its `kpanic`. -/
def killThisThread (s : Tasks) : Option Tasks :=
  let task := s.currentTask
  if s.prev task = 0 ∧ s.next task = 0 then none
  else some { s with
    next := if s.prev task ≠ 0 then Function.update s.next (s.prev task) (s.next task) else s.next
    prev := if s.next task ≠ 0 then Function.update s.prev (s.next task) (s.prev task) else s.prev
    firstTask := if task = s.firstTask then s.next task else s.firstTask
    lastTask := if task = s.lastTask then s.prev task else s.lastTask
    currentTask := s.successor
    allocated := s.allocated.erase task }

/-- The task after `t`, round the list. -/
def following (s : Tasks) (t : ℕ) : ℕ := if s.next t = 0 then s.firstTask else s.next t

/-- The loop of `_do_switch_task`, for at most `n` turns. -/
def nextRunnable (s : Tasks) : ℕ → ℕ → Option ℕ
  | 0, _ => none
  | n + 1, t =>
    let t := s.following t
    if (s.task t).waiting then nextRunnable s n t else some t

/-- `_do_switch_task`; `none` if it loops for ever, or its `kpanic`. -/
def doSwitchTask (s : Tasks) (regs : Registers) : Option Tasks :=
  let task := Function.update s.task s.currentTask { s.task s.currentTask with state := regs }
  let s := { s with task := task }
  match s.nextRunnable s.allocated.card s.currentTask with
  | none => none
  | some t =>
    if t = s.currentTask ∧ (s.task s.currentTask).waiting then none
    else some { s with currentTask := t }

/-- The loop of `set_waiting`, for at most `n` tasks; it ends at `NULL` if there is no `tid`. -/
def findTask (s : Tasks) (tid : ℕ) : ℕ → ℕ → Option ℕ
  | 0, _ => none
  | n + 1, t =>
    if t = 0 then some 0
    else if (s.task t).id = tid then some t
    else findTask s tid n (s.next t)

/-- `set_waiting`; `none` if it loops for ever. -/
def setWaiting (s : Tasks) (tid : ℕ) (waiting : Bool) : Option Tasks :=
  match s.findTask tid (s.allocated.card + 1) s.firstTask with
  | none => none
  | some 0 => some s
  | some t => some { s with task := Function.update s.task t { s.task t with waiting := waiting } }

/-- The id of the task that is running. -/
def taskId (s : Tasks) : ℕ := (s.task s.currentTask).id

end Tasks

/-! ### Runs -/

/-- What a call does, and to which tasks. -/
inductive TaskEvent
  | spawned (tid : ℕ) (state : Registers)
  /-- The task `tid` ends, and `next` goes on. -/
  | killed (tid next : ℕ)
  /-- The task `tid` is switched out, and `next` goes on. -/
  | switched (tid : ℕ) (regs : Registers) (next : ℕ)
  | waitingSet (tid : ℕ) (waiting : Bool)

inductive TaskStep (s : Tasks) : TaskEvent → Tasks → Prop
  | spawn {p : ℕ} (function : ℕ) (h0 : p ≠ 0) (hp : p ∉ s.allocated) :
      TaskStep s (.spawned s.nextTaskId (s.spawnState function)) (s.spawnThread p function)
  | kill {s' : Tasks} (h : s.killThisThread = some s') : TaskStep s (.killed s.taskId s'.taskId) s'
  | switch {s' : Tasks} (regs : Registers) (h : s.doSwitchTask regs = some s') :
      TaskStep s (.switched s.taskId regs s'.taskId) s'
  | setWaiting {s' : Tasks} {tid : ℕ} {waiting : Bool} (h : s.setWaiting tid waiting = some s') :
      TaskStep s (.waitingSet tid waiting) s'

/-- All orders of calls. -/
def tasks : System Tasks TaskEvent := ⟨TaskStep⟩

/-- The ids of the tasks that have been spawned and not killed, oldest first. -/
def alive : List TaskEvent → List ℕ :=
  List.foldl (fun ts e => match e with
    | .spawned tid _ => ts ++ [tid]
    | .killed tid _ => ts.erase tid
    | _ => ts) [0]

/-- The registers that were stored for the task `t` last, when it was switched out or spawned. -/
def saved (t : ℕ) : List TaskEvent → Option Registers :=
  List.foldl (fun r e => match e with
    | .spawned tid state => if tid = t then some state else r
    | .switched tid regs _ => if tid = t then some regs else r
    | _ => r) none

/-- The number of calls of `spawn_thread`. -/
def spawns (ls : List TaskEvent) : ℕ :=
  ls.countP fun e => match e with
    | .spawned _ _ => true
    | _ => false

end Kernel

end Bluejay
