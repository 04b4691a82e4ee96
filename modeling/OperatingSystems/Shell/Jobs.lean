import OperatingSystems.Lib.Outcomes

/-!
# The job tables of the shell

`wsh` keeps its background jobs in two arrays: `jobIDs` maps a job id to a place in `Jobs`, and each job
carries its id.  This file models the commands that change them, with every write checked against the
bounds of its array.

* **`updateBackgroundJobStatus`** — the status update before each command.
* **`storeJobInfo`** — what a launch in the background and a stopped foreground job store.
* **`execFgCommand`**, **`execBgCommand`**, **`execJobsCommand`** — the built-in commands.
* **`step`** — one command or status update, with the answers of `waitpid` as its label.
-/

namespace OperatingSystems.Shell

/-! ### Jobs and tables -/

/-- `struct Job`, without the texts of its arguments. -/
structure Job where
  pid : ℤ
  jobID : ℤ
  isValid : ℤ
  isBackground : ℤ
  hasAmpersand : ℤ
  isStopped : ℤ
  deriving DecidableEq

/-- `initializeJob`. -/
def initializeJob : Job where
  pid := -1
  jobID := -1
  isValid := -1
  isBackground := -1
  hasAmpersand := -1
  isStopped := -1

/-- The global variables of the shell. -/
structure Tables where
  jobIDs : ℤ → ℤ
  Jobs : ℤ → Job
  numJobs : ℤ

/-- The tables when the shell starts. -/
def Tables.initial : Tables := ⟨fun _ => -1, fun _ => initializeJob, 0⟩

def Tables.putID (s : Tables) (id v : ℤ) : Tables := { s with jobIDs := Function.update s.jobIDs id v }

def Tables.putJob (s : Tables) (k : ℤ) (job : Job) : Tables := { s with Jobs := Function.update s.Jobs k job }

/-- Why a command does not come back to the prompt. -/
inductive Stop
  /-- The shell exits. -/
  | exited
  /-- An access outside of the array. -/
  | outOfBounds
  /-- The process waited for still runs. -/
  | waiting
  deriving DecidableEq

/-- `jobIDs[id] = v`, where the ids are `1` to `255`. -/
def setJobID (id v : ℤ) (s : Tables) : Except Stop Tables :=
  if 1 ≤ id ∧ id < 256 then .ok (s.putID id v) else .error .outOfBounds

/-- `Jobs[k] = job`, which also stands for an assignment to one field. -/
def setJob (k : ℤ) (job : Job) (s : Tables) : Except Stop Tables :=
  if 0 ≤ k ∧ k < 256 then .ok (s.putJob k job) else .error .outOfBounds

/-- `Jobs[k]` -/
def readJob (k : ℤ) (s : Tables) : Except Stop Job :=
  if 0 ≤ k ∧ k < 256 then .ok (s.Jobs k) else .error .outOfBounds

/-! ### The status update -/

/-- What `waitpid` with `WNOHANG` returns: `-1`, `0`, or a process that has ended. -/
inductive Poll
  | failed
  | running
  | ended
  deriving DecidableEq

/-- What a completed job leaves. -/
def completeJob (i : ℤ) (s : Tables) : Except Stop Tables := do
  let s ← setJobID (s.Jobs i).jobID (-1) s
  setJob i initializeJob s

/-- The body of the loop of `updateBackgroundJobStatus`, where `waitpid j` is the answer to the `j`-th call
for this job. -/
def updateJob (waitpid : ℕ → Poll) (i : ℤ) (s : Tables) : Except Stop Tables :=
  if (s.Jobs i).isValid = 1 ∧ (s.Jobs i).isBackground = 1 then
    if (s.Jobs i).pid < 0 then
      -- the first `-1` says that no process of the group is left, and ends the inner loop
      if (List.range 256).any fun j => waitpid j == .failed then completeJob i s else .ok s
    else
      match waitpid 0 with
      | .failed => .error .exited
      | .ended => completeJob i s
      | .running => .ok s
  else .ok s

/-- `updateBackgroundJobStatus` -/
def updateBackgroundJobStatus (waitpid : ℕ → ℕ → Poll) (s : Tables) : Except Stop Tables :=
  (List.range 256).foldlM (fun s i => updateJob (waitpid i) i s) s

/-! ### Storing a job -/

/-- The job ids in the order of the loops over them. -/
def ids : List ℤ := (List.range' 1 255).map fun i : ℕ => (i : ℤ)

/-- `findSmallestAvailableJobID` -/
def findSmallestAvailableJobID (s : Tables) : ℤ :=
  (ids.find? fun i => s.jobIDs i == -1).getD (-1)

/-- `findLargestUsedJobID` -/
def findLargestUsedJobID (s : Tables) : ℤ :=
  ids.foldl (fun largestJobID i => if s.jobIDs i ≠ -1 then i else largestJobID) (-1)

/-- `storeJobInfo` -/
def storeJobInfo (processID isBackgroundJob hasAmpersand isStopped : ℤ) (s : Tables) :
    Except Stop Tables := do
  let jobID := if isBackgroundJob = 1 then findSmallestAvailableJobID s else 0
  let s ← if isBackgroundJob = 1 then setJobID jobID s.numJobs s else .ok s
  let s ← setJob s.numJobs ⟨processID, jobID, 1, isBackgroundJob, hasAmpersand, isStopped⟩ s
  .ok { s with numJobs := s.numJobs + 1 }

/-! ### The built-in commands -/

/-- What `waitpid` with `WUNTRACED` returns: `-1`, or a process that was stopped, exited or was killed. -/
inductive Wait
  | failed
  | stopped
  | exited
  | signalled
  deriving DecidableEq

/-- The job id that `fg` and `bg` take: the argument, as `atoi` reads it, or the largest used. -/
def chooseJobID (arguments : List ℤ) (s : Tables) : Except Stop ℤ :=
  match arguments with
  | [] => if findLargestUsedJobID s = -1 then .error .exited else .ok (findLargestUsedJobID s)
  | [jobID] => if jobID < 1 ∨ jobID > 255 then .error .exited else .ok jobID
  | _ => .error .exited

/-- The start of `fg` and of `bg`: the job id and its place in `Jobs`. -/
def selectJob (arguments : List ℤ) (s : Tables) : Except Stop (ℤ × ℤ) := do
  let jobID ← chooseJobID arguments s
  if s.jobIDs jobID = -1 then
    .error .exited
  else
    let job ← readJob (s.jobIDs jobID) s
    if job.isValid = -1 then .error .exited else .ok (jobID, s.jobIDs jobID)

/-- The end of `fg` where the job is completed. -/
def finishJob (jobID jobIndex : ℤ) (s : Tables) : Except Stop Tables := do
  let s ← setJob jobIndex initializeJob s
  setJobID jobID (-1) s

/-- The end of `fg` where the job was stopped again. -/
def suspendJob (jobID jobIndex : ℤ) (s : Tables) : Except Stop Tables := do
  let s ← setJob jobIndex { s.Jobs jobIndex with isStopped := 1, isBackground := 1 } s
  setJobID jobID jobIndex s

/-- The wait of `fg` for the processes of a pipeline. -/
def waitGroup (jobID jobIndex : ℤ) : List Wait → Tables → Except Stop Tables
  | [], _ => .error .waiting
  | .failed :: _, s => finishJob jobID jobIndex s
  | .stopped :: _, s => suspendJob jobID jobIndex s
  | .exited :: waits, s => waitGroup jobID jobIndex waits s
  | .signalled :: waits, s => waitGroup jobID jobIndex waits s

/-- The wait of `fg` for a single process.  One that was killed stays in `Jobs`, in the foreground. -/
def waitProcess (jobID jobIndex : ℤ) : List Wait → Tables → Except Stop Tables
  | [], _ => .error .waiting
  | .failed :: _, _ => .error .exited
  | .stopped :: _, s => suspendJob jobID jobIndex s
  | .exited :: _, s => finishJob jobID jobIndex s
  | .signalled :: _, s => .ok s

/-- `execFgCommand` -/
def execFgCommand (arguments : List ℤ) (waits : List Wait) (s : Tables) : Except Stop Tables := do
  let (jobID, jobIndex) ← selectJob arguments s
  let pid := (s.Jobs jobIndex).pid
  let s ← setJob jobIndex { s.Jobs jobIndex with isBackground := 0 } s
  let s ← setJobID jobID (-1) s
  let s ← setJob jobIndex { s.Jobs jobIndex with isStopped := 0 } s
  if pid < 0 then waitGroup jobID jobIndex waits s else waitProcess jobID jobIndex waits s

/-- `execBgCommand` -/
def execBgCommand (arguments : List ℤ) (s : Tables) : Except Stop Tables := do
  let (_, jobIndex) ← selectJob arguments s
  let s ← setJob jobIndex { s.Jobs jobIndex with isBackground := 1 } s
  setJob jobIndex { s.Jobs jobIndex with isStopped := 0 } s

/-- `execJobsCommand`: the jobs that it prints. -/
def execJobsCommand (arguments : List ℤ) (s : Tables) : Except Stop (List Job) :=
  if arguments ≠ [] then .error .exited
  else .ok (ids.filterMap fun i =>
    if 0 ≤ s.jobIDs i ∧ s.jobIDs i ≤ 255 then some (s.Jobs (s.jobIDs i)) else none)

/-! ### External commands -/

/-- `execExternalCommand` in the parent, whose child has this `pid`. -/
def execExternalCommand (pid : ℕ) (ampersand : Bool) (wait : Wait) (s : Tables) : Except Stop Tables :=
  if ampersand then storeJobInfo pid 1 1 0 s
  else
    match wait with
    | .failed => .error .exited
    | .stopped => storeJobInfo pid 1 0 1 s
    | .exited => .ok s
    | .signalled => .ok s

/-- `execExternalJob` in the parent, whose first child has this `pid`, with one wait for each command. -/
def execExternalJob (pid : ℕ) (ampersand : Bool) (waits : List Wait) (s : Tables) : Except Stop Tables :=
  if ampersand then storeJobInfo (-pid) 1 1 0 s
  else if waits.contains .failed then .error .exited
  else if waits.contains .stopped then storeJobInfo (-pid) 1 0 1 s
  else .ok s

/-! ### Steps -/

/-- The commands and status updates, with the answers of `fork` and `waitpid`. -/
inductive Act
  | update (waitpid : ℕ → ℕ → Poll)
  | command (pid : ℕ) (ampersand : Bool) (wait : Wait)
  | pipeline (pid : ℕ) (ampersand : Bool) (waits : List Wait)
  | fg (arguments : List ℤ) (waits : List Wait)
  | bg (arguments : List ℤ)
  | jobs (waitpid : ℕ → ℕ → Poll) (arguments : List ℤ)

/-- **One step of the shell.**  The loop of `main` runs an update before each command. -/
def step (s : Tables) : Act → Except Stop Tables
  | .update waitpid => updateBackgroundJobStatus waitpid s
  | .command pid ampersand wait => execExternalCommand pid ampersand wait s
  | .pipeline pid ampersand waits => execExternalJob pid ampersand waits s
  | .fg arguments waits => execFgCommand arguments waits s
  | .bg arguments => execBgCommand arguments s
  | .jobs waitpid arguments => do
    let s ← updateBackgroundJobStatus waitpid s
    let _ ← execJobsCommand arguments s
    .ok s

/-- The steps that store a job: a launch in the background, and a foreground job that is stopped. -/
def Act.stores : Act → Bool
  | .command _ ampersand wait => ampersand || wait == .stopped
  | .pipeline _ ampersand waits => ampersand || (!waits.contains .failed && waits.contains .stopped)
  | _ => false

end OperatingSystems.Shell
