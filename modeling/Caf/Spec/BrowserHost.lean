import Mathlib.Data.Finset.Basic
import Mathlib.Logic.Function.Basic
import Caf.Run.Trace

/-!
# The browser host

`BrowserHost` starts a program, traces it with everything that it forks or clones, and waits until it ends. The main loop
is translated from its source; around it are processes that stop, fork and end whenever they run, a `wait` that reports
any one of them, and `ptrace`, which fails unless the process is stopped.
-/

namespace Caf

abbrev Pid := ℕ

/-! ## What is reported -/

inductive PtraceEvent where
  | fork | vfork | clone
  deriving DecidableEq

/-- `PTRACE_EVENT_FORK`, `PTRACE_EVENT_VFORK` and `PTRACE_EVENT_CLONE`. -/
def PtraceEvent.code : PtraceEvent → ℕ
  | fork => 1
  | vfork => 2
  | clone => 3

/-- A signal, as its number less one. -/
abbrev Signal := Fin 64

def sigtrap : Signal := 4

def sigstop : Signal := 18

/-- Why a process has stopped. -/
inductive PtraceStop where
  | signal (signal : Signal)
  | event (kind : PtraceEvent)
  deriving DecidableEq

/-- How a process has ended. -/
inductive Ending where
  | exited (code : Fin 256)
  | signaled (signal : Signal) (core : Bool)
  deriving DecidableEq

/-- What `wait` reports. -/
inductive Report where
  | stopped (stop : PtraceStop)
  | ended (ending : Ending)
  deriving DecidableEq

/-- The status that `wait` stores. -/
def Report.wstatus : Report → ℕ
  | ended (.exited code) => code.val <<< 8
  | ended (.signaled signal core) => (signal.val + 1) ||| (if core then 0x80 else 0)
  | stopped (.signal signal) => (signal.val + 1) <<< 8 ||| 0x7f
  | stopped (.event kind) => ((sigtrap.val + 1) ||| kind.code <<< 8) <<< 8 ||| 0x7f

/-- `IS_CLONE_PTRACE`, `IS_FORK_PTRACE` and `IS_VFORK_PTRACE`. -/
def isEventPtrace (kind : PtraceEvent) (status : ℕ) : Bool := status >>> 8 == ((sigtrap.val + 1) ||| kind.code <<< 8)

def wifexited (status : ℕ) : Bool := (status &&& 0x7f) == 0

/-- `WIFSIGNALED`, which adds one and halves as a `signed char`. -/
def wifsignaled (status : ℕ) : Bool := 0 < (Int8.ofNat ((status &&& 0x7f) + 1) >>> 1).toInt

/-! ## Processes -/

/-- A stop has been reported (`none`) or not. The end of a process has not, since no process is left then. -/
inductive ProcessState where
  | running
  | stopped (unreported : Option PtraceStop)
  | ended (ending : Ending)
  deriving DecidableEq

/-- `options` are set if the process stops for clones, forks and vforks, and the new process is traced, too. -/
structure Process where
  state : ProcessState
  options : Bool
  eventMessage : Pid
  deriving DecidableEq

abbrev Processes := Pid → Option Process

inductive PtraceRequest where
  | setOptions | getEventMsg | cont

/-- `ptrace`, with what it returns, or `none` for `-1`. -/
def ptrace (request : PtraceRequest) (pid : Pid) (processes : Processes) : Option (ℕ × Processes) :=
  match processes pid with
  | none => none
  | some p =>
    match p.state with
    | .stopped _ =>
      match request with
      | .setOptions => some (0, Function.update processes pid (some { p with options := true }))
      | .getEventMsg => some (p.eventMessage, processes)
      | .cont => some (0, Function.update processes pid (some { p with state := .running }))
    | _ => none

/-- What `wait` reports of a process, and what it leaves. -/
def Process.collect (p : Process) : Option (Report × Option Process) :=
  match p.state with
  | .stopped (some stop) => some (.stopped stop, some { p with state := .stopped none })
  | .ended ending => some (.ended ending, none)
  | _ => none

/-! ## The main loop -/

/-- Where the loop is: before `wait`, or before a request, after which it goes on. The loop is done after `break`, and it has
failed if a request or `wait` has. -/
inductive HostState where
  | wait
  | setOptions (pid : Pid)
  | getEventMsg (pid : Pid)
  | cont (pid : Pid)
  | done
  | failed
  deriving DecidableEq

/-- From `wait` to the first request. -/
def afterWait (childPid pid : Pid) (wstatus : ℕ) (pendingChildren : Finset Pid) : Finset Pid × HostState :=
  if pid ∈ pendingChildren then (pendingChildren.erase pid, .setOptions pid)
  else if isEventPtrace .clone wstatus || isEventPtrace .fork wstatus || isEventPtrace .vfork wstatus then
    (pendingChildren, .getEventMsg pid)
  else if wifexited wstatus || wifsignaled wstatus then
    if pid = childPid then (pendingChildren, .done) else (pendingChildren, .wait)
  else (pendingChildren, .cont pid)

structure World where
  processes : Processes
  pendingChildren : Finset Pid
  host : HostState

namespace World

/-- `call_ptrace`, with what is done with its result. -/
def callPtrace (w : World) (request : PtraceRequest) (pid : Pid) (next : ℕ → World → World) : World :=
  match ptrace request pid w.processes with
  | some (value, processes) => next value { w with processes := processes }
  | none => { w with host := .failed }

/-- The next request. -/
def request (w : World) : World :=
  match w.host with
  | .setOptions pid => w.callPtrace .setOptions pid fun _ w => { w with host := .cont pid }
  | .getEventMsg pid => w.callPtrace .getEventMsg pid fun newPid w =>
      { w with pendingChildren := insert newPid w.pendingChildren, host := .cont pid }
  | .cont pid => w.callPtrace .cont pid fun _ w => { w with host := .wait }
  | _ => w

/-- All requests up to the next `wait`. -/
def requests (w : World) : World :=
  match w.host with
  | .setOptions _ => w.request.request
  | .getEventMsg _ => w.request.request
  | .cont _ => w.request
  | _ => w

/-- The process that the next request is about. -/
def target (w : World) : Option Pid :=
  match w.host with
  | .setOptions pid => some pid
  | .getEventMsg pid => some pid
  | .cont pid => some pid
  | _ => none

/-- The program that has been started stops at its first instruction, and is expected. -/
def start (childPid : Pid) : World where
  processes := Function.update (fun _ => none) childPid (some ⟨.stopped (some (.signal sigtrap)), false, 0⟩)
  pendingChildren := {childPid}
  host := .wait

/-- A process changes. -/
def setProcess (w : World) (pid : Pid) (p : Process) : World :=
  { w with processes := Function.update w.processes pid (some p) }

end World

inductive Label where
  | process (pid : Pid)
  | wait (pid : Pid) (report : Report)
  | waitFails
  | request

/-- **The steps of the processes and of the host**, in any order. -/
inductive HostStep (childPid : Pid) : World → Label → World → Prop
  /-- A running process stops for a signal. -/
  | stop {w p} (pid : Pid) (signal : Signal) : w.processes pid = some p → p.state = .running →
      HostStep childPid w (.process pid) (w.setProcess pid { p with state := .stopped (some (.signal signal)) })
  /-- A running process makes a new one. Both stop. -/
  | event {w p} (pid newPid : Pid) (kind : PtraceEvent) : w.processes pid = some p → p.state = .running → p.options = true →
      w.processes newPid = none → HostStep childPid w (.process pid)
        ((w.setProcess pid { p with state := .stopped (some (.event kind)), eventMessage := newPid }).setProcess newPid
          ⟨.stopped (some (.signal sigstop)), p.options, 0⟩)
  /-- A running process exits, or is killed. -/
  | ends {w p} (pid : Pid) (ending : Ending) : w.processes pid = some p → p.state = .running →
      HostStep childPid w (.process pid) (w.setProcess pid { p with state := .ended ending })
  /-- `wait` reports any process of which there is something to report. -/
  | wait {w p report rest} (pid : Pid) : w.host = .wait → w.processes pid = some p → p.collect = some (report, rest) →
      HostStep childPid w (.wait pid report)
        ⟨Function.update w.processes pid rest, (afterWait childPid pid report.wstatus w.pendingChildren).1,
          (afterWait childPid pid report.wstatus w.pendingChildren).2⟩
  /-- There is nothing to wait for. -/
  | waitFails {w} : w.host = .wait → (∀ pid, w.processes pid = none) →
      HostStep childPid w .waitFails { w with host := .failed }
  | request {w pid} : w.target = some pid → HostStep childPid w .request w.request

/-- Runs of the host, in which every step is allowed. -/
abbrev HostRun (childPid : Pid) (allowed : World → Label → Prop) : List Label → World → Prop :=
  Run.Trace (HostStep childPid) allowed (.start childPid)

/-- **What is asked of the host**: no request fails and neither does `wait`, the requests to come continue the process that
has been reported stopped, and the loop is done only if the program has been reported to have ended. -/
structure Survives (childPid : Pid) (tr : List Label) (w : World) : Prop where
  noFailure : w.host ≠ .failed
  continued : ∀ pid p, w.processes pid = some p → p.state = .stopped none →
    w.requests.host = .wait ∧ ∃ q, w.requests.processes pid = some q ∧ q.state = .running
  ends : w.host = .done → ∃ ending, .wait childPid (.ended ending) ∈ tr

/-- The step does not report the end of a process in `pendingChildren`. -/
def ExpectedFirst (w : World) : Label → Prop
  | .wait pid (.ended _) => pid ∉ w.pendingChildren
  | _ => True

/-- A process is not reported before the event that announces it. -/
def AnnouncedFirst (w : World) : Label → Prop
  | .wait pid _ => ∀ q p kind, w.processes q = some p → p.state = .stopped (some (.event kind)) → p.eventMessage ≠ pid
  | _ => True

end Caf
