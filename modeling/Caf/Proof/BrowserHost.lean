import Mathlib.Tactic.Common
import Caf.Spec.BrowserHost

/-!
# What the browser host survives

Between two calls of `wait` the host is about to continue the one process that has been reported stopped. It takes the
first report of an announced process for its first stop, and asks for what fails if it is the end of the process.

* `host_survives`: runs in which no announced process ends before its first report.
* `announced_survives`: runs in which processes are announced before they are reported.
* `unexpected_fails`: what happens otherwise.
-/

namespace Caf

open Run

/-! ## Statuses -/

theorem isEventPtrace_signal (kind : PtraceEvent) (signal : Signal) :
    isEventPtrace kind (Report.stopped (.signal signal)).wstatus = false := by
  cases kind with
  | fork =>
    revert signal
    decide
  | vfork =>
    revert signal
    decide
  | clone =>
    revert signal
    decide

theorem isEventPtrace_event (kind kind' : PtraceEvent) :
    isEventPtrace kind (Report.stopped (.event kind')).wstatus = decide (kind = kind') := by
  cases kind <;> cases kind' <;> rfl

theorem isEventPtrace_ended (kind : PtraceEvent) (ending : Ending) :
    isEventPtrace kind (Report.ended ending).wstatus = false := by
  cases ending with
  | exited code =>
    -- the code has eight bits, and the event is above them
    have hevent : 256 ≤ (sigtrap.val + 1) ||| kind.code <<< 8 := by cases kind <;> decide
    have hcode := code.isLt
    simp only [isEventPtrace, Report.wstatus, Nat.shiftLeft_shiftRight, beq_eq_false_iff_ne]
    omega
  | signaled signal core =>
    cases kind with
    | fork =>
      revert signal core
      decide
    | vfork =>
      revert signal core
      decide
    | clone =>
      revert signal core
      decide

theorem stopped_not_ended (stop : PtraceStop) :
    (wifexited (Report.stopped stop).wstatus || wifsignaled (Report.stopped stop).wstatus) = false := by
  cases stop with
  | signal signal =>
    revert signal
    decide
  | event kind => cases kind <;> rfl

theorem ended_ended (ending : Ending) :
    (wifexited (Report.ended ending).wstatus || wifsignaled (Report.ended ending).wstatus) = true := by
  cases ending with
  | exited code =>
    revert code
    decide +kernel
  | signaled signal core =>
    revert signal core
    decide

section AfterWait

variable {childPid pid : Pid} {pendingChildren : Finset Pid}

theorem afterWait_pending (h : pid ∈ pendingChildren) (wstatus : ℕ) :
    afterWait childPid pid wstatus pendingChildren = (pendingChildren.erase pid, .setOptions pid) := by
  unfold afterWait
  rw [if_pos h]

/-- No other child is awaited than before. -/
theorem afterWait_same (h : pid ∉ pendingChildren) (wstatus : ℕ) :
    (afterWait childPid pid wstatus pendingChildren).1 = pendingChildren := by
  unfold afterWait
  rw [if_neg h]
  split
  · rfl
  · split
    · split <;> rfl
    · rfl

theorem afterWait_signal (h : pid ∉ pendingChildren) (signal : Signal) :
    afterWait childPid pid (Report.stopped (.signal signal)).wstatus pendingChildren =
      (pendingChildren, .cont pid) := by
  unfold afterWait
  rw [if_neg h, isEventPtrace_signal, isEventPtrace_signal, isEventPtrace_signal, stopped_not_ended]
  rfl

theorem afterWait_event (h : pid ∉ pendingChildren) (kind : PtraceEvent) :
    afterWait childPid pid (Report.stopped (.event kind)).wstatus pendingChildren =
      (pendingChildren, .getEventMsg pid) := by
  unfold afterWait
  rw [if_neg h, isEventPtrace_event, isEventPtrace_event, isEventPtrace_event]
  cases kind <;> rfl

theorem afterWait_ended (h : pid ∉ pendingChildren) (ending : Ending) :
    afterWait childPid pid (Report.ended ending).wstatus pendingChildren =
      (pendingChildren, if pid = childPid then .done else .wait) := by
  unfold afterWait
  rw [if_neg h, isEventPtrace_ended, isEventPtrace_ended, isEventPtrace_ended, ended_ended]
  by_cases hchild : pid = childPid
  · simp [hchild]
  · simp [hchild]

end AfterWait

/-! ## Requests -/

section Requests

variable {w : World} {pid : Pid} {p : Process} {stop : Option PtraceStop}

theorem request_setOptions (hhost : w.host = .setOptions pid) (hp : w.processes pid = some p)
    (hs : p.state = .stopped stop) :
    w.request = { w with
      processes := Function.update w.processes pid (some { p with options := true }), host := .cont pid } := by
  simp only [World.request, hhost, World.callPtrace, ptrace, hp, hs]

theorem request_getEventMsg (hhost : w.host = .getEventMsg pid) (hp : w.processes pid = some p)
    (hs : p.state = .stopped stop) :
    w.request = { w with pendingChildren := insert p.eventMessage w.pendingChildren, host := .cont pid } := by
  simp only [World.request, hhost, World.callPtrace, ptrace, hp, hs]

theorem request_cont (hhost : w.host = .cont pid) (hp : w.processes pid = some p) (hs : p.state = .stopped stop) :
    w.request = { w with
      processes := Function.update w.processes pid (some { p with state := .running }), host := .wait } := by
  simp only [World.request, hhost, World.callPtrace, ptrace, hp, hs]

/-- The three requests. -/
theorem target_eq (h : w.target = some pid) :
    w.host = .setOptions pid ∨ w.host = .getEventMsg pid ∨ w.host = .cont pid := by
  unfold World.target at h
  cases hhost : w.host with
  | setOptions q =>
    rw [hhost] at h
    cases h
    exact .inl rfl
  | getEventMsg q =>
    rw [hhost] at h
    cases h
    exact .inr (.inl rfl)
  | cont q =>
    rw [hhost] at h
    cases h
    exact .inr (.inr rfl)
  | wait =>
    rw [hhost] at h
    cases h
  | done =>
    rw [hhost] at h
    cases h
  | failed =>
    rw [hhost] at h
    cases h

/-- **The requests continue the process** that they are about, if it is stopped. -/
theorem requests_continue (h : w.target = some pid) (hp : w.processes pid = some p) (hs : p.state = .stopped stop) :
    w.requests.host = .wait ∧ ∃ q, w.requests.processes pid = some q ∧ q.state = .running := by
  have hcont : ∀ (v : World) (q : Process), v.host = .cont pid → v.processes pid = some q → q.state = .stopped stop →
      v.request.host = .wait ∧ ∃ r, v.request.processes pid = some r ∧ r.state = .running := by
    intro v q hv hq hqs
    rw [request_cont hv hq hqs]
    exact ⟨rfl, { q with state := .running }, Function.update_self .., rfl⟩
  unfold World.requests
  rcases target_eq h with hhost | hhost | hhost
  · simp only [hhost]
    rw [request_setOptions hhost hp hs]
    exact hcont _ { p with options := true } rfl (Function.update_self ..) hs
  · simp only [hhost]
    rw [request_getEventMsg hhost hp hs]
    exact hcont _ p rfl hp hs
  · simp only [hhost]
    exact hcont w p hhost hp hs

/-- What `wait` reports has either stopped or ended. -/
theorem collect_cases {report : Report} {rest : Option Process} (hc : p.collect = some (report, rest)) :
    (∃ stop, report = .stopped stop ∧ rest = some { p with state := .stopped none }) ∨
      ∃ ending, report = .ended ending ∧ rest = none ∧ p.state = .ended ending := by
  unfold Process.collect at hc
  split at hc
  · cases hc
    exact .inl ⟨_, rfl, rfl⟩
  · cases hc
    exact .inr ⟨_, rfl, rfl, by assumption⟩
  · cases hc

end Requests

/-! ## The invariant -/

/-- The host is about to make requests of the one process that has been reported stopped, and the program has not been
reported to have ended before the loop is done. -/
structure HostInvariant (childPid : Pid) (tr : List Label) (w : World) : Prop where
  noFailure : w.host ≠ .failed
  target : ∀ pid, w.target = some pid → ∃ p, w.processes pid = some p ∧ p.state = .stopped none
  only : ∀ pid p, w.processes pid = some p → p.state = .stopped none → w.target = some pid
  child : w.host ≠ .done → ∃ p, w.processes childPid = some p
  ends : w.host = .done → ∃ ending, .wait childPid (.ended ending) ∈ tr

namespace HostInvariant

variable {childPid pid : Pid} {tr : List Label} {w w' : World} {l : Label} {p : Process}

theorem survives (h : HostInvariant childPid tr w) : Survives childPid tr w :=
  ⟨h.noFailure, fun pid p hp hs => requests_continue (h.only pid p hp hs) hp hs, h.ends⟩

theorem start (childPid : Pid) : HostInvariant childPid [] (.start childPid) := by
  refine ⟨by simp [World.start], by simp [World.start, World.target], fun pid p hp hs => ?_,
    fun _ => by simp [World.start], by simp [World.start]⟩
  simp only [World.start, Function.update_apply] at hp
  split at hp
  · cases hp
    cases hs
  · cases hp

/-- One more step. -/
theorem mono (h : HostInvariant childPid tr w) : HostInvariant childPid (tr ++ [l]) w := by
  refine ⟨h.noFailure, h.target, h.only, h.child, fun hdone => ?_⟩
  obtain ⟨ending, hending⟩ := h.ends hdone
  exact ⟨ending, List.mem_append_left _ hending⟩

/-- A process that has not been reported stopped changes, and is not reported. -/
theorem setProcess (h : HostInvariant childPid tr w) (hold : ∀ q, w.processes pid = some q → q.state ≠ .stopped none)
    (hnew : p.state ≠ .stopped none) : HostInvariant childPid tr (w.setProcess pid p) := by
  refine ⟨h.noFailure, fun q hq => ?_, fun q r hr hs => ?_, fun hdone => ?_, h.ends⟩
  · obtain ⟨r, hr, hs⟩ := h.target q hq
    have hne : q ≠ pid := by
      rintro rfl
      exact hold r hr hs
    exact ⟨r, by simpa [World.setProcess, Function.update_of_ne hne] using hr, hs⟩
  · simp only [World.setProcess, Function.update_apply] at hr
    split at hr
    · cases hr
      exact absurd hs hnew
    · exact h.only q r hr hs
  · obtain ⟨r, hr⟩ := h.child hdone
    by_cases hq : childPid = pid
    · exact ⟨p, by simp [World.setProcess, hq]⟩
    · exact ⟨r, by simpa [World.setProcess, Function.update_of_ne hq] using hr⟩

/-- **A request** is made of a stopped process. -/
theorem request (h : HostInvariant childPid tr w) (ht : w.target = some pid) :
    HostInvariant childPid (tr ++ [.request]) w.request := by
  obtain ⟨p, hp, hs⟩ := h.target pid ht
  have hdone : w.host ≠ .done := by
    intro hhost
    unfold World.target at ht
    rw [hhost] at ht
    cases ht
  -- requests do not remove processes
  have hchild : ∀ q, ∃ r, Function.update w.processes pid (some q) childPid = some r := by
    intro q
    obtain ⟨r, hr⟩ := h.child hdone
    by_cases heq : childPid = pid
    · exact ⟨q, by simp [heq]⟩
    · exact ⟨r, by rw [Function.update_of_ne heq, hr]⟩
  rcases target_eq ht with hhost | hhost | hhost
  · rw [request_setOptions hhost hp hs]
    refine ⟨by simp, fun q hq => ?_, fun q r hr hrs => ?_, fun _ => hchild _, by simp⟩
    · cases hq
      exact ⟨_, Function.update_self .., hs⟩
    · by_cases heq : q = pid
      · rw [heq]
        rfl
      · simp only [Function.update_of_ne heq] at hr
        have htarget := h.only q r hr hrs
        rw [ht] at htarget
        exact htarget
  · rw [request_getEventMsg hhost hp hs]
    refine ⟨by simp, fun q hq => ?_, fun q r hr hrs => ?_, fun _ => h.child hdone, by simp⟩
    · cases hq
      exact ⟨p, hp, hs⟩
    · have htarget := h.only q r hr hrs
      rw [ht] at htarget
      exact htarget
  · rw [request_cont hhost hp hs]
    refine ⟨by simp, fun q hq => (by cases hq), fun q r hr hrs => ?_, fun _ => hchild _, by simp⟩
    by_cases heq : q = pid
    · subst heq
      simp only [Function.update_self, Option.some.injEq] at hr
      subst hr
      cases hrs
    · simp only [Function.update_of_ne heq] at hr
      have htarget := h.only q r hr hrs
      rw [ht] at htarget
      cases htarget
      exact absurd rfl heq

/-- While the host waits, no process has been reported stopped. -/
theorem not_reported {q : Pid} {r : Process} (h : HostInvariant childPid tr w) (hwait : w.host = .wait)
    (hr : w.processes q = some r) : r.state ≠ .stopped none := by
  intro hrs
  have htarget := h.only q r hr hrs
  unfold World.target at htarget
  rw [hwait] at htarget
  cases htarget

/-- **A stop** is reported to a host that continues the process next. -/
theorem waitStopped {pendingChildren : Finset Pid} {host : HostState} (h : HostInvariant childPid tr w)
    (hwait : w.host = .wait)
    (hhost : host = .setOptions pid ∨ host = .getEventMsg pid ∨ host = .cont pid) (hp : p.state = .stopped none) :
    HostInvariant childPid (tr ++ [l]) ⟨Function.update w.processes pid (some p), pendingChildren, host⟩ := by
  have htarget : World.target ⟨Function.update w.processes pid (some p), pendingChildren, host⟩ = some pid := by
    rcases hhost with rfl | rfl | rfl <;> rfl
  refine ⟨?_, fun q hq => ?_, fun q r hr hrs => ?_, fun _ => ?_, fun hdone => ?_⟩
  · rcases hhost with rfl | rfl | rfl <;> simp
  · rw [htarget] at hq
    cases hq
    exact ⟨p, Function.update_self .., hp⟩
  · by_cases heq : q = pid
    · rw [heq, htarget]
    · simp only [Function.update_of_ne heq] at hr
      exact absurd hrs (h.not_reported hwait hr)
  · obtain ⟨r, hr⟩ := h.child (by rw [hwait]; simp)
    by_cases heq : childPid = pid
    · exact ⟨p, by simp [heq]⟩
    · exact ⟨r, by simpa [Function.update_of_ne heq] using hr⟩
  · simp only at hdone
    rcases hhost with rfl | rfl | rfl <;> cases hdone

/-- **The end of a process** that is not expected to be reported first. -/
theorem waitEnded {ending : Ending} (h : HostInvariant childPid tr w) (hwait : w.host = .wait) :
    HostInvariant childPid (tr ++ [.wait pid (.ended ending)])
      ⟨Function.update w.processes pid none, w.pendingChildren, if pid = childPid then .done else .wait⟩ := by
  refine ⟨by split <;> simp, fun q hq => ?_, fun q r hr hrs => ?_, fun hdone => ?_, fun hdone => ?_⟩
  · have hnot : World.target ⟨Function.update w.processes pid none, w.pendingChildren,
        if pid = childPid then .done else .wait⟩ = none := by
      unfold World.target
      by_cases heq : pid = childPid
      · simp [heq]
      · simp [heq]
    rw [hnot] at hq
    cases hq
  · exfalso
    by_cases heq : q = pid
    · simp [heq] at hr
    · simp only [Function.update_of_ne heq] at hr
      exact absurd hrs (h.not_reported hwait hr)
  · obtain ⟨r, hr⟩ := h.child (by rw [hwait]; simp)
    have hne : childPid ≠ pid := by
      rintro rfl
      simp at hdone
    exact ⟨r, by simpa [Function.update_of_ne hne] using hr⟩
  · by_cases heq : pid = childPid
    · subst heq
      exact ⟨ending, List.mem_append_right _ (List.mem_singleton.2 rfl)⟩
    · simp [heq] at hdone

/-- **Every step keeps the invariant**, unless it reports the end of a pending child. -/
theorem step (h : HostInvariant childPid tr w) (hl : ExpectedFirst w l) (hstep : HostStep childPid w l w') :
    HostInvariant childPid (tr ++ [l]) w' := by
  -- a running process has not been reported stopped
  have hrunning : ∀ {pid p}, w.processes pid = some p → p.state = .running →
      ∀ q, w.processes pid = some q → q.state ≠ .stopped none := by
    intro pid p hp hs q hq
    rw [hp] at hq
    cases hq
    rw [hs]
    simp
  cases hstep with
  | stop pid signal hp hs => exact (h.setProcess (hrunning hp hs) (by simp)).mono
  | @event p pid newPid kind hp hs hoptions hnew =>
    have hparent := h.setProcess (p := { p with state := .stopped (some (.event kind)), eventMessage := newPid })
      (hrunning hp hs) (by simp)
    refine (hparent.setProcess (fun q hq => ?_) (by simp)).mono
    have hne : newPid ≠ pid := by
      rintro rfl
      rw [hnew] at hp
      cases hp
    simp only [World.setProcess, Function.update_of_ne hne, hnew] at hq
    cases hq
  | ends pid ending hp hs => exact (h.setProcess (hrunning hp hs) (by simp)).mono
  | @wait p report rest pid hwait hp hc =>
    rcases collect_cases hc with ⟨stop, rfl, rfl⟩ | ⟨ending, rfl, rfl, -⟩
    · by_cases hpending : pid ∈ w.pendingChildren
      · rw [afterWait_pending hpending]
        exact h.waitStopped hwait (.inl rfl) rfl
      · cases stop with
        | signal signal =>
          rw [afterWait_signal hpending]
          exact h.waitStopped hwait (.inr (.inr rfl)) rfl
        | event kind =>
          rw [afterWait_event hpending]
          exact h.waitStopped hwait (.inr (.inl rfl)) rfl
    · rw [afterWait_ended hl]
      exact h.waitEnded hwait
  | waitFails hwait hnone =>
    obtain ⟨p, hp⟩ := h.child (by rw [hwait]; simp)
    rw [hnone] at hp
    cases hp
  | request ht => exact h.request ht

end HostInvariant

variable {childPid : Pid} {tr : List Label} {w w' : World}

/-- **The host survives every run in which no announced process ends before its first report**: in every state reached, no
request has failed, the process that has been reported stopped is continued next, and the loop is done only when the
program has ended. -/
theorem host_survives (h : HostRun childPid ExpectedFirst tr w) : Survives childPid tr w := by
  have hinv : HostInvariant childPid tr w :=
    h.invariant (.start childPid) fun tr w l w' hI hl hstep => hI.step hl hstep
  exact hinv.survives

/-- A run with a fork: the host sees the new process start and end, and then the program. -/
theorem forked_survives : ∃ tr w, HostRun 100 ExpectedFirst tr w ∧ w.host = .done ∧ Survives 100 tr w := by
  have h₁ : HostRun 100 ExpectedFirst _ _ := .next .start (by exact trivial) (.wait 100 rfl rfl rfl)
  have h₂ := (h₁.next (by exact trivial) (.request rfl)).next (by exact trivial) (.request rfl)
  have h₃ := h₂.next (by exact trivial) (.event 100 101 .fork rfl rfl rfl rfl)
  have h₄ := h₃.next (by exact trivial) (.wait 100 rfl rfl rfl)
  have h₅ := (h₄.next (by exact trivial) (.request rfl)).next (by exact trivial) (.request rfl)
  have h₆ := h₅.next (by exact trivial) (.wait 101 rfl rfl rfl)
  have h₇ := (h₆.next (by exact trivial) (.request rfl)).next (by exact trivial) (.request rfl)
  have h₈ := h₇.next (by exact trivial) (.ends 101 (.exited 0) rfl rfl)
  have h₉ := h₈.next (by simp only [ExpectedFirst]; decide) (.wait 101 rfl rfl rfl)
  have h₁₀ := h₉.next (by exact trivial) (.ends 100 (.exited 0) rfl rfl)
  have h₁₁ := h₁₀.next (by simp only [ExpectedFirst]; decide) (.wait 100 rfl rfl rfl)
  exact ⟨_, _, h₁₁, rfl, host_survives h₁₁⟩

/-- **A process that is reported before its announcement** is expected after it has been continued. When it ends next, a
request fails. -/
theorem overtaken_fails : ∃ tr w, HostRun 100 (fun _ _ => True) tr w ∧ w.host = .failed ∧ ¬ Survives 100 tr w := by
  have h₁ : HostRun 100 (fun _ _ => True) _ _ := .next .start trivial (.wait 100 rfl rfl rfl)
  have h₂ := (h₁.next trivial (.request rfl)).next trivial (.request rfl)
  have h₃ := h₂.next trivial (.event 100 101 .fork rfl rfl rfl rfl)
  have h₄ := h₃.next trivial (.wait 101 rfl rfl rfl)
  have h₅ := h₄.next trivial (.request rfl)
  have h₆ := h₅.next trivial (.wait 100 rfl rfl rfl)
  have h₇ := (h₆.next trivial (.request rfl)).next trivial (.request rfl)
  have h₈ := h₇.next trivial (.ends 101 (.exited 0) rfl rfl)
  have h₉ := h₈.next trivial (.wait 101 rfl rfl rfl)
  have h₁₀ := h₉.next trivial (.request rfl)
  exact ⟨_, _, h₁₀, rfl, fun hs => hs.noFailure rfl⟩

/-- **An announced process that ends before its first report makes a request fail.** -/
theorem unexpected_fails {pid : Pid} {ending : Ending} (h : HostStep childPid w (.wait pid (.ended ending)) w')
    (hpending : pid ∈ w.pendingChildren) : HostStep childPid w' .request { w' with host := .failed } := by
  cases h with
  | wait pid hwait hp hc =>
    rw [afterWait_pending hpending]
    rcases collect_cases hc with ⟨stop, hstop, -⟩ | ⟨ending, -, rfl, -⟩
    · cases hstop
    · have hgone : (World.request
        ⟨Function.update w.processes pid none, w.pendingChildren.erase pid, .setOptions pid⟩) =
          ⟨Function.update w.processes pid none, w.pendingChildren.erase pid, .failed⟩ := by
        simp [World.request, World.callPtrace, ptrace]
      dsimp only
      rw [← hgone]
      exact .request rfl

/-! ## Announcements in order -/

/-- The process is stopped, and `wait` has not said so. -/
def Awaits (processes : Processes) (pid : Pid) : Prop :=
  ∃ p stop, processes pid = some p ∧ p.state = .stopped (some stop)

theorem Awaits.update {processes : Processes} {pid q : Pid} {o : Option Process} (h : Awaits processes q)
    (hne : q ≠ pid) :
    Awaits (Function.update processes pid o) q := by
  obtain ⟨p, stop, hp, hs⟩ := h
  exact ⟨p, stop, by rw [Function.update_of_ne hne, hp], hs⟩

/-- What has been announced, or is going to be, has not been reported. -/
structure InOrder (w : World) : Prop where
  pending : ∀ pid ∈ w.pendingChildren, Awaits w.processes pid
  events : ∀ q p kind, w.processes q = some p → p.state = .stopped (some (.event kind)) →
    Awaits w.processes p.eventMessage
  message : ∀ pid, w.host = .getEventMsg pid → ∃ p, w.processes pid = some p ∧ p.state = .stopped none ∧
    Awaits w.processes p.eventMessage

namespace InOrder

variable {pid : Pid} {p q : Process}

theorem start (childPid : Pid) : InOrder (.start childPid) := by
  refine ⟨fun pid hpid => ?_, fun q p kind hp hs => ?_, fun pid hhost => by cases hhost⟩
  · cases Finset.mem_singleton.1 hpid
    exact ⟨_, _, by simp only [World.start, Function.update_self]; rfl, rfl⟩
  · simp only [World.start, Function.update_apply] at hp
    split at hp
    · cases hp
      cases hs
    · cases hp

/-- A process changes that is not awaited: what is awaited still is. -/
theorem setProcess (h : InOrder w) (hold : ∀ q, w.processes pid = some q → q.state = .running)
    (hnew : ∀ kind, p.state = .stopped (some (.event kind)) → Awaits (w.setProcess pid p).processes p.eventMessage) :
    InOrder (w.setProcess pid p) := by
  have hkeep : ∀ x, Awaits w.processes x → Awaits (w.setProcess pid p).processes x := by
    intro x hx
    refine hx.update ?_
    rintro rfl
    obtain ⟨q, stop, hq, hs⟩ := hx
    rw [hold q hq] at hs
    cases hs
  refine ⟨fun x hx => hkeep x (h.pending x hx), fun x r kind hr hs => ?_, fun x hhost => ?_⟩
  · simp only [World.setProcess, Function.update_apply] at hr
    split at hr
    · cases hr
      exact hnew kind hs
    · exact hkeep _ (h.events x r kind hr hs)
  · obtain ⟨r, hr, hs, hmessage⟩ := h.message x hhost
    have hne : x ≠ pid := by
      rintro rfl
      rw [hold r hr] at hs
      cases hs
    exact ⟨r, by simpa [World.setProcess, Function.update_of_ne hne] using hr, hs, hkeep _ hmessage⟩

/-- A report of a process that no event is going to announce. -/
theorem wait {report : Report} {rest : Option Process} (h : InOrder w)
    (hl : AnnouncedFirst w (.wait pid report)) (hp : w.processes pid = some p) (hc : p.collect = some (report, rest)) :
    InOrder ⟨Function.update w.processes pid rest, (afterWait childPid pid report.wstatus w.pendingChildren).1,
      (afterWait childPid pid report.wstatus w.pendingChildren).2⟩ := by
  have hrest : ∀ r, rest = some r → r = { p with state := .stopped none } := by
    intro r hr
    rcases collect_cases hc with ⟨stop, -, rfl⟩ | ⟨ending, -, rfl, -⟩
    · cases hr
      rfl
    · cases hr
  refine ⟨fun x hx => ?_, fun x r kind hr hs => ?_, fun x hx => ?_⟩
  · by_cases hpending : pid ∈ w.pendingChildren
    · rw [afterWait_pending hpending] at hx
      obtain ⟨hne, hx⟩ := Finset.mem_erase.1 hx
      exact (h.pending x hx).update hne
    · rw [afterWait_same hpending] at hx
      refine (h.pending x hx).update ?_
      rintro rfl
      exact hpending hx
  · simp only [Function.update_apply] at hr
    split at hr
    · rw [hrest r hr] at hs
      cases hs
    · exact (h.events x r kind hr hs).update (hl x r kind hr hs)
  · -- the host asks for a message only if the event has been reported
    by_cases hpending : pid ∈ w.pendingChildren
    · rw [afterWait_pending hpending] at hx
      cases hx
    · rcases collect_cases hc with ⟨stop, rfl, rfl⟩ | ⟨ending, rfl, rfl, -⟩
      · cases stop with
        | signal signal =>
          rw [afterWait_signal hpending] at hx
          cases hx
        | event kind =>
          rw [afterWait_event hpending] at hx
          cases hx
          have hs : p.state = .stopped (some (.event kind)) := by
            unfold Process.collect at hc
            split at hc
            · cases hc
              assumption
            · cases hc
            · cases hc
          exact ⟨_, Function.update_self .., rfl, (h.events pid p kind hp hs).update (hl pid p kind hp hs)⟩
      · rw [afterWait_ended hpending] at hx
        simp only at hx
        split at hx
        · cases hx
        · cases hx

/-- A request of a stopped process. -/
theorem request (h : InOrder w) (hI : HostInvariant childPid tr w) (ht : w.target = some pid) : InOrder w.request := by
  obtain ⟨p, hp, hs⟩ := hI.target pid ht
  -- the process that is written to has stopped and been reported, so nothing awaits it
  have hkeep : ∀ x q, Awaits w.processes x → Awaits (Function.update w.processes pid (some q)) x := by
    intro x q hx
    refine hx.update ?_
    rintro rfl
    obtain ⟨r, stop, hr, hrs⟩ := hx
    rw [hp] at hr
    cases hr
    rw [hs] at hrs
    cases hrs
  have hevents : ∀ q : Process, (∀ kind, q.state ≠ .stopped (some (.event kind))) →
      ∀ x r kind, Function.update w.processes pid (some q) x = some r → r.state = .stopped (some (.event kind)) →
        Awaits (Function.update w.processes pid (some q)) r.eventMessage := by
    intro q hq x r kind hr hrs
    rw [Function.update_apply] at hr
    split at hr
    · cases hr
      exact absurd hrs (hq kind)
    · exact hkeep _ _ (h.events x r kind hr hrs)
  rcases target_eq ht with hhost | hhost | hhost
  · rw [request_setOptions hhost hp hs]
    exact ⟨fun x hx => hkeep x _ (h.pending x hx), hevents _ (by simp [hs]), fun x hx => by cases hx⟩
  · rw [request_getEventMsg hhost hp hs]
    refine ⟨fun x hx => ?_, h.events, fun x hx => by cases hx⟩
    rcases Finset.mem_insert.1 hx with rfl | hx
    · obtain ⟨q, hq, -, hmessage⟩ := h.message pid hhost
      rw [hp] at hq
      cases hq
      exact hmessage
    · exact h.pending x hx
  · rw [request_cont hhost hp hs]
    exact ⟨fun x hx => hkeep x _ (h.pending x hx), hevents _ (by simp), fun x hx => by cases hx⟩

theorem step {l : Label} (h : InOrder w) (hI : HostInvariant childPid tr w) (hl : AnnouncedFirst w l)
    (hstep : HostStep childPid w l w') : ExpectedFirst w l ∧ InOrder w' := by
  have hrunning : ∀ {pid p}, w.processes pid = some p → p.state = .running →
      ∀ q, w.processes pid = some q → q.state = .running := by
    intro pid p hp hs q hq
    rw [hp] at hq
    cases hq
    exact hs
  cases hstep with
  | stop pid signal hp hs => exact ⟨trivial, h.setProcess (hrunning hp hs) (by simp)⟩
  | @event p pid newPid kind hp hs hoptions hnew =>
    have hne : pid ≠ newPid := by
      rintro rfl
      rw [hnew] at hp
      cases hp
    let child : Process := ⟨.stopped (some (.signal sigstop)), p.options, 0⟩
    let parent : Process := { p with state := .stopped (some (.event kind)), eventMessage := newPid }
    have hchild : InOrder (w.setProcess newPid child) := by
      refine h.setProcess (fun q hq => ?_) (by simp [child])
      rw [hnew] at hq
      cases hq
    -- the new process is there before its announcement is
    have hparent : InOrder ((w.setProcess newPid child).setProcess pid parent) := by
      refine hchild.setProcess (fun q hq => ?_) fun _ _ => ⟨child, .signal sigstop, ?_, rfl⟩
      · simp only [World.setProcess, Function.update_of_ne hne] at hq
        exact hrunning hp hs q hq
      · simp only [World.setProcess, parent, Function.update_of_ne hne.symm, Function.update_self]
    have hcomm : (w.setProcess newPid child).setProcess pid parent =
      (w.setProcess pid parent).setProcess newPid child := by
      unfold World.setProcess
      dsimp only
      rw [Function.update_comm hne]
    exact ⟨trivial, hcomm ▸ hparent⟩
  | ends pid ending hp hs => exact ⟨trivial, h.setProcess (hrunning hp hs) (by simp)⟩
  | @wait p report rest pid hwait hp hc =>
    refine ⟨?_, h.wait hl hp hc⟩
    cases report with
    | stopped stop => trivial
    | ended ending =>
      intro hpending
      obtain ⟨q, stop, hq, hs⟩ := h.pending pid hpending
      rw [hp] at hq
      cases hq
      unfold Process.collect at hc
      rw [hs] at hc
      cases hc
  | waitFails hwait hnone => exact ⟨trivial, h.pending, h.events, fun x hx => by cases hx⟩
  | request ht => exact ⟨trivial, h.request hI ht⟩

end InOrder

/-- **The host survives every run in which processes are announced before they are reported.** -/
theorem announced_survives (h : HostRun childPid AnnouncedFirst tr w) : Survives childPid tr w := by
  have hboth : HostRun childPid ExpectedFirst tr w ∧ HostInvariant childPid tr w ∧ InOrder w := by
    refine h.strengthen (I := fun tr w => HostInvariant childPid tr w ∧ InOrder w)
      ⟨.start childPid, .start childPid⟩ ?_
    rintro tr w l w' ⟨hI, horder⟩ hl hstep
    obtain ⟨hexpected, horder'⟩ := horder.step hI hl hstep
    exact ⟨hexpected, hI.step hexpected hstep, horder'⟩
  exact hboth.2.1.survives

end Caf
