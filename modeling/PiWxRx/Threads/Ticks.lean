import PiWxRx.Threads.Shutdown

/-!
# Timer ticks

The timer ticks every 30 ms, and the timer thread is to read the pipe once for each tick. It waits
on `timer_wait_cond` without a counter or a flag, and a signal has an effect only on a thread that
waits: a tick that finds the thread elsewhere is never made up for.

Each tick heard is a read, made or about to be made (`pending_step`). So whenever the thread is back
waiting, it has made as many reads as there were ticks exactly if it was waiting at each of them
(`reads_eq_ticks_iff`).
-/

namespace PiWxRx

open Runs

/-- The calls of `RTL_timer_signal` in a run. -/
def ticks (as : List RtlAction) : ℕ := as.count .tick

/-- The step is a call of `ReadFromPipe`. -/
def RtlAction.isRead : RtlAction → Bool
  | .timerRead _ => true
  | _ => false

/-- The calls of `ReadFromPipe` in a run. -/
def reads (as : List RtlAction) : ℕ := as.countP RtlAction.isRead

/-- A tick finds the timer thread waiting for it. -/
def TickHeard (s : Rtl) (a : RtlAction) : Prop := a = .tick → s.timer = .waiting

/-- The timer thread has been woken up and is about to read: `1`, else `0`. -/
def pendingReads (s : Rtl) : ℕ := if s.timer = .read then 1 else 0

/-- A tick that is heard makes a read pending, and the read takes it back. -/
theorem pending_step {s t : Rtl} {a : RtlAction} (hc : s.Consistent)
    (hst : rtlStep s a = some t) :
    (if a.isRead then 1 else 0) + pendingReads t =
      pendingReads s + if a = .tick ∧ s.timer = .waiting then 1 else 0 := by
  have habsent := hc.absent_iff
  cases a with
  | timerDemod =>
    obtain ⟨samples, hdemod, rfl⟩ := rtlStep_timerDemod hst
    simp [RtlAction.isRead, pendingReads, hdemod]
  | _ =>
    simp only [rtlStep, Option.ite_none_right_eq_some, Option.some.injEq] at hst
    obtain ⟨hg, rfl⟩ := hst
    grind [TimerPc.signal, RunPc.signal, RtlAction.isRead, pendingReads]

/-- The reads made and pending are no more than the ticks, and as many exactly if every tick was
heard. -/
theorem reads_add_pending {buffer : Vector RtlSample sampleBfrsiz} {as : List RtlAction} {s : Rtl}
    (h : run rtlStep (Rtl.start buffer) as = some s) :
    reads as + pendingReads s ≤ ticks as ∧
      (reads as + pendingReads s = ticks as ↔
        Along rtlStep TickHeard (Rtl.start buffer) as) := by
  induction as using List.reverseRecOn generalizing s with
  | nil =>
    obtain rfl : Rtl.start buffer = s := Option.some.inj h
    exact ⟨le_rfl, iff_of_true rfl along_nil⟩
  | append_singleton as a ih =>
    rw [run_concat, Option.bind_eq_some_iff] at h
    obtain ⟨u, hu, hst⟩ := h
    obtain ⟨hle, hiff⟩ := ih hu
    -- a step adds the same to both sides, but for a tick that finds no one waiting
    have hpending := pending_step (consistent_of_run hu) hst
    have hreads : reads (as ++ [a]) = reads as + if a.isRead then 1 else 0 := by
      simp [reads, List.countP_append, List.countP_singleton]
    have hticks : ticks (as ++ [a]) = ticks as + if a = .tick then 1 else 0 := by
      simp [ticks, List.count_append, List.count_singleton]
    have hheard : (∀ t, run rtlStep (Rtl.start buffer) as = some t → TickHeard t a) ↔
        (a = .tick → u.timer = .waiting) := by
      rw [hu]
      exact ⟨fun h => h u rfl, fun h t ht => Option.some.inj ht ▸ h⟩
    rw [along_concat, ← hiff, hreads, hticks, hheard]
    clear hreads hticks
    rcases eq_or_ne a .tick with rfl | htick
    · by_cases hwait : u.timer = .waiting <;> simp [hwait, RtlAction.isRead] at hpending ⊢ <;> omega
    · simp only [htick, false_and, if_false, IsEmpty.forall_iff, and_true] at hpending ⊢
      omega

/-- **No lost tick.** In every state a run reaches with the timer thread back on `timer_wait_cond`,
the calls of `ReadFromPipe` are as many as the ticks exactly if every tick of the run found the
thread waiting. -/
theorem reads_eq_ticks_iff (buffer : Vector RtlSample sampleBfrsiz) {as : List RtlAction} {s : Rtl}
    (h : run rtlStep (Rtl.start buffer) as = some s) (hwait : s.timer = .waiting) :
    reads as = ticks as ↔ Along rtlStep TickHeard (Rtl.start buffer) as := by
  rw [← (reads_add_pending h).2, pendingReads, if_neg (by simp [hwait]), Nat.add_zero]

/-- One tick at the right moment is one read. -/
theorem reads_eq_ticks_one :
    reads [.runCreate, .runArm, .timerTest, .timerWait, .tick, .timerRead [], .timerTest,
      .timerWait] = 1 ∧
      Along rtlStep TickHeard (Rtl.start (Vector.replicate sampleBfrsiz 0))
        [.runCreate, .runArm, .timerTest, .timerWait, .tick, .timerRead [], .timerTest,
          .timerWait] :=
  ⟨rfl, (reads_eq_ticks_iff (Vector.replicate sampleBfrsiz 0) rfl rfl).mp rfl⟩

/-- A tick before the thread waits for the first time is lost. -/
theorem tick_lost : ∃ (as : List RtlAction) (s : Rtl),
    run rtlStep (Rtl.start (Vector.replicate sampleBfrsiz 0)) as = some s ∧
      s.timer = .waiting ∧ s.timerExit = false ∧ reads as ≠ ticks as :=
  ⟨[.runCreate, .runArm, .tick, .timerTest, .timerWait], _, rfl, rfl, rfl, by decide⟩

end PiWxRx
