import PiWxRx.Audio.Session
import PiWxRx.General.Descriptors

/-!
# The descriptors of the child process

`initChildProcess` of `linux_spawn.c` opens three pipes, forks and closes the child's ends of two of
them; the child moves its ends to its standard streams. `CloseChildProcess` closes `CHILD_WRITE_FD`
and `PARENT_READ_FD`. The first of these was closed before, by `initChildProcess`.

* The standard streams of the child are the ends meant for it exactly if the process had its own
  three open (`childStreams_iff`): otherwise `PARENT_READ_FD` is one of them, and is closed.
* A start and a stop leave three descriptors open, the parent's end to write to and both ends of the
  `stderr` pipe, so there is a last start (`restarts_isSome_iff`).
* The number of `CHILD_WRITE_FD` is the lowest free one after a start, the socket of `StartUDP` gets
  it, and `StopRTL` closes the socket (`closeChildProcess_iff`).
-/

namespace PiWxRx

open Descriptors Runs

/-- The ends of a pipe: `READ_FD`, `WRITE_FD`. -/
inductive PipeEnd where
  | read
  | write
  deriving DecidableEq, Repr

/-- What a descriptor of the process refers to. -/
inductive Handle where
  | parentWritePipe (fd : PipeEnd)
  | parentReadPipe (fd : PipeEnd)
  | stderrPipe (fd : PipeEnd)
  | datagram
  | other (id : ℕ)
  deriving DecidableEq, Repr

/-- The descriptors, and the variables that name them. -/
structure ChildProcess where
  table : ℕ → Option Handle
  /-- `pipes[PARENT_WRITE_PIPE]`. -/
  parentWritePipe : ℕ × ℕ
  /-- `pipes[PARENT_READ_PIPE]`. -/
  parentReadPipe : ℕ × ℕ
  /-- `stderr_capture.stderr_pipe`. -/
  stderrPipe : ℕ × ℕ

/-- `PARENT_READ_FD`. -/
def ChildProcess.parentReadFd (s : ChildProcess) : ℕ := s.parentReadPipe.1

/-- `PARENT_WRITE_FD`. -/
def ChildProcess.parentWriteFd (s : ChildProcess) : ℕ := s.parentWritePipe.2

/-- `CHILD_READ_FD`. -/
def ChildProcess.childReadFd (s : ChildProcess) : ℕ := s.parentWritePipe.1

/-- `CHILD_WRITE_FD`. -/
def ChildProcess.childWriteFd (s : ChildProcess) : ℕ := s.parentReadPipe.2

/-- What the system calls but `pipe` answer. -/
structure SpawnEnv where
  sigaction : ℤ
  fork : ℤ

/-- The pipes of `initChildProcess`. -/
def openPipes (limit : ℕ) (s : ChildProcess) : ChildProcess × Bool :=
  let (s, ok) : ChildProcess × Bool :=
    match openPipe limit s.table (.parentReadPipe .read) (.parentReadPipe .write) with
    | none => (s, true) -- only a failure of the second call is noticed
    | some (fds, table) =>
      match openPipe limit table (.parentWritePipe .read) (.parentWritePipe .write) with
      | none => ({ s with table, parentReadPipe := fds }, false)
      | some (fds', table) =>
        ({ s with table, parentReadPipe := fds, parentWritePipe := fds' }, true)
  if ok then
    match openPipe limit s.table (.stderrPipe .read) (.stderrPipe .write) with
    | none => (s, false)
    | some (fds, table) => ({ s with table, stderrPipe := fds }, true)
  else
    (s, false)

/-- `initChildProcess`, in the parent. -/
def initChildProcess (limit : ℕ) (env : SpawnEnv) (s : ChildProcess) : ChildProcess × Bool :=
  if env.sigaction < 0 then (s, false)
  else
    let (s, ok) := openPipes limit s
    if !ok || env.fork = -1 then (s, false)
    else ({ s with table := close (close s.table s.childReadFd) s.childWriteFd }, true)

/-- `dup2`. -/
def dup2 (table : ℕ → Option Handle) (oldfd newfd : ℕ) : Option (ℕ → Option Handle) :=
  if table oldfd = none then none else some (Function.update table newfd (table oldfd))

/-- The child up to `execv`: its descriptors, none if it exits. -/
def childSetup (s : ChildProcess) : Option (ℕ → Option Handle) := do
  let table ← dup2 s.table s.stderrPipe.2 2
  let table ← dup2 table s.childReadFd 0
  -- the test is `dup2stat == 0`, which a failure does not meet
  let table := (dup2 table s.childWriteFd 1).getD table
  return close (close table s.parentReadFd) s.parentWriteFd

/-- `CloseChildProcess`. -/
def closeChildProcess (s : ChildProcess) : ChildProcess :=
  { s with table := close (close s.table s.childWriteFd) s.parentReadFd }

/-! ## The pipes -/

/-- Six numbers are enough for the pipes, which take the lowest. -/
theorem openPipes_eq {limit : ℕ} {s : ChildProcess} {a b c d e f : ℕ} {fds : List ℕ}
    (h : freeNumbers limit s.table = a :: b :: c :: d :: e :: f :: fds) :
    ∃ table, openPipes limit s =
        ({ table, parentReadPipe := (a, b), parentWritePipe := (c, d), stderrPipe := (e, f) },
          true) ∧
      freeNumbers limit table = fds ∧
      table = Function.update (Function.update (Function.update (Function.update (Function.update
        (Function.update s.table a (some (.parentReadPipe .read)))
          b (some (.parentReadPipe .write))) c (some (.parentWritePipe .read)))
          d (some (.parentWritePipe .write))) e (some (.stderrPipe .read)))
          f (some (.stderrPipe .write)) := by
  have h₁ := freeNumbers_pipe h (.parentReadPipe .read) (.parentReadPipe .write)
  have h₂ := freeNumbers_pipe h₁ (.parentWritePipe .read) (.parentWritePipe .write)
  have h₃ := freeNumbers_pipe h₂ (.stderrPipe .read) (.stderrPipe .write)
  refine ⟨_, ?_, h₃, rfl⟩
  simp only [openPipes, openPipe_eq h, openPipe_eq h₁, openPipe_eq h₂, ↓reduceIte]

private theorem exists_two {l : List ℕ} (h : ¬ l.length < 2) : ∃ a b fds, l = a :: b :: fds := by
  match l, h with
  | a :: b :: fds, _ => exact ⟨a, b, fds, rfl⟩
  | [_], h => exact absurd (by simp) h
  | [], h => exact absurd (by simp) h

private theorem exists_six {l : List ℕ} (h : 6 ≤ l.length) :
    ∃ a b c d e f fds, l = a :: b :: c :: d :: e :: f :: fds := by
  match l, h with
  | a :: b :: c :: d :: e :: f :: fds, _ => exact ⟨a, b, c, d, e, f, fds, rfl⟩
  | [_, _, _, _, _], h => exact absurd h (by simp)
  | [_, _, _, _], h => exact absurd h (by simp)
  | [_, _, _], h => exact absurd h (by simp)
  | [_, _], h => exact absurd h (by simp)
  | [_], h => exact absurd h (by simp)
  | [], h => exact absurd h (by simp)

/-- With fewer numbers there is no start. -/
theorem openPipes_of_lt {limit : ℕ} {s : ChildProcess}
    (h : (freeNumbers limit s.table).length < 6) : (openPipes limit s).2 = false := by
  by_cases h₁ : (freeNumbers limit s.table).length < 2
  · -- the `stderr` pipe fails as the first one does
    simp only [openPipes, openPipe_eq_none h₁, ↓reduceIte]
  obtain ⟨a, b, fds, hfds⟩ := exists_two h₁
  have hfree := freeNumbers_pipe hfds (.parentReadPipe .read) (.parentReadPipe .write)
  by_cases h₂ : fds.length < 2
  · simp only [openPipes, openPipe_eq hfds, openPipe_eq_none (hfree ▸ h₂), Bool.false_eq_true,
      ↓reduceIte]
  obtain ⟨c, d, fds', rfl⟩ := exists_two h₂
  have hfree' := freeNumbers_pipe hfree (.parentWritePipe .read) (.parentWritePipe .write)
  have h₃ : fds'.length < 2 := by
    rw [hfds] at h
    simp only [List.length_cons] at h
    omega
  simp only [openPipes, openPipe_eq hfds, openPipe_eq hfree, openPipe_eq_none (hfree' ▸ h₃),
    ↓reduceIte]

/-! ## The standard streams of the child -/

/-- The child reads the parent's pipe, writes to the parent's pipe and to the `stderr` pipe. -/
def StandardStreams (table : ℕ → Option Handle) : Prop :=
  table 0 = some (.parentWritePipe .read) ∧ table 1 = some (.parentReadPipe .write) ∧
    table 2 = some (.stderrPipe .write)

/-- The child runs and does not have `PARENT_READ_FD`. -/
theorem childSetup_parentReadFd {s : ChildProcess} {table : ℕ → Option Handle}
    (h : childSetup s = some table) (hne : s.parentReadFd ≠ s.parentWriteFd) :
    table s.parentReadFd = none := by
  simp only [childSetup, Option.bind_eq_bind, Option.bind_eq_some_iff, Option.pure_def,
    Option.some.injEq] at h
  obtain ⟨t₁, -, t₂, -, rfl⟩ := h
  rw [close_of_ne hne, close_self]

/-- The descriptors of the child when its ends are where they were opened. -/
theorem childSetup_eq {s : ChildProcess} {x y z : Handle}
    (hstderr : s.table s.stderrPipe.2 = some x)
    (hread : s.table s.childReadFd = some y) (hwrite : s.table s.childWriteFd = some z)
    (h2 : s.childReadFd ≠ 2) (h2' : s.childWriteFd ≠ 2) (h0 : s.childWriteFd ≠ 0) :
    childSetup s = some (close (close (Function.update (Function.update (Function.update s.table
      2 (some x)) 0 (some y)) 1 (some z)) s.parentReadFd) s.parentWriteFd) := by
  have hstderr' : dup2 s.table s.stderrPipe.2 2 = some (Function.update s.table 2 (some x)) := by
    simp [dup2, hstderr]
  have hread' : dup2 (Function.update s.table 2 (some x)) s.childReadFd 0 =
      some (Function.update (Function.update s.table 2 (some x)) 0 (some y)) := by
    simp [dup2, Function.update_of_ne h2, hread]
  have hwrite' : dup2 (Function.update (Function.update s.table 2 (some x)) 0 (some y))
      s.childWriteFd 1 = some (Function.update (Function.update (Function.update s.table
        2 (some x)) 0 (some y)) 1 (some z)) := by
    simp [dup2, Function.update_of_ne h0, Function.update_of_ne h2', hwrite]
  simp only [childSetup, hstderr', hread', hwrite', Option.bind_eq_bind, Option.bind_some,
    Option.getD_some, Option.pure_def]

/-- **The standard streams.** With six numbers left the pipes are there, and the streams of the
child are the ends meant for it exactly if the process had all of its own open. Otherwise
`PARENT_READ_FD` is one of the three, and a child that runs has closed it. -/
theorem childStreams_iff {limit : ℕ} {s : ChildProcess}
    (hfree : 6 ≤ (freeNumbers limit s.table).length) :
    (openPipes limit s).2 = true ∧
      ((∃ table, childSetup (openPipes limit s).1 = some table ∧ StandardStreams table) ↔
        ∀ fd < 3, s.table fd ≠ none) ∧
      ((∃ fd < 3, s.table fd = none) → (openPipes limit s).1.parentReadFd < 3 ∧
        ∀ table, childSetup (openPipes limit s).1 = some table →
          table (openPipes limit s).1.parentReadFd = none) := by
  obtain ⟨a, b, c, d, e, f, fds, hfds⟩ := exists_six hfree
  obtain ⟨table, hopen, -, htable⟩ := openPipes_eq hfds
  have hsorted := hfds ▸ pairwise_freeNumbers limit s.table
  simp only [List.pairwise_cons, List.mem_cons, forall_eq_or_imp] at hsorted
  obtain ⟨⟨hab, hac, had, hae, haf, -⟩, ⟨hbc, hbd, hbe, hbf, -⟩, ⟨hcd, hce, hcf, -⟩, ⟨hde, hdf, -⟩,
    ⟨hef, -⟩, -⟩ := hsorted
  have hmem : ∀ fd, fd ∈ freeNumbers limit s.table ↔ fd < limit ∧ s.table fd = none :=
    fun fd => mem_freeNumbers
  -- a standard stream that is not open is among the numbers, and `PARENT_READ_FD` is the lowest
  have hleast : ∀ fd < 3, s.table fd = none → a < 3 := by
    intro fd hfd hnone
    have hf : f < limit := ((hmem f).mp (by rw [hfds]; simp)).1
    have hfree : fd ∈ freeNumbers limit s.table := (hmem fd).mpr ⟨by omega, hnone⟩
    rw [hfds] at hfree
    have hle := pairwise_freeNumbers limit s.table
    rw [hfds, List.pairwise_cons] at hle
    rcases List.mem_cons.mp hfree with rfl | hfree
    · exact hfd
    · exact (hle.1 fd hfree).trans hfd
  rw [hopen]
  refine ⟨rfl, ⟨?_, ?_⟩, ?_⟩
  · rintro ⟨t, hsetup, h0, h1, h2⟩ fd hfd hnone
    have hclosed : t a = none := childSetup_parentReadFd hsetup (Nat.ne_of_lt had)
    have ha := hleast fd hfd hnone
    have hlow : a = 0 ∨ a = 1 ∨ a = 2 := by omega
    rcases hlow with rfl | rfl | rfl
    · exact absurd (hclosed.symm.trans h0) (by simp)
    · exact absurd (hclosed.symm.trans h1) (by simp)
    · exact absurd (hclosed.symm.trans h2) (by simp)
  · intro hall
    have ha : 3 ≤ a := by
      by_contra hlt
      exact hall a (by omega) ((hmem a).mp (by rw [hfds]; simp)).2
    have htf : table f = some (.stderrPipe .write) := by rw [htable, Function.update_self]
    have htc : table c = some (.parentWritePipe .read) := by
      rw [htable, Function.update_of_ne (by omega), Function.update_of_ne (by omega),
        Function.update_of_ne (by omega), Function.update_self]
    have htb : table b = some (.parentReadPipe .write) := by
      rw [htable, Function.update_of_ne (by omega), Function.update_of_ne (by omega),
        Function.update_of_ne (by omega), Function.update_of_ne (by omega), Function.update_self]
    have hc2 : c ≠ 2 := by omega
    have hb2 : b ≠ 2 := by omega
    have hb0 : b ≠ 0 := by omega
    refine ⟨_, childSetup_eq htf htc htb hc2 hb2 hb0, ?_⟩
    have hlow : ∀ fd < 3, ∀ u : ℕ → Option Handle, close (close u a) d fd = u fd := by
      intro fd hfd u
      rw [close_of_ne (by omega), close_of_ne (by omega)]
    refine ⟨?_, ?_, ?_⟩
    · rw [ChildProcess.parentReadFd, ChildProcess.parentWriteFd, hlow 0 (by decide),
        Function.update_of_ne (by decide), Function.update_self]
    · rw [ChildProcess.parentReadFd, ChildProcess.parentWriteFd, hlow 1 (by decide),
        Function.update_self]
    · rw [ChildProcess.parentReadFd, ChildProcess.parentWriteFd, hlow 2 (by decide),
        Function.update_of_ne (by decide), Function.update_of_ne (by decide),
        Function.update_self]
  · rintro ⟨fd, hfd, hnone⟩
    exact ⟨hleast fd hfd hnone, fun t ht => childSetup_parentReadFd ht (Nat.ne_of_lt had)⟩

/-- A process with its standard streams open. -/
def streamsOpen : ChildProcess where
  table fd := if fd < 3 then some (.other fd) else none
  parentWritePipe := (0, 0)
  parentReadPipe := (0, 0)
  stderrPipe := (0, 0)

/-- Its child has them. -/
theorem childStreams_streamsOpen : ∃ table,
    childSetup (openPipes 16 streamsOpen).1 = some table ∧ StandardStreams table := by
  have hfree : 6 ≤ (freeNumbers 16 streamsOpen.table).length := by decide
  exact (childStreams_iff hfree).2.1.mpr (by decide)

/-! ## A start and a stop -/

/-- Where the descriptors are after a start: `CHILD_WRITE_FD` is the lowest number not in use. -/
structure Started (limit : ℕ) (s t : ChildProcess) (a b c d e f : ℕ) (fds : List ℕ) : Prop where
  before : freeNumbers limit s.table = a :: b :: c :: d :: e :: f :: fds
  parentReadPipe : t.parentReadPipe = (a, b)
  free : freeNumbers limit t.table = b :: c :: fds

theorem started_of_init {limit : ℕ} {env : SpawnEnv} {s t : ChildProcess}
    (h : initChildProcess limit env s = (t, true)) :
    ∃ a b c d e f fds, Started limit s t a b c d e f fds := by
  have hsix : ¬ (freeNumbers limit s.table).length < 6 := by
    intro hlt
    simp only [initChildProcess, openPipes_of_lt hlt] at h
    split at h <;> simp at h
  obtain ⟨a, b, c, d, e, f, fds, hfds⟩ := exists_six (Nat.le_of_not_lt hsix)
  obtain ⟨table, hopen, hrest, -⟩ := openPipes_eq hfds
  simp only [initChildProcess, hopen, Bool.not_true] at h
  split at h
  · simp at h
  split at h
  · simp at h
  obtain ⟨rfl, -⟩ := Prod.mk.inj h
  have hsorted := hfds ▸ pairwise_freeNumbers limit s.table
  simp only [List.pairwise_cons, List.mem_cons, forall_eq_or_imp] at hsorted
  obtain ⟨⟨hab, hac, -⟩, ⟨hbc, hbd, hbe, hbf, hbfds⟩, ⟨hcd, hce, hcf, hcfds⟩, -⟩ := hsorted
  have hlimit : ∀ fd ∈ freeNumbers limit s.table, fd < limit := fun fd hfd =>
    (mem_freeNumbers.mp hfd).1
  rw [hfds] at hlimit
  -- the numbers of the two ends closed come back, the lower one last
  have hc : freeNumbers limit (close table c) = c :: fds := by
    rw [freeNumbers_close (hlimit c (by simp)) (by rwa [hrest]), hrest]
  have hb : freeNumbers limit (close (close table c) b) = b :: c :: fds := by
    rw [freeNumbers_close (hlimit b (by simp)) _, hc]
    rw [hc]
    exact List.forall_mem_cons.mpr ⟨hbc, hbfds⟩
  exact ⟨a, b, c, d, e, f, fds, hfds, rfl, hb⟩

theorem initChildProcess_eq {limit : ℕ} {env : SpawnEnv} {s t : ChildProcess}
    (hopen : openPipes limit s = (t, true)) (hsigaction : 0 ≤ env.sigaction)
    (hfork : env.fork ≠ -1) :
    initChildProcess limit env s =
      ({ t with table := close (close t.table t.childReadFd) t.childWriteFd }, true) := by
  simp [initChildProcess, not_lt.mpr hsigaction, hopen, hfork]

/-- `CloseChildProcess` gives back one number. -/
theorem Started.close {limit : ℕ} {s t : ChildProcess} {a b c d e f : ℕ} {fds : List ℕ}
    (h : Started limit s t a b c d e f fds) :
    freeNumbers limit (closeChildProcess t).table = a :: b :: c :: fds := by
  have hsorted := h.before ▸ pairwise_freeNumbers limit s.table
  simp only [List.pairwise_cons, List.mem_cons, forall_eq_or_imp] at hsorted
  obtain ⟨⟨hab, hac, -, -, -, hafds⟩, -⟩ := hsorted
  have ha : a < limit := (mem_freeNumbers.mp (by rw [h.before]; exact List.mem_cons_self)).1
  have hb : t.table b = none := (mem_freeNumbers.mp (by rw [h.free]; exact List.mem_cons_self)).2
  have htable : (closeChildProcess t).table = Descriptors.close t.table a := by
    simp only [closeChildProcess, ChildProcess.childWriteFd, ChildProcess.parentReadFd,
      h.parentReadPipe, close_eq_self hb]
  rw [htable, freeNumbers_close ha, h.free]
  rw [h.free]
  exact List.forall_mem_cons.mpr ⟨hab, List.forall_mem_cons.mpr ⟨hac, hafds⟩⟩

/-- `InitRTL`, then `StopRTL`; there is no step if the start fails. -/
def startStop (limit : ℕ) (s : ChildProcess) (env : SpawnEnv) : Option ChildProcess :=
  match initChildProcess limit env s with
  | (t, true) => some (closeChildProcess t)
  | (_, false) => none

/-- With six numbers left and no failure of another call there is a step, and three numbers are
gone. -/
theorem startStop_eq_some {limit : ℕ} {s : ChildProcess} {env : SpawnEnv}
    (hsigaction : 0 ≤ env.sigaction) (hfork : env.fork ≠ -1)
    (hfree : 6 ≤ (freeNumbers limit s.table).length) :
    ∃ t, startStop limit s env = some t ∧
      freeNumbers limit t.table =
        (freeNumbers limit s.table).take 3 ++ (freeNumbers limit s.table).drop 6 := by
  obtain ⟨a, b, c, d, e, f, fds, hfds⟩ := exists_six hfree
  obtain ⟨table, hopen, -, -⟩ := openPipes_eq hfds
  have ht := initChildProcess_eq hopen hsigaction hfork
  obtain ⟨a', b', c', d', e', f', fds', hstarted⟩ := started_of_init ht
  refine ⟨_, by rw [startStop, ht], ?_⟩
  rw [hstarted.close, hstarted.before]
  rfl

theorem startStop_eq_none {limit : ℕ} {s : ChildProcess} {env : SpawnEnv}
    (hfree : (freeNumbers limit s.table).length < 6) : startStop limit s env = none := by
  rw [startStop]
  split
  · rename_i ht
    obtain ⟨a, b, c, d, e, f, fds, hstarted⟩ := started_of_init ht
    rw [hstarted.before] at hfree
    exact absurd hfree (by simp)
  · rfl

/-- **Restarts.** Where no other call fails, the number of starts is limited by the numbers not in
use: each start and stop takes the fourth to the sixth of them for good. -/
theorem restarts_isSome_iff {limit : ℕ} {envs : List SpawnEnv}
    (henvs : ∀ env ∈ envs, 0 ≤ env.sigaction ∧ env.fork ≠ -1) (s : ChildProcess) :
    ((run (startStop limit) s envs).isSome ↔
        envs = [] ∨ 3 * envs.length + 3 ≤ (freeNumbers limit s.table).length) ∧
      ∀ t, run (startStop limit) s envs = some t →
        freeNumbers limit t.table = (freeNumbers limit s.table).take 3 ++
          (freeNumbers limit s.table).drop (3 + 3 * envs.length) := by
  induction envs generalizing s with
  | nil => simp
  | cons env envs ih =>
    obtain ⟨henv, henvs⟩ := List.forall_mem_cons.mp henvs
    by_cases hfree : 6 ≤ (freeNumbers limit s.table).length
    · obtain ⟨t, ht, hleft⟩ := startStop_eq_some henv.1 henv.2 hfree
      obtain ⟨hsome, hrest⟩ := ih henvs t
      have hlength : (freeNumbers limit t.table).length + 3 =
          (freeNumbers limit s.table).length := by
        rw [hleft, List.length_append, List.length_take, List.length_drop]
        omega
      simp only [run_cons, ht, Option.bind_some]
      constructor
      · rw [hsome, List.length_cons]
        constructor
        · rintro (rfl | h)
          · exact Or.inr (by simpa using hfree)
          · exact Or.inr (by omega)
        · rintro (h | h)
          · exact absurd h (List.cons_ne_nil _ _)
          · exact Or.inr (by omega)
      · intro u hu
        -- the first three numbers are the same, the rest starts three later
        have htake : ((freeNumbers limit s.table).take 3).length = 3 := by
          rw [List.length_take]
          omega
        rw [hrest u hu, hleft, List.take_left' htake, List.drop_append, htake, List.drop_drop,
          List.drop_eq_nil_of_le (by rw [htake]; omega), List.nil_append, List.length_cons]
        congr 2
        omega
    · rw [run_cons, startStop_eq_none (by omega), Option.bind_none]
      simp only [Option.isSome_none, Bool.false_eq_true, reduceCtorEq, List.length_cons, false_or,
        false_iff, IsEmpty.forall_iff, implies_true, and_true]
      omega

/-- With sixteen numbers there are three starts, and no fourth. -/
theorem restarts_sixteen :
    (run (startStop 16) streamsOpen [⟨0, 1⟩, ⟨0, 1⟩, ⟨0, 1⟩]).isSome = true ∧
      ¬ (run (startStop 16) streamsOpen [⟨0, 1⟩, ⟨0, 1⟩, ⟨0, 1⟩, ⟨0, 1⟩]).isSome = true := by
  constructor
  · exact (restarts_isSome_iff (by decide) streamsOpen).1.mpr (by decide)
  · exact fun h => absurd ((restarts_isSome_iff (by decide) streamsOpen).1.mp h) (by decide)

/-! ## The socket -/

/-- The descriptors of the process and the variables of `udp.c`. -/
structure Process where
  child : ChildProcess
  sender : Sender

/-- The arguments of a call in which `socket` answers `fd`. -/
def StartArgs.withSocket (args : StartArgs) (fd : ℤ) : StartArgs :=
  { args with env := { args.env with socket := fd } }

/-- `StartUDP`: the socket gets the lowest number not in use. -/
def Process.startUDP (limit : ℕ) (args : StartArgs) (p : Process) : Option Process :=
  if args.codec = codecNone ∨ args.env.malloc = none then do
    -- `InitUDP` does not get to `OpenSocket`
    let sender ← senderStep p.sender (.start args)
    return { p with sender }
  else
    match openLowest limit p.child.table .datagram with
    | none => do
      let sender ← senderStep p.sender (.start (args.withSocket (-1)))
      return { p with sender }
    | some (fd, table) => do
      let sender ← senderStep p.sender (.start (args.withSocket fd))
      return { child := { p.child with table }, sender }

/-- `StopUDP`. -/
def Process.stopUDP (p : Process) : Option Process := do
  let sender ← senderStep p.sender .stop
  if p.sender.udp.codec = codecNone then
    return { p with sender }
  else
    let table := close p.child.table p.sender.udp.datagram.toNat
    return { child := { p.child with table }, sender }

/-- A call, or a packet of the timer thread, as in `senderStep`. -/
def processStep (limit : ℕ) (p : Process) : SenderAction → Option Process
  | .start args => p.startUDP limit args
  | .stop => p.stopUDP
  | .send debuglevel samples => do
    let sender ← senderStep p.sender (.send debuglevel samples)
    return { p with sender }

theorem Process.startUDP_eq {limit : ℕ} {args : StartArgs} {p : Process}
    (hargs : ¬ (args.codec = codecNone ∨ args.env.malloc = none)) {fd : ℕ}
    {table : ℕ → Option Handle}
    (hopen : openLowest limit p.child.table .datagram = some (fd, table)) {sender : Sender}
    (hsender : senderStep p.sender (.start (args.withSocket fd)) = some sender) :
    p.startUDP limit args = some { child := { p.child with table }, sender } := by
  simp only [Process.startUDP, if_neg hargs, hopen, hsender]
  rfl

/-- What calls in any order keep, `t` the descriptors after `initChildProcess` and `b` the lowest
number not in use there: the sockets of `udp.c` are what was opened since, and if there are any, one
has the number `b`. It is the socket of the session only if there is no other. -/
structure Process.Holds (t : ChildProcess) (b : ℕ) (p : Process) : Prop where
  pipes : p.child.parentReadPipe = t.parentReadPipe
  table : ∀ fd : ℕ, p.child.table fd =
    if (fd : ℤ) ∈ p.sender.udp.openSockets then some .datagram else t.table fd
  free : ∀ fd ∈ p.sender.udp.openSockets, ∃ k : ℕ, fd = k ∧ t.table k = none
  nodup : p.sender.udp.openSockets.Nodup
  lowest : p.sender.udp.openSockets = [] ∨ (b : ℤ) ∈ p.sender.udp.openSockets ∧
    (p.sender.udp.datagram = b → p.sender.udp.openSockets = [(b : ℤ)])

/-- A step that leaves the sockets alone. -/
theorem Process.Holds.of_same {t : ChildProcess} {b : ℕ} {p q : Process} (h : p.Holds t b)
    (hchild : q.child = p.child) (hdatagram : q.sender.udp.datagram = p.sender.udp.datagram)
    (hopen : q.sender.udp.openSockets = p.sender.udp.openSockets) : q.Holds t b where
  pipes := by rw [hchild, h.pipes]
  table fd := by rw [hchild, hopen, h.table]
  free := by rw [hopen]; exact h.free
  nodup := by rw [hopen]; exact h.nodup
  lowest := by rw [hopen, hdatagram]; exact h.lowest

/-- With a codec and memory the call sets the descriptor, and the socket is open if there is one. -/
theorem senderStep_withSocket {args : StartArgs} {fd : ℤ} {s u : Sender}
    (hargs : ¬ (args.codec = codecNone ∨ args.env.malloc = none))
    (h : senderStep s (.start (args.withSocket fd)) = some u) :
    u.udp.datagram = fd ∧
      u.udp.openSockets = if fd < 0 then s.udp.openSockets else fd :: s.udp.openSockets := by
  obtain ⟨ok, hok⟩ := senderStep_start h
  rcases startUDP_cases hok with ⟨hcodec, -⟩ | ⟨-, ⟨hmem, -⟩ | ⟨memory, -, -, rfl⟩⟩
  · exact absurd (Or.inl hcodec) hargs
  · exact absurd (Or.inr hmem) hargs
  · obtain ⟨myAddr, hfst⟩ := (args.withSocket fd).openSocket_fst
      ((args.withSocket fd).newUdp memory s.udp)
    rw [hfst]
    exact ⟨rfl, rfl⟩

/-- Without it does not. -/
theorem senderStep_noSocket {args : StartArgs} {s u : Sender}
    (hargs : args.codec = codecNone ∨ args.env.malloc = none)
    (h : senderStep s (.start args) = some u) :
    u.udp.datagram = s.udp.datagram ∧ u.udp.openSockets = s.udp.openSockets := by
  obtain ⟨ok, hok⟩ := senderStep_start h
  rcases startUDP_cases hok with ⟨-, -, rfl⟩ | ⟨hcodec, ⟨-, -, rfl⟩ | ⟨memory, hmem, -, -⟩⟩
  · exact ⟨rfl, rfl⟩
  · exact ⟨rfl, rfl⟩
  · rcases hargs with hargs | hargs
    · exact absurd hargs hcodec
    · rw [hargs] at hmem
      cases hmem

/-- `StopUDP` leaves the descriptor set. -/
theorem stopUDP_datagram {s u : Sender} (h : stopUDP s = .ok u) :
    u.udp.datagram = s.udp.datagram := by
  have hclose : ∀ v, closeUDP s.udp = .ok v → v.datagram = s.udp.datagram := by
    intro v hv
    simp only [closeUDP, bind, Except.bind, pure, Except.pure, throw, throwThe,
      MonadExceptOf.throw] at hv
    split at hv
    · split at hv
      · split at hv
        · exact (Except.ok.inj hv) ▸ rfl
        · cases hv
      · split at hv
        · split at hv
          · exact (Except.ok.inj hv) ▸ rfl
          · cases hv
        · cases hv
    · exact (Except.ok.inj hv) ▸ rfl
  cases hres : closeUDP s.udp with
  | error fault => simp [stopUDP, hres, bind, Except.bind] at h
  | ok v =>
    simp only [stopUDP, hres, bind, Except.bind, pure, Except.pure, Except.ok.injEq] at h
    rw [← h]
    exact hclose v hres

/-- `socket` takes a number not in use; the lowest is taken first. -/
theorem Process.Holds.start {limit : ℕ} {t : ChildProcess} {b : ℕ} {fds : List ℕ}
    (ht : freeNumbers limit t.table = b :: fds) {p q : Process} (h : p.Holds t b)
    {args : StartArgs} (hstep : p.startUDP limit args = some q) : q.Holds t b := by
  unfold Process.startUDP at hstep
  split at hstep
  · -- no socket is asked for
    rename_i hargs
    obtain ⟨sender, hsender, hq⟩ := Option.bind_eq_some_iff.mp hstep
    obtain rfl := Option.some.inj hq
    obtain ⟨hdatagram, hopen⟩ := senderStep_noSocket hargs hsender
    exact h.of_same rfl hdatagram hopen
  rename_i hargs
  have hnotNone : ∀ fd : ℕ, (fd : ℤ) ∈ p.sender.udp.openSockets → p.child.table fd ≠ none := by
    intro fd hfd
    rw [h.table, if_pos hfd]
    simp
  split at hstep
  · -- no number is left, so the lowest one is a socket
    rename_i hnone
    obtain ⟨sender, hsender, hq⟩ := Option.bind_eq_some_iff.mp hstep
    obtain rfl := Option.some.inj hq
    obtain ⟨hdatagram, hopen⟩ := senderStep_withSocket hargs hsender
    simp only [Int.reduceNeg, Int.reduceLT, ↓reduceIte] at hopen
    refine ⟨h.pipes, fun fd => by rw [hopen]; exact h.table fd, by rw [hopen]; exact h.free,
      by rw [hopen]; exact h.nodup, ?_⟩
    rw [hopen, hdatagram]
    rcases h.lowest with hempty | ⟨hb, -⟩
    · exact Or.inl hempty
    · exact Or.inr ⟨hb, fun hneg => by omega⟩
  · rename_i fd table hlowest
    obtain ⟨sender, hsender, hq⟩ := Option.bind_eq_some_iff.mp hstep
    obtain rfl := Option.some.inj hq
    obtain ⟨hdatagram, hopen⟩ := senderStep_withSocket hargs hsender
    rw [if_neg (by omega)] at hopen
    obtain ⟨fd', hhead, heq⟩ := Option.map_eq_some_iff.mp hlowest
    obtain ⟨rfl, rfl⟩ := Prod.mk.inj heq
    -- the socket is new, and its number was free after the start of the child
    have hfd := (mem_freeNumbers.mp (List.mem_of_mem_head? hhead)).2
    have hnew : (fd' : ℤ) ∉ p.sender.udp.openSockets := fun hmem => hnotNone fd' hmem hfd
    have hfd₀ : t.table fd' = none := by rw [h.table, if_neg hnew] at hfd; exact hfd
    refine ⟨h.pipes, fun k => ?_, ?_, ?_, ?_⟩
    · simp only [hopen, List.mem_cons, Nat.cast_inj, Function.update_apply]
      by_cases hk : k = fd'
      · simp [hk]
      · simp [hk, h.table k]
    · rw [hopen]
      exact List.forall_mem_cons.mpr ⟨⟨fd', rfl, hfd₀⟩, h.free⟩
    · rw [hopen]
      exact List.nodup_cons.mpr ⟨hnew, h.nodup⟩
    · rw [hopen, hdatagram]
      refine Or.inr ?_
      rcases h.lowest with hempty | ⟨hb, -⟩
      · -- the table is the one after the start of the child
        have htable : p.child.table = t.table := by
          funext k
          rw [h.table, hempty, if_neg List.not_mem_nil]
        rw [htable, ht] at hhead
        obtain rfl : b = fd' := Option.some.inj hhead
        rw [hempty]
        exact ⟨List.mem_cons_self, fun _ => rfl⟩
      · -- `b` is a socket already, so the new one has another number
        refine ⟨List.mem_cons_of_mem _ hb, fun heq => ?_⟩
        rw [Nat.cast_inj] at heq
        exact absurd (heq ▸ hb) hnew

theorem Process.Holds.stop {t : ChildProcess} {b : ℕ} {p q : Process} (h : p.Holds t b)
    (hstep : p.stopUDP = some q) : q.Holds t b := by
  obtain ⟨sender, hsender, hq⟩ := Option.bind_eq_some_iff.mp hstep
  have hok := senderStep_stop hsender
  have hdatagram := stopUDP_datagram hok
  rcases (stopUDP_eq_ok hok).2 with ⟨hcodec, hsame⟩ | ⟨hcodec, hmem, hopen, -⟩
  · -- without a codec nothing is closed
    rw [if_pos hcodec] at hq
    obtain rfl := Option.some.inj hq
    exact h.of_same rfl hdatagram (congrArg Udp.openSockets hsame)
  · rw [if_neg hcodec] at hq
    obtain rfl := Option.some.inj hq
    obtain ⟨k, hk, hk₀⟩ := h.free _ hmem
    -- every number is listed once, so closing it takes it off the list
    have herase : ∀ fd, fd ∈ sender.udp.openSockets ↔ fd ≠ k ∧ fd ∈ p.sender.udp.openSockets := by
      intro fd
      rw [hopen, h.nodup.mem_erase_iff, hk]
    refine ⟨h.pipes, fun fd => ?_, fun fd hfd => h.free fd ((herase fd).mp hfd).2, ?_, ?_⟩
    · change close p.child.table p.sender.udp.datagram.toNat fd = _
      rw [hk, Int.toNat_natCast]
      rcases eq_or_ne fd k with rfl | hne
      · rw [close_self, if_neg fun hmem => ((herase _).mp hmem).1 rfl, hk₀]
      · rw [close_of_ne hne, h.table]
        simp [herase, hne]
    · rw [hopen]
      exact h.nodup.erase _
    · rcases h.lowest with hempty | ⟨hb, hlast⟩
      · rw [hempty] at hmem
        exact absurd hmem List.not_mem_nil
      · by_cases hkb : p.sender.udp.datagram = b
        · -- the lowest number is the last to be closed
          rw [hopen, hlast hkb, hkb]
          exact Or.inl (List.erase_cons_head ..)
        · refine Or.inr ⟨(herase b).mpr ⟨fun heq => hkb (hk.trans heq.symm), hb⟩, fun heq => ?_⟩
          exact absurd (hdatagram.symm.trans heq) hkb

theorem Process.Holds.step {limit : ℕ} {t : ChildProcess} {b : ℕ} {fds : List ℕ}
    (ht : freeNumbers limit t.table = b :: fds) {p q : Process} (h : p.Holds t b)
    {a : SenderAction} (hstep : processStep limit p a = some q) : q.Holds t b := by
  cases a with
  | start args => exact h.start ht hstep
  | stop => exact h.stop hstep
  | send debuglevel samples =>
    obtain ⟨sender, hsender, hq⟩ := Option.bind_eq_some_iff.mp hstep
    obtain rfl := Option.some.inj hq
    obtain ⟨-, u, out, hsend, rfl⟩ := senderStep_send hsender
    obtain ⟨-, -, hdatagram, hopen, -⟩ := sendUDPPacket_frame hsend
    exact h.of_same rfl hdatagram hopen

/-- **Closed twice.** After a start of the child and any calls of `StartUDP` and `StopUDP` that do
not fault, with packets in between, `StopRTL` closes nothing but `PARENT_READ_FD` exactly if no
socket is open. If one is, the second `close` of `CHILD_WRITE_FD` closes a socket. A `StopUDP` that
closes a descriptor which is not its open socket is a fault, and the run ends before it. -/
theorem closeChildProcess_iff {limit : ℕ} {env : SpawnEnv} {s t : ChildProcess}
    (hinit : initChildProcess limit env s = (t, true)) {sender : Sender}
    (hsender : sender.udp.openSockets = []) {as : List SenderAction} {p : Process}
    (hrun : run (processStep limit) ⟨t, sender⟩ as = some p) :
    ((closeChildProcess p.child).table = close p.child.table p.child.parentReadFd ↔
        p.sender.udp.openSockets = []) ∧
      (p.sender.udp.openSockets ≠ [] → p.child.table p.child.childWriteFd = some .datagram) := by
  obtain ⟨a, b, c, d, e, f, fds, hstarted⟩ := started_of_init hinit
  have hb : t.table b = none :=
    (mem_freeNumbers.mp (by rw [hstarted.free]; exact List.mem_cons_self)).2
  have hab : a ≠ b := by
    have hsorted := hstarted.before ▸ pairwise_freeNumbers limit s.table
    rw [List.pairwise_cons] at hsorted
    exact Nat.ne_of_lt (hsorted.1 b List.mem_cons_self)
  have hstart : Process.Holds t b ⟨t, sender⟩ := by
    refine ⟨rfl, fun fd => by rw [hsender, if_neg List.not_mem_nil], ?_, ?_, Or.inl hsender⟩
    · rw [hsender]
      exact fun fd hfd => absurd hfd List.not_mem_nil
    · rw [hsender]
      exact List.nodup_nil
  have hp : p.Holds t b :=
    run_invariant (fun q x u hq hu => hq.step hstarted.free hu) hstart hrun
  have hread : p.child.parentReadFd = a := by
    rw [ChildProcess.parentReadFd, hp.pipes, hstarted.parentReadPipe]
  have hwrite : p.child.childWriteFd = b := by
    rw [ChildProcess.childWriteFd, hp.pipes, hstarted.parentReadPipe]
  have htable := hp.table b
  simp only [closeChildProcess, hread, hwrite]
  rcases hp.lowest with hempty | ⟨hmem, -⟩
  · rw [hempty, if_neg List.not_mem_nil, hb] at htable
    exact ⟨⟨fun _ => hempty, fun _ => by rw [close_eq_self htable]⟩, fun h => absurd hempty h⟩
  · rw [if_pos hmem] at htable
    refine ⟨⟨fun heq => ?_, fun hempty => ?_⟩, fun _ => htable⟩
    · -- the socket is closed on the left and not on the right
      have hclosed := congrFun heq b
      rw [close_of_ne hab.symm, close_self, close_of_ne hab.symm, htable] at hclosed
      cases hclosed
    · rw [hempty] at hmem
      exact absurd hmem List.not_mem_nil

/-- A session is started and not stopped. -/
theorem closeChildProcess_session : ∃ p,
    run (processStep 16) ⟨(initChildProcess 16 ⟨0, 1⟩ streamsOpen).1, Sender.start⟩
        [.start goodStart] = some p ∧
      p.child.table p.child.childWriteFd = some .datagram := by
  obtain ⟨sender, ok, hok⟩ := startUDP_ok (goodStart.withSocket 4) Sender.start
  have hsender : senderStep Sender.start (.start (goodStart.withSocket 4)) = some sender := by
    rw [senderStep, hok]
    rfl
  have hargs : ¬ (goodStart.codec = codecNone ∨ goodStart.env.malloc = none) := by
    rintro (h | h)
    · exact absurd h (by decide)
    · cases h
  have hinit : initChildProcess 16 ⟨0, 1⟩ streamsOpen =
      ((initChildProcess 16 ⟨0, 1⟩ streamsOpen).1, true) := Prod.ext rfl (by decide)
  have hfree : freeNumbers 16 (initChildProcess 16 ⟨0, 1⟩ streamsOpen).1.table =
      [4, 5, 9, 10, 11, 12, 13, 14, 15] := by decide
  have hp := Process.startUDP_eq
    (p := ⟨(initChildProcess 16 ⟨0, 1⟩ streamsOpen).1, Sender.start⟩) hargs
    (openLowest_eq hfree Handle.datagram) hsender
  have hrun := (run_cons (processStep 16)
    ⟨(initChildProcess 16 ⟨0, 1⟩ streamsOpen).1, Sender.start⟩ (.start goodStart) []).trans
      (congrArg (Option.bind · some) hp)
  refine ⟨_, hrun, (closeChildProcess_iff hinit rfl hrun).2 ?_⟩
  rw [(senderStep_withSocket hargs hsender).2]
  simp

end PiWxRx
