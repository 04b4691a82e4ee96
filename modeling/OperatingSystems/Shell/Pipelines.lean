import Mathlib
import OperatingSystems.Lib.Descriptors

/-!
# The descriptors of a pipeline

`execExternalJob` as far as descriptors go: it makes the pipes, each child copies the ends it needs to its
standard descriptors and closes all pipes, and so does the shell.

* **`execExternalJob`** — the tables of the children and of the shell.
* **`Made`** — what holds of the table while the pipes are made.
* **`pipeline_wired_iff`** — when the commands of the job are connected as the line says.
-/

namespace OperatingSystems.Shell.Pipelines

open Descriptors

/-- What a descriptor is open on: what the shell has been started with, or an end of a pipe of the job. -/
inductive End
  | given (d : ℕ)
  | reader (k : ℕ)
  | writer (k : ℕ)
deriving DecidableEq

def STDIN_FILENO : ℕ := 0

def STDOUT_FILENO : ℕ := 1

/-- The table of the shell before the job. -/
def shellTable (given : ℕ → Option ℕ) : Table End := fun fd => (given fd).map .given

/-- `pipe`, for the pipe number `k` of the job. -/
def pipe (limit k : ℕ) (t : Table End) : Option ((ℕ × ℕ) × Table End) := do
  let (readEnd, t) ← allocate limit (.reader k) t
  let (writeEnd, t) ← allocate limit (.writer k) t
  return ((readEnd, writeEnd), t)

/-- The loop that makes the pipes; when `pipe` fails the shell exits. -/
def makePipes (limit : ℕ) (pipes : ℕ → ℕ × ℕ) (t : Table End) : ℕ → Option ((ℕ → ℕ × ℕ) × Table End)
  | 0 => some (pipes, t)
  | i + 1 => do
    let (pipes, t) ← makePipes limit pipes t i
    let (fds, t) ← pipe limit i t
    return (Function.update pipes i fds, t)

/-- The loop that closes all pipe descriptors. -/
def closePipes (pipes : ℕ → ℕ × ℕ) (t : Table End) : ℕ → Table End
  | 0 => t
  | j + 1 => close (pipes j).2 (close (pipes j).1 (closePipes pipes t j))

/-- The calls of `dup2` in the child for the command number `i`. -/
def redirect (numCommands i : ℕ) (pipes : ℕ → ℕ × ℕ) (t : Table End) : Table End :=
  if i = 0 then dup2 (pipes i).2 STDOUT_FILENO t
  else if i = numCommands - 1 then dup2 (pipes (i - 1)).1 STDIN_FILENO t
  else dup2 (pipes i).2 STDOUT_FILENO (dup2 (pipes (i - 1)).1 STDIN_FILENO t)

/-- The child for the command number `i`, up to `execvp`. -/
def child (numCommands i : ℕ) (pipes : ℕ → ℕ × ℕ) (t : Table End) : Table End :=
  closePipes pipes (redirect numCommands i pipes t) (numCommands - 1)

/-- The tables of the children, and that of the shell at the end; `stack` is in the array `pipes` before.  Each
`fork` succeeds, the last command is not a single `&`, for which the shell exits, and the job fits the local
arrays: at most `256` commands, as many as `processIDs` has entries, of at most `255` words each. -/
def execExternalJob (limit numCommands : ℕ) (stack : ℕ → ℕ × ℕ) (t : Table End) :
    Option ((ℕ → Table End) × Table End) := do
  let (pipes, t) ← makePipes limit stack t (numCommands - 1)
  return (fun i => child numCommands i pipes t, closePipes pipes t (numCommands - 1))

/-- **What the line says**: a command reads from the pipe behind it and writes to the pipe before it, and
everything else is as in the shell. -/
def wired (given : ℕ → Option ℕ) (numCommands i : ℕ) : Table End := fun fd =>
  if fd = STDIN_FILENO ∧ i ≠ 0 then some (.reader (i - 1))
  else if fd = STDOUT_FILENO ∧ i + 1 ≠ numCommands then some (.writer i)
  else shellTable given fd

variable {given : ℕ → Option ℕ} {limit numCommands i k n fd : ℕ} {pipes stack : ℕ → ℕ × ℕ} {fds : ℕ × ℕ}
  {t t' : Table End}

/-! ### Making the pipes -/

/-- **The table while the pipes are made.** -/
structure Made (given : ℕ → Option ℕ) (pipes : ℕ → ℕ × ℕ) (k : ℕ) (t : Table End) : Prop where
  ends : ∀ j < k, t (pipes j).1 = some (.reader j) ∧ t (pipes j).2 = some (.writer j)
  fresh : ∀ j < k, given (pipes j).1 = none ∧ given (pipes j).2 = none
  rest : ∀ fd, (∀ j < k, fd ≠ (pipes j).1 ∧ fd ≠ (pipes j).2) → t fd = shellTable given fd
  lowest : 0 < k → ∀ fd < (pipes 0).1, given fd ≠ none

theorem shellTable_eq_none : shellTable given fd = none ↔ given fd = none :=
  Option.map_eq_none_iff

/-- A descriptor that is closed is none of the pipes, and was closed before. -/
theorem Made.closed (h : Made given pipes k t) (hfd : t fd = none) :
    (∀ j < k, fd ≠ (pipes j).1 ∧ fd ≠ (pipes j).2) ∧ given fd = none := by
  have hnot : ∀ j < k, fd ≠ (pipes j).1 ∧ fd ≠ (pipes j).2 := by
    intro j hj
    obtain ⟨hread, hwrite⟩ := h.ends j hj
    refine ⟨fun heq => ?_, fun heq => ?_⟩
    · rw [← heq, hfd] at hread
      cases hread
    · rw [← heq, hfd] at hwrite
      cases hwrite
  refine ⟨hnot, ?_⟩
  rw [← shellTable_eq_none, ← h.rest fd hnot]
  exact hfd

theorem pipe_eq_some (h : pipe limit k t = some (fds, t')) :
    t fds.1 = none ∧ t fds.2 = none ∧ fds.1 ≠ fds.2 ∧ (∀ x < fds.1, t x ≠ none) ∧
      t' = Function.update (Function.update t fds.1 (some (.reader k))) fds.2 (some (.writer k)) := by
  unfold pipe at h
  simp only [Option.bind_eq_bind, Option.bind_eq_some_iff, Prod.exists] at h
  obtain ⟨r, t₁, hread, w, t₂, hwrite, heq⟩ := h
  cases heq
  obtain ⟨hr, hmin, rfl⟩ := allocate_eq_some hread
  obtain ⟨hw, -, rfl⟩ := allocate_eq_some hwrite
  have hnone := (mem_free.mp hw).2
  have hne : w ≠ r := by
    rintro rfl
    rw [Function.update_self] at hnone
    cases hnone
  rw [Function.update_of_ne hne] at hnone
  exact ⟨(mem_free.mp hr).2, hnone, hne.symm, hmin, rfl⟩

/-- **One more pipe is made.** -/
theorem Made.pipe (h : Made given pipes k t) (hpipe : Pipelines.pipe limit k t = some (fds, t')) :
    Made given (Function.update pipes k fds) (k + 1) t' := by
  obtain ⟨hread, hwrite, hne, hmin, rfl⟩ := pipe_eq_some hpipe
  obtain ⟨hreadNot, hreadFresh⟩ := h.closed hread
  obtain ⟨hwriteNot, hwriteFresh⟩ := h.closed hwrite
  have hold : ∀ j < k, Function.update pipes k fds j = pipes j := fun j hj =>
    Function.update_of_ne (Nat.ne_of_lt hj) ..
  refine ⟨fun j hj => ?_, fun j hj => ?_, fun fd hfd => ?_, fun _ fd hfd => ?_⟩
  · rcases Nat.lt_succ_iff_lt_or_eq.mp hj with hj | rfl
    · rw [hold j hj, Function.update_of_ne (hwriteNot j hj).1.symm, Function.update_of_ne (hreadNot j hj).1.symm,
        Function.update_of_ne (hwriteNot j hj).2.symm, Function.update_of_ne (hreadNot j hj).2.symm]
      exact h.ends j hj
    · rw [Function.update_self, Function.update_of_ne hne, Function.update_self, Function.update_self]
      exact ⟨rfl, rfl⟩
  · rcases Nat.lt_succ_iff_lt_or_eq.mp hj with hj | rfl
    · rw [hold j hj]
      exact h.fresh j hj
    · rw [Function.update_self]
      exact ⟨hreadFresh, hwriteFresh⟩
  · have hlast := hfd k (Nat.lt_succ_self k)
    rw [Function.update_self] at hlast
    rw [Function.update_of_ne hlast.2, Function.update_of_ne hlast.1]
    refine h.rest fd fun j hj => ?_
    rw [← hold j hj]
    exact hfd j (Nat.lt_succ_of_lt hj)
  · rcases Nat.eq_zero_or_pos k with rfl | hk
    · rw [Function.update_self] at hfd
      have hopen := hmin fd hfd
      rw [h.rest fd fun j hj => absurd hj (Nat.not_lt_zero j)] at hopen
      exact fun hnone => hopen (shellTable_eq_none.mpr hnone)
    · rw [hold 0 hk] at hfd
      exact h.lowest hk fd hfd

theorem made_of_makePipes (h : makePipes limit stack (shellTable given) n = some (pipes, t)) :
    Made given pipes n t := by
  induction n generalizing pipes t with
  | zero =>
    cases h
    exact ⟨fun j hj => absurd hj (Nat.not_lt_zero j), fun j hj => absurd hj (Nat.not_lt_zero j),
      fun _ _ => rfl, fun hk => absurd hk (Nat.lt_irrefl 0)⟩
  | succ n ih =>
    unfold makePipes at h
    simp only [Option.bind_eq_bind, Option.bind_eq_some_iff, Prod.exists] at h
    obtain ⟨pipes', t₁, hmade, r, w, t₂, hpipe, heq⟩ := h
    cases heq
    exact (ih hmade).pipe hpipe

/-! ### When there are enough descriptors -/

theorem card_free_pipe (h : pipe limit k t = some (fds, t')) :
    (free limit t').card + 2 = (free limit t).card := by
  unfold pipe at h
  simp only [Option.bind_eq_bind, Option.bind_eq_some_iff, Prod.exists] at h
  obtain ⟨r, t₁, hread, w, t₂, hwrite, heq⟩ := h
  cases heq
  have hfirst := card_free_allocate hread
  have hsecond := card_free_allocate hwrite
  omega

theorem pipe_isSome (h : 2 ≤ (free limit t).card) (k : ℕ) : ∃ r, pipe limit k t = some r := by
  obtain ⟨⟨r, t₁⟩, hread⟩ := allocate_isSome (Finset.card_pos.mp (show 0 < (free limit t).card by omega)) (End.reader k)
  have hfirst := card_free_allocate hread
  obtain ⟨⟨w, t₂⟩, hwrite⟩ :=
    allocate_isSome (Finset.card_pos.mp (show 0 < (free limit t₁).card by omega)) (End.writer k)
  refine ⟨((r, w), t₂), ?_⟩
  unfold pipe
  rw [hread]
  show (allocate limit (.writer k) t₁ >>= fun _ => _) = _
  rw [hwrite]
  rfl

theorem card_free_makePipes (h : makePipes limit stack t n = some (pipes, t')) :
    (free limit t').card + 2 * n = (free limit t).card := by
  induction n generalizing pipes t' with
  | zero =>
    cases h
    rfl
  | succ n ih =>
    unfold makePipes at h
    simp only [Option.bind_eq_bind, Option.bind_eq_some_iff, Prod.exists] at h
    obtain ⟨pipes', t₁, hmade, r, w, t₂, hpipe, heq⟩ := h
    cases heq
    have hlast := card_free_pipe hpipe
    have hprev := ih hmade
    omega

/-- **The pipes are made** if and only if two descriptors are left for each. -/
theorem makePipes_isSome_iff : (∃ r, makePipes limit stack t n = some r) ↔ 2 * n ≤ (free limit t).card := by
  constructor
  · intro ⟨⟨pipes, t'⟩, h⟩
    have hcard := card_free_makePipes h
    omega
  · intro h
    induction n with
    | zero => exact ⟨_, rfl⟩
    | succ n ih =>
      obtain ⟨⟨pipes, t₁⟩, hmade⟩ := ih (by omega)
      have hcard := card_free_makePipes hmade
      obtain ⟨⟨fds, t₂⟩, hpipe⟩ := pipe_isSome (show 2 ≤ (free limit t₁).card by omega) n
      refine ⟨(Function.update pipes n fds, t₂), ?_⟩
      unfold makePipes
      rw [hmade]
      show (Pipelines.pipe limit n t₁ >>= fun _ => _) = _
      rw [hpipe]
      rfl

/-! ### Closing the pipes -/

theorem closePipes_of_pipe {j : ℕ} (hj : j < n) (hfd : fd = (pipes j).1 ∨ fd = (pipes j).2) :
    closePipes pipes t n fd = none := by
  induction n with
  | zero => exact absurd hj (Nat.not_lt_zero j)
  | succ n ih =>
    show close (pipes n).2 (close (pipes n).1 (closePipes pipes t n)) fd = none
    unfold close
    by_cases hsecond : fd = (pipes n).2
    · rw [hsecond, Function.update_self]
    · rw [Function.update_of_ne hsecond]
      by_cases hfirst : fd = (pipes n).1
      · rw [hfirst, Function.update_self]
      · rw [Function.update_of_ne hfirst]
        refine ih (Nat.lt_of_le_of_ne (Nat.le_of_lt_succ hj) ?_)
        rintro rfl
        exact hfd.elim hfirst hsecond

theorem closePipes_of_ne (hfd : ∀ j < n, fd ≠ (pipes j).1 ∧ fd ≠ (pipes j).2) :
    closePipes pipes t n fd = t fd := by
  induction n with
  | zero => rfl
  | succ n ih =>
    show close (pipes n).2 (close (pipes n).1 (closePipes pipes t n)) fd = t fd
    obtain ⟨hfirst, hsecond⟩ := hfd n (Nat.lt_succ_self n)
    unfold close
    rw [Function.update_of_ne hsecond, Function.update_of_ne hfirst]
    exact ih fun j hj => hfd j (Nat.lt_succ_of_lt hj)

/-- **After the pipes are closed** the table is as it was before they were made, but for what has been
redirected to descriptors that were open. -/
theorem Made.closePipes (h : Made given pipes n t) {u : Table End} (hu : ∀ fd, given fd = none → u fd = t fd)
    (fd : ℕ) : Pipelines.closePipes pipes u n fd = if given fd = none then none else u fd := by
  by_cases hpipe : ∃ j < n, fd = (pipes j).1 ∨ fd = (pipes j).2
  · obtain ⟨j, hj, hfd⟩ := hpipe
    have hnone : given fd = none := by
      rcases hfd with rfl | rfl
      · exact (h.fresh j hj).1
      · exact (h.fresh j hj).2
    rw [closePipes_of_pipe hj hfd, if_pos hnone]
  · have hnot : ∀ j < n, fd ≠ (pipes j).1 ∧ fd ≠ (pipes j).2 := fun j hj =>
      ⟨fun heq => hpipe ⟨j, hj, .inl heq⟩, fun heq => hpipe ⟨j, hj, .inr heq⟩⟩
    rw [closePipes_of_ne hnot]
    split
    · rename_i hnone
      rw [hu fd hnone, h.rest fd hnot]
      exact shellTable_eq_none.mpr hnone
    · rfl

/-! ### The children -/

/-- A descriptor that was open is open on the same. -/
theorem Made.open (h : Made given pipes n t) (hfd : given fd ≠ none) : t fd = shellTable given fd :=
  h.rest fd fun j hj => by
    obtain ⟨hread, hwrite⟩ := h.fresh j hj
    exact ⟨fun heq => hfd (heq ▸ hread), fun heq => hfd (heq ▸ hwrite)⟩

/-- The table of a child before it closes the pipes. -/
def redirected (numCommands i : ℕ) (t : Table End) : Table End := fun fd =>
  if fd = STDIN_FILENO ∧ i ≠ 0 then some (.reader (i - 1))
  else if fd = STDOUT_FILENO ∧ i + 1 ≠ numCommands then some (.writer i)
  else t fd

theorem Made.redirect (h : Made given pipes (numCommands - 1) t) (hn : 2 ≤ numCommands) (hi : i < numCommands)
    (hstdin : given STDIN_FILENO ≠ none) :
    Pipelines.redirect numCommands i pipes t = redirected numCommands i t := by
  funext fd
  unfold Pipelines.redirect redirected
  by_cases hfirst : i = 0
  · have hwrite := (h.ends i (by omega)).2
    rw [if_pos hfirst, dup2_of_open hwrite, if_neg fun hc => hc.2 hfirst, Function.update_apply]
    by_cases hfd : fd = STDOUT_FILENO
    · rw [if_pos hfd, if_pos ⟨hfd, by omega⟩]
    · rw [if_neg hfd, if_neg fun hc => hfd hc.1]
  · have hread := (h.ends (i - 1) (by omega)).1
    rw [if_neg hfirst, dup2_of_open hread]
    by_cases hlast : i = numCommands - 1
    · rw [if_pos hlast, Function.update_apply]
      by_cases hfd : fd = STDIN_FILENO
      · rw [if_pos hfd, if_pos ⟨hfd, hfirst⟩]
      · rw [if_neg hfd, if_neg fun hc => hfd hc.1, if_neg fun hc => hc.2 (by omega)]
    · have hwrite := (h.ends i (by omega)).2
      have hne : (pipes i).2 ≠ STDIN_FILENO := by
        intro heq
        exact hstdin (heq ▸ (h.fresh i (by omega)).2)
      rw [← Function.update_of_ne hne (some (End.reader (i - 1))) t] at hwrite
      rw [if_neg hlast, dup2_of_open hwrite, Function.update_apply, Function.update_apply]
      by_cases hfd : fd = STDOUT_FILENO
      · rw [if_pos hfd, if_neg, if_pos ⟨hfd, by omega⟩]
        rintro ⟨hin, -⟩
        exact absurd (hin.symm.trans hfd) (by decide)
      · rw [if_neg hfd, if_neg fun hc : fd = STDOUT_FILENO ∧ i + 1 ≠ numCommands => hfd hc.1]
        by_cases hin : fd = STDIN_FILENO
        · rw [if_pos hin, if_pos ⟨hin, hfirst⟩]
        · rw [if_neg hin, if_neg fun hc => hin hc.1]

/-- **Each command is connected** when the standard descriptors of the shell are open. -/
theorem Made.wired (h : Made given pipes (numCommands - 1) t) (hn : 2 ≤ numCommands) (hi : i < numCommands)
    (hstdin : given STDIN_FILENO ≠ none) (hstdout : given STDOUT_FILENO ≠ none) :
    Pipelines.child numCommands i pipes t = Pipelines.wired given numCommands i := by
  unfold Pipelines.child
  rw [h.redirect hn hi hstdin]
  funext fd
  rw [h.closePipes (u := redirected numCommands i t)]
  · unfold redirected Pipelines.wired
    by_cases hfd : given fd = none
    · have hin : fd ≠ STDIN_FILENO := fun heq => hstdin (heq ▸ hfd)
      have hout : fd ≠ STDOUT_FILENO := fun heq => hstdout (heq ▸ hfd)
      rw [if_pos hfd, if_neg (fun hc : fd = STDIN_FILENO ∧ i ≠ 0 => hin hc.1),
        if_neg (fun hc : fd = STDOUT_FILENO ∧ i + 1 ≠ numCommands => hout hc.1), shellTable_eq_none.mpr hfd]
    · rw [if_neg hfd, h.open hfd]
  · intro x hx
    unfold redirected
    have hin : x ≠ STDIN_FILENO := fun heq => hstdin (heq ▸ hx)
    have hout : x ≠ STDOUT_FILENO := fun heq => hstdout (heq ▸ hx)
    rw [if_neg (fun hc : x = STDIN_FILENO ∧ i ≠ 0 => hin hc.1),
      if_neg (fun hc : x = STDOUT_FILENO ∧ i + 1 ≠ numCommands => hout hc.1)]

/-- The shell has the table that it had. -/
theorem Made.shell (h : Made given pipes n t) : Pipelines.closePipes pipes t n = shellTable given := by
  funext fd
  rw [h.closePipes fun _ _ => rfl]
  by_cases hfd : given fd = none
  · rw [if_pos hfd, shellTable_eq_none.mpr hfd]
  · rw [if_neg hfd, h.open hfd]

/-- **A child loses a standard descriptor** when the first pipe has it. -/
theorem not_wired (given : ℕ → Option ℕ) (t : Table End) (hn : 2 ≤ numCommands) (hlow : (pipes 0).1 ≤ 1) :
    ∃ i < numCommands, Pipelines.child numCommands i pipes t ≠ Pipelines.wired given numCommands i := by
  have hclosed : ∀ u : Table End, closePipes pipes u (numCommands - 1) (pipes 0).1 = none := fun u =>
    closePipes_of_pipe (show 0 < numCommands - 1 by omega) (.inl rfl)
  rcases Nat.le_one_iff_eq_zero_or_eq_one.mp hlow with hzero | hone
  · refine ⟨1, hn, fun heq => ?_⟩
    have hin := congrFun heq (pipes 0).1
    unfold Pipelines.child Pipelines.wired at hin
    rw [hclosed, if_pos ⟨hzero, by decide⟩] at hin
    cases hin
  · refine ⟨0, by omega, fun heq => ?_⟩
    have hout := congrFun heq (pipes 0).1
    unfold Pipelines.child Pipelines.wired at hout
    rw [hclosed, if_neg (fun hc => hc.2 rfl), if_pos ⟨hone, by omega⟩] at hout
    cases hout

/-- **The commands of a pipeline are connected as the line says**, and the shell has its own descriptors
again, if and only if its standard input and output are open and two descriptors are left for each pipe. -/
theorem pipeline_wired_iff (hn : 2 ≤ numCommands) (given : ℕ → Option ℕ) (limit : ℕ) (stack : ℕ → ℕ × ℕ) :
    (∃ children, execExternalJob limit numCommands stack (shellTable given) = some (children, shellTable given) ∧
      ∀ i < numCommands, children i = wired given numCommands i) ↔
    given STDIN_FILENO ≠ none ∧ given STDOUT_FILENO ≠ none ∧
      2 * (numCommands - 1) ≤ (free limit (shellTable given)).card := by
  constructor
  · intro ⟨children, hjob, hwired⟩
    unfold execExternalJob at hjob
    simp only [Option.bind_eq_bind, Option.bind_eq_some_iff, Prod.exists] at hjob
    obtain ⟨pipes, t, hpipes, heq⟩ := hjob
    obtain ⟨rfl, -⟩ := Prod.mk.inj (Option.some.inj heq)
    have hmade := made_of_makePipes hpipes
    have hlow : ¬(pipes 0).1 ≤ 1 := by
      intro hlow
      obtain ⟨i, hi, hne⟩ := not_wired given t hn hlow
      exact hne (hwired i hi)
    have hopen := hmade.lowest (by omega)
    refine ⟨hopen 0 (by omega), hopen 1 (by omega), makePipes_isSome_iff.mp ⟨_, hpipes⟩⟩
  · intro ⟨hstdin, hstdout, hfree⟩
    obtain ⟨⟨pipes, t⟩, hpipes⟩ := makePipes_isSome_iff.mpr hfree
    have hmade := made_of_makePipes hpipes
    refine ⟨fun i => child numCommands i pipes t, ?_, fun i hi => hmade.wired hn hi hstdin hstdout⟩
    unfold execExternalJob
    rw [hpipes]
    show some (_, closePipes pipes t (numCommands - 1)) = _
    rw [hmade.shell]

/-- A shell with three open descriptors. -/
def terminal : ℕ → Option ℕ := fun fd => if fd < 3 then some fd else none

theorem pipeline_wired_three : ∃ children,
    execExternalJob 16 3 (fun _ => (0, 0)) (shellTable terminal) = some (children, shellTable terminal) ∧
      ∀ i < 3, children i = wired terminal 3 i :=
  (pipeline_wired_iff (by decide) terminal 16 _).mpr ⟨by decide, by decide, by decide⟩

/-! ### End of file -/

theorem shellTable_ne (e : End) (he : ∀ d, e ≠ .given d) (fd : ℕ) : shellTable given fd ≠ some e := by
  intro h
  obtain ⟨d, -, hd⟩ := Option.map_eq_some_iff.mp h
  exact he d hd.symm

/-- **The reading end of a pipe is open in one command only**, as its input. -/
theorem reader_held_once : wired given numCommands i fd = some (.reader k) ↔ fd = STDIN_FILENO ∧ i = k + 1 := by
  unfold wired
  split
  · rename_i h
    rw [Option.some_inj, End.reader.injEq]
    exact ⟨fun hk => ⟨h.1, by have := h.2; omega⟩, fun hk => by omega⟩
  · rename_i h
    have hno : ¬(fd = STDIN_FILENO ∧ i = k + 1) := fun hc => h ⟨hc.1, by omega⟩
    split
    · exact ⟨fun hc => (by cases hc), fun hc => absurd hc hno⟩
    · exact ⟨fun hc => absurd hc (shellTable_ne _ (fun d hd => (by cases hd)) fd), fun hc => absurd hc hno⟩

/-- **The writing end of a pipe is open in one command only**, as its output: it is closed when that command
ends. -/
theorem writer_held_once (hk : k + 1 < numCommands) :
    wired given numCommands i fd = some (.writer k) ↔ fd = STDOUT_FILENO ∧ i = k := by
  unfold wired
  split
  · rename_i h
    refine ⟨fun hc => (by cases hc), fun hc => ?_⟩
    exact absurd (h.1.symm.trans hc.1) (by decide)
  · split
    · rename_i h
      rw [Option.some_inj, End.writer.injEq]
      exact ⟨fun hc => ⟨h.1, hc⟩, fun hc => hc.2⟩
    · rename_i h
      refine ⟨fun hc => absurd hc (shellTable_ne _ (fun d hd => (by cases hd)) fd), fun hc => ?_⟩
      exact absurd ⟨hc.1, by omega⟩ h

end OperatingSystems.Shell.Pipelines
