import OperatingSystems.Lastcat.Getlastcat
import OperatingSystems.Lib.GuardedRuns

/-!
# What the kernel takes for the argument of `cat`

`open` and `read` store a name in `last_cat_arg` when the name of the calling process begins with `cat`.
Runs of these calls by any processes are compared with a history of what processes named `cat` did: it keeps
which descriptors each process opened itself, and the outcome of the last event.

* **`event`** — what a call should leave in `last_cat_arg`.
* **`Meets`** — the condition on a call; **`recorded_eq_event_iff`** says that it is the exact one.
* **`tracks_of_meets`** — in runs whose calls meet it, `last_cat_arg` is the outcome of the last event.
-/

namespace OperatingSystems.Lastcat

open GuardedRuns

/-! ### The calls -/

def NOFILE : ℕ := 16

def O_RDONLY : UInt32 := 0

def O_CREATE : UInt32 := 0x200

/-- The parts of a process that the calls look at. -/
structure Proc where
  name : Str
  ofile : ℕ → Option ℕ

structure State where
  proc : ℕ → Proc
  last_cat_arg : List UInt8

/-- A string of the caller ends before its first zero. -/
abbrev CString := { s : Str // (0 : UInt8) ∉ s }

def cat : Str := bytes ['c', 'a', 't']

def noArgsWerePassed : Str :=
  bytes ['N', 'o', ' ', 'a', 'r', 'g', 's', ' ', 'w', 'e', 'r', 'e', ' ', 'p', 'a', 's', 's', 'e', 'd']

def invalidFilename : Str :=
  bytes ['I', 'n', 'v', 'a', 'l', 'i', 'd', ' ', 'f', 'i', 'l', 'e', 'n', 'a', 'm', 'e']

/-- `strncmp(myproc()->name, "cat", strlen("cat")) == 0` -/
def Proc.isCat (p : Proc) : Bool := cat.isPrefixOf p.name

def argfd (p : Proc) (fd : ℤ) : Option ℕ :=
  if 0 ≤ fd ∧ fd < NOFILE then p.ofile fd.toNat else none

def fdalloc (p : Proc) : Option ℕ := (List.range NOFILE).find? fun fd => (p.ofile fd).isNone

/-- `safestrcpy(last_cat_arg, t, 256)`, which is taken as one step: no other call stores in between. -/
def storeArg (t : Str) (a : List UInt8) : List UInt8 :=
  safestrcpy t 256 ++ a.drop (safestrcpy t 256).length

def State.store (s : State) (t : Str) : State := { s with last_cat_arg := storeArg t s.last_cat_arg }

def State.setFile (s : State) (pid fd : ℕ) (f : Option ℕ) : State :=
  let p := s.proc pid
  { s with proc := Function.update s.proc pid ⟨p.name, Function.update p.ofile fd f⟩ }

/-- What the rest of the kernel answers to `open`. -/
structure Answers where
  /-- The arguments can be fetched. -/
  args : Bool
  /-- `create` returns an inode. -/
  create : Bool
  /-- The path leads to an inode, which is a directory or not. -/
  namei : Option Bool
  filealloc : Option ℕ

/-- The end of `sys_open`, once there is an inode. -/
def giveDescriptor (s : State) (pid : ℕ) (path : CString) (a : Answers) : State × ℤ :=
  match a.filealloc with
  | none => (s, -1)
  | some f =>
    match fdalloc (s.proc pid) with
    | none => (s, -1)
    | some fd =>
      let s' := s.setFile pid fd (some f)
      (if (s.proc pid).isCat then s'.store path.1 else s', fd)

def sys_open (s : State) (pid : ℕ) (path : CString) (omode : UInt32) (a : Answers) : State × ℤ :=
  if a.args = false then (s, -1)
  else if omode &&& O_CREATE ≠ 0 then
    if a.create = false then (s, -1) else giveDescriptor s pid path a
  else
    match a.namei with
    | none => (if (s.proc pid).isCat then s.store invalidFilename else s, -1)
    | some isDir => if isDir ∧ omode ≠ O_RDONLY then (s, -1) else giveDescriptor s pid path a

/-- `sys_read`, where `args` says whether the buffer and its length are valid, and `fileread` is the result of
that function. -/
def sys_read (s : State) (pid : ℕ) (fd : ℤ) (args : Bool) (fileread : ℤ) : State × ℤ :=
  if argfd (s.proc pid) fd = none ∨ args = false then (s, -1)
  else (if (s.proc pid).isCat ∧ fd = 0 then s.store noArgsWerePassed else s, fileread)

def sys_close (s : State) (pid : ℕ) (fd : ℤ) : State × ℤ :=
  match argfd (s.proc pid) fd with
  | none => (s, -1)
  | some _ => (s.setFile pid fd.toNat none, 0)

/-! ### Histories -/

/-- The kernel, with the descriptors that each process opened itself and the outcome of the last event. -/
structure History where
  state : State
  opened : ℕ → ℤ → Bool
  expected : Str

inductive Call
  | openFile (pid : ℕ) (path : CString) (omode : UInt32) (a : Answers)
  | read (pid : ℕ) (fd : ℤ) (args : Bool) (fileread : ℤ)
  | close (pid : ℕ) (fd : ℤ)

section Runs

-- the processes that were started without arguments
variable (noArgs : ℕ → Bool)

/-- The outcome that a call of a process named `cat` should leave in `last_cat_arg`. -/
def event (h : History) : Call → Option Str
  | .openFile pid path omode a =>
    if (h.state.proc pid).name = cat ∧ a.args then
      if 0 ≤ (sys_open h.state pid path omode a).2 then
        if omode &&& O_CREATE = 0 then some (path.1.take 255) else none
      else if a.namei = none then some invalidFilename
      else none
    else none
  | .read pid fd _ _ =>
    if (h.state.proc pid).name = cat ∧ noArgs pid ∧ h.opened pid fd = false then some noArgsWerePassed
    else none
  | .close _ _ => none

def next (h : History) (call : Call) : History :=
  let expected := (event noArgs h call).getD h.expected
  match call with
  | .openFile pid path omode a =>
    let (state, fd) := sys_open h.state pid path omode a
    ⟨state, if 0 ≤ fd then Function.update h.opened pid (Function.update (h.opened pid) fd true) else h.opened,
      expected⟩
  | .read pid fd args fileread => ⟨(sys_read h.state pid fd args fileread).1, h.opened, expected⟩
  | .close pid fd =>
    ⟨(sys_close h.state pid fd).1, Function.update h.opened pid (Function.update (h.opened pid) fd false),
      expected⟩

def step (h : History) (call : Call) (h' : History) : Prop := h' = next noArgs h call

/-- No process has opened anything itself yet; its descriptors are those it was started with. -/
def init (h : History) : Prop :=
  h.opened = (fun _ _ => false) ∧ h.expected = cstr h.state.last_cat_arg

/-! ### The condition -/

/-- There is an inode that may be opened in this way. -/
def granted (omode : UInt32) (a : Answers) : Prop :=
  a.args ∧ if omode &&& O_CREATE ≠ 0 then a.create = true
    else a.namei = some false ∨ a.namei = some true ∧ omode = O_RDONLY

instance (omode : UInt32) (a : Answers) : Decidable (granted omode a) := inferInstanceAs (Decidable (_ ∧ _))

/-- There is no such file, and none is to be created. -/
def missing (omode : UInt32) (a : Answers) : Prop :=
  a.args ∧ omode &&& O_CREATE = 0 ∧ a.namei = none

instance (omode : UInt32) (a : Answers) : Decidable (missing omode a) := inferInstanceAs (Decidable (_ ∧ _))

/-- The call gives out a descriptor. -/
def opens (p : Proc) (omode : UInt32) (a : Answers) : Prop :=
  granted omode a ∧ a.filealloc ≠ none ∧ fdalloc p ≠ none

instance (p : Proc) (omode : UInt32) (a : Answers) : Decidable (opens p omode a) :=
  inferInstanceAs (Decidable (_ ∧ _))

/-- The arguments are accepted, and the descriptor is that of the standard input. -/
def readsInput (p : Proc) (fd : ℤ) (args : Bool) : Prop := args ∧ argfd p fd ≠ none ∧ fd = 0

instance (p : Proc) (fd : ℤ) (args : Bool) : Decidable (readsInput p fd args) :=
  inferInstanceAs (Decidable (_ ∧ _))

/-- Of the processes whose names begin with `cat` only those named so store anything; they do not create
files, and read their standard input when, and only when, they were started without arguments. -/
def Meets (h : History) : Call → Prop
  | .openFile pid _ omode a =>
    let p := h.state.proc pid
    (p.isCat → p.name ≠ cat → ¬opens p omode a ∧ ¬missing omode a) ∧
      (p.name = cat → a.args → omode &&& O_CREATE ≠ 0 → ¬opens p omode a ∧ a.namei ≠ none)
  | .read pid fd args _ =>
    let p := h.state.proc pid
    (p.isCat → p.name ≠ cat → ¬readsInput p fd args) ∧
      (p.name = cat → (readsInput p fd args ↔ noArgs pid ∧ h.opened pid fd = false))
  | .close _ _ => True

end Runs

variable {noArgs : ℕ → Bool} {h : History} {s : State} {p : Proc} {pid : ℕ} {path : CString} {omode : UInt32}
  {a : Answers} {fd r : ℤ} {args : Bool} {t : Str}

/-! ### What a call stores -/

theorem cstr_safestrcpy (ht : 0 ∉ t) (n : ℕ) (rest : List UInt8) :
    cstr (safestrcpy t (n + 1) ++ rest) = t.take n := by
  induction t generalizing n with
  | nil =>
    cases n with
    | zero => rfl
    | succ n => rfl
  | cons c t ih =>
    rw [List.mem_cons, not_or] at ht
    cases n with
    | zero => rfl
    | succ n =>
      have hc : (c != 0) = true := bne_iff_ne.mpr fun heq => ht.1 heq.symm
      show (c :: (safestrcpy t (n + 1) ++ rest)).takeWhile (· != 0) = c :: t.take n
      exact (List.takeWhile_cons_of_pos (p := (· != 0)) hc).trans (congrArg (c :: ·) (ih ht.2 n))

/-- The stored string is cut to 255 characters. -/
theorem cstr_storeArg (ht : 0 ∉ t) (b : List UInt8) : cstr (storeArg t b) = t.take 255 :=
  cstr_safestrcpy ht 255 _

/-- **What `open` does**, in the order of its exits. -/
theorem sys_open_cases (s : State) (pid : ℕ) (path : CString) (omode : UInt32) (a : Answers) :
    (opens (s.proc pid) omode a ∧ ∃ f fd : ℕ, sys_open s pid path omode a =
      (if (s.proc pid).isCat then (s.setFile pid fd (some f)).store path.1 else s.setFile pid fd (some f),
        (fd : ℤ))) ∨
    (missing omode a ∧ sys_open s pid path omode a =
      (if (s.proc pid).isCat then s.store invalidFilename else s, -1)) ∨
    (¬opens (s.proc pid) omode a ∧ ¬missing omode a ∧ sys_open s pid path omode a = (s, -1)) := by
  have hgive : granted omode a → ¬missing omode a → sys_open s pid path omode a = giveDescriptor s pid path a →
      (opens (s.proc pid) omode a ∧ ∃ f fd : ℕ, sys_open s pid path omode a =
        (if (s.proc pid).isCat then (s.setFile pid fd (some f)).store path.1 else s.setFile pid fd (some f),
          (fd : ℤ))) ∨
      (¬opens (s.proc pid) omode a ∧ ¬missing omode a ∧ sys_open s pid path omode a = (s, -1)) := by
    intro hgranted hmissing heq
    rw [heq]
    unfold giveDescriptor
    cases hf : a.filealloc with
    | none => exact .inr ⟨fun h => h.2.1 hf, hmissing, rfl⟩
    | some f =>
      cases hfd : fdalloc (s.proc pid) with
      | none => exact .inr ⟨fun h => h.2.2 hfd, hmissing, rfl⟩
      | some fd =>
        refine .inl ⟨⟨hgranted, ?_, ?_⟩, f, fd, rfl⟩
        · rw [hf]
          exact Option.some_ne_none f
        · rw [hfd]
          exact Option.some_ne_none fd
  cases hargs : a.args with
  | false =>
    have hno : ¬a.args = true := by rw [hargs]; exact Bool.false_ne_true
    exact .inr (.inr ⟨fun h => hno h.1.1, fun h => hno h.1, if_pos hargs⟩)
  | true =>
    have hgo : ¬a.args = false := by rw [hargs]; exact Bool.true_eq_false.mp
    by_cases hflag : omode &&& O_CREATE ≠ 0
    · have hmissing : ¬missing omode a := fun h => hflag h.2.1
      have hcreate : sys_open s pid path omode a =
          if a.create = false then (s, -1) else giveDescriptor s pid path a := by
        unfold sys_open
        rw [if_neg hgo, if_pos hflag]
      by_cases hfail : a.create = false
      · have hopens : ¬opens (s.proc pid) omode a := by
          intro h
          have hgranted := h.1.2
          rw [if_pos hflag, hfail] at hgranted
          cases hgranted
        rw [if_pos hfail] at hcreate
        exact .inr (.inr ⟨hopens, hmissing, hcreate⟩)
      · have hgranted : granted omode a := by
          refine ⟨hargs, ?_⟩
          rw [if_pos hflag]
          exact Bool.not_eq_false _ ▸ hfail
        rw [if_neg hfail] at hcreate
        exact (hgive hgranted hmissing hcreate).imp_right .inr
    · have hzero : omode &&& O_CREATE = 0 := not_not.mp hflag
      cases hnamei : a.namei with
      | none =>
        refine .inr (.inl ⟨⟨hargs, hzero, hnamei⟩, ?_⟩)
        unfold sys_open
        rw [if_neg hgo, if_neg hflag, hnamei]
      | some isDir =>
        have hmissing : ¬missing omode a := by
          intro h
          rw [h.2.2] at hnamei
          cases hnamei
        have hopen : sys_open s pid path omode a =
            if isDir = true ∧ omode ≠ O_RDONLY then (s, -1) else giveDescriptor s pid path a := by
          unfold sys_open
          rw [if_neg hgo, if_neg hflag, hnamei]
        by_cases hdir : isDir = true ∧ omode ≠ O_RDONLY
        · have hopens : ¬opens (s.proc pid) omode a := by
            intro h
            have hgranted := h.1.2
            rw [if_neg hflag, hnamei, hdir.1] at hgranted
            rcases hgranted with h | h
            · cases h
            · exact hdir.2 h.2
          rw [if_pos hdir] at hopen
          exact .inr (.inr ⟨hopens, hmissing, hopen⟩)
        · have hgranted : granted omode a := by
            refine ⟨hargs, ?_⟩
            rw [if_neg hflag, hnamei]
            cases isDir with
            | false => exact .inl rfl
            | true => exact .inr ⟨rfl, not_not.mp fun h => hdir ⟨rfl, h⟩⟩
          rw [if_neg hdir] at hopen
          exact (hgive hgranted hmissing hopen).imp_right .inr

theorem not_missing_of_opens (h : opens p omode a) : ¬missing omode a := by
  intro ⟨_, hzero, hnamei⟩
  have hgranted := h.1.2
  rw [if_neg (not_not.mpr hzero), hnamei] at hgranted
  rcases hgranted with h | h
  · cases h
  · cases h.1

theorem sys_open_result : 0 ≤ (sys_open s pid path omode a).2 ↔ opens (s.proc pid) omode a := by
  rcases sys_open_cases s pid path omode a with ⟨hopens, f, fd, heq⟩ | ⟨hmissing, heq⟩ | ⟨hopens, _, heq⟩
  · rw [heq]
    exact iff_of_true (Int.natCast_nonneg fd) hopens
  · rw [heq]
    exact iff_of_false (by norm_num) fun h => not_missing_of_opens h hmissing
  · rw [heq]
    exact iff_of_false (by norm_num) hopens

/-- The string that a call hands to `safestrcpy`. -/
def recorded (s : State) : Call → Option Str
  | .openFile pid path omode a =>
    if (s.proc pid).isCat then
      if opens (s.proc pid) omode a then some path.1
      else if missing omode a then some invalidFilename
      else none
    else none
  | .read pid fd args _ =>
    if (s.proc pid).isCat ∧ readsInput (s.proc pid) fd args then some noArgsWerePassed else none
  | .close _ _ => none

theorem sys_open_last_cat_arg : (sys_open s pid path omode a).1.last_cat_arg =
    (recorded s (.openFile pid path omode a)).elim s.last_cat_arg fun t => storeArg t s.last_cat_arg := by
  show _ = (if (s.proc pid).isCat then
      if opens (s.proc pid) omode a then some path.1
      else if missing omode a then some invalidFilename
      else none
    else none).elim s.last_cat_arg fun t => storeArg t s.last_cat_arg
  rcases sys_open_cases s pid path omode a with ⟨hopens, f, fd, heq⟩ | ⟨hmissing, heq⟩ | ⟨hopens, hmissing, heq⟩
  · rw [heq, if_pos hopens]
    cases (s.proc pid).isCat with
    | false => rfl
    | true => rfl
  · rw [heq, if_neg fun h => not_missing_of_opens h hmissing, if_pos hmissing]
    cases (s.proc pid).isCat with
    | false => rfl
    | true => rfl
  · rw [heq, if_neg hopens, if_neg hmissing, ite_self]
    rfl

theorem sys_read_last_cat_arg : (sys_read s pid fd args r).1.last_cat_arg =
    (recorded s (.read pid fd args r)).elim s.last_cat_arg fun t => storeArg t s.last_cat_arg := by
  show _ = (if (s.proc pid).isCat ∧ readsInput (s.proc pid) fd args then some noArgsWerePassed
    else none).elim s.last_cat_arg fun t => storeArg t s.last_cat_arg
  unfold sys_read
  by_cases hbad : argfd (s.proc pid) fd = none ∨ args = false
  · have hno : ¬((s.proc pid).isCat = true ∧ readsInput (s.proc pid) fd args) := by
      intro ⟨_, hargs, hfd, _⟩
      rcases hbad with h | h
      · exact hfd h
      · rw [h] at hargs
        cases hargs
    rw [if_pos hbad, if_neg hno]
    rfl
  · obtain ⟨hfd, hargs⟩ := not_or.mp hbad
    rw [if_neg hbad]
    by_cases hinput : (s.proc pid).isCat = true ∧ fd = 0
    · rw [if_pos hinput, if_pos ⟨hinput.1, Bool.not_eq_false _ ▸ hargs, hfd, hinput.2⟩]
      rfl
    · rw [if_neg hinput, if_neg fun h => hinput ⟨h.1, h.2.2.2⟩]
      rfl

theorem sys_close_last_cat_arg : (sys_close s pid fd).1.last_cat_arg = s.last_cat_arg := by
  unfold sys_close
  split
  · rfl
  · rfl

/-- A call leaves `last_cat_arg` as it is, or stores the first 255 characters of a string. -/
theorem next_last_cat_arg (call : Call) : cstr (next noArgs h call).state.last_cat_arg =
    ((recorded h.state call).map (·.take 255)).getD (cstr h.state.last_cat_arg) := by
  have hstore : ∀ o : Option Str, (∀ t ∈ o, 0 ∉ t) →
      cstr (o.elim h.state.last_cat_arg fun t => storeArg t h.state.last_cat_arg) =
        (o.map (·.take 255)).getD (cstr h.state.last_cat_arg) := by
    intro o ho
    cases o with
    | none => rfl
    | some t => exact cstr_storeArg (ho t rfl) _
  have hplain : ∀ t ∈ recorded h.state call, 0 ∉ t := by
    intro t ht
    unfold recorded at ht
    cases call with
    | openFile pid path omode a =>
      dsimp only at ht
      split at ht
      · split at ht
        · rw [← Option.some.inj ht]
          exact path.2
        · split at ht
          · rw [← Option.some.inj ht]
            decide
          · cases ht
      · cases ht
    | read pid fd args r =>
      dsimp only at ht
      split at ht
      · rw [← Option.some.inj ht]
        decide
      · cases ht
    | close pid fd => cases ht
  cases call with
  | openFile pid path omode a =>
    show cstr (sys_open h.state pid path omode a).1.last_cat_arg = _
    rw [sys_open_last_cat_arg]
    exact hstore _ hplain
  | read pid fd args r =>
    show cstr (sys_read h.state pid fd args r).1.last_cat_arg = _
    rw [sys_read_last_cat_arg]
    exact hstore _ hplain
  | close pid fd =>
    show cstr (sys_close h.state pid fd).1.last_cat_arg = _
    rw [sys_close_last_cat_arg]
    rfl

theorem next_expected (call : Call) :
    (next noArgs h call).expected = (event noArgs h call).getD h.expected := by
  cases call with
  | openFile pid path omode a => rfl
  | read pid fd args r => rfl
  | close pid fd => rfl

/-! ### Where the two agree -/

theorem isCat_of_name (h : p.name = cat) : p.isCat = true := by
  unfold Proc.isCat
  rw [h]
  decide

/-- A call of a process with another name is not an event. -/
theorem event_openFile (pid : ℕ) (path : CString) (omode : UInt32) (a : Answers) :
    event noArgs h (.openFile pid path omode a) =
      if (h.state.proc pid).name = cat ∧ a.args then
        if opens (h.state.proc pid) omode a then
          if omode &&& O_CREATE = 0 then some (path.1.take 255) else none
        else if a.namei = none then some invalidFilename
        else none
      else none := by
  simp only [event, sys_open_result]

/-- Of a process named `cat` the two differ only where a file is to be created. -/
theorem openFile_of_name {path : CString} (hname : (h.state.proc pid).name = cat) :
    (recorded h.state (.openFile pid path omode a)).map (·.take 255) =
        event noArgs h (.openFile pid path omode a) ↔
      (a.args → omode &&& O_CREATE ≠ 0 → ¬opens (h.state.proc pid) omode a ∧ a.namei ≠ none) := by
  rw [event_openFile]
  show Option.map _ (if (h.state.proc pid).isCat then _ else none) = _ ↔ _
  rw [if_pos (isCat_of_name hname)]
  by_cases hargs : a.args = true
  · have hcase : (h.state.proc pid).name = cat ∧ a.args = true := ⟨hname, hargs⟩
    rw [if_pos hcase]
    by_cases hopens : opens (h.state.proc pid) omode a
    · rw [if_pos hopens, if_pos hopens]
      by_cases hzero : omode &&& O_CREATE = 0
      · rw [if_pos hzero]
        exact iff_of_true rfl fun _ hflag => absurd hzero hflag
      · rw [if_neg hzero]
        exact iff_of_false (fun heq => by cases heq) fun hmeets => (hmeets hargs hzero).1 hopens
    · rw [if_neg hopens, if_neg hopens]
      by_cases hzero : omode &&& O_CREATE = 0
      · refine iff_of_true ?_ fun _ hflag => absurd hzero hflag
        by_cases hnamei : a.namei = none
        · rw [if_pos ⟨hargs, hzero, hnamei⟩, if_pos hnamei]
          decide
        · rw [if_neg fun hmissing => hnamei hmissing.2.2, if_neg hnamei]
          rfl
      · rw [if_neg fun hmissing => hzero hmissing.2.1]
        by_cases hnamei : a.namei = none
        · rw [if_pos hnamei]
          exact iff_of_false (fun heq => by cases heq) fun hmeets => (hmeets hargs hzero).2 hnamei
        · rw [if_neg hnamei]
          exact iff_of_true rfl fun _ _ => ⟨hopens, hnamei⟩
  · have hcase : ¬((h.state.proc pid).name = cat ∧ a.args = true) := fun hcase => hargs hcase.2
    have hopens : ¬opens (h.state.proc pid) omode a := fun hopens => hargs hopens.1.1
    have hmissing : ¬missing omode a := fun hmissing => hargs hmissing.1
    rw [if_neg hcase, if_neg hopens, if_neg hmissing]
    exact iff_of_true rfl fun hargs' => absurd hargs' hargs

/-- A process with another name is not to store anything. -/
theorem openFile_of_ne {path : CString} (hname : (h.state.proc pid).name ≠ cat) :
    (recorded h.state (.openFile pid path omode a)).map (·.take 255) =
        event noArgs h (.openFile pid path omode a) ↔
      ((h.state.proc pid).isCat → ¬opens (h.state.proc pid) omode a ∧ ¬missing omode a) := by
  rw [event_openFile, if_neg fun hcase => hname hcase.1]
  show Option.map _ (if (h.state.proc pid).isCat then
    if opens (h.state.proc pid) omode a then some path.1
    else if missing omode a then some invalidFilename else none
    else none) = none ↔ _
  rw [Option.map_eq_none_iff]
  by_cases hcat : (h.state.proc pid).isCat = true
  · rw [if_pos hcat, forall_prop_of_true hcat]
    by_cases hopens : opens (h.state.proc pid) omode a
    · rw [if_pos hopens]
      exact iff_of_false (fun heq => by cases heq) fun hno => hno.1 hopens
    · rw [if_neg hopens, and_iff_right hopens]
      by_cases hmissing : missing omode a
      · rw [if_pos hmissing]
        exact iff_of_false (fun heq => by cases heq) fun hno => hno hmissing
      · rw [if_neg hmissing]
        exact iff_of_true rfl hmissing
  · rw [if_neg hcat]
    exact iff_of_true rfl fun hcat' => absurd hcat' hcat

theorem read_iff : (recorded h.state (.read pid fd args r)).map (·.take 255) =
      event noArgs h (.read pid fd args r) ↔
    ((h.state.proc pid).isCat ∧ readsInput (h.state.proc pid) fd args ↔
      (h.state.proc pid).name = cat ∧ noArgs pid ∧ h.opened pid fd = false) := by
  show Option.map _ (if (h.state.proc pid).isCat ∧ readsInput (h.state.proc pid) fd args then
      some noArgsWerePassed else none) =
    (if (h.state.proc pid).name = cat ∧ noArgs pid ∧ h.opened pid fd = false then some noArgsWerePassed
      else none) ↔ _
  by_cases hrecorded : (h.state.proc pid).isCat = true ∧ readsInput (h.state.proc pid) fd args
  · rw [if_pos hrecorded, iff_true_left hrecorded]
    by_cases hevent : (h.state.proc pid).name = cat ∧ noArgs pid = true ∧ h.opened pid fd = false
    · rw [if_pos hevent]
      exact iff_of_true (by decide) hevent
    · rw [if_neg hevent]
      exact iff_of_false (fun heq => by cases heq) hevent
  · rw [if_neg hrecorded, iff_false_left hrecorded]
    by_cases hevent : (h.state.proc pid).name = cat ∧ noArgs pid = true ∧ h.opened pid fd = false
    · rw [if_pos hevent]
      exact iff_of_false (fun heq => by cases heq) fun hno => hno hevent
    · rw [if_neg hevent]
      exact iff_of_true rfl hevent

/-- **The condition is exact**: a call stores the outcome of the event that it is, if it is one, and nothing
otherwise. -/
theorem recorded_eq_event_iff (call : Call) :
    (recorded h.state call).map (·.take 255) = event noArgs h call ↔ Meets noArgs h call := by
  cases call with
  | openFile pid path omode a =>
    by_cases hname : (h.state.proc pid).name = cat
    · rw [openFile_of_name hname]
      exact ⟨fun hcond => ⟨fun _ hne => absurd hname hne, fun _ => hcond⟩, fun hmeets => hmeets.2 hname⟩
    · rw [openFile_of_ne hname]
      exact ⟨fun hcond => ⟨fun hcat _ => hcond hcat, fun heq => absurd heq hname⟩,
        fun hmeets hcat => hmeets.1 hcat hname⟩
  | read pid fd args r =>
    rw [read_iff]
    by_cases hname : (h.state.proc pid).name = cat
    · rw [and_iff_right (isCat_of_name hname), and_iff_right hname]
      exact ⟨fun hcond => ⟨fun _ hne => absurd hname hne, fun _ => hcond⟩, fun hmeets => hmeets.2 hname⟩
    · have hnone : ¬((h.state.proc pid).name = cat ∧ noArgs pid ∧ h.opened pid fd = false) :=
        fun hevent => hname hevent.1
      rw [iff_false_right hnone, not_and]
      exact ⟨fun hcond => ⟨fun hcat _ => hcond hcat, fun heq => absurd heq hname⟩,
        fun hmeets hcat => hmeets.1 hcat hname⟩
  | close pid fd => exact iff_of_true rfl trivial

/-- **`last_cat_arg` is the outcome of the last event**, in runs whose calls meet the condition. -/
theorem tracks_of_meets (hreach : Reach init (step noArgs) (Meets noArgs) h) :
    cstr h.state.last_cat_arg = h.expected := by
  apply hreach.invariant (I := fun h => cstr h.state.last_cat_arg = h.expected)
  · intro h hinit
    exact hinit.2.symm
  · intro h call h' htracks hmeets hstep
    rw [show h' = next noArgs h call from hstep, next_last_cat_arg, next_expected, htracks,
      (recorded_eq_event_iff call).mpr hmeets]

/-- Every process is `cat`; it has a standard input, or no descriptor at all. -/
def started (input : Bool) : History where
  state := ⟨fun _ => ⟨cat, fun fd => if input ∧ fd = 0 then some 0 else none⟩, last_cat_arg⟩
  opened := fun _ _ => false
  expected := cstr last_cat_arg

/-- Processes `1` and `2` are `cat`, the former started without arguments, and process `3` is `sh`; each has a
standard input. -/
def mixed : History where
  state := ⟨fun pid => ⟨if pid = 3 then bytes ['s', 'h'] else cat, fun fd => if fd = 0 then some 0 else none⟩,
    last_cat_arg⟩
  opened := fun _ _ => false
  expected := cstr last_cat_arg

/-- Process `2` opens `a`. -/
def openA : Call := .openFile 2 ⟨bytes ['a'], by decide⟩ O_RDONLY ⟨true, false, some false, some 1⟩

/-- Process `3` creates `b`. -/
def createB : Call := .openFile 3 ⟨bytes ['b'], by decide⟩ O_CREATE ⟨true, true, none, some 2⟩

/-- A `cat` without arguments reads its standard input, another one opens a file, and `sh` creates one and
reads its own standard input: the name of the file that was opened stays. -/
theorem tracks_mixed :
    let h := run (next fun pid => pid == 1) mixed [.read 1 0 true 0, openA, createB, .read 3 0 true 0]
    cstr h.state.last_cat_arg = h.expected ∧ h.expected = bytes ['a'] := by
  refine ⟨@tracks_of_meets (fun pid => pid == 1) _ ?_, by decide⟩
  refine .next (a := .read 3 0 true 0) (.next (a := createB) (.next (a := openA)
    (.next (a := .read 1 0 true 0) (.start ⟨rfl, rfl⟩) ?_ rfl) ?_ rfl) ?_ rfl) ?_ rfl
  · exact (recorded_eq_event_iff _).mp (by decide)
  · exact (recorded_eq_event_iff _).mp (by decide)
  · exact (recorded_eq_event_iff _).mp (by decide)
  · exact (recorded_eq_event_iff _).mp (by decide)

/-- `cat a` is started without a standard input: the file becomes its descriptor 0. -/
def withoutInput : List Call :=
  [.openFile 1 ⟨bytes ['a'], by decide⟩ O_RDONLY ⟨true, false, some false, some 0⟩, .read 1 0 true 0]

/-- Reading the file that it opened leaves a wrong name behind. -/
theorem input_closed : ∃ h, Reach init (step fun _ => false) (fun _ _ => True) h ∧
    h.expected = bytes ['a'] ∧ cstr h.state.last_cat_arg = noArgsWerePassed :=
  ⟨run (next fun _ => false) (started false) withoutInput,
    Reach.run (fun _ _ => trivial) withoutInput _ (.start ⟨rfl, rfl⟩), by decide, by decide⟩

end OperatingSystems.Lastcat
