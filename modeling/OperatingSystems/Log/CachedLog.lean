import OperatingSystems.Log.BufferCache
import OperatingSystems.Log.Reservation

/-!
# The log over the buffer cache

`log.c` and `bio.c` of xv6 in one machine.  The log has no disk of its own: it reads and writes its blocks
through buffers that the process holds, beside other processes that use the cache.  Only `log.c` calls
`bwrite`, and a call changes a buffer together with its `log_write`.

* **`System`**, **`System.Step`** — the cache, `struct log` and the processes, and the steps.
* **`System.view`** — the state of the log alone: its disk and its dirty buffers are those of the cache.
* **`System.Refines`** — a step of the machine is a step of the log, or nothing that the log can see.
* **`cached_log_refines`** — all steps of all runs are so, and a buffer has what the log takes its block to
  contain.
-/

namespace OperatingSystems.Log.BufferCache

open GuardedRuns

/-! ### The machine -/

/-- The cache; and `struct log`, with where each process stands.  The disk and the buffers of `log` are not
used: the cache has them. -/
structure System (ι : Type) where
  cache : State ι
  log : Log.State ι

variable {ι : Type} {s s' : System ι} {dev n b : ℕ} {cfg : Config}

/-- What the log takes the disk and the dirty buffers of its device to be. -/
def System.view (dev : ℕ) (s : System ι) : Log.State ι :=
  { s.log with
    disk := fun b => s.cache.memory.disk (dev, b)
    buf := fun b => s.cache.memory.pinned (dev, b) }

/-- The block that the loops of `commit` and of `recover_from_log` are at, and what they do to it. -/
inductive Transfer
  | nothing
  | copy (b b' : ℕ)
  | write_head
  | read_head

def transfer (cfg : Config) (t : Log.State ι) : Transfer :=
  match t.phase with
  | .write_log tail => match t.lh[tail]? with
    | some b => .copy (cfg.start + tail + 1) b
    | none => .nothing
  | .install_trans tail | .recover tail => match t.lh[tail]? with
    | some b => .copy b (cfg.start + tail + 1)
    | none => .nothing
  | .write_head | .erase | .clear => .write_head
  | .read_head => .read_head
  | .running | .committed => .nothing

/-- The function that is under way. -/
def eventOf : Phase → Log.Event ι
  | .read_head | .recover _ | .clear => .recover
  | _ => .commit

/-- The operations that change a block. -/
def Event.writes : Event ι → Bool
  | .log_write _ _ _ | .bwrite _ _ _ | .crash => true
  | _ => false

/-- The steps of the log that have nothing to do with a block. -/
def Quiet (cfg : Config) (t : Log.State ι) : Log.Event ι → Prop
  | .begin_op _ | .test _ | .end_op _ => True
  | .log_write _ _ _ | .crash => False
  | e => e = eventOf t.phase ∧ transfer cfg t = .nothing

/-- The process has read the block, and holds its buffer. -/
structure State.Holds (c : State ι) (p : ι) (i : Index) (k : Key) : Prop where
  lock : (c.buf i).lock = some p
  valid : (c.buf i).valid = true
  key : (c.buf i).key = k

inductive Act (ι : Type)
  | cache (e : Event ι)
  | log (e : Log.Event ι)
  | log_write (p : ι) (i : Index) (data : Block)
  | copy (p : ι) (i j : Index)
  | write_head (p : ι) (i : Index)
  | read_head (p : ι) (i : Index)
  | crash

/-- The steps.  What the log writes is what the buffers contain that the process has read. -/
inductive System.Step [DecidableEq ι] (cfg : Config) (dev : ℕ) (s : System ι) : Act ι → System ι → Prop
  | cache {e : Event ι} {c' : State ι} (hquiet : e.writes = false) (hcache : step s.cache e c') :
      Step cfg dev s (.cache e) ⟨c', s.log⟩
  | log {e : Log.Event ι} {t' : Log.State ι} (hquiet : Quiet cfg s.log e) (hlog : Log.step cfg (s.view dev) e t') :
      Step cfg dev s (.log e) ⟨s.cache, t'⟩
  | log_write {p : ι} {i : Index} {data : Block} {b : ℕ} {c' : State ι} {t' : Log.State ι}
      (hi : (s.cache.buf i).key = (dev, b)) (hcache : step s.cache (.log_write p i data) c')
      (hlog : Log.step cfg (s.view dev) (.log_write p b data) t') : Step cfg dev s (.log_write p i data) ⟨c', t'⟩
  | copy {p : ι} {i j : Index} {b b' : ℕ} {c' : State ι} {t' : Log.State ι}
      (hcopy : transfer cfg s.log = .copy b b') (hi : s.cache.Holds p i (dev, b)) (hj : s.cache.Holds p j (dev, b'))
      (hcache : step s.cache (.bwrite p i (s.cache.buf j).data) c')
      (hlog : Log.step cfg (s.view dev) (eventOf s.log.phase) t') : Step cfg dev s (.copy p i j) ⟨c', t'⟩
  | write_head {p : ι} {i : Index} {c' : State ι} {t' : Log.State ι}
      (hhead : transfer cfg s.log = .write_head) (hi : s.cache.Holds p i (dev, cfg.start))
      (hcache : step s.cache (.bwrite p i (Log.write_head s.log.lh (s.cache.buf i).data)) c')
      (hlog : Log.step cfg (s.view dev) (eventOf s.log.phase) t') : Step cfg dev s (.write_head p i) ⟨c', t'⟩
  | read_head {p : ι} {i : Index} (hphase : s.log.phase = .read_head)
      (hi : s.cache.Holds p i (dev, cfg.start)) : Step cfg dev s (.read_head p i)
        ⟨s.cache, { s.log with lh := Log.read_head (s.cache.buf i).data, phase := .recover 0 }⟩
  | crash : Step cfg dev s .crash ⟨BufferCache.binit s.cache.disk, Log.crash s.log⟩

/-- The first start. -/
def System.init (cfg : Config) (dev : ℕ) (s : System ι) : Prop :=
  BufferCache.init s.cache ∧ Log.init cfg (s.view dev)

/-- The step of the log in a step of the machine. -/
def Act.event (s : System ι) : Act ι → Option (Log.Event ι)
  | .cache _ => none
  | .log e => some e
  | .log_write p i data => some (.log_write p (s.cache.buf i).key.2 data)
  | .copy _ _ _ | .write_head _ _ | .read_head _ _ => some (eventOf s.log.phase)
  | .crash => some .crash

/-- The guard of the runs: those of the cache and of the log. -/
def Allowed (cfg : Config) (dev n : ℕ) (s : System ι) (a : Act ι) : Prop :=
  (∀ e, a = .cache e → Named s.cache e) ∧ ∀ e, a.event s = some e → Budget cfg n (s.view dev) e

/-- **The log sees a step of its own, or nothing.** -/
def System.Refines [DecidableEq ι] (cfg : Config) (dev : ℕ) (s : System ι) (a : Act ι) (s' : System ι) : Prop :=
  match a.event s with
  | some e => Log.step cfg (s.view dev) e (s'.view dev)
  | none => s'.view dev = s.view dev

/-! ### What the log sees -/

/-- The log has the memory of one device as its disk and its dirty buffers. -/
structure Shows (dev : ℕ) (m : Memory) (t : Log.State ι) : Prop where
  disk : t.disk = fun b => m.disk (dev, b)
  buf : t.buf = fun b => m.pinned (dev, b)

section

variable {m : Memory} {t t' : Log.State ι} {c : State ι} {p : ι} {data : Block}

theorem shows_view (dev : ℕ) (s : System ι) : Shows dev s.cache.memory (s.view dev) :=
  ⟨rfl, rfl⟩

theorem Shows.view_eq (h : Shows dev c.memory t) : System.view dev ⟨c, t⟩ = t := by
  unfold System.view
  rw [← h.disk, ← h.buf]

theorem update_key {β : Type} (f : Key → β) (dev b : ℕ) (x : β) :
    (fun c => Function.update f (dev, b) x (dev, c)) = Function.update (fun c => f (dev, c)) b x := by
  funext c
  by_cases hc : c = b
  · rw [hc, Function.update_self, Function.update_self]
  · rw [Function.update_of_ne hc, Function.update_of_ne fun heq => hc (Prod.mk.inj heq).2]

/-- A block is written, and is not pinned afterwards. -/
theorem Shows.bwrite (h : Shows dev m t) (hdisk : t'.disk = Function.update t.disk b data)
    (hbuf : t'.buf = Function.update t.buf b none) : Shows dev (m.bwrite (dev, b) data) t' where
  disk := by
    rw [hdisk, h.disk]
    exact (update_key m.disk dev b data).symm
  buf := by
    rw [hbuf, h.buf]
    exact (update_key m.pinned dev b none).symm

theorem Shows.same (h : Shows dev m t) (hdisk : t'.disk = t.disk) (hbuf : t'.buf = t.buf) : Shows dev m t' :=
  ⟨hdisk.trans h.disk, hbuf.trans h.buf⟩

variable [DecidableEq ι]

theorem Shows.log_write (h : Shows dev m t) (hstep : Log.log_write p b data t = .ok t') :
    Shows dev (m.log_write (dev, b) data) t' := by
  obtain ⟨-, -, rfl⟩ := Log.log_write_ok hstep
  refine ⟨h.disk, ?_⟩
  show Function.update t.buf b (some data) = _
  rw [h.buf]
  exact (update_key m.pinned dev b (some data)).symm

/-- What a step of `commit` or of `recover_from_log` does to the blocks. -/
def Transfer.Done (cfg : Config) (t t' : Log.State ι) : Transfer → Prop
  | .nothing | .read_head => t'.disk = t.disk ∧ t'.buf = t.buf
  | .copy b b' => t'.disk = Function.update t.disk b (t.bread b') ∧ t'.buf = Function.update t.buf b none
  | .write_head => t'.disk = Function.update t.disk cfg.start (Log.write_head t.lh (t.bread cfg.start)) ∧
      t'.buf = Function.update t.buf cfg.start none

variable [Fintype ι]

omit [DecidableEq ι] in
/-- A block of the log is not pinned, so that to write it through the cache leaves the pinned blocks alone. -/
theorem update_log (t : Log.State ι) (hinv : Log.Inv cfg t) (hb : ¬cfg.Home b) :
    t.buf = Function.update t.buf b none := by
  have hnone : t.buf b = none := by
    cases hbuf : t.buf b with
    | none => rfl
    | some c => exact absurd (hinv.fits.home b (hinv.dirty b c hbuf)) hb
  rw [← hnone, Function.update_eq_self]

omit [DecidableEq ι] in
/-- Recovery starts without a pinned block. -/
theorem update_recover (t : Log.State ι) (hinv : Log.Inv cfg t) (hwhy : t.lh = [] ∨ t.buf = fun _ => none) :
    t.buf = Function.update t.buf b none := by
  have hbuf : t.buf = fun _ => none := hwhy.elim hinv.buf_nil id
  rw [hbuf]
  exact (Function.update_eq_self b fun _ => none).symm

omit [DecidableEq ι] in
theorem commit_done (hinv : Log.Inv cfg t) (hstep : Log.commit cfg t = .ok t') :
    (transfer cfg t).Done cfg t t' := by
  have hstart : ¬cfg.Home cfg.start := not_home_start hinv.fits.pos
  unfold transfer
  cases commit_cases hstep with
  | @copy tail b hphase hb =>
    have hroom := hinv.fits.room
    have htail := lt_of_getElem? hb
    rw [hphase]
    dsimp only
    rw [hb]
    exact ⟨rfl, update_log t hinv (not_home_copy (by omega))⟩
  | copied hphase hnone | installed hphase hnone =>
    rw [hphase]
    dsimp only
    rw [hnone]
    exact ⟨rfl, rfl⟩
  | install hphase hb =>
    rw [hphase]
    dsimp only
    rw [hb]
    exact ⟨rfl, rfl⟩
  | header hphase | erase hphase =>
    rw [hphase]
    exact ⟨rfl, update_log t hinv hstart⟩
  | done hphase =>
    rw [hphase]
    exact ⟨rfl, rfl⟩

omit [DecidableEq ι] in
theorem recover_done (hinv : Log.Inv cfg t) (hstep : Log.recover cfg t = .ok t') :
    (transfer cfg t).Done cfg t t' := by
  have hok := hinv.phase
  unfold PhaseOk at hok
  unfold transfer
  cases recover_cases hstep with
  | read hphase =>
    rw [hphase]
    exact ⟨rfl, rfl⟩
  | install hphase hb =>
    rw [hphase] at hok ⊢
    dsimp only
    rw [hb]
    exact ⟨rfl, update_recover t hinv (.inr hok.1)⟩
  | installed hphase hnone =>
    rw [hphase]
    dsimp only
    rw [hnone]
    exact ⟨rfl, rfl⟩
  | clear hphase =>
    rw [hphase] at hok ⊢
    exact ⟨rfl, update_recover t hinv (.inl hok.1)⟩

omit [DecidableEq ι] [Fintype ι] in
theorem eventOf_cases (phase : Phase) :
    (eventOf phase : Log.Event ι) = .commit ∨ (eventOf phase : Log.Event ι) = .recover := by
  cases phase with
  | read_head | recover tail | clear => exact .inr rfl
  | _ => exact .inl rfl

theorem transfer_done (hinv : Log.Inv cfg t) (hstep : Log.step cfg t (eventOf t.phase) t') :
    (transfer cfg t).Done cfg t t' := by
  have hevent : eventOf t.phase = (.commit : Log.Event ι) ∨ eventOf t.phase = .recover := eventOf_cases t.phase
  rcases hevent with hcommit | hrecover
  · rw [hcommit] at hstep
    exact commit_done hinv hstep
  · rw [hrecover] at hstep
    exact recover_done hinv hstep

/-! ### Each step -/

/-- The memory after an operation that writes nothing. -/
theorem memory_quiet {e : Event ι} {c' : State ι} (h : Inv c) (hok : Named c e) (hquiet : e.writes = false)
    (hstep : step c e c') : c'.memory = c.memory := by
  rw [h.memory_step hok hstep]
  cases e with
  | log_write p i data | bwrite p i data => cases hquiet
  | crash => cases hquiet
  | _ => rfl

omit [DecidableEq ι] in
/-- A buffer that has been read contains what the log takes its block to contain. -/
theorem Inv.data_eq_view {i : Index} (h : Inv s.cache) (hvalid : (s.cache.buf i).valid = true)
    (hkey : (s.cache.buf i).key = (dev, b)) : (s.cache.buf i).data = (s.view dev).bread b := by
  rw [h.data_eq hvalid, hkey]
  rfl

/-- What `bwrite` of a buffer of the device does to the memory. -/
theorem memory_bwrite {i : Index} {c' : State ι} (h : Inv c) (hi : c.Holds p i (dev, b))
    (hstep : step c (.bwrite p i data) c') : c'.memory = c.memory.bwrite (dev, b) data := by
  rw [h.memory_step (e := .bwrite p i data) trivial hstep, ← hi.key]
  rfl

/-- **A step of the machine is one of the log, or none.** -/
theorem System.Step.refines {a : Act ι} (hcache : Inv s.cache) (hlog : Log.Inv cfg (s.view dev))
    (hok : Allowed cfg dev n s a) (hstep : System.Step cfg dev s a s') : System.Refines cfg dev s a s' := by
  have hview := shows_view dev s
  cases hstep with
  | cache hquiet hstep =>
    show System.view dev ⟨_, s.log⟩ = System.view dev s
    unfold System.view
    rw [memory_quiet hcache (hok.1 _ rfl) hquiet hstep]
  | @log e t' hquiet hstep =>
    have hsame : t'.disk = (s.view dev).disk ∧ t'.buf = (s.view dev).buf := by
      cases e with
      | begin_op p =>
        obtain ⟨-, -, -, -, rfl⟩ := begin_op_ok hstep
        exact ⟨rfl, rfl⟩
      | test p =>
        obtain ⟨-, -, rfl⟩ := test_ok hstep
        exact ⟨rfl, rfl⟩
      | end_op p =>
        obtain ⟨-, -, ⟨-, rfl⟩ | ⟨-, rfl⟩⟩ := end_op_ok hstep
        · exact ⟨rfl, rfl⟩
        · exact ⟨rfl, rfl⟩
      | commit | recover =>
        obtain ⟨hevent, hnothing⟩ := hquiet
        rw [hevent] at hstep
        have hdone := transfer_done hlog hstep
        rw [show transfer cfg (s.view dev) = _ from hnothing] at hdone
        exact hdone
      | log_write p b data => cases hquiet
      | crash => cases hquiet
    show Log.step cfg (s.view dev) e (System.view dev ⟨s.cache, t'⟩)
    rw [(hview.same hsame.1 hsame.2).view_eq]
    exact hstep
  | @log_write p i data b c' t' hi hcstep hlstep =>
    have hmemory : c'.memory = s.cache.memory.log_write (dev, b) data := by
      rw [hcache.memory_step (e := .log_write p i data) trivial hcstep, ← hi]
      rfl
    have hshows := hview.log_write hlstep
    rw [← hmemory] at hshows
    show Log.step cfg (s.view dev) (.log_write p (s.cache.buf i).key.2 data) (System.view dev ⟨c', t'⟩)
    rw [hshows.view_eq, hi]
    exact hlstep
  | @copy p i j b b' c' t' hcopy hi hj hcstep hlstep =>
    have hdone := transfer_done hlog hlstep
    rw [show transfer cfg (s.view dev) = _ from hcopy] at hdone
    have hmemory := memory_bwrite hcache hi hcstep
    rw [hcache.data_eq_view hj.valid hj.key] at hmemory
    have hshows := hview.bwrite hdone.1 hdone.2
    rw [← hmemory] at hshows
    show Log.step cfg (s.view dev) (eventOf s.log.phase) (System.view dev ⟨c', t'⟩)
    rw [hshows.view_eq]
    exact hlstep
  | @write_head p i c' t' hhead hi hcstep hlstep =>
    have hdone := transfer_done hlog hlstep
    rw [show transfer cfg (s.view dev) = _ from hhead] at hdone
    have hmemory := memory_bwrite hcache hi hcstep
    rw [hcache.data_eq_view hi.valid hi.key] at hmemory
    have hshows := hview.bwrite hdone.1 hdone.2
    rw [show (s.view dev).lh = s.log.lh from rfl, ← hmemory] at hshows
    show Log.step cfg (s.view dev) (eventOf s.log.phase) (System.view dev ⟨c', t'⟩)
    rw [hshows.view_eq]
    exact hlstep
  | @read_head p i hphase hi =>
    show Log.step cfg (s.view dev) (eventOf s.log.phase) (System.view dev ⟨s.cache, _⟩)
    rw [hphase, hcache.data_eq_view hi.valid hi.key]
    unfold eventOf Log.step Log.next Log.recover
    rw [show (s.view dev).phase = .read_head from hphase]
    rfl
  | crash =>
    have hmemory : (BufferCache.binit s.cache.disk : State ι).memory = s.cache.memory.crash :=
      hcache.memory_step (e := .crash) trivial rfl
    show Log.step cfg (s.view dev) .crash (System.view dev ⟨BufferCache.binit s.cache.disk, Log.crash s.log⟩)
    unfold System.view
    rw [hmemory]
    rfl

/-! ### Runs -/

/-- The parts of a run of the machine are runs of the cache and of the log. -/
theorem reach_parts (hsize : cfg.size = LOGSIZE) (hn : n < MAXOPBLOCKS)
    (h : Reach (System.init cfg dev) (System.Step cfg dev) (Allowed cfg dev n) s) :
    Inv s.cache ∧ Reach (Log.init cfg) (Log.step cfg) (Budget cfg n) (s.view dev) := by
  refine h.invariant (I := fun s => Inv s.cache ∧ Reach (Log.init cfg) (Log.step cfg) (Budget cfg n) (s.view dev))
    (fun s h0 => ⟨?_, .start h0.2⟩) fun s a s' ⟨hcache, hlog⟩ hok hstep => ⟨?_, ?_⟩
  · rw [show s.cache = BufferCache.binit s.cache.disk from h0.1]
    exact .binit _
  · cases hstep with
    | cache hquiet hstep => exact hcache.step (hok.1 _ rfl) hstep
    | log hquiet hstep => exact hcache
    | log_write hi hstep => exact hcache.step (e := .log_write _ _ _) trivial hstep
    | copy hcopy hi hj hstep => exact hcache.step (e := .bwrite _ _ _) trivial hstep
    | write_head hhead hi hstep => exact hcache.step (e := .bwrite _ _ _) trivial hstep
    | read_head hphase hi => exact hcache
    | crash => exact .binit _
  · have hrefines := hstep.refines hcache (reserved_of_reach hsize hn hlog).1 hok
    unfold System.Refines at hrefines
    cases hevent : a.event s with
    | none =>
      rw [hevent] at hrefines
      rw [hrefines]
      exact hlog
    | some e =>
      rw [hevent] at hrefines
      exact .next hlog (hok.2 e hevent) hrefines

/-- **The log over the cache is the log.**  In every state reached, what the cache contains is a state that the log
reaches by itself; a buffer that has been read contains what the log takes its block to contain, and, when the log
is open and no call is under way, what was last committed; and each next step is one of the log or nothing that it
can see. -/
theorem cached_log_refines (hsize : cfg.size = LOGSIZE) (hn : n < MAXOPBLOCKS)
    (h : Reach (System.init cfg dev) (System.Step cfg dev) (Allowed cfg dev n) s) :
    Reach (Log.init cfg) (Log.step cfg) (Budget cfg n) (s.view dev) ∧
      (∀ i b, (s.cache.buf i).valid = true → (s.cache.buf i).key = (dev, b) →
        (s.cache.buf i).data = (s.view dev).bread b ∧
          (s.log.phase = .running → (∀ q, s.log.call q = .outside) → cfg.Home b →
            (s.cache.buf i).data = s.log.durable b)) ∧
      ∀ a s', Allowed cfg dev n s a → System.Step cfg dev s a s' → System.Refines cfg dev s a s' := by
  obtain ⟨hcache, hlog⟩ := reach_parts hsize hn h
  have hinv := (reserved_of_reach hsize hn hlog).1
  refine ⟨hlog, fun i b hvalid hkey => ⟨hcache.data_eq_view hvalid hkey, fun hrun hout hb => ?_⟩,
    fun a s' hok hstep => hstep.refines hcache hinv hok⟩
  rw [hcache.data_eq_view hvalid hkey]
  exact hinv.settled hrun hout hb

omit [Fintype ι] in
/-- A run of operations of the cache that write nothing is one of the machine. -/
theorem reach_cached (es : List (Event ι)) {c' : State ι} (hquiet : ∀ e ∈ es, e.writes = false ∧ ∀ c, Named c e)
    (h : Reach (System.init cfg dev) (System.Step cfg dev) (Allowed cfg dev n) s)
    (hrun : es.foldlM BufferCache.next s.cache = .ok c') :
    Reach (System.init cfg dev) (System.Step cfg dev) (Allowed cfg dev n) ⟨c', s.log⟩ := by
  induction es generalizing s with
  | nil =>
    cases hrun
    exact h
  | cons e es ih =>
    rw [List.foldlM_cons] at hrun
    cases hnext : BufferCache.next s.cache e with
    | error stop => rw [hnext] at hrun; cases hrun
    | ok c =>
      rw [hnext] at hrun
      obtain ⟨hwrites, hnamed⟩ := hquiet e List.mem_cons_self
      have hok : Allowed cfg dev n s (.cache e) :=
        ⟨fun e' he => by cases he; exact hnamed s.cache, fun e' he => by cases he⟩
      have hstep : System.Step cfg dev s (.cache e) ⟨c, s.log⟩ := .cache hwrites hnext
      exact ih (s := ⟨c, s.log⟩) (fun e he => hquiet e (List.mem_cons_of_mem _ he)) (.next h hok hstep) hrun

omit [DecidableEq ι] [Fintype ι] in
theorem allowed_of_event {a : Act ι} {e : Log.Event ι} (hevent : a.event s = some e)
    (h : Budget cfg n (s.view dev) e) : Allowed cfg dev n s a := by
  refine ⟨fun e' he => ?_, fun e' he => ?_⟩
  · rw [he] at hevent
    cases hevent
  · rw [hevent] at he
    cases he
    exact h

end

/-- A disk of zeros, with the log in the blocks `2` to `31`. -/
def bare : System (Fin 1) where
  cache := binit fun _ _ => 0
  log := Log.crash ⟨fun _ _ => 0, fun _ => none, [], 0, false, .running, fun _ => .outside, fun _ _ => 0⟩

theorem bare_init : System.init ⟨2, LOGSIZE⟩ 1 bare := by
  have hmemory : bare.cache.memory = bare.cache.memory.crash :=
    (Inv.binit fun _ _ => 0).memory_step (e := .crash) trivial rfl
  refine ⟨rfl, ?_, rfl, rfl⟩
  unfold System.view
  rw [hmemory]
  rfl

/-- A call has written block `40`, and its commit copies it into the log. -/
theorem cached_log_refines_copy : ∃ s s' : System (Fin 1), s.cache.disk (1, 3) 0 = 0 ∧ s'.cache.disk (1, 3) 0 = 7 ∧
    System.Refines ⟨2, LOGSIZE⟩ 1 s (.copy 0 2 1) s' := by
  have hstart : Reach (System.init ⟨2, LOGSIZE⟩ 1) (System.Step ⟨2, LOGSIZE⟩ 1) (Allowed ⟨2, LOGSIZE⟩ 1 9) bare :=
    .start bare_init
  -- recovery finds an empty log
  have hread := reach_cached [.bget 0 (1, 2), .acquiresleep 0, .iderw 0 0] (by simp [Event.writes, Named]) hstart rfl
  have hempty := Reach.next hread (allowed_of_event rfl (by trivial)) (.read_head (p := 0) (i := 0) rfl ⟨rfl, rfl, rfl⟩)
  have hclear := Reach.next hempty (allowed_of_event rfl (by trivial)) (.log (e := .recover) ⟨rfl, rfl⟩ rfl)
  have hopen := Reach.next hclear (allowed_of_event rfl (by trivial))
    (.write_head (p := 0) (i := 0) rfl ⟨rfl, rfl, rfl⟩ rfl rfl)
  have hfree := reach_cached [.releasesleep 0 0, .brelse 0] (by simp [Event.writes, Named]) hopen rfl
  -- the call
  have hcall := Reach.next hfree (allowed_of_event rfl (by trivial)) (.log (e := .begin_op 0) trivial rfl)
  have htest := Reach.next hcall (allowed_of_event rfl (by trivial)) (.log (e := .test 0) trivial rfl)
  have hheld := reach_cached [.bget 0 (1, 40), .acquiresleep 0, .iderw 0 1] (by simp [Event.writes, Named]) htest rfl
  have hlogged := Reach.next (a := (Act.log_write 0 1 fun _ => 7 : Act (Fin 1))) hheld
    (allowed_of_event (e := .log_write 0 40 fun _ => 7) rfl (by exact ⟨.inr (by decide), by decide⟩))
    (.log_write (b := 40) rfl rfl rfl)
  have hended := Reach.next hlogged (allowed_of_event rfl (by trivial)) (.log (e := .end_op 0) trivial rfl)
  have hboth := reach_cached [.bget 0 (1, 3), .acquiresleep 0, .iderw 0 2] (by simp [Event.writes, Named]) hended rfl
  exact ⟨_, _, rfl, rfl, (cached_log_refines rfl (by decide) hboth).2.2 _ _ (allowed_of_event rfl (by trivial))
    (.copy (b := 3) rfl ⟨rfl, rfl, rfl⟩ ⟨rfl, rfl, rfl⟩ rfl rfl)⟩

end OperatingSystems.Log.BufferCache
