import OperatingSystems.Lib.GuardedRuns
import OperatingSystems.Lib.RecencyList
import OperatingSystems.Lib.RefCounts
import OperatingSystems.Log.Transactions

/-!
# The buffer cache

`bio.c` of xv6, with `iderw` and what `log_write` does to a buffer.  A list gives the order of the linked list
of the buffers, from `bcache.head.next` on; what is done under the lock of the cache is one step, and so are a
process's change of a buffer that it holds and its `log_write` or `bwrite`.  A run ends with a panic; those of
`ide.c` about the number of a disk or a block are left out.

* **`State`**, **`next`** — the buffers, where each process stands, and the steps.
* **`Memory`** — what the cache stands for: the blocks on the disk, and those that are pinned over them.
* **`Inv`**, **`Inv.step`** — what holds in every state, and that each step keeps it.
* **`cache_is_transparent`**, **`bget_recycles`** — the results for all runs.
-/

namespace OperatingSystems.Log.BufferCache

open GuardedRuns RecencyList RefCounts

def NBUF : ℕ := MAXOPBLOCKS * 3

instance : NeZero NBUF := ⟨by decide⟩

abbrev Index := Fin NBUF

/-- A device and the number of a block. -/
abbrev Key := ℕ × ℕ

/-- `struct buf` without its links. -/
structure Buf (ι : Type) where
  /-- `B_VALID` -/
  valid : Bool
  /-- `B_DIRTY` -/
  dirty : Bool
  /-- `dev` and `blockno` -/
  key : Key
  lock : Option ι
  refcnt : ℕ
  data : Block

/-- A process that is in none of the operations, in the `acquiresleep` of `bget`, or in `brelse` after
`releasesleep`. -/
inductive Place
  | free
  | acquiring (i : Index)
  | releasing (i : Index)
deriving DecidableEq

structure State (ι : Type) where
  buf : Index → Buf ι
  /-- The list from `bcache.head.next` on. -/
  order : List Index
  disk : Key → Block
  place : ι → Place
  /-- How often a buffer has been moved to the front, and when each one was: a record of the model. -/
  clock : ℕ
  used : Index → ℕ

/-! ### The steps -/

inductive Stop
  | /-- `acquiresleep` sleeps -/ sleeps
  | /-- the process is at another place -/ elsewhere
  | /-- `panic("bget: no buffers")` -/ no_buffers
  | /-- the panics of `iderw`, `bwrite` and `brelse` -/ not_locked
  | /-- `panic("iderw: nothing to do")` -/ nothing_to_do
deriving DecidableEq

inductive Event (ι : Type)
  | bget (p : ι) (k : Key)
  | acquiresleep (p : ι)
  /-- in `bread` -/
  | iderw (p : ι) (i : Index)
  /-- The process has changed the buffer, and calls `log_write`. -/
  | log_write (p : ι) (i : Index) (data : Block)
  /-- The process has changed the buffer, and calls `bwrite`. -/
  | bwrite (p : ι) (i : Index) (data : Block)
  /-- the beginning of `brelse` -/
  | releasesleep (p : ι) (i : Index)
  | brelse (p : ι)
  | crash

variable {ι : Type}

def State.modify (s : State ι) (i : Index) (f : Buf ι → Buf ι) : State ι :=
  { s with buf := Function.update s.buf i (f (s.buf i)) }

/-- The first loop of `bget`. -/
def State.find (s : State ι) (k : Key) : Option Index :=
  s.order.find? fun i => (s.buf i).key = k

/-- The second loop of `bget`, from the back of the list. -/
def State.victim (s : State ι) : Option Index :=
  s.order.reverse.find? fun i => (s.buf i).refcnt = 0 && !(s.buf i).dirty

/-- `binit`: each buffer is put to the front in turn. -/
def binit (disk : Key → Block) : State ι where
  buf := fun _ => ⟨false, false, (0, 0), none, 0, fun _ => 0⟩
  order := (List.finRange NBUF).reverse
  disk := disk
  place := fun _ => .free
  clock := 0
  used := fun _ => 0

section Steps

variable [DecidableEq ι]

/-- `bget`, up to `acquiresleep`. -/
def bget (p : ι) (k : Key) (s : State ι) : Except Stop (State ι) :=
  if s.place p ≠ .free then .error .elsewhere
  else
    match s.find k with
    | some i => .ok { s.modify i fun b => { b with refcnt := b.refcnt + 1 } with
        place := Function.update s.place p (.acquiring i) }
    | none =>
      match s.victim with
      | some i => .ok { s.modify i fun b => { b with key := k, valid := false, dirty := false, refcnt := 1 } with
          place := Function.update s.place p (.acquiring i) }
      | none => .error .no_buffers

def acquiresleep (p : ι) (s : State ι) : Except Stop (State ι) :=
  match s.place p with
  | .acquiring i =>
    if (s.buf i).lock.isSome then .error .sleeps
    else .ok { s.modify i fun b => { b with lock := some p } with place := Function.update s.place p .free }
  | _ => .error .elsewhere

/-- `iderw`, which reads the block if it is called by `bread` and writes it if it is called by `bwrite`. -/
def iderw (p : ι) (i : Index) (s : State ι) : Except Stop (State ι) :=
  if (s.buf i).lock ≠ some p then .error .not_locked
  else if (s.buf i).dirty then .ok { s.modify i fun b => { b with valid := true, dirty := false } with
    disk := Function.update s.disk (s.buf i).key (s.buf i).data }
  else if (s.buf i).valid then .error .nothing_to_do
  else .ok (s.modify i fun b => { b with valid := true, data := s.disk b.key })

/-- The process is in no other operation, and the buffer has been read. -/
def State.Uses (s : State ι) (p : ι) (i : Index) : Prop :=
  s.place p = .free ∧ (s.buf i).valid = true

instance (s : State ι) (p : ι) (i : Index) : Decidable (s.Uses p i) := by
  unfold State.Uses
  infer_instance

/-- The part of `log_write` that is about the buffer. -/
def log_write (p : ι) (i : Index) (data : Block) (s : State ι) : Except Stop (State ι) :=
  if s.Uses p i ∧ (s.buf i).lock = some p then .ok (s.modify i fun b => { b with data, dirty := true })
  else .error .elsewhere

def bwrite (p : ι) (i : Index) (data : Block) (s : State ι) : Except Stop (State ι) :=
  if ¬s.Uses p i then .error .elsewhere
  else if (s.buf i).lock ≠ some p then .error .not_locked
  else iderw p i (s.modify i fun b => { b with data, dirty := true })

def releasesleep (p : ι) (i : Index) (s : State ι) : Except Stop (State ι) :=
  if ¬s.Uses p i then .error .elsewhere
  else if (s.buf i).lock ≠ some p then .error .not_locked
  else .ok { s.modify i fun b => { b with lock := none } with place := Function.update s.place p (.releasing i) }

/-- The rest of `brelse`. -/
def brelse (p : ι) (s : State ι) : Except Stop (State ι) :=
  match s.place p with
  | .releasing i =>
    let s := { s.modify i fun b => { b with refcnt := b.refcnt - 1 } with
      place := Function.update s.place p .free }
    if (s.buf i).refcnt = 0 then .ok { s with
      order := touch i s.order
      clock := s.clock + 1
      used := Function.update s.used i (s.clock + 1) }
    else .ok s
  | _ => .error .elsewhere

def next (s : State ι) : Event ι → Except Stop (State ι)
  | .bget p k => bget p k s
  | .acquiresleep p => acquiresleep p s
  | .iderw p i => if s.place p = .free ∧ (s.buf i).valid = false then iderw p i s else .error .elsewhere
  | .log_write p i data => log_write p i data s
  | .bwrite p i data => bwrite p i data s
  | .releasesleep p i => releasesleep p i s
  | .brelse p => brelse p s
  | .crash => .ok (binit s.disk)

def step (s : State ι) (e : Event ι) (s' : State ι) : Prop :=
  next s e = .ok s'

end Steps

/-- The guard of the runs: devices are counted from `ROOTDEV` on, and the buffers of `binit` have no device. -/
def Named (_ : State ι) : Event ι → Prop
  | .bget _ k => k.1 ≠ 0
  | _ => True

def init (s : State ι) : Prop :=
  s = binit s.disk

/-! ### What the cache stands for -/

/-- **The memory of blocks**: what the disk has, and what is pinned over it until a commit. -/
structure Memory where
  disk : Key → Block
  pinned : Key → Option Block

namespace Memory

variable (m : Memory) (k : Key) (data : Block)

def bread : Block := (m.pinned k).getD (m.disk k)

def log_write : Memory := { m with pinned := Function.update m.pinned k (some data) }

def bwrite : Memory where
  disk := Function.update m.disk k data
  pinned := Function.update m.pinned k none

def crash : Memory := { m with pinned := fun _ => none }

end Memory

/-- The memory that the cache stands for: the dirty buffers are pinned. -/
def State.memory (s : State ι) : Memory where
  disk := s.disk
  pinned k := (s.order.find? fun i => (s.buf i).key = k && (s.buf i).dirty).map fun i => (s.buf i).data

/-- What a step does to the memory: only a write changes it. -/
def State.effect (s : State ι) : Event ι → Memory → Memory
  | .log_write _ i data, m => m.log_write (s.buf i).key data
  | .bwrite _ i data, m => m.bwrite (s.buf i).key data
  | .crash, m => m.crash
  | _, m => m

/-! ### The invariant -/

/-- The buffer that the process is about to use or about to leave. -/
def Place.buffer : Place → Option Index
  | .free => none
  | .acquiring i | .releasing i => some i

/-- How many processes hold the buffer, wait for it or are about to leave it. -/
def State.users [Fintype ι] (s : State ι) (i : Index) : ℕ :=
  refs (Place.buffer ∘ s.place) (some i) + if (s.buf i).lock.isSome then 1 else 0

/-- **The invariant of the cache.** -/
structure Inv [Fintype ι] (s : State ι) : Prop where
  perm : s.order.Perm (List.finRange NBUF)
  counted : ∀ i, (s.buf i).refcnt = s.users i
  unique : ∀ i j, (s.buf i).key = (s.buf j).key → (s.buf i).key.1 ≠ 0 → i = j
  named : ∀ i, (s.buf i).valid = true ∨ (s.buf i).refcnt ≠ 0 → (s.buf i).key.1 ≠ 0
  read : ∀ i, (s.buf i).dirty = true → (s.buf i).valid = true
  clean : ∀ i, (s.buf i).valid = true → (s.buf i).dirty = false → (s.buf i).data = s.disk (s.buf i).key
  recency : ByRecency s.used s.order
  clock : ∀ i, s.used i ≤ s.clock

variable {s s' : State ι} {b : Buf ι} {i j : Index} {k : Key} {p : ι} {e : Event ι} {data : Block}

section

variable [Fintype ι]

theorem Inv.mem_order (h : Inv s) (i : Index) : i ∈ s.order :=
  h.perm.mem_iff.mpr (List.mem_finRange i)

/-- **One buffer changes**: it keeps its block, or gets one that no buffer has. -/
theorem Inv.modify (h : Inv s) (hbuf : s'.buf = Function.update s.buf i b) (horder : s'.order = s.order)
    (hused : s'.used = s.used) (hclock : s'.clock = s.clock) (hcounted : ∀ j, (s'.buf j).refcnt = s'.users j)
    (hkey : b.key = (s.buf i).key ∨ ∀ j, (s.buf j).key ≠ b.key)
    (hnamed : b.valid = true ∨ b.refcnt ≠ 0 → b.key.1 ≠ 0) (hread : b.dirty = true → b.valid = true)
    (hclean : b.valid = true → b.dirty = false → b.data = s'.disk b.key)
    (hdisk : ∀ j, j ≠ i → s'.disk (s.buf j).key = s.disk (s.buf j).key) : Inv s' := by
  have hself : s'.buf i = b := by rw [hbuf, Function.update_self]
  have hother : ∀ j, j ≠ i → s'.buf j = s.buf j := fun j hj => by rw [hbuf, Function.update_of_ne hj]
  have halone : ∀ j, j ≠ i → (s.buf j).key = b.key → b.key.1 = 0 := by
    intro j hj heq
    rcases hkey with hold | hnew
    · by_contra hdev
      exact hj (h.unique j i (heq.trans hold) (by rwa [heq]))
    · exact absurd heq (hnew j)
  refine ⟨by rw [horder]; exact h.perm, hcounted, fun x y heq hdev => ?_, fun j hj => ?_, fun j hj => ?_,
    fun j hj hj' => ?_, by rw [hused, horder]; exact h.recency, by rw [hused, hclock]; exact h.clock⟩
  · by_cases hx : x = i
    · by_cases hy : y = i
      · exact hx.trans hy.symm
      · rw [hx, hself] at heq hdev
        rw [hother y hy] at heq
        exact absurd (halone y hy heq.symm) hdev
    · rw [hother x hx] at heq hdev
      by_cases hy : y = i
      · rw [hy, hself] at heq
        rw [heq] at hdev
        exact absurd (halone x hx heq) hdev
      · rw [hother y hy] at heq
        exact h.unique x y heq hdev
  · by_cases hji : j = i
    · rw [hji, hself] at hj ⊢
      exact hnamed hj
    · rw [hother j hji] at hj ⊢
      exact h.named j hj
  · by_cases hji : j = i
    · rw [hji, hself] at hj ⊢
      exact hread hj
    · rw [hother j hji] at hj ⊢
      exact h.read j hj
  · by_cases hji : j = i
    · rw [hji, hself] at hj hj' ⊢
      exact hclean hj hj'
    · rw [hother j hji] at hj hj' ⊢
      rw [hdisk j hji]
      exact h.clean j hj hj'

/-- A process goes from one place to another, and one buffer changes along with it. -/
theorem counted_of_move [DecidableEq ι] {c : Place} (h : ∀ j, (s.buf j).refcnt = s.users j)
    (hbuf : s'.buf = Function.update s.buf i b) (hplace : s'.place = Function.update s.place p c)
    (hfrom : ∀ j, j ≠ i → (s.place p).buffer ≠ some j) (hto : ∀ j, j ≠ i → c.buffer ≠ some j)
    (hself : b.refcnt + (if (s.place p).buffer = some i then 1 else 0) + (if (s.buf i).lock.isSome then 1 else 0) =
      (s.buf i).refcnt + (if c.buffer = some i then 1 else 0) + if b.lock.isSome then 1 else 0) (j : Index) :
    (s'.buf j).refcnt = s'.users j := by
  have hcount := refs_update (Place.buffer ∘ s.place) p (some j) c.buffer
  have hj := h j
  unfold State.users at hj ⊢
  rw [hplace, Function.comp_update, hbuf]
  by_cases hji : j = i
  · rw [hji, Function.update_self]
    rw [hji] at hcount hj
    rw [Function.comp_apply] at hcount
    omega
  · rw [Function.update_of_ne hji]
    rw [Function.comp_apply, if_neg (hfrom j hji), if_neg (hto j hji)] at hcount
    omega

/-- No process moves, and one buffer changes. -/
theorem counted_of_stay (h : ∀ j, (s.buf j).refcnt = s.users j) (hbuf : s'.buf = Function.update s.buf i b)
    (hplace : s'.place = s.place) (hrefcnt : b.refcnt = (s.buf i).refcnt) (hlock : b.lock = (s.buf i).lock)
    (j : Index) : (s'.buf j).refcnt = s'.users j := by
  have hj := h j
  unfold State.users at hj ⊢
  rw [hplace, hbuf]
  by_cases hji : j = i
  · rw [hji, Function.update_self, hrefcnt, hlock]
    rw [hji] at hj
    exact hj
  · rw [Function.update_of_ne hji]
    exact hj

theorem Inv.find_none (h : Inv s) (hnone : s.find k = none) (i : Index) : (s.buf i).key ≠ k := by
  unfold State.find at hnone
  have hno := List.find?_eq_none.mp hnone i (h.mem_order i)
  rwa [decide_eq_true_eq] at hno

/-- A buffer without references is used by nobody. -/
theorem Inv.unused (h : Inv s) (hi : (s.buf i).refcnt = 0) :
    (s.buf i).lock = none ∧ ∀ p, (s.place p).buffer ≠ some i := by
  have hcount := h.counted i
  unfold State.users at hcount
  have hzero : refs (Place.buffer ∘ s.place) (some i) = 0 := by omega
  refine ⟨?_, refs_eq_zero.mp hzero⟩
  cases hlock : (s.buf i).lock with
  | none => rfl
  | some p =>
    rw [hlock, Option.isSome_some, if_pos rfl] at hcount
    omega

theorem Inv.named_of_lock (h : Inv s) (hlock : (s.buf i).lock = some p) : (s.buf i).key.1 ≠ 0 := by
  refine h.named i (.inr fun hzero => ?_)
  rw [(h.unused hzero).1] at hlock
  cases hlock

/-- `bread` reads a block that has a buffer. -/
theorem Inv.fill (h : Inv s) (hdev : (s.buf i).key.1 ≠ 0) :
    Inv (s.modify i fun b => { b with valid := true, data := s.disk b.key }) :=
  h.modify rfl rfl rfl rfl (counted_of_stay h.counted rfl rfl rfl rfl) (.inl rfl) (fun _ => hdev)
    (fun _ => rfl) (fun _ _ => rfl) fun _ _ => rfl

/-- The block is written: the buffer is as the disk is. -/
theorem Inv.writeBack (h : Inv s) (hdev : (s.buf i).key.1 ≠ 0) (data : Block)
    (hbuf : s'.buf = Function.update s.buf i { s.buf i with data, valid := true, dirty := false })
    (hdisk : s'.disk = Function.update s.disk (s.buf i).key data) (horder : s'.order = s.order)
    (hplace : s'.place = s.place) (hused : s'.used = s.used) (hclock : s'.clock = s.clock) : Inv s' := by
  refine h.modify hbuf horder hused hclock (counted_of_stay h.counted hbuf hplace rfl rfl) (.inl rfl) (fun _ => hdev)
    (fun _ => rfl) (fun _ _ => ?_) fun j hj => ?_
  · rw [hdisk, Function.update_self]
  · rw [hdisk, Function.update_of_ne]
    exact fun heq => hj (h.unique i j heq.symm hdev).symm

/-- The cache after `binit`. -/
theorem Inv.binit (disk : Key → Block) : Inv (BufferCache.binit disk : State ι) where
  perm := List.reverse_perm _
  counted i := by
    show 0 = refs (fun _ : ι => none) (some i) + 0
    rw [refs_const (Option.some_ne_none i).symm]
  unique i j _ hdev := absurd rfl hdev
  named i hi := by
    rcases hi with hi | hi
    · cases hi
    · exact absurd rfl hi
  read i hi := by cases hi
  clean i hi := by cases hi
  recency := List.pairwise_of_forall fun _ _ => le_rfl
  clock i := le_rfl

/-- A buffer that nobody uses is moved to the front. -/
theorem Inv.touch (h : Inv s) (i : Index) : Inv { s with
    order := RecencyList.touch i s.order
    clock := s.clock + 1
    used := Function.update s.used i (s.clock + 1) } where
  perm := (perm_touch (h.mem_order i)).trans h.perm
  counted := h.counted
  unique := h.unique
  named := h.named
  read := h.read
  clean := h.clean
  recency := h.recency.touch (h.perm.nodup_iff.mpr (List.nodup_finRange NBUF)) fun j =>
    (h.clock j).trans (Nat.le_succ _)
  clock j := by
    show Function.update s.used i (s.clock + 1) j ≤ s.clock + 1
    by_cases hj : j = i
    · rw [hj, Function.update_self]
    · rw [Function.update_of_ne hj]
      exact (h.clock j).trans (Nat.le_succ _)

end

/-! ### The steps keep it -/

theorem find_some (hi : s.find k = some i) : (s.buf i).key = k := by
  unfold State.find at hi
  have hkey := List.find?_some hi
  rwa [decide_eq_true_eq] at hkey

theorem victim_some (hi : s.victim = some i) : (s.buf i).refcnt = 0 ∧ (s.buf i).dirty = false := by
  unfold State.victim at hi
  have hfree := List.find?_some hi
  rw [Bool.and_eq_true, decide_eq_true_eq, Bool.not_eq_true'] at hfree
  exact hfree

section

variable [DecidableEq ι]

/-- **`bget`** finds the block in the cache, or recycles a buffer. -/
theorem bget_cases (hget : bget p k s = .ok s') : s.place p = .free ∧ ∃ i,
    (s.find k = some i ∧ s' = { s.modify i fun b => { b with refcnt := b.refcnt + 1 } with
      place := Function.update s.place p (.acquiring i) }) ∨
    (s.find k = none ∧ s.victim = some i ∧
      s' = { s.modify i fun b => { b with key := k, valid := false, dirty := false, refcnt := 1 } with
        place := Function.update s.place p (.acquiring i) }) := by
  unfold bget at hget
  split at hget
  · cases hget
  · rename_i hplace
    refine ⟨not_not.mp hplace, ?_⟩
    cases hfind : s.find k with
    | some i =>
      rw [hfind] at hget
      exact ⟨i, .inl ⟨rfl, (Except.ok.inj hget).symm⟩⟩
    | none =>
      rw [hfind] at hget
      dsimp only at hget
      cases hvictim : s.victim with
      | some i =>
        rw [hvictim] at hget
        exact ⟨i, .inr ⟨rfl, rfl, (Except.ok.inj hget).symm⟩⟩
      | none =>
        rw [hvictim] at hget
        cases hget

theorem acquiresleep_ok (hget : acquiresleep p s = .ok s') : ∃ i, s.place p = .acquiring i ∧
    (s.buf i).lock.isSome = false ∧
    s' = { s.modify i fun b => { b with lock := some p } with place := Function.update s.place p .free } := by
  unfold acquiresleep at hget
  split at hget
  · rename_i i hplace
    split at hget
    · cases hget
    · rename_i hlock
      cases hget
      exact ⟨i, hplace, Bool.eq_false_iff.mpr hlock, rfl⟩
  · cases hget

theorem log_write_ok (hget : log_write p i data s = .ok s') :
    s.Uses p i ∧ s' = s.modify i fun b => { b with data, dirty := true } := by
  unfold log_write at hget
  split at hget
  · rename_i huses
    cases hget
    exact ⟨huses.1, rfl⟩
  · cases hget

theorem releasesleep_ok (hget : releasesleep p i s = .ok s') : s.Uses p i ∧ (s.buf i).lock = some p ∧
    s' = { s.modify i fun b => { b with lock := none } with
      place := Function.update s.place p (.releasing i) } := by
  unfold releasesleep at hget
  split at hget
  · cases hget
  · rename_i huses
    split at hget
    · cases hget
    · rename_i hlock
      cases hget
      exact ⟨not_not.mp huses, not_not.mp hlock, rfl⟩

/-- The process has left the buffer, which is moved to the front if nobody else uses it. -/
theorem brelse_ok (hget : brelse p s = .ok s') : ∃ i t, s.place p = .releasing i ∧
    t = { s.modify i fun b => { b with refcnt := b.refcnt - 1 } with
      place := Function.update s.place p .free } ∧
    (s' = t ∨ s' = { t with
      order := touch i t.order
      clock := t.clock + 1
      used := Function.update t.used i (t.clock + 1) }) := by
  unfold brelse at hget
  split at hget
  · rename_i i hplace
    dsimp only at hget
    split at hget
    · cases hget
      exact ⟨i, _, hplace, rfl, .inr rfl⟩
    · cases hget
      exact ⟨i, _, hplace, rfl, .inl rfl⟩
  · cases hget

/-- `iderw` in `bread`. -/
theorem iderw_read (hvalid : (s.buf i).valid = false) (hdirty : (s.buf i).dirty = false)
    (hget : iderw p i s = .ok s') : (s.buf i).lock = some p ∧
      s' = s.modify i fun b => { b with valid := true, data := s.disk b.key } := by
  unfold iderw at hget
  split at hget
  · cases hget
  · rename_i hlock
    rw [hdirty, hvalid, if_neg Bool.false_ne_true, if_neg Bool.false_ne_true] at hget
    exact ⟨not_not.mp hlock, (Except.ok.inj hget).symm⟩

/-- **`bwrite`** writes the buffer to the disk. -/
theorem bwrite_ok (hget : bwrite p i data s = .ok s') : s.Uses p i ∧ (s.buf i).lock = some p ∧
    s'.buf = Function.update s.buf i { s.buf i with data, valid := true, dirty := false } ∧
    s'.disk = Function.update s.disk (s.buf i).key data ∧ s'.order = s.order ∧ s'.place = s.place ∧
    s'.used = s.used ∧ s'.clock = s.clock := by
  unfold bwrite at hget
  split at hget
  · cases hget
  · rename_i huses
    split at hget
    · cases hget
    · rename_i hlock
      have hself : (s.modify i fun b => { b with data, dirty := true }).buf i =
          { s.buf i with data, dirty := true } := Function.update_self ..
      unfold iderw at hget
      rw [hself, if_neg hlock, if_pos rfl] at hget
      cases hget
      refine ⟨not_not.mp huses, not_not.mp hlock, ?_, rfl, rfl, rfl, rfl, rfl⟩
      unfold State.modify
      dsimp only
      rw [Function.update_self, Function.update_idem]

variable [Fintype ι]

theorem Inv.bget (h : Inv s) (hk : k.1 ≠ 0) (hget : BufferCache.bget p k s = .ok s') : Inv s' := by
  obtain ⟨hfree, i, ⟨hfind, heq⟩ | ⟨hfind, hvictim, heq⟩⟩ := bget_cases hget
  · cases heq
    have hkey := find_some hfind
    refine h.modify (i := i) rfl rfl rfl rfl ?_ (.inl rfl) (fun _ => by rwa [← hkey] at hk) (h.read i) (h.clean i)
      fun _ _ => rfl
    refine counted_of_move h.counted rfl rfl (fun j _ => ?_) (fun j hj hc => hj (Option.some.inj hc).symm) ?_
    · rw [hfree]
      exact fun hc => by cases hc
    · rw [hfree, if_neg (fun hc => by cases hc), if_pos (show (Place.acquiring i).buffer = some i from rfl)]
  · cases heq
    obtain ⟨hrefcnt, -⟩ := victim_some hvictim
    have hlock := (h.unused hrefcnt).1
    refine h.modify (i := i) rfl rfl rfl rfl ?_ (.inr (h.find_none hfind)) (fun _ => hk) (fun hc => by cases hc)
      (fun hc => by cases hc) fun _ _ => rfl
    refine counted_of_move h.counted rfl rfl (fun j _ => ?_) (fun j hj hc => hj (Option.some.inj hc).symm) ?_
    · rw [hfree]
      exact fun hc => by cases hc
    · rw [hfree, if_neg (fun hc => by cases hc), hrefcnt, if_pos (show (Place.acquiring i).buffer = some i from rfl)]

theorem Inv.acquiresleep (h : Inv s) (hget : BufferCache.acquiresleep p s = .ok s') : Inv s' := by
  obtain ⟨i, hplace, hlock, rfl⟩ := acquiresleep_ok hget
  refine h.modify (i := i) rfl rfl rfl rfl ?_ (.inl rfl) (h.named i) (h.read i) (h.clean i) fun _ _ => rfl
  refine counted_of_move h.counted rfl rfl (fun j hj => ?_) (fun j hj hc => by cases hc) ?_
  · rw [hplace]
    exact fun hc => hj (Option.some.inj hc).symm
  · rw [hplace, if_pos (show (Place.acquiring i).buffer = some i from rfl), hlock, if_neg Bool.false_ne_true,
      if_neg (fun hc : Place.free.buffer = some i => by cases hc), Option.isSome_some, if_pos rfl]

theorem Inv.log_write (h : Inv s) (hget : BufferCache.log_write p i data s = .ok s') : Inv s' := by
  obtain ⟨huses, rfl⟩ := log_write_ok hget
  exact h.modify rfl rfl rfl rfl (counted_of_stay h.counted rfl rfl rfl rfl) (.inl rfl) (h.named i)
    (fun _ => huses.2) (fun _ hc => by cases hc) fun _ _ => rfl

theorem Inv.iderw (h : Inv s) (hvalid : (s.buf i).valid = false) (hget : BufferCache.iderw p i s = .ok s') :
    Inv s' := by
  have hdirty : (s.buf i).dirty = false := by
    by_contra hd
    rw [h.read i (Bool.eq_true_of_not_eq_false hd)] at hvalid
    cases hvalid
  obtain ⟨hlock, rfl⟩ := iderw_read hvalid hdirty hget
  exact h.fill (h.named_of_lock hlock)

theorem Inv.bwrite (h : Inv s) (hget : BufferCache.bwrite p i data s = .ok s') : Inv s' := by
  obtain ⟨-, hlock, hbuf, hdisk, horder, hplace, hused, hclock⟩ := bwrite_ok hget
  exact h.writeBack (h.named_of_lock hlock) data hbuf hdisk horder hplace hused hclock

theorem Inv.releasesleep (h : Inv s) (hget : BufferCache.releasesleep p i s = .ok s') : Inv s' := by
  obtain ⟨⟨hfree, -⟩, hlock, rfl⟩ := releasesleep_ok hget
  refine h.modify (i := i) rfl rfl rfl rfl ?_ (.inl rfl) (h.named i) (h.read i) (h.clean i) fun _ _ => rfl
  refine counted_of_move h.counted rfl rfl (fun j _ => ?_) (fun j hj hc => hj (Option.some.inj hc).symm) ?_
  · rw [hfree]
    exact fun hc => by cases hc
  · rw [hfree, hlock, if_neg (fun hc : Place.free.buffer = some i => by cases hc),
      if_pos (show (Place.releasing i).buffer = some i from rfl), Option.isSome_some, if_pos rfl]
    dsimp only
    rw [Option.isSome_none, if_neg Bool.false_ne_true]

theorem Inv.brelse (h : Inv s) (hget : BufferCache.brelse p s = .ok s') : Inv s' := by
  obtain ⟨i, t, hplace, ht, hcases⟩ := brelse_ok hget
  have hpos : 0 < (s.buf i).refcnt := by
    have hcount := h.counted i
    have hrefs : 0 < refs (Place.buffer ∘ s.place) (some i) := refs_pos p (by rw [Function.comp_apply, hplace]; rfl)
    unfold State.users at hcount
    omega
  have hleft : Inv t := by
    rw [ht]
    refine h.modify (i := i) rfl rfl rfl rfl ?_ (.inl rfl) (fun hc => h.named i (hc.imp_right fun _ => hpos.ne'))
      (h.read i) (h.clean i) fun _ _ => rfl
    refine counted_of_move h.counted rfl rfl (fun j hj => ?_) (fun j hj hc => by cases hc) ?_
    · rw [hplace]
      exact fun hc => hj (Option.some.inj hc).symm
    · rw [hplace, if_pos (show (Place.releasing i).buffer = some i from rfl),
        if_neg (fun hc : Place.free.buffer = some i => by cases hc)]
      dsimp only
      omega
  obtain rfl | rfl := hcases
  · exact hleft
  · exact hleft.touch i

/-- **Every step keeps the invariant.** -/
theorem Inv.step (h : Inv s) (hok : Named s e) (hstep : BufferCache.step s e s') : Inv s' := by
  unfold BufferCache.step next at hstep
  cases e with
  | bget p k => exact h.bget hok hstep
  | acquiresleep p => exact h.acquiresleep hstep
  | iderw p i =>
    dsimp only at hstep
    split at hstep
    · rename_i hplace
      exact h.iderw hplace.2 hstep
    · cases hstep
  | log_write p i data => exact h.log_write hstep
  | bwrite p i data => exact h.bwrite hstep
  | releasesleep p i => exact h.releasesleep hstep
  | brelse p => exact h.brelse hstep
  | crash =>
    cases hstep
    exact .binit s.disk

theorem inv_of_reach (h : Reach init BufferCache.step Named s) : Inv s :=
  h.invariant (I := Inv) (fun s h0 => by rw [show s = BufferCache.binit s.disk from h0]; exact .binit _)
    fun _ _ _ hinv hok hstep => hinv.step hok hstep

end

/-! ### The memory -/

section

variable [Fintype ι]

/-- **The pinned blocks** are those of the dirty buffers. -/
theorem Inv.pinned_iff (h : Inv s) {d : Block} : s.memory.pinned k = some d ↔
    ∃ i, (s.buf i).key = k ∧ (s.buf i).dirty = true ∧ (s.buf i).data = d := by
  unfold State.memory
  constructor
  · intro hpinned
    obtain ⟨i, hfind, hdata⟩ := Option.map_eq_some_iff.mp hpinned
    have hi := List.find?_some hfind
    rw [Bool.and_eq_true, decide_eq_true_eq] at hi
    exact ⟨i, hi.1, hi.2, hdata⟩
  · rintro ⟨i, hkey, hdirty, hdata⟩
    have hdev := h.named i (.inl (h.read i hdirty))
    dsimp only
    cases hfind : s.order.find? fun i => (s.buf i).key = k && (s.buf i).dirty with
    | none =>
      have hno := List.find?_eq_none.mp hfind i (h.mem_order i)
      rw [hdirty, Bool.and_true, decide_eq_true_eq] at hno
      exact absurd hkey hno
    | some j =>
      have hj := List.find?_some hfind
      rw [Bool.and_eq_true, decide_eq_true_eq] at hj
      rw [h.unique i j (hkey.trans hj.1.symm) hdev] at hdata
      rw [Option.map_some, hdata]

/-- **What a buffer has that has been read** is what the memory has. -/
theorem Inv.data_eq (h : Inv s) (hvalid : (s.buf i).valid = true) :
    (s.buf i).data = s.memory.bread (s.buf i).key := by
  unfold Memory.bread
  cases hdirty : (s.buf i).dirty with
  | true =>
    rw [h.pinned_iff.mpr ⟨i, rfl, hdirty, rfl⟩, Option.getD_some]
  | false =>
    have hnone : s.memory.pinned (s.buf i).key = none := by
      cases hpinned : s.memory.pinned (s.buf i).key with
      | none => rfl
      | some d =>
        obtain ⟨j, hkey, hj, -⟩ := h.pinned_iff.mp hpinned
        rw [h.unique i j hkey.symm (h.named i (.inl hvalid)), hj] at hdirty
        cases hdirty
    rw [hnone, Option.getD_none]
    exact h.clean i hvalid hdirty

/-- The step changes neither the disk nor a dirty buffer. -/
theorem memory_eq (h : Inv s) (h' : Inv s') (hdisk : s'.disk = s.disk)
    (hsame : ∀ j, (s'.buf j).dirty = (s.buf j).dirty ∧
      ((s.buf j).dirty = true → (s'.buf j).key = (s.buf j).key ∧ (s'.buf j).data = (s.buf j).data)) :
    s'.memory = s.memory := by
  have hpinned : s'.memory.pinned = s.memory.pinned := by
    funext k
    refine Option.ext fun d => ?_
    rw [h'.pinned_iff, h.pinned_iff]
    refine exists_congr fun j => ?_
    obtain ⟨hdirty, hrest⟩ := hsame j
    rw [hdirty]
    constructor
    · rintro ⟨hkey, hj, hdata⟩
      rw [(hrest hj).1] at hkey
      rw [(hrest hj).2] at hdata
      exact ⟨hkey, hj, hdata⟩
    · rintro ⟨hkey, hj, hdata⟩
      rw [← (hrest hj).1] at hkey
      rw [← (hrest hj).2] at hdata
      exact ⟨hkey, hj, hdata⟩
  show Memory.mk s'.disk s'.memory.pinned = Memory.mk s.disk s.memory.pinned
  rw [hdisk, hpinned]

/-- One buffer changes, and is clean before and afterwards, or is not changed in what matters. -/
theorem memory_eq_of_update (h : Inv s) (h' : Inv s') (hdisk : s'.disk = s.disk)
    (hbuf : s'.buf = Function.update s.buf i b) (hdirty : b.dirty = (s.buf i).dirty)
    (hrest : (s.buf i).dirty = true → b.key = (s.buf i).key ∧ b.data = (s.buf i).data) :
    s'.memory = s.memory := by
  refine memory_eq h h' hdisk fun j => ?_
  rw [hbuf]
  by_cases hj : j = i
  · rw [hj, Function.update_self]
    exact ⟨hdirty, hrest⟩
  · rw [Function.update_of_ne hj]
    exact ⟨rfl, fun _ => ⟨rfl, rfl⟩⟩

/-- One buffer changes: what is pinned for other blocks stays. -/
theorem pinned_of_update (h : Inv s) (h' : Inv s') (hbuf : s'.buf = Function.update s.buf i b)
    (hkey : b.key = (s.buf i).key) (hdev : (s.buf i).key.1 ≠ 0) :
    s'.memory.pinned = Function.update s.memory.pinned (s.buf i).key (if b.dirty then some b.data else none) := by
  funext k
  have hself : s'.buf i = b := by rw [hbuf, Function.update_self]
  by_cases hk : k = (s.buf i).key
  · rw [hk, Function.update_self]
    cases hdirty : b.dirty with
    | true => exact h'.pinned_iff.mpr ⟨i, by rw [hself, hkey], by rw [hself, hdirty], by rw [hself]⟩
    | false =>
      rw [if_neg Bool.false_ne_true]
      cases hpinned : s'.memory.pinned (s.buf i).key with
      | none => rfl
      | some d =>
        obtain ⟨j, hj, hjd, -⟩ := h'.pinned_iff.mp hpinned
        have hji : i = j := h'.unique i j (by rw [hself, hkey, hj]) (by rwa [hself, hkey])
        rw [← hji, hself, hdirty] at hjd
        cases hjd
  · rw [Function.update_of_ne hk]
    refine Option.ext fun d => ?_
    rw [h'.pinned_iff, h.pinned_iff]
    refine exists_congr fun j => ?_
    by_cases hj : j = i
    · rw [hj, hself, hkey]
      exact ⟨fun hc => absurd hc.1.symm hk, fun hc => absurd hc.1.symm hk⟩
    · rw [hbuf, Function.update_of_ne hj]

variable [DecidableEq ι]

/-- **What a step does to the memory.** -/
theorem Inv.memory_step (h : Inv s) (hok : Named s e) (hstep : BufferCache.step s e s') :
    s'.memory = s.effect e s.memory := by
  have h' := h.step hok hstep
  unfold BufferCache.step next at hstep
  cases e with
  | bget p k =>
    obtain ⟨-, i, ⟨-, heq⟩ | ⟨-, hvictim, heq⟩⟩ := bget_cases hstep
    · cases heq
      exact memory_eq_of_update h h' rfl rfl rfl fun _ => ⟨rfl, rfl⟩
    · cases heq
      have hclean := (victim_some hvictim).2
      refine memory_eq_of_update h h' rfl rfl hclean.symm fun hdirty => ?_
      rw [hclean] at hdirty
      cases hdirty
  | acquiresleep p =>
    obtain ⟨i, -, -, rfl⟩ := acquiresleep_ok hstep
    exact memory_eq_of_update h h' rfl rfl rfl fun _ => ⟨rfl, rfl⟩
  | iderw p i =>
    dsimp only at hstep
    split at hstep
    · rename_i hplace
      have hclean : (s.buf i).dirty = false := by
        by_contra hd
        have hvalid := h.read i (Bool.eq_true_of_not_eq_false hd)
        rw [hplace.2] at hvalid
        cases hvalid
      obtain ⟨-, rfl⟩ := iderw_read hplace.2 hclean hstep
      refine memory_eq_of_update h h' rfl rfl rfl fun hdirty => ?_
      rw [hclean] at hdirty
      cases hdirty
    · cases hstep
  | log_write p i data =>
    obtain ⟨huses, rfl⟩ := log_write_ok hstep
    have hpinned := pinned_of_update h h' (i := i) rfl rfl (h.named i (.inl huses.2))
    exact congrArg (Memory.mk s.disk) hpinned
  | bwrite p i data =>
    obtain ⟨huses, -, hbuf, hdisk, -⟩ := bwrite_ok hstep
    have hpinned := pinned_of_update h h' hbuf rfl (h.named i (.inl huses.2))
    show Memory.mk s'.disk s'.memory.pinned = _
    rw [hdisk, hpinned]
    rfl
  | releasesleep p i =>
    obtain ⟨-, -, rfl⟩ := releasesleep_ok hstep
    exact memory_eq_of_update h h' rfl rfl rfl fun _ => ⟨rfl, rfl⟩
  | brelse p =>
    obtain ⟨i, t, -, rfl, rfl | rfl⟩ := brelse_ok hstep
    · exact memory_eq_of_update h h' rfl rfl rfl fun _ => ⟨rfl, rfl⟩
    · exact memory_eq_of_update h h' rfl rfl rfl fun _ => ⟨rfl, rfl⟩
  | crash =>
    cases hstep
    have hpinned : (BufferCache.binit s.disk : State ι).memory.pinned = fun _ => none := by
      funext k
      cases hk : (BufferCache.binit s.disk : State ι).memory.pinned k with
      | none => rfl
      | some d =>
        obtain ⟨i, -, hdirty, -⟩ := h'.pinned_iff.mp hk
        cases hdirty
    exact congrArg (Memory.mk s.disk) hpinned

/-- **The cache cannot be seen.**  In every state of a run, a block has at most one buffer; a buffer that has been
read has what was last written for its block, wherever that is; and of the steps only the writes change what the
blocks have: `bget` never drops a block that is pinned. -/
theorem cache_is_transparent (h : Reach init BufferCache.step Named s) :
    (∀ i j, (s.buf i).key = (s.buf j).key → (s.buf i).key.1 ≠ 0 → i = j) ∧
    (∀ i, (s.buf i).valid = true → (s.buf i).data = s.memory.bread (s.buf i).key) ∧
    ∀ e s', Named s e → BufferCache.step s e s' → s'.memory = s.effect e s.memory := by
  have hinv := inv_of_reach h
  exact ⟨hinv.unique, fun _ => hinv.data_eq, fun _ _ => hinv.memory_step⟩

/-- The machine has started, with a disk of zeros. -/
theorem started : Reach init BufferCache.step Named (binit fun _ _ => 0 : State (Fin 2)) :=
  .start rfl

/-- A block is zero on the disk; a process writes it and leaves it pinned, and another one finds what is written. -/
theorem cache_is_transparent_pinned : ∃ s : State (Fin 2), s.disk (1, 5) 0 = 0 ∧ (s.buf 0).lock = some 1 ∧
    (s.buf 0).data 0 = 7 ∧ (s.buf 0).data = s.memory.bread (1, 5) := by
  have h := Reach.foldlM [.bget 0 (1, 5), .acquiresleep 0, .iderw 0 0, .log_write 0 0 fun _ => 7,
    .releasesleep 0 0, .brelse 0, .bget 1 (1, 5), .acquiresleep 1] _ _ (by simp [Named])
    started rfl
  exact ⟨_, rfl, rfl, rfl, (cache_is_transparent h).2.1 0 rfl⟩

/-- A process holds the buffer, waits for it or is about to leave it. -/
def State.InUse (s : State ι) (i : Index) : Prop :=
  (∃ p, (s.buf i).lock = some p) ∨ ∃ p, (s.place p).buffer = some i

omit [DecidableEq ι] in
theorem Inv.inUse_iff (h : Inv s) : s.InUse i ↔ (s.buf i).refcnt ≠ 0 := by
  constructor
  · rintro (⟨p, hlock⟩ | ⟨p, hplace⟩) hzero
    · rw [(h.unused hzero).1] at hlock
      cases hlock
    · exact (h.unused hzero).2 p hplace
  · intro hne
    by_contra hnot
    unfold State.InUse at hnot
    rw [not_or, not_exists, not_exists] at hnot
    have hcount := h.counted i
    unfold State.users at hcount
    rw [Option.eq_none_iff_forall_ne_some.mpr hnot.1, Option.isSome_none, if_neg Bool.false_ne_true,
      refs_eq_zero (f := Place.buffer ∘ s.place).mpr hnot.2] at hcount
    exact hne hcount

/-- **What `bget` recycles**, in every state of a run: it panics if and only if the block is not in the cache and
every buffer is in use or pinned; and it takes the buffer of the block, or else, of those that are neither in use
nor pinned, the one that has been released the longest time ago. -/
theorem bget_recycles (h : Reach init BufferCache.step Named s) (hp : s.place p = .free) (k : Key) :
    (BufferCache.bget p k s = .error .no_buffers ↔
      (∀ i, (s.buf i).key ≠ k) ∧ ∀ i, s.InUse i ∨ (s.buf i).dirty = true) ∧
    ∀ s', BufferCache.bget p k s = .ok s' → ∃ i, s'.place p = .acquiring i ∧ (s'.buf i).key = k ∧
      ((s.buf i).key = k ∨ ((∀ j, (s.buf j).key ≠ k) ∧ ¬s.InUse i ∧ (s.buf i).dirty = false ∧
        ∀ j, ¬s.InUse j → (s.buf j).dirty = false → s.used i ≤ s.used j)) := by
  have hinv := inv_of_reach h
  constructor
  · unfold BufferCache.bget
    rw [if_neg (not_not.mpr hp)]
    constructor
    · intro hget
      cases hfind : s.find k with
      | some i =>
        rw [hfind] at hget
        cases hget
      | none =>
        rw [hfind] at hget
        dsimp only at hget
        cases hvictim : s.victim with
        | some i =>
          rw [hvictim] at hget
          cases hget
        | none =>
          refine ⟨hinv.find_none hfind, fun i => ?_⟩
          have hno := List.find?_eq_none.mp hvictim i (List.mem_reverse.mpr (hinv.mem_order i))
          rw [Bool.and_eq_true, decide_eq_true_eq, Bool.not_eq_true', not_and, Bool.not_eq_false] at hno
          rw [hinv.inUse_iff]
          by_cases hzero : (s.buf i).refcnt = 0
          · exact .inr (hno hzero)
          · exact .inl hzero
    · rintro ⟨hnot, hbusy⟩
      have hfind : s.find k = none := by
        refine List.find?_eq_none.mpr fun i _ => ?_
        rw [decide_eq_true_eq]
        exact hnot i
      have hvictim : s.victim = none := by
        refine List.find?_eq_none.mpr fun i _ => ?_
        rw [Bool.and_eq_true, decide_eq_true_eq, Bool.not_eq_true', not_and, Bool.not_eq_false]
        exact fun hzero => (hbusy i).resolve_left fun hin => hinv.inUse_iff.mp hin hzero
      rw [hfind]
      dsimp only
      rw [hvictim]
  · intro s' hget
    obtain ⟨-, i, ⟨hfind, heq⟩ | ⟨hfind, hvictim, heq⟩⟩ := bget_cases hget
    · cases heq
      refine ⟨i, Function.update_self .., ?_, .inl (find_some hfind)⟩
      show (Function.update s.buf i { s.buf i with refcnt := (s.buf i).refcnt + 1 } i).key = k
      rw [Function.update_self]
      exact find_some hfind
    · cases heq
      obtain ⟨hzero, hclean⟩ := victim_some hvictim
      obtain ⟨-, holdest⟩ := hinv.recency.find?_reverse hvictim
      refine ⟨i, Function.update_self .., ?_, .inr ⟨hinv.find_none hfind, ?_, hclean, fun j hj hdirty => ?_⟩⟩
      · show (Function.update s.buf i _ i).key = k
        rw [Function.update_self]
      · rw [hinv.inUse_iff]
        exact not_not.mpr hzero
      · refine holdest j (hinv.mem_order j) ?_
        rw [hinv.inUse_iff, not_not] at hj
        rw [Bool.and_eq_true, decide_eq_true_eq, Bool.not_eq_true']
        exact ⟨hj, hdirty⟩

/-- The first buffer has been left, and is not taken, as others have never been used. -/
theorem bget_recycles_other : ∃ s s' : State (Fin 2), s.used 0 = 1 ∧ bget 1 (1, 6) s = .ok s' ∧
    ∃ i, s'.place 1 = .acquiring i ∧ (s'.buf i).key = (1, 6) ∧ s.used i = 0 := by
  have h := Reach.foldlM [.bget 0 (1, 5), .acquiresleep 0, .iderw 0 0, .releasesleep 0 0, .brelse 0] _ _
    (by simp [Named]) started rfl
  obtain ⟨i, hplace, hkey, hold | ⟨-, -, -, hleast⟩⟩ := (bget_recycles h (p := (1 : Fin 2)) rfl (1, 6)).2 _ rfl
  · exact absurd hold (by revert i; decide)
  · refine ⟨_, _, rfl, rfl, i, hplace, hkey, Nat.le_zero.mp (hleast 1 ?_ rfl)⟩
    rintro (⟨p, hp⟩ | ⟨p, hp⟩)
    · cases hp
    · revert p
      decide

end

end OperatingSystems.Log.BufferCache
