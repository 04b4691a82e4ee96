import OperatingSystems.Shell.Jobs
import OperatingSystems.Lib.GuardedRuns
import OperatingSystems.Lib.TwoWayIndex

/-!
# The job tables over runs of the shell

The two arrays form a two-way index between job ids and places in `Jobs`: `jobIDs` is the index, and the
valid background jobs carry the labels.  Every command links a pair, removes one, or changes neither.

* **`Indexed`** — the invariant, in terms of the index and the labels.
* **`step_indexed`** — a step with room for what it stores keeps the invariant and stays inside the arrays.
* **`job_tables_consistent`** — the tables over any run whose steps have room.
* **`round_idle`** — a job that has come and gone has used up a place in `Jobs`.
-/

namespace OperatingSystems.Shell

open GuardedRuns Outcomes TwoWayIndex

variable {s s' : Tables} {id v k : ℤ}

/-! ### The tables as a two-way index -/

/-- The place in `Jobs` that `jobIDs` gives for an id. -/
def Tables.index (s : Tables) (id : ℤ) : Option ℤ :=
  if 1 ≤ id ∧ id < 256 ∧ s.jobIDs id ≠ -1 then some (s.jobIDs id) else none

/-- The id of a valid background job. -/
def Job.label (job : Job) : Option ℤ :=
  if job.isValid = 1 ∧ job.isBackground = 1 then some job.jobID else none

/-- The id that a place in `Jobs` carries. -/
def Tables.label (s : Tables) (k : ℤ) : Option ℤ :=
  if 0 ≤ k ∧ k < 256 then (s.Jobs k).label else none

theorem index_eq_some : s.index id = some k ↔ (1 ≤ id ∧ id < 256) ∧ s.jobIDs id = k ∧ k ≠ -1 := by
  unfold Tables.index
  split
  · rename_i h
    rw [Option.some.injEq]
    constructor
    · rintro rfl
      exact ⟨⟨h.1, h.2.1⟩, rfl, h.2.2⟩
    · exact fun hk => hk.2.1
  · rename_i h
    constructor
    · intro hk
      cases hk
    · intro hk
      exact absurd ⟨hk.1.1, hk.1.2, hk.2.1 ▸ hk.2.2⟩ h

theorem index_eq_none (hid : 1 ≤ id ∧ id < 256) : s.index id = none ↔ s.jobIDs id = -1 := by
  unfold Tables.index
  constructor
  · intro h
    by_contra hne
    rw [if_pos ⟨hid.1, hid.2, hne⟩] at h
    cases h
  · intro h
    exact if_neg fun hc => hc.2.2 h

theorem Job.label_eq_some {job : Job} :
    job.label = some id ↔ job.isValid = 1 ∧ job.isBackground = 1 ∧ job.jobID = id := by
  unfold Job.label
  split
  · rename_i h
    rw [Option.some.injEq]
    exact ⟨fun hid => ⟨h.1, h.2, hid⟩, fun hid => hid.2.2⟩
  · rename_i h
    exact ⟨fun hid => (nomatch hid), fun hid => absurd ⟨hid.1, hid.2.1⟩ h⟩

theorem label_eq_some : s.label k = some id ↔ (0 ≤ k ∧ k < 256) ∧ (s.Jobs k).label = some id := by
  unfold Tables.label
  split
  · rename_i h
    exact ⟨fun hk => ⟨h, hk⟩, fun hk => hk.2⟩
  · rename_i h
    exact ⟨fun hk => (nomatch hk), fun hk => absurd hk.1 h⟩

theorem label_of_mem (hk : 0 ≤ k ∧ k < 256) : s.label k = (s.Jobs k).label := if_pos hk

theorem index_putID (hid : 1 ≤ id ∧ id < 256) :
    (s.putID id v).index = Function.update s.index id (if v = -1 then none else some v) := by
  funext j
  rcases eq_or_ne j id with rfl | hj
  · rw [Function.update_self]
    simp [Tables.index, Tables.putID, hid]
  · rw [Function.update_of_ne hj]
    simp [Tables.index, Tables.putID, hj]

theorem label_putJob (hk : 0 ≤ k ∧ k < 256) (job : Job) :
    (s.putJob k job).label = Function.update s.label k job.label := by
  funext l
  rcases eq_or_ne l k with rfl | hl
  · rw [Function.update_self, label_of_mem hk]
    simp [Tables.putJob]
  · rw [Function.update_of_ne hl]
    simp [Tables.label, Tables.putJob, hl]

@[simp] theorem index_putJob (job : Job) : (s.putJob k job).index = s.index := rfl

@[simp] theorem label_putID : (s.putID id v).label = s.label := rfl

@[simp] theorem numJobs_putJob (job : Job) : (s.putJob k job).numJobs = s.numJobs := rfl

@[simp] theorem numJobs_putID : (s.putID id v).numJobs = s.numJobs := rfl

@[simp] theorem Jobs_putID : (s.putID id v).Jobs = s.Jobs := rfl

@[simp] theorem Jobs_putJob_self (job : Job) : (s.putJob k job).Jobs k = job := Function.update_self ..

@[simp] theorem label_initializeJob : initializeJob.label = none := rfl

/-- **The invariant**: ids and places in `Jobs` point at each other, below the counter. -/
structure Indexed (s : Tables) : Prop where
  linked : Linked s.index s.label
  stored : ∀ k id, s.label k = some id → k < s.numJobs
  nonneg : 0 ≤ s.numJobs

theorem indexed_initial : Indexed Tables.initial where
  linked := by
    have hindex : Tables.initial.index = fun _ => none := by
      funext id
      exact if_neg fun h => h.2.2 rfl
    have hlabel : Tables.initial.label = fun _ => none := by
      funext k
      unfold Tables.label
      split <;> rfl
    rw [hindex, hlabel]
    exact linked_empty
  stored := by
    intro k id h
    unfold Tables.label at h
    split at h <;> cases h
  nonneg := le_refl 0

/-- Tables with the same index, labels and counter. -/
theorem Indexed.congr (h : Indexed s) (hindex : s'.index = s.index) (hlabel : s'.label = s.label)
    (hnum : s'.numJobs = s.numJobs) : Indexed s' where
  linked := by
    rw [hindex, hlabel]
    exact h.linked
  stored := by
    rw [hlabel, hnum]
    exact h.stored
  nonneg := hnum ▸ h.nonneg

theorem Indexed.unlink (h : Indexed s) (hid : s.index id = some k)
    (hindex : s'.index = Function.update s.index id none)
    (hlabel : s'.label = Function.update s.label k none) (hnum : s'.numJobs = s.numJobs) :
    Indexed s' where
  linked := by
    rw [hindex, hlabel]
    exact h.linked.unlink hid
  stored := by
    intro l i hl
    rw [hlabel] at hl
    rw [hnum]
    rcases eq_or_ne l k with rfl | hne
    · rw [Function.update_self] at hl
      cases hl
    · rw [Function.update_of_ne hne] at hl
      exact h.stored l i hl
  nonneg := hnum ▸ h.nonneg

theorem Indexed.link (h : Indexed s) (hid : s.index id = none) (hk : s.label k = none)
    (hindex : s'.index = Function.update s.index id (some k))
    (hlabel : s'.label = Function.update s.label k (some id)) (hlt : k < s'.numJobs)
    (hnum : s.numJobs ≤ s'.numJobs) : Indexed s' where
  linked := by
    rw [hindex, hlabel]
    exact h.linked.link hid hk
  stored := by
    intro l i hl
    rw [hlabel] at hl
    rcases eq_or_ne l k with rfl | hne
    · exact hlt
    · rw [Function.update_of_ne hne] at hl
      exact (h.stored l i hl).trans_le hnum
  nonneg := h.nonneg.trans hnum

/-! ### What each command keeps -/

/-- A command keeps the invariant, and any other end is not an access outside of an array. -/
abbrev Keeps (x : Except Stop Tables) : Prop := Meets Indexed (· ≠ .outOfBounds) x

theorem setJobID_eq (hid : 1 ≤ id ∧ id < 256) : setJobID id v s = .ok (s.putID id v) := if_pos hid

theorem setJob_eq (hk : 0 ≤ k ∧ k < 256) (job : Job) : setJob k job s = .ok (s.putJob k job) := if_pos hk

/-- Where the index leads. -/
theorem Indexed.at (h : Indexed s) (hid : s.index id = some k) :
    (1 ≤ id ∧ id < 256) ∧ (0 ≤ k ∧ k < 256) ∧ k < s.numJobs ∧ s.label k = some id := by
  have hk : s.label k = some id := (h.linked id k).mp hid
  exact ⟨(index_eq_some.mp hid).1, (label_eq_some.mp hk).1, h.stored k id hk, hk⟩

theorem keeps_completeJob (h : Indexed s) (hid : s.index id = some k) (hjob : (s.Jobs k).jobID = id) :
    Keeps (completeJob k s) := by
  obtain ⟨hrange, hk, -, -⟩ := h.at hid
  unfold completeJob
  rw [hjob, setJobID_eq hrange, ok_bind, setJob_eq hk]
  show Indexed _
  apply h.unlink hid
  · rw [index_putJob, index_putID hrange, if_pos rfl]
  · rw [label_putJob hk, label_putID, label_initializeJob]
  · rfl

theorem keeps_updateJob (h : Indexed s) (waitpid : ℕ → Poll) (hk : 0 ≤ k ∧ k < 256) :
    Keeps (updateJob waitpid k s) := by
  unfold updateJob
  split
  · rename_i hjob
    have hlabel : s.label k = some (s.Jobs k).jobID := by
      rw [label_of_mem hk]
      exact Job.label_eq_some.mpr ⟨hjob.1, hjob.2, rfl⟩
    have hdone : Keeps (completeJob k s) :=
      keeps_completeJob h ((h.linked _ _).mpr hlabel) rfl
    split
    · split
      · exact hdone
      · exact h
    · split
      · show Stop.exited ≠ .outOfBounds
        decide
      · exact hdone
      · exact h
  · exact h

theorem keeps_update (h : Indexed s) (waitpid : ℕ → ℕ → Poll) :
    Keeps (updateBackgroundJobStatus waitpid s) := by
  apply Meets.foldlM h
  intro t ht i hi
  apply keeps_updateJob ht
  have := List.mem_range.mp hi
  omega

theorem mem_ids : id ∈ ids ↔ 1 ≤ id ∧ id < 256 := by
  unfold ids
  rw [List.mem_map]
  constructor
  · rintro ⟨i, hi, rfl⟩
    have := List.mem_range'_1.mp hi
    omega
  · intro hid
    refine ⟨id.toNat, List.mem_range'_1.mpr ?_, ?_⟩ <;> omega

theorem findLargest_range (s : Tables) : findLargestUsedJobID s = -1 ∨
    1 ≤ findLargestUsedJobID s ∧ findLargestUsedJobID s < 256 := by
  have hfold : ∀ (l : List ℤ) (b : ℤ), l.foldl (fun largestJobID i => if s.jobIDs i ≠ -1 then i
      else largestJobID) b = b ∨ l.foldl (fun largestJobID i => if s.jobIDs i ≠ -1 then i
      else largestJobID) b ∈ l := by
    intro l
    induction l with
    | nil => exact fun b => .inl rfl
    | cons x l ih =>
      intro b
      rw [List.foldl_cons]
      rcases ih (if s.jobIDs x ≠ -1 then x else b) with h | h
      · rw [h]
        split
        · exact .inr List.mem_cons_self
        · exact .inl rfl
      · exact .inr (List.mem_cons_of_mem x h)
  exact (hfold ids (-1)).imp_right mem_ids.mp

theorem exited_ne : Stop.exited ≠ .outOfBounds := by decide

theorem waiting_ne : Stop.waiting ≠ .outOfBounds := by decide

theorem meets_chooseJobID (arguments : List ℤ) (s : Tables) :
    Meets (fun id => 1 ≤ id ∧ id < 256) (· ≠ .outOfBounds) (chooseJobID arguments s) := by
  unfold chooseJobID
  split
  · split
    · exact exited_ne
    · rename_i hne
      exact (findLargest_range s).resolve_left hne
  · split
    · exact exited_ne
    · show 1 ≤ _ ∧ _
      omega
  · exact exited_ne

/-- **What `fg` and `bg` go on with** is a pair of the index. -/
theorem meets_selectJob (h : Indexed s) (arguments : List ℤ) :
    Meets (fun r => s.index r.1 = some r.2) (· ≠ .outOfBounds) (selectJob arguments s) := by
  apply (meets_chooseJobID arguments s).bind
  intro id hid
  split
  · exact exited_ne
  · rename_i hne
    have hindex : s.index id = some (s.jobIDs id) := index_eq_some.mpr ⟨hid, rfl, hne⟩
    unfold readJob
    rw [if_pos (h.at hindex).2.1, ok_bind]
    split
    · exact exited_ne
    · exact hindex

/-- The state in which `fg` waits: the pair is removed from both tables. -/
structure Detached (s : Tables) (id k : ℤ) : Prop where
  indexed : Indexed s
  range : 1 ≤ id ∧ id < 256
  place : 0 ≤ k ∧ k < 256
  stored : k < s.numJobs
  index_none : s.index id = none
  label_none : s.label k = none
  valid : (s.Jobs k).isValid = 1
  jobID : (s.Jobs k).jobID = id

theorem keeps_finishJob (h : Detached s id k) : Keeps (finishJob id k s) := by
  unfold finishJob
  rw [setJob_eq h.place, ok_bind, setJobID_eq h.range]
  show Indexed _
  apply h.indexed.congr
  · rw [index_putID h.range, if_pos rfl, index_putJob, ← h.index_none, Function.update_eq_self]
  · rw [label_putID, label_putJob h.place, label_initializeJob, ← h.label_none, Function.update_eq_self]
  · rfl

theorem keeps_suspendJob (h : Detached s id k) : Keeps (suspendJob id k s) := by
  unfold suspendJob
  rw [setJob_eq h.place, ok_bind, setJobID_eq h.range]
  show Indexed _
  have hne : k ≠ -1 := by
    have := h.place
    omega
  apply h.indexed.link h.index_none h.label_none
  · rw [index_putID h.range, if_neg hne, index_putJob]
  · rw [label_putID, label_putJob h.place]
    congr 1
    exact Job.label_eq_some.mpr ⟨h.valid, rfl, h.jobID⟩
  · exact h.stored
  · exact le_refl _

theorem keeps_waitGroup (h : Detached s id k) (waits : List Wait) : Keeps (waitGroup id k waits s) := by
  induction waits with
  | nil => exact waiting_ne
  | cons w waits ih =>
    cases w with
    | failed => exact keeps_finishJob h
    | stopped => exact keeps_suspendJob h
    | exited => exact ih
    | signalled => exact ih

theorem keeps_waitProcess (h : Detached s id k) (waits : List Wait) :
    Keeps (waitProcess id k waits s) := by
  cases waits with
  | nil => exact waiting_ne
  | cons w waits =>
    cases w with
    | failed => exact exited_ne
    | stopped => exact keeps_suspendJob h
    | exited => exact keeps_finishJob h
    | signalled => exact h.indexed

/-- `fg` removes the pair before it waits. -/
theorem detached_fg (h : Indexed s) (hid : s.index id = some k) :
    Detached (((s.putJob k { s.Jobs k with isBackground := 0 }).putID id (-1)).putJob k
      { s.Jobs k with isBackground := 0, isStopped := 0 }) id k := by
  obtain ⟨hrange, hk, hlt, hlabel⟩ := h.at hid
  obtain ⟨-, hjob⟩ := label_eq_some.mp hlabel
  obtain ⟨hvalid, -, hjobID⟩ := Job.label_eq_some.mp hjob
  have hnone : ({ s.Jobs k with isBackground := 0, isStopped := 0 } : Job).label = none :=
    if_neg fun hc => absurd (show (0 : ℤ) = 1 from hc.2) (by decide)
  have hindex : (((s.putJob k { s.Jobs k with isBackground := 0 }).putID id (-1)).putJob k
      { s.Jobs k with isBackground := 0, isStopped := 0 }).index = Function.update s.index id none := by
    rw [index_putJob, index_putID hrange, if_pos rfl, index_putJob]
  have hlabels : (((s.putJob k { s.Jobs k with isBackground := 0 }).putID id (-1)).putJob k
      { s.Jobs k with isBackground := 0, isStopped := 0 }).label = Function.update s.label k none := by
    rw [label_putJob hk, label_putID, label_putJob hk, hnone, Function.update_idem]
  exact
    { indexed := h.unlink hid hindex hlabels rfl
      range := hrange
      place := hk
      stored := hlt
      index_none := by rw [hindex, Function.update_self]
      label_none := by rw [hlabels, Function.update_self]
      valid := by rw [Jobs_putJob_self]; exact hvalid
      jobID := by rw [Jobs_putJob_self]; exact hjobID }

theorem keeps_fg (h : Indexed s) (arguments : List ℤ) (waits : List Wait) :
    Keeps (execFgCommand arguments waits s) := by
  apply (meets_selectJob h arguments).bind
  intro (id, k) hid
  obtain ⟨hrange, hk, -, -⟩ := h.at hid
  have hdetached := detached_fg h hid
  dsimp only
  rw [setJob_eq hk, ok_bind, setJobID_eq hrange, ok_bind, setJob_eq hk, ok_bind, Jobs_putID,
    Jobs_putJob_self]
  split
  · exact keeps_waitGroup hdetached waits
  · exact keeps_waitProcess hdetached waits

theorem keeps_bg (h : Indexed s) (arguments : List ℤ) : Keeps (execBgCommand arguments s) := by
  apply (meets_selectJob h arguments).bind
  intro (id, k) hid
  obtain ⟨-, hk, -, hlabel⟩ := h.at hid
  obtain ⟨-, hjob⟩ := label_eq_some.mp hlabel
  obtain ⟨hvalid, -, hjobID⟩ := Job.label_eq_some.mp hjob
  have hkept : ({ s.Jobs k with isBackground := 1, isStopped := 0 } : Job).label = s.label k := by
    rw [hlabel]
    exact Job.label_eq_some.mpr ⟨hvalid, rfl, hjobID⟩
  dsimp only
  rw [setJob_eq hk, ok_bind, setJob_eq hk, Jobs_putJob_self]
  show Indexed _
  apply h.congr
  · rw [index_putJob, index_putJob]
  · rw [label_putJob hk, label_putJob hk, Function.update_idem, hkept, Function.update_eq_self]
  · rfl

/-! ### Storing a job -/

/-- There is a place in `Jobs` and a free id. -/
def Room (s : Tables) : Prop := s.numJobs < 256 ∧ ∃ id, 1 ≤ id ∧ id < 256 ∧ s.jobIDs id = -1

/-- A step that stores a job has room for it. -/
def HasRoom (s : Tables) (a : Act) : Prop := a.stores = true → Room s

/-- A valid background job has this id. -/
def InUse (s : Tables) (id : ℤ) : Prop :=
  ∃ k, 0 ≤ k ∧ k < 256 ∧ (s.Jobs k).isValid = 1 ∧ (s.Jobs k).isBackground = 1 ∧ (s.Jobs k).jobID = id

theorem inUse_iff : InUse s id ↔ ∃ k, s.label k = some id := by
  constructor
  · intro ⟨k, hlo, hhi, hjob⟩
    exact ⟨k, label_eq_some.mpr ⟨⟨hlo, hhi⟩, Job.label_eq_some.mpr hjob⟩⟩
  · intro ⟨k, hk⟩
    obtain ⟨hrange, hjob⟩ := label_eq_some.mp hk
    exact ⟨k, hrange.1, hrange.2, Job.label_eq_some.mp hjob⟩

/-- The ids that are not in use are the free ones. -/
theorem Indexed.not_inUse (h : Indexed s) (hid : 1 ≤ id ∧ id < 256) : ¬InUse s id ↔ s.jobIDs id = -1 := by
  rw [inUse_iff, ← index_eq_none hid, h.linked.index_eq_none, not_exists]

/-- The first id found in the order of the loop is the least. -/
theorem find_isLeast {xs : List ℤ} {p : ℤ → Bool} (hs : xs.Pairwise (· < ·)) (h : xs.find? p = some id) :
    IsLeast {x | x ∈ xs ∧ p x} id := by
  obtain ⟨hp, as, bs, rfl, has⟩ := List.find?_eq_some_iff_append.mp h
  refine ⟨⟨List.mem_append_right _ List.mem_cons_self, hp⟩, ?_⟩
  intro x ⟨hx, hpx⟩
  rcases List.mem_append.mp hx with hx | hx
  · have := has x hx
    rw [hpx] at this
    cases this
  · rcases List.mem_cons.mp hx with rfl | hx
    · exact le_refl _
    · exact (List.rel_of_pairwise_cons (List.pairwise_append.mp hs).2.1 hx).le

theorem ids_sorted : ids.Pairwise (· < ·) :=
  List.Pairwise.map _ (fun _ _ h => Int.ofNat_lt.mpr h) List.pairwise_lt_range'

/-- What `findSmallestAvailableJobID` returns. -/
theorem findSmallest_cases (s : Tables) :
    ((∃ id, 1 ≤ id ∧ id < 256 ∧ s.jobIDs id = -1) ∧
      IsLeast {id | (1 ≤ id ∧ id < 256) ∧ s.jobIDs id = -1} (findSmallestAvailableJobID s)) ∨
    (¬(∃ id, 1 ≤ id ∧ id < 256 ∧ s.jobIDs id = -1) ∧ findSmallestAvailableJobID s = -1) := by
  unfold findSmallestAvailableJobID
  cases hfind : ids.find? fun i => s.jobIDs i == -1 with
  | some id =>
    have hset : {x | x ∈ ids ∧ (s.jobIDs x == -1) = true} =
        {id | (1 ≤ id ∧ id < 256) ∧ s.jobIDs id = -1} := by
      ext x
      rw [Set.mem_ofPred_eq, Set.mem_ofPred_eq, mem_ids, beq_iff_eq]
    have hleast := find_isLeast ids_sorted hfind
    rw [hset] at hleast
    exact .inl ⟨⟨id, hleast.1.1.1, hleast.1.1.2, hleast.1.2⟩, hleast⟩
  | none =>
    refine .inr ⟨?_, rfl⟩
    intro ⟨id, hlo, hhi, hfree⟩
    have := List.find?_eq_none.mp hfind id (mem_ids.mpr ⟨hlo, hhi⟩)
    exact this (beq_iff_eq.mpr hfree)

/-- The tables with one more job. -/
def Tables.store (s : Tables) (job : Job) : Tables where
  jobIDs := Function.update s.jobIDs job.jobID s.numJobs
  Jobs := Function.update s.Jobs s.numJobs job
  numJobs := s.numJobs + 1

theorem Jobs_store_self (job : Job) : (s.store job).Jobs s.numJobs = job := Function.update_self ..

theorem index_store {job : Job} (hid : 1 ≤ job.jobID ∧ job.jobID < 256) (hnum : 0 ≤ s.numJobs) :
    (s.store job).index = Function.update s.index job.jobID (some s.numJobs) := by
  show (s.putID job.jobID s.numJobs).index = _
  rw [index_putID hid, if_neg (by omega)]

theorem label_store {job : Job} (hk : 0 ≤ s.numJobs ∧ s.numJobs < 256) :
    (s.store job).label = Function.update s.label s.numJobs job.label := label_putJob hk job

/-- **Storing a background job** with room for it links the least free id. -/
theorem storeJobInfo_room (h : Indexed s) (hroom : Room s) (pid hasAmpersand isStopped : ℤ) :
    ∃ s', storeJobInfo pid 1 hasAmpersand isStopped s = .ok s' ∧ Indexed s' ∧
      IsLeast {id | 1 ≤ id ∧ ¬InUse s id} (s'.Jobs s.numJobs).jobID ∧
      s'.jobIDs (s'.Jobs s.numJobs).jobID = s.numJobs := by
  obtain ⟨-, hleast⟩ := (findSmallest_cases s).resolve_right fun hno => hno.1 hroom.2
  have hid := hleast.1.1
  have hk : 0 ≤ s.numJobs ∧ s.numJobs < 256 := ⟨h.nonneg, hroom.1⟩
  have hnone : s.label s.numJobs = none := by
    cases hl : s.label s.numJobs with
    | none => rfl
    | some id => exact absurd (h.stored _ id hl) (lt_irrefl _)
  have hstore : storeJobInfo pid 1 hasAmpersand isStopped s =
      .ok (s.store ⟨pid, findSmallestAvailableJobID s, 1, 1, hasAmpersand, isStopped⟩) := by
    unfold storeJobInfo
    rw [if_pos rfl, if_pos rfl, setJobID_eq hid, ok_bind]
    show (setJob s.numJobs _ _ >>= _) = _
    rw [setJob_eq hk]
    rfl
  have hjob : ((s.store ⟨pid, findSmallestAvailableJobID s, 1, 1, hasAmpersand, isStopped⟩).Jobs
      s.numJobs).jobID = findSmallestAvailableJobID s := by
    rw [Jobs_store_self]
  refine ⟨_, hstore, ?_, ?_, ?_⟩
  · apply h.link ((index_eq_none hid).mpr hleast.1.2) hnone
    · exact index_store hid hk.1
    · exact label_store hk
    · exact lt_add_one s.numJobs
    · exact (lt_add_one s.numJobs).le
  · rw [hjob]
    refine ⟨⟨hid.1, (h.not_inUse hid).mpr hleast.1.2⟩, ?_⟩
    intro id ⟨hlo, hfree⟩
    rcases lt_or_ge id 256 with hhi | hhi
    · exact hleast.2 ⟨⟨hlo, hhi⟩, (h.not_inUse ⟨hlo, hhi⟩).mp hfree⟩
    · exact (hid.2.trans_le hhi).le
  · rw [hjob]
    exact Function.update_self ..

/-- Without room, one of the two writes is outside of its array. -/
theorem storeJobInfo_full (hroom : ¬Room s) (pid hasAmpersand isStopped : ℤ) :
    storeJobInfo pid 1 hasAmpersand isStopped s = .error .outOfBounds := by
  unfold storeJobInfo
  rw [if_pos rfl, if_pos rfl]
  rcases findSmallest_cases s with ⟨hfree, hleast⟩ | ⟨-, hfind⟩
  · have hfull : ¬(0 ≤ s.numJobs ∧ s.numJobs < 256) := fun hk => hroom ⟨hk.2, hfree⟩
    rw [setJobID_eq hleast.1.1, ok_bind]
    show (setJob s.numJobs _ _ >>= _) = _
    unfold setJob
    rw [if_neg hfull]
    rfl
  · rw [hfind]
    rfl

/-! ### Steps -/

/-- A step that stores a job is `storeJobInfo` for a background job. -/
theorem step_stores {a : Act} (ha : a.stores = true) :
    ∃ pid hasAmpersand isStopped, step s a = storeJobInfo pid 1 hasAmpersand isStopped s := by
  cases a with
  | command pid ampersand wait =>
    cases ampersand with
    | true => exact ⟨pid, 1, 0, rfl⟩
    | false =>
      have hw : wait = .stopped := by simpa [Act.stores] using ha
      rw [hw]
      exact ⟨pid, 0, 1, rfl⟩
  | pipeline pid ampersand waits =>
    cases ampersand with
    | true => exact ⟨-pid, 1, 0, rfl⟩
    | false =>
      have hw : waits.contains .failed = false ∧ waits.contains .stopped = true := by
        simpa [Act.stores] using ha
      refine ⟨-pid, 0, 1, ?_⟩
      show execExternalJob pid false waits s = _
      unfold execExternalJob
      rw [if_neg Bool.false_ne_true, hw.1, hw.2, if_neg Bool.false_ne_true, if_pos rfl]
  | update waitpid => cases ha
  | fg arguments waits => cases ha
  | bg arguments => cases ha
  | jobs waitpid arguments => cases ha

/-- The other steps keep the invariant. -/
theorem keeps_step (h : Indexed s) {a : Act} (ha : a.stores = false) : Keeps (step s a) := by
  cases a with
  | update waitpid => exact keeps_update h waitpid
  | fg arguments waits => exact keeps_fg h arguments waits
  | bg arguments => exact keeps_bg h arguments
  | command pid ampersand wait =>
    cases ampersand with
    | true => cases ha
    | false =>
      cases wait with
      | failed => exact exited_ne
      | stopped => cases ha
      | exited => exact h
      | signalled => exact h
  | pipeline pid ampersand waits =>
    cases ampersand with
    | true => cases ha
    | false =>
      show Keeps (execExternalJob pid false waits s)
      unfold execExternalJob
      rw [if_neg Bool.false_ne_true]
      split
      · exact exited_ne
      · rename_i hfailed
        have hstopped : (!waits.contains .failed && waits.contains .stopped) = false := ha
        rw [Bool.eq_false_iff.mpr hfailed, Bool.not_false, Bool.true_and] at hstopped
        rw [hstopped, if_neg Bool.false_ne_true]
        exact h
  | jobs waitpid arguments =>
    apply (keeps_update h waitpid).bind
    intro t ht
    unfold execJobsCommand
    split
    · exact exited_ne
    · exact ht

/-- **A step keeps the invariant and stays inside the arrays** exactly when it has room for what it
stores. -/
theorem step_indexed (h : Indexed s) (a : Act) :
    (step s a ≠ .error .outOfBounds ↔ HasRoom s a) ∧ (∀ s', step s a = .ok s' → Indexed s') ∧
      (a.stores = true → ∀ s', step s a = .ok s' →
        IsLeast {id | 1 ≤ id ∧ ¬InUse s id} (s'.Jobs s.numJobs).jobID ∧
        s'.jobIDs (s'.Jobs s.numJobs).jobID = s.numJobs) := by
  cases ha : a.stores with
  | false =>
    have hkeeps := keeps_step h ha
    refine ⟨iff_of_true ?_ ?_, ?_, ?_⟩
    · intro hout
      rw [hout] at hkeeps
      exact hkeeps rfl
    · intro hs
      rw [ha] at hs
      cases hs
    · intro s' hs'
      rw [hs'] at hkeeps
      exact hkeeps
    · intro hs
      cases hs
  | true =>
    obtain ⟨pid, hasAmpersand, isStopped, hstep⟩ := step_stores ha
    rw [hstep]
    by_cases hroom : Room s
    · obtain ⟨t, hok, hindexed, hleast, hid⟩ :=
        storeJobInfo_room h hroom pid hasAmpersand isStopped
      rw [hok]
      refine ⟨iff_of_true (fun hout => (nomatch hout)) fun _ => hroom, ?_, ?_⟩
      · intro s' hs'
        rw [← Except.ok.inj hs']
        exact hindexed
      · intro _ s' hs'
        rw [← Except.ok.inj hs']
        exact ⟨hleast, hid⟩
    · rw [storeJobInfo_full hroom]
      refine ⟨iff_of_false (fun hne => hne rfl) fun hr => hroom (hr ha), ?_, ?_⟩
      · intro s' hs'
        cases hs'
      · intro _ s' hs'
        cases hs'

/-! ### Runs -/

/-- The states of the runs from the start of the shell. -/
abbrev ShellReach (guard : Tables → Act → Prop) : Tables → Prop :=
  Reach (· = Tables.initial) (fun s a s' => step s a = .ok s') guard

/-- The two tables as the commands read them. -/
structure Consistent (s : Tables) : Prop where
  forward : ∀ id, 1 ≤ id → id < 256 → s.jobIDs id ≠ -1 →
    (0 ≤ s.jobIDs id ∧ s.jobIDs id < 256) ∧ (s.Jobs (s.jobIDs id)).isValid = 1 ∧
      (s.Jobs (s.jobIDs id)).isBackground = 1 ∧ (s.Jobs (s.jobIDs id)).jobID = id
  backward : ∀ k, 0 ≤ k → k < 256 → (s.Jobs k).isValid = 1 → (s.Jobs k).isBackground = 1 →
    s.jobIDs (s.Jobs k).jobID = k

theorem Indexed.consistent (h : Indexed s) : Consistent s where
  forward := by
    intro id hlo hhi hne
    have hlabel := (h.linked id _).mp (index_eq_some.mpr ⟨⟨hlo, hhi⟩, rfl, hne⟩)
    obtain ⟨hrange, hjob⟩ := label_eq_some.mp hlabel
    exact ⟨hrange, Job.label_eq_some.mp hjob⟩
  backward := by
    intro k hlo hhi hvalid hback
    have hlabel : s.label k = some (s.Jobs k).jobID :=
      label_eq_some.mpr ⟨⟨hlo, hhi⟩, Job.label_eq_some.mpr ⟨hvalid, hback, rfl⟩⟩
    exact (index_eq_some.mp ((h.linked _ k).mpr hlabel)).2.1

theorem ShellReach.indexed (h : ShellReach HasRoom s) : Indexed s := by
  apply h.invariant
  · intro t ht
    rw [ht]
    exact indexed_initial
  · intro t a t' ht _ hstep
    exact (step_indexed ht a).2.1 t' hstep

/-- **The job tables stay consistent** in every run whose steps have room for what they store: the two
tables point at each other, the next step stays inside the arrays exactly when it has room, and a stored job
gets the smallest id not in use. -/
theorem job_tables_consistent (h : ShellReach HasRoom s) :
    Consistent s ∧ ∀ a, (step s a ≠ .error .outOfBounds ↔ HasRoom s a) ∧
      (a.stores = true → ∀ s', step s a = .ok s' →
        IsLeast {id | 1 ≤ id ∧ ¬InUse s id} (s'.Jobs s.numJobs).jobID ∧
        s'.jobIDs (s'.Jobs s.numJobs).jobID = s.numJobs) := by
  refine ⟨h.indexed.consistent, ?_⟩
  intro a
  exact ⟨(step_indexed h.indexed a).1, (step_indexed h.indexed a).2.2⟩

/-! ### Jobs that come and go -/

/-- The jobs that are in `Jobs` and have not been found completed. -/
def Tables.alive (s : Tables) : ℕ :=
  ((Finset.range 256).filter fun k : ℕ => (s.Jobs k).isValid = 1).card

/-- The jobs that a step launches. -/
def Act.launched : Act → ℕ
  | .command _ _ _ => 1
  | .pipeline _ _ _ => 1
  | _ => 0

/-- No job is left, after `n` have been stored. -/
def Tables.idle (n : ℕ) : Tables := { Tables.initial with numJobs := n }

/-- One job runs in the background, the last of `n + 1`. -/
def Tables.busy (n : ℕ) : Tables where
  jobIDs := Function.update Tables.initial.jobIDs 1 n
  Jobs := Function.update Tables.initial.Jobs n ⟨100, 1, 1, 1, 1, 0⟩
  numJobs := n + 1

/-- A command in the background. -/
def launch : Act := .command 100 true .exited

/-- A status update that finds it completed. -/
def notice : Act := .update fun _ _ => .ended

theorem updateJob_skip {waitpid : ℕ → Poll} (h : (s.Jobs k).isValid ≠ 1) :
    updateJob waitpid k s = .ok s := if_neg fun hc => h hc.1

theorem update_skip {waitpid : ℕ → ℕ → Poll} {l : List ℕ} (h : ∀ i ∈ l, (s.Jobs i).isValid ≠ 1) :
    l.foldlM (fun s i => updateJob (waitpid i) i s) s = .ok s := by
  induction l with
  | nil => rfl
  | cons i l ih =>
    rw [List.foldlM_cons, updateJob_skip (h i List.mem_cons_self), ok_bind]
    exact ih fun j hj => h j (List.mem_cons_of_mem _ hj)

theorem isValid_busy {n i : ℕ} (h : i ≠ n) : ((Tables.busy n).Jobs i).isValid ≠ 1 := by
  have hi : ((i : ℤ)) ≠ n := by exact_mod_cast h
  have hjob : (Tables.busy n).Jobs i = initializeJob := Function.update_of_ne hi ..
  rw [hjob]
  decide

theorem step_launch {n : ℕ} (h : n < 256) : step (Tables.idle n) launch = .ok (Tables.busy n) := by
  have hk : 0 ≤ (n : ℤ) ∧ (n : ℤ) < 256 := by omega
  show storeJobInfo 100 1 1 0 (Tables.idle n) = _
  have hfind : findSmallestAvailableJobID (Tables.idle n) = 1 := rfl
  unfold storeJobInfo
  rw [if_pos rfl, if_pos rfl, hfind, setJobID_eq (by decide), ok_bind]
  show (setJob (n : ℤ) _ _ >>= _) = _
  rw [setJob_eq hk]
  rfl

theorem step_notice {n : ℕ} (h : n < 256) : step (Tables.busy n) notice = .ok (Tables.idle (n + 1)) := by
  have hk : 0 ≤ (n : ℤ) ∧ (n : ℤ) < 256 := by omega
  have hself : (Tables.busy n).Jobs n = ⟨100, 1, 1, 1, 1, 0⟩ := Function.update_self ..
  have hdone : updateJob (fun _ => .ended) n (Tables.busy n) = .ok (Tables.idle (n + 1)) := by
    unfold updateJob completeJob
    rw [hself, if_pos ⟨rfl, rfl⟩, if_neg (by decide)]
    dsimp only
    rw [setJobID_eq (by decide), ok_bind, setJob_eq hk]
    unfold Tables.putJob Tables.putID Tables.busy Tables.idle
    dsimp only
    rw [Function.update_idem, Function.update_idem]
    congr 2
    · exact Function.update_eq_self 1 Tables.initial.jobIDs
    · exact Function.update_eq_self (n : ℤ) Tables.initial.Jobs
  obtain ⟨xs, ys, hrange⟩ := List.append_of_mem (List.mem_range.mpr h)
  have hnodup := List.nodup_range (n := 256)
  show updateBackgroundJobStatus (fun _ _ => .ended) (Tables.busy n) = _
  unfold updateBackgroundJobStatus
  rw [hrange] at hnodup ⊢
  have hxs : ∀ i ∈ xs, i ≠ n := by
    intro i hi hin
    exact (List.nodup_append.mp hnodup).2.2 i hi n List.mem_cons_self hin
  rw [List.foldlM_append, update_skip fun i hi => isValid_busy (hxs i hi), ok_bind, List.foldlM_cons,
    hdone, ok_bind]
  exact update_skip fun i _ => (by decide : initializeJob.isValid ≠ 1)

theorem alive_idle (n : ℕ) : (Tables.idle n).alive = 0 := by
  unfold Tables.alive
  rw [Finset.card_eq_zero, Finset.filter_eq_empty_iff]
  intro k _
  exact (by decide : initializeJob.isValid ≠ 1)

theorem alive_busy (n : ℕ) : (Tables.busy n).alive ≤ 1 := by
  unfold Tables.alive
  rw [← Finset.card_singleton n]
  apply Finset.card_le_card
  intro k hk
  rw [Finset.mem_singleton]
  by_contra hne
  exact isValid_busy hne (Finset.mem_filter.mp hk).2

/-- **A job that has come and gone has used up a place in `Jobs`**: with one job at a time, every count of
stored jobs up to the size of the array is reached with no job left. -/
theorem round_idle {guard : Tables → Act → Prop}
    (hguard : ∀ s a, s.alive + a.launched ≤ 1 → guard s a) {n : ℕ} (hn : n ≤ 256) :
    ShellReach guard (Tables.idle n) := by
  induction n with
  | zero => exact .start rfl
  | succ n ih =>
    apply Reach.next (a := notice) _ _ (step_notice (by omega))
    · apply Reach.next (a := launch) (ih (by omega)) _ (step_launch (by omega))
      apply hguard
      rw [alive_idle]
      rfl
    · apply hguard
      exact alive_busy n

/-- The launch after 256 jobs that have come and gone writes `Jobs[256]`, with one job alive at a time. -/
theorem places_run_out : ¬∀ s, ShellReach (fun s a => s.alive + a.launched ≤ 255) s →
    ∀ a, s.alive + a.launched ≤ 255 → step s a ≠ .error .outOfBounds := by
  intro hclaim
  have hreach : ShellReach (fun s a => s.alive + a.launched ≤ 255) (Tables.idle 256) :=
    round_idle (fun s a h => h.trans (by decide)) (le_refl _)
  apply hclaim (Tables.idle 256) hreach launch
  · rw [alive_idle]
    decide
  · rfl

/-- A job runs in the background, and one that was started in the foreground is stopped. -/
def Tables.two : Tables :=
  (Tables.initial.store ⟨100, 1, 1, 1, 1, 0⟩).store ⟨200, 2, 1, 1, 0, 1⟩

/-- The stopped job comes to the foreground and is stopped again, and then a job is launched. -/
theorem step_fg_two : ∃ s s', step Tables.two (.fg [2] [.stopped]) = .ok s ∧ step s launch = .ok s' ∧
    s.numJobs = 2 ∧ s.jobIDs 1 = 0 ∧ s.jobIDs 2 = 1 ∧ (s.Jobs 1).isStopped = 1 ∧
    (s'.Jobs 2).jobID = 3 :=
  ⟨_, _, rfl, rfl, rfl, rfl, rfl, rfl, rfl⟩

/-- Two jobs are alive after a launch, a stop and an `fg`, and the next job gets the id `3`. -/
theorem job_tables_consistent_two : ∃ s, ShellReach HasRoom s ∧ Consistent s ∧ s.jobIDs 1 = 0 ∧
    s.jobIDs 2 = 1 ∧ (s.Jobs 1).isStopped = 1 ∧ IsLeast {id | 1 ≤ id ∧ ¬InUse s id} 3 := by
  obtain ⟨s, s', hfg, hok, hnum, hfirst, hsecond, hstopped, hid⟩ := step_fg_two
  have hlaunch : ShellReach HasRoom (Tables.initial.store ⟨100, 1, 1, 1, 1, 0⟩) :=
    .next (a := launch) (.start rfl) (fun _ => ⟨by decide, 1, by decide, by decide, rfl⟩) rfl
  have hstop : ShellReach HasRoom Tables.two :=
    .next (a := .command 200 false .stopped) hlaunch
      (fun _ => ⟨by decide, 2, by decide, by decide, rfl⟩) rfl
  have hreach : ShellReach HasRoom s := .next hstop (fun hs => Bool.noConfusion hs) hfg
  obtain ⟨hconsistent, hnext⟩ := job_tables_consistent hreach
  have hleast := ((hnext launch).2 rfl s' hok).1
  rw [hnum, hid] at hleast
  exact ⟨s, hreach, hconsistent, hfirst, hsecond, hstopped, hleast⟩

end OperatingSystems.Shell
