import Mathlib
import OperatingSystems.Log.Transactions

/-!
# Crashes and recovery

Whatever the calls and the commits have come to when the machine stops: the log can be done again, and then
the file system contains what it contained at the last commit.

* **`Redo`** — the log on the disk holds what the blocks of a list are to contain.
* **`Inv`** — what holds in every phase; each step keeps it, and so does a crash.
* **`Inv.recovered`** — recovery comes to its end, with what was committed last.
* **`Inv.changes`** — what the steps change for a reader, and what they commit.
-/

namespace OperatingSystems.Log

variable {ι : Type} {cfg : Config} {disk durable : ℕ → Block} {lh : List ℕ} {tail b : ℕ}
  {s s' : State ι} {p : ι} {e : Event ι}

/-! ### The log on the disk -/

/-- The list of a transaction: blocks outside of the log, and the log has room for them. -/
structure Fits (cfg : Config) (lh : List ℕ) : Prop where
  nodup : lh.Nodup
  home : ∀ b ∈ lh, cfg.Home b
  room : lh.length < cfg.size

theorem Config.Home.ne_start (h : cfg.Home b) (hsize : 0 < cfg.size) : b ≠ cfg.start := by
  rcases h with h | h <;> omega

theorem Config.Home.ne_copy {i : ℕ} (h : cfg.Home b) (hi : i + 1 < cfg.size) : b ≠ cfg.start + i + 1 := by
  rcases h with h | h <;> omega

theorem lt_of_getElem? {i : ℕ} (h : lh[i]? = some b) : i < lh.length :=
  (List.getElem?_eq_some_iff.mp h).1

/-- The log is empty. -/
structure Clean (cfg : Config) (disk durable : ℕ → Block) : Prop where
  header : read_head (disk cfg.start) = []
  homes : ∀ b, cfg.Home b → disk b = durable b

/-- **The log can be done again**: it has the list and what the blocks are to contain.  The blocks outside
of the list, and the first `tail` of the list, contain it already. -/
structure Redo (cfg : Config) (disk durable : ℕ → Block) (lh : List ℕ) (tail : ℕ) : Prop where
  header : read_head (disk cfg.start) = lh
  copies : ∀ i b, lh[i]? = some b → disk (cfg.start + i + 1) = durable b
  homes : ∀ b, cfg.Home b → b ∉ lh.drop tail → disk b = durable b

theorem Clean.redo (h : Clean cfg disk durable) : Redo cfg disk durable [] 0 where
  header := h.header
  copies i b hb := by cases hb
  homes b hb _ := h.homes b hb

/-- A block is copied into the log. -/
theorem Clean.copy (h : Clean cfg disk durable) (hroom : tail + 1 < cfg.size) (c : Block) :
    Clean cfg (Function.update disk (cfg.start + tail + 1) c) durable := by
  refine ⟨?_, fun x hx => ?_⟩
  · rw [Function.update_of_ne (by omega)]
    exact h.header
  · rw [Function.update_of_ne (hx.ne_copy hroom)]
    exact h.homes x hx

theorem Redo.start_over (h : Redo cfg disk durable lh tail) : Redo cfg disk durable lh 0 where
  header := h.header
  copies := h.copies
  homes b hb hnot := h.homes b hb fun hmem => hnot (List.mem_of_mem_drop hmem)

theorem Redo.all_done (h : Redo cfg disk durable lh tail) (hlen : lh.length ≤ tail) :
    Redo cfg disk durable lh lh.length where
  header := h.header
  copies := h.copies
  homes b hb _ := h.homes b hb (by rw [List.drop_eq_nil_of_le hlen]; exact List.not_mem_nil)

/-- One block is installed. -/
theorem Redo.install (h : Redo cfg disk durable lh tail) (hfits : Fits cfg lh) (hb : lh[tail]? = some b) :
    Redo cfg (Function.update disk b (disk (cfg.start + tail + 1))) durable lh (tail + 1) := by
  have hhome := hfits.home b (List.mem_of_getElem? hb)
  have hroom := hfits.room
  refine ⟨?_, fun i x hx => ?_, fun x hx hnot => ?_⟩
  · rw [Function.update_of_ne (hhome.ne_start (by omega)).symm]
    exact h.header
  · have hi := lt_of_getElem? hx
    rw [Function.update_of_ne (hhome.ne_copy (by omega)).symm]
    exact h.copies i x hx
  · by_cases hxb : x = b
    · rw [hxb, Function.update_self]
      exact h.copies tail b hb
    · rw [Function.update_of_ne hxb]
      refine h.homes x hx fun hmem => ?_
      rw [List.drop_eq_getElem?_toList_append, hb] at hmem
      rcases List.mem_append.mp hmem with hhead | hrest
      · exact hxb (List.mem_singleton.mp hhead)
      · exact hnot hrest

/-- Everything is installed, and the header is written. -/
theorem Redo.erase (h : Redo cfg disk durable lh lh.length) (hsize : 0 < cfg.size) (hb : Block) :
    Clean cfg (Function.update disk cfg.start (write_head [] hb)) durable := by
  refine ⟨?_, fun x hx => ?_⟩
  · rw [Function.update_self, read_head_write_head]
  · rw [Function.update_of_ne (hx.ne_start hsize)]
    refine h.homes x hx ?_
    rw [List.drop_length]
    exact List.not_mem_nil

/-- Everything is in the log, and the header is written. -/
theorem redo_of_copies {content : ℕ → Block} (hsize : 0 < cfg.size)
    (hcopies : ∀ i b, lh[i]? = some b → disk (cfg.start + i + 1) = content b)
    (hrest : ∀ b, b ∉ lh → content b = disk b) (hb : Block) :
    Redo cfg (Function.update disk cfg.start (write_head lh hb)) content lh 0 := by
  refine ⟨?_, fun i x hx => ?_, fun x hx hnot => ?_⟩
  · rw [Function.update_self, read_head_write_head]
  · rw [Function.update_of_ne (by omega)]
    exact hcopies i x hx
  · rw [Function.update_of_ne (hx.ne_start hsize), hrest x hnot]

/-! ### What holds in each phase -/

/-- What holds of the disk, the buffers and the list in the phase. -/
def PhaseOk (cfg : Config) (s : State ι) : Prop :=
  match s.phase with
  | .running => Clean cfg s.disk s.durable ∧ s.committing = false
  | .write_log tail => Clean cfg s.disk s.durable ∧ s.committing = true ∧
      ∀ i b, i < tail → s.lh[i]? = some b → s.disk (cfg.start + i + 1) = s.bread b
  | .write_head => Clean cfg s.disk s.durable ∧ s.committing = true ∧
      ∀ i b, s.lh[i]? = some b → s.disk (cfg.start + i + 1) = s.bread b
  | .install_trans tail => Redo cfg s.disk s.durable s.lh tail ∧ s.committing = true ∧
      (∀ b c, s.buf b = some c → b ∈ s.lh.drop tail) ∧ ∀ b, cfg.Home b → s.bread b = s.durable b
  | .erase => s.lh = [] ∧ s.committing = true ∧ ∃ lh, Fits cfg lh ∧ Redo cfg s.disk s.durable lh lh.length
  | .committed => s.lh = [] ∧ s.committing = true ∧ Clean cfg s.disk s.durable
  | .read_head => s.lh = [] ∧ s.committing = false ∧ ∃ lh, Fits cfg lh ∧ Redo cfg s.disk s.durable lh 0
  | .recover tail => s.buf = (fun _ => none) ∧ s.committing = false ∧ Redo cfg s.disk s.durable s.lh tail
  | .clear => s.lh = [] ∧ s.committing = false ∧ ∃ lh, Fits cfg lh ∧ Redo cfg s.disk s.durable lh lh.length

/-- The calls that have begun and not ended. -/
def State.active [Fintype ι] (s : State ι) : Finset ι :=
  Finset.univ.filter fun p => s.call p ≠ .outside

/-- **The invariant of the log.** -/
structure Inv [Fintype ι] (cfg : Config) (s : State ι) : Prop where
  fits : Fits cfg s.lh
  dirty : ∀ b c, s.buf b = some c → b ∈ s.lh
  quiet : s.phase ≠ .running → ∀ p, s.call p = .outside
  count : s.outstanding = s.active.card
  empty : s.phase = .running → s.outstanding = 0 → s.lh = []
  phase : PhaseOk cfg s

theorem Fits.nil (hsize : 0 < cfg.size) : Fits cfg [] :=
  ⟨List.nodup_nil, fun _ hb => absurd hb List.not_mem_nil, hsize⟩

theorem Fits.pos (h : Fits cfg lh) : 0 < cfg.size :=
  Nat.zero_lt_of_lt h.room

/-- **In every phase the log on the disk can be done again.** -/
theorem PhaseOk.redo (h : PhaseOk cfg s) (hfits : Fits cfg s.lh) :
    ∃ lh, Fits cfg lh ∧ Redo cfg s.disk s.durable lh 0 := by
  unfold PhaseOk at h
  split at h
  · exact ⟨[], .nil hfits.pos, h.1.redo⟩
  · exact ⟨[], .nil hfits.pos, h.1.redo⟩
  · exact ⟨[], .nil hfits.pos, h.1.redo⟩
  · exact ⟨s.lh, hfits, h.1.start_over⟩
  · obtain ⟨-, -, lh, hlh, hredo⟩ := h
    exact ⟨lh, hlh, hredo.start_over⟩
  · exact ⟨[], .nil hfits.pos, h.2.2.redo⟩
  · exact h.2.2
  · exact ⟨s.lh, hfits, h.2.2.start_over⟩
  · obtain ⟨-, -, lh, hlh, hredo⟩ := h
    exact ⟨lh, hlh, hredo.start_over⟩

section Steps

variable [Fintype ι]

theorem Inv.buf_nil (h : Inv cfg s) (hlh : s.lh = []) : s.buf = fun _ => none := by
  funext b
  cases hb : s.buf b with
  | none => rfl
  | some c =>
    have hmem := h.dirty b c hb
    rw [hlh] at hmem
    exact absurd hmem List.not_mem_nil

/-- The blocks of the log itself are not dirty. -/
theorem Inv.bread_log (h : Inv cfg s) (hb : ¬cfg.Home b) : s.bread b = s.disk b := by
  unfold State.bread
  cases hbuf : s.buf b with
  | none => rfl
  | some c => exact absurd (h.fits.home b (h.dirty b c hbuf)) hb

theorem not_home_start (hsize : 0 < cfg.size) : ¬cfg.Home cfg.start := by
  rintro (h | h) <;> omega

theorem not_home_copy {i : ℕ} (hi : i + 1 < cfg.size) : ¬cfg.Home (cfg.start + i + 1) := by
  rintro (h | h) <;> omega

/-- The header block is written: what the other blocks contain is the same. -/
theorem Inv.bread_header (h : Inv cfg s) (hb : cfg.Home b) (c : Block) :
    (s.buf b).getD (Function.update s.disk cfg.start c b) = s.bread b := by
  rw [Function.update_of_ne (hb.ne_start h.fits.pos)]
  rfl

theorem Inv.running (h : Inv cfg s) (hcall : s.call p ≠ .outside) : s.phase = .running := by
  by_contra hne
  exact hcall (h.quiet hne p)

theorem Inv.clean (h : Inv cfg s) (hrun : s.phase = .running) :
    Clean cfg s.disk s.durable ∧ s.committing = false := by
  have hphase := h.phase
  unfold PhaseOk at hphase
  rwa [hrun] at hphase

theorem active_congr (hcall : s'.call = s.call) : s'.active = s.active := by
  unfold State.active
  rw [hcall]

theorem mem_active : p ∈ s.active ↔ s.call p ≠ .outside := by
  simp [State.active]

/-- A call can only begin while the log is open. -/
theorem Inv.open (h : Inv cfg s) (hnot : s.committing = false) (hread : s.phase ≠ .read_head)
    (hrecover : ∀ tail, s.phase ≠ .recover tail) (hclear : s.phase ≠ .clear) : s.phase = .running := by
  have hphase := h.phase
  unfold PhaseOk at hphase
  cases hp : s.phase with
  | running => rfl
  | write_log tail =>
    rw [hp, hnot] at hphase
    exact absurd hphase.2.1 (by decide)
  | write_head =>
    rw [hp, hnot] at hphase
    exact absurd hphase.2.1 (by decide)
  | install_trans tail =>
    rw [hp, hnot] at hphase
    exact absurd hphase.2.1 (by decide)
  | erase =>
    rw [hp, hnot] at hphase
    exact absurd hphase.2.1 (by decide)
  | committed =>
    rw [hp, hnot] at hphase
    exact absurd hphase.2.1 (by decide)
  | read_head => exact absurd hp hread
  | recover tail => exact absurd hp (hrecover tail)
  | clear => exact absurd hp hclear

/-- Nothing but the processes and the count of the calls has changed, while the log is open. -/
theorem Inv.calls (h : Inv cfg s) (hrun : s.phase = .running) {call : ι → Call} {n : ℕ}
    (hcount : n = ({ s with call := call, outstanding := n } : State ι).active.card)
    (hempty : n = 0 → s.lh = []) : Inv cfg { s with call := call, outstanding := n } where
  fits := h.fits
  dirty := h.dirty
  quiet hne := absurd hrun hne
  count := hcount
  empty _ := hempty
  phase := h.phase

/-- A step of the commit or of recovery changes no call. -/
theorem Inv.quiet_step (h : Inv cfg s) (hne : s.phase ≠ .running) (hcall : s'.call = s.call)
    (hout : s'.outstanding = s.outstanding) (hfits : Fits cfg s'.lh)
    (hdirty : ∀ b c, s'.buf b = some c → b ∈ s'.lh)
    (hempty : s'.phase = .running → s'.lh = []) (hphase : PhaseOk cfg s') : Inv cfg s' where
  fits := hfits
  dirty := hdirty
  quiet _ q := by rw [hcall]; exact h.quiet hne q
  count := by rw [hout, active_congr hcall]; exact h.count
  empty hrun _ := hempty hrun
  phase := hphase

variable [DecidableEq ι]

/-- The set of calls changes by one process at most. -/
theorem active_update (q : ι) (c : Call) (hcall : s'.call = Function.update s.call q c) :
    s'.active = if c = .outside then s.active.erase q else insert q s.active := by
  ext r
  rw [mem_active, hcall]
  by_cases hrq : r = q
  · rw [hrq, Function.update_self]
    by_cases hc : c = .outside
    · simp [hc]
    · simp [hc]
  · rw [Function.update_of_ne hrq, ← mem_active]
    split
    · rw [Finset.mem_erase]
      exact ⟨fun hr => ⟨hrq, hr⟩, fun hr => hr.2⟩
    · rw [Finset.mem_insert]
      exact ⟨.inr, fun hr => hr.resolve_left hrq⟩

theorem active_same (hmem : p ∈ s.active) {c : Call} (hc : c ≠ .outside)
    (hcall : s'.call = Function.update s.call p c) : s'.active = s.active := by
  rw [active_update p c hcall, if_neg hc, Finset.insert_eq_of_mem hmem]

/-! ### The calls -/

theorem Inv.begin_op (h : Inv cfg s) (hstep : begin_op p s = .ok s') : Inv cfg s' := by
  obtain ⟨hcall, ⟨hread, hrecover, hclear⟩, hfree, -, rfl⟩ := begin_op_ok hstep
  have hrun := h.open hfree hread hrecover hclear
  refine h.calls hrun ?_ fun hzero => absurd hzero (Nat.succ_ne_zero _)
  rw [active_update p (.inside ∅) rfl, if_neg (by decide), Finset.card_insert_of_notMem, h.count]
  rw [mem_active, hcall]
  exact fun hne => hne rfl

theorem Inv.test (h : Inv cfg s) (hstep : test cfg p s = .ok s') : Inv cfg s' := by
  obtain ⟨logged, hcall, rfl⟩ := test_ok hstep
  have hne : s.call p ≠ .outside := by
    rw [hcall]
    exact fun hc => by cases hc
  refine h.calls (h.running hne) ?_ (h.empty (h.running hne))
  rw [active_same (mem_active.mpr hne) (fun hc => by cases hc) rfl, h.count]

/-- What `log_write` has tested still holds, and the block does not belong to the log. -/
def Room (cfg : Config) (s : State ι) (b : ℕ) : Prop :=
  cfg.Home b ∧ (b ∈ s.lh ∨ s.lh.length + 1 < cfg.size)

theorem Fits.append (h : Fits cfg lh) (hhome : cfg.Home b) (hnot : b ∉ lh) (hroom : lh.length + 1 < cfg.size) :
    Fits cfg (lh ++ [b]) where
  nodup := by
    rw [List.nodup_append]
    refine ⟨h.nodup, List.nodup_singleton b, fun x hx y hy => ?_⟩
    rw [List.mem_singleton.mp hy]
    rintro rfl
    exact hnot hx
  home x hx := by
    rcases List.mem_append.mp hx with hx | hx
    · exact h.home x hx
    · rw [List.mem_singleton.mp hx]
      exact hhome
  room := by
    rw [List.length_append, List.length_singleton]
    exact hroom

theorem Inv.log_write {data : Block} (h : Inv cfg s) (hroom : Room cfg s b)
    (hstep : log_write p b data s = .ok s') : Inv cfg s' := by
  obtain ⟨logged, hcall, rfl⟩ := log_write_ok hstep
  have hne : s.call p ≠ .outside := by
    rw [hcall]
    exact fun hc => by cases hc
  have hrun := h.running hne
  have hmem : b ∈ (if b ∈ s.lh then s.lh else s.lh ++ [b]) := by
    split
    · assumption
    · exact List.mem_append.mpr (.inr (List.mem_singleton_self b))
  have hcount : s.outstanding ≠ 0 := by
    rw [h.count]
    exact Finset.card_ne_zero_of_mem (mem_active.mpr hne)
  refine ⟨?_, ?_, fun hp => absurd hrun hp, ?_, fun _ hzero => absurd hzero hcount, ?_⟩
  · dsimp only
    split
    · exact h.fits
    · rename_i hnot
      exact h.fits.append hroom.1 hnot (hroom.2.resolve_left hnot)
  · intro x c hx
    dsimp only at hx
    by_cases hxb : x = b
    · rw [hxb]
      exact hmem
    · rw [Function.update_of_ne hxb] at hx
      have hold := h.dirty x c hx
      dsimp only
      split
      · exact hold
      · exact List.mem_append.mpr (.inl hold)
  · rw [active_same (mem_active.mpr hne) (fun hc => by cases hc) rfl]
    exact h.count
  · have hclean := h.clean hrun
    unfold PhaseOk
    rw [hrun]
    exact hclean

theorem Inv.end_op (h : Inv cfg s) (hstep : end_op p s = .ok s') : Inv cfg s' := by
  obtain ⟨⟨logged, hcall⟩, -, hcases⟩ := end_op_ok hstep
  have hmem : p ∈ s.active := by
    rw [mem_active, hcall]
    exact fun hc => by cases hc
  have hrun := h.running (mem_active.mp hmem)
  have hcount : ∀ s' : State ι, s'.call = Function.update s.call p .outside →
      s.outstanding - 1 = s'.active.card := by
    intro s' hs'
    rw [active_update p .outside hs', if_pos rfl, Finset.card_erase_of_mem hmem, h.count]
  have hclean := h.clean hrun
  obtain ⟨hzero, rfl⟩ | ⟨hpos, rfl⟩ := hcases
  · have hnone : ∀ q, Function.update s.call p .outside q = .outside := by
      intro q
      by_contra hne
      have hin : q ∈ ({ s with call := Function.update s.call p .outside } : State ι).active :=
        mem_active.mpr hne
      have hcard := hcount { s with call := Function.update s.call p .outside } rfl
      rw [hzero] at hcard
      exact Finset.card_ne_zero_of_mem hin hcard.symm
    refine ⟨h.fits, h.dirty, fun _ => hnone, hcount _ rfl, ?_, ?_⟩
    · intro hp
      dsimp only at hp
      split at hp <;> cases hp
    · unfold PhaseOk
      dsimp only
      by_cases hlen : 0 < s.lh.length
      · rw [if_pos hlen]
        exact ⟨hclean.1, rfl, fun i _ hi => absurd hi (Nat.not_lt_zero i)⟩
      · rw [if_neg hlen]
        exact ⟨List.eq_nil_of_length_eq_zero (by omega), rfl, hclean.1⟩
  · refine ⟨h.fits, h.dirty, fun hp => absurd hrun hp, hcount _ rfl, fun _ hzero => absurd hzero hpos, ?_⟩
    unfold PhaseOk
    rw [hrun]
    exact hclean

/-! ### The commit -/

omit [DecidableEq ι] in
theorem Inv.commit (h : Inv cfg s) (hstep : commit cfg s = .ok s') : Inv cfg s' := by
  have hphase := h.phase
  have hsize := h.fits.pos
  unfold PhaseOk at hphase
  cases commit_cases hstep with
  | @copy tail b hp hb =>
    rw [hp] at hphase
    obtain ⟨hclean, hcommitting, hcopies⟩ := hphase
    have hroom : tail + 1 < cfg.size := by
      have hlt := lt_of_getElem? hb
      have hlen := h.fits.room
      omega
    have hbread : ∀ y ∈ s.lh, (s.buf y).getD (Function.update s.disk (cfg.start + tail + 1) (s.bread b) y) =
        s.bread y := by
      intro y hy
      rw [Function.update_of_ne ((h.fits.home y hy).ne_copy hroom)]
      rfl
    refine h.quiet_step (by rw [hp]; exact fun hc => by cases hc) rfl rfl h.fits h.dirty
      (fun hc => by cases hc) ⟨hclean.copy hroom _, hcommitting, fun i x hi hx => ?_⟩
    refine Eq.trans ?_ (hbread x (List.mem_of_getElem? hx)).symm
    dsimp only at hx ⊢
    by_cases hit : i = tail
    · rw [hit, hb] at hx
      cases hx
      rw [hit, Function.update_self]
    · rw [Function.update_of_ne (by omega)]
      exact hcopies i x (by omega) hx
  | @copied tail hp hnone =>
    rw [hp] at hphase
    obtain ⟨hclean, hcommitting, hcopies⟩ := hphase
    refine h.quiet_step (by rw [hp]; exact fun hc => by cases hc) rfl rfl h.fits h.dirty
      (fun hc => by cases hc) ⟨hclean, hcommitting, fun i x hx => hcopies i x ?_ hx⟩
    have hlt : i < s.lh.length := lt_of_getElem? hx
    have hle := List.getElem?_eq_none_iff.mp hnone
    omega
  | header hp =>
    rw [hp] at hphase
    obtain ⟨hclean, hcommitting, hcopies⟩ := hphase
    refine h.quiet_step (by rw [hp]; exact fun hc => by cases hc) rfl rfl h.fits h.dirty
      (fun hc => by cases hc) ⟨redo_of_copies hsize hcopies (fun x hnot => ?_) _, hcommitting, h.dirty, fun x hx => ?_⟩
    · unfold State.bread
      cases hbuf : s.buf x with
      | none => rfl
      | some c => exact absurd (h.dirty x c hbuf) hnot
    · exact h.bread_header hx _
  | @install tail b hp hb =>
    rw [hp] at hphase
    obtain ⟨hredo, hcommitting, hdirty, hcontent⟩ := hphase
    have hroom : tail + 1 < cfg.size := by
      have hlt := lt_of_getElem? hb
      have hlen := h.fits.room
      omega
    have hread := h.bread_log (not_home_copy hroom)
    have hbuf : ∀ x c, Function.update s.buf b none x = some c → x ≠ b ∧ s.buf x = some c := by
      intro x c hx
      by_cases hxb : x = b
      · rw [hxb, Function.update_self] at hx
        cases hx
      · rw [Function.update_of_ne hxb] at hx
        exact ⟨hxb, hx⟩
    refine h.quiet_step (by rw [hp]; exact fun hc => by cases hc) rfl rfl h.fits
      (fun x c hx => h.dirty x c (hbuf x c hx).2) (fun hc => by cases hc) ⟨?_, hcommitting, ?_, ?_⟩
    · dsimp only
      rw [hread]
      exact hredo.install h.fits hb
    · intro x c hx
      obtain ⟨hxb, hx⟩ := hbuf x c hx
      have hmem := hdirty x c hx
      rw [List.drop_eq_getElem?_toList_append, hb] at hmem
      refine (List.mem_append.mp hmem).resolve_left fun hhead => ?_
      exact hxb (List.mem_singleton.mp hhead)
    · intro x hx
      show (Function.update s.buf b none x).getD
        (Function.update s.disk b (s.bread (cfg.start + tail + 1)) x) = s.durable x
      by_cases hxb : x = b
      · rw [hxb, Function.update_self, Function.update_self, hread]
        exact hredo.copies tail b hb
      · rw [Function.update_of_ne hxb, Function.update_of_ne hxb]
        exact hcontent x hx
  | @installed tail hp hnone =>
    rw [hp] at hphase
    obtain ⟨hredo, hcommitting, hdirty, hcontent⟩ := hphase
    have hlen := List.getElem?_eq_none_iff.mp hnone
    have hnobuf : ∀ x c, s.buf x ≠ some c := by
      intro x c hx
      have hmem := hdirty x c hx
      rw [List.drop_eq_nil_of_le hlen] at hmem
      exact List.not_mem_nil hmem
    exact h.quiet_step (by rw [hp]; exact fun hc => by cases hc) rfl rfl (.nil hsize)
      (fun x c hx => absurd hx (hnobuf x c)) (fun hc => by cases hc)
      ⟨rfl, hcommitting, s.lh, h.fits, hredo.all_done hlen⟩
  | erase hp =>
    rw [hp] at hphase
    obtain ⟨hnil, hcommitting, lh, hfits, hredo⟩ := hphase
    refine h.quiet_step (by rw [hp]; exact fun hc => by cases hc) rfl rfl h.fits h.dirty
      (fun hc => by cases hc) ⟨hnil, hcommitting, ?_⟩
    dsimp only
    rw [hnil]
    exact hredo.erase hsize _
  | done hp =>
    rw [hp] at hphase
    obtain ⟨hnil, hcommitting, hclean⟩ := hphase
    exact h.quiet_step (by rw [hp]; exact fun hc => by cases hc) rfl rfl h.fits h.dirty (fun _ => hnil)
      ⟨hclean, rfl⟩

omit [DecidableEq ι] in
theorem Inv.recover (h : Inv cfg s) (hstep : recover cfg s = .ok s') : Inv cfg s' := by
  have hphase := h.phase
  have hsize := h.fits.pos
  unfold PhaseOk at hphase
  cases recover_cases hstep with
  | read hp =>
    rw [hp] at hphase
    obtain ⟨hnil, hcommitting, lh, hfits, hredo⟩ := hphase
    have hlh : read_head (s.bread cfg.start) = lh := by
      rw [h.bread_log (not_home_start hsize), hredo.header]
    have hbuf := h.buf_nil hnil
    rw [hlh]
    refine h.quiet_step (by rw [hp]; exact fun hc => by cases hc) rfl rfl hfits (fun x c hx => ?_)
      (fun hc => by cases hc) ⟨hbuf, hcommitting, hredo⟩
    rw [show s.buf x = none from congrFun hbuf x] at hx
    cases hx
  | @install tail b hp hb =>
    rw [hp] at hphase
    obtain ⟨hbuf, hcommitting, hredo⟩ := hphase
    have hroom : tail + 1 < cfg.size := by
      have hlt := lt_of_getElem? hb
      have hlen := h.fits.room
      omega
    refine h.quiet_step (by rw [hp]; exact fun hc => by cases hc) rfl rfl h.fits h.dirty
      (fun hc => by cases hc) ⟨hbuf, hcommitting, ?_⟩
    dsimp only
    rw [h.bread_log (not_home_copy hroom)]
    exact hredo.install h.fits hb
  | @installed tail hp hnone =>
    rw [hp] at hphase
    obtain ⟨hbuf, hcommitting, hredo⟩ := hphase
    have hlen := List.getElem?_eq_none_iff.mp hnone
    refine h.quiet_step (by rw [hp]; exact fun hc => by cases hc) rfl rfl (.nil hsize) (fun x c hx => ?_)
      (fun hc => by cases hc) ⟨rfl, hcommitting, s.lh, h.fits, hredo.all_done hlen⟩
    rw [show s.buf x = none from congrFun hbuf x] at hx
    cases hx
  | clear hp =>
    rw [hp] at hphase
    obtain ⟨hnil, hcommitting, lh, hfits, hredo⟩ := hphase
    refine h.quiet_step (by rw [hp]; exact fun hc => by cases hc) rfl rfl h.fits h.dirty (fun _ => hnil)
      ⟨?_, hcommitting⟩
    dsimp only
    rw [hnil]
    exact hredo.erase hsize _

omit [DecidableEq ι] in
/-- In the state after a start there is no call. -/
theorem active_crash (s : State ι) : (crash s).active.card = 0 :=
  Finset.card_eq_zero.mpr (Finset.eq_empty_of_forall_notMem fun _ hp => mem_active.mp hp rfl)

omit [DecidableEq ι] in
theorem inv_crash {lh : List ℕ} (hfits : Fits cfg lh) (hredo : Redo cfg s.disk s.durable lh 0) :
    Inv cfg (crash s) where
  fits := .nil hfits.pos
  dirty b c hb := by cases hb
  quiet _ _ := rfl
  count := (active_crash s).symm
  empty _ _ := rfl
  phase := ⟨rfl, rfl, lh, hfits, hredo⟩

omit [DecidableEq ι] in
/-- **Whenever the machine stops**, the log can be done again. -/
theorem Inv.crash (h : Inv cfg s) : Inv cfg (Log.crash s) := by
  obtain ⟨lh, hlh, hredo⟩ := h.phase.redo h.fits
  exact inv_crash hlh hredo

omit [DecidableEq ι] in
theorem inv_of_init (hsize : 0 < cfg.size) (h : init cfg s) : Inv cfg s := by
  obtain ⟨hcrash, hheader, hdurable⟩ := h
  have hclean : Clean cfg s.disk s.durable := ⟨hheader, fun b _ => by rw [hdurable]⟩
  rw [hcrash]
  exact inv_crash (.nil hsize) hclean.redo

end Steps

/-! ### Recovery -/

/-- The steps of recovery. -/
def Recovers (cfg : Config) (s s' : State ι) : Prop :=
  recover cfg s = .ok s'

/-- The loop of `install_trans` in recovery comes to its end. -/
theorem recovers_install (cfg : Config) (hp : s.phase = .recover tail) (htail : tail ≤ s.lh.length) :
    ∃ s', Relation.ReflTransGen (Recovers cfg) s s' ∧ s'.phase = .clear := by
  induction hn : s.lh.length - tail generalizing s tail with
  | zero =>
    have hnone : s.lh[tail]? = none := List.getElem?_eq_none_iff.mpr (by omega)
    refine ⟨{ s with lh := [], phase := .clear }, .single ?_, rfl⟩
    unfold Recovers Log.recover
    rw [hp]
    dsimp only
    rw [hnone]
  | succ n ih =>
    have hlt : tail < s.lh.length := by omega
    have hstep : Recovers cfg s { s with
        disk := Function.update s.disk s.lh[tail] (s.bread (cfg.start + tail + 1))
        phase := .recover (tail + 1) } := by
      unfold Recovers Log.recover
      rw [hp]
      dsimp only
      rw [List.getElem?_eq_getElem hlt]
    obtain ⟨s', hrest, hs'⟩ := ih (s := { s with
        disk := Function.update s.disk s.lh[tail] (s.bread (cfg.start + tail + 1))
        phase := .recover (tail + 1) }) rfl hlt (by dsimp only; omega)
    exact ⟨s', hrest.head hstep, hs'⟩

/-- Recovery comes to its end, from any disk. -/
theorem recovers_ends (cfg : Config) (s : State ι) :
    ∃ s', Relation.ReflTransGen (Recovers cfg) (crash s) s' ∧ s'.phase = .running := by
  obtain ⟨t, hrun, ht⟩ := recovers_install cfg
    (s := { crash s with lh := read_head ((crash s).bread cfg.start), phase := .recover 0 }) rfl (Nat.zero_le _)
  have hlast : ∃ s', Recovers cfg t s' ∧ s'.phase = .running := by
    unfold Recovers Log.recover
    rw [ht]
    exact ⟨_, rfl, rfl⟩
  have hfirst : Recovers cfg (crash s)
      { crash s with lh := read_head ((crash s).bread cfg.start), phase := .recover 0 } := rfl
  obtain ⟨s', hstep, hs'⟩ := hlast
  exact ⟨s', (hrun.head hfirst).tail hstep, hs'⟩

/-- A step of recovery changes neither the calls nor what is committed. -/
theorem recover_frame (hstep : recover cfg s = .ok s') : s'.durable = s.durable ∧ s'.call = s.call := by
  cases recover_cases hstep with
  | _ => exact ⟨rfl, rfl⟩

/-! ### What a call changes -/

/-- What is read is the same, and so is what is committed. -/
def Same (cfg : Config) (s s' : State ι) : Prop :=
  s'.durable = s.durable ∧ ∀ b, cfg.Home b → s'.bread b = s.bread b

theorem Same.of_eq (hdurable : s'.durable = s.durable) (hdisk : s'.disk = s.disk) (hbuf : s'.buf = s.buf) :
    Same cfg s s' := by
  refine ⟨hdurable, fun b _ => ?_⟩
  unfold State.bread
  rw [hdisk, hbuf]

section Frames

variable [DecidableEq ι]

theorem begin_op_same (hstep : begin_op p s = .ok s') : Same cfg s s' := by
  obtain ⟨-, -, -, -, rfl⟩ := begin_op_ok hstep
  exact .of_eq rfl rfl rfl

theorem test_same (hstep : test cfg p s = .ok s') : Same cfg s s' := by
  obtain ⟨-, -, rfl⟩ := test_ok hstep
  exact .of_eq rfl rfl rfl

theorem end_op_same (hstep : end_op p s = .ok s') : Same cfg s s' := by
  obtain ⟨-, -, ⟨-, rfl⟩ | ⟨-, rfl⟩⟩ := end_op_ok hstep
  · exact .of_eq rfl rfl rfl
  · exact .of_eq rfl rfl rfl

/-- `log_write` changes the block that it is given. -/
theorem log_write_changes {data : Block} (hstep : log_write p b data s = .ok s') :
    s'.durable = s.durable ∧ s'.bread b = data ∧ ∀ x, x ≠ b → s'.bread x = s.bread x := by
  obtain ⟨-, -, rfl⟩ := log_write_ok hstep
  refine ⟨rfl, ?_, fun x hx => ?_⟩
  · show (Function.update s.buf b (some data) b).getD _ = data
    rw [Function.update_self]
    rfl
  · show (Function.update s.buf b (some data) x).getD _ = s.bread x
    rw [Function.update_of_ne hx]
    rfl

end Frames

section Recovered

variable [Fintype ι]

theorem Inv.recovers (h : Inv cfg s) (hrun : Relation.ReflTransGen (Recovers cfg) s s') :
    Inv cfg s' ∧ s'.durable = s.durable ∧ s'.call = s.call := by
  induction hrun with
  | refl => exact ⟨h, rfl, rfl⟩
  | tail _ hlast ih =>
    obtain ⟨hinv, hdurable, hcall⟩ := ih
    obtain ⟨hdurable', hcall'⟩ := recover_frame hlast
    exact ⟨hinv.recover hlast, hdurable'.trans hdurable, hcall'.trans hcall⟩

/-- **With no call under way, everything that is read is committed.** -/
theorem Inv.settled (h : Inv cfg s) (hrun : s.phase = .running) (hout : ∀ q, s.call q = .outside)
    (hb : cfg.Home b) : s.bread b = s.durable b := by
  have hnone : s.active = ∅ := Finset.eq_empty_of_forall_notMem fun q hq => mem_active.mp hq (hout q)
  have hzero : s.outstanding = 0 := by
    rw [h.count, hnone, Finset.card_empty]
  unfold State.bread
  rw [h.buf_nil (h.empty hrun hzero)]
  exact (h.clean hrun).1.homes b hb

/-! ### What is read and what is committed -/

/-- A step of the commit changes nothing for a reader. -/
theorem Inv.commit_bread (h : Inv cfg s) (hstep : Log.commit cfg s = .ok s') (hb : cfg.Home b) :
    s'.bread b = s.bread b := by
  have hafter := (h.commit hstep).phase
  have hphase := h.phase
  unfold PhaseOk at hphase hafter
  cases commit_cases hstep with
  | @copy tail x hp hx =>
    have hlt := lt_of_getElem? hx
    have hroom := h.fits.room
    unfold State.bread
    dsimp only
    rw [Function.update_of_ne (hb.ne_copy (by omega))]
  | header | erase => exact h.bread_header hb _
  | install hp =>
    rw [hp] at hphase
    rw [hafter.2.2.2 b hb, hphase.2.2.2 b hb]
  | _ => rfl

/-- What is committed changes when the header is written. -/
theorem Inv.commit_durable (h : Inv cfg s) (hstep : Log.commit cfg s = .ok s') :
    s'.durable = s.durable ∨
      s.phase = .write_head ∧ (∀ q, s.call q = .outside) ∧ s'.durable = s.bread := by
  cases commit_cases hstep with
  | header hp => exact .inr ⟨hp, h.quiet (by rw [hp]; exact fun hc => by cases hc), rfl⟩
  | _ => exact .inl rfl

/-- **Recovery restores what is committed**, and comes to its end. -/
theorem Inv.recovered (h : Inv cfg s) : ∃ s', Relation.ReflTransGen (Recovers cfg) (Log.crash s) s' ∧
    s'.phase = .running ∧ ∀ b, cfg.Home b → s'.bread b = s.durable b := by
  obtain ⟨s', hrun, hs'⟩ := recovers_ends cfg s
  obtain ⟨hinv', hdurable, hcall⟩ := h.crash.recovers hrun
  refine ⟨s', hrun, hs', fun b hb => ?_⟩
  rw [hinv'.settled hs' (fun q => by rw [hcall]; rfl) hb, hdurable]
  rfl

section Calls

variable [DecidableEq ι]

/-- What a step of a call does to what a reader finds in the blocks. -/
def Event.writes : Event ι → (ℕ → Block) → ℕ → Block
  | .log_write _ b data, found => Function.update found b data
  | _, found => found

/-- **What a step changes.**  What a reader finds in a block changes through `log_write`, to the contents that
it is given (and by recovery, before the first call); what is committed, only when the header is written with no
call under way, and to what a reader finds at that time. -/
theorem Inv.changes (h : Inv cfg s) (hstep : Log.step cfg s e s') (hcrash : e ≠ .crash) :
    (s'.durable = s.durable ∨
      s.phase = .write_head ∧ (∀ q, s.call q = .outside) ∧ s'.durable = s.bread) ∧
      (e ≠ .recover → ∀ b, cfg.Home b → s'.bread b = e.writes s.bread b) := by
  cases e with
  | begin_op p =>
    have hsame : Same cfg s s' := begin_op_same hstep
    exact ⟨.inl hsame.1, fun _ => hsame.2⟩
  | test p =>
    have hsame : Same cfg s s' := test_same hstep
    exact ⟨.inl hsame.1, fun _ => hsame.2⟩
  | log_write p x data =>
    obtain ⟨hdurable, hself, hother⟩ := log_write_changes hstep
    refine ⟨.inl hdurable, fun _ b _ => ?_⟩
    show s'.bread b = Function.update s.bread x data b
    by_cases hb : b = x
    · rw [hb, Function.update_self, hself]
    · rw [Function.update_of_ne hb, hother b hb]
  | end_op p =>
    have hsame : Same cfg s s' := end_op_same hstep
    exact ⟨.inl hsame.1, fun _ => hsame.2⟩
  | commit => exact ⟨h.commit_durable hstep, fun _ b hb => h.commit_bread hstep hb⟩
  | recover => exact ⟨.inl (recover_frame hstep).1, fun hne => absurd rfl hne⟩
  | crash => exact absurd rfl hcrash

end Calls

end Recovered

end OperatingSystems.Log
