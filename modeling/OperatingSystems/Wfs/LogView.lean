import OperatingSystems.Lib.VersionChanges
import OperatingSystems.Wfs.Calls

/-!
# The log as a list of versions

The bridge from the bytes of an image to the general theory of version logs.  `version m o` is what the
entry at offset `o` says, `log m` the versions of all entries in the order of the disk, and `Tiles m offs`
says that the entries at `offs` fill the used part of the disk exactly.

On a tiled log each scanning helper is a function of `log m`:

* **`find_latest_eq`** — `find_latest_log_entry` is the position of `VersionLog.latest`;
* **`find_max_spec`** — `find_max_inode_number` bounds every inode number of the log;
* **`find_path_eq`** — `find_log_entry_by_path` is `VersionLog.lookup` on the tokens of the path.
-/

namespace OperatingSystems.Wfs

open OperatingSystems.ByteMemory OperatingSystems.BoundedLoop OperatingSystems.VersionLog

/-- The names and inode numbers that the entry at `o` lists, read as a directory. -/
def dents (m : Mem) (o : ℕ) : List (Str × ℕ) :=
  (List.range (num_entries m o)).map fun i =>
    (dentryName m (dentryAt (data o) i), dentryIno m (dentryAt (data o) i) % 2 ^ 32)

/-- What an entry of the log says: its inode and data are kept as the value. -/
abbrev Version := Rec Str ℕ (Inode × List UInt8)

/-- The version that the entry at `o` is. -/
def version (m : Mem) (o : ℕ) : Version where
  pos := o
  ino := inode_number m o
  live := deleted m o == 0
  node := if S_ISDIR (mode m o) then .dir (dents m o) else .file
  val := (getInode m o, m.bytes (data o) (size m o))

/-- The versions in the log, in the order of the disk. -/
def log (m : Mem) : List Version :=
  (scanLog (fun e s => (s.1, s.2 ++ [version s.1 e])) m []).2

/-- The entries at `offs` follow each other from the superblock to the head. -/
def Tiles (m : Mem) (offs : List ℕ) : Prop := Chain (nextEntry m) sizeof_sb (head m) offs

/-- A scan of the log visits the entries at `offs`: they follow each other from the superblock up to the
first one at or beyond the head. -/
def Visits (m : Mem) (offs : List ℕ) : Prop :=
  ∃ b, Chain (nextEntry m) sizeof_sb b offs ∧ head m ≤ b ∧ ∀ o ∈ offs, o < head m

/-- A directory entry holds whole dentries, whose names end in their field and whose numbers have 32
bits. -/
structure DirOk (m : Mem) (o : ℕ) : Prop where
  whole : sizeof_dentry ∣ size m o
  ended : ∀ i, i < num_entries m o → m.byte (dentryAt (data o) i + 31) = 0
  small : ∀ i, i < num_entries m o → dentryIno m (dentryAt (data o) i) < 2 ^ 32

/-- The log fills the used part of the disk, and its directories are in order. -/
structure WellFormed (m : Mem) (offs : List ℕ) : Prop where
  tiles : Tiles m offs
  dirs : ∀ o ∈ offs, S_ISDIR (mode m o) → DirOk m o

/-- A log that tiles and whose names end in their fields: all that a lookup relies on. -/
structure Readable (m : Mem) (offs : List ℕ) : Prop where
  tiles : Tiles m offs
  ended : ∀ o ∈ offs, S_ISDIR (mode m o) → ∀ i, i < num_entries m o →
    ∃ k, k < MAX_FILE_NAME_LEN ∧ m.byte (dentryAt (data o) i + k) = 0

variable {m m' : Mem} {offs : List ℕ} {o o' i : ℕ} {t : Str}

theorem WellFormed.readable (h : WellFormed m offs) : Readable m offs :=
  ⟨h.tiles, fun o ho hd i hi => ⟨31, by decide, (h.dirs o ho hd).ended i hi⟩⟩

theorem version_node_dir {ds : List (Str × ℕ)} :
    (version m o).node = .dir ds ↔ S_ISDIR (mode m o) ∧ dents m o = ds := by
  unfold version
  by_cases hd : S_ISDIR (mode m o) <;> simp [hd]

theorem num_entries_le (m : Mem) (o : ℕ) : sizeof_dentry * num_entries m o ≤ size m o :=
  Nat.mul_div_le _ _

/-! ### Scans -/

theorem exists_visits (m : Mem) : ∃ offs, Visits m offs := by
  obtain ⟨b, offs, hc, hb, hoffs⟩ := exists_chain (lt_nextEntry m) (head m) sizeof_sb
  exact ⟨offs, b, hc, hb, hoffs⟩

theorem Tiles.visits (h : Tiles m offs) : Visits m offs :=
  ⟨head m, h, le_rfl, fun o ho =>
    (lt_nextEntry m o).trans_le (h.bounds (lt_nextEntry m) o ho).2⟩

/-- A scan visits the same entries each time. -/
theorem Visits.unique {xs ys : List ℕ} (hx : Visits m xs) (hy : Visits m ys) : xs = ys := by
  obtain ⟨b, hb, hbh, hxs⟩ := hx
  obtain ⟨c, hc, hch, hys⟩ := hy
  generalize sizeof_sb = a at hb hc
  induction hb generalizing ys with
  | nil a =>
    cases hc with
    | nil => rfl
    | cons => exact absurd (hys _ List.mem_cons_self) (not_lt.mpr hbh)
  | @cons a b xs hb ih =>
    cases hc with
    | nil => exact absurd (hxs _ List.mem_cons_self) (not_lt.mpr hch)
    | cons hc =>
      rw [List.forall_mem_cons] at hxs hys
      rw [ih hbh hxs.2 hys.2 hc]

/-- **A scan that leaves the memory alone is a left fold** over the visited entries. -/
theorem scanLog_readOnly {α : Type*} (f : Mem → ℕ → α → α) (h : Visits m offs) (acc : α) :
    scanLog (fun e s => (s.1, f s.1 e s.2)) m acc = (m, offs.foldl (fun a e => f m e a) acc) := by
  obtain ⟨b, hc, hb, hoffs⟩ := h
  have hscan := scan_eq_foldl (fun s : Mem × α => head s.1) (fun s => nextEntry s.1)
    (fun e s => (s.1, f s.1 e s.2)) (fun s => s.1 = m)
    (lt_nextEntry m) (fun s hs => by rw [hs]) hoffs hb (fun s hs e _ => ⟨hs, by rw [hs]⟩) hc
    (s := (m, acc)) rfl (n := head m + 1) (by omega)
  rw [scanLog, hscan, Option.getD_some]
  clear hscan hc hoffs
  induction offs generalizing acc with
  | nil => rfl
  | cons o offs ih => rw [List.foldl_cons, List.foldl_cons, ih]

theorem log_eq (h : Tiles m offs) : log m = offs.map (version m) := by
  rw [log, scanLog_readOnly (fun m e L => L ++ [version m e]) h.visits]
  clear h
  induction offs using List.reverseRecOn with
  | nil => rfl
  | append_singleton offs o ih =>
    simp only [List.foldl_append, List.foldl_cons, List.foldl_nil, List.map_append, List.map_cons,
      List.map_nil] at ih ⊢
    rw [ih]

/-- The last element that meets a predicate, by a left fold. -/
theorem foldl_getLast? {α : Type*} (p : α → Bool) (xs : List α) :
    xs.foldl (fun a x => if p x then some x else a) none = (xs.filter p).getLast? := by
  induction xs using List.reverseRecOn with
  | nil => rfl
  | append_singleton xs x ih =>
    rw [List.foldl_append, ih, List.foldl_cons, List.foldl_nil, List.filter_append]
    by_cases hx : p x
    · simp [hx]
    · simp [hx]

/-- `find_latest_log_entry` returns the last visited entry that is live. -/
theorem find_latest_visits (h : Visits m offs) :
    find_latest_log_entry m i = (offs.filter (isLive m i)).getLast? := by
  rw [find_latest_log_entry, scanLog_readOnly (fun m e a => if isLive m i e then some e else a) h]
  exact foldl_getLast? _ _

theorem latest_log (h : Tiles m offs) :
    latest (log m) i = ((offs.filter (isLive m i)).getLast?).map (version m) := by
  rw [latest, log_eq h, List.filter_map, List.getLast?_map]
  congr 3
  funext o
  simp only [Function.comp_apply, version, isLive, Bool.and_comm, beq_eq_decide]

/-- **`find_latest_log_entry`** returns the last live version. -/
theorem find_latest_eq (h : Tiles m offs) :
    find_latest_log_entry m i = (latest (log m) i).map Rec.pos := by
  have hpos : Rec.pos ∘ version m = id := rfl
  rw [find_latest_visits h.visits, latest_log h, Option.map_map, hpos, Option.map_id]
  rfl

/-- **`find_max_inode_number`** bounds the numbers in the log, and it is one of them or `0`. -/
theorem find_max_spec (h : Tiles m offs) : (∀ r ∈ log m, r.ino ≤ find_max_inode_number m) ∧
    (find_max_inode_number m = 0 ∨ ∃ r ∈ log m, r.ino = find_max_inode_number m) := by
  rw [find_max_inode_number, log_eq h, scanLog_readOnly
    (fun m e (a : ℕ) => if a < inode_number m e then inode_number m e else a) h.visits]
  clear h
  induction offs using List.reverseRecOn with
  | nil => simp
  | append_singleton offs o ih =>
    simp only [List.map_append, List.map_singleton, List.mem_append, List.mem_singleton,
      List.foldl_append, List.foldl_cons, List.foldl_nil] at ih ⊢
    set M := offs.foldl (fun a e => if a < inode_number m e then inode_number m e else a) 0
    have ho : (version m o).ino = inode_number m o := rfl
    split
    · refine ⟨?_, .inr ⟨version m o, .inr rfl, rfl⟩⟩
      rintro r (hr | rfl)
      · exact (ih.1 r hr).trans (by omega)
      · exact ho.le
    · refine ⟨?_, ih.2.imp id fun ⟨r, hr, hM⟩ => ⟨r, .inl hr, hM⟩⟩
      rintro r (hr | rfl)
      · exact ih.1 r hr
      · omega

/-- What holds of `0` and of every number in the log holds of the greatest one. -/
theorem find_max_of_all (h : Tiles m offs) {P : ℕ → Prop} (hzero : P 0) (hall : ∀ r ∈ log m, P r.ino) :
    P (find_max_inode_number m) := by
  rcases (find_max_spec h).2 with hmax | ⟨r, hr, hmax⟩
  · rw [hmax]
    exact hzero
  · rw [← hmax]
    exact hall r hr

/-! ### Names -/

/-- Comparing with a string in memory is comparing with its bytes up to the first NUL. -/
theorem streq_eq (m : Mem) (n : ℕ) : ∀ (p : ℕ) (t : Str), 0 ∉ t → (∃ i, i < n ∧ m.byte (p + i) = 0) →
    streq m p t = decide ((m.bytes p n).takeWhile (· != 0) = t) := by
  induction n with
  | zero => rintro p t - ⟨i, hi, -⟩; omega
  | succ n ih =>
    rintro p t ht ⟨i, hi, hz⟩
    have hbytes : m.bytes p (n + 1) = m.byte p :: m.bytes (p + 1) n := by
      rw [Nat.add_comm n 1, Mem.bytes_add]
      rfl
    rw [hbytes]
    by_cases hp : m.byte p = 0
    · rw [List.takeWhile_cons_of_neg (by simp [hp])]
      cases t with
      | nil => simp [streq, hp]
      | cons c cs =>
        have hc : (0 : UInt8) ≠ c := fun h => ht (by simp [h])
        simp [streq, hp, hc]
    · rw [List.takeWhile_cons_of_pos (by simpa using hp)]
      cases t with
      | nil => simp [streq, hp]
      | cons c cs =>
        have hi0 : i ≠ 0 := by
          rintro rfl
          exact hp hz
        rw [streq, ih (p + 1) cs (fun h => ht (List.mem_cons_of_mem _ h))
          ⟨i - 1, by omega, by rw [← hz]; congr 1; omega⟩]
        simp [beq_eq_decide, Bool.decide_and]

/-- The first result among the elements that meet `p` is that of the first one with a result. -/
theorem findSome?_ite {α β : Type*} (p : α → Bool) (f : α → Option β) (xs : List α) :
    xs.findSome? (fun x => if p x then f x else none) =
      (xs.find? fun x => p x && (f x).isSome).bind f := by
  induction xs with
  | nil => rfl
  | cons x xs ih =>
    rw [List.findSome?_cons, ih]
    by_cases hp : p x
    · cases hf : f x with
      | none => simp [hp, hf]
      | some b => simp [hp, hf]
    · simp [hp]

/-- **The inner loop of the lookup** finds the hit of the version. -/
theorem dentryHit_eq (h : Readable m offs) (ho : o ∈ offs) (ht : 0 ∉ t) :
    dentryHit m t o = (hit (log m) t (version m o)).bind fun i => (latest (log m) i).map Rec.pos := by
  unfold dentryHit hit version
  by_cases hdir : S_ISDIR (mode m o)
  · rw [if_pos hdir, if_pos hdir]
    have hname : ∀ i ∈ List.range (num_entries m o),
        streq m (dentryAt (data o) i) t = decide (dentryName m (dentryAt (data o) i) = t) := by
      intro i hi
      exact streq_eq m MAX_FILE_NAME_LEN _ t ht (h.ended o ho hdir i (List.mem_range.mp hi))
    simp only [dents, findSome?_ite, find_latest_eq h.tiles, List.find?_map, Option.map_map,
      Option.isSome_map, Option.bind_map, Function.comp_def]
    rw [List.find?_congr (fun i hi => by rw [hname i hi])]
  · rw [if_neg hdir, if_neg hdir]
    rfl

/-! ### The lookup loop -/

theorem log_sorted (h : Tiles m offs) : (log m).Pairwise fun a b => a.pos < b.pos := by
  rw [log_eq h, List.pairwise_map]
  exact h.pairwise (lt_nextEntry m)

theorem mem_log (h : Tiles m offs) {r : Version} :
    r ∈ log m ↔ r.pos ∈ offs ∧ version m r.pos = r := by
  rw [log_eq h, List.mem_map]
  constructor
  · rintro ⟨o, ho, rfl⟩
    exact ⟨ho, rfl⟩
  · rintro ⟨ho, hr⟩
    exact ⟨r.pos, ho, hr⟩

/-- The records from an entry on are the versions of a chain that ends at the head. -/
theorem after_log (h : Tiles m offs) (ho : o ∈ offs) : ∃ xs, Chain (nextEntry m) o (head m) xs ∧
    (∀ x ∈ xs, x ∈ offs) ∧ after (log m) o = xs.map (version m) := by
  obtain ⟨pre, post, rfl, -, hpost⟩ := h.split ho
  refine ⟨o :: post, hpost, fun x hx => List.mem_append_right _ hx, ?_⟩
  have hsorted := h.pairwise (lt_nextEntry m)
  rw [List.pairwise_append] at hsorted
  rw [after, log_eq h, List.map_append, List.filter_append, List.filter_eq_nil_iff.mpr,
    List.nil_append, List.filter_eq_self.mpr]
  · intro r hr
    obtain ⟨x, hx, rfl⟩ := List.mem_map.mp hr
    exact decide_eq_true (hpost.bounds (lt_nextEntry m) x hx).1
  · intro r hr
    obtain ⟨x, hx, rfl⟩ := List.mem_map.mp hr
    have := hsorted.2.2 x hx o List.mem_cons_self
    exact fun hle => absurd (of_decide_eq_true hle) (Nat.not_le.mpr this)

/-- The loop with one more token, from `off` on: the scan for the token, then the rest. -/
theorem lookup_token (h : Readable m offs) (ht : 0 ∉ t) {ts : List Str} {K : ℕ}
    (hK : ∀ r ∈ log m, ∀ n, K ≤ n → iterate (lookupBody m) n ⟨ts, r.pos, r.pos⟩ =
      some ((lookupFrom (log m) ts r).map Rec.pos)) {off : ℕ} {xs : List ℕ}
    (hc : Chain (nextEntry m) off (head m) xs) (hxs : ∀ x ∈ xs, x ∈ offs) :
    ∀ le n, K + (head m - off) + 1 ≤ n → iterate (lookupBody m) n ⟨t :: ts, off, le⟩ =
      some (((scan (log m) t (xs.map (version m))).bind fun i =>
        (latest (log m) i).bind (lookupFrom (log m) ts)).map Rec.pos) := by
  generalize hb : head m = b at hc
  induction hc with
  | nil a =>
    intro le n hn
    obtain ⟨n, rfl⟩ : ∃ n', n = n' + 1 := ⟨n - 1, by omega⟩
    apply iterate_inr
    simp only [lookupBody, hb, lt_irrefl, if_false]
    rfl
  | @cons a b xs hc ih =>
    intro le n hn
    obtain ⟨n, rfl⟩ : ∃ n', n = n' + 1 := ⟨n - 1, by omega⟩
    have hlt := lt_nextEntry m a
    have hle := hc.le (lt_nextEntry m)
    have hhit := dentryHit_eq h (hxs a List.mem_cons_self) ht
    rw [List.map_cons, scan, List.findSome?_cons]
    cases hr : hit (log m) t (version m a) with
    | none =>
      rw [hr] at hhit
      rw [iterate_inl (t := ⟨t :: ts, nextEntry m a, a⟩)
        (by simp only [lookupBody, hb, if_pos (show a < b by omega), hhit, Option.bind_none])]
      exact ih (fun x hx => hxs x (List.mem_cons_of_mem _ hx)) hb a n (by omega)
    | some i =>
      obtain ⟨-, -, -, hlive⟩ := hit_mem hr
      obtain ⟨r, hlast⟩ := Option.isSome_iff_exists.mp hlive
      rw [hr, Option.bind_some, hlast, Option.map_some] at hhit
      rw [iterate_inl (t := ⟨ts, r.pos, r.pos⟩)
        (by simp only [lookupBody, hb, if_pos (show a < b by omega), hhit])]
      rw [Option.bind_some, hlast, Option.bind_some]
      exact hK r (mem_of_latest hlast).1 n (by omega)

/-- The loop from an entry on. -/
theorem lookup_iterate (h : Readable m offs) : ∀ (ts : List Str), (∀ t ∈ ts, 0 ∉ t) →
    ∀ r ∈ log m, ∀ n, ts.length * (head m + 2) + 1 ≤ n →
      iterate (lookupBody m) n ⟨ts, r.pos, r.pos⟩ =
        some ((lookupFrom (log m) ts r).map Rec.pos) := by
  intro ts
  induction ts with
  | nil =>
    intro _ r _ n hn
    obtain ⟨n, rfl⟩ : ∃ n', n = n' + 1 := ⟨n - 1, by omega⟩
    exact iterate_inr rfl n
  | cons t ts ih =>
    intro hts r hr n hn
    obtain ⟨xs, hc, hxs, hafter⟩ := after_log h.tiles ((mem_log h.tiles).mp hr).1
    rw [lookupFrom, hafter]
    refine lookup_token h (hts t List.mem_cons_self)
      (ih (fun s hs => hts s (List.mem_cons_of_mem _ hs))) hc hxs r.pos n ?_
    rw [List.length_cons, Nat.succ_mul] at hn
    omega

/-- A token has no NUL when the string has none. -/
theorem no_nul_strtok : ∀ (s acc : Str), 0 ∉ s → 0 ∉ acc → ∀ t ∈ strtok acc s, (0 : UInt8) ∉ t := by
  intro s
  induction s with
  | nil =>
    intro acc _ hacc t ht
    cases acc with
    | nil => simp [strtok] at ht
    | cons a acc =>
      rw [strtok, List.mem_singleton] at ht
      · rw [ht]
        exact fun h => hacc (List.mem_reverse.mp h)
      · simp
  | cons c cs ih =>
    intro acc hs hacc t ht
    have hcs : 0 ∉ cs := fun h => hs (List.mem_cons_of_mem _ h)
    have hc : (0 : UInt8) ∉ [c] := fun h => hs (by simp_all)
    cases acc with
    | nil =>
      rw [strtok] at ht
      split at ht
      · exact ih [] hcs hacc t ht
      · exact ih [c] hcs hc t ht
    | cons a acc =>
      rw [strtok] at ht
      split at ht
      · rcases List.mem_cons.mp ht with rfl | ht
        · exact fun h => hacc (List.mem_reverse.mp h)
        · exact ih [] hcs (by simp) t ht
      · refine ih (c :: a :: acc) hcs ?_ t ht
        intro h
        rcases List.mem_cons.mp h with h | h
        · exact hs (by simp [h])
        · exact hacc h

theorem no_nul_tokens {path : Str} (h : 0 ∉ path) : ∀ t ∈ tokens path, (0 : UInt8) ∉ t :=
  no_nul_strtok path [] h (by simp)

/-- **`find_log_entry_by_path`** is the scanning lookup of the version log. -/
theorem find_path_readable (h : Readable m offs) {path : Str} (hp : 0 ∉ path) :
    find_log_entry_by_path m path =
      (lookup (log m) (inode_number m sizeof_sb) (tokens path)).map Rec.pos := by
  have hts := no_nul_tokens hp
  unfold find_log_entry_by_path
  cases htok : tokens path with
  | nil => exact find_latest_eq h.tiles
  | cons t ts =>
    rw [htok] at hts
    simp only [lookup]
    rw [lookup_token h (hts t List.mem_cons_self)
      (lookup_iterate h ts (fun s hs => hts s (List.mem_cons_of_mem _ hs))) h.tiles
      (fun x hx => hx), Option.getD_some, ← log_eq h.tiles]
    rw [lookupFuel]
    have : (ts.length + 1 + 1) * (head m + 2) = ts.length * (head m + 2) + 2 * (head m + 2) := by ring
    omega

theorem find_path_eq (h : WellFormed m offs) {path : Str} (hp : 0 ∉ path) :
    find_log_entry_by_path m path =
      (lookup (log m) (inode_number m sizeof_sb) (tokens path)).map Rec.pos :=
  find_path_readable h.readable hp

end OperatingSystems.Wfs
