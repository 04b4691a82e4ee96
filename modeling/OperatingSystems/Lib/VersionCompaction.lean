import OperatingSystems.Lib.VersionChanges

/-!
# Compacting a version log

Compaction keeps the last live version of each number, in the order of a list of numbers, and lays them out
anew.  `compacted L is` is the list of kept versions, and `SameVersions` compares logs up to the positions.

* **`SameVersions.nodes_compacted`** — compaction keeps the namespace.
* **`Good.compact`** — and the invariant, when the root comes first.
* **`SameVersions.lookup`** — a lookup finds the same version before and after, when neither scan meets a stray
  match (`NoStray` before, `NoStrayCompacted` after).
-/

namespace OperatingSystems.VersionLog

open OperatingSystems.Namespace

variable {Name Ino β : Type*}

/-- The version `r` at another position. -/
def Rec.moved (r : Rec Name Ino β) (k : ℕ) : Rec Name Ino β := { r with pos := k }

/-- The same versions in the same order, wherever they lie. -/
def SameVersions (L L' : List (Rec Name Ino β)) : Prop :=
  L.map (Rec.moved · 0) = L'.map (Rec.moved · 0)

variable {L L' : List (Rec Name Ino β)} {r : Rec Name Ino β} {i root : Ino} {is : List Ino} {n : Name}

theorem SameVersions.append (h : SameVersions L L') {r' : Rec Name Ino β}
    (hr : r.moved 0 = r'.moved 0) : SameVersions (L ++ [r]) (L' ++ [r']) := by
  rw [SameVersions, List.map_append, List.map_append, h, List.map_singleton, List.map_singleton, hr]

section Latest

variable [DecidableEq Ino]

/-- The versions that compaction keeps. -/
def compacted (L : List (Rec Name Ino β)) (is : List Ino) : List (Rec Name Ino β) :=
  is.filterMap (latest L)

theorem latest_moved : latest (L.map (Rec.moved · 0)) i = (latest L i).map (Rec.moved · 0) := by
  rw [latest, List.filter_map, List.getLast?_map]
  rfl

theorem SameVersions.latest (h : SameVersions L L') (i : Ino) :
    (VersionLog.latest L i).map (Rec.moved · 0) = (VersionLog.latest L' i).map (Rec.moved · 0) := by
  rw [← latest_moved, ← latest_moved, h]

theorem SameVersions.nodes (h : SameVersions L L') : VersionLog.nodes L = VersionLog.nodes L' := by
  funext i
  have hnode : Rec.node ∘ (fun r : Rec Name Ino β => r.moved 0) = Rec.node := rfl
  have := congrArg (Option.map Rec.node) (h.latest i)
  rwa [Option.map_map, Option.map_map, hnode] at this

/-- A kept version is the last one of its number. -/
theorem latest_of_mem_compacted (h : r ∈ compacted L is) : latest L r.ino = some r := by
  obtain ⟨j, -, hj⟩ := List.mem_filterMap.mp h
  exact (mem_of_latest hj).2.2 ▸ hj

/-- **Compaction keeps the last versions** of the numbers it goes through. -/
theorem latest_compacted (hnd : is.Nodup) :
    latest (compacted L is) i = if i ∈ is then latest L i else none := by
  induction is with
  | nil => rfl
  | cons j is ih =>
    rw [List.nodup_cons] at hnd
    cases hj : latest L j with
    | none =>
      rw [compacted, List.filterMap_cons_none hj, ← compacted, ih hnd.2]
      by_cases hij : i = j
      · subst hij
        simp [hj]
      · simp [hij]
    | some r =>
      obtain ⟨-, hlive, hino⟩ := mem_of_latest hj
      rw [compacted, List.filterMap_cons_some hj, ← compacted, ← List.singleton_append, latest_append,
        latest_singleton, hlive, hino, ih hnd.2]
      by_cases hij : i = j
      · subst hij
        simp [hnd.1, hj]
      · simp [hij, Ne.symm hij]

/-- What lies in a compacted log is the last version of its number. -/
theorem SameVersions.mem (h : SameVersions L' (compacted L is)) (hr : r ∈ L') :
    ∃ t, VersionLog.latest L t.ino = some t ∧ t.moved 0 = r.moved 0 := by
  have hmem : r.moved 0 ∈ (compacted L is).map (Rec.moved · 0) := h ▸ List.mem_map_of_mem hr
  obtain ⟨t, ht, htr⟩ := List.mem_map.mp hmem
  exact ⟨t, latest_of_mem_compacted ht, htr⟩

/-- The root's version comes first in a log compacted from the root on. -/
theorem SameVersions.first (h : SameVersions L' (compacted L (root :: is))) (hnd : (root :: is).Nodup)
    (hlive : (VersionLog.latest L root).isSome) :
    ∃ r rest, L' = r :: rest ∧ r.ino = root ∧ VersionLog.latest L' root = some r := by
  obtain ⟨s, hs⟩ := Option.isSome_iff_exists.mp hlive
  obtain ⟨-, hslive, hsino⟩ := mem_of_latest hs
  rw [SameVersions, compacted, List.filterMap_cons_some hs, ← compacted] at h
  cases hL' : L' with
  | nil =>
    rw [hL'] at h
    cases h
  | cons r rest =>
    rw [hL', List.map_cons, List.map_cons, List.cons.injEq] at h
    obtain ⟨hr, hrest⟩ := h
    have hrino : r.ino = root := (congrArg Rec.ino hr).trans hsino
    have hrlive : r.live = true := (congrArg Rec.live hr).trans hslive
    have hnone : VersionLog.latest rest root = none := by
      have := SameVersions.latest hrest root
      rw [latest_compacted (List.nodup_cons.mp hnd).2, if_neg (List.nodup_cons.mp hnd).1] at this
      simpa using this
    refine ⟨r, rest, rfl, hrino, ?_⟩
    rw [← List.singleton_append, latest_append, hnone, Option.none_or, latest_singleton, hrlive, hrino]
    simp

/-- The last versions are those of the old log, at new positions. -/
theorem SameVersions.latest_compacted (h : SameVersions L' (compacted L is)) (hnd : is.Nodup)
    (hall : ∀ r ∈ L, r.ino ∈ is) :
    (VersionLog.latest L' i).map (Rec.moved · 0) = (VersionLog.latest L i).map (Rec.moved · 0) := by
  rw [h.latest, VersionLog.latest_compacted hnd]
  split
  · rfl
  · rename_i hi
    rw [latest_none_of_new]
    rintro s hs rfl
    exact hi (hall s hs)

/-- **Compaction keeps the namespace** when it goes through every number. -/
theorem SameVersions.nodes_compacted (h : SameVersions L' (compacted L is)) (hnd : is.Nodup)
    (hall : ∀ r ∈ L, r.ino ∈ is) : VersionLog.nodes L' = VersionLog.nodes L := by
  funext i
  have hnode : Rec.node ∘ (fun r : Rec Name Ino β => r.moved 0) = Rec.node := rfl
  have := congrArg (Option.map Rec.node) (h.latest_compacted (i := i) hnd hall)
  rwa [Option.map_map, Option.map_map, hnode] at this

end Latest

section Root

variable [DecidableEq Name] [DecidableEq Ino]

/-- What the root lists is found first when the root's last version is the first record. -/
theorem rootFirst_of_head {rest : List (Rec Name Ino β)} (h : latest (r :: rest) root = some r) :
    RootFirst (r :: rest) root := by
  intro n i hc
  rw [scan, List.findSome?_cons, hit_of_child h hc]

/-- **The log is rewritten**: each number in use keeps one version of its node, the root the first. -/
theorem Good.rewrite (h : Good L root False fun _ => False)
    (hsorted : L'.Pairwise fun a b => a.pos < b.pos) (hnodes : nodes L' = nodes L)
    (honly : ∀ s ∈ L', nodes L s.ino = some s.node)
    (hfirst : ∃ r rest, L' = r :: rest ∧ r.ino = root ∧ latest L' root = some r) :
    Good L' root False fun _ => False := by
  obtain ⟨r, rest, rfl, hr, hlatest⟩ := hfirst
  have hlists : ∀ s ∈ r :: rest, ∀ ds, s.node = .dir ds → ∀ d ∈ ds, Lists (nodes L) s.ino d.2 := by
    intro s hs ds hds d hd
    exact ⟨ds, by rw [IsDir, honly s hs, hds], d, hd, rfl⟩
  refine ⟨hsorted, hnodes ▸ h.tree, ?_, ?_, rootFirst_of_head hlatest, r, rest, rfl, hr⟩
  · intro s hs ds hds d hd
    rcases h.tree.live s.ino d.2 (hlists s hs ds hds d hd) with hlive | hf
    · rw [← hnodes, nodes_isSome, latest_isSome] at hlive
      obtain ⟨t, ht, -, htd⟩ := hlive
      exact .inl ⟨t, ht, htd⟩
    · exact hf.elim
  · rintro s hs ds hds d hd rfl
    exact h.tree.root_unlisted s.ino (hlists s hs ds hds d hd)

/-- **Compaction keeps the invariant** when it starts with the root and goes through every number. -/
theorem Good.compact (h : Good L root False fun _ => False)
    (hsorted : L'.Pairwise fun a b => a.pos < b.pos) (hsame : SameVersions L' (compacted L (root :: is)))
    (hnd : (root :: is).Nodup) (hall : ∀ r ∈ L, r.ino ∈ root :: is) :
    Good L' root False fun _ => False := by
  refine h.rewrite hsorted (hsame.nodes_compacted hnd hall) ?_ (hsame.first hnd h.root_live)
  intro s hs
  obtain ⟨t, ht, hts⟩ := hsame.mem hs
  have hino : t.ino = s.ino := (congrArg Rec.ino hts : (t.moved 0).ino = (s.moved 0).ino)
  have hnode : t.node = s.node := (congrArg Rec.node hts : (t.moved 0).node = (s.moved 0).node)
  rw [← hino, nodes_of_latest ht, hnode]

end Root

/-! ### Looking up in a compacted log -/

section Lookup

variable {is : List ℕ} {L L' S : List (Rec Name ℕ β)} {i : ℕ}

/-- A compacted log is in order of the numbers. -/
theorem SameVersions.ordered (h : SameVersions L' (compacted L is)) (his : is.Pairwise (· < ·)) :
    L'.Pairwise fun a b => a.ino < b.ino := by
  have hmoved : (L'.map (Rec.moved · 0)).Pairwise fun a b => a.ino < b.ino := by
    rw [h, List.pairwise_map]
    refine his.filterMap _ fun a b hab r hr s hs => ?_
    show r.ino < s.ino
    rwa [(mem_of_latest hr).2.2, (mem_of_latest hs).2.2]
  rwa [List.pairwise_map] at hmoved

/-- In a log that is in order of position and of number, positions compare as the numbers do. -/
theorem ino_le_of_pos_le (hpos : L.Pairwise fun a b => a.pos < b.pos)
    (hino : L.Pairwise fun a b => a.ino < b.ino) {r s : Rec Name ℕ β} (hr : r ∈ L) (hs : s ∈ L)
    (h : r.pos ≤ s.pos) : r.ino ≤ s.ino := by
  induction L with
  | nil => cases hr
  | cons t L ih =>
    rw [List.pairwise_cons] at hpos hino
    rcases List.mem_cons.mp hr with rfl | hr'
    · rcases List.mem_cons.mp hs with rfl | hs'
      · exact le_rfl
      · exact (hino.1 s hs').le
    · rcases List.mem_cons.mp hs with rfl | hs'
      · exact absurd (hpos.1 r hr') (not_lt.mpr h)
      · exact ih hpos.2 hino.2 hr' hs'

variable [DecidableEq Name]

/-- At the name where the walk from `i` stops, no kept version of a number from `i` on lists it with a live
number. -/
def NoStrayCompacted (L : List (Rec Name ℕ β)) (is : List ℕ) : ℕ → List Name → Prop
  | _, [] => True
  | i, n :: names =>
    match child (nodes L) i n with
    | some j => NoStrayCompacted L is j names
    | none => ¬Stray L n ((compacted L is).filter fun r => i ≤ r.ino)

instance decidableNoStrayCompacted (L : List (Rec Name ℕ β)) (is : List ℕ) :
    ∀ (i : ℕ) (names : List Name), Decidable (NoStrayCompacted L is i names)
  | _, [] => isTrue trivial
  | i, n :: names =>
    match h : child (nodes L) i n with
    | some j =>
      have := decidableNoStrayCompacted L is j names
      decidable_of_iff (NoStrayCompacted L is j names) (by rw [NoStrayCompacted, h])
    | none =>
      decidable_of_iff (¬Stray L n ((compacted L is).filter fun r => i ≤ r.ino))
        (by rw [NoStrayCompacted, h])

/-- A stray match in the new log is one among the kept versions of the old. -/
theorem SameVersions.noStray (h : SameVersions L' (compacted L is)) (his : is.Pairwise (· < ·))
    (hall : ∀ r ∈ L, r.ino ∈ is) (hpos : L'.Pairwise fun a b => a.pos < b.pos) :
    ∀ (names : List Name) (S : List (Rec Name ℕ β)) (i : ℕ), (∀ s ∈ S, s ∈ L' ∧ i ≤ s.ino) →
      NoStrayCompacted L is i names → NoStray L' S i names := by
  have hnd : is.Nodup := his.imp fun hlt => hlt.ne
  have hnodes := h.nodes_compacted hnd hall
  have hino := h.ordered his
  intro names
  induction names with
  | nil => exact fun _ _ _ _ => trivial
  | cons n names ih =>
    intro S i hS hno
    rw [NoStrayCompacted] at hno
    rw [NoStray, hnodes]
    cases hc : child (VersionLog.nodes L) i n with
    | some j =>
      rw [hc] at hno
      refine ih _ _ (fun s hs => ?_) hno
      cases hlast : VersionLog.latest L' j with
      | none =>
        rw [rangeOf, hlast] at hs
        cases hs
      | some r =>
        simp only [rangeOf, hlast, after, List.mem_filter, decide_eq_true_eq] at hs
        obtain ⟨hr, -, rfl⟩ := mem_of_latest hlast
        exact ⟨hs.1, ino_le_of_pos_le hpos hino hr hs.1 hs.2⟩
    | none =>
      rw [hc] at hno
      rintro ⟨r, hr, hhit⟩
      obtain ⟨hrL, hir⟩ := hS r hr
      have hmem : r.moved 0 ∈ (compacted L is).map (Rec.moved · 0) := h ▸ List.mem_map_of_mem hrL
      obtain ⟨t, ht, htr⟩ := List.mem_map.mp hmem
      have htino : t.ino = r.ino := (congrArg Rec.ino htr : (t.moved 0).ino = (r.moved 0).ino)
      have htnode : t.node = r.node := (congrArg Rec.node htr : (t.moved 0).node = (r.moved 0).node)
      refine hno ⟨t, List.mem_filter.mpr ⟨ht, by simpa [htino] using hir⟩, ?_⟩
      obtain ⟨ds, hds, d, hd, hname, hlive⟩ := hit_isSome.mp hhit
      rw [← nodes_isSome, hnodes, nodes_isSome] at hlive
      exact hit_isSome.mpr ⟨ds, htnode.trans hds, d, hd, hname, hlive⟩

/-- **A lookup finds the same version before and after a compaction** when neither scan meets a stray
match. -/
theorem SameVersions.lookup (h : SameVersions L' (compacted L (0 :: is)))
    (his : (0 :: is).Pairwise (· < ·)) (hall : ∀ r ∈ L, r.ino ∈ 0 :: is)
    (hpos : L.Pairwise fun a b => a.pos < b.pos) (hpos' : L'.Pairwise fun a b => a.pos < b.pos)
    (hroot : RootFirst L 0) (hlive : (VersionLog.latest L 0).isSome) {names : List Name}
    (hs : NoStray L L 0 names) (hs' : NoStrayCompacted L (0 :: is) 0 names) :
    (VersionLog.lookup L' 0 names).map (Rec.moved · 0) =
      (VersionLog.lookup L 0 names).map (Rec.moved · 0) := by
  have hnd : (0 :: is).Nodup := his.imp fun hlt => hlt.ne
  obtain ⟨r, rest, rfl, -, hlast⟩ := h.first hnd hlive
  have hno := h.noStray his hall hpos' names _ 0 (fun s hs => ⟨hs, Nat.zero_le _⟩) hs'
  rw [lookup_eq_walk hpos hroot hs, lookup_eq_walk hpos' (rootFirst_of_head hlast) hno,
    h.nodes_compacted hnd hall]
  cases walk (VersionLog.nodes L) names 0 with
  | none => rfl
  | some i => exact h.latest_compacted hnd hall

end Lookup

end OperatingSystems.VersionLog
