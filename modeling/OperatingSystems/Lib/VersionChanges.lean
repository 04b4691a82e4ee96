import OperatingSystems.Lib.VersionLog

/-!
# Changes of a version log

What a log-structured store does to its log: append versions, mark every version of a number dead
(`kill`), or rewrite the log from scratch.

* `Good L root full stuck` is the invariant that makes lookups follow the namespace: the namespace is a
  `Tree`, every number a version lists has a version itself (unless the log is `full`), no version lists
  the root, and what the root lists is what a scan of the whole log finds first.
* Each change has its lemma: **`Good.rewriteFile`**, **`Good.addFresh`**, **`Good.create`**,
  **`Good.addDead`**, **`Good.remove`** and **`Good.kill`**; compaction follows in `VersionCompaction`.
-/

namespace OperatingSystems.VersionLog

open OperatingSystems.Namespace

variable {Name Ino β : Type*}

/-- One record after every live version of `j` has been marked dead. -/
def killRec [DecidableEq Ino] (g : β → β) (j : Ino) (r : Rec Name Ino β) : Rec Name Ino β :=
  if r.live && r.ino = j then { r with live := false, val := g r.val } else r

/-- Mark every live version of `j` dead. -/
def kill [DecidableEq Ino] (g : β → β) (j : Ino) (L : List (Rec Name Ino β)) :
    List (Rec Name Ino β) :=
  L.map (killRec g j)

/-- Every number that a version of `L` lists meets `Q`. -/
def Listed (Q : Ino → Prop) (L : List (Rec Name Ino β)) : Prop :=
  ∀ r ∈ L, ∀ ds, r.node = .dir ds → ∀ d ∈ ds, Q d.2

/-- The invariant of a log. -/
structure Good [DecidableEq Name] [DecidableEq Ino] (L : List (Rec Name Ino β)) (root : Ino)
    (full : Prop) (stuck : Ino → Prop) : Prop where
  sorted : L.Pairwise fun a b => a.pos < b.pos
  tree : Tree (nodes L) root stuck
  known : Listed (fun i => (∃ s ∈ L, s.ino = i) ∨ full) L
  rootless : Listed (· ≠ root) L
  rootFirst : RootFirst L root
  first : ∃ r rest, L = r :: rest ∧ r.ino = root

variable {L S : List (Rec Name Ino β)} {r P P' N : Rec Name Ino β} {n : Name} {i j k p root : Ino}
  {g : β → β} {full full' : Prop} {stuck stuck' : Ino → Prop} {ds : List (Name × Ino)}

/-- A log that extends another by versions further on is in order. -/
theorem sorted_append {E : List (Rec Name Ino β)} (h : L.Pairwise fun a b => a.pos < b.pos)
    (hE : E.Pairwise fun a b => a.pos < b.pos) (hpos : ∀ s ∈ L, ∀ e ∈ E, s.pos < e.pos) :
    (L ++ E).Pairwise fun a b => a.pos < b.pos :=
  List.pairwise_append.mpr ⟨h, hE, hpos⟩

theorem first_append {E : List (Rec Name Ino β)} (h : ∃ r rest, L = r :: rest ∧ r.ino = root) :
    ∃ r rest, L ++ E = r :: rest ∧ r.ino = root := by
  obtain ⟨r, rest, rfl, hr⟩ := h
  exact ⟨r, rest ++ E, rfl, hr⟩

theorem Listed.append {Q : Ino → Prop} {E : List (Rec Name Ino β)} (hL : Listed Q L)
    (hE : Listed Q E) : Listed Q (L ++ E) := by
  intro r hr
  rcases List.mem_append.mp hr with hr | hr
  · exact hL r hr
  · exact hE r hr

/-- A version that lists nothing. -/
theorem Listed.single {Q : Ino → Prop} (hnode : N.node = .file ∨ N.node = .dir []) :
    Listed Q [N] := by
  intro s hs ds hds d hd
  rw [List.mem_singleton.mp hs] at hds
  rcases hnode with hf | hf
  · rw [hf] at hds
    cases hds
  · obtain rfl : [] = ds := by simpa [hf] using hds
    cases hd

/-! ### Marking dead -/

section Kill

variable [DecidableEq Ino]

theorem killRec_pos : (killRec g j r).pos = r.pos := by
  unfold killRec
  split <;> rfl

theorem killRec_ino : (killRec g j r).ino = r.ino := by
  unfold killRec
  split <;> rfl

theorem killRec_node : (killRec g j r).node = r.node := by
  unfold killRec
  split <;> rfl

theorem killRec_of_ne (h : r.ino ≠ j) : killRec g j r = r := by
  rw [killRec, if_neg (by simp [h])]

theorem killRec_dead (h : r.ino = j) : (killRec g j r).live = false := by
  unfold killRec
  split
  · rfl
  · rename_i hn
    simpa [h] using hn

theorem latest_kill : latest (kill g j L) i = if i = j then none else latest L i := by
  have hfilter : (kill g j L).filter (fun r => r.live && decide (r.ino = i)) =
      if i = j then [] else L.filter fun r => r.live && decide (r.ino = i) := by
    induction L with
    | nil => simp [kill]
    | cons r L ih =>
      rw [kill, List.map_cons, List.filter_cons]
      rw [kill] at ih
      rw [ih, killRec_ino]
      by_cases hij : i = j
      · subst hij
        by_cases hri : r.ino = i
        · rw [killRec_dead hri]
          simp
        · simp [hri]
      · by_cases hri : r.ino = i
        · rw [killRec_of_ne (fun hrj => hij (hri.symm.trans hrj)), if_neg hij, if_neg hij,
            List.filter_cons]
        · simp [hij, hri]
  rw [latest, hfilter]
  by_cases hij : i = j
  · rw [if_pos hij, if_pos hij]
    rfl
  · rw [if_neg hij, if_neg hij]
    rfl

theorem nodes_kill : nodes (kill g j L) = Function.update (nodes L) j none := by
  funext i
  rw [nodes, latest_kill]
  by_cases hij : i = j
  · subst hij
    rw [if_pos rfl, Function.update_self]
    rfl
  · rw [if_neg hij, Function.update_of_ne hij]
    rfl

theorem kill_sorted (h : L.Pairwise fun a b => a.pos < b.pos) :
    (kill g j L).Pairwise fun a b => a.pos < b.pos := by
  rw [kill, List.pairwise_map]
  simpa only [killRec_pos] using h

theorem latest_none_of_new (hnew : ∀ s ∈ L, s.ino ≠ k) : latest L k = none := by
  rw [← Option.not_isSome_iff_eq_none, latest_isSome]
  rintro ⟨s, hs, -, hk⟩
  exact hnew s hs hk

theorem nodes_none_of_new (hnew : ∀ s ∈ L, s.ino ≠ k) : nodes L k = none := by
  rw [nodes, latest_none_of_new hnew]
  rfl

variable [DecidableEq Name]

/-- Fewer live numbers leave the first hit what it was, as long as it stays live. -/
theorem hit_kill_some (h : hit L n r = some i) (hij : i ≠ j) :
    hit (kill g j L) n (killRec g j r) = some i := by
  unfold hit at h ⊢
  rw [killRec_node]
  cases hnode : r.node with
  | file => simp [hnode] at h
  | dir ds =>
    simp only [hnode, Option.map_eq_some_iff] at h ⊢
    obtain ⟨d, hf, rfl⟩ := h
    have hp := List.find?_some hf
    refine ⟨d, find?_of_stronger hf ?_ ?_, rfl⟩
    · rw [latest_kill, if_neg hij]
      exact hp
    · intro x _ hx
      rw [latest_kill] at hx
      by_cases hxj : x.2 = j
      · simp [hxj] at hx
      · rwa [if_neg hxj] at hx

theorem hit_kill_none (h : hit L n r = none) : hit (kill g j L) n (killRec g j r) = none := by
  rw [← Option.not_isSome_iff_eq_none, hit_isSome] at h ⊢
  rw [killRec_node]
  rintro ⟨ds, hds, d, hd, hn, hl⟩
  refine h ⟨ds, hds, d, hd, hn, ?_⟩
  rw [latest_kill] at hl
  by_cases hdj : d.2 = j
  · simp [hdj] at hl
  · rwa [if_neg hdj] at hl

theorem scan_kill (h : scan L n S = some i) (hij : i ≠ j) :
    scan (kill g j L) n (kill g j S) = some i := by
  induction S with
  | nil => cases h
  | cons r S ih =>
    show (kill g j (r :: S)).findSome? (hit (kill g j L) n) = some i
    rw [show kill g j (r :: S) = killRec g j r :: kill g j S from rfl, List.findSome?_cons]
    rw [scan, List.findSome?_cons] at h
    cases hr : hit L n r with
    | some i' =>
      rw [hr] at h
      obtain rfl := Option.some.inj h
      rw [hit_kill_some hr hij]
    | none =>
      rw [hr] at h
      rw [hit_kill_none hr]
      exact ih h

end Kill

/-! ### Looking up one more name -/

section Snoc

variable [DecidableEq Name] [DecidableEq Ino]

theorem Listed.scan {Q : Ino → Prop} (hl : Listed Q L) (hS : ∀ r ∈ S, r ∈ L)
    (h : scan L n S = some i) : Q i := by
  obtain ⟨r, hr, hhit⟩ := List.exists_of_findSome?_eq_some h
  obtain ⟨ds, hds, hmem, -⟩ := hit_mem hhit
  exact hl r (hS r hr) ds hds _ hmem

/-- A lookup of at least one name ends at a number that some version lists. -/
theorem Listed.lookupFrom {Q : Ino → Prop} (hl : Listed Q L) (names : List Name) :
    ∀ {r s : Rec Name Ino β}, Q r.ino → VersionLog.lookupFrom L names r = some s → Q s.ino := by
  induction names with
  | nil =>
    intro r s hr h
    rw [VersionLog.lookupFrom, Option.some.injEq] at h
    exact h ▸ hr
  | cons n names ih =>
    intro r s _ h
    rw [VersionLog.lookupFrom] at h
    obtain ⟨i, hi, h⟩ := Option.bind_eq_some_iff.mp h
    obtain ⟨t, ht, h⟩ := Option.bind_eq_some_iff.mp h
    have hQ : Q i := hl.scan (fun _ => List.mem_of_mem_filter) hi
    exact ih ((mem_of_latest ht).2.2 ▸ hQ) h

theorem Listed.lookup {Q : Ino → Prop} (hl : Listed Q L) {names : List Name} (hne : names ≠ [])
    (h : lookup L root names = some r) : Q r.ino := by
  cases names with
  | nil => exact absurd rfl hne
  | cons n names =>
    rw [VersionLog.lookup] at h
    obtain ⟨i, hi, h⟩ := Option.bind_eq_some_iff.mp h
    obtain ⟨t, ht, h⟩ := Option.bind_eq_some_iff.mp h
    have hQ : Q i := hl.scan (fun _ hr => hr) hi
    exact hl.lookupFrom names ((mem_of_latest ht).2.2 ▸ hQ) h

/-- **When one more name is not found**, the version found before has no hit for it, and if that is the
root, no version has. -/
theorem lookup_snoc_none (hs : L.Pairwise fun a b => a.pos < b.pos) (hl : Listed (· ≠ root) L)
    {names : List Name} (h : lookup L root names = some r)
    (hn : lookup L root (names ++ [n]) = none) :
    hit L n r = none ∧ (r.ino = root → scan L n L = none) := by
  have hmem : r ∈ L := (mem_of_latest (latest_of_lookup h)).1
  have hmiss : ¬Stray L n (if names = [] then L else after L r.pos) := by
    rw [← lookup_snoc_isSome h, hn]
    exact Bool.false_ne_true
  have hhit : ∀ S, r ∈ S → ¬Stray L n S → hit L n r = none := by
    intro S hr hS
    rw [← scan_eq_none, scan, List.findSome?_eq_none_iff] at hS
    exact hS r hr
  by_cases hne : names = []
  · rw [if_pos hne] at hmiss
    exact ⟨hhit L hmem hmiss, fun _ => scan_eq_none.mpr hmiss⟩
  · rw [if_neg hne] at hmiss
    obtain ⟨rest, hrest⟩ := after_eq_cons hs hmem
    exact ⟨hhit _ (hrest ▸ List.mem_cons_self) hmiss, fun hr => absurd hr (hl.lookup hne h)⟩

end Snoc

/-! ### The invariant under each change -/

section Changes

variable [DecidableEq Name] [DecidableEq Ino]

theorem Good.mono (h : Good L root full stuck) (hf : full → full')
    (hs : ∀ p i, Lists (nodes L) p i → stuck p → stuck' p) : Good L root full' stuck' :=
  { h with
    tree := h.tree.mono hs
    known := fun r hr ds hds d hd => (h.known r hr ds hds d hd).imp id hf }

theorem Good.root_live (h : Good L root full stuck) : (latest L root).isSome := by
  obtain ⟨ds, hds⟩ := h.tree.root_dir
  rw [← nodes_isSome, show nodes L root = some (.dir ds) from hds]
  rfl

/-- A number that has no version is listed by no version, unless the log is full. -/
theorem Good.unknown (h : Good L root full stuck) (hfull : ¬full) (hnew : ∀ s ∈ L, s.ino ≠ k)
    (hr : r ∈ L) (hds : r.node = .dir ds) : ∀ d ∈ ds, d.2 ≠ k := by
  rintro d hd rfl
  rcases h.known r hr ds hds d hd with ⟨s, hs, hsk⟩ | hf
  · exact hnew s hs hsk
  · exact hfull hf

theorem Good.unlisted (h : Good L root full stuck) (hfull : ¬full) (hnew : ∀ s ∈ L, s.ino ≠ k) :
    ∀ q, ¬Lists (nodes L) q k := by
  rintro q ⟨ds, hq, d, hd, hdk⟩
  obtain ⟨r, hr, hnode⟩ := Option.map_eq_some_iff.mp (show (latest L q).map Rec.node = _ from hq)
  exact h.unknown hfull hnew (mem_of_latest hr).1 hnode d hd hdk

/-- **What the root lists stays first**: appended versions leave the liveness of the listed numbers as it
is, and a child of the root is either an old one or is met in the appended part only. -/
theorem rootFirst_append {E : List (Rec Name Ino β)} (h : RootFirst L root)
    (hlive : ∀ r ∈ L, ∀ ds, r.node = .dir ds → ∀ d ∈ ds,
      (latest (L ++ E) d.2).isSome = (latest L d.2).isSome)
    (hchild : ∀ m i, child (nodes (L ++ E)) root m = some i → child (nodes L) root m = some i ∨
      (scan L m L = none ∧ scan (L ++ E) m E = some i)) : RootFirst (L ++ E) root := by
  intro m i hc
  have hL : scan (L ++ E) m L = scan L m L :=
    scan_congr (fun r hr => hit_congr (fun ds hds d hd => hlive r hr ds hds d hd))
  rw [scan_append, hL]
  rcases hchild m i hc with hc | ⟨hnone, hsome⟩
  · rw [h m i hc]
    rfl
  · rw [hnone, hsome]
    rfl

/-- What older versions list is still known in a longer log. -/
theorem Good.known_append (h : Good L root full stuck) (E : List (Rec Name Ino β)) :
    Listed (fun i => (∃ s ∈ L ++ E, s.ino = i) ∨ full) L :=
  fun r hr ds hds d hd =>
    (h.known r hr ds hds d hd).imp (fun ⟨t, ht, htd⟩ => ⟨t, List.mem_append_left _ ht, htd⟩) id

theorem Good.root_ne (h : Good L root full stuck) (hnew : ∀ s ∈ L, s.ino ≠ k) : k ≠ root := by
  obtain ⟨r, rest, rfl, hr⟩ := h.first
  exact (hr ▸ hnew r List.mem_cons_self).symm

/-- **A file gets a new version.** -/
theorem Good.rewriteFile (h : Good L root full stuck) (hlive : r.live) (hnode : r.node = .file)
    (hi : nodes L r.ino = some .file) (hpos : ∀ s ∈ L, s.pos < r.pos) :
    Good (L ++ [r]) root full stuck ∧ nodes (L ++ [r]) = nodes L := by
  have hnodes : nodes (L ++ [r]) = nodes L := by
    rw [nodes_snoc hlive, hnode, ← hi, Function.update_eq_self]
  have hsome : ∀ i, (latest (L ++ [r]) i).isSome = (latest L i).isSome := by
    intro i
    rw [← nodes_isSome, hnodes, nodes_isSome]
  refine ⟨⟨sorted_append h.sorted (List.pairwise_singleton _ _) (by simpa using hpos), hnodes ▸ h.tree,
    (h.known_append [r]).append (.single (.inl hnode)), h.rootless.append (.single (.inl hnode)), ?_,
    first_append h.first⟩, hnodes⟩
  · refine rootFirst_append h.rootFirst (fun _ _ _ _ d _ => hsome d.2) (fun m i hc => .inl ?_)
    rwa [hnodes] at hc

/-- **A new number comes into use**, listed by nobody. -/
theorem Good.addFresh (h : Good L root full stuck) (hfull : ¬full) (hlive : N.live)
    (hnode : N.node = .file ∨ N.node = .dir []) (hnew : ∀ s ∈ L, s.ino ≠ N.ino)
    (hpos : ∀ s ∈ L, s.pos < N.pos) : Good (L ++ [N]) root full stuck := by
  have hnone : nodes L N.ino = none := nodes_none_of_new hnew
  have hroot : root ≠ N.ino := (h.root_ne hnew).symm
  refine ⟨sorted_append h.sorted (List.pairwise_singleton _ _) (by simpa using hpos), ?_,
    (h.known_append [N]).append (.single hnode), h.rootless.append (.single hnode), ?_, first_append h.first⟩
  · rw [nodes_snoc hlive]
    refine h.tree.addUnlisted hnode (fun ds hds => ?_)
    rw [IsDir, hnone] at hds
    cases hds
  · refine rootFirst_append h.rootFirst ?_ (fun m i hc => .inl ?_)
    · intro r hr ds hds d hd
      rw [latest_snoc hlive, if_neg (h.unknown hfull hnew hr hds d hd).symm]
    · rw [nodes_snoc hlive] at hc
      rwa [child_congr (nodes L) (Function.update_of_ne hroot _ _)] at hc
      intro ds hds d hd
      rw [Function.update_of_ne (fun hk => h.unlisted hfull hnew root ⟨ds, hds, d, hd, hk⟩)]

/-- **A number comes into use and its directory gets a version that lists it.** -/
theorem Good.create (h : Good L root full stuck) (hfull : ¬full) (hp : latest L p = some P)
    (hPds : P.node = .dir ds) (hP'live : P'.live) (hP'ino : P'.ino = p)
    (hP'ds : P'.node = .dir (ds ++ [(n, N.ino)])) (hNlive : N.live)
    (hNnode : N.node = .file ∨ N.node = .dir []) (hnew : ∀ s ∈ L, s.ino ≠ N.ino)
    (hn : ∀ d ∈ ds, d.1 ≠ n) (hroot : p = root → scan L n L = none)
    (hposP : ∀ s ∈ L, s.pos < P'.pos) (hposN : P'.pos < N.pos) :
    Good (L ++ [P', N]) root full stuck ∧
      nodes (L ++ [P', N]) = Function.update (Function.update (nodes L) p
        (some (.dir (ds ++ [(n, N.ino)])))) N.ino (some N.node) := by
  have hdir : IsDir (nodes L) p ds := by rw [IsDir, nodes_of_latest hp, hPds]
  have hnone : nodes L N.ino = none := nodes_none_of_new hnew
  have hunl := h.unlisted hfull hnew
  have hsplit : L ++ [P', N] = L ++ [P'] ++ [N] := by simp
  have hnodes : nodes (L ++ [P', N]) = Function.update (Function.update (nodes L) p
      (some (.dir (ds ++ [(n, N.ino)])))) N.ino (some N.node) := by
    rw [hsplit, nodes_snoc hNlive, nodes_snoc hP'live, hP'ino, hP'ds]
  have hNroot : root ≠ N.ino := (h.root_ne hnew).symm
  have hpN : p ≠ N.ino := by
    rintro rfl
    rw [IsDir, hnone] at hdir
    cases hdir
  -- the numbers that older versions list are as live as they were
  have hlv : ∀ r ∈ L, ∀ es, r.node = .dir es → ∀ d ∈ es,
      (latest (L ++ [P', N]) d.2).isSome = (latest L d.2).isSome := by
    intro r hr es hes d hd
    have hdN := h.unknown hfull hnew hr hes d hd
    rw [← nodes_isSome, hnodes, Function.update_of_ne hdN, ← nodes_isSome]
    by_cases hdp : d.2 = p
    · rw [hdp, Function.update_self, show nodes L p = some (.dir ds) from hdir]
      rfl
    · rw [Function.update_of_ne hdp]
  have hlisted : ∀ {Q : Ino → Prop}, (∀ d ∈ ds, Q d.2) → Q N.ino → Listed Q [P', N] := by
    intro Q hds hN s hs es hes d hd
    rcases List.mem_pair.mp hs with rfl | rfl
    · obtain rfl : ds ++ [(n, N.ino)] = es := by simpa [hP'ds] using hes
      rcases List.mem_append.mp hd with hd | hd
      · exact hds d hd
      · rwa [List.mem_singleton.mp hd]
    · exact Listed.single hNnode _ (by simp) es hes d hd
  have hPmem := (mem_of_latest hp).1
  refine ⟨⟨?_, ?_, (h.known_append _).append (hlisted (h.known_append _ P hPmem ds hPds) ?_),
    h.rootless.append (hlisted (h.rootless P hPmem ds hPds) hNroot.symm), ?_,
    first_append h.first⟩, hnodes⟩
  · refine sorted_append h.sorted (by simpa using hposN) ?_
    intro s hs e he
    rcases List.mem_pair.mp he with rfl | rfl
    · exact hposP s hs
    · exact (hposP s hs).trans hposN
  · rw [hnodes]
    exact h.tree.create hNnode hdir hn hnone hunl
  · exact .inl ⟨N, by simp, rfl⟩
  · refine rootFirst_append h.rootFirst hlv (fun m i hc => ?_)
    rw [hnodes] at hc
    by_cases hpr : p = root
    · subst hpr
      have hdir' : IsDir (Function.update (Function.update (nodes L) p
          (some (.dir (ds ++ [(n, N.ino)])))) N.ino (some N.node)) p (ds ++ [(n, N.ino)]) := by
        rw [isDir_update_ne hpN, isDir_update_same]
      by_cases hmn : m = n
      · subst hmn
        have hP' : hit (L ++ [P', N]) m P' = some i := by
          refine hit_of_child (i := p) ?_ (hnodes ▸ hc)
          rw [hsplit, latest_snoc hNlive, if_neg hpN.symm, latest_snoc hP'live, if_pos hP'ino]
        refine .inr ⟨hroot rfl, ?_⟩
        rw [scan, List.findSome?_cons, hP']
      · rw [child_of_dir hdir', List.find?_append, List.find?_singleton,
          decide_eq_false (Ne.symm hmn), if_neg Bool.false_ne_true, Option.or_none] at hc
        rw [child_of_dir hdir]
        left
        cases hf : ds.find? (fun d => decide (d.1 = m)) with
        | none => rw [hf] at hc; cases hc
        | some d =>
          have hd := List.mem_of_find?_eq_some hf
          have hdN := h.unknown hfull hnew (mem_of_latest hp).1 hPds d hd
          have hdp : d.2 ≠ p := fun hdp => h.tree.root_unlisted p ⟨ds, hdir, d, hd, hdp⟩
          rw [hf, Option.bind_some, Function.update_of_ne hdN, Function.update_of_ne hdp] at hc
          rwa [Option.bind_some]
    · left
      rwa [child_congr (nodes L)] at hc
      · rw [Function.update_of_ne hNroot, Function.update_of_ne (Ne.symm hpr)]
      · intro es hes d hd
        rw [Function.update_of_ne (fun hk => hunl root ⟨es, hes, d, hd, hk⟩)]
        exact isSome_update hdir

/-- **A directory gets a version that lists a number which never comes into use.** -/
theorem Good.addDead (h : Good L root full stuck) (hfull : ¬full) (hp : latest L p = some P)
    (hPds : P.node = .dir ds) (hP'live : P'.live) (hP'ino : P'.ino = p)
    (hP'ds : P'.node = .dir (ds ++ [(n, k)])) (hnew : ∀ s ∈ L, s.ino ≠ k)
    (hn : ∀ d ∈ ds, d.1 ≠ n) (hpos : ∀ s ∈ L, s.pos < P'.pos) (hfull' : full') :
    Good (L ++ [P']) root full' (fun i => stuck i ∨ i = p) := by
  have hdir : IsDir (nodes L) p ds := by rw [IsDir, nodes_of_latest hp, hPds]
  have hnone : nodes L k = none := nodes_none_of_new hnew
  have hnodes : nodes (L ++ [P']) =
      Function.update (nodes L) p (some (.dir (ds ++ [(n, k)]))) := by
    rw [nodes_snoc hP'live, hP'ino, hP'ds]
  have hkroot : k ≠ root := h.root_ne hnew
  have hkp : k ≠ p := by
    rintro rfl
    rw [IsDir, hnone] at hdir
    cases hdir
  refine ⟨sorted_append h.sorted (List.pairwise_singleton _ _) (by simpa using hpos), ?_,
    fun _ _ _ _ _ _ => .inr hfull', h.rootless.append ?_, ?_, first_append h.first⟩
  · rw [hnodes]
    exact h.tree.addName hdir hn (h.unlisted hfull hnew) hkroot (fun _ => .inl) (.inr (.inr rfl))
  · intro s hs es hes d hd
    obtain rfl : ds ++ [(n, k)] = es := by simpa [List.mem_singleton.mp hs, hP'ds] using hes
    rcases List.mem_append.mp hd with hd | hd
    · exact h.rootless P (mem_of_latest hp).1 ds hPds d hd
    · rwa [List.mem_singleton.mp hd]
  · refine rootFirst_append h.rootFirst ?_ (fun m i hc => .inl ?_)
    · intro r _ es _ d _
      rw [← nodes_isSome, hnodes, isSome_update hdir, nodes_isSome]
    rw [hnodes] at hc
    by_cases hpr : p = root
    · subst hpr
      rw [child_of_dir (isDir_update_same.mpr rfl), List.find?_append] at hc
      rw [child_of_dir hdir]
      cases hf : ds.find? (fun d => decide (d.1 = m)) with
      | none =>
        -- only the added name is left, and its number is not in use
        rw [hf, Option.none_or, List.find?_singleton] at hc
        split at hc
        · rw [Option.bind_some, Function.update_of_ne hkp, hnone] at hc
          cases hc
        · cases hc
      | some d =>
        rw [hf, Option.some_or, Option.bind_some, isSome_update hdir] at hc
        rwa [Option.bind_some]
    · rwa [child_congr (nodes L) (Function.update_of_ne (Ne.symm hpr) _ _)] at hc
      exact fun es _ d _ => isSome_update hdir

/-- **A file goes out of use**; the directory that lists it must be stuck. -/
theorem Good.kill (h : Good L root full stuck) (hj : nodes L j = some .file)
    (hp : Lists (nodes L) p j) : Good (kill g j L) root full (fun i => stuck i ∨ i = p) := by
  refine ⟨kill_sorted h.sorted, ?_, ?_, ?_, ?_, ?_⟩
  · rw [nodes_kill]
    exact h.tree.kill hj (fun _ => .inl) fun q hq => .inr (h.tree.one_parent q p j hq hp)
  · intro r hr ds hds d hd
    obtain ⟨t, ht, rfl⟩ := List.mem_map.mp hr
    rw [killRec_node] at hds
    refine (h.known t ht ds hds d hd).imp ?_ id
    rintro ⟨t, ht, htd⟩
    exact ⟨killRec g j t, List.mem_map.mpr ⟨t, ht, rfl⟩, killRec_ino.trans htd⟩
  · intro r hr ds hds
    obtain ⟨t, ht, rfl⟩ := List.mem_map.mp hr
    rw [killRec_node] at hds
    exact h.rootless t ht ds hds
  · intro n i hc
    rw [nodes_kill] at hc
    have hroot : root ≠ j := by
      rintro rfl
      obtain ⟨ds, hds⟩ := h.tree.root_dir
      rw [IsDir, hj] at hds
      cases hds
    obtain ⟨ds, hds, hmem, hlive⟩ := child_eq_some hc
    rw [isDir_update_ne hroot] at hds
    have hij : i ≠ j := by
      rintro rfl
      rw [Function.update_self] at hlive
      cases hlive
    rw [Function.update_of_ne hij] at hlive
    exact scan_kill (h.rootFirst n i (child_of_mem hds (h.tree.names _ ds hds) hmem hlive)) hij
  · obtain ⟨r, rest, rfl, hr⟩ := h.first
    exact ⟨killRec g j r, VersionLog.kill g j rest, rfl, killRec_ino.trans hr⟩

/-- **A directory gets a version without some of its names**, and the namespace is a tree then. -/
theorem Good.dropNames (h : Good L root full stuck) (hp : latest L p = some P)
    (hPds : P.node = .dir ds) (hP'live : P'.live) (hP'ino : P'.ino = p) {q : Name × Ino → Bool}
    (hP'ds : P'.node = .dir (ds.filter q)) (hpos : ∀ s ∈ L, s.pos < P'.pos)
    (htree : Tree (nodes (L ++ [P'])) root stuck') : Good (L ++ [P']) root full stuck' := by
  have hdir : IsDir (nodes L) p ds := by rw [IsDir, nodes_of_latest hp, hPds]
  have hnodes : nodes (L ++ [P']) = Function.update (nodes L) p (some (.dir (ds.filter q))) := by
    rw [nodes_snoc hP'live, hP'ino, hP'ds]
  have hlisted : ∀ {Q : Ino → Prop}, (∀ d ∈ ds, Q d.2) → Listed Q [P'] := by
    intro Q hQ s hs es hes d hd
    obtain rfl : ds.filter q = es := by simpa [List.mem_singleton.mp hs, hP'ds] using hes
    exact hQ d (List.mem_of_mem_filter hd)
  have hPmem := (mem_of_latest hp).1
  refine ⟨sorted_append h.sorted (List.pairwise_singleton _ _) (by simpa using hpos), htree,
    (h.known_append _).append (hlisted (h.known_append _ P hPmem ds hPds)),
    h.rootless.append (hlisted (h.rootless P hPmem ds hPds)), ?_, first_append h.first⟩
  · refine rootFirst_append h.rootFirst ?_ (fun m i hc => .inl ?_)
    · intro r _ es _ d _
      rw [← nodes_isSome, hnodes, isSome_update hdir, nodes_isSome]
    rw [hnodes] at hc
    by_cases hpr : p = root
    · subst hpr
      obtain ⟨es, hes, hmem, hlive⟩ := child_eq_some hc
      rw [isSome_update hdir] at hlive
      obtain rfl : ds.filter q = es := by simpa using isDir_update_same.mp hes
      exact child_of_mem hdir (h.tree.names p ds hdir) (List.mem_of_mem_filter hmem) hlive
    · rwa [child_congr (nodes L) (Function.update_of_ne (Ne.symm hpr) _ _)] at hc
      exact fun es _ d _ => isSome_update hdir

/-- **A file is removed**: it goes out of use and its directory gets a version that does not list it. -/
theorem Good.remove (h : Good L root full stuck) (hp : latest L p = some P)
    (hPds : P.node = .dir ds) (hj : nodes L j = some .file) (hmem : ∃ d ∈ ds, d.2 = j)
    (hP'live : P'.live) (hP'ino : P'.ino = p) (hP'ds : P'.node = .dir (ds.filter fun d => d.2 ≠ j))
    (hpos : ∀ s ∈ L, s.pos < P'.pos) :
    Good (VersionLog.kill g j L ++ [P']) root full stuck ∧
      nodes (VersionLog.kill g j L ++ [P']) = Function.update (Function.update (nodes L) p
        (some (.dir (ds.filter fun d => d.2 ≠ j)))) j none := by
  have hdir : IsDir (nodes L) p ds := by rw [IsDir, nodes_of_latest hp, hPds]
  have hpj : p ≠ j := by
    rintro rfl
    rw [IsDir, hj] at hdir
    cases hdir
  have hnodes : nodes (VersionLog.kill g j L ++ [P']) = Function.update (Function.update (nodes L) p
      (some (.dir (ds.filter fun d => d.2 ≠ j)))) j none := by
    rw [nodes_snoc hP'live, hP'ino, hP'ds, nodes_kill, Function.update_comm hpj]
  -- in between, the directory still lists the dead number
  have hkill : Good (VersionLog.kill g j L) root full (fun i => stuck i ∨ i = p) :=
    h.kill hj ⟨ds, hdir, hmem⟩
  refine ⟨hkill.dropNames ?_ hPds hP'live hP'ino hP'ds ?_ ?_, hnodes⟩
  · rw [latest_kill, if_neg hpj, hp]
  · intro s hs
    obtain ⟨t, ht, rfl⟩ := List.mem_map.mp hs
    rw [killRec_pos]
    exact hpos t ht
  · rw [hnodes]
    exact h.tree.remove hdir hj hmem

end Changes

end OperatingSystems.VersionLog
