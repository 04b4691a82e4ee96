import Mathlib

/-!
# A namespace of numbered nodes

The abstract picture of a hierarchical file system: every number stands for nothing, for a file, or for
a directory that lists names with numbers.  `walk` resolves a list of names from a node.

`Tree` says that the directories form a tree of names: the root is a directory that nobody lists, no
directory lists a name or a number twice, no number is listed by two directories, and every listed
number stands for something.  The last point has exceptions: a directory may be `stuck` with a dead name
when nothing can be added to it any more.

Each operation on a namespace has its lemma: `Tree.create`, `Tree.addName`, `Tree.addUnlisted`,
`Tree.remove` and `Tree.kill`.
-/

namespace OperatingSystems.Namespace

variable {Name Ino : Type*}

/-- What a number stands for. -/
inductive Node (Name Ino : Type*)
  | file
  | dir (dents : List (Name × Ino))

/-- The node of each number, `none` for a number not in use. -/
abbrev Nodes (Name Ino : Type*) := Ino → Option (Node Name Ino)

/-- Number `i` stands for a directory that lists `ds`. -/
def IsDir (ns : Nodes Name Ino) (i : Ino) (ds : List (Name × Ino)) : Prop := ns i = some (.dir ds)

/-- Directory `p` lists number `i`. -/
def Lists (ns : Nodes Name Ino) (p i : Ino) : Prop := ∃ ds, IsDir ns p ds ∧ ∃ d ∈ ds, d.2 = i

section Walk

variable [DecidableEq Name]

/-- The node that directory `i` lists under `n`, when it is in use. -/
def child (ns : Nodes Name Ino) (i : Ino) (n : Name) : Option Ino :=
  match ns i with
  | some (.dir ds) =>
    (ds.find? fun d => d.1 = n).bind fun d => if (ns d.2).isSome then some d.2 else none
  | _ => none

/-- Resolve names one after the other from node `i`. -/
def walk (ns : Nodes Name Ino) : List Name → Ino → Option Ino
  | [], i => some i
  | n :: names, i => (child ns i n).bind (walk ns names)

theorem child_of_dir {ns : Nodes Name Ino} {i : Ino} {n : Name} {ds : List (Name × Ino)}
    (h : IsDir ns i ds) : child ns i n =
      (ds.find? fun d => d.1 = n).bind fun d => if (ns d.2).isSome then some d.2 else none := by
  rw [child, show ns i = some (.dir ds) from h]

/-- The children of a directory depend on its own node and on which of the listed numbers are in use. -/
theorem child_congr (ns : Nodes Name Ino) {ns' : Nodes Name Ino} {i : Ino} {n : Name} (hi : ns' i = ns i)
    (hlive : ∀ ds, IsDir ns i ds → ∀ d ∈ ds, (ns' d.2).isSome = (ns d.2).isSome) :
    child ns' i n = child ns i n := by
  unfold child
  rw [hi]
  rcases hn : ns i with _ | _ | ds
  · rfl
  · rfl
  · simp only
    cases hf : ds.find? (fun d => decide (d.1 = n)) with
    | none => rfl
    | some d => rw [Option.bind_some, Option.bind_some, hlive ds hn d (List.mem_of_find?_eq_some hf)]

theorem child_eq_some {ns : Nodes Name Ino} {i j : Ino} {n : Name} (h : child ns i n = some j) :
    ∃ ds, IsDir ns i ds ∧ (n, j) ∈ ds ∧ (ns j).isSome := by
  unfold child at h
  split at h
  · rename_i ds hi
    cases hf : ds.find? (fun d => decide (d.1 = n)) with
    | none => simp [hf] at h
    | some d =>
      have hmem := List.mem_of_find?_eq_some hf
      have hname : d.1 = n := by simpa using List.find?_some hf
      simp only [hf, Option.bind_some, Option.ite_none_right_eq_some, Option.some.injEq] at h
      obtain ⟨hlive, rfl⟩ := h
      exact ⟨ds, hi, by rw [← hname]; exact hmem, hlive⟩
  · cases h

/-- With distinct names a listed live number is the child of its name. -/
theorem child_of_mem {ns : Nodes Name Ino} {i j : Ino} {n : Name} {ds : List (Name × Ino)}
    (hi : IsDir ns i ds) (hnames : (ds.map Prod.fst).Nodup) (hmem : (n, j) ∈ ds)
    (hj : (ns j).isSome) : child ns i n = some j := by
  have hf : ds.find? (fun d => decide (d.1 = n)) = some (n, j) := by
    clear hi
    induction ds with
    | nil => simp at hmem
    | cons d ds ih =>
      rw [List.map_cons, List.nodup_cons] at hnames
      rcases List.mem_cons.mp hmem with rfl | hmem
      · simp
      · have hne : d.1 ≠ n := by
          rintro rfl
          exact hnames.1 (List.mem_map.mpr ⟨_, hmem, rfl⟩)
        rw [List.find?_cons_of_neg (by simpa using hne)]
        exact ih hnames.2 hmem
  simp only [child, show ns i = some (.dir ds) from hi, hf, Option.bind_some, if_pos hj]

end Walk

/-! ### Trees of names -/

/-- The directories of `ns` form a tree below `root`, up to dead names in `stuck` directories. -/
structure Tree (ns : Nodes Name Ino) (root : Ino) (stuck : Ino → Prop) : Prop where
  root_dir : ∃ ds, IsDir ns root ds
  root_unlisted : ∀ p, ¬Lists ns p root
  names : ∀ p ds, IsDir ns p ds → (ds.map Prod.fst).Nodup
  numbers : ∀ p ds, IsDir ns p ds → (ds.map Prod.snd).Nodup
  one_parent : ∀ p q i, Lists ns p i → Lists ns q i → p = q
  live : ∀ p i, Lists ns p i → (ns i).isSome ∨ stuck p

/-- Every node in use but the root is listed by some directory. -/
def AllListed (ns : Nodes Name Ino) (root : Ino) : Prop :=
  ∀ i, i ≠ root → (ns i).isSome → ∃ p, Lists ns p i

variable {ns : Nodes Name Ino} {root p j : Ino} {stuck stuck' : Ino → Prop}

theorem Lists.isSome {i : Ino} (h : Lists ns p i) : (ns p).isSome := by
  obtain ⟨ds, hp, -⟩ := h
  rw [show ns p = some (.dir ds) from hp]
  rfl

/-- More directories may be stuck; only those that list something matter. -/
theorem Tree.mono (h : Tree ns root stuck) (hs : ∀ p i, Lists ns p i → stuck p → stuck' p) :
    Tree ns root stuck' :=
  { h with live := fun p i hl => (h.live p i hl).imp id (hs p i hl) }

section Update

variable [DecidableEq Ino]

theorem isDir_update_same {i : Ino} {nd : Option (Node Name Ino)} {ds : List (Name × Ino)} :
    IsDir (Function.update ns i nd) i ds ↔ nd = some (.dir ds) := by
  rw [IsDir, Function.update_self]

theorem isDir_update_ne {i q : Ino} {nd : Option (Node Name Ino)} {ds : List (Name × Ino)}
    (h : q ≠ i) : IsDir (Function.update ns i nd) q ds ↔ IsDir ns q ds := by
  rw [IsDir, IsDir, Function.update_of_ne h]

/-- A directory that gets a new list keeps the same numbers in use. -/
theorem isSome_update {i q : Ino} {nd : Node Name Ino} {ds : List (Name × Ino)} (h : IsDir ns i ds) :
    (Function.update ns i (some nd) q).isSome = (ns q).isSome := by
  by_cases hq : q = i
  · subst hq
    rw [Function.update_self, show ns q = some (.dir ds) from h]
    rfl
  · rw [Function.update_of_ne hq]

/-- Listing after one node has been replaced. -/
theorem lists_update {i q k : Ino} {nd : Option (Node Name Ino)} :
    Lists (Function.update ns i nd) q k ↔
      (q = i ∧ ∃ ds, nd = some (.dir ds) ∧ ∃ d ∈ ds, d.2 = k) ∨ (q ≠ i ∧ Lists ns q k) := by
  by_cases h : q = i
  · subst h
    simp [Lists, isDir_update_same]
  · simp [Lists, isDir_update_ne h, h]

/-- **A node that lists nothing comes into use unlisted** (also as the new meaning of a file). -/
theorem Tree.addUnlisted (h : Tree ns root stuck) {i : Ino} {nd : Node Name Ino}
    (hnd : nd = .file ∨ nd = .dir []) (hi : ∀ ds, ¬IsDir ns i ds) :
    Tree (Function.update ns i (some nd)) root stuck := by
  have hroot : root ≠ i := by
    rintro rfl
    exact h.root_dir.elim hi
  have hempty : ∀ ds, some nd = some (.dir ds) → ds = [] := by
    rintro ds hds
    rcases hnd with rfl | rfl
    · simp at hds
    · simpa using hds.symm
  have hlists : ∀ q k, Lists (Function.update ns i (some nd)) q k → Lists ns q k := by
    intro q k hl
    rcases lists_update.mp hl with ⟨-, ds, hds, d, hd, -⟩ | ⟨-, hl⟩
    · rw [hempty ds hds] at hd
      simp at hd
    · exact hl
  refine ⟨?_, fun q hl => h.root_unlisted q (hlists q root hl), ?_, ?_,
    fun q r k hq hr => h.one_parent q r k (hlists q k hq) (hlists r k hr), ?_⟩
  · obtain ⟨ds, hds⟩ := h.root_dir
    exact ⟨ds, (isDir_update_ne hroot).mpr hds⟩
  · intro q ds hq
    by_cases hqi : q = i
    · subst hqi
      rw [hempty ds (isDir_update_same.mp hq)]
      simp
    · exact h.names q ds ((isDir_update_ne hqi).mp hq)
  · intro q ds hq
    by_cases hqi : q = i
    · subst hqi
      rw [hempty ds (isDir_update_same.mp hq)]
      simp
    · exact h.numbers q ds ((isDir_update_ne hqi).mp hq)
  · intro q k hl
    refine (h.live q k (hlists q k hl)).imp (fun hk => ?_) id
    by_cases hki : k = i
    · rw [hki, Function.update_self]
      rfl
    · rwa [Function.update_of_ne hki]

/-- **A name is added for a number that no directory lists**; its directory may be left stuck with it. -/
theorem Tree.addName (h : Tree ns root stuck) {ds : List (Name × Ino)} {n : Name} {k : Ino}
    (hp : IsDir ns p ds) (hn : ∀ d ∈ ds, d.1 ≠ n) (hk : ∀ q, ¬Lists ns q k) (hroot : k ≠ root)
    (hs : ∀ i, stuck i → stuck' i) (hlive : (ns k).isSome ∨ stuck' p) :
    Tree (Function.update ns p (some (.dir (ds ++ [(n, k)])))) root stuck' := by
  have hlists : ∀ q i, Lists (Function.update ns p (some (.dir (ds ++ [(n, k)])))) q i →
      Lists ns q i ∨ (q = p ∧ i = k) := by
    intro q i hl
    rcases lists_update.mp hl with ⟨rfl, es, hes, d, hd, rfl⟩ | ⟨-, hl⟩
    · obtain rfl : ds ++ [(n, k)] = es := by simpa using hes
      rcases List.mem_append.mp hd with hd | hd
      · exact .inl ⟨ds, hp, d, hd, rfl⟩
      · rw [List.mem_singleton.mp hd]
        exact .inr ⟨rfl, rfl⟩
    · exact .inl hl
  have hkeep : ∀ i, (ns i).isSome → (Function.update ns p (some (.dir (ds ++ [(n, k)]))) i).isSome := by
    intro i hi
    by_cases hip : i = p
    · rw [hip, Function.update_self]
      rfl
    · rwa [Function.update_of_ne hip]
  refine ⟨?_, ?_, ?_, ?_, ?_, ?_⟩
  · by_cases hrp : root = p
    · exact ⟨_, by rw [hrp]; exact isDir_update_same.mpr rfl⟩
    · obtain ⟨es, hes⟩ := h.root_dir
      exact ⟨es, (isDir_update_ne hrp).mpr hes⟩
  · intro q hl
    rcases hlists q root hl with hl | ⟨-, hl⟩
    · exact h.root_unlisted q hl
    · exact hroot hl.symm
  · intro q es hq
    by_cases hqp : q = p
    · subst hqp
      obtain rfl : ds ++ [(n, k)] = es := by simpa using isDir_update_same.mp hq
      rw [List.map_append, List.nodup_append]
      refine ⟨h.names _ ds hp, by simp, ?_⟩
      intro a ha b hb
      obtain ⟨d, hd, rfl⟩ := List.mem_map.mp ha
      rw [List.map_singleton, List.mem_singleton] at hb
      rw [hb]
      exact hn d hd
    · exact h.names q es ((isDir_update_ne hqp).mp hq)
  · intro q es hq
    by_cases hqp : q = p
    · subst hqp
      obtain rfl : ds ++ [(n, k)] = es := by simpa using isDir_update_same.mp hq
      rw [List.map_append, List.nodup_append]
      refine ⟨h.numbers _ ds hp, by simp, ?_⟩
      intro a ha b hb
      obtain ⟨d, hd, rfl⟩ := List.mem_map.mp ha
      rw [List.map_singleton, List.mem_singleton] at hb
      rw [hb]
      rintro hdk
      exact hk _ ⟨ds, hp, d, hd, hdk⟩
    · exact h.numbers q es ((isDir_update_ne hqp).mp hq)
  · intro q r i hq hr
    rcases hlists q i hq with hq | ⟨rfl, rfl⟩ <;> rcases hlists r i hr with hr | ⟨hrp, hrk⟩
    · exact h.one_parent q r i hq hr
    · exact absurd hq (hrk ▸ hk q)
    · exact absurd hr (hk r)
    · exact hrp.symm
  · intro q i hl
    rcases hlists q i hl with hl | ⟨rfl, rfl⟩
    · exact (h.live q i hl).imp (hkeep i) (hs q)
    · exact hlive.imp (hkeep _) id

/-- **Creating a node**: a fresh number comes into use and is listed by directory `p`. -/
theorem Tree.create (h : Tree ns root stuck) {ds : List (Name × Ino)} {n : Name} {k : Ino}
    {nd : Node Name Ino} (hnd : nd = .file ∨ nd = .dir []) (hp : IsDir ns p ds)
    (hn : ∀ d ∈ ds, d.1 ≠ n) (hfresh : ns k = none) (hk : ∀ q, ¬Lists ns q k) :
    Tree (Function.update (Function.update ns p (some (.dir (ds ++ [(n, k)])))) k (some nd))
      root stuck := by
  have hpk : p ≠ k := by
    rintro rfl
    rw [IsDir, hfresh] at hp
    cases hp
  have hroot : k ≠ root := by
    rintro rfl
    obtain ⟨es, hes⟩ := h.root_dir
    rw [IsDir, hfresh] at hes
    cases hes
  have hkdir : ∀ es, ¬IsDir ns k es := by
    intro es hes
    rw [IsDir, hfresh] at hes
    cases hes
  rw [Function.update_comm hpk]
  have hadd := h.addUnlisted hnd hkdir
  have hlists : ∀ q, ¬Lists (Function.update ns k (some nd)) q k := by
    intro q hl
    rcases lists_update.mp hl with ⟨-, es, hes, d, hd, -⟩ | ⟨-, hl⟩
    · rcases hnd with rfl | rfl
      · simp at hes
      · obtain rfl : es = [] := by simpa using hes.symm
        simp at hd
    · exact hk q hl
  exact hadd.addName ((isDir_update_ne hpk).mpr hp) hn hlists hroot (fun _ hi => hi)
    (.inl (by rw [Function.update_self]; rfl))

/-- **A listed file goes out of use while its name stays**: its directory must be stuck. -/
theorem Tree.kill (h : Tree ns root stuck) (hj : ns j = some .file) (hs : ∀ i, stuck i → stuck' i)
    (hp : ∀ q, Lists ns q j → stuck' q) : Tree (Function.update ns j none) root stuck' := by
  have hlists : ∀ q i, Lists (Function.update ns j none) q i → Lists ns q i := by
    intro q i hl
    rcases lists_update.mp hl with ⟨-, ds, hds, -⟩ | ⟨-, hl⟩
    · cases hds
    · exact hl
  have hdir : ∀ q ds, IsDir (Function.update ns j none) q ds → IsDir ns q ds := by
    intro q ds hq
    by_cases hqj : q = j
    · subst hqj
      cases isDir_update_same.mp hq
    · exact (isDir_update_ne hqj).mp hq
  refine ⟨?_, fun q hl => h.root_unlisted q (hlists q root hl),
    fun q ds hq => h.names q ds (hdir q ds hq), fun q ds hq => h.numbers q ds (hdir q ds hq),
    fun q r i hq hr => h.one_parent q r i (hlists q i hq) (hlists r i hr), ?_⟩
  · obtain ⟨ds, hds⟩ := h.root_dir
    have hrj : root ≠ j := by
      rintro rfl
      rw [IsDir, hj] at hds
      cases hds
    exact ⟨ds, (isDir_update_ne hrj).mpr hds⟩
  · intro q i hl
    have hl := hlists q i hl
    by_cases hij : i = j
    · exact .inr (hp q (hij ▸ hl))
    · refine (h.live q i hl).imp (fun hi => ?_) (hs q)
      rwa [Function.update_of_ne hij]

/-- **Removing a file**: it goes out of use and its directory lists it no more. -/
theorem Tree.remove (h : Tree ns root stuck) {ds : List (Name × Ino)} (hp : IsDir ns p ds)
    (hj : ns j = some .file) (hmem : ∃ d ∈ ds, d.2 = j) :
    Tree (Function.update (Function.update ns p (some (.dir (ds.filter fun d => d.2 ≠ j)))) j none)
      root stuck := by
  have hpj : p ≠ j := by
    rintro rfl
    rw [IsDir, hj] at hp
    cases hp
  -- first the directory forgets the name, then the unlisted file goes out of use
  have hlists : ∀ q i, Lists (Function.update ns p (some (.dir (ds.filter fun d => d.2 ≠ j)))) q i →
      Lists ns q i ∧ i ≠ j := by
    intro q i hl
    rcases lists_update.mp hl with ⟨rfl, es, hes, d, hd, rfl⟩ | ⟨hqp, hl⟩
    · obtain rfl : ds.filter (fun d => d.2 ≠ j) = es := by simpa using hes
      obtain ⟨hd, hne⟩ := List.mem_filter.mp hd
      exact ⟨⟨ds, hp, d, hd, rfl⟩, by simpa using hne⟩
    · exact ⟨hl, fun hij => hqp (h.one_parent q p i hl ⟨ds, hp, hij ▸ hmem⟩)⟩
  have hdir : ∀ q es, IsDir (Function.update ns p (some (.dir (ds.filter fun d => d.2 ≠ j)))) q es →
      ∃ es', IsDir ns q es' ∧ es.Sublist es' := by
    intro q es hq
    by_cases hqp : q = p
    · subst hqp
      obtain rfl : ds.filter (fun d => d.2 ≠ j) = es := by simpa using isDir_update_same.mp hq
      exact ⟨ds, hp, List.filter_sublist⟩
    · exact ⟨es, (isDir_update_ne hqp).mp hq, List.Sublist.refl _⟩
  have hforget : Tree (Function.update ns p (some (.dir (ds.filter fun d => d.2 ≠ j)))) root stuck := by
    refine ⟨?_, fun q hl => h.root_unlisted q (hlists q root hl).1, ?_, ?_,
      fun q r i hq hr => h.one_parent q r i (hlists q i hq).1 (hlists r i hr).1, ?_⟩
    · by_cases hrp : root = p
      · exact ⟨_, by rw [hrp]; exact isDir_update_same.mpr rfl⟩
      · obtain ⟨es, hes⟩ := h.root_dir
        exact ⟨es, (isDir_update_ne hrp).mpr hes⟩
    · intro q es hq
      obtain ⟨es', hq', hsub⟩ := hdir q es hq
      exact (h.names q es' hq').sublist (hsub.map _)
    · intro q es hq
      obtain ⟨es', hq', hsub⟩ := hdir q es hq
      exact (h.numbers q es' hq').sublist (hsub.map _)
    · intro q i hl
      refine (h.live q i (hlists q i hl).1).imp (fun hi => ?_) id
      by_cases hip : i = p
      · rw [hip, Function.update_self]
        rfl
      · rwa [Function.update_of_ne hip]
  exact hforget.kill (by rw [Function.update_of_ne hpj.symm]; exact hj) (fun _ hi => hi)
    (fun q hl => absurd rfl (hlists q j hl).2)

/-! ### Nothing in use goes unlisted -/

theorem AllListed.create (h : AllListed ns root) {ds : List (Name × Ino)} {n : Name} {k : Ino}
    {nd : Node Name Ino} (hp : IsDir ns p ds) (hfresh : ns k = none) :
    AllListed (Function.update (Function.update ns p (some (.dir (ds ++ [(n, k)])))) k (some nd))
      root := by
  have hpk : p ≠ k := by
    rintro rfl
    rw [IsDir, hfresh] at hp
    cases hp
  have hnew : ∀ i, (∃ d ∈ ds ++ [(n, k)], d.2 = i) →
      Lists (Function.update (Function.update ns p (some (.dir (ds ++ [(n, k)])))) k (some nd)) p i :=
    fun i hd => lists_update.mpr (.inr ⟨hpk, lists_update.mpr (.inl ⟨rfl, _, rfl, hd⟩)⟩)
  intro i hir hi
  by_cases hik : i = k
  · exact ⟨p, hnew i ⟨(n, k), by simp, hik.symm⟩⟩
  rw [Function.update_of_ne hik] at hi
  have hold : (ns i).isSome := by
    by_cases hip : i = p
    · rw [hip, show ns p = some (.dir ds) from hp]
      rfl
    · rwa [Function.update_of_ne hip] at hi
  obtain ⟨q, hq⟩ := h i hir hold
  by_cases hqp : q = p
  · obtain ⟨es, hes, d, hd, rfl⟩ := hqp ▸ hq
    obtain rfl : ds = es := by simpa using hp.symm.trans hes
    exact ⟨p, hnew d.2 ⟨d, List.mem_append_left _ hd, rfl⟩⟩
  · have hqk : q ≠ k := by
      rintro rfl
      have := hq.isSome
      rw [hfresh] at this
      cases this
    exact ⟨q, lists_update.mpr (.inr ⟨hqk, lists_update.mpr (.inr ⟨hqp, hq⟩)⟩)⟩

theorem AllListed.remove (h : AllListed ns root) {ds : List (Name × Ino)} (hp : IsDir ns p ds)
    (hj : ns j = some .file) :
    AllListed (Function.update (Function.update ns p
      (some (.dir (ds.filter fun d => d.2 ≠ j)))) j none) root := by
  have hpj : p ≠ j := by
    rintro rfl
    rw [IsDir, hj] at hp
    cases hp
  intro i hir hi
  have hij : i ≠ j := by
    rintro rfl
    rw [Function.update_self] at hi
    cases hi
  rw [Function.update_of_ne hij] at hi
  have hold : (ns i).isSome := by
    by_cases hip : i = p
    · rw [hip, show ns p = some (.dir ds) from hp]
      rfl
    · rwa [Function.update_of_ne hip] at hi
  obtain ⟨q, hq⟩ := h i hir hold
  have hqj : q ≠ j := by
    rintro rfl
    obtain ⟨es, hes, -⟩ := hq
    rw [IsDir, hj] at hes
    cases hes
  refine ⟨q, lists_update.mpr (.inr ⟨hqj, lists_update.mpr ?_⟩)⟩
  by_cases hqp : q = p
  · obtain ⟨es, hes, d, hd, rfl⟩ := hqp ▸ hq
    obtain rfl : ds = es := by simpa using hp.symm.trans hes
    exact .inl ⟨hqp, _, rfl, d, List.mem_filter.mpr ⟨hd, by simpa using hij⟩, rfl⟩
  · exact .inr ⟨hqp, hq⟩

end Update

end OperatingSystems.Namespace
