import OperatingSystems.Lib.VersionChanges

/-!
# Lookups after one node has been rewritten

A log `L` becomes `L'`, in which one number `p` has a new last version `P'` behind all versions of `L`.
A scan that stands on the old version goes on from the new one, so what the old version has not listed
itself is out of its reach from then on.

* **`Rewrite.lookup`** — a lookup leads to the same number as before if each time it passes `p` on its way,
  the version of `p` lists the next name.
* **`Rewrite.lookup_none`** — it leads nowhere if at some point it does not.
-/

namespace OperatingSystems.VersionLog

open OperatingSystems.Namespace

variable {Name Ino β : Type*} [DecidableEq Name] [DecidableEq Ino]

/-- `p` gets the version `P'` for `P`, and for the numbers that meet `Q` scans and last versions stay. -/
structure Rewrite (L L' : List (Rec Name Ino β)) (Q : Ino → Prop) (p : Ino) (P P' : Rec Name Ino β) :
    Prop where
  old : latest L p = some P
  new : latest L' p = some P'
  first : ∀ n i, Q i → scan L n L = some i → scan L' n L' = some i
  forward : ∀ r ∈ L, ∀ n i, Q i → scan L n (after L r.pos) = some i → scan L' n (after L' r.pos) = some i
  same : ∀ i, Q i → i ≠ p → latest L' i = latest L i
  listed : ∀ n i, Q i → hit L n P = some i → scan L' n (after L' P'.pos) = some i

variable {L L' : List (Rec Name Ino β)} {Q : Ino → Prop} {p root : Ino} {P P' s : Rec Name Ino β}

/-- Every number that a lookup of a non-empty part of the names leads to meets `Q`. -/
def Within (L : List (Rec Name Ino β)) (root : Ino) (Q : Ino → Prop) (names : List Name) : Prop :=
  ∀ xs ys d, names = xs ++ ys → xs ≠ [] → lookup L root xs = some d → Q d.ino

/-- Each time a lookup passes `p`, the last version of `p` lists the next name. -/
def Passes (L : List (Rec Name Ino β)) (root p : Ino) (names : List Name) : Prop :=
  ∀ xs y ys d, names = xs ++ y :: ys → xs ≠ [] → lookup L root xs = some d → d.ino = p → (hit L y d).isSome

theorem Within.front {xs ys : List Name} (h : Within L root Q (xs ++ ys)) : Within L root Q xs := by
  intro as bs d heq hne hd
  exact h as (bs ++ ys) d (by rw [heq, List.append_assoc]) hne hd

theorem Passes.front {xs ys : List Name} (h : Passes L root p (xs ++ ys)) : Passes L root p xs := by
  intro as y bs d heq hne hd
  exact h as y (bs ++ ys) d (by rw [heq, List.append_assoc, List.cons_append]) hne hd

/-- A lookup of one name is a scan. -/
theorem lookup_one {n : Name} : lookup L root [n] = (scan L n L).bind (latest L) := by
  simp only [lookup, lookupFrom, Option.bind_fun_some]

theorem lookupFrom_one {n : Name} {r : Rec Name Ino β} :
    lookupFrom L [n] r = (scan L n (after L r.pos)).bind (latest L) := by
  simp only [lookupFrom, Option.bind_fun_some]

/-- What a version lists is what the scan from it finds first. -/
theorem scan_after_of_hit (hs : L.Pairwise fun a b => a.pos < b.pos) {r : Rec Name Ino β} (hr : r ∈ L)
    {n : Name} {i : Ino} (h : hit L n r = some i) : scan L n (after L r.pos) = some i := by
  obtain ⟨rest, hrest⟩ := after_eq_cons hs hr
  rw [hrest, scan, List.findSome?_cons, h]

/-- **The lookup goes the same way**, and ends at the last version of the same number. -/
theorem Rewrite.lookup (hs : L.Pairwise fun a b => a.pos < b.pos) (h : Rewrite L L' Q p P P')
    {names : List Name} (hne : names ≠ []) (hQ : Within L root Q names) (hp : Passes L root p names)
    (hlook : VersionLog.lookup L root names = some s) :
    VersionLog.lookup L' root names = latest L' s.ino := by
  induction names using List.reverseRecOn generalizing s with
  | nil => exact absurd rfl hne
  | append_singleton ms y ih =>
    have hQs : Q s.ino := hQ _ [] s (List.append_nil _).symm hne hlook
    by_cases hms : ms = []
    · subst hms
      rw [List.nil_append, lookup_one] at hlook ⊢
      obtain ⟨i, hi, hlast⟩ := Option.bind_eq_some_iff.mp hlook
      obtain rfl : s.ino = i := (mem_of_latest hlast).2.2
      rw [h.first y _ hQs hi, Option.bind_some]
    · rw [lookup_append hms] at hlook ⊢
      obtain ⟨d, hd, hlook⟩ := Option.bind_eq_some_iff.mp hlook
      rw [lookupFrom_one] at hlook
      obtain ⟨i, hi, hlast⟩ := Option.bind_eq_some_iff.mp hlook
      obtain rfl : s.ino = i := (mem_of_latest hlast).2.2
      have hd' := latest_of_lookup hd
      rw [ih hms hQ.front hp.front hd]
      by_cases hdp : d.ino = p
      · -- the lookup stands on the new version, which lists the next name as well
        obtain rfl : d = P := Option.some.inj ((hdp ▸ hd').symm.trans h.old)
        obtain ⟨j, hj⟩ := Option.isSome_iff_exists.mp (hp ms y [] d rfl hms hd hdp)
        have hij := scan_after_of_hit hs (mem_of_latest hd').1 hj
        obtain rfl : j = s.ino := Option.some.inj (hij.symm.trans hi)
        rw [hdp, h.new, Option.bind_some, lookupFrom_one, h.listed y _ hQs hj, Option.bind_some]
      · rw [h.same _ (hQ ms [y] d rfl hms hd) hdp, hd', Option.bind_some, lookupFrom_one,
          h.forward d (mem_of_latest hd').1 y _ hQs hi, Option.bind_some]

/-- The rewritten node is found as before. -/
theorem Rewrite.lookup_node (hs : L.Pairwise fun a b => a.pos < b.pos) (h : Rewrite L L' Q p P P')
    {names : List Name} (hQ : Within L root Q names) (hp : Passes L root p names)
    (hlook : VersionLog.lookup L root names = some P) : VersionLog.lookup L' root names = some P' := by
  have hino : P.ino = p := (mem_of_latest h.old).2.2
  by_cases hne : names = []
  · subst hne
    have hroot : P.ino = root :=
      (mem_of_latest (show VersionLog.latest L root = some P from hlook)).2.2
    rw [hino] at hroot
    exact hroot ▸ h.new
  · rw [h.lookup hs hne hQ hp hlook, hino]
    exact h.new

/-- **The lookup ends at the new version** when it passes `p` and misses there. -/
theorem Rewrite.lookup_none (hs : L.Pairwise fun a b => a.pos < b.pos) (h : Rewrite L L' Q p P P')
    {names zs : List Name} (hQ : Within L root Q names) (hp : ¬Passes L root p names)
    (hmiss : ∀ xs y ys, names = xs ++ y :: ys → hit L y P = none →
      lookupFrom L' (y :: ys ++ zs) P' = none) :
    VersionLog.lookup L' root (names ++ zs) = none := by
  -- the first part of the names after which `p` does not list the next one
  obtain ⟨xs, y, ys, d, hnames, hxs, hd, hdp, hno, hpass⟩ : ∃ xs y ys d, names = xs ++ y :: ys ∧ xs ≠ [] ∧
      VersionLog.lookup L root xs = some d ∧ d.ino = p ∧ hit L y d = none ∧ Passes L root p xs := by
    clear hmiss hQ
    induction hn : names.length using Nat.strong_induction_on generalizing names with
    | _ n ih =>
      unfold Passes at hp
      push Not at hp
      obtain ⟨xs, y, ys, d, hnames, hxs, hd, hdp, hno⟩ := hp
      by_cases hpass : Passes L root p xs
      · exact ⟨xs, y, ys, d, hnames, hxs, hd, hdp, by simpa using hno, hpass⟩
      · have hlen : xs.length < n := by
          rw [← hn, hnames, List.length_append, List.length_cons]
          omega
        obtain ⟨as, b, bs, e, rfl, hrest⟩ := ih xs.length hlen hpass rfl
        exact ⟨as, b, bs ++ y :: ys, e, by rw [hnames, List.append_assoc, List.cons_append], hrest⟩
  subst hnames
  have hd' := latest_of_lookup hd
  obtain rfl : d = P := Option.some.inj ((hdp ▸ hd').symm.trans h.old)
  rw [List.append_assoc, lookup_append hxs, h.lookup hs hxs hQ.front hpass hd, hdp, h.new,
    Option.bind_some]
  exact hmiss xs y ys rfl hno

/-- A node without names gets a new version: no scan and no other number notices. -/
theorem Rewrite.snocFile {F : Rec Name Ino β} (hpos : ∀ r ∈ L, r.pos < F.pos) (hlive : F.live)
    (hold : latest L F.ino = some P) (hP : P.node = .file) :
    Rewrite L (L ++ [F]) (fun _ => True) F.ino P F := by
  have hlatest : ∀ i, (latest (L ++ [F]) i).isSome = (latest L i).isSome := by
    intro i
    rw [latest_snoc hlive]
    split
    · rename_i hi
      rw [← hi, hold]
      rfl
    · rfl
  have hscan : ∀ n (S : List (Rec Name Ino β)) i, scan L n S = some i →
      scan (L ++ [F]) n (S ++ [F]) = some i := by
    intro n S i hi
    rw [scan_append, scan_congr fun r _ => hit_congr fun _ _ d _ => hlatest d.2, hi]
    rfl
  refine ⟨hold, by rw [latest_snoc hlive, if_pos rfl], fun n i _ hi => hscan n L i hi, ?_, ?_, ?_⟩
  · intro r hr n i _ hi
    have hF : r.pos ≤ F.pos := (hpos r hr).le
    rw [after, List.filter_append, List.filter_cons_of_pos (by simpa using hF), List.filter_nil]
    exact hscan n _ i hi
  · intro i _ hne
    rw [latest_snoc hlive, if_neg hne.symm]
  · intro n i _ hi
    obtain ⟨ds, hds, -⟩ := hit_mem hi
    rw [hP] at hds
    cases hds

/-! ### A directory gets a version with one more name -/

section Create

variable {N : Rec Name Ino β} {n f : Name} {ds : List (Name × Ino)}

/-- A new number and the version of a directory that lists it under `f` have been appended. -/
structure Created (L L' : List (Rec Name Ino β)) (p : Ino) (P P' N : Rec Name Ino β) (ds : List (Name × Ino))
    (f : Name) : Prop where
  log : L' = L ++ [P', N]
  sorted : L'.Pairwise fun a b => a.pos < b.pos
  old : latest L p = some P
  dir : P.node = .dir ds
  live : P'.live
  ino : P'.ino = p
  dir' : P'.node = .dir (ds ++ [(f, N.ino)])
  nodeLive : N.live
  node : N.node = .file ∨ N.node = .dir []
  unused : ∀ r ∈ L, r.ino ≠ N.ino
  unlisted : Listed (· ≠ N.ino) L

omit [DecidableEq Name] in
theorem Created.latest (h : Created L L' p P P' N ds f) (i : Ino) :
    VersionLog.latest L' i = if N.ino = i then some N else if p = i then some P' else latest L i := by
  rw [h.log, show [P', N] = [P'] ++ [N] from rfl, ← List.append_assoc, latest_snoc h.nodeLive,
    latest_snoc h.live, h.ino]

omit [DecidableEq Name] in
theorem Created.ne (h : Created L L' p P P' N ds f) : N.ino ≠ p := by
  obtain ⟨hmem, -, hino⟩ := mem_of_latest h.old
  exact fun heq => h.unused P hmem (hino.trans heq.symm)

omit [DecidableEq Name] in
/-- What older versions list is as live as before. -/
theorem Created.isSome (h : Created L L' p P P' N ds f) {i : Ino} (hi : i ≠ N.ino) :
    (VersionLog.latest L' i).isSome = (VersionLog.latest L i).isSome := by
  rw [h.latest, if_neg hi.symm]
  split
  · rename_i hp
    rw [← hp, h.old]
    rfl
  · rfl

theorem Created.scan_old (h : Created L L' p P P' N ds f) {S : List (Rec Name Ino β)} (hS : ∀ r ∈ S, r ∈ L)
    (y : Name) : scan L' y S = scan L y S :=
  scan_congr fun r hr => hit_congr fun es hes d hd => h.isSome (h.unlisted r (hS r hr) es hes d hd)

omit [DecidableEq Name] in
/-- The last two versions are all that a scan from the new one goes through. -/
theorem Created.after (h : Created L L' p P P' N ds f) :
    VersionLog.after L' P'.pos = [P', N] ∧ VersionLog.after L' N.pos = [N] := by
  have hs := h.sorted
  rw [h.log, List.pairwise_append, List.pairwise_pair] at hs
  obtain ⟨-, hPN, hlow⟩ := hs
  have hdrop : ∀ a, P'.pos ≤ a → L.filter (fun s => decide (a ≤ s.pos)) = [] := by
    refine fun a ha => List.filter_eq_nil_iff.mpr fun r hr => ?_
    have := hlow r hr P' (by simp)
    simp only [decide_eq_true_eq]
    omega
  rw [VersionLog.after, VersionLog.after, h.log, List.filter_append, List.filter_append, hdrop _ le_rfl,
    hdrop _ hPN.le]
  constructor
  · rw [List.nil_append, List.filter_cons_of_pos (by simp), List.filter_cons_of_pos (by simpa using hPN.le),
      List.filter_nil]
  · rw [List.nil_append, List.filter_cons_of_neg (by simpa using hPN),
      List.filter_cons_of_pos (by simp), List.filter_nil]

/-- A node without names has no hit. -/
theorem Created.hit_node (h : Created L L' p P P' N ds f) (y : Name) : hit L' y N = none := by
  unfold hit
  rcases h.node with hn | hn <;> rw [hn]
  rfl

/-- What the new version lists: what the old one does, and the new number. -/
theorem Created.hit_dir (h : Created L L' p P P' N ds f) (y : Name) :
    hit L' y P' = (hit L y P).or (if f = y then some N.ino else none) := by
  have hN : (VersionLog.latest L' N.ino).isSome := by rw [h.latest, if_pos rfl]; rfl
  have hold : ds.find? (fun d => decide (d.1 = y) && (VersionLog.latest L' d.2).isSome) =
      ds.find? fun d => decide (d.1 = y) && (VersionLog.latest L d.2).isSome := by
    refine List.find?_congr fun d hd => ?_
    rw [h.isSome (h.unlisted P (mem_of_latest h.old).1 ds h.dir d hd)]
  unfold hit
  simp only [h.dir, h.dir', List.find?_append, hold, List.find?_singleton, hN, Bool.and_true]
  cases ds.find? fun d => decide (d.1 = y) && (VersionLog.latest L d.2).isSome with
  | some d => rfl
  | none => by_cases hf : f = y <;> simp [hf]

theorem Created.scan_new (h : Created L L' p P P' N ds f) (y : Name) :
    scan L' y [P', N] = (hit L y P).or (if f = y then some N.ino else none) := by
  rw [scan, List.findSome?_cons, h.hit_dir, List.findSome?_cons, h.hit_node, List.findSome?_nil]
  cases (hit L y P).or (if f = y then some N.ino else none) with
  | none => rfl
  | some i => rfl

/-- **A creation rewrites its directory.** -/
theorem Created.rewrite (h : Created L L' p P P' N ds f) : Rewrite L L' (· ≠ N.ino) p P P' := by
  have hgrow : ∀ n S E i, (∀ r ∈ S, r ∈ L) → scan L n S = some i → scan L' n (S ++ E) = some i := by
    intro n S E i hS hi
    rw [scan_append, h.scan_old hS, hi]
    rfl
  refine ⟨h.old, ?_, fun n i _ hi => ?_, fun r hr n i _ hi => ?_, fun i hi hp => ?_, fun n i _ hi => ?_⟩
  · rw [h.latest, if_neg h.ne, if_pos rfl]
  · exact h.log ▸ hgrow n L _ i (fun _ => id) hi
  · rw [VersionLog.after, h.log, List.filter_append, ← h.log]
    exact hgrow n _ _ i (fun _ => List.mem_of_mem_filter) hi
  · rw [h.latest, if_neg hi.symm, if_neg hp.symm]
  · rw [h.after.1, h.scan_new, hi]
    rfl

variable {names : List Name}

omit [DecidableEq Name] in
theorem Created.sorted_old (h : Created L L' p P P' N ds f) : L.Pairwise fun a b => a.pos < b.pos := by
  have hs := h.sorted
  rw [h.log, List.pairwise_append] at hs
  exact hs.1

theorem Created.within (h : Created L L' p P P' N ds f) (names : List Name) :
    Within L root (· ≠ N.ino) names :=
  fun _ _ d _ _ hd => h.unused d (mem_of_latest (latest_of_lookup hd)).1

/-- The directory is found as before. -/
theorem Created.lookup_dir (h : Created L L' p P P' N ds f) (hdir : lookup L root names = some P)
    (hp : Passes L root p names) : lookup L' root names = some P' :=
  h.rewrite.lookup_node h.sorted_old (h.within names) hp hdir

/-- **The created name leads to the new node**, and any other name that was not found still is not. -/
theorem Created.lookup_child (h : Created L L' p P P' N ds f) (hdir : lookup L root names = some P)
    (hnone : lookup L root (names ++ [n]) = none) (hp : Passes L root p names) :
    lookup L' root (names ++ [n]) = if f = n then some N else none := by
  have hmiss : ¬Stray L n (if names = [] then L else VersionLog.after L P.pos) := by
    rw [← lookup_snoc_isSome hdir, hnone]
    exact Bool.false_ne_true
  have hN : VersionLog.latest L' N.ino = some N := by rw [h.latest, if_pos rfl]
  have hhit : hit L n P = none := by
    cases hh : hit L n P with
    | none => rfl
    | some i =>
      obtain ⟨rest, hrest⟩ := after_eq_cons h.sorted_old (mem_of_latest h.old).1
      refine absurd ⟨P, ?_, by rw [hh]; rfl⟩ hmiss
      split
      · exact (mem_of_latest h.old).1
      · rw [hrest]
        exact List.mem_cons_self
  have hnew : scan L' n [P', N] = if f = n then some N.ino else none := by
    rw [h.scan_new, hhit]
    rfl
  have hlast : (scan L' n [P', N]).bind (VersionLog.latest L') = if f = n then some N else none := by
    rw [hnew]
    split
    · rw [Option.bind_some, hN]
    · rfl
  by_cases hne : names = []
  · subst hne
    rw [if_pos rfl] at hmiss
    rw [List.nil_append, lookup_one, ← hlast]
    refine congrArg (Option.bind · _) ?_
    rw [h.log, scan_append, ← h.log, h.scan_old (fun _ => id), scan_eq_none.mpr hmiss]
    rfl
  · rw [lookup_append hne, h.lookup_dir hdir hp, Option.bind_some, lookupFrom_one, h.after.1, hlast]

/-- **Nothing is found behind the directory** when the lookup leaves it by a name that it does not list. -/
theorem Created.lookup_lost (h : Created L L' p P P' N ds f) (hp : ¬Passes L root p names) :
    lookup L' root (names ++ [n]) = none := by
  refine h.rewrite.lookup_none h.sorted_old (h.within names) hp fun xs y ys _ hy => ?_
  rw [List.cons_append, lookupFrom, h.after.1, h.scan_new, hy, Option.none_or]
  split
  · -- the new node has no names to go on with
    rw [Option.bind_some, h.latest, if_pos rfl, Option.bind_some]
    cases hzs : ys ++ [n] with
    | nil => simp at hzs
    | cons z zs =>
      rw [lookupFrom, h.after.2, scan, List.findSome?_cons, h.hit_node, List.findSome?_nil]
      rfl
  · rfl

end Create

/-! ### A directory gets a version without one of its names -/

section Remove

variable {n : Name} {j : Ino} {ds : List (Name × Ino)} {g : β → β} {names : List Name}

/-- The number `j` has gone out of use and the version of a directory that lists it only under `n`, and
nothing else under `n`, has been appended without it. -/
structure Removed (g : β → β) (L L' : List (Rec Name Ino β)) (p j : Ino) (P P' : Rec Name Ino β)
    (ds : List (Name × Ino)) (n : Name) : Prop where
  log : L' = kill g j L ++ [P']
  sorted : L.Pairwise fun a b => a.pos < b.pos
  last : ∀ r ∈ L, r.pos < P'.pos
  old : latest L p = some P
  dir : P.node = .dir ds
  live : P'.live
  ino : P'.ino = p
  dir' : P'.node = .dir (ds.filter fun d => d.2 ≠ j)
  ne : p ≠ j
  name : ∀ d ∈ ds, d.1 = n → d.2 = j

omit [DecidableEq Name] in
theorem Removed.latest (h : Removed g L L' p j P P' ds n) (i : Ino) :
    VersionLog.latest L' i = if p = i then some P' else if i = j then none else VersionLog.latest L i := by
  rw [h.log, latest_snoc h.live, h.ino, latest_kill]

omit [DecidableEq Name] in
/-- All numbers but the removed one are as live as before. -/
theorem Removed.isSome (h : Removed g L L' p j P P' ds n) (i : Ino) :
    (VersionLog.latest L' i).isSome = (VersionLog.latest (kill g j L) i).isSome := by
  rw [h.latest, latest_kill]
  by_cases hp : p = i
  · subst hp
    rw [if_pos rfl, if_neg h.ne, h.old]
    rfl
  · rw [if_neg hp]

theorem Removed.hit_eq (h : Removed g L L' p j P P' ds n) (y : Name) (r : Rec Name Ino β) :
    hit L' y r = hit (kill g j L) y r :=
  hit_congr fun _ _ d _ => h.isSome d.2

theorem Removed.scan_eq (h : Removed g L L' p j P P' ds n) (y : Name) (S : List (Rec Name Ino β)) :
    scan L' y S = scan (kill g j L) y S :=
  scan_congr fun r _ => h.hit_eq y r

omit [DecidableEq Name] in
theorem Removed.after (h : Removed g L L' p j P P' ds n) : VersionLog.after L' P'.pos = [P'] := by
  have hdrop : (kill g j L).filter (fun s => decide (P'.pos ≤ s.pos)) = [] := by
    refine List.filter_eq_nil_iff.mpr fun r hr => ?_
    obtain ⟨t, ht, rfl⟩ := List.mem_map.mp hr
    have := h.last t ht
    rw [killRec_pos, decide_eq_true_eq]
    omega
  rw [VersionLog.after, h.log, List.filter_append, hdrop, List.nil_append,
    List.filter_cons_of_pos (by simp), List.filter_nil]

/-- What the new version lists is what the old one lists, without the removed number. -/
theorem Removed.hit_dir (h : Removed g L L' p j P P' ds n) {y : Name} {i : Ino} (hi : hit L y P = some i)
    (hj : i ≠ j) : hit L' y P' = some i := by
  unfold hit at hi ⊢
  simp only [h.dir, h.dir', List.find?_filter, Option.map_eq_some_iff] at hi ⊢
  obtain ⟨d, hd, rfl⟩ := hi
  have hname := List.find?_some hd
  rw [Bool.and_eq_true, decide_eq_true_eq] at hname
  have hlive : ∀ k, k ≠ j → (VersionLog.latest L' k).isSome = (VersionLog.latest L k).isSome := by
    intro k hk
    rw [h.isSome, latest_kill, if_neg hk]
  refine ⟨d, find?_of_stronger hd ?_ fun x _ hx => ?_, rfl⟩
  · simp [hj, hname.1, hlive d.2 hj, hname.2]
  · simp only [ne_eq, decide_not, Bool.and_eq_true, Bool.not_eq_eq_eq_not, Bool.not_true,
      decide_eq_false_iff_not, decide_eq_true_eq] at hx ⊢
    exact ⟨hx.2.1, hlive x.2 hx.1 ▸ hx.2.2⟩

/-- A name that the old version does not list is not listed by the new one. -/
theorem Removed.hit_dir_none (h : Removed g L L' p j P P' ds n) {y : Name} (hy : hit L y P = none) :
    hit L' y P' = none := by
  rw [← Option.not_isSome_iff_eq_none, hit_isSome] at hy ⊢
  rintro ⟨es, hes, d, hd, hname, hlive⟩
  obtain rfl : (ds.filter fun d => d.2 ≠ j) = es := by simpa [h.dir'] using hes
  obtain ⟨hd, hne⟩ := List.mem_filter.mp hd
  rw [h.isSome, latest_kill, if_neg (by simpa using hne)] at hlive
  exact hy ⟨ds, h.dir, d, hd, hname, hlive⟩

/-- The removed name is not listed by the new version. -/
theorem Removed.hit_name (h : Removed g L L' p j P P' ds n) : hit L' n P' = none := by
  rw [← Option.not_isSome_iff_eq_none, hit_isSome]
  rintro ⟨es, hes, d, hd, hname, -⟩
  obtain rfl : (ds.filter fun d => d.2 ≠ j) = es := by simpa [h.dir'] using hes
  obtain ⟨hd, hne⟩ := List.mem_filter.mp hd
  exact absurd (h.name d hd hname) (by simpa using hne)

/-- **A removal rewrites its directory**, for all numbers but the removed one. -/
theorem Removed.rewrite (h : Removed g L L' p j P P' ds n) : Rewrite L L' (· ≠ j) p P P' := by
  have hgrow : ∀ y S E i, i ≠ j → scan L y S = some i → scan L' y (kill g j S ++ E) = some i := by
    intro y S E i hi hS
    rw [scan_append, h.scan_eq, scan_kill hS hi]
    rfl
  refine ⟨h.old, ?_, fun y i hi hS => ?_, fun r hr y i hi hS => ?_, fun i hi hp => ?_, fun y i hi hy => ?_⟩
  · rw [h.latest, if_pos rfl]
  · exact h.log ▸ hgrow y L _ i hi hS
  · have hafter : VersionLog.after L' r.pos = kill g j (VersionLog.after L r.pos) ++ [P'] := by
      rw [VersionLog.after, h.log, List.filter_append, List.filter_cons_of_pos (by simpa using (h.last r hr).le),
        List.filter_nil, kill, List.filter_map]
      congr 2
      refine List.filter_congr fun s _ => ?_
      rw [Function.comp_apply, killRec_pos]
    rw [hafter]
    exact hgrow y _ _ i hi hS
  · rw [h.latest, if_neg hp.symm, if_neg hi]
  · rw [h.after, scan, List.findSome?_cons, h.hit_dir hy hi]

/-- A lookup that stands on the new version goes no further by a name that it does not list. -/
theorem Removed.stops (h : Removed g L L' p j P P' ds n) {y : Name} (hy : hit L' y P' = none)
    (ys : List Name) : lookupFrom L' (y :: ys) P' = none := by
  rw [lookupFrom, h.after, scan, List.findSome?_cons, hy, List.findSome?_nil]
  rfl

/-- **The removed name is gone** below a directory that is not the root. -/
theorem Removed.lookup_child (h : Removed g L L' p j P P' ds n) (hne : names ≠ [])
    (hdir : lookup L root names = some P) (hQ : Within L root (· ≠ j) names) :
    lookup L' root (names ++ [n]) = none := by
  by_cases hp : Passes L root p names
  · rw [lookup_append hne, h.rewrite.lookup_node h.sorted hQ hp hdir, Option.bind_some]
    exact h.stops h.hit_name []
  · exact h.rewrite.lookup_none h.sorted hQ hp fun xs y ys _ hy => h.stops (h.hit_dir_none hy) _

/-- The directory is lost when the lookup leaves it by a name that it does not list. -/
theorem Removed.lookup_lost (h : Removed g L L' p j P P' ds n) (hQ : Within L root (· ≠ j) names)
    (hp : ¬Passes L root p names) : lookup L' root names = none := by
  have hlost : lookup L' root (names ++ []) = none :=
    h.rewrite.lookup_none h.sorted hQ hp fun xs y ys _ hy => h.stops (h.hit_dir_none hy) _
  rwa [List.append_nil] at hlost

/-- **The removed name is gone from the root** exactly when no other version lists it with a live number. -/
theorem Removed.lookup_root (h : Removed g L L' p j P P' ds n) : lookup L' root [n] = none ↔
    ∀ r ∈ L, ∀ es, r.node = .dir es → ∀ d ∈ es, d.1 = n → d.2 ≠ j → VersionLog.latest L d.2 = none := by
  have hscan : lookup L' root [n] = none ↔ scan L' n L' = none := by
    rw [lookup_one]
    cases hs : scan L' n L' with
    | none => simp
    | some i =>
      obtain ⟨t, ht⟩ := Option.isSome_iff_exists.mp (scan_live hs)
      simp [ht]
  have hmap : (∀ r ∈ kill g j L, hit (kill g j L) n r = none) ↔
      ∀ r ∈ L, hit (kill g j L) n (killRec g j r) = none := List.forall_mem_map
  rw [hscan, h.log, scan_append, ← h.log, Option.or_eq_none_iff, h.scan_eq, scan, scan,
    List.findSome?_cons, h.hit_name, List.findSome?_nil, and_iff_left rfl, List.findSome?_eq_none_iff, hmap]
  refine forall₂_congr fun r _ => ?_
  rw [← Option.not_isSome_iff_eq_none, hit_isSome, killRec_node]
  simp only [latest_kill, not_exists, not_and]
  refine forall₂_congr fun es _ => forall₃_congr fun d _ _ => ?_
  by_cases hdj : d.2 = j <;> simp [hdj]

end Remove

end OperatingSystems.VersionLog
