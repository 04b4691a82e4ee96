import OperatingSystems.Lib.Namespace

/-!
# A log of versions and the namespace it holds

A log is a list of records; each is a version of a numbered node, and a record may be dead.  The node a
number stands for is its last live version, so a log holds a namespace (`nodes`).

There are two ways to resolve a list of names in a log.  `walk (nodes L)` goes from directory to
directory.  `lookup` scans: for each name it searches forward, from the entry it stands on (at the start,
from the first record), through *all* records, for the first directory version of any number that lists
the name with a live number, and moves to the last live version of that number.

* **`lookup_eq_walk`** — the two agree when the scan meets no stray match: at the name where the walk
  stops, no directory version in the range it scans lists that name with a live number.
* **`latest_of_lookup`** — what a lookup returns is the last live version of its number, stray or not.
-/

namespace OperatingSystems.VersionLog

open OperatingSystems.Namespace

variable {Name Ino β : Type*}

/-- One version of a node: its place in the log, its number, whether it is live, and what it says. -/
structure Rec (Name Ino β : Type*) where
  pos : ℕ
  ino : Ino
  live : Bool
  node : Node Name Ino
  val : β

section Definitions

variable [DecidableEq Ino]

/-- The last live version of number `i`. -/
def latest (L : List (Rec Name Ino β)) (i : Ino) : Option (Rec Name Ino β) :=
  (L.filter fun r => r.live && r.ino = i).getLast?

/-- The namespace a log holds. -/
def nodes (L : List (Rec Name Ino β)) : Nodes Name Ino := fun i => (latest L i).map Rec.node

/-- The records from position `k` on. -/
def after (L : List (Rec Name Ino β)) (k : ℕ) : List (Rec Name Ino β) :=
  L.filter fun s => k ≤ s.pos

/-- The records a scan that stands on the last version of `i` goes through. -/
def rangeOf (L : List (Rec Name Ino β)) (i : Ino) : List (Rec Name Ino β) :=
  match latest L i with
  | some r => after L r.pos
  | none => []

variable [DecidableEq Name]

/-- The live number that the version `r` lists under `n`, if it is a directory. -/
def hit (L : List (Rec Name Ino β)) (n : Name) (r : Rec Name Ino β) : Option Ino :=
  match r.node with
  | .file => none
  | .dir ds => (ds.find? fun d => d.1 = n && (latest L d.2).isSome).map Prod.snd

/-- The first hit for `n` in the range `S`. -/
def scan (L : List (Rec Name Ino β)) (n : Name) (S : List (Rec Name Ino β)) : Option Ino :=
  S.findSome? (hit L n)

/-- Resolve names by scanning, from the record `r`. -/
def lookupFrom (L : List (Rec Name Ino β)) : List Name → Rec Name Ino β → Option (Rec Name Ino β)
  | [], r => some r
  | n :: names, r =>
    (scan L n (after L r.pos)).bind fun i => (latest L i).bind (lookupFrom L names)

/-- Resolve names by scanning, from the first record; no name at all is the root. -/
def lookup (L : List (Rec Name Ino β)) (root : Ino) : List Name → Option (Rec Name Ino β)
  | [] => latest L root
  | n :: names => (scan L n L).bind fun i => (latest L i).bind (lookupFrom L names)

/-- Some directory version in the range `S` lists `n` with a live number. -/
def Stray (L : List (Rec Name Ino β)) (n : Name) (S : List (Rec Name Ino β)) : Prop :=
  ∃ r ∈ S, (hit L n r).isSome

/-- At the name where the walk from `i` stops, the scan of its range meets no stray match. -/
def NoStray (L : List (Rec Name Ino β)) : List (Rec Name Ino β) → Ino → List Name → Prop
  | _, _, [] => True
  | S, i, n :: names =>
    match child (nodes L) i n with
    | some j => NoStray L (rangeOf L j) j names
    | none => ¬Stray L n S

instance decidableStray (L : List (Rec Name Ino β)) (n : Name) (S : List (Rec Name Ino β)) :
    Decidable (Stray L n S) :=
  inferInstanceAs (Decidable (∃ r ∈ S, (hit L n r).isSome))

/-- Whether a scan would meet a stray match can be computed. -/
instance decidableNoStray (L : List (Rec Name Ino β)) :
    ∀ (S : List (Rec Name Ino β)) (i : Ino) (names : List Name), Decidable (NoStray L S i names)
  | _, _, [] => isTrue trivial
  | S, i, n :: names =>
    match h : child (nodes L) i n with
    | some j =>
      have := decidableNoStray L (rangeOf L j) j names
      decidable_of_iff (NoStray L (rangeOf L j) j names) (by rw [NoStray, h])
    | none => decidable_of_iff (¬Stray L n S) (by rw [NoStray, h])

/-- What the root lists is what a scan of the whole log finds first. -/
def RootFirst (L : List (Rec Name Ino β)) (root : Ino) : Prop :=
  ∀ n i, child (nodes L) root n = some i → scan L n L = some i

end Definitions

variable {L E S : List (Rec Name Ino β)} {r : Rec Name Ino β} {n : Name} {i j root : Ino}

/-- The first match of a predicate is the first match of a stronger one that it meets. -/
theorem find?_of_stronger {α : Type*} {p q : α → Bool} {l : List α} {a : α}
    (h : l.find? p = some a) (hq : q a) (hqp : ∀ x ∈ l, q x → p x) : l.find? q = some a := by
  induction l with
  | nil => simp at h
  | cons x l ih =>
    by_cases hx : p x
    · rw [List.find?_cons_of_pos hx] at h
      obtain rfl := Option.some.inj h
      exact List.find?_cons_of_pos hq
    · rw [List.find?_cons_of_neg hx] at h
      rw [List.find?_cons_of_neg (fun hqx => hx (hqp x List.mem_cons_self hqx))]
      exact ih h (fun y hy => hqp y (List.mem_cons_of_mem _ hy))

/-- In a log in order of position, the range of a record begins with it. -/
theorem after_eq_cons (hs : L.Pairwise fun a b => a.pos < b.pos) (hr : r ∈ L) :
    ∃ rest, after L r.pos = r :: rest := by
  obtain ⟨pre, post, rfl⟩ := List.append_of_mem hr
  rw [List.pairwise_append, List.pairwise_cons] at hs
  have hpre : pre.filter (fun s => decide (r.pos ≤ s.pos)) = [] := by
    rw [List.filter_eq_nil_iff]
    intro s hsm
    have := hs.2.2 s hsm r List.mem_cons_self
    simp only [decide_eq_true_eq]
    omega
  exact ⟨post.filter fun s => r.pos ≤ s.pos, by
    rw [after, List.filter_append, hpre, List.nil_append, List.filter_cons_of_pos (by simp)]⟩

section Latest

variable [DecidableEq Ino]

theorem mem_of_latest (h : latest L i = some r) : r ∈ L ∧ r.live ∧ r.ino = i := by
  have hm := List.mem_of_getLast? h
  rw [List.mem_filter, Bool.and_eq_true, decide_eq_true_eq] at hm
  exact hm

/-- A number has a live version exactly when some record is one. -/
theorem latest_isSome : (latest L i).isSome ↔ ∃ r ∈ L, r.live ∧ r.ino = i := by
  rw [latest, List.getLast?_isSome, Ne, List.filter_eq_nil_iff]
  simp only [Bool.and_eq_true, decide_eq_true_eq]
  push Not
  rfl

theorem nodes_isSome : (nodes L i).isSome = (latest L i).isSome := by
  rw [nodes, Option.isSome_map]

theorem nodes_of_latest (h : latest L i = some r) : nodes L i = some r.node := by
  rw [nodes, h, Option.map_some]

theorem latest_append : latest (L ++ E) i = (latest E i).or (latest L i) := by
  rw [latest, List.filter_append, List.getLast?_append]
  rfl

theorem latest_singleton : latest [r] i = if r.live && r.ino = i then some r else none := by
  rw [latest, List.filter_singleton]
  by_cases h : (r.live && decide (r.ino = i)) = true
  · rw [if_pos h, h]
    rfl
  · rw [if_neg h, Bool.eq_false_iff.mpr h]
    rfl

/-- A live record appended to a log is the new meaning of its number. -/
theorem latest_snoc (hr : r.live) : latest (L ++ [r]) i = if r.ino = i then some r else latest L i := by
  rw [latest_append, latest_singleton, hr]
  by_cases h : r.ino = i <;> simp [h]

theorem nodes_snoc (hr : r.live) :
    nodes (L ++ [r]) = Function.update (nodes L) r.ino (some r.node) := by
  funext i
  rw [nodes, latest_snoc hr]
  by_cases h : r.ino = i
  · subst h
    rw [if_pos rfl, Function.update_self, Option.map_some]
  · rw [if_neg h, Function.update_of_ne (Ne.symm h)]
    rfl

end Latest

/-! ### Hits and scans -/

section Lookup

variable [DecidableEq Name] [DecidableEq Ino]

/-- The child of a number is a hit in its last version. -/
theorem hit_of_child (hr : latest L i = some r) (h : child (nodes L) i n = some j) :
    hit L n r = some j := by
  unfold child at h
  rw [nodes_of_latest hr] at h
  unfold hit
  cases hnode : r.node with
  | file => simp [hnode] at h
  | dir ds =>
    simp only [hnode] at h
    cases hf : ds.find? (fun d => decide (d.1 = n)) with
    | none => simp [hf] at h
    | some d =>
      simp only [hf, Option.bind_some, Option.ite_none_right_eq_some, Option.some.injEq] at h
      obtain ⟨hlive, rfl⟩ := h
      have hname : d.1 = n := by simpa using List.find?_some hf
      rw [nodes_isSome] at hlive
      have := find?_of_stronger (q := fun d => decide (d.1 = n) && (latest L d.2).isSome) hf
        (by simp [hname, hlive]) (fun x _ hx => by simp at hx; simpa using hx.1)
      simp only [this, Option.map_some]

theorem hit_isSome : (hit L n r).isSome ↔
    ∃ ds, r.node = .dir ds ∧ ∃ d ∈ ds, d.1 = n ∧ (latest L d.2).isSome := by
  unfold hit
  cases hnode : r.node with
  | file => simp
  | dir ds => simp [List.find?_isSome]

theorem hit_mem (h : hit L n r = some i) :
    ∃ ds, r.node = .dir ds ∧ (n, i) ∈ ds ∧ (latest L i).isSome := by
  unfold hit at h
  cases hnode : r.node with
  | file => simp [hnode] at h
  | dir ds =>
    simp only [hnode, Option.map_eq_some_iff] at h
    obtain ⟨d, hf, rfl⟩ := h
    have hp := List.find?_some hf
    simp only [Bool.and_eq_true, decide_eq_true_eq] at hp
    exact ⟨ds, rfl, by rw [← hp.1]; exact List.mem_of_find?_eq_some hf, hp.2⟩

/-- A hit only depends on which of the listed numbers are live. -/
theorem hit_congr {L' : List (Rec Name Ino β)}
    (h : ∀ ds, r.node = .dir ds → ∀ d ∈ ds, (latest L' d.2).isSome = (latest L d.2).isSome) :
    hit L' n r = hit L n r := by
  unfold hit
  cases hnode : r.node with
  | file => rfl
  | dir ds =>
    simp only
    congr 1
    apply List.find?_congr
    intro d hd
    rw [h ds hnode d hd]

theorem scan_eq_none : scan L n S = none ↔ ¬Stray L n S := by
  rw [scan, List.findSome?_eq_none_iff, Stray]
  push Not
  simp only [Bool.not_eq_true, Option.isSome_eq_false_iff, Option.isNone_iff_eq_none]

theorem scan_append : scan L n (S ++ E) = (scan L n S).or (scan L n E) := by
  rw [scan, List.findSome?_append]
  rfl

theorem scan_congr {L' : List (Rec Name Ino β)} (h : ∀ r ∈ S, hit L' n r = hit L n r) :
    scan L' n S = scan L n S := by
  induction S with
  | nil => rfl
  | cons r S ih =>
    rw [scan, scan, List.findSome?_cons, List.findSome?_cons, h r List.mem_cons_self]
    cases hit L n r with
    | some i => rfl
    | none => exact ih (fun s hs => h s (List.mem_cons_of_mem _ hs))

/-- The number a scan finds is live. -/
theorem scan_live (h : scan L n S = some i) : (latest L i).isSome := by
  obtain ⟨r, -, hr⟩ := List.exists_of_findSome?_eq_some h
  obtain ⟨-, -, -, hl⟩ := hit_mem hr
  exact hl

/-! ### Looking up and walking -/

/-- **From a record on, the scan follows the walk** when it meets no stray match. -/
theorem lookupFrom_eq_walk (hs : L.Pairwise fun a b => a.pos < b.pos) (names : List Name) :
    ∀ {i : Ino} {r : Rec Name Ino β}, latest L i = some r → NoStray L (rangeOf L i) i names →
      lookupFrom L names r = (walk (nodes L) names i).bind (latest L) := by
  induction names with
  | nil => intro i r hr _; rw [lookupFrom, walk, Option.bind_some, hr]
  | cons n names ih =>
    intro i r hr hno
    rw [NoStray] at hno
    rw [lookupFrom, walk]
    cases hc : child (nodes L) i n with
    | none =>
      rw [hc] at hno
      rw [rangeOf, hr] at hno
      rw [scan_eq_none.mpr hno, Option.bind_none, Option.bind_none, Option.bind_none]
    | some j =>
      rw [hc] at hno
      obtain ⟨rest, hrest⟩ := after_eq_cons hs (mem_of_latest hr).1
      have hhit : hit L n r = some j := hit_of_child hr hc
      have hscan : scan L n (after L r.pos) = some j := by
        rw [hrest, scan, List.findSome?_cons, hhit]
      obtain ⟨rj, hrj⟩ := Option.isSome_iff_exists.mp (scan_live hscan)
      rw [hscan, Option.bind_some, Option.bind_some, hrj, Option.bind_some]
      exact ih hrj hno

/-- **Looking up is walking** when the scan meets no stray match. -/
theorem lookup_eq_walk (hs : L.Pairwise fun a b => a.pos < b.pos) (hroot : RootFirst L root)
    {names : List Name} (hno : NoStray L L root names) :
    lookup L root names = (walk (nodes L) names root).bind (latest L) := by
  cases names with
  | nil => rw [lookup, walk, Option.bind_some]
  | cons n names =>
    rw [NoStray] at hno
    rw [lookup, walk]
    cases hc : child (nodes L) root n with
    | none =>
      rw [hc] at hno
      rw [scan_eq_none.mpr hno, Option.bind_none, Option.bind_none, Option.bind_none]
    | some j =>
      rw [hc] at hno
      have hscan := hroot n j hc
      obtain ⟨rj, hrj⟩ := Option.isSome_iff_exists.mp (scan_live hscan)
      rw [hscan, Option.bind_some, Option.bind_some, hrj, Option.bind_some]
      exact lookupFrom_eq_walk hs names hrj hno

/-- What `lookup` returns is the last version of its number. -/
theorem latest_of_lookupFrom (names : List Name) :
    ∀ {r s : Rec Name Ino β}, latest L r.ino = some r → lookupFrom L names r = some s →
      latest L s.ino = some s := by
  induction names with
  | nil =>
    intro r s hr h
    rw [lookupFrom, Option.some.injEq] at h
    exact h ▸ hr
  | cons n names ih =>
    intro r s _ h
    rw [lookupFrom] at h
    obtain ⟨i, -, h⟩ := Option.bind_eq_some_iff.mp h
    obtain ⟨ri, hri, h⟩ := Option.bind_eq_some_iff.mp h
    have hino := (mem_of_latest hri).2.2
    exact ih (hino ▸ hri) h

theorem latest_of_lookup {names : List Name} (h : lookup L root names = some r) :
    latest L r.ino = some r := by
  cases names with
  | nil =>
    rw [lookup] at h
    exact (mem_of_latest h).2.2 ▸ h
  | cons n names =>
    rw [lookup] at h
    obtain ⟨i, -, h⟩ := Option.bind_eq_some_iff.mp h
    obtain ⟨ri, hri, h⟩ := Option.bind_eq_some_iff.mp h
    have hino := (mem_of_latest hri).2.2
    exact latest_of_lookupFrom names (hino ▸ hri) h

theorem lookupFrom_append (xs ys : List Name) : ∀ r : Rec Name Ino β,
    lookupFrom L (xs ++ ys) r = (lookupFrom L xs r).bind (lookupFrom L ys) := by
  induction xs with
  | nil => intro r; rfl
  | cons x xs ih =>
    intro r
    simp only [List.cons_append, lookupFrom, Option.bind_assoc]
    congr 1
    funext i
    congr 1
    funext s
    exact ih s

/-- More names are looked up from where the first ones lead. -/
theorem lookup_append {xs : List Name} (hne : xs ≠ []) (ys : List Name) :
    lookup L root (xs ++ ys) = (lookup L root xs).bind (lookupFrom L ys) := by
  cases xs with
  | nil => exact absurd rfl hne
  | cons x xs =>
    simp only [List.cons_append, lookup, Option.bind_assoc]
    congr 1
    funext i
    congr 1
    funext s
    exact lookupFrom_append xs ys s

/-- The last name leads somewhere exactly when its scan meets a match. -/
theorem scan_bind_isSome :
    ((scan L n S).bind fun i => (latest L i).bind (lookupFrom L [])).isSome ↔ Stray L n S := by
  cases hs : scan L n S with
  | none =>
    have := scan_eq_none.mp hs
    simp [this]
  | some i =>
    obtain ⟨t, ht⟩ := Option.isSome_iff_exists.mp (scan_live hs)
    have hstray : Stray L n S := by
      by_contra hno
      rw [scan_eq_none.mpr hno] at hs
      cases hs
    rw [Option.bind_some, ht, Option.bind_some, lookupFrom]
    exact ⟨fun _ => hstray, fun _ => rfl⟩

/-- **One more name is found** exactly when the scan for it, from the entry found before (for the first
name: of the whole log), meets a match. -/
theorem lookup_snoc_isSome {names : List Name} (h : lookup L root names = some r) :
    (lookup L root (names ++ [n])).isSome ↔ Stray L n (if names = [] then L else after L r.pos) := by
  by_cases hne : names = []
  · subst hne
    rw [if_pos rfl]
    exact scan_bind_isSome
  · rw [if_neg hne, lookup_append hne, h]
    exact scan_bind_isSome

end Lookup

end OperatingSystems.VersionLog
