import Puremake.Path.Below
import Puremake.Lua.Table
import Mathlib.Data.List.Induction

/-!
# A disk

The files and directories of a disk, by their names from the root, and how the operating
system finds them for a path. Everything but the root has its place in a directory.
-/

namespace Puremake

namespace Os

inductive Kind
  | file
  | directory
  | other
  deriving DecidableEq, Repr

/-- A name that a directory can have an entry for. -/
def EntryName (n : Str) : Prop := n ≠ [] ∧ n ≠ dot ∧ n ≠ dotdot ∧ '/' ∉ n

instance (n : Str) : Decidable (EntryName n) := inferInstanceAs (Decidable (_ ∧ _))

/-- What there is on a disk, in the order in which directories are read. -/
structure Disk where
  nodes : List (List Str × Kind)
  nodup : (nodes.map Prod.fst).Nodup
  root : ([], Kind.directory) ∈ nodes
  closed : ∀ e ∈ nodes, e.1 ≠ [] → (e.1.dropLast, Kind.directory) ∈ nodes
  names : ∀ e ∈ nodes, ∀ n ∈ e.1, EntryName n

/-- What `lfs.currentdir` returns at a place. -/
def currentdir (cwd : List Str) : Str := '/' :: concat '/' cwd

namespace Disk

variable (disk : Disk)

def kind? (p : List Str) : Option Kind := disk.nodes.lookup p

def entries (d : List Str) : List Str :=
  disk.nodes.filterMap fun e => if e.1.dropLast = d then e.1.getLast? else none

def walk : List Str → List Str → Option (List Str)
  | cur, [] => some cur
  | cur, q :: qs =>
    if disk.kind? cur ≠ some .directory then none
    else if q = [] ∨ q = dot then walk cur qs
    else if q = dotdot then walk cur.dropLast qs
    else walk (cur ++ [q]) qs

def resolve (cwd : List Str) (p : Str) : Option (List Str) :=
  disk.walk (if p.head? = some '/' then [] else cwd) (pieces (fun c => c = '/') p)

/-- `lfs.attributes(p, "mode")` -/
def mode (cwd : List Str) (p : Str) : Option Kind := (disk.resolve cwd p).bind disk.kind?

/-- `lfs.dir`; nothing is listed when there is no such directory. -/
def dir (cwd : List Str) (p : Str) : List Str :=
  match disk.resolve cwd p with
  | some d => if disk.kind? d = some .directory then dot :: dotdot :: disk.entries d else []
  | none => []

variable {disk}

theorem kind?_eq_some_iff {p : List Str} {k : Kind} :
    disk.kind? p = some k ↔ (p, k) ∈ disk.nodes :=
  lookup_eq_some_iff_mem disk.nodup

theorem kind?_root : disk.kind? [] = some .directory := kind?_eq_some_iff.mpr disk.root

theorem kind?_parent {d : List Str} {n : Str} {k : Kind} (h : disk.kind? (d ++ [n]) = some k) :
    disk.kind? d = some .directory := by
  have hclosed := disk.closed _ (kind?_eq_some_iff.mp h) (by simp)
  rw [List.dropLast_concat] at hclosed
  exact kind?_eq_some_iff.mpr hclosed

theorem entryName_of_kind? {p : List Str} {k : Kind} (h : disk.kind? p = some k) :
    ∀ n ∈ p, EntryName n :=
  disk.names _ (kind?_eq_some_iff.mp h)

theorem kind?_above {d ns : List Str} {k : Kind} (h : disk.kind? (d ++ ns) = some k)
    (hns : ns ≠ []) : disk.kind? d = some .directory := by
  induction ns using List.reverseRecOn generalizing k with
  | nil => exact absurd rfl hns
  | append_singleton ns n ih =>
      rw [← List.append_assoc] at h
      by_cases hnil : ns = []
      · subst hnil
        rw [List.append_nil] at h
        exact kind?_parent h
      · exact ih (kind?_parent h) hnil

theorem mem_entries_iff {d : List Str} {n : Str} :
    n ∈ disk.entries d ↔ ∃ k, disk.kind? (d ++ [n]) = some k := by
  simp only [entries, List.mem_filterMap]
  constructor
  · rintro ⟨⟨p, k⟩, hmem, h⟩
    split at h
    · rename_i hd
      obtain ⟨ns, rfl⟩ := List.getLast?_eq_some_iff.mp h
      rw [List.dropLast_concat] at hd
      exact ⟨k, kind?_eq_some_iff.mpr (hd ▸ hmem)⟩
    · cases h
  · rintro ⟨k, h⟩
    exact ⟨_, kind?_eq_some_iff.mp h, by simp⟩

theorem nodup_entries (d : List Str) : (disk.entries d).Nodup := by
  have hnodes : disk.nodes.Pairwise fun e e' => e.1 ≠ e'.1 := List.pairwise_map.mp disk.nodup
  refine List.Pairwise.filterMap _ (fun e e' hne n hn n' hn' => ?_) hnodes
  split at hn
  · split at hn'
    · obtain ⟨ns, hns⟩ := List.getLast?_eq_some_iff.mp hn
      obtain ⟨ns', hns'⟩ := List.getLast?_eq_some_iff.mp hn'
      rintro rfl
      rename_i hd hd'
      rw [hns, List.dropLast_concat] at hd
      rw [hns', List.dropLast_concat] at hd'
      exact hne (by rw [hns, hns', hd, hd'])
    · cases hn'
  · cases hn

theorem walk_append {cur qs rs : List Str} :
    disk.walk cur (qs ++ rs) = (disk.walk cur qs).bind fun d => disk.walk d rs := by
  induction qs generalizing cur with
  | nil => rfl
  | cons q qs ih =>
      rw [List.cons_append, walk, walk]
      split
      · rfl
      · split
        · exact ih
        · split
          · exact ih
          · exact ih

theorem walk_name {d : List Str} {n : Str} (hn : EntryName n) :
    disk.walk d [n] = if disk.kind? d = some .directory then some (d ++ [n]) else none := by
  obtain ⟨hne, hdot, hdotdot, -⟩ := hn
  rw [walk, if_neg (by simp [hne, hdot] : ¬ (n = [] ∨ n = dot)), if_neg hdotdot]
  by_cases h : disk.kind? d = some .directory
  · rw [if_neg (not_not.mpr h), if_pos h, walk]
  · rw [if_pos h, if_neg h]

/-- The system goes down along names as long as there are directories. -/
theorem walk_names {d ns : List Str} {k : Kind} (h : disk.kind? (d ++ ns) = some k)
    (hns : ∀ n ∈ ns, EntryName n) : disk.walk d ns = some (d ++ ns) := by
  induction ns using List.reverseRecOn generalizing k with
  | nil => rw [walk, List.append_nil]
  | append_singleton ns n ih =>
      rw [← List.append_assoc] at h ⊢
      have hdir := kind?_parent h
      rw [walk_append, ih hdir fun m hm => hns m (List.mem_append_left _ hm), Option.bind_some,
        walk_name (hns n (by simp)), if_pos hdir]

theorem walk_root (qs : List Str) : disk.walk [] ([] :: qs) = disk.walk [] qs := by
  rw [walk, if_neg (not_not.mpr kind?_root), if_pos (Or.inl rfl)]

def depth (disk : Disk) : ℕ := (disk.nodes.map fun e => e.1.length).foldr max 0

theorem length_le_depth {p : List Str} {k : Kind} (h : disk.kind? p = some k) :
    p.length ≤ disk.depth := by
  have hmem := kind?_eq_some_iff.mp h
  rw [depth]
  generalize disk.nodes = nodes at hmem
  induction nodes with
  | nil => cases hmem
  | cons e nodes ih =>
      rw [List.map_cons, List.foldr_cons]
      rcases List.mem_cons.mp hmem with rfl | hmem
      · exact Nat.le_max_left _ _
      · exact Nat.le_trans (ih hmem) (Nat.le_max_right _ _)

end Disk

section Currentdir

theorem read_currentdir (cwd : List Str) : (read (currentdir cwd)).anchor = some .root := by
  rw [read_anchor, currentdir, pieces_cons, if_pos (by decide)]
  exact anchorOf_root (pieces_ne_nil _)

theorem resolve_currentdir {disk : Disk} {cwd : List Str}
    (h : disk.kind? cwd = some .directory) (cur : List Str) :
    disk.resolve cur (currentdir cwd) = some cwd := by
  rw [Disk.resolve, currentdir, List.head?_cons, if_pos rfl, pieces_cons,
    if_pos (decide_eq_true rfl), Disk.walk_root]
  have hnames := Disk.entryName_of_kind? h
  by_cases hnil : cwd = []
  · subst hnil
    exact Disk.walk_root []
  · have hcut : pieces (fun c => c = '/') (concat '/' cwd) = cwd := by
      refine pieces_concat (by decide) hnil fun n hn c hc => decide_eq_false ?_
      rintro rfl
      exact (hnames n hn).2.2.2 hc
    rw [hcut]
    exact Disk.walk_names h hnames

end Currentdir

end Os

end Puremake
