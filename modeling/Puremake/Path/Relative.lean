import Puremake.Path.Normalize

/-!
# `resolve`, `relative` and the path functions built on them

`WPath.resolve cwd p` normalizes a path that has a root, and puts the current
directory in front of any other. `WPath.relative cwd pa pb` resolves both of
its arguments, compares their components from the front, and steps back from
the first and forward to the second; when the two have nothing in common beyond
the root it returns its second argument as it was given.

The values of the functions are written out in terms of readings: a path that
is resolved is read below the current directory, and its components are the
blind reduction of that reading.
-/

namespace Puremake

namespace WPath

/-- `wpath.currentdir`, where `cwd` is what `lfs.currentdir()` returns. -/
def currentdir (cwd : Str) : Str :=
  let ds := split cwd
  join (if ds.getLast? ≠ some [] then ds ++ [[]] else ds)

/-- `wpath.resolve` of a single argument. -/
def resolve (cwd p : Str) : Str :=
  if (parse p).root.isSome then normalize p else normalize (currentdir cwd ++ p)

/-- How many components two lists have in common from the front; the variable
`match` of `wpath.relative` is one more. -/
def common : List Str → List Str → ℕ
  | a :: as, b :: bs => if a = b then common as bs + 1 else 0
  | _, _ => 0

def relative (cwd pa pb : Str) : Str :=
  let a := split (resolve cwd pa)
  let b := split (resolve cwd pb)
  let a := if a.getLast? = some [] then a.dropLast else a
  let m := common a b
  if m = 0 ∨ (m = 1 ∧ a.head? = some []) then pb
  else
    let r := List.replicate (a.length - m) dotdot
    let r := if r = [] then [dot] else r
    join (r ++ b.drop m)

end WPath

namespace Path

def getrelative (cwd a b : Str) : Str := trim (WPath.relative cwd a b)

def getabsolute (cwd p : Str) : Str :=
  trim (if p.head? = some '$' then WPath.normalize p else WPath.resolve cwd p)

def isabsolute (a : Str) : Bool :=
  a.head? = some '/' || a.head? = some '\\' || a.head? = some '$' ||
    (a.head? = some '"' && a[1]? = some '$') || a[1]? = some ':'

/-- One part of `path.join`: an absolute part replaces what was joined so
far. -/
def joinPart (n v : Str) : Str :=
  if isabsolute v then v else (if n ≠ [] then n ++ ['/'] else n) ++ v

/-- `path.join`. The loop over the arguments stops at the first `nil`, and a
first argument that is `nil` or empty is replaced by `.`. -/
def join (aa : List (Option Str)) : Str :=
  let aa := match aa with
    | none :: aa => some dot :: aa
    | some [] :: aa => some dot :: aa
    | some v :: aa => some v :: aa
    | [] => [some dot]
  normalize (((aa.takeWhile Option.isSome).filterMap id).foldl joinPart [])

def rebase (cwd p oldbase newbase : Str) : Str :=
  getrelative cwd newbase (getabsolute cwd (join [some oldbase, some p]))

/-- `path.translate` with an explicit separator. -/
def translate (p : Str) (sep : Char) : Str :=
  if sep = '\\' then p.map fun c => if c = '/' then '\\' else c
  else if sep = '/' then p.map fun c => if c = '\\' then '/' else c
  else p

end Path

namespace WPath

section Currentdir

/-- `currentdir` ends in a separator, and what stands before it is read like
the current directory. -/
theorem currentdir_eq {cwd : Str} {a : Anchor} (ha : (read cwd).anchor = some a) :
    ∃ ds, currentdir cwd = join (a.piece :: ds) ++ ['/'] ∧
      ds.filter meaningful = (read cwd).comps ∧
      ∀ q ∈ ds, ∀ c ∈ q, isSeparator c = false := by
  obtain ⟨h, t, hp⟩ := exists_pieces_eq_cons isSeparator cwd
  obtain ⟨t', hsplit, hnil, hrem⟩ := split_spec hp
  rw [read_anchor, hp] at ha
  obtain ⟨rfl, hroot⟩ := head_of_anchorOf ha
  have hcomps : t'.filter meaningful = (read cwd).comps := by
    rw [read_comps, hp, afterAnchor, ha, ← filter_meaningful_removeDoubles, hrem,
      filter_meaningful_removeDoubles]
    rfl
  have hsep : ∀ q ∈ t', ∀ c ∈ q, isSeparator c = false := fun q hq =>
    isSep_of_mem_pieces (s := cwd) (mem_pieces_of_mem_split (by simp [hsplit, hq]))
  rw [currentdir, hsplit]
  by_cases hlast : (a.piece :: t').getLast? = some []
  · rcases List.eq_nil_or_concat t' with rfl | ⟨init, last, rfl⟩
    · cases a with
      | root => exact absurd (hnil.mp rfl) (hroot rfl)
      | drive x hx => simp [Anchor.piece] at hlast
    · have hlast' : last = [] := by
        rw [List.concat_eq_append, ← List.cons_append, List.getLast?_concat] at hlast
        exact Option.some.inj hlast
      subst hlast'
      refine ⟨init, ?_, ?_, fun q hq => hsep q (by simp [hq])⟩
      · rw [if_neg (by rw [hlast]; simp)]
        simp only [List.concat_eq_append, ← List.cons_append]
        exact Path.join_append_nil (by simp)
      · rw [← hcomps]
        simp [List.concat_eq_append, meaningful]
  · refine ⟨t', ?_, hcomps, hsep⟩
    rw [if_pos (by simpa using hlast)]
    exact Path.join_append_nil (by simp)

/-- A relative path behind the current directory is read below it. -/
theorem read_currentdir_append {cwd p : Str} {a : Anchor} (ha : (read cwd).anchor = some a)
    (hp : (read p).anchor = none) :
    read (currentdir cwd ++ p) = (read cwd).under (read p) ∧
      trail (currentdir cwd ++ p) = trail p := by
  obtain ⟨ds, hcur, hds, hsep⟩ := currentdir_eq ha
  have hpieces : pieces isSeparator (currentdir cwd ++ p) =
      a.piece :: (ds ++ pieces isSeparator p) := by
    rw [hcur, List.append_assoc, List.singleton_append,
      pieces_append_pieces _ (by decide), join, pieces_concat_slash (by simp)]
    · rfl
    · intro q hq
      rcases List.mem_cons.mp hq with rfl | hq
      · exact a.not_sep_piece
      · exact hsep q hq
  have hanchor : anchorOf (a.piece :: (ds ++ pieces isSeparator p)) = some a :=
    anchorOf_piece fun _ => by simp [pieces_ne_nil]
  have hcomps : (read p).comps = (pieces isSeparator p).filter meaningful := by
    rw [read_comps, afterAnchor, ← read_anchor, hp]
    rfl
  constructor
  · rw [Reading.under, hp]
    ext1
    · rw [read_anchor, hpieces, hanchor]
      exact ha.symm
    · rw [read_comps, hpieces, afterAnchor, hanchor]
      simp [List.filter_append, hds, hcomps]
  · rw [trail, trail, hpieces]
    obtain ⟨h, t, heq⟩ := exists_pieces_eq_cons isSeparator p
    rw [heq, ← List.cons_append, List.getLast?_append_cons]

end Currentdir

section Resolve

/-- The reading of a path that is resolved: below the current directory. -/
def resolved (cwd p : Str) : Reading := (read cwd).under (read p)

theorem isComp_of_mem_resolved {cwd p s : Str} (h : s ∈ (resolved cwd p).comps) :
    IsComp s := by
  rw [resolved, Reading.under] at h
  split at h
  · exact isComp_of_mem_read h
  · rcases List.mem_append.mp h with h | h <;> exact isComp_of_mem_read h

theorem resolved_anchor {cwd : Str} {a : Anchor} (ha : (read cwd).anchor = some a)
    (p : Str) : ∃ b, (resolved cwd p).anchor = some b := by
  rw [resolved, Reading.under]
  split
  · rename_i h
    exact Option.isSome_iff_exists.mp h
  · exact ⟨a, ha⟩

/-- What `resolve` returns: the pieces of the path read below the current
directory, and an empty component for a separator at the end. -/
theorem resolve_eq {cwd : Str} {a : Anchor} (ha : (read cwd).anchor = some a) (p : Str) :
    resolve cwd p = join (Path.normalPieces (resolved cwd p) ++ trail p) := by
  rw [resolve, parse_root_isSome, resolved, Reading.under]
  cases hp : (read p).anchor with
  | some b => exact normalize_eq p
  | none =>
      obtain ⟨hread, htrail⟩ := read_currentdir_append ha hp
      rw [Reading.under, hp] at hread
      rw [if_neg (by simp), normalize_eq, hread, htrail]
      rfl

end Resolve

section Common

theorem common_le_left (as bs : List Str) : common as bs ≤ as.length := by
  induction as generalizing bs with
  | nil => simp [common]
  | cons a as ih =>
      cases bs with
      | nil => simp [common]
      | cons b bs =>
          rw [common]
          split
          · simpa using ih bs
          · exact Nat.zero_le _

theorem take_common (as bs : List Str) :
    as.take (common as bs) = bs.take (common as bs) := by
  induction as generalizing bs with
  | nil => simp [common]
  | cons a as ih =>
      cases bs with
      | nil => simp [common]
      | cons b bs =>
          rw [common]
          split
          · rename_i h
            rw [List.take_succ_cons, List.take_succ_cons, ih bs, h]
          · simp

theorem common_le_right (as bs : List Str) : common as bs ≤ bs.length := by
  have h := congrArg List.length (take_common as bs)
  have hle := common_le_left as bs
  rw [List.length_take, List.length_take] at h
  omega

theorem common_append_self (as bs : List Str) : common as (as ++ bs) = as.length := by
  induction as with
  | nil => cases bs <;> simp [common]
  | cons a as ih => simp [common, ih]

/-- A path that is compared has no empty component, so a separator at the end of
the other one changes nothing. -/
theorem common_append_trail {as : List Str} (h : ∀ s ∈ as, s ≠ []) (bs : List Str)
    (p : Str) : common as (bs ++ trail p) = common as bs := by
  induction as generalizing bs with
  | nil => cases bs <;> simp [common]
  | cons a as ih =>
      cases bs with
      | nil =>
          rw [trail]
          split
          · simp [common, h a (by simp)]
          · rfl
      | cons b bs =>
          rw [List.cons_append, common, common, ih fun s hs => h s (by simp [hs])]

end Common

section Relative

/-- The components of a reading that `normalize` keeps. -/
def kept (r : Reading) : List Str := UpWord.blind compRole r.comps

/-- Two paths have something in common for `relative`: the same drive, or a
root and one component. -/
def CommonRoot (r s : Reading) : Prop :=
  r.anchor = s.anchor ∧ (r.anchor = some .root → 0 < common (kept r) (kept s))

instance (r s : Reading) : Decidable (CommonRoot r s) :=
  inferInstanceAs (Decidable (_ ∧ _))

def steps (r s : Reading) : List Str :=
  List.replicate ((kept r).length - common (kept r) (kept s)) dotdot ++
    (kept s).drop (common (kept r) (kept s))

theorem isComp_of_mem_kept {cwd p s : Str} (h : s ∈ kept (resolved cwd p)) : IsComp s :=
  isComp_of_mem_resolved (UpWord.mem_of_mem_blind h)

theorem trail_eq (p : Str) : trail p = [] ∨ trail p = [[]] := by
  rw [trail]
  split
  · exact Or.inr rfl
  · exact Or.inl rfl

/-- The components that `split` finds in a path that is resolved. -/
theorem split_resolve {cwd p : Str} {a b : Anchor} (ha : (read cwd).anchor = some a)
    (hb : (resolved cwd p).anchor = some b) :
    split (resolve cwd p) = b.piece :: (kept (resolved cwd p) ++ trail p) := by
  have hcomp : ∀ s ∈ kept (resolved cwd p), IsComp s := fun s => isComp_of_mem_kept
  rw [resolve_eq ha, Path.normalPieces, hb]
  refine split_join b.not_sep_piece ?_ ?_
  · intro q hq
    rcases List.mem_append.mp hq with hq | hq
    · exact (hcomp q hq).2.2
    · rcases trail_eq p with ht | ht <;> simp_all
  · intro q hq
    rcases trail_eq p with ht | ht
    · change q ∈ (kept (resolved cwd p) ++ trail p).dropLast at hq
      rw [ht, List.append_nil] at hq
      exact (hcomp q (List.dropLast_subset _ hq)).1
    · change q ∈ (kept (resolved cwd p) ++ trail p).dropLast at hq
      rw [ht, List.dropLast_concat] at hq
      exact (hcomp q hq).1

theorem piece_injective : Function.Injective Anchor.piece := by
  intro a b h
  cases a <;> cases b <;> simp_all [Anchor.piece]

/-- Cutting a separator off the end leaves the components, except at a root
that is written without a separator. -/
theorem cut_trail {cs : List Str} (hcs : ∀ s ∈ cs, s ≠ []) (a : Anchor) (p : Str) :
    (a = .root ∧ cs = [] ∧ trail p = []) ∨
      (if (a.piece :: (cs ++ trail p)).getLast? = some [] then
        (a.piece :: (cs ++ trail p)).dropLast else a.piece :: (cs ++ trail p)) =
        a.piece :: cs := by
  rcases trail_eq p with ht | ht
  · rw [ht, List.append_nil]
    rcases List.eq_nil_or_concat cs with rfl | ⟨init, last, rfl⟩
    · cases a with
      | root => exact Or.inl ⟨rfl, rfl, rfl⟩
      | drive x hx => exact Or.inr (if_neg (by simp [Anchor.piece]))
    · have hlast : last ≠ [] := hcs last (by simp)
      refine Or.inr (if_neg ?_)
      rw [List.concat_eq_append, ← List.cons_append, List.getLast?_concat]
      simpa using hlast
  · refine Or.inr ?_
    rw [ht, ← List.cons_append, List.getLast?_concat, if_pos rfl, List.dropLast_concat]

theorem stepsBack_eq {n k : ℕ} (hk : k ≤ n) :
    (if List.replicate (n - k) dotdot = [] then [dot] else List.replicate (n - k) dotdot) =
      (if n = k then [dot] else []) ++ List.replicate (n - k) dotdot := by
  by_cases h : n = k
  · simp [h]
  · have hpos : n - k ≠ 0 := by omega
    simp [h, hpos]

/-- What `relative` returns: the second argument as it was given when the two
paths have nothing in common, and otherwise the steps between them. -/
theorem relative_eq {cwd : Str} {c : Anchor} (hc : (read cwd).anchor = some c) (pa pb : Str) :
    relative cwd pa pb =
      if CommonRoot (resolved cwd pa) (resolved cwd pb) then
        join ((if (kept (resolved cwd pa)).length =
            common (kept (resolved cwd pa)) (kept (resolved cwd pb)) then [dot] else []) ++
          steps (resolved cwd pa) (resolved cwd pb) ++ trail pb)
      else pb := by
  obtain ⟨a, ha⟩ := resolved_anchor hc pa
  obtain ⟨b, hb⟩ := resolved_anchor hc pb
  have hne : ∀ s ∈ kept (resolved cwd pa), s ≠ [] := fun s hs => (isComp_of_mem_kept hs).1
  have hle := common_le_left (kept (resolved cwd pa)) (kept (resolved cwd pb))
  have hler := common_le_right (kept (resolved cwd pa)) (kept (resolved cwd pb))
  have hroot : CommonRoot (resolved cwd pa) (resolved cwd pb) ↔
      a = b ∧ (a = .root → 0 < common (kept (resolved cwd pa)) (kept (resolved cwd pb))) := by
    rw [CommonRoot, ha, hb, Option.some_inj, Option.some_inj]
  rw [relative, split_resolve hc ha, split_resolve hc hb]
  rcases cut_trail hne a pa with ⟨rfl, hnil, htrail⟩ | hcut
  · have hno : ¬ CommonRoot (resolved cwd pa) (resolved cwd pb) := fun h => by
      simpa [hnil, common] using (hroot.mp h).2
    rw [if_neg hno]
    simp [hnil, htrail, Anchor.piece, common]
  · simp only [hcut, common, common_append_trail hne]
    by_cases hab : a = b
    · subst hab
      rw [if_pos rfl, List.length_cons, Nat.add_sub_add_right, stepsBack_eq hle,
        List.drop_succ_cons, List.drop_append_of_le_length hler, List.head?_cons]
      by_cases hpos : a = .root → 0 < common (kept (resolved cwd pa)) (kept (resolved cwd pb))
      · rw [if_pos (hroot.mpr ⟨rfl, hpos⟩), if_neg]
        · simp only [steps, List.append_assoc]
        · rintro (h | ⟨h, hhead⟩)
          · omega
          · cases a with
            | root => exact absurd (hpos rfl) (by omega)
            | drive x hx => simp [Anchor.piece] at hhead
      · have hno : ¬ CommonRoot (resolved cwd pa) (resolved cwd pb) := fun h =>
          hpos (hroot.mp h).2
        rw [Classical.not_imp] at hpos
        obtain ⟨rfl, hzero⟩ := hpos
        rw [if_neg hno, if_pos (Or.inr ⟨by omega, rfl⟩)]
    · have hpiece : a.piece ≠ b.piece := fun h => hab (piece_injective h)
      have hno : ¬ CommonRoot (resolved cwd pa) (resolved cwd pb) := fun h =>
        hab (hroot.mp h).1
      rw [if_neg hpiece, if_pos (Or.inl rfl), if_neg hno]

end Relative

end WPath

end Puremake
