import Puremake.Path.Absolute
import Puremake.Path.Join
import Puremake.Path.Leads
import Puremake.UpWord.Above

/-!
# Does `path.rebase` keep the place of a path?

A path is written out when none of its components looks absolute by itself, and it looks
absolute only where it has an anchor. Seen from another directory, such a path that ends in a
name denotes the same place. What may be lost is lost earlier, when a directory and a name are
joined without the base below which they are read: of the moves up that lead out of the
directory, `join` keeps only one, or none.
-/

namespace Puremake

namespace Path

open WPath

/-- A reading in which no component is a variable, or looks absolute by itself in another way. -/
def Plain (r : Reading) : Prop := ∀ q ∈ r.comps, isabsolute q = false

/-- A path that is written out: its components do not look absolute, and the path does so only
where it has an anchor. -/
def WrittenOut (p : Str) : Prop :=
  (isabsolute p → (read p).anchor.isSome) ∧ Plain (read p)

def EndsInName (r : Reading) : Prop := r.comps ≠ [] ∧ r.comps.getLast? ≠ some dotdot

/-- A directory that paths are read from: it is anchored, and its components do not look
absolute. -/
def IsBase (p : Str) : Prop := (read p).anchor.isSome ∧ Plain (read p)

instance (r : Reading) : Decidable (Plain r) := List.decidableBAll _ r.comps

instance (r : Reading) : Decidable (EndsInName r) := inferInstanceAs (Decidable (_ ∧ _))

instance (p : Str) : Decidable (WrittenOut p) := inferInstanceAs (Decidable (_ ∧ _))

instance (p : Str) : Decidable (IsBase p) := inferInstanceAs (Decidable (_ ∧ _))

section Plain

variable {r s : Reading} {a : Anchor}

theorem driveOf_of_not_isabsolute {q : Str} (h : isabsolute q = false) : driveOf q = none := by
  by_contra hne
  rw [isabsolute_of_drive (Option.isSome_iff_ne_none.mpr hne)] at h
  cases h

theorem Plain.supple (h : Plain r) : UpWord.Supple compRole r.comps := by
  intro q hq hrigid
  have habs := isabsolute_of_dollar (compRole_eq_rigid.mp hrigid)
  rw [h q hq] at habs
  cases habs

theorem Plain.kept (h : Plain r) (b : Option Anchor) : Plain ⟨b, WPath.kept r⟩ := fun q hq =>
  h q (UpWord.mem_of_mem_blind hq)

theorem Plain.under (hr : Plain r) (hs : Plain s) : Plain (r.under s) := by
  rw [Reading.under]
  split
  · exact hs
  · intro q hq
    rcases List.mem_append.mp hq with hq | hq
    · exact hr q hq
    · exact hs q hq

theorem comps_place (ha : r.anchor = some a) :
    r.place.comps = UpWord.reduce compRole true r.comps := by
  simp [Reading.place, ha]

theorem Plain.settled (h : Plain r) (ha : r.anchor = some a) : Settled r := by
  rw [Settled, forall_ne_dotdot_iff, comps_place ha]
  exact fun q => UpWord.ne_up_of_mem_reduce h.supple

/-- Between plain readings the steps do not climb over a variable, and do not begin like a
drive. -/
theorem Plain.walkable (hr : Plain r) (hs : Plain s) : Walkable r s := by
  refine ⟨fun q hq hdollar => ?_, fun q hq => ?_⟩
  · have habs := isabsolute_of_dollar hdollar
    rw [hr.kept none q (List.mem_of_mem_drop hq)] at habs
    cases habs
  · rcases List.mem_append.mp (List.mem_of_mem_head? hq) with hq | hq
    · rw [List.eq_of_mem_replicate hq]
      rfl
    · exact driveOf_of_not_isabsolute (hs.kept none q (List.mem_of_mem_drop hq))

theorem Plain.place_kept (h : Plain r) (ha : r.anchor = some a) :
    (Reading.mk (some a) (WPath.kept r)).place = r.place := by
  ext1
  · exact ha.symm
  · rw [comps_place ha, comps_place rfl]
    exact UpWord.reduce_blind_of_supple h.supple

theorem endsInName_iff : EndsInName r ↔ ∃ cs q, r.comps = cs ++ [q] ∧ q ≠ dotdot := by
  rw [EndsInName]
  constructor
  · rintro ⟨hne, hlast⟩
    refine ⟨_, r.comps.getLast hne, (List.dropLast_concat_getLast hne).symm, fun hq => hlast ?_⟩
    rw [List.getLast?_eq_some_getLast hne, hq]
  · rintro ⟨cs, q, hcomps, hq⟩
    rw [hcomps, List.getLast?_concat]
    exact ⟨List.append_ne_nil_of_right_ne_nil cs (List.cons_ne_nil q []),
      fun h => hq (Option.some.inj h)⟩

theorem EndsInName.under (h : EndsInName s) : EndsInName (r.under s) := by
  obtain ⟨cs, q, hcomps, hq⟩ := endsInName_iff.mp h
  rw [Reading.under]
  split
  · exact h
  · exact endsInName_iff.mpr ⟨r.comps ++ cs, q, by rw [hcomps, List.append_assoc], hq⟩

theorem EndsInName.kept (h : EndsInName r) (b : Option Anchor) :
    EndsInName ⟨b, WPath.kept r⟩ := by
  obtain ⟨cs, q, hcomps, hq⟩ := endsInName_iff.mp h
  refine endsInName_iff.mpr ⟨WPath.kept ⟨none, cs⟩, q, ?_, hq⟩
  have hkept := kept_append none cs fun hup => hq (compRole_eq_up.mp hup)
  rw [← hkept, ← hcomps]
  rfl

theorem keepsAnchor_of_endsInName (hplain : Plain r) (hname : EndsInName r) : KeepsAnchor r := by
  rw [keepsAnchor_iff]
  refine ⟨fun _ => ?_, fun _ q hq => ?_⟩
  · exact (hname.kept none).1
  · exact driveOf_of_not_isabsolute (hplain.kept none q (List.mem_of_mem_head? hq))

end Plain

section Written

variable {r : Reading} {p dir name : Str}

/-- What is written for a plain reading that ends in a name looks absolute where the reading
has an anchor. -/
theorem isabsolute_written (hr : ∀ q ∈ r.comps, IsComp q) (hplain : Plain r)
    (hname : EndsInName r) : isabsolute (WPath.join (normalPieces r)) = r.anchor.isSome := by
  have hkeeps := keepsAnchor_of_endsInName hplain hname
  cases ha : r.anchor with
  | some a =>
      have hstanding : Standing r := by
        rw [Standing, ha]
        cases a with
        | root => exact (keepsAnchor_iff.mp hkeeps).1 ha
        | drive x hx => trivial
      exact (hstanding.written hr).1
  | none =>
      have hne : kept r ≠ [] := (hname.kept none).1
      obtain ⟨q, qs, hkept⟩ := List.exists_cons_of_ne_nil hne
      have hq : q ∈ kept r := hkept ▸ List.mem_cons_self
      have hpieces : normalPieces r = q :: qs := by
        rw [kept] at hkept
        simp [normalPieces, ha, hkept]
      rw [hpieces, isabsolute_join (hr q (UpWord.mem_of_mem_blind hq)).1]
      exact hplain.kept none q hq

theorem writtenOut_written (hr : ∀ q ∈ r.comps, IsComp q) (hplain : Plain r)
    (hname : EndsInName r) : WrittenOut (WPath.join (normalPieces r)) := by
  have hread := read_written hr (keepsAnchor_of_endsInName hplain hname)
  refine ⟨fun habs => ?_, ?_⟩
  · rw [isabsolute_written hr hplain hname] at habs
    rw [hread]
    exact habs
  · rw [hread]
    exact hplain.kept _

theorem follow_of_writtenOut (h : WrittenOut p) (r : Reading) : follow r p = r.under (read p) := by
  rw [Reading.under]
  cases habs : isabsolute p with
  | true => rw [follow_of_isabsolute habs, if_pos (h.1 habs)]
  | false =>
      rw [follow_of_not_isabsolute habs, if_neg]
      rw [anchor_of_not_isabsolute habs]
      simp

theorem join_of_writtenOut (hname : WrittenOut name) :
    join [some dir, some name] = WPath.join (normalPieces ((read dir).under (read name))) := by
  rw [join_eq_course (by simp), course_some_cons]
  exact congrArg (fun r => WPath.join (normalPieces r)) (follow_of_writtenOut hname _)

theorem isComp_of_mem_under {q : Str} (h : q ∈ ((read dir).under (read name)).comps) :
    IsComp q := by
  rw [Reading.under] at h
  split at h
  · exact isComp_of_mem_read h
  · rcases List.mem_append.mp h with h | h <;> exact isComp_of_mem_read h

theorem read_join (hdir : Plain (read dir)) (hname : WrittenOut name)
    (hends : EndsInName (read name)) :
    read (join [some dir, some name]) =
      ⟨((read dir).under (read name)).anchor, kept ((read dir).under (read name))⟩ := by
  rw [join_of_writtenOut hname]
  exact read_written (fun q => isComp_of_mem_under)
    (keepsAnchor_of_endsInName (hdir.under hname.2) hends.under)

end Written

section Rebase

variable {cwd p oldbase newbase : Str} {c : Anchor}

/-- Between plain anchored paths `getrelative` leads from the first one to the second one. -/
theorem place_getrelative (hc : (read cwd).anchor = some c) {a b : Str} (ha : IsBase a)
    (hb : IsBase b) (hnormal : normalize b = b) :
    ((read a).under (read (getrelative cwd a b))).place = (read b).place := by
  obtain ⟨d, hd⟩ := Option.isSome_iff_exists.mp ha.1
  obtain ⟨e, he⟩ := Option.isSome_iff_exists.mp hb.1
  have hA : resolved cwd a = read a := if_pos ha.1
  have hB : resolved cwd b = read b := if_pos hb.1
  by_cases hroot : CommonRoot (resolved cwd a) (resolved cwd b)
  · obtain rfl : d = e := by
      have hanchor := hroot.1
      rw [hA, hB, hd, he] at hanchor
      exact Option.some.inj hanchor
    by_cases hkept : kept (read a) = kept (read b)
    · have hnil : read (getrelative cwd a b) = ⟨none, []⟩ := by
        rw [getrelative_of_kept_eq hc hroot (by rw [hA, hB, hkept])]
        split <;> rfl
      have hself : (read a).under ⟨none, []⟩ = read a := by simp [Reading.under]
      rw [hnil, hself]
      exact place_eq_of_kept_eq hd he (ha.2.settled hd) (hb.2.settled he) hkept
    · have hsteps : steps (resolved cwd a) (resolved cwd b) ≠ [] := fun hnil => by
        rw [steps_eq_nil_iff, hA, hB] at hnil
        exact hkept hnil
      have hplace := @place_under_join_steps cwd a b d (hA ▸ hd) (hB ▸ he)
        (hA ▸ ha.2.settled hd) (hB ▸ hb.2.settled he) hsteps
      rw [getrelative_of_steps hc hroot hsteps, ← hB, ← hplace.mpr ?_, hA]
      rw [hA, hB]
      exact ha.2.walkable hb.2
  · rw [getrelative_of_not_commonRoot hc hroot, ← hnormal, trim_normalize, hnormal,
      Reading.under, if_pos hb.1]

/-- `path.rebase` keeps the place of a path that is written out and ends in a name. -/
theorem place_rebase (hc : (read cwd).anchor = some c) (hold : IsBase oldbase)
    (hnew : IsBase newbase) (hp : WrittenOut p) (hname : EndsInName (read p)) :
    ((read newbase).under (read (rebase cwd p oldbase newbase))).place =
      ((read oldbase).under (read p)).place := by
  have hcomps : ∀ q ∈ ((read oldbase).under (read p)).comps, IsComp q := fun q =>
    isComp_of_mem_under
  have hplain : Plain ((read oldbase).under (read p)) := hold.2.under hp.2
  have hread := read_written hcomps (keepsAnchor_of_endsInName hplain hname.under)
  obtain ⟨a, ha⟩ : ∃ a, ((read oldbase).under (read p)).anchor = some a := by
    rw [Reading.under]
    split
    · rename_i hanchor
      exact Option.isSome_iff_exists.mp hanchor
    · exact Option.isSome_iff_exists.mp hold.1
  have hbase : IsBase (WPath.join (normalPieces ((read oldbase).under (read p)))) := by
    rw [IsBase, hread, ha]
    exact ⟨rfl, hplain.kept _⟩
  have hnormal := normalize_join_normalPieces hcomps
  rw [rebase, join_of_writtenOut hp, getabsolute_of_anchored hc (.inr hbase.1), hnormal,
    place_getrelative hc hnew hbase hnormal, hread, ha]
  exact hplain.place_kept ha

end Rebase

section Under

variable {base : Str}

theorem under_of_anchored {r s : Reading} (h : s.anchor.isSome) : r.under s = s := if_pos h

theorem under_of_relative {r s : Reading} (h : s.anchor = none) :
    r.under s = ⟨r.anchor, r.comps ++ s.comps⟩ := by
  simp [Reading.under, h]

/-- A plain reading may be normalized before it is read below a base exactly when it has an
anchor of its own, or leads out of the base by at most one level, or would lead to the root in
any case. -/
theorem place_under_kept_iff {r : Reading} (hbase : IsBase base) (hplain : Plain r) :
    ((read base).under ⟨r.anchor, kept r⟩).place = ((read base).under r).place ↔
      r.anchor.isSome ∨ UpWord.absorbed compRole r.comps ≤ 1 ∨
        (read base).place.comps.length ≤ UpWord.absorbed compRole r.comps % 2 := by
  obtain ⟨d, hd⟩ := Option.isSome_iff_exists.mp hbase.1
  cases ha : r.anchor with
  | some a =>
      rw [under_of_anchored (by rfl), under_of_anchored (by rw [ha]; rfl)]
      exact iff_of_true (hplain.place_kept ha) (.inl rfl)
  | none =>
      rw [under_of_relative (by rfl), under_of_relative ha, hd, Place.ext_iff,
        comps_place (by rfl), comps_place (by rfl), comps_place hd,
        ← UpWord.reduce_append_blind_iff hbase.2.supple hplain.supple]
      simp [Reading.place, kept]

end Under

section Translate

theorem pieces_translate (p : Str) :
    pieces isSeparator (translate p '\\') = pieces isSeparator p := by
  rw [translate, if_pos rfl]
  induction p with
  | nil => rfl
  | cons c p ih =>
      rw [List.map_cons, pieces_cons, pieces_cons, ih]
      by_cases hc : c = '/'
      · rw [if_pos hc, hc, if_pos (by decide), if_pos (by decide)]
      · rw [if_neg hc]

theorem read_translate (p : Str) : read (translate p '\\') = read p := by
  rw [read, read, pieces_translate]

theorem isabsolute_translate (p : Str) : isabsolute (translate p '\\') = isabsolute p := by
  rw [translate, if_pos rfl]
  cases p with
  | nil => rfl
  | cons c p =>
      by_cases hc : c = '/'
      · rw [hc]
        rfl
      · cases p with
        | nil => simp [isabsolute, hc]
        | cons d p => by_cases hd : d = '/' <;> simp [isabsolute, hc, hd]

theorem WrittenOut.translate {p : Str} (h : WrittenOut p) : WrittenOut (translate p '\\') := by
  rw [WrittenOut, isabsolute_translate, read_translate]
  exact h

end Translate

end Path

end Puremake
