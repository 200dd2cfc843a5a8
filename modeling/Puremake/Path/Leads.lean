import Puremake.Path.Meaning
import Puremake.Path.Relative

/-!
# Does `path.getrelative` lead from its first argument to its second?

Between two paths with a common root the result is the steps back from the
first and forward to the second. The steps lead there when nothing that they
climb over is a macro and no `..` of the two paths was removed without being
cancelled; the result is `.` only when the components agree and the second path
does not end in a separator. Between paths without a common root the result is
the second argument with its ends trimmed, which is right for an absolute path,
and for a relative one only when it looks the same from both directories. A
path that starts with `$` comes back normalized only from the current directory
itself, or when it was normalized already.
-/

namespace Puremake

namespace Path

open WPath

/-- What `getrelative` is to do. A path that starts with `$` is normalized; any
other result, read from the first path, denotes the place of the second one,
and is `.` exactly when the two places are the same. -/
def LeadsTo (cwd a b : Str) : Prop :=
  if b.head? = some '$' then getrelative cwd a b = normalize b
  else ((resolved cwd a).under (read (getrelative cwd a b))).place = (resolved cwd b).place ∧
    (getrelative cwd a b = dot ↔ (resolved cwd a).place = (resolved cwd b).place)

/-- A reading in which every `..` is cancelled or absorbed. -/
def Settled (r : Reading) : Prop := ∀ s ∈ r.place.comps, s ≠ dotdot

/-- The steps back from `r` do not climb over a macro, and the steps forward do
not begin like a drive. -/
def Walkable (r s : Reading) : Prop :=
  (∀ q ∈ (kept r).drop (common (kept r) (kept s)), q.head? ≠ some '$') ∧
    ∀ q ∈ (steps r s).head?, driveOf q = none

/-- The arguments for which `getrelative` does what `LeadsTo` says. -/
def Leading (cwd a b : Str) : Prop :=
  if b.head? = some '$' then
    if CommonRoot (resolved cwd a) (resolved cwd b) then
      Settled (resolved cwd b) ∧ (read b).anchor = none ∧
        kept (resolved cwd a) = kept (read cwd)
    else trim b = normalize b
  else if CommonRoot (resolved cwd a) (resolved cwd b) then
    Settled (resolved cwd a) ∧ Settled (resolved cwd b) ∧
      Walkable (resolved cwd a) (resolved cwd b) ∧
      ((resolved cwd a).place = (resolved cwd b).place →
        kept (resolved cwd a) = kept (resolved cwd b) ∧ trail b = [])
  else if (read b).anchor.isSome then
    b ≠ ['/'] ∧ (resolved cwd a).place ≠ (resolved cwd b).place
  else
    ((resolved cwd a).under (read (trim b))).place = (resolved cwd b).place ∧
      (trim b = dot ↔ (resolved cwd a).place = (resolved cwd b).place)

instance (r : Reading) : Decidable (Settled r) :=
  inferInstanceAs (Decidable (∀ s ∈ _, _))

instance (r s : Reading) : Decidable (Walkable r s) :=
  inferInstanceAs (Decidable ((∀ _ ∈ _, _) ∧ _))

instance (cwd a b : Str) : Decidable (Leading cwd a b) := by
  unfold Leading
  infer_instance

section Value

variable {cwd a b : Str}

theorem isComp_of_mem_steps {s : Str}
    (h : s ∈ steps (resolved cwd a) (resolved cwd b)) : IsComp s := by
  rcases List.mem_append.mp h with h | h
  · rw [List.eq_of_mem_replicate h]
    exact isComp_dotdot
  · exact isComp_of_mem_kept (List.mem_of_mem_drop h)

/-- There are no steps exactly between paths with the same components. -/
theorem steps_eq_nil_iff {r s : Reading} : steps r s = [] ↔ kept r = kept s := by
  rw [steps, List.append_eq_nil_iff, List.replicate_eq_nil_iff, List.drop_eq_nil_iff]
  constructor
  · rintro ⟨hr, hs⟩
    have h := take_common (kept r) (kept s)
    rwa [List.take_of_length_le (by omega), List.take_of_length_le hs] at h
  · intro h
    have hself : common (kept r) (kept s) = (kept r).length := by
      simpa [h] using common_append_self (kept s) []
    rw [hself, h]
    simp

theorem getrelative_of_not_commonRoot {c : Anchor} (hc : (read cwd).anchor = some c)
    (h : ¬ CommonRoot (resolved cwd a) (resolved cwd b)) :
    getrelative cwd a b = trim b := by
  rw [getrelative, relative_eq hc, if_neg h]

theorem getrelative_of_steps {c : Anchor} (hc : (read cwd).anchor = some c)
    (h : CommonRoot (resolved cwd a) (resolved cwd b))
    (hne : steps (resolved cwd a) (resolved cwd b) ≠ []) :
    getrelative cwd a b = WPath.join (steps (resolved cwd a) (resolved cwd b)) := by
  have hcomp : ∀ s ∈ steps (resolved cwd a) (resolved cwd b), IsComp s :=
    fun s => isComp_of_mem_steps
  have hsep : ∀ q ∈ steps (resolved cwd a) (resolved cwd b), ∀ c ∈ q,
      isSeparator c = false := fun q hq => (hcomp q hq).2.2
  have hhead : (steps (resolved cwd a) (resolved cwd b)).head? ≠ some dot := fun hd =>
    (hcomp dot (List.mem_of_mem_head? hd)).2.1 rfl
  have hlast : (steps (resolved cwd a) (resolved cwd b)).length ≤ 1 ∨
      (steps (resolved cwd a) (resolved cwd b)).getLast? ≠ some [] :=
    Or.inr fun hl => (hcomp [] (List.mem_of_getLast? hl)).1 rfl
  rw [getrelative, relative_eq hc, if_pos h]
  split
  · have hcut : trimDot
        (WPath.join ([dot] ++ steps (resolved cwd a) (resolved cwd b) ++ trail b)) =
        WPath.join (steps (resolved cwd a) (resolved cwd b) ++ trail b) := by
      rw [WPath.join, List.append_assoc, List.singleton_append, concat_cons (by simp [hne])]
      simp [trimDot, Str.startswith, dot, WPath.join]
    rw [trim, hcut, trimSlash_join hsep hlast]
  · rw [List.nil_append, trim_join hsep hhead hlast]

/-- Between equal components the result is `.`, or empty when the second path
ends in a separator. -/
theorem getrelative_of_kept_eq {c : Anchor} (hc : (read cwd).anchor = some c)
    (h : CommonRoot (resolved cwd a) (resolved cwd b))
    (heq : kept (resolved cwd a) = kept (resolved cwd b)) :
    getrelative cwd a b = if trail b = [] then dot else [] := by
  have hself : common (kept (resolved cwd b)) (kept (resolved cwd b)) =
      (kept (resolved cwd b)).length := by
    simpa using common_append_self (kept (resolved cwd b)) []
  rw [getrelative, relative_eq hc, if_pos h, steps_eq_nil_iff.mpr heq, heq, hself,
    if_pos rfl]
  rcases trail_eq b with ht | ht <;> rw [ht] <;> decide

end Value

section Walk

/-- On an anchored reading that is settled, what `normalize` keeps denotes the
same place. -/
theorem reduce_kept {r : Reading} {a : Anchor} (ha : r.anchor = some a) (h : Settled r) :
    UpWord.reduce compRole true (kept r) = r.place.comps := by
  have hplace : r.place.comps = UpWord.reduce compRole true r.comps := by
    simp [Reading.place, ha]
  rw [Settled, forall_ne_dotdot_iff, hplace] at h
  rw [hplace]
  exact (UpWord.reduce_blind_eq_iff r.comps).mpr h

theorem ne_up_of_mem_tail_drop_kept {r : Reading} {n : ℕ} {s : Str}
    (h : s ∈ ((kept r).drop n).tail) : compRole s ≠ .up := by
  refine UpWord.ne_up_of_mem_tail_blind (w := r.comps) ?_
  rw [List.tail_drop, ← List.drop_tail] at h
  exact List.mem_of_mem_drop h

theorem place_under_relative {r : Reading} {a : Anchor} (ha : r.anchor = some a)
    (w : List Str) :
    (r.under ⟨none, w⟩).place.comps = UpWord.reduce compRole true (r.comps ++ w) := by
  simp [Reading.under, Reading.place, ha]

/-- Below a settled reading, a path is read like below the components that
`normalize` keeps. -/
theorem reduce_append_of_settled {r : Reading} {a : Anchor} (ha : r.anchor = some a)
    (h : Settled r) (w : List Str) :
    UpWord.reduce compRole true (r.comps ++ w) =
      UpWord.reduce compRole true (kept r ++ w) := by
  have hplace : r.place.comps = UpWord.reduce compRole true r.comps := by
    simp [Reading.place, ha]
  rw [← UpWord.reduce_reduce_append r.comps w, ← hplace, ← reduce_kept ha h,
    UpWord.reduce_reduce_append]

theorem length_stepsBack {r s : Reading} :
    (List.replicate ((kept r).length - common (kept r) (kept s)) dotdot).length =
      ((kept r).drop (common (kept r) (kept s))).length := by
  rw [List.length_replicate, List.length_drop]

/-- The steps lead from one settled reading to another when they do not climb
over a macro. -/
theorem place_under_steps {r s : Reading} {a : Anchor} (hr : r.anchor = some a)
    (hs : s.anchor = some a) (hsr : Settled r) (hss : Settled s)
    (hclimb : ∀ q ∈ (kept r).drop (common (kept r) (kept s)), q.head? ≠ some '$') :
    (r.under ⟨none, steps r s⟩).place.comps = s.place.comps := by
  rw [place_under_relative hr, reduce_append_of_settled hr hsr, ← reduce_kept hs hss]
  have hback : ∀ st, (st = [] ∨ 0 < common (kept r) (kept s)) →
      UpWord.reduceFrom compRole true st
        ((kept r).drop (common (kept r) (kept s)) ++
          List.replicate ((kept r).length - common (kept r) (kept s)) dotdot) = st := by
    intro st hst
    refine UpWord.reduceFrom_back length_stepsBack ?_ ?_ ?_ ?_
    · intro u hu
      exact compRole_eq_up.mpr (List.eq_of_mem_replicate hu)
    · intro q hq hrigid
      exact hclimb q hq (compRole_eq_rigid.mp hrigid)
    · exact fun q hq => ne_up_of_mem_tail_drop_kept hq
    · refine hst.imp_right fun hpos q hq => ?_
      obtain ⟨n, hn⟩ : ∃ n, common (kept r) (kept s) = n + 1 :=
        ⟨_, (Nat.succ_pred_eq_of_pos hpos).symm⟩
      refine UpWord.ne_up_of_mem_tail_blind (w := r.comps) ?_
      rw [hn, ← List.drop_tail] at hq
      exact List.mem_of_mem_drop (List.mem_of_mem_head? hq)
  have hsplit : kept r ++ steps r s =
      (kept s).take (common (kept r) (kept s)) ++
        ((kept r).drop (common (kept r) (kept s)) ++
          List.replicate ((kept r).length - common (kept r) (kept s)) dotdot) ++
        (kept s).drop (common (kept r) (kept s)) := by
    rw [← take_common, steps, ← List.append_assoc, ← List.append_assoc,
      List.take_append_drop]
  rw [hsplit, UpWord.reduce, UpWord.reduceFrom_append, UpWord.reduceFrom_append, hback,
    ← UpWord.reduceFrom_append, List.take_append_drop, UpWord.reduce]
  by_cases hpos : 0 < common (kept r) (kept s)
  · exact Or.inr hpos
  · left
    have hzero : common (kept r) (kept s) = 0 := by omega
    rw [hzero]
    rfl

/-- When the steps climb over a macro, a `..` is left standing behind it. -/
theorem exists_dotdot_of_climb {r s : Reading} {a : Anchor} (hr : r.anchor = some a)
    (hsr : Settled r)
    (hclimb : ∃ q ∈ (kept r).drop (common (kept r) (kept s)), q.head? = some '$') :
    ∃ q ∈ (r.under ⟨none, steps r s⟩).place.comps, q = dotdot := by
  obtain ⟨q, hq, hmacro⟩ := hclimb
  have hstay := UpWord.exists_up_of_back_rigid
    (UpWord.reduceFrom compRole true [] ((kept r).take (common (kept r) (kept s))))
    length_stepsBack (fun u hu => compRole_eq_up.mpr (List.eq_of_mem_replicate hu))
    ⟨q, hq, compRole_eq_rigid.mpr hmacro⟩ (fun x hx => ne_up_of_mem_tail_drop_kept hx)
    ((kept s).drop (common (kept r) (kept s)))
  rw [← UpWord.reduceFrom_append, ← List.append_assoc, List.take_append_drop] at hstay
  obtain ⟨x, hx, hup⟩ := hstay
  refine ⟨x, ?_, compRole_eq_up.mp hup⟩
  rw [place_under_relative hr, reduce_append_of_settled hr hsr, UpWord.reduce,
    List.mem_reverse]
  exact hx

/-- When the steps begin like a drive, they are read from there and miss the
components before them. -/
theorem place_ne_of_drive {r s : Reading} {a d : Anchor} {q : Str} {qs : List Str}
    (hs : s.anchor = some a) (hss : Settled s) (hsteps : steps r s = q :: qs)
    (hd : driveOf q = some d) : (Reading.mk (some d) qs).place.comps ≠ s.place.comps := by
  have hup : q ≠ dotdot := by
    rintro rfl
    cases hd
  have hdrop : (kept s).drop (common (kept r) (kept s)) = q :: qs := by
    rw [steps] at hsteps
    cases hk : (kept r).length - common (kept r) (kept s) with
    | zero => simpa [hk] using hsteps
    | succ n =>
        rw [hk, List.replicate_succ, List.cons_append, List.cons.injEq] at hsteps
        exact absurd hsteps.1.symm hup
  have hqs : ∀ x ∈ qs, compRole x ≠ .up := fun x hx =>
    ne_up_of_mem_tail_drop_kept (by rw [hdrop]; exact hx)
  have hplace : s.place.comps = UpWord.reduce compRole true s.comps := by
    simp [Reading.place, hs]
  rw [Settled, forall_ne_dotdot_iff, hplace] at hss
  obtain ⟨f, hf, hkept⟩ := UpWord.blind_anchored hss
  have hself : (Reading.mk (some d) qs).place.comps = qs := UpWord.reduce_eq_self hqs
  rw [hself, hplace]
  intro heq
  have hcut : (kept s).take (common (kept r) (kept s)) ++ [q] = f := by
    refine (List.append_left_inj qs).mp ?_
    rw [List.append_assoc, List.singleton_append, ← hdrop, List.take_append_drop]
    rw [kept, hkept, ← heq]
  exact hup (compRole_eq_up.mp (hf.ups q (by simp [← hcut])))

end Walk

section Common

variable {cwd a b : Str}

theorem place_eq_of_kept_eq {r s : Reading} {d : Anchor} (hr : r.anchor = some d)
    (hs : s.anchor = some d) (hsr : Settled r) (hss : Settled s) (h : kept r = kept s) :
    r.place = s.place := by
  ext1
  · exact hr.trans hs.symm
  · rw [← reduce_kept hr hsr, ← reduce_kept hs hss, h]

theorem join_steps_ne_dot (hne : steps (resolved cwd a) (resolved cwd b) ≠ []) :
    WPath.join (steps (resolved cwd a) (resolved cwd b)) ≠ dot := by
  intro h
  have hsep : ∀ q ∈ steps (resolved cwd a) (resolved cwd b), ∀ c ∈ q,
      isSeparator c = false := fun q hq => (isComp_of_mem_steps hq).2.2
  have hpieces := pieces_concat_slash hne hsep
  have hdot : steps (resolved cwd a) (resolved cwd b) = [dot] := by
    rw [← hpieces]
    exact congrArg (pieces isSeparator) h
  exact (isComp_of_mem_steps (a := a) (b := b) (s := dot) (by rw [hdot]; simp)).2.1 rfl

/-- Where the steps lead: below the first path, unless they begin like a
drive. -/
theorem place_under_join_steps {d : Anchor} (hA : (resolved cwd a).anchor = some d)
    (hB : (resolved cwd b).anchor = some d) (hsA : Settled (resolved cwd a))
    (hsB : Settled (resolved cwd b))
    (hne : steps (resolved cwd a) (resolved cwd b) ≠ []) :
    ((resolved cwd a).under
        (read (WPath.join (steps (resolved cwd a) (resolved cwd b))))).place =
        (resolved cwd b).place ↔ Walkable (resolved cwd a) (resolved cwd b) := by
  have hcomp : ∀ s ∈ steps (resolved cwd a) (resolved cwd b), IsComp s :=
    fun s => isComp_of_mem_steps
  by_cases hdrive : ∀ q ∈ (steps (resolved cwd a) (resolved cwd b)).head?, driveOf q = none
  · rw [WPath.join, read_concat_relative hcomp hdrive, Walkable, and_iff_left hdrive]
    constructor
    · intro h q hq hmacro
      obtain ⟨x, hx, rfl⟩ := exists_dotdot_of_climb hA hsA ⟨q, hq, hmacro⟩
      rw [h] at hx
      exact hsB _ hx rfl
    · intro hclimb
      ext1
      · exact hA.trans hB.symm
      · exact place_under_steps hA hB hsA hsB hclimb
  · refine iff_of_false ?_ fun h => hdrive h.2
    obtain ⟨q, qs, hsteps⟩ := List.exists_cons_of_ne_nil hne
    rw [hsteps] at hdrive hcomp
    obtain ⟨d', hd'⟩ : ∃ d', driveOf q = some d' :=
      Option.ne_none_iff_exists'.mp (by simpa using hdrive)
    rw [hsteps, WPath.join, read_concat_driveLike (fun x hx => hcomp x (by simp [hx])) hd']
    intro h
    exact place_ne_of_drive hB hsB hsteps hd' (congrArg Place.comps h)

theorem leads_of_commonRoot_iff {c : Anchor} (hc : (read cwd).anchor = some c)
    (h : CommonRoot (resolved cwd a) (resolved cwd b)) (hsA : Settled (resolved cwd a))
    (hsB : Settled (resolved cwd b)) :
    (((resolved cwd a).under (read (getrelative cwd a b))).place = (resolved cwd b).place ∧
        (getrelative cwd a b = dot ↔ (resolved cwd a).place = (resolved cwd b).place)) ↔
      Walkable (resolved cwd a) (resolved cwd b) ∧
        ((resolved cwd a).place = (resolved cwd b).place →
          kept (resolved cwd a) = kept (resolved cwd b) ∧ trail b = []) := by
  obtain ⟨d, hA⟩ := resolved_anchor hc a
  have hB : (resolved cwd b).anchor = some d := h.1.symm.trans hA
  by_cases hk : kept (resolved cwd a) = kept (resolved cwd b)
  · have hplace := place_eq_of_kept_eq hA hB hsA hsB hk
    have hself : common (kept (resolved cwd b)) (kept (resolved cwd b)) =
        (kept (resolved cwd b)).length := by
      simpa using common_append_self (kept (resolved cwd b)) []
    have hwalk : Walkable (resolved cwd a) (resolved cwd b) := by
      rw [Walkable, steps_eq_nil_iff.mpr hk, hk, hself]
      simp
    have hunder : ((resolved cwd a).under ⟨none, []⟩) = resolved cwd a := by
      simp [Reading.under]
    rw [getrelative_of_kept_eq hc h hk]
    rcases trail_eq b with ht | ht
    · have hread : read dot = ⟨none, []⟩ := by decide
      simp [ht, hread, hunder, hplace, hwalk, hk]
    · have hread : read [] = ⟨none, []⟩ := by decide
      have hdot : ([] : Str) ≠ dot := by decide
      simp [ht, hread, hunder, hplace, hdot]
  · have hne : steps (resolved cwd a) (resolved cwd b) ≠ [] := fun hnil =>
      hk (steps_eq_nil_iff.mp hnil)
    rw [getrelative_of_steps hc h hne, place_under_join_steps hA hB hsA hsB hne]
    simp [join_steps_ne_dot hne, hk]

end Common

section Macro

variable {cwd a b : Str}

theorem eq_of_join_eq {ps qs : List Str} (hp : ps ≠ []) (hq : qs ≠ [])
    (hps : ∀ p ∈ ps, ∀ c ∈ p, isSeparator c = false)
    (hqs : ∀ q ∈ qs, ∀ c ∈ q, isSeparator c = false)
    (h : WPath.join ps = WPath.join qs) : ps = qs := by
  have hpieces := congrArg (pieces isSeparator) h
  rwa [WPath.join, WPath.join, pieces_concat_slash hp hps, pieces_concat_slash hq hqs]
    at hpieces

theorem exists_macro_piece (h : b.head? = some '$') :
    ∃ m t, pieces isSeparator b = m :: t ∧ m.head? = some '$' := by
  obtain ⟨u, rfl⟩ := List.head?_eq_some_iff.mp h
  obtain ⟨p, t, hp⟩ := exists_pieces_eq_cons isSeparator u
  refine ⟨'$' :: p, t, ?_, rfl⟩
  rw [pieces_cons, if_neg (by decide), hp]
  rfl

theorem not_root_of_dollar (h : b.head? = some '$') : (read b).anchor ≠ some .root := by
  obtain ⟨m, t, hp, hm⟩ := exists_macro_piece h
  intro hroot
  rw [read_anchor, hp] at hroot
  obtain ⟨rfl, -⟩ := head_of_anchorOf hroot
  cases hm

/-- A relative path that starts with `$` is read as a macro and what follows
it. -/
theorem exists_macro_comps (h : b.head? = some '$') (hb : (read b).anchor = none) :
    ∃ m t, (read b).comps = m :: t ∧ compRole m = .rigid := by
  obtain ⟨m, t, hp, hm⟩ := exists_macro_piece h
  have hmean : meaningful m = true := by
    have hnil : m ≠ [] := by
      rintro rfl
      cases hm
    have hdot : m ≠ dot := by
      rintro rfl
      revert hm
      decide
    simp [meaningful, hnil, hdot]
  refine ⟨m, t.filter meaningful, ?_, compRole_eq_rigid.mpr hm⟩
  rw [read_comps, afterAnchor, ← read_anchor, hb, hp]
  exact List.filter_cons_of_pos hmean

/-- Below a settled directory, what is kept of a relative path that starts with
`$` follows what is kept of the directory, and begins with the macro. -/
theorem kept_of_dollar {c : Anchor} (hc : (read cwd).anchor = some c)
    (h : b.head? = some '$') (hb : (read b).anchor = none)
    (hsB : Settled (resolved cwd b)) :
    kept (resolved cwd b) = kept (read cwd) ++ kept (read b) ∧
      ∃ m cs, kept (read b) = m :: cs ∧ compRole m = .rigid := by
  obtain ⟨m, t, hcomps, hm⟩ := exists_macro_comps h hb
  have hunder : (resolved cwd b).comps = (read cwd).comps ++ m :: t := by
    simp [resolved, Reading.under, hb, hcomps]
  have hplace : (resolved cwd b).place.comps =
      UpWord.reduce compRole true ((read cwd).comps ++ m :: t) := by
    simp [Reading.place, resolved, Reading.under, hb, hc, hcomps]
  rw [Settled, forall_ne_dotdot_iff, hplace] at hsB
  obtain ⟨happ, cs, hcs⟩ := UpWord.blind_append_rigid hm hsB
  exact ⟨by rw [kept, hunder, happ, kept, kept, hcomps], m, cs, by rw [kept, hcomps, hcs], hm⟩

/-- What `normalize` puts together for a path that starts with `$` and is
settled: it begins with a component that is not empty and does not move up. -/
theorem head_normalPieces_macro {c : Anchor} (hc : (read cwd).anchor = some c)
    (h : b.head? = some '$') (hsB : Settled (resolved cwd b)) :
    ∃ m cs, normalPieces (read b) = m :: cs ∧ m ≠ [] ∧ m ≠ dotdot := by
  cases hb : (read b).anchor with
  | none =>
      obtain ⟨-, m, cs, hkept, hm⟩ := kept_of_dollar hc h hb hsB
      refine ⟨m, cs, by simpa [normalPieces, hb, kept] using hkept, ?_, ?_⟩
      · rintro rfl
        cases hm
      · rintro rfl
        cases hm
  | some a =>
      cases a with
      | root => exact absurd hb (not_root_of_dollar h)
      | drive x hx =>
          refine ⟨[x, ':'], kept (read b), by simp [normalPieces, hb, Anchor.piece, kept], ?_, ?_⟩
          · simp
          · simp [dotdot]

theorem steps_eq_cons_iff {r s : Reading} {m : Str} {cs : List Str} (hm : m ≠ dotdot) :
    steps r s = m :: cs ↔ kept s = kept r ++ m :: cs := by
  constructor
  · intro h
    have hle := common_le_left (kept r) (kept s)
    rw [steps] at h
    cases hk : (kept r).length - common (kept r) (kept s) with
    | zero =>
        rw [hk, List.replicate_zero, List.nil_append] at h
        have htake := take_common (kept r) (kept s)
        rw [List.take_of_length_le (by omega)] at htake
        calc kept s = (kept s).take (common (kept r) (kept s)) ++
              (kept s).drop (common (kept r) (kept s)) := (List.take_append_drop _ _).symm
          _ = kept r ++ m :: cs := by rw [← htake, h]
    | succ n =>
        rw [hk, List.replicate_succ, List.cons_append, List.cons.injEq] at h
        exact absurd h.1.symm hm
  · intro h
    rw [steps, h, common_append_self]
    simp

/-- A path that starts with `$` comes back normalized exactly when the steps
are its own components. -/
theorem getrelative_macro_iff {c : Anchor} (hc : (read cwd).anchor = some c)
    (h : b.head? = some '$') (hroot : CommonRoot (resolved cwd a) (resolved cwd b))
    (hsB : Settled (resolved cwd b)) :
    getrelative cwd a b = normalize b ↔
      kept (resolved cwd b) = kept (resolved cwd a) ++ normalPieces (read b) := by
  obtain ⟨m, cs, hpieces, hnil, hup⟩ := head_normalPieces_macro hc h hsB
  have hsep := not_sep_of_mem_normalPieces (r := read b) fun s => isComp_of_mem_read
  have hdot := head_normalPieces_ne_dot (r := read b) fun s => isComp_of_mem_read
  rw [hpieces] at hsep hdot ⊢
  rw [normalize_eq, hpieces, ← steps_eq_cons_iff hup]
  by_cases hk : kept (resolved cwd a) = kept (resolved cwd b)
  · rw [getrelative_of_kept_eq hc hroot hk, steps_eq_nil_iff.mpr hk]
    refine iff_of_false ?_ (by simp)
    intro hjoin
    split at hjoin
    · have heq := eq_of_join_eq (List.cons_ne_nil dot []) (by simp) (by simp [dot, isSeparator])
        hsep hjoin
      rw [List.head?_cons, ← (List.cons.inj heq).1] at hdot
      exact hdot rfl
    · have heq := eq_of_join_eq (List.cons_ne_nil [] []) (by simp) (by simp) hsep hjoin
      exact hnil (List.cons.inj heq).1.symm
  · have hne : steps (resolved cwd a) (resolved cwd b) ≠ [] := fun hs =>
      hk (steps_eq_nil_iff.mp hs)
    rw [getrelative_of_steps hc hroot hne]
    constructor
    · exact fun hjoin => eq_of_join_eq hne (by simp)
        (fun q hq => (isComp_of_mem_steps hq).2.2) hsep hjoin
    · exact fun hsteps => congrArg WPath.join hsteps

theorem leads_of_macro_iff {c : Anchor} (hc : (read cwd).anchor = some c)
    (h : b.head? = some '$') (hroot : CommonRoot (resolved cwd a) (resolved cwd b))
    (hsB : Settled (resolved cwd b)) :
    getrelative cwd a b = normalize b ↔
      (read b).anchor = none ∧ kept (resolved cwd a) = kept (read cwd) := by
  rw [getrelative_macro_iff hc h hroot hsB]
  cases hb : (read b).anchor with
  | none =>
      have hpieces : normalPieces (read b) = kept (read b) := by
        simp [normalPieces, hb, kept]
      rw [hpieces, (kept_of_dollar hc h hb hsB).1, and_iff_right rfl,
        List.append_left_inj, eq_comm]
  | some d =>
      have hres : resolved cwd b = read b := by simp [resolved, Reading.under, hb]
      refine iff_of_false ?_ (by simp)
      intro heq
      have hlen := congrArg List.length heq
      rw [hres, normalPieces, hb, kept] at hlen
      simp at hlen
      omega

end Macro

section Leading

variable {cwd a b : Str}

/-- An anchored path keeps its reading when its ends are trimmed, except the
root itself. -/
theorem read_trim_anchored {d : Anchor} (hb : (read b).anchor = some d) (hne : b ≠ ['/']) :
    read (trim b) = read b := by
  obtain ⟨h, t, hp⟩ := exists_pieces_eq_cons isSeparator b
  have hanchor := hb
  rw [read_anchor, hp] at hanchor
  obtain ⟨rfl, hroot⟩ := head_of_anchorOf hanchor
  have hdot : d.piece ≠ dot := by cases d <;> simp [Anchor.piece, dot]
  have htrimDot : trimDot b = b := by
    simp [trimDot, not_startswith_dot_slash hp hdot]
  rw [trim, htrimDot, trimSlash]
  split
  · rename_i hend
    obtain ⟨u, rfl⟩ := List.getLast?_eq_some_iff.mp (Str.endsWithChar_iff.mp hend)
    rw [List.dropLast_concat]
    have happ : pieces isSeparator (u ++ ['/']) = pieces isSeparator u ++ [[]] :=
      pieces_append_pieces u (by decide) []
    obtain ⟨h', t', hu⟩ := exists_pieces_eq_cons isSeparator u
    rw [happ, hu, List.cons_append, List.cons.injEq] at hp
    obtain ⟨rfl, rfl⟩ := hp
    have hu' : anchorOf (d.piece :: t') = some d := by
      refine anchorOf_piece ?_
      rintro rfl rfl
      cases u with
      | nil => exact hne rfl
      | cons c u =>
          rw [pieces_cons] at hu
          split at hu
          · exact pieces_ne_nil u (List.cons.inj hu).2
          · obtain ⟨p, q, hpq⟩ := exists_pieces_eq_cons isSeparator u
            rw [hpq, List.modifyHead_cons] at hu
            cases (List.cons.inj hu).1
    ext1
    · rw [hb, read_anchor, hu, hu']
    · rw [read_comps, read_comps, afterAnchor, afterAnchor, happ, hu, List.cons_append, hu',
        hanchor]
      simp [meaningful]
  · rfl

/-- Without a common root an absolute path is returned, which is right unless it
is the root itself or the place of the first path. -/
theorem leads_of_anchored_iff {c d : Anchor} (hc : (read cwd).anchor = some c)
    (hroot : ¬ CommonRoot (resolved cwd a) (resolved cwd b))
    (hb : (read b).anchor = some d) :
    (((resolved cwd a).under (read (getrelative cwd a b))).place = (resolved cwd b).place ∧
        (getrelative cwd a b = dot ↔ (resolved cwd a).place = (resolved cwd b).place)) ↔
      b ≠ ['/'] ∧ (resolved cwd a).place ≠ (resolved cwd b).place := by
  have hres : resolved cwd b = read b := by simp [resolved, Reading.under, hb]
  rw [getrelative_of_not_commonRoot hc hroot]
  by_cases hne : b = ['/']
  · subst hne
    have htrim : trim ['/'] = [] := by decide
    have hread : read [] = ⟨none, []⟩ := by decide
    have hdot : ([] : Str) ≠ dot := by decide
    have hunder : ((resolved cwd a).under ⟨none, []⟩) = resolved cwd a := by
      simp [Reading.under]
    rw [htrim, hread, hunder]
    simp [hdot]
  · have htrim := read_trim_anchored hb hne
    have hdot : trim b ≠ dot := by
      intro h
      have hnone : (read dot).anchor = none := by decide
      rw [h] at htrim
      rw [← htrim, hnone] at hb
      cases hb
    have hunder : (resolved cwd a).under (read b) = read b := by
      simp [Reading.under, hb]
    rw [htrim, hunder, hres]
    simp [hdot, hne]

/-- `getrelative` does what `LeadsTo` says for the arguments that `Leading`
describes, and for no others, the paths with a common root in which a `..` is
left standing behind a macro apart (for a macro only in the second path). -/
theorem getrelative_leads (cwd a b : Str) (hcwd : (read cwd).anchor.isSome) :
    (Leading cwd a b → LeadsTo cwd a b) ∧
      ((CommonRoot (resolved cwd a) (resolved cwd b) →
          (b.head? ≠ some '$' → Settled (resolved cwd a)) ∧ Settled (resolved cwd b)) →
        LeadsTo cwd a b → Leading cwd a b) := by
  obtain ⟨c, hc⟩ := Option.isSome_iff_exists.mp hcwd
  rw [LeadsTo, Leading]
  by_cases hmacro : b.head? = some '$'
  · rw [if_pos hmacro, if_pos hmacro]
    by_cases hroot : CommonRoot (resolved cwd a) (resolved cwd b)
    · rw [if_pos hroot]
      constructor
      · exact fun h => (leads_of_macro_iff hc hmacro hroot h.1).mpr h.2
      · intro hs h
        exact ⟨(hs hroot).2, (leads_of_macro_iff hc hmacro hroot (hs hroot).2).mp h⟩
    · rw [if_neg hroot, getrelative_of_not_commonRoot hc hroot]
      exact ⟨id, fun _ => id⟩
  · rw [if_neg hmacro, if_neg hmacro]
    by_cases hroot : CommonRoot (resolved cwd a) (resolved cwd b)
    · rw [if_pos hroot]
      constructor
      · rintro ⟨hsA, hsB, h⟩
        exact (leads_of_commonRoot_iff hc hroot hsA hsB).mpr h
      · intro hs h
        obtain ⟨hsA, hsB⟩ := (hs hroot).imp_left fun h => h hmacro
        exact ⟨hsA, hsB, (leads_of_commonRoot_iff hc hroot hsA hsB).mp h⟩
    · rw [if_neg hroot]
      cases hb : (read b).anchor with
      | some d =>
          have hiff := leads_of_anchored_iff hc hroot hb
          exact ⟨hiff.mpr, fun _ => hiff.mp⟩
      | none =>
          rw [getrelative_of_not_commonRoot hc hroot]
          exact ⟨id, fun _ => id⟩

/-- From one directory of a project to another. -/
theorem leadsTo_sibling :
    LeadsTo "/home/me".toList "/home/me/a/src".toList "/home/me/b/lib/".toList :=
  (getrelative_leads _ _ _ (by decide)).1 (by decide)

/-- A macro is looked for below the current directory, so the result leads out
of the first path instead of being the macro. -/
theorem not_leadsTo_macro :
    ¬ LeadsTo "/home/me".toList "/home/me/src".toList "$(SDK)/include".toList := by
  rw [LeadsTo]
  decide

end Leading

end Path

end Puremake
