import Puremake.Path.Here
import Mathlib.Data.List.TakeWhile

/-!
# Is `path.join` a fold?

The parts of a path are read one behind the other: a part that is absolute is read by itself,
any other one continues what was read before, and an empty part or `.` adds nothing. As long as
only such parts stand behind a `nil`, `join` writes down this reading, normalized.

So the order in which parts are joined matters in two cases. Behind the first part, `nil` ends
the list instead of being passed over. And what is joined first loses its anchor when it leads
to the root itself, which is written as the empty path, or gains one when its first component
is written like a drive; unless an absolute part follows, the anchor is missed afterwards when
the parts behind lead away from the root, or climb over the drive.
-/

namespace Puremake

namespace Path

open WPath

def vacuous (v : Option Str) : Bool := v = none ∨ v = some [] ∨ v = some dot

/-- The parts `ds` are the parts `aa` without some of those that add nothing. -/
def Pruned (ds aa : List (Option Str)) : Prop :=
  ds.Sublist aa ∧ ds.filter (! vacuous ·) = aa.filter (! vacuous ·)

instance (ds aa : List (Option Str)) : Decidable (Pruned ds aa) :=
  inferInstanceAs (Decidable (_ ∧ _))

/-- The laws of `join` for a list of parts that is split into `aa` and `bb`: the parts in front
may be joined first, parts that add nothing may be left out anywhere, and what stands before an
absolute part may be left out. -/
structure Folds (aa bb : List (Option Str)) : Prop where
  split : denote (join (aa ++ bb)) = denote (join (some (join aa) :: bb))
  skip : ∀ ds, Pruned ds (aa ++ bb) → denote (join ds) = denote (join (aa ++ bb))
  restart : ∀ ds a es, aa ++ bb = ds ++ some a :: es → isabsolute a →
    denote (join (aa ++ bb)) = denote (join (some a :: es))

/-- One part is read: by itself when it is absolute, and behind what was read before when it is
not. -/
def follow (r : Reading) (s : Str) : Reading :=
  if isabsolute s then read s else ⟨r.anchor, r.comps ++ (read s).comps⟩

/-- The reading of all parts that are not `nil`. -/
def course (aa : List (Option Str)) : Reading := (aa.filterMap id).foldl follow ⟨none, []⟩

/-- What is written for a reading has the same anchor: a root is followed by a component, and
the first component of a relative path is not written like a drive. -/
def KeepsAnchor (r : Reading) : Prop :=
  match r.anchor with
  | none => ∀ s ∈ (kept r).head?, driveOf s = none
  | some .root => kept r ≠ []
  | some (.drive _ _) => True

/-- What is written for a reading, read again, can be continued by components in its place:
where a root is lost these lead back to it, and where a drive is gained they do not climb over
it. -/
def Rejoins (r : Reading) (qs : List Str) : Prop :=
  match r.anchor with
  | none => ∀ s ∈ (kept r).head?, driveOf s = none ∨
      kept ⟨none, r.comps ++ qs⟩ = s :: kept ⟨none, (kept r).tail ++ qs⟩
  | some .root => kept r ≠ [] ∨ kept ⟨none, r.comps ++ qs⟩ = []
  | some (.drive _ _) => True

/-- Behind a `nil` that is not the first part all parts add nothing. -/
def Idle (aa : List (Option Str)) : Prop := ∀ v ∈ aa.tail.dropWhile Option.isSome, vacuous v

/-- An absolute part follows the split, or the parts in front can be continued by the others. -/
def Anchored (aa bb : List (Option Str)) : Prop :=
  (∃ a, some a ∈ bb ∧ isabsolute a) ∨ Rejoins (course aa) (course bb).comps

/-- Nothing is missed behind a `nil`, wherever the parts are split, and no anchor is missed. -/
def Joins (aa bb : List (Option Str)) : Prop :=
  (Idle (aa ++ bb) ∧ (aa = [] → Idle (none :: bb))) ∧ Anchored aa bb

section Follow

variable {r : Reading} {s : Str} {ss : List Str}

theorem anchor_of_not_isabsolute (h : isabsolute s = false) : (read s).anchor = none := by
  rw [read_anchor]
  cases s with
  | nil => rfl
  | cons c s =>
      have hc : isSeparator c = false := by
        by_contra hcon
        simp_all [isabsolute, isSeparator]
      obtain ⟨q, qs, hq⟩ := exists_pieces_eq_cons isSeparator s
      rw [pieces_cons, if_neg (by simp [hc]), hq, List.modifyHead_cons,
        anchorOf_of_ne_nil (List.cons_ne_nil c q)]
      by_contra hcon
      obtain ⟨a, ha⟩ := Option.ne_none_iff_exists'.mp hcon
      obtain ⟨-, hpiece⟩ := driveOf_eq_some.mp ha
      cases a with
      | root => cases hpiece
      | drive x hx =>
          obtain ⟨-, rfl⟩ := List.cons.inj hpiece
          have hcolon : s.head? = some ':' := by
            cases s with
            | nil => cases hq
            | cons d s =>
                rw [pieces_cons] at hq
                split at hq
                · cases hq
                · obtain ⟨q', qs', hq'⟩ := exists_pieces_eq_cons isSeparator s
                  rw [hq', List.modifyHead_cons] at hq
                  rw [List.head?_cons, (List.cons.inj (List.cons.inj hq).1).1]
          have habs : isabsolute (c :: s) = true := by
            rw [List.head?_eq_getElem?] at hcolon
            simp [isabsolute, hcolon]
          rw [habs] at h
          cases h

theorem follow_of_isabsolute (h : isabsolute s = true) (r : Reading) : follow r s = read s :=
  if_pos h

theorem follow_of_not_isabsolute (h : isabsolute s = false) (r : Reading) :
    follow r s = ⟨r.anchor, r.comps ++ (read s).comps⟩ :=
  if_neg (by simp [h])

theorem follow_start (s : Str) : follow ⟨none, []⟩ s = read s := by
  cases h : isabsolute s with
  | true => exact follow_of_isabsolute h _
  | false =>
      rw [follow_of_not_isabsolute h]
      ext1
      · exact (anchor_of_not_isabsolute h).symm
      · rfl

theorem follow_vacuous {v : Str} (h : vacuous (some v)) (r : Reading) : follow r v = r := by
  have hv : v = [] ∨ v = dot := by simpa [vacuous] using h
  rcases hv with rfl | rfl
  · rw [follow_of_not_isabsolute rfl]
    exact Reading.ext rfl (List.append_nil _)
  · rw [follow_of_not_isabsolute rfl]
    exact Reading.ext rfl (List.append_nil _)

theorem joinPart_ne_nil {n : Str} (hn : n ≠ []) (v : Str) : joinPart n v ≠ [] := by
  rw [joinPart, if_pos hn]
  split
  · rename_i h
    rintro rfl
    cases h
  · rw [List.append_assoc]
    exact List.append_ne_nil_of_left_ne_nil hn _

theorem comps_of_not_isabsolute (h : isabsolute s = false) :
    (read s).comps = (pieces isSeparator s).filter meaningful := by
  rw [read_comps, afterAnchor, ← read_anchor, anchor_of_not_isabsolute h]
  rfl

theorem read_joinPart {n : Str} (hn : n ≠ []) (v : Str) :
    read (joinPart n v) = follow (read n) v := by
  cases h : isabsolute v with
  | true => rw [follow_of_isabsolute h, joinPart, if_pos h]
  | false =>
      rw [follow_of_not_isabsolute h, joinPart, if_neg (by simp [h]), if_pos hn,
        List.append_assoc, List.singleton_append, read, pieces_append_pieces n (by decide),
        reading_append (pieces_ne_of_ne_nil hn),
        comps_of_not_isabsolute h]
      rfl

theorem read_foldl_joinPart {n : Str} (hn : n ≠ []) (ss : List Str) :
    read (ss.foldl joinPart n) = ss.foldl follow (read n) := by
  induction ss generalizing n with
  | nil => rfl
  | cons v ss ih =>
      rw [List.foldl_cons, List.foldl_cons, ih (joinPart_ne_nil hn v), read_joinPart hn]

theorem isComp_follow (hr : ∀ q ∈ r.comps, IsComp q) (s : Str) :
    ∀ q ∈ (follow r s).comps, IsComp q := by
  intro q hq
  rw [follow] at hq
  split at hq
  · exact isComp_of_mem_read hq
  · rcases List.mem_append.mp hq with hq | hq
    · exact hr q hq
    · exact isComp_of_mem_read hq

theorem isComp_foldl_follow (hr : ∀ q ∈ r.comps, IsComp q) (ss : List Str) :
    ∀ q ∈ (ss.foldl follow r).comps, IsComp q := by
  induction ss generalizing r with
  | nil => exact hr
  | cons v ss ih => exact ih (isComp_follow hr v)

/-- Relative parts leave the anchor as it is and add their components. -/
theorem foldl_follow_relative (h : ∀ s ∈ ss, isabsolute s = false) (r : Reading) :
    ss.foldl follow r = ⟨r.anchor, r.comps ++ ss.flatMap fun s => (read s).comps⟩ := by
  induction ss generalizing r with
  | nil => exact Reading.ext rfl (List.append_nil _).symm
  | cons v ss ih =>
      rw [List.foldl_cons, ih fun s hs => h s (List.mem_cons_of_mem v hs),
        follow_of_not_isabsolute (h v List.mem_cons_self), List.flatMap_cons, List.append_assoc]

/-- Behind an absolute part nothing is left of what was read before it. -/
theorem foldl_follow_of_mem (h : ∃ s ∈ ss, isabsolute s) (r r' : Reading) :
    ss.foldl follow r = ss.foldl follow r' := by
  induction ss generalizing r r' with
  | nil =>
      obtain ⟨s, hs, -⟩ := h
      cases hs
  | cons v ss ih =>
      rw [List.foldl_cons, List.foldl_cons]
      by_cases hss : ∃ s ∈ ss, isabsolute s
      · exact ih hss _ _
      · obtain ⟨s, hs, habs⟩ := h
        rcases List.mem_cons.mp hs with rfl | hs
        · rw [follow_of_isabsolute habs, follow_of_isabsolute habs]
        · exact absurd ⟨s, hs, habs⟩ hss

end Follow

section Course

variable {aa bb : List (Option Str)}

theorem course_append (aa bb : List (Option Str)) :
    course (aa ++ bb) = (bb.filterMap id).foldl follow (course aa) := by
  rw [course, course, List.filterMap_append, List.foldl_append]

theorem course_some_cons (s : Str) (aa : List (Option Str)) :
    course (some s :: aa) = (aa.filterMap id).foldl follow (read s) := by
  rw [course, List.filterMap_cons_some (rfl : id (some s) = some s), List.foldl_cons, follow_start]

theorem isComp_course (aa : List (Option Str)) : ∀ q ∈ (course aa).comps, IsComp q :=
  isComp_foldl_follow (fun _ hq => absurd hq List.not_mem_nil) _

theorem course_filter (aa : List (Option Str)) : course (aa.filter (! vacuous ·)) = course aa := by
  rw [course, course]
  generalize (⟨none, []⟩ : Reading) = r
  induction aa generalizing r with
  | nil => rfl
  | cons v aa ih =>
      cases v with
      | none => rw [List.filter_cons_of_neg (by simp [vacuous]), ih, List.filterMap_cons_none rfl]
      | some s =>
          have hsome : id (some s) = some s := rfl
          rw [List.filterMap_cons_some hsome, List.foldl_cons]
          cases h : vacuous (some s) with
          | true => rw [List.filter_cons_of_neg (by simp [h]), ih, follow_vacuous h]
          | false => rw [List.filter_cons_of_pos (by simp [h]), List.filterMap_cons_some hsome,
              List.foldl_cons, ih]

theorem join_cons (v : Option Str) (aa : List (Option Str)) :
    join (v :: aa) = normalize (((aa.takeWhile Option.isSome).filterMap id).foldl joinPart
      (if v.getD [] = [] then dot else v.getD [])) := by
  have hfirst : ∀ s, normalize (((some s :: aa).takeWhile Option.isSome).filterMap id |>.foldl
      joinPart []) =
        normalize (((aa.takeWhile Option.isSome).filterMap id).foldl joinPart s) := by
    intro s
    rw [List.takeWhile_cons_of_pos rfl, List.filterMap_cons_some (rfl : id (some s) = some s),
      List.foldl_cons, joinPart_nil]
  cases v with
  | none =>
      rw [if_pos (by rfl)]
      exact hfirst dot
  | some s =>
      cases s with
      | nil =>
          rw [if_pos (by rfl)]
          exact hfirst dot
      | cons c s =>
          rw [if_neg (by exact List.cons_ne_nil c s)]
          exact hfirst (c :: s)

theorem filter_takeWhile (h : ∀ v ∈ aa.dropWhile Option.isSome, vacuous v) :
    (aa.takeWhile Option.isSome).filter (! vacuous ·) = aa.filter (! vacuous ·) := by
  have hdrop : (aa.dropWhile Option.isSome).filter (! vacuous ·) = [] :=
    List.filter_eq_nil_iff.mpr fun v hv => by simp [h v hv]
  conv_rhs => rw [← @List.takeWhile_append_dropWhile _ Option.isSome aa]
  rw [List.filter_append, hdrop, List.append_nil]

/-- `join` writes down the reading of the parts up to the first `nil`. -/
theorem join_eq_written (v : Option Str) (aa : List (Option Str)) :
    join (v :: aa) = WPath.join (normalPieces (course (v :: aa.takeWhile Option.isSome))) := by
  have hfirst : (if v.getD [] = [] then dot else v.getD []) ≠ [] := by
    split
    · decide
    · assumption
  have hread : read (if v.getD [] = [] then dot else v.getD []) = read (v.getD []) := by
    split
    · rename_i hnil
      rw [hnil]
      rfl
    · rfl
  have hcourse : ∀ bb, course (v :: bb) = (bb.filterMap id).foldl follow (read (v.getD [])) := by
    intro bb
    cases v with
    | none => rfl
    | some s => exact course_some_cons s bb
  rw [join_cons, normalize_eq, read_foldl_joinPart hfirst, hread, hcourse]

/-- Where nothing is missed behind a `nil`, `join` writes down the reading of the parts. -/
theorem join_eq_of_idle (h : Idle aa) : join aa = WPath.join (normalPieces (course aa)) := by
  cases aa with
  | nil => rfl
  | cons v aa =>
      rw [join_eq_written, ← course_filter, ← course_filter (v :: aa), List.filter_cons,
        List.filter_cons, filter_takeWhile (by exact h)]

theorem idle_of_notMem (h : none ∉ aa.tail) : Idle aa := by
  intro v hv
  rw [List.dropWhile_eq_nil_iff.mpr fun w hw => ?_] at hv
  · cases hv
  · exact Option.isSome_iff_ne_none.mpr fun hnone => h (hnone ▸ hw)

theorem join_eq_course (h : none ∉ aa.tail) :
    join aa = WPath.join (normalPieces (course aa)) :=
  join_eq_of_idle (idle_of_notMem h)

theorem idle_iff : Idle aa ↔
    ∀ xs ys, aa = xs ++ none :: ys → xs ≠ [] → ∀ v ∈ ys, vacuous v := by
  cases aa with
  | nil => simp [Idle]
  | cons w aa =>
      constructor
      · rintro h xs ys heq hxs v hv
        obtain ⟨x, xs, rfl⟩ := List.exists_cons_of_ne_nil hxs
        rw [List.cons_append] at heq
        obtain ⟨rfl, rfl⟩ := List.cons.inj heq
        refine h v ?_
        rw [List.tail_cons, List.dropWhile_append]
        split
        · rw [List.dropWhile_cons_of_neg (by simp)]
          exact List.mem_cons_of_mem _ hv
        · exact List.mem_append_right _ (List.mem_cons_of_mem _ hv)
      · intro h v hv
        rw [List.tail_cons] at hv
        cases hdrop : aa.dropWhile Option.isSome with
        | nil =>
            rw [hdrop] at hv
            cases hv
        | cons u us =>
            have hu : u = none := by
              have hhead := List.head?_dropWhile_not Option.isSome aa
              rw [hdrop] at hhead
              simpa using hhead
            subst hu
            rw [hdrop] at hv
            rcases List.mem_cons.mp hv with rfl | hv
            · rfl
            · refine h (w :: aa.takeWhile Option.isSome) us ?_ (List.cons_ne_nil _ _) v hv
              rw [List.cons_append, ← hdrop, List.takeWhile_append_dropWhile]

theorem Idle.of_append (h : Idle (aa ++ bb)) : Idle aa := by
  rw [idle_iff] at h ⊢
  rintro xs ys rfl hxs v hv
  exact h xs (ys ++ bb) (by simp) hxs v (List.mem_append_left bb hv)

/-- The parts behind the first ones miss nothing behind a new first part. -/
theorem Idle.cons (h : Idle (aa ++ bb)) (hfront : aa = [] → Idle (none :: bb)) (v : Option Str) :
    Idle (v :: bb) := by
  by_cases haa : aa = []
  · exact hfront haa
  · rw [idle_iff] at h ⊢
    intro xs ys heq hxs w hw
    obtain ⟨x, xs, rfl⟩ := List.exists_cons_of_ne_nil hxs
    rw [List.cons_append] at heq
    obtain ⟨-, rfl⟩ := List.cons.inj heq
    exact h (aa ++ xs) ys (by simp) (by simp [haa]) w hw

theorem Idle.sublist {ds : List (Option Str)} (h : Idle aa) (hds : ds.Sublist aa) : Idle ds := by
  rw [idle_iff] at h ⊢
  rintro xs ys rfl hxs v hv
  obtain ⟨as, bs, rfl, has, hbs⟩ := List.append_sublist_iff.mp hds
  obtain ⟨cs, es, rfl, hcs, hes⟩ := List.cons_sublist_iff.mp hbs
  obtain ⟨ps, qs, rfl⟩ := List.append_of_mem hcs
  refine h (as ++ ps) (qs ++ es) (by simp) (fun hnil => hxs ?_) v
    (List.mem_append_right _ (hes.subset hv))
  rw [(List.append_eq_nil_iff.mp hnil).1] at has
  exact List.sublist_nil.mp has

end Course

section Written

variable {r : Reading}

theorem keepsAnchor_iff :
    KeepsAnchor r ↔ (r.anchor = some .root → kept r ≠ []) ∧
      (r.anchor = none → ∀ s ∈ (kept r).head?, driveOf s = none) := by
  rw [KeepsAnchor]
  cases h : r.anchor with
  | none => simp
  | some a => cases a <;> simp

theorem read_written (hr : ∀ s ∈ r.comps, IsComp s) (h : KeepsAnchor r) :
    read (WPath.join (normalPieces r)) = ⟨r.anchor, kept r⟩ := by
  obtain ⟨hroot, hdrive⟩ := keepsAnchor_iff.mp h
  rcases read_join_normalPieces hr with ⟨ha, hb, -⟩ | ⟨s, cs, a, ha, hb, hd, -⟩ | ⟨-, -, hread⟩
  · exact absurd hb (hroot ha)
  · have hnone := hdrive ha s (by rw [kept, hb]; rfl)
    rw [hd] at hnone
    cases hnone
  · exact hread

theorem anchor_written_ne_root (hr : ∀ s ∈ r.comps, IsComp s) (ha : r.anchor = none) :
    (read (WPath.join (normalPieces r))).anchor ≠ some .root := by
  rcases read_join_normalPieces hr with ⟨ha', -, -⟩ | ⟨s, cs, a, -, -, hd, hread⟩ | ⟨-, -, hread⟩
  · rw [ha] at ha'
    cases ha'
  · rw [hread]
    intro heq
    obtain ⟨hne, hpiece⟩ := driveOf_eq_some.mp hd
    rw [Option.some.inj heq] at hpiece
    exact hne hpiece
  · rw [hread, ha]
    simp

theorem read_written_drive {ws : List Str} {d : Anchor} (hws : ∀ q ∈ ws, IsComp q)
    (hd : d ≠ .root) : read (WPath.join (normalPieces ⟨some d, ws⟩)) =
      ⟨some d, kept ⟨none, ws⟩⟩ := by
  have hkeeps : KeepsAnchor ⟨some d, ws⟩ := by
    cases d with
    | root => exact absurd rfl hd
    | drive x hx => trivial
  exact read_written (by exact hws) hkeeps

theorem normalPieces_congr {r r' : Reading} (ha : r.anchor = r'.anchor) (hk : kept r = kept r') :
    normalPieces r = normalPieces r' := by
  rw [normalPieces, normalPieces, ha, ← kept, hk, kept]

theorem kept_kept_append (a : Option Anchor) (ws qs : List Str) :
    kept ⟨a, kept ⟨a, ws⟩ ++ qs⟩ = kept ⟨a, ws ++ qs⟩ :=
  UpWord.blind_blind_append ws qs

end Written

section Split

variable {aa bb : List (Option Str)}

/-- What is written for a reading can be continued in its place exactly when it rejoins. -/
theorem rejoins_iff {r : Reading} {qs : List Str} (hr : ∀ q ∈ r.comps, IsComp q)
    (hqs : ∀ q ∈ qs, IsComp q) {w : Reading} (hw : read (WPath.join (normalPieces r)) = w) :
    denote (WPath.join (normalPieces ⟨r.anchor, r.comps ++ qs⟩)) =
      denote (WPath.join (normalPieces ⟨w.anchor, w.comps ++ qs⟩)) ↔ Rejoins r qs := by
  have happend : ∀ {as bs : List Str}, (∀ q ∈ as, IsComp q) → (∀ q ∈ bs, IsComp q) →
      ∀ q ∈ as ++ bs, IsComp q := fun has hbs q hq =>
    (List.mem_append.mp hq).elim (has q) (hbs q)
  have hws : ∀ q ∈ w.comps, IsComp q := hw ▸ fun q => isComp_of_mem_read
  rcases read_join_normalPieces hr with ⟨ha, hb, hread⟩ | ⟨s, cs, d, ha, hb, hd, hread⟩ |
    ⟨hroot, hdrive, hread⟩
  · -- the root is lost, and is missed unless nothing is left
    rw [hread] at hw
    subst hw
    rw [ha, List.nil_append, Rejoins, ha]
    have hqskept : kept ⟨none, r.comps ++ qs⟩ = kept ⟨none, qs⟩ := by
      rw [← kept_kept_append, show kept ⟨none, r.comps⟩ = [] from hb, List.nil_append]
    constructor
    · intro heq
      refine .inr (by_contra fun hne => ?_)
      have hkeeps : KeepsAnchor ⟨some .root, r.comps ++ qs⟩ := hne
      have hanchor := (denote_eq_iff.mp heq).1
      rw [read_written (happend hr hqs) hkeeps] at hanchor
      exact anchor_written_ne_root hqs rfl hanchor.symm
    · rintro (hne | hnil)
      · exact absurd hb hne
      · have hleft : normalPieces ⟨some .root, r.comps ++ qs⟩ = [[]] :=
          congrArg ([[]] ++ ·) hnil
        have hright : normalPieces ⟨none, qs⟩ = [] := hqskept.symm.trans hnil
        rw [hleft, hright]
        rfl
  · -- a drive is gained, and is missed when it is climbed over
    rw [hread] at hw
    subst hw
    have hne : d ≠ .root := by
      rintro rfl
      obtain ⟨hne, hpiece⟩ := driveOf_eq_some.mp hd
      exact hne hpiece
    rw [ha, Rejoins, ha]
    have hhead : (kept r).head? = some s := by rw [kept, hb]; rfl
    have htail : (kept r).tail = cs := by rw [kept, hb]; rfl
    have hcontinue : kept ⟨none, r.comps ++ qs⟩ = kept ⟨none, s :: (cs ++ qs)⟩ := by
      rw [← kept_kept_append, show kept ⟨none, r.comps⟩ = s :: cs from hb, List.cons_append]
    have hright := read_written_drive (d := d) (happend hws hqs) hne
    simp only [hhead, htail, Option.mem_some_iff, forall_eq', hd, reduceCtorEq, false_or]
    rw [hcontinue, denote_eq_iff, hright, denote_comps, denote_comps, hright]
    rcases read_join_normalPieces (r := ⟨none, r.comps ++ qs⟩) (happend hr hqs) with
      ⟨ha', -, -⟩ | ⟨s', ks, d', -, hb', hd', hread'⟩ | ⟨-, hdrive, hread'⟩
    · cases ha'
    · rw [hread']
      have hkept : kept ⟨none, s :: (cs ++ qs)⟩ = s' :: ks := hcontinue.symm.trans hb'
      constructor
      · rintro ⟨hanchor, hcomps⟩
        obtain rfl : d' = d := Option.some.inj hanchor
        obtain rfl : s' = s := (driveOf_eq_some.mp hd').2.trans (driveOf_eq_some.mp hd).2.symm
        rw [hkept, ← UpWord.blind_eq_of_reduce_eq hkept hcomps]
        rfl
      · intro heq
        obtain ⟨rfl, rfl⟩ := List.cons.inj (hkept.symm.trans heq)
        exact ⟨hd'.symm.trans hd, rfl⟩
    · rw [hread']
      refine iff_of_false (fun h => ?_) fun heq => ?_
      · cases h.1
      · have hnone := hdrive rfl s (by rw [← kept, hcontinue, heq]; rfl)
        rw [hd] at hnone
        cases hnone
  · -- the anchor is kept
    rw [hread] at hw
    subst hw
    refine iff_of_true ?_ ?_
    · exact congrArg (fun ps => denote (WPath.join ps)) (normalPieces_congr rfl
        (kept_kept_append r.anchor r.comps qs).symm)
    · rw [Rejoins]
      cases ha : r.anchor with
      | none => exact fun s hs => .inl (hdrive ha s hs)
      | some a =>
          cases a with
          | root => exact .inl (hroot ha)
          | drive x hx => trivial

end Split

section Laws

variable {aa bb : List (Option Str)}

theorem isabsolute_of_not_exists (h : ¬ ∃ a, some a ∈ bb ∧ isabsolute a) :
    ∀ s ∈ bb.filterMap id, isabsolute s = false := by
  intro s hs
  obtain ⟨v, hv, heq⟩ := List.mem_filterMap.mp hs
  refine Bool.eq_false_iff.mpr fun habs => h ⟨s, ?_, habs⟩
  rw [← heq]
  exact hv

theorem foldl_follow_course (h : ¬ ∃ a, some a ∈ bb ∧ isabsolute a) (r : Reading) :
    (bb.filterMap id).foldl follow r = ⟨r.anchor, r.comps ++ (course bb).comps⟩ := by
  have hrel := isabsolute_of_not_exists h
  rw [course, foldl_follow_relative hrel, foldl_follow_relative hrel, List.nil_append]

/-- Where nothing is missed behind a `nil`, the parts in front may be joined first exactly when
no anchor is missed. -/
theorem denote_join_split_iff (hidle : Idle (aa ++ bb)) (hfront : aa = [] → Idle (none :: bb)) :
    denote (join (aa ++ bb)) = denote (join (some (join aa) :: bb)) ↔ Anchored aa bb := by
  rw [join_eq_of_idle hidle, join_eq_of_idle (hidle.cons hfront _), course_some_cons,
    course_append, join_eq_of_idle hidle.of_append]
  by_cases habs : ∃ a, some a ∈ bb ∧ isabsolute a
  · refine iff_of_true ?_ (.inl habs)
    obtain ⟨a, ha, habs⟩ := habs
    have hmem : ∃ s ∈ bb.filterMap id, isabsolute s :=
      ⟨a, List.mem_filterMap.mpr ⟨some a, ha, rfl⟩, habs⟩
    rw [foldl_follow_of_mem hmem (course aa)]
  · rw [foldl_follow_course habs, foldl_follow_course habs, Anchored, or_iff_right habs]
    exact rejoins_iff (isComp_course aa) (isComp_course bb) rfl

theorem join_restart {a : Str} (h : Idle (aa ++ some a :: bb)) (ha : isabsolute a) :
    join (aa ++ some a :: bb) = join (some a :: bb) := by
  have hmem : ∃ s ∈ ((some a :: bb).filterMap id), isabsolute s :=
    ⟨a, List.mem_filterMap.mpr ⟨some a, List.mem_cons_self, rfl⟩, ha⟩
  rw [join_eq_of_idle h, join_eq_of_idle (h.sublist (List.sublist_append_right _ _)),
    course_append, foldl_follow_of_mem hmem _ ⟨none, []⟩, ← course]

theorem join_pruned {ds : List (Option Str)} (haa : Idle aa) (h : Pruned ds aa) :
    join ds = join aa := by
  rw [join_eq_of_idle (haa.sublist h.1), join_eq_of_idle haa, ← course_filter ds, h.2,
    course_filter]

theorem filter_isSome (aa : List (Option Str)) :
    (aa.filter Option.isSome).filter (! vacuous ·) = aa.filter (! vacuous ·) := by
  rw [List.filter_filter]
  refine List.filter_congr fun v _ => ?_
  cases v <;> simp [vacuous]

theorem course_cons_filter (v : Option Str) (aa : List (Option Str)) :
    course (v :: aa.filter Option.isSome) = course (v :: aa) := by
  rw [← course_filter, ← course_filter (v :: aa), List.filter_cons, List.filter_cons,
    filter_isSome]

/-- Without the `nil` parts behind the first part the reading is written down. -/
theorem join_cons_filter (v : Option Str) (aa : List (Option Str)) :
    join (v :: aa.filter Option.isSome) = WPath.join (normalPieces (course (v :: aa))) := by
  have hnone : none ∉ (v :: aa.filter Option.isSome).tail := by simp
  rw [join_eq_course hnone, course_cons_filter]

/-- Where the parts that add nothing may be left out, what stands behind a `nil` leads back to
the place before it. -/
theorem Folds.denote_course (h : Folds aa bb) {xs ys : List (Option Str)}
    (heq : aa ++ bb = xs ++ none :: ys) (hxs : xs ≠ []) :
    denote (WPath.join (normalPieces (course xs))) =
      denote (WPath.join (normalPieces (course (aa ++ bb)))) := by
  obtain ⟨v, xs, rfl⟩ := List.exists_cons_of_ne_nil hxs
  have hcut : join (v :: (xs.filter Option.isSome ++ none :: ys)) =
      WPath.join (normalPieces (course (v :: xs))) := by
    have hstop : (xs.filter Option.isSome ++ none :: ys).takeWhile Option.isSome =
        xs.filter Option.isSome := by
      rw [List.takeWhile_append_of_pos fun w hw => List.of_mem_filter hw,
        List.takeWhile_cons_of_neg (by simp), List.append_nil]
    rw [join_eq_written, hstop, course_cons_filter]
  have hpruned : Pruned (v :: (xs.filter Option.isSome ++ none :: ys)) (aa ++ bb) := by
    rw [heq]
    refine ⟨(List.filter_sublist.append_right _).cons_cons v, ?_⟩
    rw [List.cons_append, List.filter_cons, List.filter_cons, List.filter_append, filter_isSome,
      List.filter_append]
  have hwhole : Pruned (v :: (xs ++ none :: ys).filter Option.isSome) (aa ++ bb) := by
    rw [heq]
    refine ⟨List.filter_sublist.cons_cons v, ?_⟩
    rw [List.cons_append, List.filter_cons, List.filter_cons, filter_isSome]
  rw [← hcut, h.skip _ hpruned, ← h.skip _ hwhole, join_cons_filter, heq, List.cons_append]

/-- The laws of `join` hold at a split where nothing is missed behind a `nil` and no anchor is
missed. Where nothing is missed behind a `nil`, they hold only when no anchor is missed, and
behind any other `nil` only when what is missed leads back to the place before it. -/
theorem folds_iff (aa bb : List (Option Str)) :
    (Joins aa bb → Folds aa bb) ∧
      (Idle (aa ++ bb) → (aa = [] → Idle (none :: bb)) → Folds aa bb → Anchored aa bb) ∧
      (Folds aa bb → ∀ xs ys, aa ++ bb = xs ++ none :: ys → xs ≠ [] →
        denote (WPath.join (normalPieces (course xs))) =
          denote (WPath.join (normalPieces (course (aa ++ bb))))) := by
  refine ⟨fun ⟨⟨hidle, hfront⟩, hanchored⟩ => ⟨?_, ?_, ?_⟩, fun hidle hfront h => ?_,
    fun h xs ys => h.denote_course⟩
  · exact (denote_join_split_iff hidle hfront).mpr hanchored
  · intro ds hds
    rw [join_pruned hidle hds]
  · intro ds a es heq ha
    rw [heq, join_restart (heq ▸ hidle) ha]
  · exact (denote_join_split_iff hidle hfront).mp h.split

example : join [some "/".toList, some "x".toList] = "/x".toList ∧
    join [some (join [some "/".toList]), some "x".toList] = "x".toList := by decide

/-- A `nil` at the end is not missed. -/
theorem folds_nil_last : Folds [some "p1".toList] [none] :=
  (folds_iff _ _).1 ⟨⟨by rw [Idle]; decide, by simp⟩, .inr fun s hs => .inl (by revert s; decide)⟩

/-- A `nil` in the middle ends the list. -/
theorem not_folds_nil :
    ¬ Folds [some "a".toList] [none, some "b".toList] := fun h => by
  have hpruned : Pruned [some "a".toList, some "b".toList]
      ([some "a".toList] ++ [none, some "b".toList]) := by decide
  have hskip := h.skip _ hpruned
  revert hskip
  decide

end Laws

end Path

end Puremake
