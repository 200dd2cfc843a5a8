import Puremake.Bake.Session
import Puremake.Search.Basic
import Mathlib.Data.List.Nodup

/-!
# The lists of a configuration

A list is merged by entering item after item, each under its own name. So a list
that was only merged holds every item once, and its keys are its items. The
lists of directories and files are changed in between: what the solution gives is
made relative to the project after it was entered, and the keys stay as they
were. Such a list holds an item twice when two entries of the solution have the
same relative path, or when the project gives the relative path again.
-/

namespace Puremake

open Search (fresh mem_fresh nodup_fresh)

def FieldKind.tbl : (k : FieldKind) → Option k.Val → Option Tbl
  | .list, v | .dirlist, v | .filelist, v => v
  | .string, _ | .path, _ | .keyvalue, _ | .keypath, _ => none

def Fields.list (c : Fields) (f : Field) : Tbl := (f.fieldKind.tbl (c f)).getD Tbl.empty

/-- The paths in a list of this kind are kept relative to the project. -/
def FieldKind.isPaths : FieldKind → Bool
  | .dirlist | .filelist => true
  | _ => false

/-- What `adjustpaths` does to the items of a list. -/
def Field.relative (f : Field) (cwd location : Str) (item : Str) : Str :=
  if f.fieldKind.isPaths then Path.getrelative cwd location item else item

section Add

variable {arr keys items : List Str}

/-- Entering items one after another: those whose name is not a key are appended. -/
theorem foldl_add (arr keys items : List Str) :
    items.foldl Tbl.add ⟨arr, keys⟩ = ⟨arr ++ fresh keys items, keys ++ fresh keys items⟩ := by
  induction items generalizing arr keys with
  | nil => simp [fresh]
  | cons item items ih =>
      rw [List.foldl_cons, Tbl.add, fresh]
      by_cases hitem : item ∈ keys
      · rw [if_pos hitem, if_pos hitem, ih]
      · rw [if_neg hitem, if_neg hitem, ih]
        simp

theorem fresh_of_nodup (h : items.Nodup) (hnew : ∀ x ∈ items, x ∉ keys) :
    fresh keys items = items := by
  induction items generalizing keys with
  | nil => rfl
  | cons item items ih =>
      rw [List.nodup_cons] at h
      rw [fresh, if_neg (hnew item (by simp)), ih h.2]
      intro x hx
      rw [List.mem_append, List.mem_singleton]
      rintro (hkey | rfl)
      · exact hnew x (by simp [hx]) hkey
      · exact h.1 hx

theorem setKey_arr (t : Tbl) (key : Str) : (t.setKey key).arr = t.arr := by
  rw [Tbl.setKey]
  split <;> rfl

theorem foldl_setKey_arr (t : Tbl) (names : List Str) :
    (names.foldl Tbl.setKey t).arr = t.arr := by
  induction names generalizing t with
  | nil => rfl
  | cons name names ih => rw [List.foldl_cons, ih, setKey_arr]

theorem mem_foldl_setKey {t : Tbl} {names : List Str} {x : Str} :
    x ∈ (names.foldl Tbl.setKey t).keys ↔ x ∈ t.keys ∨ x ∈ names := by
  induction names generalizing t with
  | nil => simp
  | cons name names ih =>
      have hkeys : x ∈ (t.setKey name).keys ↔ x ∈ t.keys ∨ x = name := by
        rw [Tbl.setKey]
        split
        · rename_i hname
          constructor
          · exact Or.inl
          · rintro (hx | rfl)
            · exact hx
            · exact hname
        · simp
      rw [List.foldl_cons, ih, hkeys, List.mem_cons, or_assoc]

end Add

section Fields

variable (c dest src : Fields) (f : Field)

theorem tbl_none (k : FieldKind) : k.tbl none = none := by
  cases k <;> rfl

theorem tbl_mergefield (k : FieldKind) (dest : Option k.Val) (src : k.Val) :
    (k.tbl (some (mergefield k dest src))).getD Tbl.empty =
      ((k.tbl (some src)).getD Tbl.empty).arr.foldl Tbl.add ((k.tbl dest).getD Tbl.empty) := by
  cases k <;> rfl

theorem tbl_adjustvalue (cwd location : Str) (k : FieldKind) (v : k.Val) :
    (k.tbl (some (adjustvalue cwd location k v))).getD Tbl.empty =
      ((k.tbl (some v)).getD Tbl.empty).mapArr
        fun item => if k.isPaths then Path.getrelative cwd location item else item := by
  cases k with
  | list => exact congrArg (fun arr => Tbl.mk arr v.keys) (List.map_id' v.arr).symm
  | _ => rfl

theorem list_mergefields :
    (mergefields dest src).list f = (src.list f).arr.foldl Tbl.add (dest.list f) := by
  rw [Fields.list, Fields.list, Fields.list, mergefields]
  cases src f with
  | none => simp [tbl_none, Tbl.empty]
  | some v => exact tbl_mergefield f.fieldKind (dest f) v

theorem isPaths_of_keeprelative (h : f.keeprelative) : f.fieldKind.isPaths = false := by
  cases f <;> first | rfl | cases h

theorem list_adjustpaths (cwd location : Str) :
    (adjustpaths cwd location c).list f =
      (c.list f).mapArr (f.relative cwd location) := by
  rw [Fields.list, Fields.list, adjustpaths]
  cases hc : c f with
  | none => simp [tbl_none, Tbl.mapArr, Tbl.empty]
  | some v =>
      split
      · rename_i hkeep
        have hrel : f.relative cwd location = id := by
          funext item
          simp [Field.relative, isPaths_of_keeprelative f hkeep]
        simp [hrel, Tbl.mapArr]
      · exact tbl_adjustvalue cwd location f.fieldKind v

theorem list_set_of_ne {f g : Field} (h : f ≠ g) (v : f.fieldKind.Val) :
    (c.set f v).list g = c.list g := by
  rw [Fields.list, Fields.list, Fields.set_of_ne h]

end Fields

/-- The fields of a configuration that is merged from some of the blocks. -/
def mergedFields (env : Env) (prj : Container) (basis : Option Obj) (own : List Block) : Fields :=
  own.foldl (fun cfg blk => mergefields cfg blk.fields) (configBase env prj basis).fields

def inheritedItems (basis : Option Obj) (f : Field) : List Str :=
  basis.elim [] fun b => (b.fields.list f).arr

def ownItems (prj : Container) (own : List Block) (f : Field) : List Str :=
  (prj.fields.list f).arr ++ own.flatMap fun blk => (blk.fields.list f).arr

/-- No item that is kept is entered twice: what is inherited has different relative
forms, and none of these is given again, unless it is a name that was entered. -/
def Apart (relative : Str → Str) (keep : Str → Bool) (inherited own : List Str) : Prop :=
  (∀ x ∈ inherited, ∀ y ∈ inherited, keep (relative x) → relative x = relative y → x = y) ∧
    ∀ x ∈ inherited, keep (relative x) → relative x ∈ own → relative x ∈ inherited

section Merged

variable {env : Env} {prj : Container}

theorem exists_own_of_merge {basis : Option Obj} {heap h : Heap} {terms t : Terms}
    {c : Option Str} {p : Str} {cfg : Config}
    (hm : merge env prj basis heap terms c p = .ok (h, t, cfg)) :
    ∃ own, own.Sublist prj.blocks ∧ cfg.fields = mergedFields env prj basis own := by
  obtain ⟨st, addr, hst, -, -, -, rfl⟩ := merge_eq_ok.mp hm
  refine FoldRun.foldlM_invariant (d := []) (P := fun _ _ => True)
    (I := fun done (st : MergeState) => ∃ own : List Block, own.Sublist done ∧
      st.cfg.fields = mergedFields env prj basis own) ?_ ⟨[], List.Sublist.refl _, rfl⟩
    (FoldRun.along_of_forall (fun _ _ => trivial) _ _) hst
  rintro done st blk st' ⟨own, hown, hfields⟩ - hstep
  rcases mergeBlock_eq_ok.mp hstep with ⟨-, rfl⟩ | ⟨-, rfl⟩
  · refine ⟨own ++ [blk], hown.append (List.Sublist.refl _), ?_⟩
    rw [mergeMatching_cfg, mergedFields, List.foldl_append, ← mergedFields, ← hfields]
    rfl
  · exact ⟨own, hown.trans (List.sublist_append_left _ _), hfields⟩

theorem exists_own_of_collapse {sln : Container} {basis cfgs : Configs} {heap h : Heap}
    (hrun : collapse env sln prj basis heap = .ok (h, cfgs)) :
    ∀ e ∈ cfgs, ∃ own, own.Sublist prj.blocks ∧
      e.2.fields = mergedFields env prj ((basis.lookup e.1).map Config.toObj) own :=
  collapse_forall (Q := fun k cfg => ∃ own, own.Sublist prj.blocks ∧
    cfg.fields = mergedFields env prj ((basis.lookup k).map Config.toObj) own)
    (fun _ _ _ _ _ _ _ hm => exists_own_of_merge hm) hrun

/-- The list of a merged configuration: what is inherited, in its relative form but
under its own name, and what the project enters after it. -/
theorem list_mergedFields (basis : Option Obj) (own : List Block) (f : Field) :
    (mergedFields env prj basis own).list f =
      ⟨(fresh [] (inheritedItems basis f)).map
          (f.relative env.cwd ((prj.fields .location).getD [])) ++
          fresh (fresh [] (inheritedItems basis f)) (ownItems prj own f),
        fresh [] (inheritedItems basis f) ++
          fresh (fresh [] (inheritedItems basis f)) (ownItems prj own f)⟩ := by
  have hbase : (configBase env prj basis).fields.list f =
      (prj.fields.list f).arr.foldl Tbl.add
        ⟨(fresh [] (inheritedItems basis f)).map
          (f.relative env.cwd ((prj.fields .location).getD [])),
          fresh [] (inheritedItems basis f)⟩ := by
    have hempty : Fields.empty.list f = ⟨[], []⟩ := by
      simp [Fields.list, Fields.empty, tbl_none, Tbl.empty]
    rw [configBase, mergeobject, list_mergefields, list_adjustpaths]
    cases basis with
    | none => simp [hempty, Obj.empty, inheritedItems, fresh, Tbl.mapArr, Container.obj]
    | some b =>
        simp only [Option.elim_some, mergeobject, Obj.empty, list_mergefields, hempty, foldl_add,
          inheritedItems, Tbl.mapArr, Container.obj, List.nil_append]
  have hown : ∀ c : Fields, (own.foldl (fun cfg blk => mergefields cfg blk.fields) c).list f =
      (own.flatMap fun blk => (blk.fields.list f).arr).foldl Tbl.add (c.list f) := by
    induction own with
    | nil => exact fun c => rfl
    | cons blk own ih =>
        intro c
        rw [List.foldl_cons, ih, list_mergefields, List.flatMap_cons, List.foldl_append]
  rw [mergedFields, hown, hbase, ← List.foldl_append, foldl_add]
  rfl

/-- A list holds no item twice exactly when nothing that is kept was entered twice. -/
theorem nodup_filter_iff (relative : Str → Str) (keep : Str → Bool) (inherited own : List Str) :
    (((fresh [] inherited).map relative ++ fresh (fresh [] inherited) own).filter keep).Nodup ↔
      Apart relative keep inherited own := by
  have hmem : ∀ x, x ∈ fresh [] inherited ↔ x ∈ inherited := by simp [mem_fresh]
  have hmap : (((fresh [] inherited).map relative).filter keep).Nodup ↔
      ∀ x ∈ inherited, ∀ y ∈ inherited, keep (relative x) → relative x = relative y → x = y := by
    rw [List.filter_map, List.nodup_map_iff_inj_on (nodup_fresh.filter _)]
    simp only [List.mem_filter, hmem, Function.comp_apply]
    constructor
    · intro h x hx y hy hk heq
      exact h x ⟨hx, hk⟩ y ⟨hy, heq ▸ hk⟩ heq
    · exact fun h x hx y hy heq => h x hx.1 y hy.1 hx.2 heq
  rw [List.filter_append, List.nodup_append', hmap, Apart]
  refine and_congr_right fun _ => ?_
  rw [and_iff_right (nodup_fresh.filter _), List.disjoint_left]
  constructor
  · intro h x hx hk hown
    by_contra hnew
    refine h ?_ (List.mem_filter.mpr ⟨mem_fresh.mpr ⟨hown, fun h' => hnew ((hmem _).mp h')⟩, hk⟩)
    exact List.mem_filter.mpr ⟨List.mem_map.mpr ⟨x, (hmem x).mpr hx, rfl⟩, hk⟩
  · intro h y hy hy'
    obtain ⟨hy, hk⟩ := List.mem_filter.mp hy
    obtain ⟨x, hx, rfl⟩ := List.mem_map.mp hy
    obtain ⟨hown, hnew⟩ := mem_fresh.mp (List.mem_filter.mp hy').1
    exact hnew ((hmem _).mpr (h x ((hmem x).mp hx) hk hown))

theorem apart_of_not_isPaths {f : Field} (hf : f.fieldKind.isPaths = false) (cwd location : Str)
    (keep : Str → Bool) (inherited own : List Str) :
    Apart (f.relative cwd location) keep inherited own := by
  have hrel : ∀ x, f.relative cwd location x = x := fun x => by simp [Field.relative, hf]
  simp only [Apart, hrel]
  exact ⟨fun x _ y _ _ h => h, fun x hx _ _ => hx⟩

end Merged

def keeps (cfg : Fields) (f : Field) (item : Str) : Bool :=
  f ≠ .files ∨ item ∉ (cfg.list .excludes).arr

section Fixed

variable {plt : Platform} {cfg cfg' : Fields}

theorem list_fixedFields_of_ne (h : fixedFields plt cfg = .ok cfg') {f : Field}
    (hfiles : f ≠ .files) (hflags : f ≠ .flags) : cfg'.list f = cfg.list f := by
  by_cases hscalar : f = .location ∨ f = .kind
  · rcases hscalar with rfl | rfl <;> rfl
  · rw [not_or] at hscalar
    rw [Fields.list, Fields.list, fixedFields_of_ne h hscalar.1 hscalar.2 hfiles hflags]

theorem list_fixedFields_flags (h : fixedFields plt cfg = .ok cfg') :
    (cfg'.list .flags).arr = (cfg.list .flags).arr ∧
      ∀ x, x ∈ (cfg'.list .flags).keys ↔
        x ∈ (cfg.list .flags).keys ∨ x ∈ (cfg.list .flags).arr := by
  obtain ⟨mid, hmid, hflags⟩ := FoldRun.bind_eq_ok.mp h
  have hsame : mid .flags = cfg .flags := by
    rw [removeExcluded_of_ne hmid (by decide), adjustKind_of_ne plt (by decide),
      defaultLocation_of_ne (by decide)]
  have hlist : cfg.list .flags = (cfg .flags).getD Tbl.empty := rfl
  have hlist' : cfg'.list .flags = (cfg' .flags).getD Tbl.empty := rfl
  rw [rekeyFlags] at hflags
  rw [hlist, hlist', ← hsame]
  cases hmid' : mid .flags with
  | none =>
      rw [hmid'] at hflags
      cases hflags
  | some flags =>
      rw [hmid'] at hflags
      cases hflags
      rw [Fields.set_self]
      exact ⟨foldl_setKey_arr flags flags.arr, fun x => mem_foldl_setKey⟩

theorem arr_fixedFields (h : fixedFields plt cfg = .ok cfg') (f : Field) :
    (cfg'.list f).arr = (cfg.list f).arr.filter (keeps cfg f) := by
  by_cases hfiles : f = .files
  · subst hfiles
    have hfiltered : (cfg'.list .files).arr = listedFiles cfg := fixedFields_files h
    rw [hfiltered, listedFiles]
    refine List.filter_congr fun fname _ => ?_
    simp [keeps, Fields.list, FieldKind.tbl]
  · have hall : ∀ x ∈ (cfg.list f).arr, keeps cfg f x := fun x _ => by simp [keeps, hfiles]
    rw [List.filter_eq_self.mpr hall]
    by_cases hflags : f = .flags
    · subst hflags
      exact (list_fixedFields_flags h).1
    · rw [list_fixedFields_of_ne h hfiles hflags]

/-- A list of a post-processed configuration holds no item twice exactly when
nothing that is kept was entered twice. -/
theorem nodup_list_iff {env : Env} {prj : Container} {basis : Option Obj} {own : List Block}
    (h : fixedFields plt (mergedFields env prj basis own) = .ok cfg') (f : Field) :
    (cfg'.list f).arr.Nodup ↔
      Apart (f.relative env.cwd ((prj.fields .location).getD [])) (keeps cfg' f)
        (inheritedItems basis f) (ownItems prj own f) := by
  have hkeeps : keeps cfg' f = keeps (mergedFields env prj basis own) f := by
    funext item
    rw [keeps, keeps, list_fixedFields_of_ne h (by decide) (by decide)]
  rw [arr_fixedFields h, list_mergedFields, nodup_filter_iff, hkeeps]

theorem mem_keys_flags_iff {env : Env} {prj : Container} {basis : Option Obj} {own : List Block}
    (h : fixedFields plt (mergedFields env prj basis own) = .ok cfg') (x : Str) :
    x ∈ (cfg'.list .flags).keys ↔ x ∈ (cfg'.list .flags).arr := by
  have hrel : (fresh [] (inheritedItems basis .flags)).map
      (Field.relative .flags env.cwd ((prj.fields .location).getD [])) =
      fresh [] (inheritedItems basis .flags) := List.map_id' _
  obtain ⟨harr, hkeys⟩ := list_fixedFields_flags h
  rw [hkeys, harr, list_mergedFields, hrel, or_self]

end Fixed

/-- The configurations of a baked project are merged from some of its blocks, and
then fixed up. -/
theorem exists_own_of_bakeProject {env : Env} {sln prj : Container} {basis : Configs}
    {heap h : Heap} {baked : BakedConfigs}
    (hbake : bakeProject env sln prj basis heap = .ok (h, baked)) :
    ∀ e ∈ baked, ∃ own plt, own.Sublist prj.blocks ∧
      fixedFields plt (mergedFields env prj ((basis.lookup e.1).map Config.toObj) own) =
        .ok e.2.fields := by
  intro e he
  obtain ⟨g, cfgs, hcollapse, hpost⟩ := bakeProject_eq_ok hbake
  obtain ⟨e', he', hkey, _, _, -, hrun⟩ := FoldRun.exists_left_of_forall₂ hpost he
  obtain ⟨own, hown, hfields⟩ :=
    exists_own_of_collapse hcollapse e' (env.ord.mem_enum.mp he')
  obtain ⟨_, _, plt, fields, _, -, -, -, hfixed, -, heq⟩ := postprocess_eq_ok.mp hrun
  refine ⟨own, plt, hown, ?_⟩
  rw [heq, hkey, ← hfields]
  exact hfixed

end Puremake
