import Puremake.Path.Meaning
import Puremake.Path.Relative

/-!
# Names below a directory

`path.join` puts a directory and a name together and normalizes the result. The pieces of
the result are those that the directory settles to, and the name. A name that looks
absolute is not appended.
-/

namespace Puremake

namespace Path

def settled (p : Str) : List Str := normalPieces (read p)

/-- A name that is appended to a directory as it is. -/
def IsName (n : Str) : Prop := IsComp n ∧ n ≠ dotdot ∧ isabsolute n = false

instance (n : Str) : Decidable (IsName n) := inferInstanceAs (Decidable (_ ∧ _))

theorem anchorOf_append {ps : List Str} (hps : ps ≠ [] ∧ ps ≠ [[]]) {qs : List Str} :
    anchorOf (ps ++ qs) = anchorOf ps := by
  obtain ⟨hne, hempty⟩ := hps
  cases ps with
  | nil => exact absurd rfl hne
  | cons s t =>
      rw [List.cons_append, anchorOf, anchorOf]
      by_cases hs : s = []
      · have ht : t ≠ [] := by
          rintro rfl
          exact hempty (by rw [hs])
        rw [if_pos hs, if_pos hs, if_neg ht, if_neg (List.append_ne_nil_of_left_ne_nil ht qs)]
      · rw [if_neg hs, if_neg hs]

theorem reading_append {ps : List Str} (hps : ps ≠ [] ∧ ps ≠ [[]]) (qs : List Str) :
    (⟨anchorOf (ps ++ qs), (afterAnchor (ps ++ qs)).filter meaningful⟩ : Reading) =
      ⟨anchorOf ps, (afterAnchor ps).filter meaningful ++ qs.filter meaningful⟩ := by
  rw [afterAnchor, afterAnchor, anchorOf_append hps]
  split
  · rw [List.tail_append_of_ne_nil hps.1, List.filter_append]
  · rw [List.filter_append]

theorem normalPieces_append {a : Option Anchor} {cs : List Str} {n : Str} (hn : n ≠ dotdot) :
    normalPieces ⟨a, cs ++ [n]⟩ = normalPieces ⟨a, cs⟩ ++ [n] := by
  have hrole : ∀ x ∈ [n], compRole x ≠ .up := by
    intro x hx
    rw [List.mem_singleton.mp hx]
    exact fun h => hn (compRole_eq_up.mp h)
  rw [normalPieces, normalPieces, UpWord.blind, UpWord.blind, UpWord.blindFrom_append,
    UpWord.blindFrom_of_ne_up hrole]
  simp

theorem pieces_ne_of_ne_nil {b : Str} (hb : b ≠ []) :
    pieces isSeparator b ≠ [] ∧ pieces isSeparator b ≠ [[]] := by
  refine ⟨pieces_ne_nil b, fun h => hb ?_⟩
  cases b with
  | nil => rfl
  | cons c b =>
      rw [pieces_cons] at h
      split at h
      · exact absurd (List.cons.inj h).2 (pieces_ne_nil b)
      · obtain ⟨q, qs, hq⟩ := exists_pieces_eq_cons isSeparator b
        rw [hq] at h
        cases (List.cons.inj h).1

theorem settled_append {b n : Str} (hb : b ≠ []) (hn : IsComp n) (hup : n ≠ dotdot) :
    settled (b ++ '/' :: n) = settled b ++ [n] := by
  have hread : read (b ++ '/' :: n) =
      ⟨anchorOf (pieces isSeparator b),
        (afterAnchor (pieces isSeparator b)).filter meaningful ++ [n]⟩ := by
    rw [read, pieces_append_pieces b (by decide), pieces_of_forall_not_sep hn.2.2,
      reading_append (pieces_ne_of_ne_nil hb), List.filter_cons_of_pos (meaningful_of_isComp hn)]
    rfl
  rw [settled, hread, normalPieces_append hup]
  rfl

theorem not_sep_of_mem_settled {p q : Str} (hq : q ∈ settled p) :
    ∀ c ∈ q, isSeparator c = false :=
  not_sep_of_mem_normalPieces (fun _ => isComp_of_mem_read) q hq

theorem concat_name_ne_nil (b : Str) {n : Str} (hn : IsName n) :
    concat '/' (settled b ++ [n]) ≠ [] := by
  by_cases hnil : settled b = []
  · rw [hnil, List.nil_append, concat_singleton]
    exact hn.1.1
  · rw [concat_append hnil (List.cons_ne_nil _ _)]
    exact List.append_ne_nil_of_right_ne_nil _ (List.cons_ne_nil _ _)

/-- `path.join` appends a name to the pieces that the directory settles to. -/
theorem join_name {b n : Str} (hb : b ≠ []) (hn : IsName n) :
    join [some b, some n] = concat '/' (settled b ++ [n]) := by
  obtain ⟨hcomp, hup, habs⟩ := hn
  have hparts : joinPart (joinPart [] b) n = b ++ '/' :: n := by
    have hfirst : joinPart [] b = b := by
      rw [joinPart]
      split <;> rfl
    rw [hfirst, joinPart, if_neg (by rw [habs]; decide), if_pos hb]
    simp
  have hjoin : join [some b, some n] = normalize (joinPart (joinPart [] b) n) := by
    cases b with
    | nil => exact absurd rfl hb
    | cons c b => rfl
  rw [hjoin, hparts, normalize_eq, ← settled_append hb hcomp hup]
  rfl

theorem settled_join_name {b n : Str} (hb : b ≠ []) (hn : IsName n) :
    settled (concat '/' (settled b ++ [n])) = settled b ++ [n] := by
  have hsep : ∀ q ∈ settled b ++ [n], ∀ c ∈ q, isSeparator c = false := by
    intro q hq
    rcases List.mem_append.mp hq with hq | hq
    · exact not_sep_of_mem_settled hq
    · rw [List.mem_singleton.mp hq]
      exact hn.1.2.2
  have hne : settled b ++ [n] ≠ [] := List.append_ne_nil_of_right_ne_nil _ (List.cons_ne_nil _ _)
  have hnormal : normalize (concat '/' (settled b ++ [n])) = concat '/' (settled b ++ [n]) := by
    rw [← settled_append hb hn.1 hn.2.1]
    exact (congrArg normalize (normalize_eq _)).symm.trans
      ((normalize_normalize _).trans (normalize_eq _))
  rw [normalize_eq] at hnormal
  have hpieces := congrArg (pieces isSeparator) hnormal
  rw [pieces_concat (by decide) hne hsep] at hpieces
  have hne' : settled (concat '/' (settled b ++ [n])) ≠ [] := by
    intro hnil
    rw [settled] at hnil
    rw [hnil] at hnormal
    have hslash : isSeparator '/' = true := by decide
    have hcut := pieces_concat hslash hne hsep
    rw [← hnormal] at hcut
    have hlast : [[]].getLast? = (settled b ++ [n]).getLast? := congrArg List.getLast? hcut
    rw [List.getLast?_concat] at hlast
    exact hn.1.1 (Option.some.inj hlast).symm
  rw [show WPath.join (normalPieces (read (concat '/' (settled b ++ [n])))) =
    concat '/' (settled (concat '/' (settled b ++ [n]))) from rfl,
    pieces_concat (by decide) hne' fun q hq => not_sep_of_mem_settled hq] at hpieces
  exact hpieces

theorem length_settled_le (p : Str) : (settled p).length ≤ (pieces isSeparator p).length := by
  have hblind : (UpWord.blind compRole (read p).comps).length ≤ (read p).comps.length :=
    UpWord.length_blind_le _
  have hfilter : (read p).comps.length ≤ (afterAnchor (pieces isSeparator p)).length :=
    List.length_filter_le _ _
  rw [settled, normalPieces, List.length_append, List.length_map, read_anchor]
  rw [afterAnchor] at hfilter
  cases ha : anchorOf (pieces isSeparator p) with
  | none =>
      rw [ha] at hfilter
      simpa using Nat.le_trans hblind hfilter
  | some a =>
      have hpos : 0 < (pieces isSeparator p).length :=
        List.length_pos_of_ne_nil (pieces_ne_nil p)
      rw [ha] at hfilter
      simp only [Option.isSome_some, if_true, List.length_tail] at hfilter
      simp only [Option.toList_some, List.length_singleton]
      omega

theorem settled_of_pieces {b p : Str} (hb : b ≠ []) {ns : List Str}
    (hp : pieces isSeparator p = pieces isSeparator b ++ ns) (hns : ∀ n ∈ ns, IsName n) :
    settled p = settled b ++ ns := by
  have hfilter : ns.filter meaningful = ns :=
    filter_meaningful_eq_self fun n hn => (hns n hn).1
  have hup : ∀ n ∈ ns, compRole n ≠ .up := fun n hn h =>
    (hns n hn).2.1 (compRole_eq_up.mp h)
  rw [settled, read, hp, reading_append (pieces_ne_of_ne_nil hb), hfilter, normalPieces,
    UpWord.blind, UpWord.blindFrom_append, UpWord.blindFrom_of_ne_up hup, settled, read,
    normalPieces, UpWord.blind]
  simp

/-- What a path settles to does not go on with names of the path itself. -/
theorem pieces_eq_settled {b : Str} (hb : b ≠ []) {ns : List Str} (hns : ∀ n ∈ ns, IsName n)
    (h : pieces isSeparator b = settled b ++ ns) : pieces isSeparator b = settled b := by
  cases ns with
  | nil => rw [h, List.append_nil]
  | cons n ns =>
      have hn := hns n List.mem_cons_self
      have hne : settled b ++ [n] ≠ [] :=
        List.append_ne_nil_of_right_ne_nil _ (List.cons_ne_nil _ _)
      have hpieces : pieces isSeparator (concat '/' (settled b ++ [n])) = settled b ++ [n] := by
        refine pieces_concat (by decide) hne fun q hq => ?_
        rcases List.mem_append.mp hq with hq | hq
        · exact not_sep_of_mem_settled hq
        · rw [List.mem_singleton.mp hq]
          exact hn.1.2.2
      have hsettled := settled_of_pieces (p := b) (concat_name_ne_nil b hn)
        (h.trans (by rw [hpieces, List.append_assoc, List.singleton_append]))
        fun m hm => hns m (List.mem_cons_of_mem _ hm)
      rw [settled_join_name hb hn] at hsettled
      have hlen := congrArg List.length hsettled
      simp only [List.length_append, List.length_singleton] at hlen
      omega

theorem settled_append_slash {b n : Str} (hb : b ≠ []) (hn : IsName n) (hne : settled b ≠ []) :
    settled (concat '/' (settled b ++ [[]])) = settled b := by
  have hsep : ∀ x : Str, (∀ c ∈ x, isSeparator c = false) →
      pieces isSeparator (concat '/' (settled b ++ [x])) = settled b ++ [x] := by
    intro x hx
    refine pieces_concat (by decide)
      (List.append_ne_nil_of_right_ne_nil _ (List.cons_ne_nil _ _)) fun q hq => ?_
    rcases List.mem_append.mp hq with hq | hq
    · exact not_sep_of_mem_settled hq
    · rwa [List.mem_singleton.mp hq]
  have hself := settled_join_name hb hn
  by_cases hroot : settled b = [[]]
  · rw [hroot]
    rfl
  · rw [settled, read, hsep n hn.1.2.2, reading_append ⟨hne, hroot⟩,
      List.filter_cons_of_pos (meaningful_of_isComp hn.1), List.filter_nil,
      normalPieces_append hn.2.1] at hself
    rw [settled, read, hsep [] (by simp), reading_append ⟨hne, hroot⟩]
    rw [show [([] : Str)].filter meaningful = [] from rfl, List.append_nil]
    exact List.append_cancel_right hself

theorem ne_nil_of_mem_tail_settled {p q : Str} (hq : q ∈ (settled p).tail) : q ≠ [] := by
  have hblind : ∀ s ∈ UpWord.blind compRole (read p).comps, s ≠ [] := fun s hs =>
    (isComp_of_mem_blind hs).1
  rw [settled, normalPieces] at hq
  cases ha : (read p).anchor with
  | none =>
      rw [ha] at hq
      exact hblind q (List.mem_of_mem_tail hq)
  | some a =>
      rw [ha] at hq
      exact hblind q hq

/-- A text with a slash at the end for the directory with some pieces. -/
def slashed (ps : List Str) : Str := if ps = [] then [] else concat '/' (ps ++ [[]])

theorem dir_of_parseRoot {p n : Str} (root : Option Str) (ps : List Str)
    (h : WPath.parseRoot (WPath.split p) = (root, ps ++ [n])) (hps : ∀ q ∈ ps, q ≠ []) :
    ((WPath.parse p).dir).getD [] = root.getD [] ++ slashed ps := by
  have hlast : ps.getLast? ≠ some [] := fun hlast => hps [] (List.mem_of_getLast? hlast) rfl
  rw [WPath.parse, h]
  simp only [List.dropLast_concat, slashed]
  rw [if_pos hlast]
  cases root with
  | none => split <;> rfl
  | some r => split <;> rfl

theorem parse_dir {b n : Str} (hn : IsName n) :
    ((WPath.parse (concat '/' (settled b ++ [n]))).dir).getD [] = slashed (settled b) := by
  obtain ⟨⟨hne, -, hsep⟩, -, habs⟩ := hn
  have hdrive : n[1]? ≠ some ':' := by
    intro h
    rw [isabsolute, h] at habs
    simp at habs
  have htail : ∀ q ∈ (settled b).tail, q ≠ [] := fun q => ne_nil_of_mem_tail_settled
  have hseps : ∀ q ∈ settled b, ∀ c ∈ q, isSeparator c = false := fun q =>
    not_sep_of_mem_settled
  cases hN : settled b with
  | nil =>
      refine dir_of_parseRoot none [] (n := n) ?_ (by simp)
      rw [List.nil_append, show concat '/' [n] = WPath.join (n :: []) from rfl,
        WPath.split_join hsep (by simp) (by simp), WPath.parseRoot, if_neg (by simp),
        if_neg fun h => hdrive h.2]
  | cons s t =>
      rw [hN] at htail hseps
      have hsplit : WPath.split (concat '/' (s :: t ++ [n])) = s :: (t ++ [n]) := by
        refine WPath.split_join (hseps s List.mem_cons_self) (fun q hq => ?_) fun q hq => ?_
        · rcases List.mem_append.mp hq with hq | hq
          · exact hseps q (List.mem_cons_of_mem _ hq)
          · rwa [List.mem_singleton.mp hq]
        · have hdrop : (t ++ [n]).dropLast = t := List.dropLast_concat
          exact htail q (by rwa [← hdrop])
      -- a root takes the first piece with its slash
      have hslashed : s ++ ['/'] ++ slashed t = slashed (s :: t) := by
        rw [slashed, slashed, if_neg (List.cons_ne_nil _ _), List.cons_append,
          concat_cons (List.append_ne_nil_of_right_ne_nil _ (List.cons_ne_nil _ _))]
        split
        · rename_i ht
          rw [ht]
          simp
        · simp
      by_cases hs : s = []
      · subst hs
        refine (dir_of_parseRoot (some ['/']) t (n := n) ?_ htail).trans hslashed
        rw [hsplit, WPath.parseRoot, if_pos ⟨rfl, by simp⟩]
      · by_cases hs' : s.length = 2 ∧ s[1]? = some ':'
        · refine (dir_of_parseRoot (some (s ++ ['/'])) t (n := n) ?_ htail).trans hslashed
          rw [hsplit, WPath.parseRoot, if_neg fun h => hs h.1, if_pos hs']
        · refine dir_of_parseRoot none (s :: t) (n := n) ?_
            (by simpa using ⟨hs, htail⟩)
          rw [hsplit, WPath.parseRoot, if_neg fun h => hs h.1, if_neg hs']
          rfl

end Path

end Puremake
