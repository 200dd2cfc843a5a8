import Puremake.Path.Reading

/-!
# The parts of a file name

The functions of `path` that cut a path at its last separator or its last dot, and the
recursion along the directories of a path, which ends at `.` unless the path starts
with a slash.
-/

namespace Puremake

namespace Path

/-- The text before and after the last character that is looked for, as
`string.findlast` finds it. -/
def splitLast (isSep : Char → Bool) : Str → Option (Str × Str)
  | [] => none
  | c :: s =>
    match splitLast isSep s with
    | some (a, b) => some (c :: a, b)
    | none => if isSep c then some ([], s) else none

def getdirectory (p : Str) : Str :=
  match splitLast (fun c => c = '/') p with
  | some ([], _) => ['/']
  | some (d, _) => d
  | none => dot

def getname (p : Str) : Str :=
  match splitLast isSeparator p with
  | some (_, n) => n
  | none => p

def getbasename (p : Str) : Str :=
  match splitLast (fun c => c = '.') (getname p) with
  | some (n, _) => n
  | none => getname p

def getextension (p : Str) : Str :=
  match splitLast (fun c => c = '.') p with
  | some (_, e) => '.' :: e
  | none => []

def Relative (p : Str) : Prop := p.head? ≠ some '/'

instance (p : Str) : Decidable (Relative p) := inferInstanceAs (Decidable (_ ≠ _))

theorem relative_dot : Relative dot := by decide

theorem splitLast_eq_none {isSep : Char → Bool} {p : Str} (h : splitLast isSep p = none) :
    ∀ c ∈ p, isSep c = false := by
  induction p with
  | nil => exact fun c hc => absurd hc List.not_mem_nil
  | cons c s ih =>
      rw [splitLast] at h
      cases hs : splitLast isSep s with
      | some ab => simp [hs] at h
      | none =>
          rw [hs] at h
          intro d hd
          rcases List.mem_cons.mp hd with rfl | hd
          · simpa using h
          · exact ih hs d hd

theorem splitLast_of_forall_not_sep {isSep : Char → Bool} {s : Str}
    (h : ∀ c ∈ s, isSep c = false) : splitLast isSep s = none := by
  induction s with
  | nil => rfl
  | cons c s ih =>
      rw [splitLast, ih fun d hd => h d (List.mem_cons_of_mem c hd)]
      exact if_neg (by simp [h c])

theorem splitLast_append {isSep : Char → Bool} {c : Char} (hc : isSep c = true) {b : Str}
    (hb : ∀ d ∈ b, isSep d = false) (a : Str) :
    splitLast isSep (a ++ c :: b) = some (a, b) := by
  induction a with
  | nil =>
      rw [List.nil_append, splitLast, splitLast_of_forall_not_sep hb]
      exact if_pos hc
  | cons x a ih => rw [List.cons_append, splitLast, ih]

theorem splitLast_eq_some {isSep : Char → Bool} {p a b : Str}
    (h : splitLast isSep p = some (a, b)) :
    ∃ c, isSep c = true ∧ p = a ++ c :: b ∧ ∀ d ∈ b, isSep d = false := by
  induction p generalizing a with
  | nil => cases h
  | cons c s ih =>
      unfold splitLast at h
      cases hs : splitLast isSep s with
      | some ab =>
          obtain ⟨a', b'⟩ := ab
          rw [hs] at h
          obtain ⟨rfl, rfl⟩ : c :: a' = a ∧ b' = b := by simpa using h
          obtain ⟨d, hd, rfl, hb⟩ := ih hs
          exact ⟨d, hd, rfl, hb⟩
      | none =>
          rw [hs] at h
          obtain ⟨hc, rfl, rfl⟩ : isSep c = true ∧ [] = a ∧ s = b := by simpa using h
          exact ⟨c, hc, rfl, splitLast_eq_none hs⟩

theorem length_of_splitLast {isSep : Char → Bool} {p a b : Str}
    (h : splitLast isSep p = some (a, b)) : a.length < p.length := by
  obtain ⟨c, -, rfl, -⟩ := splitLast_eq_some h
  simp

theorem head?_of_splitLast {isSep : Char → Bool} {p a b : Str}
    (h : splitLast isSep p = some (a, b)) :
    (a = [] ∧ ∃ c, p.head? = some c ∧ isSep c = true) ∨ (a ≠ [] ∧ a.head? = p.head?) := by
  obtain ⟨c, hc, rfl, -⟩ := splitLast_eq_some h
  cases a with
  | nil => exact .inl ⟨rfl, c, rfl, hc⟩
  | cons x a => exact .inr ⟨List.cons_ne_nil _ _, rfl⟩

/-- The directory of a relative path is relative, and shorter unless it is `.`. -/
theorem getdirectory_of_relative {p : Str} (hp : Relative p) :
    Relative (getdirectory p) ∧
      (getdirectory p = dot ∨ (getdirectory p).length < p.length) := by
  unfold getdirectory
  cases h : splitLast (fun c => c = '/') p with
  | none => exact ⟨relative_dot, .inl rfl⟩
  | some ab =>
      obtain ⟨a, b⟩ := ab
      rcases head?_of_splitLast h with ⟨-, c, hc, hsep⟩ | ⟨ha, hhead⟩
      · exact absurd (hc.trans (by simpa using hsep)) hp
      · cases a with
        | nil => exact absurd rfl ha
        | cons x a =>
            refine ⟨?_, .inr (length_of_splitLast h)⟩
            unfold Relative
            rw [hhead]
            exact hp

/-- The directory of a path that starts with a slash starts with a slash. -/
theorem getdirectory_of_not_relative {p : Str} (hp : ¬ Relative p) :
    ¬ Relative (getdirectory p) := by
  rw [Relative, not_not] at hp ⊢
  unfold getdirectory
  cases h : splitLast (fun c => c = '/') p with
  | none =>
      cases p with
      | nil => cases hp
      | cons c s =>
          obtain rfl : c = '/' := Option.some.inj hp
          unfold splitLast at h
          split at h <;> simp at h
  | some ab =>
      obtain ⟨a, b⟩ := ab
      cases a with
      | nil => rfl
      | cons x a =>
          rcases head?_of_splitLast h with ⟨ha, -⟩ | ⟨-, hhead⟩
          · cases ha
          · exact hhead.trans hp

section Directories

variable {β : Type*} (start : β) (step : β → Str → β)

/-- A recursion along the directories of a path, as `tree.add` calls itself: from what
`.` stands for, one step for each path on the way. The fuel runs out only when the path
starts with a slash; the directory of `/` is `/`, and the source does not come to an
end. -/
def descend : ℕ → Str → Option β
  | 0, _ => none
  | fuel + 1, p =>
    if p = dot then some start
    else (descend fuel (getdirectory p)).map fun b => step b p

def along (p : Str) : Option β := descend start step (p.length + 2) p

theorem descend_mono {fuel fuel' : ℕ} (hle : fuel ≤ fuel') {p : Str} {b : β}
    (h : descend start step fuel p = some b) : descend start step fuel' p = some b := by
  induction fuel generalizing fuel' p b with
  | zero => cases h
  | succ fuel ih =>
      cases fuel' with
      | zero => omega
      | succ fuel' =>
          rw [descend] at h ⊢
          split at h
          · rw [if_pos ‹_›]
            exact h
          · rw [if_neg ‹_›]
            obtain ⟨b', hb', rfl⟩ := Option.map_eq_some_iff.mp h
            rw [ih (by omega) hb']
            rfl

theorem descend_isSome {p : Str} (hp : Relative p) {fuel : ℕ} (hfuel : p.length + 2 ≤ fuel) :
    (descend start step fuel p).isSome := by
  induction fuel generalizing p with
  | zero => omega
  | succ fuel ih =>
      rw [descend]
      split
      · rfl
      · rw [Option.isSome_map]
        obtain ⟨hrel, hdir | hlen⟩ := getdirectory_of_relative hp
        · rw [hdir]
          cases fuel with
          | zero => omega
          | succ fuel => simp [descend]
        · exact ih hrel (by omega)

theorem descend_of_not_relative {p : Str} (hp : ¬ Relative p) (fuel : ℕ) :
    descend start step fuel p = none := by
  induction fuel generalizing p with
  | zero => rfl
  | succ fuel ih =>
      rw [descend, if_neg, ih (getdirectory_of_not_relative hp), Option.map_none]
      rintro rfl
      exact hp relative_dot

theorem relative_of_along {p : Str} {b : β} (h : along start step p = some b) : Relative p := by
  by_contra hp
  rw [along, descend_of_not_relative start step hp] at h
  cases h

theorem exists_along {p : Str} (hp : Relative p) : ∃ b, along start step p = some b :=
  Option.isSome_iff_exists.mp (descend_isSome start step hp (Nat.le_refl _))

@[simp] theorem along_dot : along start step dot = some start := by
  simp [along, descend]

theorem along_of_ne_dot {p : Str} (hp : Relative p) (hne : p ≠ dot) :
    along start step p = (along start step (getdirectory p)).map fun b => step b p := by
  rw [along, descend, if_neg hne]
  obtain ⟨hrel, hdir | hlen⟩ := getdirectory_of_relative hp
  · rw [hdir, along_dot, descend, if_pos rfl]
  · obtain ⟨b, hb⟩ := exists_along start step hrel
    rw [hb, descend_mono start step (by omega) hb]

end Directories

theorem relative_induction {motive : ∀ p, Relative p → Prop} (dot : motive dot relative_dot)
    (step : ∀ p (hp : Relative p), p ≠ Puremake.dot →
      motive (getdirectory p) (getdirectory_of_relative hp).1 → motive p hp)
    (p : Str) (hp : Relative p) : motive p hp := by
  have hdot : ∀ q (hq : Relative q), q = Puremake.dot → motive q hq := by
    rintro _ _ rfl
    exact dot
  generalize hn : p.length = n
  induction n using Nat.strongRecOn generalizing p with
  | ind n ih =>
      by_cases hp₀ : p = Puremake.dot
      · exact hdot p hp hp₀
      · refine step p hp hp₀ ?_
        obtain ⟨-, hdir | hlen⟩ := getdirectory_of_relative hp
        · exact hdot _ _ hdir
        · exact ih _ (hn ▸ hlen) _ _ rfl

end Path

end Puremake
