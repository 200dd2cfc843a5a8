import Mathlib.Data.List.Basic

/-!
# Calls that switch a state

A program runs chunks of commands that work on one state. A call switches to another state, runs
the chunk that it finds there, and leaves that state again when the chunk returns. An error ends
a chunk and all the calls that it is in, up to the first protected block, and on this way out
no state is left.

A run records all calls that returned or whose error was caught, with the states before and
after them. When the state that is left is always the one before, the records say that every
call restored the state exactly when each call whose error was caught had entered the state that
it was made in.
-/

namespace Scoped

variable {σ ν μ : Type*}

/-- A command of a chunk: it uses something, calls a chunk by its name, raises an error, or runs
commands in a protected block. -/
inductive Command (ν μ : Type*)
  | use (u : μ)
  | call (n : ν)
  | raise
  | attempt (body : List (Command ν μ))

structure System (σ ν μ : Type*) where
  /-- The state that a call switches to. -/
  enter : σ → ν → σ
  /-- The chunk that is found in the state that was entered, if any. -/
  chunk : σ → Option (List (Command ν μ))
  /-- The state after the chunk, from the one before the call and the one that the chunk ended
  in. -/
  leave : σ → σ → σ

structure Call (σ ν : Type*) where
  name : ν
  before : σ
  entered : σ
  after : σ
  raised : Bool

/-- The record of a use: the state that the chunk was entered with, and the one that the use is
made in. -/
structure Use (σ μ : Type*) where
  home : σ
  state : σ
  used : μ

/-- What a run leaves behind: the state, and whether an error was raised; the calls that the
error has ended; the calls that have returned or whose error was caught; and the uses. -/
structure Run (σ ν μ : Type*) where
  state : σ
  raised : Bool
  pending : List (Call σ ν)
  calls : List (Call σ ν)
  uses : List (Use σ μ)

def Run.after (r r' : Run σ ν μ) : Run σ ν μ :=
  ⟨r'.state, r'.raised, r'.pending, r.calls ++ r'.calls, r.uses ++ r'.uses⟩

def Run.caught (r : Run σ ν μ) : Run σ ν μ :=
  ⟨r.state, false, [], r.calls ++ r.pending, r.uses⟩

/-- The run of a call, from the run of its chunk: when the chunk returns, its state is left, and
when it raises an error, it is not. -/
def Run.ofChunk (sys : System σ ν μ) (s : σ) (n : ν) (r : Run σ ν μ) : Run σ ν μ :=
  if r.raised then
    ⟨r.state, true, ⟨n, s, sys.enter s n, r.state, true⟩ :: r.pending, r.calls, r.uses⟩
  else
    ⟨sys.leave s r.state, false, r.pending,
      r.calls ++ [⟨n, s, sys.enter s n, sys.leave s r.state, false⟩], r.uses⟩

/-- The commands of a list are run until one of them raises an error. -/
def execAll (exec : σ → Command ν μ → Option (Run σ ν μ)) :
    σ → List (Command ν μ) → Option (Run σ ν μ)
  | s, [] => some ⟨s, false, [], [], []⟩
  | s, c :: cs => do
    let r ← exec s c
    if r.raised then return r else return r.after (← execAll exec r.state cs)

/-- A call of a chunk, whose commands are run by `exec`, for a chunk that was entered with the
state that `exec` is given first. -/
def invoke (sys : System σ ν μ) (exec : σ → σ → Command ν μ → Option (Run σ ν μ)) (s : σ) (n : ν) :
    Option (Run σ ν μ) :=
  match sys.chunk (sys.enter s n) with
  | none => some (Run.ofChunk sys s n ⟨sys.enter s n, true, [], [], []⟩)
  | some body =>
    (execAll (exec (sys.enter s n)) (sys.enter s n) body).map (Run.ofChunk sys s n)

/-- A command is run in a chunk that was entered with the state `home`. -/
def exec (sys : System σ ν μ) : ℕ → σ → σ → Command ν μ → Option (Run σ ν μ)
  | 0, _, _, _ => none
  | _ + 1, home, s, .use u => some ⟨s, false, [], [], [⟨home, s, u⟩]⟩
  | _ + 1, _, s, .raise => some ⟨s, true, [], [], []⟩
  | fuel + 1, home, s, .attempt body => (execAll (exec sys fuel home) s body).map Run.caught
  | fuel + 1, _, s, .call n => invoke sys (exec sys fuel) s n

/-- After the call the state is what it was before. -/
def Call.Restored (c : Call σ ν) : Prop := c.after = c.before

/-- The call returned, or the state that it entered is the one that it was made in. -/
def Call.Calm (c : Call σ ν) : Prop := c.raised → c.entered = c.before

instance [DecidableEq σ] (c : Call σ ν) : Decidable c.Restored :=
  inferInstanceAs (Decidable (_ = _))

instance [DecidableEq σ] (c : Call σ ν) : Decidable c.Calm :=
  inferInstanceAs (Decidable (_ → _))

/-- What holds of a run from a state: its calls restored their states exactly when they were
calm, and then it ends in the state that it started in and uses are made at home. -/
structure Keeps (home s : σ) (r : Run σ ν μ) : Prop where
  calls : (∀ c ∈ r.calls, c.Calm) ↔ ∀ c ∈ r.calls, c.Restored
  pending : (∀ c ∈ r.calls, c.Calm) →
    ((∀ c ∈ r.pending, c.Calm) ↔ ∀ c ∈ r.pending, c.Restored)
  state : (∀ c ∈ r.calls, c.Calm) → (∀ c ∈ r.pending, c.Calm) → r.state = s
  returned : r.raised = false → r.pending = []
  uses : (∀ c ∈ r.calls, c.Calm) → s = home → ∀ u ∈ r.uses, u.state = u.home

section Keeps

variable {home s : σ} {r r' : Run σ ν μ}

theorem keeps_of_calls_nil {raised : Bool} {uses : List (Use σ μ)}
    (huses : ∀ u ∈ uses, u.home = home ∧ u.state = s) :
    Keeps home s (⟨s, raised, [], [], uses⟩ : Run σ ν μ) where
  calls := by simp
  pending := by simp
  state := fun _ _ => rfl
  returned := fun _ => rfl
  uses := by
    rintro - rfl u hu
    obtain ⟨hhome, hstate⟩ := huses u hu
    rw [hhome, hstate]

theorem Keeps.after (h : Keeps home s r) (hr : r.raised = false)
    (h' : Keeps home r.state r') : Keeps home s (r.after r') := by
  have hpending := h.returned hr
  have hstate : (∀ c ∈ r.calls, c.Calm) → r.state = s := fun hcalm =>
    h.state hcalm (by simp [hpending])
  refine ⟨?_, ?_, ?_, h'.returned, ?_⟩
  · show (∀ c ∈ r.calls ++ r'.calls, c.Calm) ↔ ∀ c ∈ r.calls ++ r'.calls, c.Restored
    rw [List.forall_mem_append, List.forall_mem_append, h.calls, h'.calls]
  · intro hcalm
    exact h'.pending (List.forall_mem_append.mp hcalm).2
  · intro hcalm hrest
    obtain ⟨hcalm, hcalm'⟩ := List.forall_mem_append.mp hcalm
    rw [← hstate hcalm]
    exact h'.state hcalm' hrest
  · intro hcalm hhome
    obtain ⟨hcalm, hcalm'⟩ := List.forall_mem_append.mp hcalm
    exact List.forall_mem_append.mpr
      ⟨h.uses hcalm hhome, h'.uses hcalm' ((hstate hcalm).trans hhome)⟩

theorem Keeps.caught (h : Keeps home s r) : Keeps home s r.caught := by
  refine ⟨?_, fun _ => by simp [Run.caught], fun hcalm _ => ?_, fun _ => rfl,
    fun hcalm => ?_⟩
  · show (∀ c ∈ r.calls ++ r.pending, c.Calm) ↔ ∀ c ∈ r.calls ++ r.pending, c.Restored
    rw [List.forall_mem_append, List.forall_mem_append]
    constructor
    · rintro ⟨hcalls, hpending⟩
      exact ⟨h.calls.mp hcalls, (h.pending hcalls).mp hpending⟩
    · rintro ⟨hcalls, hpending⟩
      have hcalm := h.calls.mpr hcalls
      exact ⟨hcalm, (h.pending hcalm).mpr hpending⟩
  · obtain ⟨hcalls, hpending⟩ := List.forall_mem_append.mp hcalm
    exact h.state hcalls hpending
  · exact h.uses (List.forall_mem_append.mp hcalm).1

theorem Keeps.ofChunk {sys : System σ ν μ} (hleave : ∀ s s', sys.leave s s' = s) {n : ν}
    (h : Keeps (sys.enter s n) (sys.enter s n) r) :
    Keeps home s (Run.ofChunk sys s n r) := by
  rw [Run.ofChunk]
  cases hraised : r.raised with
  | false =>
      rw [if_neg (by simp), hleave]
      refine ⟨?_, fun _ => ?_, fun _ _ => rfl, fun _ => h.returned hraised, fun hcalm _ => ?_⟩
      · show (∀ c ∈ r.calls ++ [_], c.Calm) ↔ ∀ c ∈ r.calls ++ [_], c.Restored
        rw [List.forall_mem_append, List.forall_mem_append, h.calls, List.forall_mem_singleton,
          List.forall_mem_singleton]
        refine and_congr_right fun _ => iff_of_true (fun hc => ?_) rfl
        cases hc
      · simp [h.returned hraised]
      · exact h.uses (List.forall_mem_append.mp hcalm).1 rfl
  | true =>
      rw [if_pos rfl]
      have hentered : (∀ c ∈ r.calls, c.Calm) → (∀ c ∈ r.pending, c.Calm) →
          ((Call.mk n s (sys.enter s n) r.state true).Calm ↔
            (Call.mk n s (sys.enter s n) r.state true).Restored) := by
        intro hcalm hpending
        rw [Call.Calm, Call.Restored, h.state hcalm hpending]
        exact forall_prop_of_true rfl
      refine ⟨h.calls, fun hcalm => ?_, fun hcalm hpending => ?_,
        fun hc => absurd (show true = false from hc) (by decide), fun hcalm _ => h.uses hcalm rfl⟩
      · rw [List.forall_mem_cons, List.forall_mem_cons]
        constructor
        · rintro ⟨hc, hpending⟩
          exact ⟨(hentered hcalm hpending).mp hc, (h.pending hcalm).mp hpending⟩
        · rintro ⟨hc, hpending⟩
          have hpending := (h.pending hcalm).mpr hpending
          exact ⟨(hentered hcalm hpending).mpr hc, hpending⟩
      · obtain ⟨hc, hpending⟩ := List.forall_mem_cons.mp hpending
        exact (h.state hcalm hpending).trans (hc rfl)

theorem keeps_execAll {run : σ → Command ν μ → Option (Run σ ν μ)}
    (hrun : ∀ s c r, run s c = some r → Keeps home s r) {cs : List (Command ν μ)}
    (h : execAll run s cs = some r) : Keeps home s r := by
  induction cs generalizing s r with
  | nil =>
      obtain rfl := Option.some.inj h
      exact keeps_of_calls_nil (by simp)
  | cons c cs ih =>
      rw [execAll] at h
      obtain ⟨r₁, hr₁, h⟩ := Option.bind_eq_some_iff.mp h
      have hfirst := hrun s c r₁ hr₁
      split at h
      · obtain rfl := Option.some.inj h
        exact hfirst
      · rename_i hraised
        obtain ⟨r₂, hr₂, h⟩ := Option.bind_eq_some_iff.mp h
        obtain rfl := Option.some.inj h
        exact hfirst.after (by simpa using hraised) (ih hr₂)

theorem keeps_invoke {sys : System σ ν μ} (hleave : ∀ s s', sys.leave s s' = s)
    {run : σ → σ → Command ν μ → Option (Run σ ν μ)}
    (hrun : ∀ home s c r, run home s c = some r → Keeps home s r) {n : ν}
    (h : invoke sys run s n = some r) : Keeps home s r := by
  rw [invoke] at h
  split at h
  · obtain rfl := Option.some.inj h
    exact Keeps.ofChunk hleave (keeps_of_calls_nil (by simp))
  · obtain ⟨r₁, hr₁, rfl⟩ := Option.map_eq_some_iff.mp h
    exact Keeps.ofChunk hleave (keeps_execAll (hrun _) hr₁)

/-- A run keeps what it should: by induction on the fuel, one case for each command. -/
theorem keeps_exec {sys : System σ ν μ} (hleave : ∀ s s', sys.leave s s' = s) (fuel : ℕ)
    (home s : σ) (c : Command ν μ) (r : Run σ ν μ) (h : exec sys fuel home s c = some r) :
    Keeps home s r := by
  induction fuel generalizing home s c r with
  | zero => cases h
  | succ fuel ih =>
      cases c with
      | use u =>
          obtain rfl := Option.some.inj h
          exact keeps_of_calls_nil (by simp)
      | raise =>
          obtain rfl := Option.some.inj h
          exact keeps_of_calls_nil (by simp)
      | attempt body =>
          obtain ⟨r₁, hr₁, rfl⟩ := Option.map_eq_some_iff.mp h
          exact (keeps_execAll (ih home) hr₁).caught
      | call n => exact keeps_invoke hleave ih h

end Keeps

section Home

variable {sys : System σ ν μ} {P : σ → Prop}

theorem uses_ofChunk (s : σ) (n : ν) (r : Run σ ν μ) : (Run.ofChunk sys s n r).uses = r.uses := by
  rw [Run.ofChunk]
  split
  · rfl
  · rfl

theorem home_execAll {run : σ → Command ν μ → Option (Run σ ν μ)}
    (hrun : ∀ s c r, run s c = some r → ∀ u ∈ r.uses, P u.home) {s : σ} {r : Run σ ν μ}
    {cs : List (Command ν μ)} (h : execAll run s cs = some r) : ∀ u ∈ r.uses, P u.home := by
  induction cs generalizing s r with
  | nil =>
      obtain rfl := Option.some.inj h
      simp
  | cons c cs ih =>
      rw [execAll] at h
      obtain ⟨r₁, hr₁, h⟩ := Option.bind_eq_some_iff.mp h
      split at h
      · obtain rfl := Option.some.inj h
        exact hrun s c r₁ hr₁
      · obtain ⟨r₂, hr₂, h⟩ := Option.bind_eq_some_iff.mp h
        obtain rfl := Option.some.inj h
        exact List.forall_mem_append.mpr ⟨hrun s c r₁ hr₁, ih hr₂⟩

/-- What holds of the states that chunks are entered with holds at home. -/
theorem home_invoke (hP : ∀ s n, (sys.chunk (sys.enter s n)).isSome → P (sys.enter s n))
    {run : σ → σ → Command ν μ → Option (Run σ ν μ)}
    (hrun : ∀ home, P home → ∀ s c r, run home s c = some r → ∀ u ∈ r.uses, P u.home) {s : σ}
    {n : ν} {r : Run σ ν μ} (h : invoke sys run s n = some r) : ∀ u ∈ r.uses, P u.home := by
  rw [invoke] at h
  split at h
  · obtain rfl := Option.some.inj h
    rw [uses_ofChunk]
    simp
  · rename_i body hbody
    obtain ⟨r₁, hr₁, rfl⟩ := Option.map_eq_some_iff.mp h
    rw [uses_ofChunk]
    exact home_execAll (hrun _ (hP s n (by rw [hbody]; rfl))) hr₁

theorem home_exec (hP : ∀ s n, (sys.chunk (sys.enter s n)).isSome → P (sys.enter s n)) (fuel : ℕ)
    (home : σ) (hhome : P home) (s : σ) (c : Command ν μ) (r : Run σ ν μ)
    (h : exec sys fuel home s c = some r) : ∀ u ∈ r.uses, P u.home := by
  induction fuel generalizing home s c r with
  | zero => cases h
  | succ fuel ih =>
      cases c with
      | use u =>
          obtain rfl := Option.some.inj h
          simpa using hhome
      | raise =>
          obtain rfl := Option.some.inj h
          simp
      | attempt body =>
          obtain ⟨r₁, hr₁, rfl⟩ := Option.map_eq_some_iff.mp h
          exact fun u hu => home_execAll (ih home hhome) hr₁ u hu
      | call n => exact home_invoke hP ih h

end Home

theorem keeps_of_invoke {sys : System σ ν μ} (hleave : ∀ s s', sys.leave s s' = s) {fuel : ℕ}
    {s : σ} {n : ν} {r : Run σ ν μ} (h : invoke sys (exec sys fuel) s n = some r) :
    Keeps s s r :=
  keeps_invoke hleave (keeps_exec hleave fuel) h

end Scoped
