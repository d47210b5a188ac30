import ComputerNetworks.Library.Runs

/-! # Tokens that walk a ring until a position takes them

`n` positions in a ring and any number of tokens, issued at any time. A token starts at a position
of its own and visits one position after the other; the first that takes it settles it. The tokens
move one at a time and in any order. `walking_lt` bounds the walk: a token that some position takes
settles before it has come round, whatever the others do.
-/
namespace ComputerNetworks.TokenRing
open Runs
set_option autoImplicit false

/-- Where an issued token is: on its way after the first `visited` positions turned it away, or
settled at a position. -/
inductive Token where
  | walking (visited : ℕ)
  | settled (position : ℕ)
  deriving DecidableEq

inductive Event (τ : Type) where
  | issue (t : τ)
  | move (k : ℕ)

section
variable {τ : Type} (n : ℕ) (start : τ → ℕ) (takes : τ → ℕ → Prop)

def place (t : τ) (d : ℕ) : ℕ := (start t + d) % n

inductive Visit (t : τ) (d : ℕ) : Token → Prop
  | take : takes t (place n start t d) → Visit t d (.settled (place n start t d))
  | pass : ¬ takes t (place n start t d) → Visit t d (.walking (d + 1))

/-- A state lists the issued tokens in order. Issuing a token includes its first visit. -/
inductive Step : List (τ × Token) → Event τ → List (τ × Token) → Prop
  | issue {s : List (τ × Token)} {t : τ} {o : Token} :
      Visit n start takes t 0 o → Step s (.issue t) (s ++ [(t, o)])
  | move {s : List (τ × Token)} {k d : ℕ} {t : τ} {o : Token} :
      s[k]? = some (t, .walking d) → Visit n start takes t d o →
        Step s (.move k) (s.set k (t, o))

/-- A walking token was turned away everywhere so far, a settled one is where it is taken. -/
def Sound (p : τ × Token) : Prop :=
  match p.2 with
  | .walking d => 0 < d ∧ ∀ e < d, ¬ takes p.1 (place n start p.1 e)
  | .settled q => takes p.1 q ∧ ∃ e, q = place n start p.1 e

variable {n start takes}

theorem Visit.sound {t : τ} {d : ℕ} {o : Token} (h : Visit n start takes t d o)
    (hd : ∀ e < d, ¬ takes t (place n start t e)) : Sound n start takes (t, o) := by
  cases h with
  | take ht => exact ⟨ht, d, rfl⟩
  | pass hn =>
    refine ⟨Nat.succ_pos d, fun e he => ?_⟩
    obtain he | rfl := Nat.lt_succ_iff_lt_or_eq.mp he
    · exact hd e he
    · exact hn

theorem Step.sound {s s' : List (τ × Token)} {e : Event τ} (hs : ∀ p ∈ s, Sound n start takes p)
    (h : Step n start takes s e s') : ∀ p ∈ s', Sound n start takes p := by
  intro p hp
  cases h with
  | issue hv =>
    cases List.mem_append.mp hp with
    | inl hp => exact hs p hp
    | inr hp =>
      rw [List.mem_singleton.mp hp]
      exact hv.sound (fun e he => absurd he (Nat.not_lt_zero e))
  | move hk hv =>
    obtain hp | rfl := List.mem_or_eq_of_mem_set hp
    · exact hs p hp
    · exact hv.sound (hs _ (List.mem_of_getElem? hk)).2

theorem run_sound {past : List (List (τ × Token) × Event τ)} {s : List (τ × Token)}
    (h : Run (Step n start takes) [] past s) : ∀ p ∈ s, Sound n start takes p :=
  h.invariant (by simp) fun _ _ _ hs hstep => hstep.sound hs

variable (start) in
theorem exists_place (t : τ) {q : ℕ} (hq : q < n) : ∃ e < n, place n start t e = q := by
  have hn : 0 < n := Nat.zero_lt_of_lt hq
  have hs : start t % n < n := Nat.mod_lt _ hn
  refine ⟨(q + (n - start t % n)) % n, Nat.mod_lt _ hn, ?_⟩
  calc (start t + (q + (n - start t % n)) % n) % n
      = (start t % n + (q + (n - start t % n))) % n := by simp [Nat.add_mod]
    _ = (q + n) % n := by congr 1; omega
    _ = q := by rw [Nat.add_mod_right, Nat.mod_eq_of_lt hq]

theorem walking_lt {t : τ} {d : ℕ} (h : Sound n start takes (t, .walking d))
    (hex : ∃ q < n, takes t q) : d < n := by
  obtain ⟨q, hq, htakes⟩ := hex
  obtain ⟨e, he, rfl⟩ := exists_place start t hq
  by_contra hnd
  exact h.2 e (by omega) htakes

/-! ## How far a token walks -/

section
variable {τ σ : Type}

def Event.moves (k : ℕ) : Event τ → Bool
  | .issue _ => false
  | .move j => j = k

/-- The moves of token `k` among the events of a run. -/
def moves (k : ℕ) (events : List (Event τ)) : ℕ := events.countP (Event.moves k)

@[simp] theorem moves_issue (k : ℕ) (t : τ) (events : List (Event τ)) :
    moves k (.issue t :: events) = moves k events := List.countP_cons_of_neg Bool.false_ne_true

@[simp] theorem moves_move (k j : ℕ) (events : List (Event τ)) :
    moves k (.move j :: events) = moves k events + if j = k then 1 else 0 := by
  rw [moves, List.countP_cons]
  simp [Event.moves, moves]

variable {n : ℕ} {start : τ → ℕ} {takes : τ → ℕ → Prop}

/-- After `m` moves and the visit it started with, a token was turned away `m + 1` times or settled at
the last of these visits. -/
def Walked (n : ℕ) (start : τ → ℕ) (takes : τ → ℕ → Prop) (p : τ × Token) (m : ℕ) : Prop :=
  match p.2 with
  | .walking d => d = m + 1 ∧ ∀ e ≤ m, ¬ takes p.1 (place n start p.1 e)
  | .settled q => q = place n start p.1 m ∧ takes p.1 q ∧ ∀ e < m, ¬ takes p.1 (place n start p.1 e)

theorem Visit.walked {t : τ} {d : ℕ} {o : Token} (h : Visit n start takes t d o)
    (hd : ∀ e < d, ¬ takes t (place n start t e)) : Walked n start takes (t, o) d := by
  cases h with
  | take ht => exact ⟨rfl, ht, hd⟩
  | pass hn =>
    refine ⟨rfl, fun e he => ?_⟩
    obtain he | rfl := Nat.lt_or_eq_of_le he
    · exact hd e he
    · exact hn

theorem run_walked {past : List (List (τ × Token) × Event τ)} {s : List (τ × Token)}
    (h : Run (Step n start takes) [] past s) :
    (∀ k, s.length ≤ k → moves k (past.map Prod.snd) = 0) ∧
    ∀ (k : ℕ) (p : τ × Token), s[k]? = some p →
      Walked n start takes p (moves k (past.map Prod.snd)) := by
  induction h with
  | start => exact ⟨fun _ _ => rfl, fun k p hk => by simp at hk⟩
  | @next past s s' e _ hstep ih =>
    obtain ⟨hnone, hwalked⟩ := ih
    cases hstep with
    | @issue t o hv =>
      refine ⟨fun k hk => ?_, fun k p hk => ?_⟩ <;> rw [List.map_cons, moves_issue]
      · exact hnone k (by rw [List.length_append] at hk; omega)
      · by_cases hlt : k < s.length
        · rw [List.getElem?_append_left hlt] at hk
          exact hwalked k p hk
        · rw [List.getElem?_append_right (not_lt.mp hlt), List.getElem?_singleton] at hk
          split_ifs at hk
          obtain rfl := Option.some.inj hk
          rw [hnone k (not_lt.mp hlt)]
          exact hv.walked fun e he => absurd he (Nat.not_lt_zero e)
    | @move k d t o hk hv =>
      have hlt := (List.getElem?_eq_some_iff.mp hk).1
      obtain ⟨rfl, haway⟩ : d = moves k (past.map Prod.snd) + 1 ∧
          ∀ e ≤ moves k (past.map Prod.snd), ¬ takes t (place n start t e) := hwalked k _ hk
      refine ⟨fun j hj => ?_, fun j p hj => ?_⟩ <;> rw [List.map_cons, moves_move]
      · rw [List.length_set] at hj
        rw [if_neg (by omega), hnone j hj]
      · by_cases hjk : k = j
        · subst hjk
          rw [List.getElem?_set_self hlt] at hj
          obtain rfl := Option.some.inj hj
          rw [if_pos rfl]
          exact hv.walked fun e he => haway e (Nat.le_of_lt_succ he)
        · rw [List.getElem?_set_ne hjk] at hj
          rw [if_neg hjk]
          exact hwalked j p hj

theorem place_injOn {t : τ} {d e : ℕ} (hd : d < n) (he : e < n)
    (h : place n start t d = place n start t e) : d = e := by
  have hmod : d % n = e % n := Nat.ModEq.add_left_cancel' (start t) h
  rwa [Nat.mod_eq_of_lt hd, Nat.mod_eq_of_lt he] at hmod

/-- How far position `q` is from position `i`, going round the ring of `n`. -/
def distance (n i q : ℕ) : ℕ := (q + n - i) % n

theorem place_distance {t : τ} {q : ℕ} (ht : start t < n) (hq : q < n) :
    place n start t (distance n (start t) q) = q := by
  rw [place, distance, Nat.add_mod_mod]
  have hsum : start t + (q + n - start t) = q + n := by omega
  rw [hsum, Nat.add_mod_right, Nat.mod_eq_of_lt hq]

/-- After `m` moves a token is on its way from `i` to `q`, or just there. -/
def Token.OnTime (n i q m : ℕ) : Token → Prop
  | .walking _ => m < distance n i q
  | .settled q' => q' = q ∧ m = distance n i q

/-- A token that one position takes makes exactly as many moves as that position is away. -/
theorem Walked.onTime {t : τ} {q m : ℕ} {o : Token} (h : Walked n start takes (t, o) m)
    (ht : start t < n) (hq : q < n) (htakes : ∀ q' < n, takes t q' ↔ q' = q) :
    o.OnTime n (start t) q m := by
  have hn : 0 < n := Nat.zero_lt_of_lt hq
  have hdist : distance n (start t) q < n := Nat.mod_lt _ hn
  have htaken : takes t (place n start t (distance n (start t) q)) := by
    rw [place_distance ht hq]
    exact (htakes q hq).mpr rfl
  cases o with
  | walking d =>
    obtain ⟨-, haway⟩ : d = m + 1 ∧ ∀ e ≤ m, ¬ takes t (place n start t e) := h
    exact not_le.mp fun hle => haway _ hle htaken
  | settled q' =>
    obtain ⟨rfl, htake, haway⟩ : q' = place n start t m ∧ takes t q' ∧
        ∀ e < m, ¬ takes t (place n start t e) := h
    have hplace := (htakes _ (Nat.mod_lt _ hn)).mp htake
    have hle : m ≤ distance n (start t) q := not_lt.mp fun hlt => haway _ hlt htaken
    have hsame : place n start t m = place n start t (distance n (start t) q) := by
      rw [place_distance ht hq]
      exact hplace
    exact ⟨hplace, place_injOn (hle.trans_lt hdist) hdist hsame⟩

end

end

end ComputerNetworks.TokenRing
