import Miniraft.Std.Prefix
import Miniraft.Theory.Election

/-!
# Replicated logs under elected leaders

The abstract protocol on top of `Election`: a node becomes leader of a term only if a majority
found its log at least as up-to-date as their own, the leader of a term extends its log, and
followers of the term take over initial segments of the leader's log as far as they do not have
them already. `acked p T` is how much of the log of the leader of `T` node `p` has taken over
while it was in term `T`; what a majority has acknowledged is `Chosen`.

The components `cand`, `ballot`, `base` and `leaderLog` remember the logs with which nodes stood
for election, voted and were elected, and the log of the leader of each term.
-/

namespace Consensus

/-- The log `l` is at least as up-to-date as `l'`: later last term, or the same and no shorter. -/
def UpToDate {E : Type*} (tm : E → ℕ) (l l' : List E) : Prop :=
  ∀ e' ∈ l'.getLast?, ∃ e ∈ l.getLast?, tm e' < tm e ∨ tm e' = tm e ∧ l'.length ≤ l.length

theorem UpToDate.refl {E : Type*} (tm : E → ℕ) (l : List E) : UpToDate tm l l :=
  fun e he => ⟨e, he, .inr ⟨rfl, le_rfl⟩⟩

open Classical in
/-- Take over `v`, unless the log has it already. -/
noncomputable def takeOver {E : Type*} (l v : List E) : List E := if v <+: l then l else v

theorem takeOver_of_le {E : Type*} {l v : List E} (h : v <+: l) : takeOver l v = l := if_pos h

theorem le_takeOver {E : Type*} (l v : List E) : v <+: takeOver l v := by
  unfold takeOver
  split
  · assumption
  · exact List.prefix_rfl

theorem takeOver_cases {E : Type*} (l v : List E) : takeOver l v = l ∨ takeOver l v = v := by
  unfold takeOver
  split
  · exact .inl rfl
  · exact .inr rfl

structure Replication (N E : Type*) extends Election N where
  log : N → List E
  /-- The log with which a node stood for election. -/
  cand : N → ℕ → Option (List E)
  /-- The log with which a node cast its vote. -/
  ballot : N → ℕ → List E
  /-- The log with which the leader of a term was elected. -/
  base : ℕ → List E
  /-- The log of the leader of a term. -/
  leaderLog : ℕ → List E
  acked : N → ℕ → ℕ

namespace Replication

variable {N E : Type*}

def start : Replication N E where
  toElection := .start
  log _ := []
  cand _ _ := none
  ballot _ _ := []
  base _ := []
  leaderLog _ := []
  acked _ _ := 0

/-- The first `n` entries of the leader of `T` did not make it into the log with which some
leader up to term `U` was elected. -/
def Lost (g : Replication N E) (T n U : ℕ) : Prop :=
  ∃ T', T < T' ∧ T' ≤ U ∧ g.leader T' ≠ none ∧ ¬ (g.leaderLog T).take n <+: g.base T'

/-- The terms of `l` are ordered, and each entry comes with everything the leader of its term
had below it. -/
structure Sound (tm : E → ℕ) (g : Replication N E) (l : List E) : Prop where
  sorted : l.Pairwise fun a b => tm a ≤ tm b
  origin : ∀ {i e}, l[i]? = some e →
    g.leader (tm e) ≠ none ∧ l.take (i + 1) <+: g.leaderLog (tm e)

/-- A majority has acknowledged `n` entries of the leader of `T`, the last of them of term `T`
itself. -/
structure Chosen (tm : E → ℕ) (M : Finset N) (g : Replication N E) (T n : ℕ) : Prop where
  pos : 0 < n
  last : ∃ e, (g.leaderLog T)[n - 1]? = some e ∧ tm e = T
  quorum : ∃ Q, Majority M Q ∧ ∀ p ∈ Q, n ≤ g.acked p T

/-- What one step does not take back. -/
structure Le (g g' : Replication N E) : Prop where
  election : g.toElection.Le g'.toElection
  leaderLog : ∀ {T}, g.leader T ≠ none → g.leaderLog T <+: g'.leaderLog T
  base : ∀ {T}, g.leader T ≠ none → g'.base T = g.base T
  acked : ∀ p T, g.acked p T ≤ g'.acked p T
  cand : ∀ {c T l}, g.cand c T = some l → g'.cand c T = some l

structure Inv (tm : E → ℕ) (M : Finset N) (g : Replication N E) : Prop where
  election : g.toElection.Inv M
  log_sound : ∀ p, g.Sound tm (g.log p)
  log_le : ∀ {p}, ∀ e ∈ g.log p, tm e ≤ g.term p
  leaderLog_sound : ∀ {T}, g.leader T ≠ none → g.Sound tm (g.leaderLog T)
  leaderLog_le : ∀ {T}, g.leader T ≠ none → ∀ e ∈ g.leaderLog T, tm e ≤ T
  base_le : ∀ {T}, g.leader T ≠ none → g.base T <+: g.leaderLog T
  base_lt : ∀ {T}, g.leader T ≠ none → ∀ e ∈ g.base T, tm e < T
  leader_log : ∀ {T c}, g.leader T = some c →
    T ≤ g.term c ∧ (g.term c = T → g.log c = g.leaderLog T)
  cand_lt : ∀ {c T l}, g.cand c T = some l → T ≤ g.term c ∧ ∀ e ∈ l, tm e < T
  ballot_sound : ∀ {p T c}, g.vote p T = some c → g.Sound tm (g.ballot p T)
  ballot_upToDate : ∀ {p T c}, g.vote p T = some c →
    ∃ l, g.cand c T = some l ∧ UpToDate tm l (g.ballot p T)
  acked_le : ∀ p T, g.acked p T ≤ (g.leaderLog T).length
  acked_eq_zero : ∀ {p T}, g.leader T = none ∨ g.term p < T → g.acked p T = 0
  acked_log : ∀ {p T n}, n ≤ g.acked p T →
    (g.leaderLog T).take n <+: g.log p ∨ g.Lost T n (g.term p)
  acked_ballot : ∀ {p T T' c n}, g.vote p T' = some c → T < T' → n ≤ g.acked p T →
    (g.leaderLog T).take n <+: g.ballot p T' ∨ g.Lost T n T'
  elected : ∀ {T' c}, g.leader T' = some c → ∃ Q, Majority M Q ∧ ∀ p ∈ Q,
    g.vote p T' = some c ∧ UpToDate tm (g.base T') (g.ballot p T') ∧
    ∀ {T n}, T < T' → n ≤ g.acked p T →
      (g.leaderLog T).take n <+: g.ballot p T' ∨ g.Lost T n (T' - 1)

section

variable {tm : E → ℕ} {M : Finset N} {g g' g'' : Replication N E} {l v : List E}
  {i n T U U' : ℕ} {p c : N}

theorem Le.refl (g : Replication N E) : Le g g :=
  ⟨.refl _, fun _ => List.prefix_rfl, fun _ => rfl, fun _ _ => le_rfl, id⟩

theorem Le.leader_ne_none (h : Le g g') (hl : g.leader T ≠ none) : g'.leader T ≠ none := by
  cases hc : g.leader T with
  | none => exact absurd hc hl
  | some c => rw [h.election.leader hc]; simp

theorem Le.trans (h : Le g g') (h' : Le g' g'') : Le g g'' where
  election := h.election.trans h'.election
  leaderLog hl := (h.leaderLog hl).trans (h'.leaderLog (h.leader_ne_none hl))
  base hl := (h'.base (h.leader_ne_none hl)).trans (h.base hl)
  acked p T := (h.acked p T).trans (h'.acked p T)
  cand hc := h'.cand (h.cand hc)

theorem inv_start : Inv tm M (start : Replication N E) where
  election := Election.inv_start
  log_sound _ := ⟨by simp [start], by simp [start]⟩
  log_le := by simp [start]
  leaderLog_sound := by simp [start, Election.start]
  leaderLog_le := by simp [start]
  base_le := by simp [start]
  base_lt := by simp [start]
  leader_log := by simp [start, Election.start]
  cand_lt := by simp [start]
  ballot_sound := by simp [start, Election.start]
  ballot_upToDate := by simp [start, Election.start]
  acked_le := by simp [start]
  acked_eq_zero := by simp [start]
  acked_log := by simp [start]
  acked_ballot := by simp [start]
  elected := by simp [start, Election.start]

/-! ## Sound logs -/

theorem Sound.of_le (h : g.Sound tm l) (hv : v <+: l) : g.Sound tm v := by
  refine ⟨h.sorted.sublist hv.sublist, fun {i e} he => ?_⟩
  have hi : i < v.length := (List.getElem?_eq_some_iff.mp he).1
  obtain ⟨hl, hp⟩ := h.origin (hv.getElem?_eq he)
  exact ⟨hl, hv.take_eq (n := i + 1) (by omega) ▸ hp⟩

theorem Sound.mono (h : g.Sound tm l) (hle : Le g g') : g'.Sound tm l :=
  ⟨h.sorted, fun he => ⟨hle.leader_ne_none (h.origin he).1,
    (h.origin he).2.trans (hle.leaderLog (h.origin he).1)⟩⟩

/-- **Log matching**: where two sound logs have entries of one term, they agree up to there. -/
theorem Sound.matching (h : g.Sound tm l) (h' : g.Sound tm v) (he : l[i]? = some a)
    (he' : v[i]? = some b) (hab : tm a = tm b) : l.take (i + 1) = v.take (i + 1) := by
  have hp := (h.origin he).2
  have hp' := (h'.origin he').2
  rw [hab] at hp
  have hi : i < l.length := (List.getElem?_eq_some_iff.mp he).1
  have hi' : i < v.length := (List.getElem?_eq_some_iff.mp he').1
  have hlen : (l.take (i + 1)).length = (v.take (i + 1)).length := by
    simp only [List.length_take]; omega
  exact (hp.of_le hp' hlen.le).eq_of_length hlen

/-- A sound log is an initial segment of the log of the leader of its last term. -/
theorem Sound.le_leaderLog (h : g.Sound tm l) (he : e ∈ l.getLast?) : l <+: g.leaderLog (tm e) := by
  rw [List.getLast?_eq_getElem?] at he
  have hlen : l.length - 1 < l.length := (List.getElem?_eq_some_iff.mp he).1
  have hp := (h.origin he).2
  rwa [List.take_of_length_le (by omega)] at hp

theorem Sound.le_last (h : g.Sound tm l) (he : l[i]? = some e) (hl : a ∈ l.getLast?) :
    tm e ≤ tm a := by
  rw [List.getLast?_eq_getElem?] at hl
  obtain ⟨hi, rfl⟩ := List.getElem?_eq_some_iff.mp he
  obtain ⟨hj, rfl⟩ := List.getElem?_eq_some_iff.mp hl
  rcases Nat.lt_or_ge i (l.length - 1) with hlt | hge
  · exact List.pairwise_iff_getElem.mp h.sorted _ _ _ _ hlt
  · have : i = l.length - 1 := by omega
    subst this
    exact le_rfl

/-! ## What is kept of acknowledgements -/

theorem Lost.mono (h : g.Lost T n U) (hle : Le g g') (hU : U ≤ U')
    (hn : n ≤ (g.leaderLog T).length) (hT : g.leader T ≠ none ∨ n = 0) : g'.Lost T n U' := by
  obtain ⟨T', h1, h2, h3, h4⟩ := h
  refine ⟨T', h1, h2.trans hU, hle.leader_ne_none h3, ?_⟩
  rw [hle.base h3]
  rcases hT with hT | rfl
  · rwa [(hle.leaderLog hT).take_eq hn]
  · simp at h4

/-- In the term of the acknowledgement itself nothing can be lost yet. -/
theorem Lost.false_of_le (h : g.Lost T n U) (hU : U ≤ T) : False := by
  obtain ⟨T', h1, h2, -, -⟩ := h
  omega

theorem Inv.leader_ne_none (H : g.Inv tm M) (hn : n ≤ g.acked p T) :
    g.leader T ≠ none ∨ n = 0 := by
  by_cases hl : g.leader T = none
  · exact .inr (by have := H.acked_eq_zero (p := p) (.inl hl); omega)
  · exact .inl hl

/-- An acknowledged segment is still the same after steps that take nothing back. -/
theorem Inv.take_eq (H : g.Inv tm M) (hle : Le g g') (hn : n ≤ g.acked p T) :
    (g'.leaderLog T).take n = (g.leaderLog T).take n := by
  rcases H.leader_ne_none hn with hl | rfl
  · exact (hle.leaderLog hl).take_eq (hn.trans (H.acked_le p T))
  · simp

theorem Inv.lost_mono (H : g.Inv tm M) (hle : Le g g') (hn : n ≤ g.acked p T)
    (h : g.Lost T n U) (hU : U ≤ U') : g'.Lost T n U' :=
  h.mono hle hU (hn.trans (H.acked_le p T)) (H.leader_ne_none hn)

end

/-! ## Steps -/

variable [DecidableEq N]

/-- `f` changed at one node and term. -/
def set {α : Type*} (f : N → ℕ → α) (p : N) (T : ℕ) (a : α) : N → ℕ → α :=
  fun q U => if q = p ∧ U = T then a else f q U

@[simp] theorem set_self {α : Type*} (f : N → ℕ → α) (p : N) (T : ℕ) (a : α) :
    set f p T a p T = a := if_pos ⟨rfl, rfl⟩

theorem set_of_ne {α : Type*} (f : N → ℕ → α) {p q : N} {T U : ℕ} (a : α)
    (h : ¬ (q = p ∧ U = T)) : set f p T a q U = f q U := if_neg h

/-- `p` moves to term `T`. -/
def advance (g : Replication N E) (p : N) (T : ℕ) : Replication N E :=
  { g with toElection := g.toElection.advance p T }

/-- `c` moves to term `T`, stands for election there and votes for itself. -/
def stand (g : Replication N E) (c : N) (T : ℕ) : Replication N E :=
  { g with
    toElection := (g.toElection.advance c T).cast c T c
    cand := set g.cand c T (some (g.log c))
    ballot := set g.ballot c T (g.log c) }

/-- `p` votes for `c` in its term. -/
def grant (g : Replication N E) (p c : N) : Replication N E :=
  { g with
    toElection := g.toElection.cast p (g.term p) c
    ballot := set g.ballot p (g.term p) (g.log p) }

/-- `c` becomes leader of its term. -/
def elect (g : Replication N E) (c : N) : Replication N E :=
  { g with
    toElection := g.toElection.elect c (g.term c)
    base := Function.update g.base (g.term c) (g.log c)
    leaderLog := Function.update g.leaderLog (g.term c) (g.log c)
    acked := set g.acked c (g.term c) (g.log c).length }

/-- The leader `c` extends its log by `e`. -/
def append (g : Replication N E) (c : N) (e : E) : Replication N E :=
  { g with
    log := Function.update g.log c (g.log c ++ [e])
    leaderLog := Function.update g.leaderLog (g.term c) (g.log c ++ [e])
    acked := set g.acked c (g.term c) (g.log c ++ [e]).length }

/-- `p` takes over the segment `v` of the log of the leader of its term. -/
noncomputable def accept (g : Replication N E) (p : N) (v : List E) : Replication N E :=
  { g with
    log := Function.update g.log p (takeOver (g.log p) v)
    acked := set g.acked p (g.term p) (max (g.acked p (g.term p)) v.length) }

inductive Step (tm : E → ℕ) (M : Finset N) : Replication N E → Replication N E → Prop
  | advance {g p T} : g.term p < T → Step tm M g (g.advance p T)
  | stand {g c T} : g.term c < T → Step tm M g (g.stand c T)
  | grant {g p c l} : g.vote p (g.term p) = none → g.cand c (g.term p) = some l →
    UpToDate tm l (g.log p) → Step tm M g (g.grant p c)
  | elect {g c Q} : g.leader (g.term c) = none → Majority M Q →
    (∀ p ∈ Q, g.vote p (g.term c) = some c) → g.cand c (g.term c) = some (g.log c) →
    Step tm M g (g.elect c)
  | append {g c e} : g.leader (g.term c) = some c → tm e = g.term c → Step tm M g (g.append c e)
  | accept {g p v} : g.leader (g.term p) ≠ none → g.base (g.term p) <+: v →
    v <+: g.leaderLog (g.term p) → Step tm M g (g.accept p v)

variable {tm : E → ℕ} {M : Finset N} {g g' : Replication N E} {T : ℕ} {p c : N} {v : List E}

/-- The replication steps are election steps, or leave the election alone. -/
theorem Step.election (h : Step tm M g g') :
    Election.Step M g.toElection g'.toElection ∨ g'.toElection = g.toElection := by
  cases h with
  | advance h => exact .inl (.advance h)
  | stand h => exact .inl (.stand h)
  | grant h => exact .inl (.grant h)
  | elect _ hQ hv => exact .inl (.elect hQ hv)
  | append => exact .inr rfl
  | accept => exact .inr rfl

theorem Inv.step_election (H : g.Inv tm M) (h : Step tm M g g') :
    g'.toElection.Inv M ∧ g.toElection.Le g'.toElection := by
  rcases h.election with h | h
  · exact ⟨H.election.step h, H.election.step_le h⟩
  · exact ⟨h ▸ H.election, h ▸ .refl _⟩

theorem Inv.step_le (H : g.Inv tm M) (h : Step tm M g g') : Le g g' := by
  have helection := (H.step_election h).2
  cases h with
  | advance => exact ⟨helection, fun _ => List.prefix_rfl, fun _ => rfl, fun _ _ => le_rfl, id⟩
  | grant => exact ⟨helection, fun _ => List.prefix_rfl, fun _ => rfl, fun _ _ => le_rfl, id⟩
  | @stand c T h =>
    refine ⟨helection, fun _ => List.prefix_rfl, fun _ => rfl, fun _ _ => le_rfl, ?_⟩
    intro d U l hd
    have hne : ¬ (d = c ∧ U = T) := by
      rintro ⟨rfl, rfl⟩
      have := (H.cand_lt hd).1
      omega
    simpa [Replication.stand, set_of_ne _ _ hne] using hd
  | @elect c Q hl _ _ _ =>
    have hne : ∀ {U}, g.leader U ≠ none → U ≠ g.term c := fun hU he => hU (he ▸ hl)
    refine ⟨helection, fun hU => ?_, fun hU => ?_, fun p U => ?_, id⟩
    · simp [Replication.elect, hne hU]
    · simp [Replication.elect, hne hU]
    · by_cases hp : p = c ∧ U = g.term c
      · rw [hp.1, hp.2, H.acked_eq_zero (.inl hl)]
        exact Nat.zero_le _
      · simp [Replication.elect, set_of_ne _ _ hp]
  | @append c e hl _ =>
    have hlog := (H.leader_log hl).2 rfl
    refine ⟨helection, fun {U} _ => ?_, fun _ => rfl, fun p U => ?_, id⟩
    · by_cases hU : U = g.term c
      · subst hU
        simp [Replication.append, hlog]
      · simp [Replication.append, hU]
    · by_cases hp : p = c ∧ U = g.term c
      · have := H.acked_le p U
        rw [hp.1, hp.2] at this ⊢
        simp only [Replication.append, set_self, hlog, List.length_append]
        omega
      · simp [Replication.append, set_of_ne _ _ hp]
  | @accept p v _ _ _ =>
    refine ⟨helection, fun _ => List.prefix_rfl, fun _ => rfl, fun q U => ?_, id⟩
    by_cases hq : q = p ∧ U = g.term p
    · simp [Replication.accept, hq]
    · simp [Replication.accept, set_of_ne _ _ hq]

/-- What the other nodes have is not changed by a step of `p`. -/
structure Only (p : N) (g g' : Replication N E) : Prop where
  term : ∀ {q}, q ≠ p → g'.term q = g.term q
  vote : ∀ {q}, q ≠ p → g'.vote q = g.vote q
  log : ∀ {q}, q ≠ p → g'.log q = g.log q
  leader : ∀ {q T}, q ≠ p → g'.leader T = some q → g.leader T = some q

omit [DecidableEq N] in
theorem Only.refl (p : N) (g : Replication N E) : Only p g g :=
  ⟨fun _ => rfl, fun _ => rfl, fun _ => rfl, fun _ => id⟩

theorem only_advance (g : Replication N E) (p : N) (T : ℕ) : Only p g (g.advance p T) :=
  ⟨fun hq => by simp [advance, Election.advance, hq], fun _ => rfl, fun _ => rfl, fun _ => id⟩

theorem only_stand (g : Replication N E) (p : N) (T : ℕ) : Only p g (g.stand p T) where
  term hq := by simp [stand, Election.cast, Election.advance, hq]
  vote hq := by
    funext U
    simp [stand, Election.cast, Election.advance, hq]
  log _ := rfl
  leader _ := id

theorem only_grant (g : Replication N E) (p c : N) : Only p g (g.grant p c) where
  term _ := rfl
  vote hq := by
    funext U
    simp [grant, Election.cast, hq]
  log _ := rfl
  leader _ := id

theorem only_elect (g : Replication N E) (p : N) : Only p g (g.elect p) where
  term _ := rfl
  vote _ := rfl
  log _ := rfl
  leader {q T} hq hl := by
    by_cases hT : T = g.term p
    · subst hT
      simp [elect, Election.elect] at hl
      exact absurd hl.symm hq
    · simpa [elect, Election.elect, hT] using hl

theorem only_append (g : Replication N E) (p : N) (e : E) : Only p g (g.append p e) :=
  ⟨fun _ => rfl, fun _ => rfl, fun hq => by simp [append, hq], fun _ => id⟩

theorem only_accept (g : Replication N E) (p : N) (v : List E) : Only p g (g.accept p v) :=
  ⟨fun _ => rfl, fun _ => rfl, fun hq => by simp [accept, hq], fun _ => id⟩

end Replication

end Consensus
