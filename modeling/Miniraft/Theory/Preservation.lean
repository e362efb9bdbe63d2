import Miniraft.Theory.Replication

/-!
# Every step keeps the replication invariant

One lemma for each step of `Replication.Step`. The clauses about acknowledgements are the
interesting ones: an acknowledged segment stays in the log of the node that acknowledged it, or
has been lost to the leader of a later term (`Lost`), and a node that moves on or votes hands
this alternative to its ballot.
-/

namespace Consensus.Replication

variable {N E : Type*} [DecidableEq N] {tm : E → ℕ} {M : Finset N} {g g' : Replication N E}
  {n T T' : ℕ} {p c : N} {v : List E}

omit [DecidableEq N] in
/-- What a majority found at an election is not affected by acknowledgements in later terms. -/
theorem Inv.elected_mono (H : g.Inv tm M) (hle : Le g g') (hl : g.leader T' = some c)
    (hballot : ∀ {p c}, g.vote p T' = some c → g'.ballot p T' = g.ballot p T')
    (hacked : ∀ {p T}, T < T' → T' ≤ g.term p → g'.acked p T = g.acked p T) :
    ∃ Q, Majority M Q ∧ ∀ p ∈ Q, g'.vote p T' = some c ∧
      UpToDate tm (g'.base T') (g'.ballot p T') ∧
      ∀ {T n}, T < T' → n ≤ g'.acked p T →
        (g'.leaderLog T).take n <+: g'.ballot p T' ∨ g'.Lost T n (T' - 1) := by
  obtain ⟨Q, hQ, hq⟩ := H.elected hl
  refine ⟨Q, hQ, fun p hp => ?_⟩
  obtain ⟨hv, hup, hkept⟩ := hq p hp
  have hl' : g.leader T' ≠ none := by simp [hl]
  refine ⟨hle.election.vote hv, ?_, fun {T n} hT hn => ?_⟩
  · rwa [hle.base hl', hballot hv]
  · rw [hacked hT (H.election.vote_le hv)] at hn
    rw [hballot hv, H.take_eq hle hn]
    rcases hkept hT hn with h | h
    · exact .inl h
    · exact .inr (H.lost_mono hle hn h le_rfl)

omit [DecidableEq N] in
/-- What a node has acknowledged stays in the log it had, or is lost. -/
theorem Inv.acked_log_mono (H : g.Inv tm M) (hle : Le g g') (hn : n ≤ g.acked p T)
    (hT' : g.term p ≤ T') :
    (g'.leaderLog T).take n <+: g.log p ∨ g'.Lost T n T' := by
  rw [H.take_eq hle hn]
  exact (H.acked_log hn).imp_right fun hlost => H.lost_mono hle hn hlost hT'

omit [DecidableEq N] in
theorem Inv.acked_ballot_mono (H : g.Inv tm M) (hle : Le g g') (hv : g.vote p T' = some c)
    (hT : T < T') (hn : n ≤ g.acked p T) :
    (g'.leaderLog T).take n <+: g.ballot p T' ∨ g'.Lost T n T' := by
  rw [H.take_eq hle hn]
  exact (H.acked_ballot hv hT hn).imp_right fun hlost => H.lost_mono hle hn hlost le_rfl

theorem Inv.advance (H : g.Inv tm M) (h : g.term p < T) : (g.advance p T).Inv tm M := by
  have hstep : Step tm M g (g.advance p T) := .advance h
  have hle := H.step_le hstep
  have hterm : ∀ q, g.term q ≤ (g.advance p T).term q := hle.election.term
  refine {
    election := (H.step_election hstep).1
    log_sound := fun q => (H.log_sound q).mono hle
    log_le := fun e he => (H.log_le e he).trans (hterm _)
    leaderLog_sound := fun hl => (H.leaderLog_sound hl).mono hle
    leaderLog_le := H.leaderLog_le
    base_le := H.base_le
    base_lt := H.base_lt
    leader_log := fun {U c} hl => ⟨(H.leader_log hl).1.trans (hterm _), fun ht => ?_⟩
    cand_lt := fun hc => ⟨(H.cand_lt hc).1.trans (hterm _), (H.cand_lt hc).2⟩
    ballot_sound := fun hv => (H.ballot_sound hv).mono hle
    ballot_upToDate := H.ballot_upToDate
    acked_le := H.acked_le
    acked_eq_zero := fun h0 => H.acked_eq_zero (h0.imp_right (hterm _).trans_lt)
    acked_log := fun hn => H.acked_log_mono hle hn (hterm _)
    acked_ballot := H.acked_ballot_mono hle
    elected := fun hl => H.elected_mono hle hl (fun _ => rfl) fun _ _ => rfl }
  by_cases hc : c = p
  · subst hc
    have hle' := (H.leader_log hl).1
    simp only [Replication.advance, Election.advance, Function.update_self] at ht
    omega
  · exact (H.leader_log hl).2 (by simpa [Replication.advance, Election.advance, hc] using ht)

theorem Inv.stand (H : g.Inv tm M) (h : g.term c < T) : (g.stand c T).Inv tm M := by
  have hstep : Step tm M g (g.stand c T) := .stand h
  have hle := H.step_le hstep
  have hterm : ∀ q, g.term q ≤ (g.stand c T).term q := hle.election.term
  have hself : (g.stand c T).term c = T := by
    simp [Replication.stand, Election.cast, Election.advance]
  have hvote : ∀ {q U}, ¬ (q = c ∧ U = T) → (g.stand c T).vote q U = g.vote q U := by
    intro q U hne
    simp [Replication.stand, Election.cast, Election.advance, hne]
  have hballot : ∀ {q U}, ¬ (q = c ∧ U = T) → (g.stand c T).ballot q U = g.ballot q U :=
    fun hne => set_of_ne _ _ hne
  have hold : ∀ {q U d}, g.vote q U = some d → ¬ (q = c ∧ U = T) := by
    rintro q U d hv ⟨rfl, rfl⟩
    have := H.election.vote_le hv
    omega
  have hnew : ∀ {d}, (g.stand c T).vote c T = some d → d = c := by
    intro d hv
    simpa [Replication.stand, Election.cast, eq_comm] using hv
  refine {
    election := (H.step_election hstep).1
    log_sound := fun q => (H.log_sound q).mono hle
    log_le := fun e he => (H.log_le e he).trans (hterm _)
    leaderLog_sound := fun hl => (H.leaderLog_sound hl).mono hle
    leaderLog_le := H.leaderLog_le
    base_le := H.base_le
    base_lt := H.base_lt
    leader_log := fun {U d} hl => ⟨(H.leader_log hl).1.trans (hterm _), fun ht => ?_⟩
    cand_lt := fun {d U l} hd => ?_
    ballot_sound := fun {q U d} hv => ?_
    ballot_upToDate := fun {q U d} hv => ?_
    acked_le := H.acked_le
    acked_eq_zero := fun h0 => H.acked_eq_zero (h0.imp_right (hterm _).trans_lt)
    acked_log := fun hn => H.acked_log_mono hle hn (hterm _)
    acked_ballot := fun {q U U' d n} hv hU hn => ?_
    elected := fun hl => H.elected_mono hle hl (fun hv => hballot (hold hv)) fun _ _ => rfl }
  · by_cases hd : d = c
    · subst hd
      have := (H.leader_log hl).1
      omega
    · exact (H.leader_log hl).2
        (by simpa [Replication.stand, Election.cast, Election.advance, hd] using ht)
  · by_cases hne : d = c ∧ U = T
    · obtain ⟨rfl, rfl⟩ := hne
      have hl : g.log d = l := by simpa [Replication.stand] using hd
      refine ⟨hself.ge, fun e he => ?_⟩
      have := H.log_le e (hl ▸ he)
      omega
    · have hd : g.cand d U = some l := by
        simpa [Replication.stand, set_of_ne _ _ hne] using hd
      exact ⟨(H.cand_lt hd).1.trans (hterm _), (H.cand_lt hd).2⟩
  · by_cases hne : q = c ∧ U = T
    · obtain ⟨rfl, rfl⟩ := hne
      simpa [Replication.stand] using (H.log_sound q).mono hle
    · rw [hballot hne]
      exact (H.ballot_sound (by rwa [hvote hne] at hv)).mono hle
  · by_cases hne : q = c ∧ U = T
    · obtain ⟨rfl, rfl⟩ := hne
      obtain rfl := hnew hv
      exact ⟨g.log d, by simp [Replication.stand], by simpa [Replication.stand] using .refl tm _⟩
    · rw [hvote hne] at hv
      obtain ⟨l, hl, hup⟩ := H.ballot_upToDate hv
      exact ⟨l, hle.cand hl, by rwa [hballot hne]⟩
  · by_cases hne : q = c ∧ U' = T
    · obtain ⟨rfl, rfl⟩ := hne
      rw [show (g.stand q U').ballot q U' = g.log q from set_self ..]
      exact H.acked_log_mono hle hn h.le
    · rw [hballot hne]
      exact H.acked_ballot_mono hle (by rwa [hvote hne] at hv) hU hn

theorem Inv.grant (H : g.Inv tm M) (hnone : g.vote p (g.term p) = none)
    (hcand : g.cand c (g.term p) = some l) (hup : UpToDate tm l (g.log p)) :
    (g.grant p c).Inv tm M := by
  have hstep : Step tm M g (g.grant p c) := .grant hnone hcand hup
  have hle := H.step_le hstep
  have hvote : ∀ {q U}, ¬ (q = p ∧ U = g.term p) → (g.grant p c).vote q U = g.vote q U := by
    intro q U hne
    simp [Replication.grant, Election.cast, hne]
  have hballot : ∀ {q U}, ¬ (q = p ∧ U = g.term p) → (g.grant p c).ballot q U = g.ballot q U :=
    fun hne => set_of_ne _ _ hne
  have hold : ∀ {q U d}, g.vote q U = some d → ¬ (q = p ∧ U = g.term p) := by
    rintro q U d hv ⟨rfl, rfl⟩
    rw [hnone] at hv
    cases hv
  refine {
    election := (H.step_election hstep).1
    log_sound := fun q => (H.log_sound q).mono hle
    log_le := H.log_le
    leaderLog_sound := fun hl => (H.leaderLog_sound hl).mono hle
    leaderLog_le := H.leaderLog_le
    base_le := H.base_le
    base_lt := H.base_lt
    leader_log := H.leader_log
    cand_lt := H.cand_lt
    ballot_sound := fun {q U d} hv => ?_
    ballot_upToDate := fun {q U d} hv => ?_
    acked_le := H.acked_le
    acked_eq_zero := H.acked_eq_zero
    acked_log := fun hn => H.acked_log_mono hle hn le_rfl
    acked_ballot := fun {q U U' d n} hv hU hn => ?_
    elected := fun hl => H.elected_mono hle hl (fun hv => hballot (hold hv)) fun _ _ => rfl }
  · by_cases hne : q = p ∧ U = g.term p
    · obtain ⟨rfl, rfl⟩ := hne
      simpa [Replication.grant] using (H.log_sound q).mono hle
    · rw [hballot hne]
      exact (H.ballot_sound (by rwa [hvote hne] at hv)).mono hle
  · by_cases hne : q = p ∧ U = g.term p
    · obtain ⟨rfl, rfl⟩ := hne
      have hd : c = d := by simpa [Replication.grant, Election.cast] using hv
      exact ⟨l, hd ▸ hcand, by simpa [Replication.grant] using hup⟩
    · rw [hvote hne] at hv
      rw [hballot hne]
      exact H.ballot_upToDate hv
  · by_cases hne : q = p ∧ U' = g.term p
    · obtain ⟨rfl, rfl⟩ := hne
      rw [show (g.grant q c).ballot q (g.term q) = g.log q from set_self ..]
      exact H.acked_log_mono hle hn le_rfl
    · rw [hballot hne]
      exact H.acked_ballot_mono hle (by rwa [hvote hne] at hv) hU hn

theorem Inv.elect (H : g.Inv tm M) (hnone : g.leader (g.term c) = none) (hQ : Majority M Q)
    (hvote : ∀ p ∈ Q, g.vote p (g.term c) = some c)
    (hcand : g.cand c (g.term c) = some (g.log c)) : (g.elect c).Inv tm M := by
  have hstep : Step tm M g (g.elect c) := .elect hnone hQ hvote hcand
  have hle := H.step_le hstep
  have hlead : ∀ {U}, U ≠ g.term c → (g.elect c).leader U = g.leader U := by
    intro U hU
    simp [Replication.elect, Election.elect, hU]
  have hlog : ∀ {U}, U ≠ g.term c → (g.elect c).leaderLog U = g.leaderLog U := by
    intro U hU
    simp [Replication.elect, hU]
  have hlogself : (g.elect c).leaderLog (g.term c) = g.log c := by simp [Replication.elect]
  have hbase : ∀ {U}, U ≠ g.term c → (g.elect c).base U = g.base U := by
    intro U hU
    simp [Replication.elect, hU]
  have hbaseself : (g.elect c).base (g.term c) = g.log c := by simp [Replication.elect]
  have hacked : ∀ {q U}, ¬ (q = c ∧ U = g.term c) → (g.elect c).acked q U = g.acked q U :=
    fun hne => set_of_ne _ _ hne
  have hself : (g.elect c).acked c (g.term c) = (g.log c).length := by simp [Replication.elect]
  -- Before the election nothing of the term was acknowledged.
  have hzero : ∀ {q n}, q ≠ c → n ≤ (g.elect c).acked q (g.term c) → n = 0 := by
    intro q n hq hn
    rw [hacked (fun h => hq h.1), H.acked_eq_zero (.inl hnone)] at hn
    omega
  refine {
    election := (H.step_election hstep).1
    log_sound := fun q => (H.log_sound q).mono hle
    log_le := H.log_le
    leaderLog_sound := fun {U} hl => ?_
    leaderLog_le := fun {U} hl => ?_
    base_le := fun {U} hl => ?_
    base_lt := fun {U} hl => ?_
    leader_log := fun {U d} hl => ?_
    cand_lt := H.cand_lt
    ballot_sound := fun hv => (H.ballot_sound hv).mono hle
    ballot_upToDate := H.ballot_upToDate
    acked_le := fun q U => ?_
    acked_eq_zero := fun {q U} h0 => ?_
    acked_log := fun {q U n} hn => ?_
    acked_ballot := fun {q U U' d n} hv hU hn => ?_
    elected := fun {U d} hl => ?_ }
  · by_cases hU : U = g.term c
    · rw [hU, hlogself]; exact (H.log_sound c).mono hle
    · rw [hlog hU]; exact (H.leaderLog_sound (by rwa [hlead hU] at hl)).mono hle
  · by_cases hU : U = g.term c
    · rw [hU, hlogself]; exact H.log_le
    · rw [hlog hU]; exact H.leaderLog_le (by rwa [hlead hU] at hl)
  · by_cases hU : U = g.term c
    · rw [hU, hlogself, hbaseself]
    · rw [hlog hU, hbase hU]; exact H.base_le (by rwa [hlead hU] at hl)
  · by_cases hU : U = g.term c
    · rw [hU, hbaseself]; exact (H.cand_lt hcand).2
    · rw [hbase hU]; exact H.base_lt (by rwa [hlead hU] at hl)
  · by_cases hU : U = g.term c
    · obtain rfl : c = d := by simpa [Replication.elect, Election.elect, hU] using hl
      exact ⟨hU.le, fun _ => by rw [hU, hlogself]; rfl⟩
    · rw [hlead hU] at hl
      rw [hlog hU]
      exact H.leader_log hl
  · by_cases hne : q = c ∧ U = g.term c
    · rw [hne.1, hne.2, hself, hlogself]
    · rw [hacked hne]
      by_cases hU : U = g.term c
      · rw [hU, H.acked_eq_zero (.inl hnone)]; exact Nat.zero_le _
      · rw [hlog hU]; exact H.acked_le q U
  · by_cases hne : q = c ∧ U = g.term c
    · obtain ⟨rfl, rfl⟩ := hne
      rcases h0 with h0 | h0
      · simp [Replication.elect, Election.elect] at h0
      · exact absurd h0 (lt_irrefl _)
    · rw [hacked hne]
      by_cases hU : U = g.term c
      · exact H.acked_eq_zero (.inl (hU ▸ hnone))
      · exact H.acked_eq_zero (by rwa [hlead hU] at h0)
  · by_cases hU : U = g.term c
    · subst hU
      by_cases hq : q = c
      · subst hq; exact .inl (by rw [hlogself]; exact List.take_prefix ..)
      · exact .inl (by rw [hzero hq hn]; simp)
    · rw [hacked (fun h => hU h.2)] at hn
      exact H.acked_log_mono hle hn le_rfl
  · by_cases hUc : U = g.term c
    · subst hUc
      by_cases hq : q = c
      · subst hq
        have := H.election.vote_le hv
        omega
      · exact .inl (by rw [hzero hq hn]; simp)
    · rw [hacked (fun h => hUc h.2)] at hn
      exact H.acked_ballot_mono hle hv hU hn
  · by_cases hU : U = g.term c
    · obtain rfl : c = d := by simpa [Replication.elect, Election.elect, hU] using hl
      subst hU
      refine ⟨Q, hQ, fun p hp => ⟨hvote p hp, ?_, fun {T n} hT hn => ?_⟩⟩
      · obtain ⟨l, hl', hup⟩ := H.ballot_upToDate (hvote p hp)
        obtain rfl := Option.some.inj (hcand.symm.trans hl')
        rwa [hbaseself]
      · have hne : T ≠ g.term c := by omega
        rw [hacked (fun h => hne h.2)] at hn
        rw [hlog hne]
        refine (H.acked_ballot (hvote p hp) hT hn).imp_right fun hlost => ?_
        -- The term itself had no leader yet, so the loss was to an earlier one.
        obtain ⟨T', h1, h2, h3, h4⟩ := hlost
        have : T' ≠ g.term c := fun h => h3 (h ▸ hnone)
        exact H.lost_mono hle hn ⟨T', h1, (by omega : T' ≤ g.term c - 1), h3, h4⟩ le_rfl
    · rw [hlead hU] at hl
      refine H.elected_mono hle hl (fun _ => rfl) fun {q T} hT hq => hacked ?_
      rintro ⟨rfl, rfl⟩
      omega

/-- The extended log of a leader is the log of a leader. -/
theorem Inv.sound_append (H : g.Inv tm M) (hl : g.leader (g.term c) = some c)
    (he : tm e = g.term c) : (g.append c e).Sound tm (g.log c ++ [e]) := by
  have hle := H.step_le (.append hl he)
  refine ⟨?_, fun {i a} ha => ?_⟩
  · refine List.pairwise_append.mpr ⟨(H.log_sound c).sorted, by simp, fun a ha b hb => ?_⟩
    rw [List.mem_singleton.mp hb, he]
    exact H.log_le a ha
  · rcases Nat.lt_or_ge i (g.log c).length with hi | hi
    · rw [List.getElem?_append_left hi] at ha
      rw [List.take_append_of_le_length hi]
      exact ((H.log_sound c).mono hle).origin ha
    · have hi' := (List.getElem?_eq_some_iff.mp ha).1
      have hae : e = a := by
        rw [List.getElem?_append_right hi] at ha
        simp only [List.length_append, List.length_singleton] at hi'
        simpa [show i - (g.log c).length = 0 by omega] using ha
      rw [← hae, he, show (g.append c e).leaderLog (g.term c) = g.log c ++ [e] from
        Function.update_self ..]
      exact ⟨hle.leader_ne_none (by simp [hl]), List.take_prefix ..⟩

theorem Inv.append (H : g.Inv tm M) (hl : g.leader (g.term c) = some c)
    (he : tm e = g.term c) : (g.append c e).Inv tm M := by
  have hstep : Step tm M g (g.append c e) := .append hl he
  have hle := H.step_le hstep
  have hl0 : g.leader (g.term c) ≠ none := by simp [hl]
  have hlogc : g.log c = g.leaderLog (g.term c) := (H.leader_log hl).2 rfl
  have hlog : ∀ {U}, U ≠ g.term c → (g.append c e).leaderLog U = g.leaderLog U := by
    intro U hU
    simp [Replication.append, hU]
  have hlogself : (g.append c e).leaderLog (g.term c) = g.log c ++ [e] := by
    simp [Replication.append]
  have hself : (g.append c e).log c = g.log c ++ [e] := by simp [Replication.append]
  have hother : ∀ {q}, q ≠ c → (g.append c e).log q = g.log q := by
    intro q hq
    simp [Replication.append, hq]
  have hacked : ∀ {q U}, ¬ (q = c ∧ U = g.term c) → (g.append c e).acked q U = g.acked q U :=
    fun hne => set_of_ne _ _ hne
  have hsound := H.sound_append hl he
  have hgrow : ∀ q, g.log q <+: (g.append c e).log q := by
    intro q
    by_cases hq : q = c
    · subst hq
      rw [hself]
      exact List.prefix_append ..
    · rw [hother hq]
  refine {
    election := (H.step_election hstep).1
    log_sound := fun q => ?_
    log_le := fun {q} a ha => ?_
    leaderLog_sound := fun {U} hU => ?_
    leaderLog_le := fun {U} hU => ?_
    base_le := fun hU => (H.base_le hU).trans (hle.leaderLog hU)
    base_lt := H.base_lt
    leader_log := fun {U d} hd => ⟨(H.leader_log hd).1, fun hU => ?_⟩
    cand_lt := H.cand_lt
    ballot_sound := fun hv => (H.ballot_sound hv).mono hle
    ballot_upToDate := H.ballot_upToDate
    acked_le := fun q U => ?_
    acked_eq_zero := fun {q U} h0 => ?_
    acked_log := fun {q U n} hn => ?_
    acked_ballot := fun {q U U' d n} hv hU hn => ?_
    elected := fun {U d} hU => H.elected_mono hle hU (fun _ => rfl) fun {q T} hT hq => hacked ?_ }
  · by_cases hq : q = c
    · subst hq; rw [hself]; exact hsound
    · rw [hother hq]; exact (H.log_sound q).mono hle
  · by_cases hq : q = c
    · subst hq
      rw [hself, List.mem_append, List.mem_singleton] at ha
      rcases ha with ha | rfl
      · exact H.log_le a ha
      · exact he.le
    · rw [hother hq] at ha; exact H.log_le a ha
  · by_cases hUc : U = g.term c
    · rw [hUc, hlogself]; exact hsound
    · rw [hlog hUc]; exact (H.leaderLog_sound hU).mono hle
  · by_cases hUc : U = g.term c
    · intro a ha
      rw [hUc, hlogself, List.mem_append, List.mem_singleton] at ha
      rcases ha with ha | rfl
      · exact hUc ▸ H.log_le a ha
      · exact (he.trans hUc.symm).le
    · rw [hlog hUc]; exact H.leaderLog_le hU
  · change g.term d = U at hU
    by_cases hUc : U = g.term c
    · obtain rfl : c = d := Option.some.inj (hl.symm.trans (hUc ▸ hd))
      rw [hself, hUc, hlogself]
    · have hdc : d ≠ c := by rintro rfl; exact hUc hU.symm
      rw [hother hdc, hlog hUc]
      exact (H.leader_log hd).2 hU
  · by_cases hne : q = c ∧ U = g.term c
    · rw [hne.1, hne.2, hlogself]; simp [Replication.append]
    · rw [hacked hne]
      refine (H.acked_le q U).trans ?_
      by_cases hUc : U = g.term c
      · rw [hUc, hlogself, hlogc]; simp
      · rw [hlog hUc]
  · have hne : ¬ (q = c ∧ U = g.term c) := by
      rintro ⟨rfl, rfl⟩
      rcases h0 with h0 | h0
      · exact hl0 h0
      · exact lt_irrefl _ h0
    rw [hacked hne]
    exact H.acked_eq_zero h0
  · by_cases hne : q = c ∧ U = g.term c
    · refine .inl ?_
      rw [hne.1, hne.2, hself, hlogself]
      exact List.take_prefix ..
    · rw [hacked hne] at hn
      exact (H.acked_log_mono hle hn le_rfl).imp_left fun h => h.trans (hgrow q)
  · have hne : ¬ (q = c ∧ U = g.term c) := by
      rintro ⟨rfl, rfl⟩
      have := H.election.vote_le hv
      omega
    rw [hacked hne] at hn
    exact H.acked_ballot_mono hle hv hU hn
  · rintro ⟨rfl, rfl⟩
    omega

omit [DecidableEq N] in
/-- What a node acknowledged before survives that it takes over a segment of its leader's log, or
is lost to this leader. -/
theorem Inv.kept_takeOver (H : g.Inv tm M) (hl : g.leader (g.term p) ≠ none)
    (hbase : g.base (g.term p) <+: v) (hv : v <+: g.leaderLog (g.term p))
    (hn : n ≤ g.acked p T) :
    (g.leaderLog T).take n <+: takeOver (g.log p) v ∨ g.Lost T n (g.term p) := by
  rcases H.acked_log hn with h | h
  · rcases lt_trichotomy T (g.term p) with hT | rfl | hT
    · rcases takeOver_cases (g.log p) v with he | he
      · exact .inl (by rwa [he])
      · by_cases hb : (g.leaderLog T).take n <+: g.base (g.term p)
        · exact .inl (by rw [he]; exact hb.trans hbase)
        · exact .inr ⟨_, hT, le_rfl, hl, hb⟩
    · refine .inl ?_
      rcases Nat.lt_or_ge v.length n with hlen | hlen
      · have hlen' : v.length ≤ ((g.leaderLog (g.term p)).take n).length := by
          have := hn.trans (H.acked_le p _)
          simp only [List.length_take]
          omega
        have hvn : v <+: (g.leaderLog (g.term p)).take n := hv.of_le ( List.take_prefix ..) hlen'
        rwa [takeOver_of_le (hvn.trans h)]
      · exact (( List.take_prefix ..).take_le hv hlen).trans (le_takeOver _ _)
    · have : n = 0 := by
        have := H.acked_eq_zero (.inr hT)
        omega
      exact .inl (by simp [this])
  · exact .inr h

theorem Inv.accept (H : g.Inv tm M) (hl : g.leader (g.term p) ≠ none)
    (hbase : g.base (g.term p) <+: v) (hv : v <+: g.leaderLog (g.term p)) :
    (g.accept p v).Inv tm M := by
  have hstep : Step tm M g (g.accept p v) := .accept hl hbase hv
  have hle := H.step_le hstep
  have hself : (g.accept p v).log p = takeOver (g.log p) v := by simp [Replication.accept]
  have hother : ∀ {q}, q ≠ p → (g.accept p v).log q = g.log q := by
    intro q hq
    simp [Replication.accept, hq]
  have hacked : ∀ {q U}, ¬ (q = p ∧ U = g.term p) → (g.accept p v).acked q U = g.acked q U :=
    fun hne => set_of_ne _ _ hne
  have hackself : (g.accept p v).acked p (g.term p) = max (g.acked p (g.term p)) v.length := by
    simp [Replication.accept]
  refine {
    election := (H.step_election hstep).1
    log_sound := fun q => ?_
    log_le := fun {q} a ha => ?_
    leaderLog_sound := fun hU => (H.leaderLog_sound hU).mono hle
    leaderLog_le := H.leaderLog_le
    base_le := H.base_le
    base_lt := H.base_lt
    leader_log := fun {U d} hd => ⟨(H.leader_log hd).1, fun hU => ?_⟩
    cand_lt := H.cand_lt
    ballot_sound := fun hv => (H.ballot_sound hv).mono hle
    ballot_upToDate := H.ballot_upToDate
    acked_le := fun q U => ?_
    acked_eq_zero := fun {q U} h0 => ?_
    acked_log := fun {q U n} hn => ?_
    acked_ballot := fun {q U U' d n} hv hU hn => ?_
    elected := fun {U d} hU => H.elected_mono hle hU (fun _ => rfl) fun {q T} hT hq => hacked ?_ }
  · by_cases hq : q = p
    · subst hq
      rw [hself]
      rcases takeOver_cases (g.log q) v with he | he
      · rw [he]; exact (H.log_sound q).mono hle
      · rw [he]; exact ((H.leaderLog_sound hl).of_le hv).mono hle
    · rw [hother hq]; exact (H.log_sound q).mono hle
  · by_cases hq : q = p
    · subst hq
      rw [hself] at ha
      rcases takeOver_cases (g.log q) v with he | he
      · rw [he] at ha; exact H.log_le a ha
      · rw [he] at ha; exact H.leaderLog_le hl a (hv.subset ha)
    · rw [hother hq] at ha; exact H.log_le a ha
  · change g.term d = U at hU
    by_cases hdp : d = p
    · subst hdp
      have hlog := (H.leader_log hd).2 hU
      rw [hself, takeOver_of_le]
      · exact hlog
      · rw [hlog, ← hU]; exact hv
    · rw [hother hdp]; exact (H.leader_log hd).2 hU
  · by_cases hne : q = p ∧ U = g.term p
    · rw [hne.1, hne.2, hackself]
      exact max_le (H.acked_le _ _) hv.length_le
    · rw [hacked hne]; exact H.acked_le q U
  · have hne : ¬ (q = p ∧ U = g.term p) := by
      rintro ⟨rfl, rfl⟩
      rcases h0 with h0 | h0
      · exact hl h0
      · exact lt_irrefl _ h0
    rw [hacked hne]
    exact H.acked_eq_zero h0
  · by_cases hq : q = p
    · subst hq
      rw [hself]
      by_cases hU : U = g.term q
      · subst hU
        rw [hackself] at hn
        rcases le_max_iff.mp hn with hn | hn
        · exact H.kept_takeOver hl hbase hv hn
        · exact .inl ((( List.take_prefix ..).take_le hv hn).trans (le_takeOver _ _))
      · rw [hacked (fun h => hU h.2)] at hn
        exact H.kept_takeOver hl hbase hv hn
    · rw [hacked (fun h => hq h.1)] at hn
      rw [hother hq]
      exact H.acked_log_mono hle hn le_rfl
  · have hne : ¬ (q = p ∧ U = g.term p) := by
      rintro ⟨rfl, rfl⟩
      have := H.election.vote_le hv
      omega
    rw [hacked hne] at hn
    exact H.acked_ballot_mono hle hv hU hn
  · rintro ⟨rfl, rfl⟩
    omega

theorem Inv.step (H : g.Inv tm M) (h : Step tm M g g') : g'.Inv tm M := by
  cases h with
  | advance h => exact H.advance h
  | stand h => exact H.stand h
  | grant hnone hcand hup => exact H.grant hnone hcand hup
  | elect hnone hQ hv hcand => exact H.elect hnone hQ hv hcand
  | append hl he => exact H.append hl he
  | accept hl hb hv => exact H.accept hl hb hv

/-- Along every run the invariant holds and nothing is taken back. -/
theorem Inv.steps (H : g.Inv tm M) (h : Relation.ReflTransGen (Step tm M) g g') :
    g'.Inv tm M ∧ Le g g' := by
  induction h with
  | refl => exact ⟨H, .refl g⟩
  | tail _ hs ih => exact ⟨ih.1.step hs, ih.2.trans (ih.1.step_le hs)⟩

end Consensus.Replication
