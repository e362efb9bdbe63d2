import Mathlib.Data.Finset.Max
import Mathlib.Data.Prod.Lex
import Miniraft.Verify.Deliver

/-!
# A leader can be elected

Whatever the logs and the votes of the nodes are, as long as one of them does not lead, there is an
orderly run after which one node with an up-to-date log leads a new term and all others follow in it
(`Timed.exists_elected`). As a follower that moves to a new term keeps its vote, all others have to
stand for election once before they are asked for their votes.
-/

namespace Miniraft

variable {NodeID Cmd : Type} [DecidableEq NodeID] [Wire Cmd]

namespace Cluster

variable {cfg : Config NodeID} {c : Cluster NodeID Cmd} {d : NodeID} {T : Term} {x : Holdings Cmd}

omit [Wire Cmd] in
/-- One of the logs is at least as up-to-date as all others. -/
theorem exists_atLeast {ids : List NodeID} (hne : ids ≠ [])
    (x : NodeID → Holdings Cmd) : ∃ d ∈ ids, ∀ p ∈ ids,
      State.AtLeast (x p).log (x d).log.highestIndex ((x d).log.last.map (·.term)) := by
  let rank (t : Option Term) : ℕ := t.elim 0 (· + 1)
  have hrank : ∀ {a b : Option Term}, rank a < rank b → a < b := by
    intro a b hlt
    cases b with
    | none => cases hlt
    | some b =>
      cases a with
      | none => trivial
      | some a => exact Nat.lt_of_succ_lt_succ hlt
  have hinj : ∀ {a b : Option Term}, rank a = rank b → a = b := by
    intro a b heq
    cases a with
    | none =>
      cases b with
      | none => rfl
      | some b => cases heq
    | some a =>
      cases b with
      | none => cases heq
      | some b => exact congrArg some (Nat.succ.inj heq)
  let last (i : NodeID) : Option Term := (x i).log.last.map (·.term)
  let key (i : NodeID) : Lex (ℕ × ℕ) := toLex (rank (last i), (x i).log.inner.length)
  obtain ⟨d, hd, hmax⟩ := ids.toFinset.exists_max_image key (by simpa using hne)
  refine ⟨d, List.mem_toFinset.mp hd, fun p hp => ?_⟩
  rcases Prod.Lex.toLex_le_toLex.mp (hmax p (List.mem_toFinset.mpr hp)) with hlt | ⟨heq, hle⟩
  · exact .inl (hrank hlt)
  · refine .inr ⟨hinj heq, ?_⟩
    rw [Log.upTo_highestIndex, Log.upTo_highestIndex]
    exact hle

theorem WellFormed.won_iff (hwf : c.WellFormed cfg) (hd : d ∈ cfg.ids) (k : ℕ) :
    (c.nodes d).state.wonElection k = true ↔ cfg.members.card < 2 * k := by
  have hlen := cfg.length_peers hd
  simp only [State.wonElection, hwf.peers, hlen, decide_eq_true_eq]
  omega

/-- The candidate `d` with holdings `x` has the votes of `xs` and its own. -/
def Polled (cfg : Config NodeID) (d : NodeID) (T : Term) (x : Holdings Cmd) (xs : List NodeID)
    (n : Node NodeID Cmd) : Prop :=
  n.Resting T x ∧ if cfg.members.card < 2 * (insert d xs.toFinset).card then n.Fresh
    else n.state.r = .candidate (insert d xs.toFinset)

/-- It gets a further vote. -/
theorem Polled.counted {xs : List NodeID} {p : NodeID} (hwf : c.WellFormed cfg) (hd : d ∈ cfg.ids)
    (h : Polled cfg d T x xs (c.nodes d)) (hlog : x.log.inner.length + 1 < 2 ^ 64) (t : Instant) :
    ∃ n rs, (c.nodes d).Processes t p (.requestVoteResponse T true) n rs ∧
      Polled cfg d T x (xs ++ [p]) n := by
  obtain ⟨hn, h⟩ := h
  have hself : d ∉ cfg.peers d := fun hmem => (cfg.mem_peers.mp hmem).2 rfl
  have hvotes : insert d (xs ++ [p]).toFinset = insert p (insert d xs.toFinset) := by
    ext q
    simp only [Finset.mem_insert, List.mem_toFinset, List.mem_append, List.mem_singleton]
    tauto
  unfold Polled
  rw [hvotes]
  split at h
  · next hwon =>
    have hlead : (c.nodes d).state.isLeader = true := by
      obtain ⟨nx, lr, -, hr⟩ := h
      simp [State.isLeader, hr]
    obtain ⟨n, rs, hproc, hn', hstate⟩ := hn.ignored (p := p) hlead t
    refine ⟨n, rs, hproc, hn', ?_⟩
    have hmore := Finset.card_le_card (Finset.subset_insert p (insert d xs.toFinset))
    rw [if_pos (by omega)]
    unfold Node.Fresh at h ⊢
    rwa [hstate]
  · obtain ⟨p', hp'⟩ := cfg.exists_mem_peers hd
    obtain ⟨n, rs, hproc, hn', hcount⟩ := hn.counted (p := p) h
      (by rw [hwf.id]; exact Finset.mem_insert_self ..) (by rw [hwf.id, hwf.peers]; exact hself)
      (by rw [hwf.peers]; exact List.ne_nil_of_mem hp') hlog t
    refine ⟨n, rs, hproc, hn', ?_⟩
    simp only [hwf.won_iff hd] at hcount
    exact hcount

end Cluster

namespace Timed

open Cluster

variable {cfg : Config NodeID} {c : Timed NodeID Cmd} {d : NodeID} {t T : Term}
  {x : Holdings Cmd} [DecidableEq Cmd]

/-- Something is done with each peer of `d` in turn, and changes nothing but `d` and this peer. -/
theorem run_forPeers {P R : NodeID → Node NodeID Cmd → Prop}
    {Q : List NodeID → Node NodeID Cmd → Prop} (hwf : c.WellFormed cfg)
    (hP : ∀ p ∈ cfg.peers d, P p (c.nodes p)) (hQ : Q [] (c.nodes d))
    (hstep : ∀ xs p c', p ∈ cfg.peers d → p ∉ xs → c'.WellFormed cfg → c.network ⊆ c'.network →
      P p (c'.nodes p) → Q xs (c'.nodes d) → ∃ c'', Run (step cfg) Orderly c' c'' ∧
        R p (c''.nodes p) ∧ Q (xs ++ [p]) (c''.nodes d) ∧
        ∀ q, q ≠ p → q ≠ d → c''.nodes q = c'.nodes q) :
    ∃ c', Run (step cfg) Orderly c c' ∧ (∀ p ∈ cfg.peers d, R p (c'.nodes p)) ∧
      Q (cfg.peers d) (c'.nodes d) := by
  let I (xs : List NodeID) (c' : Timed NodeID Cmd) : Prop :=
    Run (step cfg) Orderly c c' ∧ (∀ p ∈ cfg.peers d, p ∉ xs → P p (c'.nodes p)) ∧
      (∀ p ∈ xs, R p (c'.nodes p)) ∧ Q xs (c'.nodes d)
  have h0 : I [] c := ⟨.refl, fun p hp _ => hP p hp, by simp, hQ⟩
  obtain ⟨c', hrun, -, -, hP', hQ'⟩ :
      ∃ c', Run (step cfg) Orderly c c' ∧ I (cfg.peers d) c' := by
    refine Run.forEach h0 ?_
    rintro xs p ys c' hl ⟨hrun, hrest, hdone, hQ⟩
    have hnodup : (xs ++ p :: ys).Nodup := hl ▸ cfg.nodup.filter _
    have hp : p ∈ cfg.peers d := hl ▸ by simp
    have hpxs : p ∉ xs := fun hmem =>
      (List.nodup_append.mp hnodup).2.2 p hmem p List.mem_cons_self rfl
    obtain ⟨hwf', hnet⟩ := Timed.network_run hrun hwf
    obtain ⟨c'', hrun', hp', hQ', hkept⟩ := hstep xs p c' hp hpxs hwf' hnet (hrest p hp hpxs) hQ
    refine ⟨c'', hrun', hrun.trans hrun', fun q hq hqxs => ?_, fun q hq => ?_, hQ'⟩
    · rw [List.mem_append, List.mem_singleton, not_or] at hqxs
      rw [hkept q hqxs.2 (cfg.mem_peers.mp hq).2]
      exact hrest q hq hqxs.1
    · rcases List.mem_append.mp hq with hq | hq
      · have hqd : q ∈ cfg.peers d := hl ▸ List.mem_append_left _ hq
        have hqp : q ≠ p := fun heq => hpxs (heq ▸ hq)
        rw [hkept q hqp (cfg.mem_peers.mp hqd).2]
        exact hdone q hq
      · obtain rfl := List.mem_singleton.mp hq
        exact hp'
  exact ⟨c', hrun, hP', hQ'⟩

/-- A node that does not lead can stand for election. -/
theorem run_stand (hwf : c.WellFormed cfg) (hd : d ∈ cfg.ids) (h : (c.nodes d).Resting T x)
    (hlead : (c.nodes d).state.isLeader = false) (hT : T + 1 < 2 ^ 64) :
    ∃ c', Run (step cfg) Orderly c c' ∧ (c'.nodes d).Resting (T + 1) x ∧
      (c'.nodes d).state.r = .candidate {d} ∧
      (∀ p ∈ cfg.peers d, ⟨d, p, x.log.voteRequest (T + 1)⟩ ∈ c'.network) ∧
      ∀ q, q ≠ d → c'.nodes q = c.nodes q := by
  obtain ⟨u, n, hu, hs, hn, hr⟩ := h.stand hlead hT c.now
  rw [hwf.id] at hr
  rw [hwf.peers] at hs
  have hrun := run_step hd (a := .election (.still u)) trivial
    ⟨rfl, appendsAsLeader_of_not rfl, trivial⟩ (.inl ⟨rfl, hu⟩) hs
  refine ⟨_, hrun, by rwa [nodes_after], by rwa [nodes_after], fun p hp => ?_,
    fun q hq => nodes_after_of_ne hq⟩
  exact mem_after.mpr (.inr ⟨_, List.mem_map_of_mem hp, rfl⟩)

/-- It can do so until it is in a given later term. -/
theorem run_campaign (hwf : c.WellFormed cfg) (hd : d ∈ cfg.ids) (h : (c.nodes d).Resting t x)
    (hlead : (c.nodes d).state.isLeader = false) (hlt : t < T) (hT : T < 2 ^ 64) :
    ∃ c', Run (step cfg) Orderly c c' ∧ (c'.nodes d).Resting T x ∧
      (c'.nodes d).state.r = .candidate {d} ∧
      (∀ p ∈ cfg.peers d, ⟨d, p, x.log.voteRequest T⟩ ∈ c'.network) ∧
      ∀ q, q ≠ d → c'.nodes q = c.nodes q := by
  induction T, hlt using Nat.le_induction with
  | base => exact run_stand hwf hd h hlead hT
  | succ T hle ih =>
    obtain ⟨c₁, hrun, hn, hr, -, hkept⟩ := ih (Nat.lt_of_succ_lt hT)
    obtain ⟨c₂, hrun', hn', hr', hnet, hkept'⟩ := run_stand (Timed.network_run hrun hwf).1 hd hn
      (by simp [State.isLeader, hr]) hT
    exact ⟨c₂, hrun.trans hrun', hn', hr', hnet, fun q hq => (hkept' q hq).trans (hkept q hq)⟩

/-- All nodes can be brought into a term in which nobody leads. -/
theorem run_assemble {t : NodeID → Term} {x : NodeID → Holdings Cmd} (hwf : c.WellFormed cfg)
    (hd : d ∈ cfg.ids) (hlead : (c.nodes d).state.isLeader = false)
    (h : ∀ i ∈ cfg.ids, (c.nodes i).Resting (t i) (x i)) (hlt : ∀ i ∈ cfg.ids, t i < T)
    (hT : T < 2 ^ 64) : ∃ c', Run (step cfg) Orderly c c' ∧ ∀ i ∈ cfg.ids,
      (c'.nodes i).Resting T (x i) ∧ (c'.nodes i).state.isLeader = false := by
  obtain ⟨c₁, hrun, hn, hr, hnet, hkept⟩ := run_campaign hwf hd (h d hd) hlead (hlt d hd) hT
  have hwf₁ := (Timed.network_run hrun hwf).1
  let P (i : NodeID) (n : Node NodeID Cmd) : Prop := n.Resting (t i) (x i)
  let P' (i : NodeID) (n : Node NodeID Cmd) : Prop :=
    n.Resting T (x i) ∧ n.state.isLeader = false
  have hP : ∀ p ∈ cfg.peers d, P p (c₁.nodes p) := by
    intro p hp
    obtain ⟨hp, hne⟩ := cfg.mem_peers.mp hp
    exact hkept p hne ▸ h p hp
  obtain ⟨c', hrun', hP', hd'⟩ := run_forPeers (R := P') (Q := fun _ n => n = c₁.nodes d) hwf₁ hP
    rfl fun xs p c' hp _ hwf' hnet' hp' hQ => by
      obtain ⟨hpi, hne⟩ := cfg.mem_peers.mp hp
      obtain ⟨n', rs, hproc, hn', ⟨leader, v, hr'⟩, -⟩ := hp'.asked (p := d)
        (by rw [hwf'.id]; exact hne) (hlt p hpi) _ _ c'.now
      have hrun' := run_processes hpi (hnet' (hnet p hp)) hproc (fun _ _ heq => by cases heq)
      refine ⟨_, hrun', ?_, ?_, fun q hq _ => nodes_after_of_ne hq⟩
      · rw [nodes_after]
        exact ⟨hn', by simp [State.isLeader, hr']⟩
      · rwa [nodes_after_of_ne hne.symm]
  refine ⟨c', hrun.trans hrun', fun i hi => ?_⟩
  by_cases hid : i = d
  · subst hid
    rw [hd']
    exact ⟨hn, by simp [State.isLeader, hr]⟩
  · exact hP' i (cfg.mem_peers.mpr ⟨hi, hid⟩)

/-- All peers of a node can stand for election at once. -/
theorem run_standPeers {x : NodeID → Holdings Cmd} (hwf : c.WellFormed cfg)
    (h : ∀ p ∈ cfg.peers d, (c.nodes p).Resting T (x p) ∧ (c.nodes p).state.isLeader = false)
    (hT : T + 1 < 2 ^ 64) : ∃ c', Run (step cfg) Orderly c c' ∧ c'.nodes d = c.nodes d ∧
      ∀ p ∈ cfg.peers d, (c'.nodes p).Resting (T + 1) (x p) ∧
        (c'.nodes p).state.r = .candidate {p} := by
  let P (i : NodeID) (n : Node NodeID Cmd) : Prop :=
    n.Resting T (x i) ∧ n.state.isLeader = false
  let P' (i : NodeID) (n : Node NodeID Cmd) : Prop :=
    n.Resting (T + 1) (x i) ∧ n.state.r = .candidate {i}
  obtain ⟨c', hrun, hP', hd'⟩ := run_forPeers (P := P) (R := P') (Q := fun _ n => n = c.nodes d)
    hwf h rfl fun xs p c' hp _ hwf' _ hp' hQ => by
      obtain ⟨hpi, hne⟩ := cfg.mem_peers.mp hp
      obtain ⟨c'', hrun, hn, hr, -, hkept⟩ := run_stand hwf' hpi hp'.1 hp'.2 hT
      exact ⟨c'', hrun, ⟨hn, hr⟩, (hkept d hne.symm).trans hQ, fun q hq _ => hkept q hq⟩
  exact ⟨c', hrun, hd', hP'⟩

/-- A candidate with an up-to-date log is elected by peers that follow nobody. -/
theorem run_poll {x : NodeID → Holdings Cmd} (hwf : c.WellFormed cfg) (hd : d ∈ cfg.ids)
    (h : (c.nodes d).Resting T (x d)) (hr : (c.nodes d).state.r = .candidate {d})
    (hnet : ∀ p ∈ cfg.peers d, ⟨d, p, (x d).log.voteRequest T⟩ ∈ c.network)
    (hpeers : ∀ p ∈ cfg.peers d, ∃ U < T, (c.nodes p).Resting U (x p) ∧
      (c.nodes p).state.r = .candidate {p})
    (hup : ∀ p ∈ cfg.peers d,
      State.AtLeast (x p).log (x d).log.highestIndex ((x d).log.last.map (·.term)))
    (hlog : (x d).log.inner.length + 1 < 2 ^ 64) :
    ∃ c', Run (step cfg) Orderly c c' ∧ (c'.nodes d).Resting T (x d) ∧ (c'.nodes d).Fresh ∧
      ∀ p ∈ cfg.peers d, (c'.nodes p).Resting T (x p) ∧
        ∃ leader v, (c'.nodes p).state.r = .follower leader v := by
  let P (p : NodeID) (n : Node NodeID Cmd) : Prop :=
    ∃ U < T, n.Resting U (x p) ∧ n.state.r = .candidate {p}
  let P' (p : NodeID) (n : Node NodeID Cmd) : Prop :=
    n.Resting T (x p) ∧ ∃ leader v, n.state.r = .follower leader v
  have hone : ¬ cfg.members.card < 2 * ({d} : Finset NodeID).card := by
    have hcard : cfg.members.card = cfg.ids.length := List.toFinset_card_of_nodup cfg.nodup
    have := cfg.two_le
    rw [Finset.card_singleton]
    omega
  have h0 : Polled cfg d T (x d) [] (c.nodes d) := by
    refine ⟨h, ?_⟩
    rw [List.toFinset_nil, insert_empty_eq, if_neg hone]
    exact hr
  obtain ⟨c', hrun, hP', hn, hd'⟩ := run_forPeers (P := P) (R := P') hwf hpeers h0
    fun xs p c₁ hp _ hwf₁ hnet₁ hp₁ hQ => by
      obtain ⟨hpi, hne⟩ := cfg.mem_peers.mp hp
      obtain ⟨U, hU, hn, hr⟩ := hp₁
      obtain ⟨n, rs, hproc, hn', hfollow, hgrant⟩ := hn.asked (p := d)
        (by rw [hwf₁.id]; exact hne) hU (x d).log.highestIndex ((x d).log.last.map (·.term)) c₁.now
      obtain rfl := hgrant (by simp [hr]) (hup p hp)
      have hrun₁ := run_processes hpi (hnet₁ (hnet p hp)) hproc (fun _ _ heq => by cases heq)
      obtain ⟨hwf₂, -⟩ := Timed.network_run hrun₁ hwf₁
      have hQ₂ : Polled cfg d T (x d) xs
          ((c₁.after p n [(d, .requestVoteResponse T true)] c₁.now).nodes d) := by
        rwa [nodes_after_of_ne hne.symm]
      obtain ⟨n', rs, hproc', hQ'⟩ := hQ₂.counted (p := p) hwf₂ hd hlog c₁.now
      have hmem : ⟨p, d, .requestVoteResponse T true⟩ ∈
          (c₁.after p n [(d, .requestVoteResponse T true)] c₁.now).network :=
        mem_after.mpr (.inr ⟨_, List.mem_singleton_self _, rfl⟩)
      have hrun₂ := run_processes hd hmem hproc' (fun _ _ heq => by cases heq)
      refine ⟨_, hrun₁.trans hrun₂, ?_, by rwa [nodes_after], fun q hqp hqd => ?_⟩
      · rw [nodes_after_of_ne hne, nodes_after]
        exact ⟨hn', hfollow⟩
      · rw [nodes_after_of_ne hqd, nodes_after_of_ne hqp]
  have hall : insert d (cfg.peers d).toFinset = cfg.members := by
    ext q
    simp only [Finset.mem_insert, List.mem_toFinset, cfg.mem_peers, Config.mem_members]
    by_cases hq : q = d
    · simp [hq, hd]
    · simp [hq]
  have hpos := Finset.card_pos.mpr ⟨d, (cfg.mem_members).mpr hd⟩
  rw [hall, if_pos (by omega)] at hd'
  exact ⟨c', hrun, hn, hd', hP'⟩

/-- A cluster with a node that does not lead can elect a leader of the term `T + 2`, if all are in
terms below `T`. Nothing but terms and roles changes. -/
theorem exists_elected {t : NodeID → Term} {x : NodeID → Holdings Cmd} (hwf : c.WellFormed cfg)
    (hd : d ∈ cfg.ids) (hlead : (c.nodes d).state.isLeader = false)
    (h : ∀ i ∈ cfg.ids, (c.nodes i).Resting (t i) (x i)) (hlt : ∀ i ∈ cfg.ids, t i < T)
    (hT : T + 2 < 2 ^ 64) (hlog : ∀ i ∈ cfg.ids, (x i).log.inner.length + 1 < 2 ^ 64) :
    ∃ c' i, Run (step cfg) Orderly c c' ∧ i ∈ cfg.ids ∧ (c'.nodes i).Resting (T + 2) (x i) ∧
      (c'.nodes i).Fresh ∧ ∀ p ∈ cfg.peers i, (c'.nodes p).Resting (T + 2) (x p) ∧
        ∃ leader v, (c'.nodes p).state.r = .follower leader v := by
  obtain ⟨i, hi, hup⟩ := exists_atLeast (List.ne_nil_of_mem hd) x
  obtain ⟨c₁, hrun₁, h₁⟩ := run_assemble hwf hd hlead h hlt
    (Nat.lt_of_succ_lt (Nat.lt_of_succ_lt hT))
  obtain ⟨hwf₁, -⟩ := Timed.network_run hrun₁ hwf
  obtain ⟨c₂, hrun₂, hi₂, hp₂⟩ := run_standPeers (d := i) hwf₁
    (fun p hp => h₁ p (cfg.mem_peers.mp hp).1) (Nat.lt_of_succ_lt hT)
  obtain ⟨hwf₂, -⟩ := Timed.network_run hrun₂ hwf₁
  obtain ⟨hn, hnlead⟩ := h₁ i hi
  obtain ⟨c₃, hrun₃, hn₃, hr₃, hnet₃, hkept₃⟩ := run_campaign (T := T + 2) hwf₂ hi
    (by rwa [hi₂]) (by rwa [hi₂]) (Nat.lt_add_of_pos_right Nat.two_pos) hT
  obtain ⟨hwf₃, -⟩ := Timed.network_run hrun₃ hwf₂
  obtain ⟨c₄, hrun₄, h₄⟩ := run_poll hwf₃ hi hn₃ hr₃ hnet₃
    (fun p hp => by
      rw [hkept₃ p (cfg.mem_peers.mp hp).2]
      exact ⟨T + 1, Nat.lt_succ_self _, hp₂ p hp⟩)
    (fun p hp => hup p (cfg.mem_peers.mp hp).1) (hlog i hi)
  exact ⟨c₄, i, ((hrun₁.trans hrun₂).trans hrun₃).trans hrun₄, hi, h₄⟩

end Timed

end Miniraft
