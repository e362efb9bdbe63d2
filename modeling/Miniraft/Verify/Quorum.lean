import Miniraft.Verify.Log

/-!
# The commit rule

`advance_commit_index` takes the lower median of what the peers have reported. What it commits is
safe: every set of nodes that can win an election has one of the peers that have reported it
(`State.advanceCommitIndex_sound`). It does not commit all that the rule of the paper allows: that
takes every peer to have reported and more than half of the peers without the leader, and it looks
at one index only (`State.commitsUpTo_iff`).
-/

namespace Miniraft

namespace State

variable {NodeID Cmd : Type} [DecidableEq NodeID] {s s' : State NodeID Cmd}
  {next : Map NodeID LogIndex} {mtch : Map NodeID (Option LogIndex)} {lr : Option Instant}

/-- The peers that have reported an index from `n` on. -/
def reporters (s : State NodeID Cmd) (mtch : Map NodeID (Option LogIndex)) (n : LogIndex) :
    List NodeID :=
  s.c.nodeIds.filter fun p => (mtch.lookup p).any fun m => m.any (n ≤ ·)

theorem length_reporters_le (s : State NodeID Cmd) (mtch : Map NodeID (Option LogIndex))
    (n : LogIndex) : (s.reporters mtch n).length ≤ s.c.nodeIds.length :=
  List.length_filter_le ..

theorem length_reporters (htrack : mtch.keys.Perm s.c.nodeIds) {values : List LogIndex}
    (hvalues : mtch.values.mapM id = some values) (n : LogIndex) :
    (s.reporters mtch n).length = values.countP (n ≤ ·) := by
  rw [reporters, ← List.countP_eq_length_filter, ← htrack.countP_eq, Map.countP_values,
    eq_map_some_of_mapM hvalues, List.countP_map]
  rfl

omit [DecidableEq NodeID] in
theorem length_values (htrack : mtch.keys.Perm s.c.nodeIds) {values : List LogIndex}
    (hvalues : mtch.values.mapM id = some values) : values.length = s.c.nodeIds.length := by
  have hlen := congrArg List.length (eq_map_some_of_mapM hvalues)
  rw [← htrack.length_eq]
  simpa [Map.values, AList.keys, List.keys] using hlen.symm

/-- More than half of the peers, not counting the leader, have reported an index from `n` on. -/
def PeerMajority (s : State NodeID Cmd) (mtch : Map NodeID (Option LogIndex)) (n : LogIndex) :
    Prop :=
  s.c.nodeIds.length < 2 * (s.reporters mtch n).length

theorem peerMajority_iff (htrack : mtch.keys.Perm s.c.nodeIds) {values : List LogIndex}
    (hvalues : mtch.values.mapM id = some values) {n : LogIndex}
    (hn : lowerMedian values = some n) (m : LogIndex) : s.PeerMajority mtch m ↔ m ≤ n := by
  rw [le_lowerMedian_iff hn, PeerMajority, length_reporters htrack hvalues,
    length_values htrack hvalues]

/-! ## What is committed is safe -/

/-- The commit index went up to `n`. -/
structure Raised (s s' : State NodeID Cmd) (mtch : Map NodeID (Option LogIndex)) (n : LogIndex) :
    Prop where
  commit : s'.c.commitIndex = some n
  later : upTo s.c.commitIndex < n
  current : ∃ e, s.c.log.get n = some e ∧ e.term = s.c.currentTerm
  majority : s.wonElection (1 + (s.reporters mtch n).length) = true
  /-- Even if the leader loses its log. -/
  safe : ∀ Q : Finset NodeID, (∀ p ∈ Q, p = s.c.id ∨ p ∈ s.c.nodeIds) →
    s.wonElection Q.card = true → ∃ p ∈ Q, p ≠ s.c.id ∧ p ∈ s.reporters mtch n

/-- A set of nodes that can win an election has one of the peers of a majority of the peers. -/
theorem PeerMajority.exists_mem {n : LogIndex} (h : s.PeerMajority mtch n)
    (hnodup : s.c.nodeIds.Nodup) {Q : Finset NodeID}
    (hQ : ∀ p ∈ Q, p = s.c.id ∨ p ∈ s.c.nodeIds) (hwon : s.wonElection Q.card = true) :
    ∃ p ∈ Q, p ∈ s.reporters mtch n := by
  by_contra hno
  have hnodup' : (s.reporters mtch n).Nodup := hnodup.filter _
  -- All of `Q` but the leader are peers that have not reported.
  have hsub : Q ⊆ insert s.c.id (s.c.nodeIds.toFinset \ (s.reporters mtch n).toFinset) := by
    intro p hp
    rcases hQ p hp with rfl | hpeer
    · exact Finset.mem_insert_self ..
    · refine Finset.mem_insert_of_mem (Finset.mem_sdiff.mpr ⟨List.mem_toFinset.mpr hpeer, ?_⟩)
      exact fun hr => hno ⟨p, hp, List.mem_toFinset.mp hr⟩
  have hreporters : (s.reporters mtch n).toFinset ⊆ s.c.nodeIds.toFinset := fun p hp =>
    List.mem_toFinset.mpr (List.mem_of_mem_filter (List.mem_toFinset.mp hp))
  have hcard := (Finset.card_le_card hsub).trans (Finset.card_insert_le ..)
  rw [Finset.card_sdiff_of_subset hreporters, List.toFinset_card_of_nodup hnodup,
    List.toFinset_card_of_nodup hnodup'] at hcard
  have hle := s.length_reporters_le mtch n
  simp only [wonElection, decide_eq_true_eq] at hwon
  unfold PeerMajority at h
  omega

theorem raised_of_median (htrack : mtch.keys.Perm s.c.nodeIds) (hself : s.c.id ∉ s.c.nodeIds)
    {n : LogIndex} (hmajority : s.PeerMajority mtch n) (hcommit : s'.c.commitIndex = some n)
    (hlater : upTo s.c.commitIndex < n)
    (hcurrent : ∃ e, s.c.log.get n = some e ∧ e.term = s.c.currentTerm) :
    s.Raised s' mtch n where
  commit := hcommit
  later := hlater
  current := hcurrent
  majority := by
    unfold PeerMajority at hmajority
    simp only [wonElection, decide_eq_true_eq]
    omega
  safe := by
    intro Q hQ hwon
    obtain ⟨p, hp, hreporter⟩ :=
      hmajority.exists_mem (htrack.nodup_iff.mp mtch.keys_nodup) hQ hwon
    refine ⟨p, hp, ?_, hreporter⟩
    rintro rfl
    exact hself (List.mem_of_mem_filter hreporter)

/-- What `advance_commit_index` commits, a majority has, and every later leader will know: the
index is in the log and of the current term, and every set of nodes that can win an election has
one of the peers that have reported it. Otherwise the commit index stays. It returns if what is
committed is in the log. -/
theorem advanceCommitIndex_sound (s : State NodeID Cmd) (next : Map NodeID LogIndex)
    (mtch : Map NodeID (Option LogIndex)) (lr : Option Instant) (hr : s.r = .leader next mtch lr)
    (htrack : mtch.keys.Perm s.c.nodeIds) (hpeers : s.c.nodeIds ≠ [])
    (hself : s.c.id ∉ s.c.nodeIds) :
    (∀ s' apps, s.advanceCommitIndex = .ok (s', apps) →
      upTo s.c.commitIndex ≤ upTo s'.c.commitIndex ∧
        (s'.c.commitIndex = s.c.commitIndex ∨ ∃ n, s.Raised s' mtch n)) ∧
      (s.c.log.InMemory → upTo s.c.lastApplied ≤ upTo s.c.commitIndex →
        upTo s.c.commitIndex ≤ s.c.log.inner.length →
        ∃ s' apps, s.advanceCommitIndex = .ok (s', apps)) := by
  constructor
  · intro s' apps h
    rcases advanceCommitIndex_cases hr h with ⟨rfl, -⟩ | ⟨values, n, e, hvalues, hn, he, hterm, h⟩
    · exact ⟨le_rfl, .inl rfl⟩
    · obtain ⟨last, rfl, -, -, -⟩ := advanceStateMachine_eq_ok h
      rcases Nat.lt_or_ge (upTo s.c.commitIndex) n with hlt | hge
      · have hmax : max s.c.commitIndex (some n) = some n :=
          upTo_inj (by rw [upTo_max, upTo_some]; omega)
        have hmajority := (peerMajority_iff htrack hvalues hn n).mpr le_rfl
        refine ⟨by simp, .inr ⟨n, raised_of_median htrack hself hmajority hmax hlt ⟨e, he, hterm⟩⟩⟩
      · have hmax : max s.c.commitIndex (some n) = s.c.commitIndex :=
          upTo_inj (by rw [upTo_max, upTo_some]; omega)
        exact ⟨by simp, .inl hmax⟩
  · intro hlog hlast hcommit
    have hvalues : mtch.values ≠ [] := by
      intro hnil
      have hlen := htrack.length_eq
      have hpos := List.length_pos_of_ne_nil hpeers
      simp only [Map.values, List.map_eq_nil_iff] at hnil
      simp [AList.keys, hnil] at hlen
      omega
    obtain ⟨⟨s', apps⟩, h⟩ := exists_advanceCommitIndex hr (hlog.length_lt.trans (by decide))
      hvalues hlast hcommit
    exact ⟨s', apps, h⟩

/-! ## What is not committed -/

/-- The premise of the rule in the paper: an index behind the commit index, of an entry of the
current term, that the leader and the peers that have reported it make a majority for. -/
structure Eligible (s : State NodeID Cmd) (mtch : Map NodeID (Option LogIndex)) (N : LogIndex) :
    Prop where
  later : upTo s.c.commitIndex < N
  current : ∃ e, s.c.log.get N = some e ∧ e.term = s.c.currentTerm
  majority : s.c.nodeIds.length + 1 < 2 * (1 + (s.reporters mtch N).length)

/-- Its conclusion. -/
def CommitsUpTo (s : State NodeID Cmd) (N : LogIndex) : Prop :=
  ∃ s' apps, s.advanceCommitIndex = .ok (s', apps) ∧ (N : ℕ) ≤ upTo s'.c.commitIndex

/-- Every peer has reported, more than half of the peers have reported an index from `N` on, and
the highest index that more than half of the peers have reported is in the log, of the current
term, and not behind what is applied. -/
structure Committable (s : State NodeID Cmd) (mtch : Map NodeID (Option LogIndex))
    (N : LogIndex) : Prop where
  reported : ∀ p ∈ s.c.nodeIds, ∃ m, mtch.lookup p = some (some m)
  majority : s.PeerMajority mtch N
  watermark : ∃ n e, (∀ m, s.PeerMajority mtch m ↔ m ≤ n) ∧ s.c.log.get n = some e ∧
    e.term = s.c.currentTerm ∧ upTo s.c.lastApplied ≤ n

theorem exists_values (htrack : mtch.keys.Perm s.c.nodeIds)
    (h : ∀ p ∈ s.c.nodeIds, ∃ m, mtch.lookup p = some (some m)) :
    ∃ values, mtch.values.mapM id = some values := by
  refine exists_mapM_of_forall fun o ho => ?_
  obtain ⟨⟨p, _⟩, he, rfl⟩ := List.mem_map.mp ho
  obtain ⟨m, hm⟩ := h p (htrack.mem_iff.mp (List.mem_map_of_mem he))
  rw [AList.mem_lookup_iff.mpr he] at hm
  exact ⟨m, Option.some.inj hm⟩

theorem lookup_of_values (htrack : mtch.keys.Perm s.c.nodeIds) {values : List LogIndex}
    (hvalues : mtch.values.mapM id = some values) {p : NodeID} (hp : p ∈ s.c.nodeIds) :
    ∃ m, mtch.lookup p = some (some m) := by
  obtain ⟨o, ho⟩ := Option.isSome_iff_exists.mp (AList.lookup_isSome.mpr (htrack.mem_iff.mpr hp))
  have hmem : o ∈ mtch.values := List.mem_map.mpr ⟨_, AList.mem_lookup_iff.mp ho, rfl⟩
  rw [eq_map_some_of_mapM hvalues] at hmem
  obtain ⟨m, -, rfl⟩ := List.mem_map.mp hmem
  exact ⟨m, ho⟩

/-- The commit rule goes as far as the paper's exactly if more than half of the peers, without
the leader, have reported the index, and neither a silent peer nor the entry at the median stands
in the way. -/
theorem commitsUpTo_iff (s : State NodeID Cmd) (next : Map NodeID LogIndex)
    (mtch : Map NodeID (Option LogIndex)) (lr : Option Instant) (hr : s.r = .leader next mtch lr)
    (htrack : mtch.keys.Perm s.c.nodeIds) (hlog : s.c.log.InMemory) (N : LogIndex)
    (hN : s.Eligible mtch N) : s.CommitsUpTo N ↔ s.Committable mtch N := by
  have hlater := hN.later
  constructor
  · rintro ⟨s', apps, h, hle⟩
    rcases advanceCommitIndex_cases hr h with ⟨rfl, -⟩ | ⟨values, n, e, hvalues, hn, he, hterm, h⟩
    · omega
    · obtain ⟨last, rfl, -, hlast, -⟩ := advanceStateMachine_eq_ok h
      simp only [upTo_max, upTo_some] at hle hlast
      have hmajority := peerMajority_iff htrack hvalues hn
      refine ⟨fun p hp => lookup_of_values htrack hvalues hp, (hmajority N).mpr ?_, n, e, hmajority,
        he, hterm, by omega⟩
      exact PNat.coe_le_coe .. |>.mp (by omega)
  · rintro ⟨hreported, hmajority, n, e, hn, he, hterm, hlast⟩
    obtain ⟨values, hvalues⟩ := exists_values htrack hreported
    have hmedian : lowerMedian values = some n := by
      have hpos : (values.length - 1) / 2 < (values.insertionSort (· ≤ ·)).length := by
        rw [List.length_insertionSort, length_values htrack hvalues]
        have hle := s.length_reporters_le mtch N
        unfold PeerMajority at hmajority
        omega
      have hsome : lowerMedian values = some _ := List.getElem?_eq_getElem hpos
      have hiff := peerMajority_iff htrack hvalues hsome
      rw [hsome, le_antisymm ((hn _).mp ((hiff _).mpr le_rfl)) ((hiff _).mp ((hn _).mpr le_rfl))]
    have hNn : (N : ℕ) ≤ n := (hn N).mp hmajority
    have hlt := (List.getElem?_eq_some_iff.mp he).1
    have hpred := n.natPred_add_one
    have hmax : upTo (max s.c.commitIndex (some n)) = n := by
      rw [upTo_max, upTo_some]
      omega
    have hlen : (n : ℕ) ≤ s.c.log.inner.length := by omega
    obtain ⟨apps, h⟩ := advanceStateMachine_of_le
      (s := { s with c := { s.c with commitIndex := max s.c.commitIndex (some n) } })
      (hlog.length_lt.trans (by decide)) (hlast.trans_eq hmax.symm) (hmax.trans_le hlen)
    refine ⟨_, apps, (advanceCommitIndex_of_median hr hvalues hmedian he hterm).trans h, ?_⟩
    exact hNn.trans_eq hmax.symm

end State

namespace Example

open State

/-- What "b" and "c" have reported to "a". -/
def reports (b c : Option LogIndex) : Map String (Option LogIndex) :=
  ((Map.ofKeys ["b", "c"] none).insert "b" b).insert "c" c

/-- The leader "a" of three nodes in term 1, with the entries of `log`. -/
def leading (log : List (LogEntry ℕ)) (b c : Option LogIndex) : State String ℕ :=
  { State.new "a" ["b", "c"] ⟨1, some "a", ⟨log⟩⟩ with
    r := .leader (.ofKeys ["b", "c"] 1) (reports b c) none }

theorem not_commitsUpTo_of_eq {s : State String ℕ} {N : LogIndex}
    (h : (s.advanceCommitIndex.map fun x => decide ((N : ℕ) ≤ upTo x.1.c.commitIndex)) = .ok false) :
    ¬ s.CommitsUpTo N := by
  rintro ⟨s', apps, hs, hle⟩
  rw [hs] at h
  simp [Except.map, hle] at h

/-- Two of three nodes have the entry, and it is not committed: "c" is silent, or "c" is behind. -/
theorem not_commitsUpTo :
    (Eligible (leading [⟨10, 1⟩] (some 1) none) (reports (some 1) none) 1 ∧
      ¬ CommitsUpTo (leading [⟨10, 1⟩] (some 1) none) 1) ∧
    (Eligible (leading [⟨10, 1⟩, ⟨20, 1⟩] (some 2) (some 1)) (reports (some 2) (some 1)) 2 ∧
      ¬ CommitsUpTo (leading [⟨10, 1⟩, ⟨20, 1⟩] (some 2) (some 1)) 2) :=
  ⟨⟨⟨by decide, ⟨_, rfl, rfl⟩, by decide⟩, not_commitsUpTo_of_eq (by decide)⟩,
    ⟨⟨by decide, ⟨_, rfl, rfl⟩, by decide⟩, not_commitsUpTo_of_eq (by decide)⟩⟩

theorem commitsUpTo_all : CommitsUpTo (leading [⟨10, 1⟩, ⟨20, 1⟩] (some 2) (some 1)) 1 := by
  have htrack : (reports (some 2) (some 1)).keys.Perm ["b", "c"] := by decide
  have hvalues : (reports (some 2) (some 1)).values.mapM id = some [1, 2] := by decide
  have hmajority := peerMajority_iff (s := leading [⟨10, 1⟩, ⟨20, 1⟩] (some 2) (some 1)) htrack
    hvalues (n := 1) (by decide)
  refine (commitsUpTo_iff _ _ (reports (some 2) (some 1)) _ rfl htrack (by decide) 1
    ⟨by decide, ⟨_, rfl, rfl⟩, by decide⟩).mpr ?_
  exact ⟨fun p hp => lookup_of_values htrack hvalues hp, (hmajority 1).mpr le_rfl, 1, _, hmajority,
    rfl, rfl, by decide⟩

/-- Both peers have reported index 1, which is committed. -/
theorem raised_first : ∃ s' apps,
    State.advanceCommitIndex (leading [⟨10, 1⟩, ⟨20, 1⟩] (some 2) (some 1)) = .ok (s', apps) ∧
      Raised (leading [⟨10, 1⟩, ⟨20, 1⟩] (some 2) (some 1)) s' (reports (some 2) (some 1)) 1 := by
  have hcommit : (State.advanceCommitIndex (leading [⟨10, 1⟩, ⟨20, 1⟩] (some 2) (some 1))).map
      (fun x => x.1.c.commitIndex) = .ok (some 1) := by decide
  obtain ⟨hsound, hreturns⟩ := advanceCommitIndex_sound
    (leading [⟨10, 1⟩, ⟨20, 1⟩] (some 2) (some 1)) _ (reports (some 2) (some 1)) _ rfl (by decide)
    (by decide) (by decide)
  obtain ⟨s', apps, h⟩ := hreturns (by decide) (by decide) (by decide)
  rw [h] at hcommit
  have hsome : s'.c.commitIndex = some 1 := Except.ok.inj hcommit
  refine ⟨s', apps, h, ?_⟩
  obtain hnone | ⟨n, hn⟩ := (hsound s' apps h).2
  · rw [hsome] at hnone
    cases hnone
  · obtain rfl := Option.some.inj (hn.commit.symm.trans hsome)
    exact hn

end Example

end Miniraft
