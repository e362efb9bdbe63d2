import Miniraft.Theory.Preservation

/-!
# Leader completeness

What is chosen in a term is in the log with which every later leader was elected
(`Inv.completeness`), so that any two chosen segments are segments of one another
(`Inv.chosen_total`). A log segment is `Committed` by term `T` if it is part of something chosen
in a term up to `T`; taking over a leader's log never removes a committed segment
(`Inv.committed_takeOver`).
-/

namespace Consensus.Replication

variable {N E : Type*} [DecidableEq N] {tm : E → ℕ} {M : Finset N} {g g' : Replication N E}
  {n n' T T' : ℕ} {p c : N} {l v : List E}

omit [DecidableEq N] in
theorem Chosen.le_length (h : Chosen tm M g T n) : n ≤ (g.leaderLog T).length := by
  obtain ⟨e, he, -⟩ := h.last
  have := (List.getElem?_eq_some_iff.mp he).1
  have := h.pos
  omega

theorem Chosen.leader_ne_none (H : g.Inv tm M) (h : Chosen tm M g T n) : g.leader T ≠ none := by
  obtain ⟨Q, hQ, hq⟩ := h.quorum
  obtain ⟨p, hp, -⟩ := hQ.exists_mem hQ
  rcases H.leader_ne_none (hq p hp) with hl | rfl
  · exact hl
  · exact absurd h.pos (lt_irrefl 0)

omit [DecidableEq N] in
/-- A log that has the chosen segment and entries up to date with it passes it on: either the
logs end in the term in which it was chosen, or in a later one whose leader had it already. -/
theorem Inv.upToDate_chosen (H : g.Inv tm M) (h : Chosen tm M g T n) (hl : g.Sound tm l)
    (hv : g.Sound tm v) (hup : UpToDate tm l v) (hseg : (g.leaderLog T).take n <+: v)
    (hlater : ∀ U, T < U → (∃ e ∈ l, tm e = U) → (g.leaderLog T).take n <+: g.base U) :
    (g.leaderLog T).take n <+: l := by
  obtain ⟨a, ha, hat⟩ := h.last
  have hpos := h.pos
  have hlen : n ≤ v.length := by
    have := hseg.length_le
    have := h.le_length
    simp only [List.length_take] at *
    omega
  have hva : v[n - 1]? = some a := hseg.getElem?_eq (by
    rw [List.getElem?_take_of_lt (by omega)]; exact ha)
  obtain ⟨b, hb⟩ : ∃ b, b ∈ v.getLast? := by
    cases hlast : v.getLast? with
    | none => simp_all
    | some b => exact ⟨b, rfl⟩
  have hTb : T ≤ tm b := hat ▸ hv.le_last hva hb
  obtain ⟨f, hf, hbf⟩ := hup b hb
  have hlU := hl.le_leaderLog hf
  have hfl : f ∈ l := List.mem_of_mem_getLast? hf
  rcases Nat.lt_or_ge T (tm f) with hlt | hge
  · have hbase := hlater _ hlt ⟨f, hfl, rfl⟩
    have hleader : g.leader (tm f) ≠ none := by
      rw [Option.mem_def, List.getLast?_eq_getElem?] at hf
      exact (hl.origin hf).1
    refine (hbase.trans (H.base_le hleader)).take_le hlU ?_
    by_contra hshort
    -- The last entry of `l` would lie inside the segment, where terms are below its own.
    have hi : l.length - 1 < (g.base (tm f)).length := by
      have := hbase.length_le
      have := h.le_length
      simp only [List.length_take] at *
      omega
    have hfU : (g.leaderLog (tm f))[l.length - 1]? = some f := hlU.getElem?_eq (by
      rw [← List.getLast?_eq_getElem?]; exact hf)
    rw [← (H.base_le hleader).getElem?_of_lt hi] at hfU
    exact absurd (H.base_lt hleader f (List.mem_of_getElem? hfU)) (lt_irrefl _)
  · have hft : tm f = T := by omega
    have hlens : v.length ≤ l.length := by
      rcases hbf with hbf | ⟨-, hbf⟩
      · omega
      · exact hbf
    rw [hft] at hlU
    exact ( List.take_prefix ..).take_le hlU (by omega)

/-- **Leader completeness**: every later leader was elected with what is chosen. -/
theorem Inv.completeness (H : g.Inv tm M) (h : Chosen tm M g T n) (hT : T < T')
    (hl : g.leader T' ≠ none) : (g.leaderLog T).take n <+: g.base T' := by
  induction T' using Nat.strong_induction_on with
  | _ T' ih =>
    obtain ⟨c, hc⟩ := Option.ne_none_iff_exists'.mp hl
    obtain ⟨Q, hQ, hack⟩ := h.quorum
    obtain ⟨Q', hQ', helect⟩ := H.elected hc
    obtain ⟨p, hp, hp'⟩ := hQ.exists_mem hQ'
    obtain ⟨hvote, hup, hkept⟩ := helect p hp'
    have hbase : g.Sound tm (g.base T') := (H.leaderLog_sound hl).of_le (H.base_le hl)
    have hseg : (g.leaderLog T).take n <+: g.ballot p T' := by
      rcases hkept hT (hack p hp) with hseg | ⟨U, h1, h2, h3, h4⟩
      · exact hseg
      · exact absurd (ih U (by omega) h1 h3) h4
    refine H.upToDate_chosen h hbase (H.ballot_sound hvote) hup hseg ?_
    rintro U hU ⟨e, he, rfl⟩
    obtain ⟨i, hi⟩ := List.getElem?_of_mem he
    exact ih _ (H.base_lt hl e he) hU (hbase.origin hi).1

/-- A chosen segment is in the log of every leader of its term or a later one. -/
theorem Inv.chosen_le_leaderLog (H : g.Inv tm M) (h : Chosen tm M g T n) (hT : T ≤ T')
    (hl : g.leader T' ≠ none) : (g.leaderLog T).take n <+: g.leaderLog T' := by
  rcases hT.eq_or_lt with rfl | hT
  · exact List.take_prefix ..
  · exact (H.completeness h hT hl).trans (H.base_le hl)

/-- Of any two chosen segments one is part of the other. -/
theorem Inv.chosen_total (H : g.Inv tm M) (h : Chosen tm M g T n) (h' : Chosen tm M g T' n') :
    (g.leaderLog T).take n <+: (g.leaderLog T').take n' ∨
      (g.leaderLog T').take n' <+: (g.leaderLog T).take n := by
  rcases le_total T T' with hT | hT
  · exact List.prefix_or_prefix_of_prefix
      (H.chosen_le_leaderLog h hT (h'.leader_ne_none H)) ( List.take_prefix ..)
  · exact List.prefix_or_prefix_of_prefix ( List.take_prefix ..)
      (H.chosen_le_leaderLog h' hT (h.leader_ne_none H))

/-- `l` is part of something chosen in a term up to `T`. -/
def Committed (tm : E → ℕ) (M : Finset N) (g : Replication N E) (T : ℕ) (l : List E) : Prop :=
  l = [] ∨ ∃ T' n, T' ≤ T ∧ Chosen tm M g T' n ∧ l <+: (g.leaderLog T').take n

omit [DecidableEq N] in
theorem Chosen.committed (h : Chosen tm M g T n) :
    Committed tm M g T ((g.leaderLog T).take n) :=
  .inr ⟨T, n, le_rfl, h, List.prefix_rfl⟩

theorem Chosen.mono (H : g.Inv tm M) (h : Chosen tm M g T n) (hle : Le g g') :
    Chosen tm M g' T n ∧ (g'.leaderLog T).take n = (g.leaderLog T).take n := by
  have hle' := hle.leaderLog (h.leader_ne_none H)
  obtain ⟨e, he, het⟩ := h.last
  obtain ⟨Q, hQ, hq⟩ := h.quorum
  exact ⟨⟨h.pos, ⟨e, hle'.getElem?_eq he, het⟩,
    ⟨Q, hQ, fun p hp => (hq p hp).trans (hle.acked p T)⟩⟩, hle'.take_eq h.le_length⟩

theorem Committed.mono (H : g.Inv tm M) (h : Committed tm M g T l) (hle : Le g g')
    (hT : T ≤ T') : Committed tm M g' T' l := by
  rcases h with rfl | ⟨U, n, hU, hch, hp⟩
  · exact .inl rfl
  · obtain ⟨hch', heq⟩ := hch.mono H hle
    exact .inr ⟨U, n, hU.trans hT, hch', heq ▸ hp⟩

omit [DecidableEq N] in
theorem Committed.of_le (h : Committed tm M g T l) (hv : v <+: l) : Committed tm M g T v := by
  rcases h with rfl | ⟨U, n, hU, hch, hp⟩
  · exact .inl (List.prefix_nil.mp hv)
  · exact .inr ⟨U, n, hU, hch, hv.trans hp⟩

theorem Committed.sound (H : g.Inv tm M) (h : Committed tm M g T l) : g.Sound tm l := by
  rcases h with rfl | ⟨U, n, -, hch, hp⟩
  · exact ⟨.nil, by simp⟩
  · exact (H.leaderLog_sound (hch.leader_ne_none H)).of_le (hp.trans ( List.take_prefix ..))

/-- Of any two committed segments one is part of the other. -/
theorem Inv.committed_total (H : g.Inv tm M) (h : Committed tm M g T l)
    (h' : Committed tm M g T' v) : l <+: v ∨ v <+: l := by
  rcases h with rfl | ⟨U, n, -, hch, hp⟩
  · exact .inl List.nil_prefix
  rcases h' with rfl | ⟨U', n', -, hch', hp'⟩
  · exact .inr List.nil_prefix
  rcases H.chosen_total hch hch' with hc | hc
  · exact List.prefix_or_prefix_of_prefix (hp.trans hc) hp'
  · exact List.prefix_or_prefix_of_prefix hp (hp'.trans hc)

/-- What is committed by a term is in the log of its leader. -/
theorem Inv.committed_le_leaderLog (H : g.Inv tm M) (h : Committed tm M g T l) (hT : T ≤ T')
    (hl : g.leader T' ≠ none) : l <+: g.leaderLog T' := by
  rcases h with rfl | ⟨U, n, hU, hch, hp⟩
  · exact List.nil_prefix
  · exact hp.trans (H.chosen_le_leaderLog hch (hU.trans hT) hl)

/-- Taking over a segment of the leader's log keeps what is committed. -/
theorem Inv.committed_takeOver (H : g.Inv tm M) (h : Committed tm M g T v) (hv : v <+: l)
    (hw : w <+: g.leaderLog T) (hl : g.leader T ≠ none) : v <+: takeOver l w := by
  rcases takeOver_cases l w with he | he
  · rwa [he]
  rcases List.prefix_or_prefix_of_prefix (H.committed_le_leaderLog h le_rfl hl) hw with hvw | hwv
  · rwa [he]
  · rwa [takeOver_of_le (hwv.trans hv)]

end Consensus.Replication
