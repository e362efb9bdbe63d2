import Miniraft.Raft.Host
import Miniraft.Verify.FileMoF
import Miniraft.Verify.Restart
import Miniraft.Verify.Terms
import Miniraft.Verify.Votes

/-!
# Hosts are nodes

Wherever a host fails, its file has a snapshot that can be restored. So whatever its process goes
through, a host is a node of the cluster in which persisting a snapshot is a single step that
succeeds or does not: a cycle that has failed behind its renaming is one that has succeeded, with
responses that get lost (`Hosts.refines_cluster`). What holds of all runs of a cluster then holds of hosts.
-/

namespace Miniraft

open Calls (Method)
open Files (Disk ErrorKind)
open Files.Disk (machine)
open Json

/-- The commands of a store whose keys and values are these. -/
abbrev StoreCommand (k v : Scalar) : Type := Command String k.Carrier v.Carrier

instance : (t : Scalar) → DecidableEq t.Carrier
  | .u64 => inferInstanceAs (DecidableEq UInt64)
  | .i64 => inferInstanceAs (DecidableEq Int64)
  | .string => inferInstanceAs (DecidableEq String)

variable {k v : Scalar}

/-! ## Restoring -/

theorem readToString_ok {s : String} : readToString (.ok (asBytes s)) = .ok s := by
  have hutf8 : utf8 (asBytes s) = some s := fromUTF8?_eq_some_iff_asBytes.mpr rfl
  rw [readToString, hutf8]

section

variable {Cmd : Type} [Deserialize Cmd] {h : Host Cmd} {i : String}

theorem restored_of_none (hc : h.disk.content (persistencePath i) = none) :
    h.restored i = .ok .default := by
  rw [Host.restored, Disk.read, hc]
  rfl

theorem restored_of_nil (hc : h.disk.content (persistencePath i) = some []) :
    h.restored i = .ok .default := by
  rw [Host.restored, Disk.read, hc, ← asBytes_empty, restoreState, readToString_ok]
  rfl

theorem restored_congr {h' : Host Cmd}
    (hc : h'.disk.content (persistencePath i) = h.disk.content (persistencePath i)) :
    h'.restored i = h.restored i := by
  rw [Host.restored, Host.restored, Disk.read, Disk.read, hc]

end

theorem not_restore_nil {p : Persistent String (StoreCommand k v)} :
    Persistent.restore [] ≠ .ok p := by
  have hparse : (parse []).isOk = false := by decide
  intro h
  cases hp : parse [] with
  | error e =>
    rw [Persistent.restore, hp] at h
    cases h
  | ok jval =>
    rw [hp] at hparse
    cases hparse

theorem restored_persist {h : Host (StoreCommand k v)} {i : String} {order : Iteration}
    {p : Persistent String (StoreCommand k v)} (hp : p.InRange)
    (hc : h.disk.content (persistencePath i) = some (p.persist order)) :
    h.restored i = .ok p.wire := by
  have hrestore : Persistent.restore (p.persist order) = .ok p.wire :=
    restore_persist (codes_command (codes_scalar k) (codes_scalar v)) order hp
  have hempty : (order.reorder (serialize p)).print.isEmpty = false := by
    rw [Bool.eq_false_iff]
    intro hempty
    have hnil : p.persist order = [] := by
      rw [Persistent.persist, String.isEmpty_iff.mp hempty, asBytes_empty]
    exact not_restore_nil (hnil ▸ hrestore)
  rw [Host.restored, Disk.read, hc, Persistent.persist]
  show restoreState (.ok _) = _
  rw [restoreState, readToString_ok]
  simp only [hempty, Bool.false_eq_true, if_false]
  exact congrArg (Except.mapError _) hrestore

/-! ## What is on disk, and the other threads -/

namespace Node

variable {NodeID Cmd : Type} [DecidableEq NodeID] [Wire Cmd] {n n' : Node NodeID Cmd}
  {a : Action NodeID Cmd} {msgs : Outgoing NodeID Cmd}

/-- Threads do not read what is stored. -/
theorem step_stored (hs : n.step a = .ok (n', msgs)) (ha : a.onDisk = false)
    (stored : Persistent NodeID Cmd) :
    { n with stored }.step a = .ok ({ n' with stored }, msgs) := by
  cases a with
  | persist _ | crash => cases ha
  | election clk | replicate clk =>
    simp only [step, Except.bind_eq_ok_iff, Except.pure_eq_ok_iff, Prod.mk.injEq] at hs ⊢
    obtain ⟨x, hx, rfl, rfl⟩ := hs
    exact ⟨x, hx, rfl, rfl⟩
  | receive _ _ | handle _ | snapshot | clientReplicate _ =>
    simp only [step] at hs ⊢
    split at hs
    · simp only [Except.bind_eq_ok_iff, Except.pure_eq_ok_iff, Prod.mk.injEq] at hs ⊢
      obtain ⟨x, hx, rfl, rfl⟩ := hs
      exact ⟨x, hx, rfl, rfl⟩
    · cases hs
  | respond | clientRequest _ | clientAppend =>
    simp only [step] at hs ⊢
    split at hs
    · simp only [Except.pure_eq_ok_iff, Prod.mk.injEq] at hs ⊢
      obtain ⟨rfl, rfl⟩ := hs
      exact ⟨rfl, rfl⟩
    · cases hs

theorem stored_eq (hs : n.step a = .ok (n', msgs)) (ha : a.onDisk = false) :
    n'.stored = n.stored := by
  have hstored := hs.symm.trans (step_stored hs ha n.stored)
  exact congrArg (fun x => x.1.stored) (Except.ok.inj hstored)

/-- The other threads do not know where the Raft-message loop is. -/
theorem step_raftLoop (hs : n.step a = .ok (n', msgs)) (ha : a.onDisk = false)
    (hloop : a.inRaftLoop = false) (raftLoop : RaftLoop NodeID Cmd) :
    { n with raftLoop }.step a = .ok ({ n' with raftLoop }, msgs) ∧ n'.raftLoop = n.raftLoop := by
  cases a with
  | crash => cases ha
  | receive _ _ | handle _ | snapshot | persist _ | respond => cases hloop
  | election clk | replicate clk =>
    simp only [step, Except.bind_eq_ok_iff, Except.pure_eq_ok_iff, Prod.mk.injEq] at hs ⊢
    obtain ⟨x, hx, rfl, rfl⟩ := hs
    exact ⟨⟨x, hx, rfl, rfl⟩, rfl⟩
  | clientReplicate _ =>
    simp only [step] at hs ⊢
    split at hs
    · simp only [Except.bind_eq_ok_iff, Except.pure_eq_ok_iff, Prod.mk.injEq] at hs ⊢
      obtain ⟨x, hx, rfl, rfl⟩ := hs
      exact ⟨⟨x, hx, rfl, rfl⟩, rfl⟩
    · cases hs
  | clientRequest _ | clientAppend =>
    simp only [step] at hs ⊢
    split at hs
    · simp only [Except.pure_eq_ok_iff, Prod.mk.injEq] at hs ⊢
      obtain ⟨rfl, rfl⟩ := hs
      exact ⟨⟨rfl, rfl⟩, rfl⟩
    · cases hs

/-- Steps of a node, one after the other, with all their messages. -/
inductive Steps : Node NodeID Cmd → List (Action NodeID Cmd) → Node NodeID Cmd →
    Outgoing NodeID Cmd → Prop where
  | nil {n : Node NodeID Cmd} : Steps n [] n []
  | cons {n n₁ n₂ : Node NodeID Cmd} {a : Action NodeID Cmd} {as : List (Action NodeID Cmd)}
    {msgs msgs' : Outgoing NodeID Cmd} (hs : n.step a = .ok (n₁, msgs))
    (h : Steps n₁ as n₂ msgs') : Steps n (a :: as) n₂ (msgs ++ msgs')

end Node

/-- What the Raft-message loop does with a snapshot. -/
def Action.onSnapshot {NodeID Cmd : Type} : Action NodeID Cmd → Bool
  | .persist _ | .respond => true
  | _ => false

/-! ## One host -/

namespace Host

variable {site : Site} {cfg : Config String} {i : String} {h h' : Host (StoreCommand k v)}
  {n : Node String (StoreCommand k v)} {a : HostAction (StoreCommand k v)}
  {msgs : Outgoing String (StoreCommand k v)} {p q : Persistent String (StoreCommand k v)}
  {d d' : Disk} {order : Iteration}

/-- A node shows what a host is. They agree but for what is stored, which is what would be restored,
and for where the Raft-message loop is once its thread is gone. -/
structure Shows (site : Site) (i : String) (h : Host (StoreCommand k v))
    (n : Node String (StoreCommand k v)) : Prop where
  eq : { h.node with stored := n.stored, raftLoop := n.raftLoop } = n
  stored : h.restored i = .ok n.stored
  raftLoop : ∀ f, h.process = .running (some f) → n.raftLoop = h.node.raftLoop
  idle : ∀ f, h.process = .running (some f) →
    FileMoF.Idle site.tempDir (persistencePath i) f h.disk

/-- No thread persists any more. -/
theorem Shows.gone (heq : { h.node with stored := n.stored, raftLoop := n.raftLoop } = n)
    (hstored : h.restored i = .ok n.stored) (hgone : ∀ f, h.process ≠ .running (some f)) :
    h.Shows site i n :=
  ⟨heq, hstored, fun f hf => absurd hf (hgone f), fun f hf => absurd hf (hgone f)⟩

/-- At every moment of a cycle the old state would be restored, or the snapshot. -/
theorem restored_of_swaps (hp : p.InRange)
    (hswaps : FileMoF.Swaps (persistencePath i) (p.persist order) d d')
    {m m' : Node String (StoreCommand k v)} {process process' : Process}
    (hq : (⟨m, process, d⟩ : Host (StoreCommand k v)).restored i = .ok q) :
    (⟨m', process', d'⟩ : Host (StoreCommand k v)).restored i = .ok q ∨
      (⟨m', process', d'⟩ : Host (StoreCommand k v)).restored i = .ok p.wire := by
  rcases hswaps with hold | hnew
  · exact .inl (hq ▸ restored_congr (h := ⟨m, process, d⟩) hold)
  · exact .inr (restored_persist (h := ⟨m', process', d'⟩) hp hnew)

/-- What is restored is what would be restored. -/
theorem restored_of_read {Cmd : Type} [Deserialize Cmd] {h : Host Cmd}
    {read : Except ErrorKind (List UInt8)} {p : Persistent String Cmd}
    (hread : read = h.disk.read (persistencePath i) ∨ ∃ e, e ≠ .notFound ∧ read = .error e)
    (hp : restoreState read = .ok p) : h.restored i = .ok p := by
  rcases hread with rfl | ⟨e, he, rfl⟩
  · exact hp
  · cases e with
    | notFound => exact absurd rfl he
    | writeZero | invalidFilename | other => cases hp

/-- Every step of a host is a step of the node, or is made of steps of the node that do not read its
state and may send more. -/
theorem Shows.step (hapart : FileMoF.Apart site.draws site.tempDir (persistencePath i))
    (H : h.Shows site i n) (hfit : n.TermsFit) (hid : n.state.c.id = i)
    (hpeers : n.state.c.nodeIds = cfg.peers i) (hs : Step site cfg i h a h' msgs) :
    (∃ b n', a.action = some b ∧ n.step b = .ok (n', msgs) ∧ h'.Shows site i n') ∨
      ∃ as n' msgs', (∀ b ∈ as, b.onSnapshot = true) ∧ n.Steps as n' msgs' ∧ msgs ⊆ msgs' ∧
        h'.Shows site i n' := by
  obtain ⟨heq, hstored, hraft, hidle⟩ := H
  generalize n.stored = q at heq hstored
  generalize n.raftLoop = L at heq hraft
  subst heq
  cases hs with
  | @thread m m' b _ file d hs ha hfile =>
    left
    have hstep := Node.step_stored hs ha q
    cases hloop : b.inRaftLoop with
    | true =>
      obtain ⟨f, rfl⟩ := Option.isSome_iff_exists.mp (hfile hloop)
      obtain rfl := hraft f rfl
      exact ⟨b, _, rfl, hstep, rfl, hstored, fun _ _ => rfl, hidle⟩
    | false =>
      obtain ⟨hstep, hsame⟩ := Node.step_raftLoop hstep ha hloop L
      refine ⟨b, _, rfl, hstep, rfl, hstored, fun f hf => ?_, hidle⟩
      exact (hraft f hf).trans hsame.symm
  | @persist m m' p responses _ order f f' d d' r hloop hcycle hr hs =>
    right
    obtain rfl := (hraft f rfl).trans hloop
    have hp : p.InRange := hfit.snapshot p responses rfl
    have halways := FileMoF.always_persistCycle (p.persist order) hapart (hidle f rfl)
    obtain ⟨hidle', hok⟩ := halways.returns hcycle
    simp only [Node.step, hloop] at hs
    cases r with
    | ok _ =>
      simp only [Except.isOk, Except.toBool, if_true, Except.pure_eq_ok_iff, Prod.mk.injEq] at hs
      obtain ⟨rfl, rfl⟩ := hs
      refine ⟨[.persist true], _, _, by simp [Action.onSnapshot], .cons rfl .nil,
        List.Subset.refl _, rfl, ?_, fun _ _ => rfl, fun g hg => ?_⟩
      · exact restored_persist (h := ⟨_, _, d'⟩) hp (hok rfl).1
      · cases hg
        exact hidle'
    | error e =>
      simp only [Except.isOk, Except.toBool, Bool.false_eq_true, if_false, Except.pure_eq_ok_iff,
        Prod.mk.injEq] at hs
      obtain ⟨rfl, rfl⟩ := hs
      have hidle'' : ∀ g, Process.running (some f') = .running (some g) →
          FileMoF.Idle site.tempDir (persistencePath i) g d' := by
        rintro g ⟨⟩
        exact hidle'
      rcases restored_of_swaps hp (halways.moment hcycle.moment) hstored with hold | hnew
      · exact ⟨[.persist false], _, _, by simp [Action.onSnapshot], .cons rfl .nil,
          List.Subset.refl _, rfl, hold, fun _ _ => rfl, hidle''⟩
      -- The snapshot is there, but its responses are dropped.
      · exact ⟨[.persist true, .respond], _, _, by simp [Action.onSnapshot],
          .cons rfl (.cons rfl .nil), List.nil_subset _, rfl, hnew, fun _ _ => rfl, hidle''⟩
  | @panic m p responses order f f' d d' hloop hcycle =>
    right
    obtain rfl := (hraft f rfl).trans hloop
    have hp : p.InRange := hfit.snapshot p responses rfl
    have halways := FileMoF.always_persistCycle (p.persist order) hapart (hidle f rfl)
    rcases restored_of_swaps hp (halways.moment hcycle.moment) hstored with hold | hnew
    · exact ⟨[], _, _, by simp, .nil, List.Subset.refl _, .gone rfl hold (by simp)⟩
    · exact ⟨[.persist true], _, _, by simp [Action.onSnapshot], .cons rfl .nil,
        List.nil_subset _, .gone rfl hnew (by simp)⟩
  | @unwind m f d d' hdrop =>
    right
    have hspares := (FileMoF.always_drop (x := ()) (hidle f rfl).buf).moment hdrop
    exact ⟨[], _, _, by simp, .nil, List.Subset.refl _,
      .gone rfl (hstored ▸ restored_congr (h := ⟨m, _, d⟩) hspares.content) (by simp)⟩
  | kill => exact .inr ⟨[], _, _, by simp, .nil, List.Subset.refl _, .gone rfl hstored (by simp)⟩
  | @killPersisting m p responses order f d d' hloop hcycle =>
    right
    obtain rfl := (hraft f rfl).trans hloop
    have hp : p.InRange := hfit.snapshot p responses rfl
    have halways := FileMoF.always_persistCycle (p.persist order) hapart (hidle f rfl)
    rcases restored_of_swaps hp (halways.moment hcycle) hstored with hold | hnew
    · exact ⟨[], _, _, by simp, .nil, List.Subset.refl _, .gone rfl hold (by simp)⟩
    · exact ⟨[.persist true], _, _, by simp [Action.onSnapshot], .cons rfl .nil,
        List.nil_subset _, .gone rfl hnew (by simp)⟩
  | @start m read p f d d' hread hp hnew =>
    left
    have hrestored : (⟨m, .down, d⟩ : Host (StoreCommand k v)).restored i = .ok p :=
      restored_of_read (h := ⟨m, .down, d⟩) hread hp
    obtain rfl : p = q := Except.ok.inj (hrestored.symm.trans hstored)
    obtain ⟨hspares, hidle'⟩ := (FileMoF.always_new hapart).returns hnew
    subst hid
    refine ⟨.crash, _, rfl, rfl, ?_, ?_, fun _ _ => rfl, fun g hg => ?_⟩
    · rw [← hpeers]
    · exact hstored ▸ restored_congr (h := ⟨m, _, d⟩) hspares.content
    · cases hg
      exact hidle' f rfl
  | @abort m d d' hnew =>
    right
    have hspares := (FileMoF.always_new hapart).moment hnew
    exact ⟨[], _, _, by simp, .nil, List.Subset.refl _,
      .gone rfl (hstored ▸ restored_congr (h := ⟨m, _, d⟩) hspares.content) (by simp)⟩

end Host

/-! ## All hosts -/

namespace Cluster

/-- A condition on steps that depends on what hosts show: on where the Raft-message loop is only at
its own steps, and not at all on how a snapshot gets to the disk. -/
structure Visible {NodeID Cmd : Type} (P : Cluster NodeID Cmd → Label NodeID Cmd → Prop) :
    Prop where
  onSnapshot : ∀ c i a, a.onSnapshot = true → P c (i, a)
  congr : ∀ c c' i a, (∀ j, (c'.nodes j).state = (c.nodes j).state ∧
    (c'.nodes j).stored = (c.nodes j).stored ∧ (c'.nodes j).history = (c.nodes j).history) →
    (a.inRaftLoop → (c'.nodes i).raftLoop = (c.nodes i).raftLoop) → P c (i, a) → P c' (i, a)

variable {NodeID Cmd : Type}

theorem visible_crashesPersisted :
    Visible (CrashesPersisted : Cluster NodeID Cmd → Label NodeID Cmd → Prop) where
  onSnapshot c i a ha hcrash := by
    cases a with
    | crash => cases ha
    | _ => cases hcrash
  congr c c' i a hsame _ hP := by
    obtain ⟨-, hstored, hhistory⟩ := hsame i
    intro hcrash T hT
    rw [hstored]
    exact hP hcrash T (hhistory ▸ hT)

variable [Wire Cmd] [DecidableEq NodeID]

theorem visible_recoverable :
    Visible (Recoverable : Cluster NodeID Cmd → Label NodeID Cmd → Prop) where
  onSnapshot c i a ha := by
    cases a with
    | persist ok => exact ⟨nofun, nofun, trivial⟩
    | respond => exact ⟨nofun, nofun, trivial⟩
    | _ => cases ha
  congr c c' i a hsame hloop hP := by
    obtain ⟨hcrash, happend, hacked⟩ := hP
    obtain ⟨hstate, hstored, -⟩ := hsame i
    refine ⟨fun ha => ?_, fun ha => hstate ▸ happend ha, ?_⟩
    · rw [Node.Saved, hstate, hstored]
      exact hcrash ha
    · cases a with
      | handle clk =>
        simp only [AckBacked, hloop rfl, hstate] at hacked ⊢
        split
        · next p T idx heq hp =>
          cases heq
          simp only [hp] at hacked
          rwa [(hsame p).2.2]
        · trivial
      | _ => trivial

variable [DecidableEq Cmd] {cfg : Config NodeID} {c : Cluster NodeID Cmd} {i : NodeID}
  {P : Cluster NodeID Cmd → Label NodeID Cmd → Prop}

omit [DecidableEq NodeID] [DecidableEq Cmd] in
/-- Safety is about the states of nodes and what they have applied. -/
theorem Safe.congr {c' d d' : Cluster NodeID Cmd} (h : Safe cfg c c')
    (hd : ∀ i, (d.nodes i).state = (c.nodes i).state ∧ (d.nodes i).history = (c.nodes i).history)
    (hd' : ∀ i, (d'.nodes i).state = (c'.nodes i).state ∧
      (d'.nodes i).history = (c'.nodes i).history) : Safe cfg d d' where
  election i hi j hj := by
    rw [(hd i).1, (hd' j).1]
    exact h.election i hi j hj
  matching i hi j hj := by
    rw [(hd i).1, (hd' j).1]
    exact h.matching i hi j hj
  completeness i hi j hj := by
    rw [(hd i).1, (hd' j).1]
    exact h.completeness i hi j hj
  application i hi j hj := by
    rw [(hd i).2, (hd' j).2]
    exact h.application i hi j hj

omit [Wire Cmd] [DecidableEq NodeID] [DecidableEq Cmd] in
theorem deliverable_of_onSnapshot {a : Action NodeID Cmd} (ha : a.onSnapshot = true) :
    c.Deliverable i a := by
  cases a <;> first | exact trivial | cases ha

theorem step_of_node {a : Action NodeID Cmd} {n : Node NodeID Cmd} {msgs : Outgoing NodeID Cmd}
    (hi : i ∈ cfg.ids) (hdel : c.Deliverable i a) (hs : (c.nodes i).step a = .ok (n, msgs)) :
    c.step cfg (i, a) = .ok (c.update i n msgs) := by
  simp only [step, hi, hdel, and_self, if_true, hs]
  rfl

/-- Steps of a node that take a snapshot to the disk. -/
theorem run_of_steps {as : List (Action NodeID Cmd)} {n : Node NodeID Cmd}
    {msgs : Outgoing NodeID Cmd} (hP : Visible P) (hi : i ∈ cfg.ids)
    (has : ∀ a ∈ as, a.onSnapshot = true) (hs : (c.nodes i).Steps as n msgs) :
    ∃ c', Run (step cfg) P c c' ∧ c'.nodes i = n ∧ (∀ j, j ≠ i → c'.nodes j = c.nodes j) ∧
      c.network ⊆ c'.network ∧ ∀ x ∈ msgs, ⟨i, x.1, x.2.wire⟩ ∈ c'.network := by
  generalize hn : c.nodes i = n₀ at hs
  induction hs generalizing c with
  | nil => exact ⟨c, .refl, hn, fun _ _ => rfl, List.Subset.refl _, by simp⟩
  | @cons n₀ n₁ n₂ a as msgs msgs' hstep _ ih =>
    subst hn
    obtain ⟨ha, has⟩ := List.forall_mem_cons.mp has
    have hs := step_of_node hi (deliverable_of_onSnapshot ha) hstep
    obtain ⟨c', hrun, hnode, hothers, hsub, hmsgs⟩ :=
      ih has (c := c.update i n₁ msgs) (update_self ..)
    refine ⟨c', .head ⟨_, hP.onSnapshot c i a ha, hs⟩ hrun, hnode, fun j hj => ?_,
      List.Subset.trans (subset_update n₁ msgs) hsub, fun x hx => ?_⟩
    · rw [hothers j hj, update_of_ne hj]
    · rcases List.mem_append.mp hx with hx | hx
      · exact hsub (mem_update.mpr (.inr ⟨x, hx, rfl⟩))
      · exact hmsgs x hx

end Cluster

namespace Hosts

variable {site : Site} {cfg : Config String} {c c' c'' : Hosts (StoreCommand k v)}
  {C C' : Cluster String (StoreCommand k v)}
  {P : Cluster String (StoreCommand k v) → Label String (StoreCommand k v) → Prop}

/-- A cluster shows what the hosts are. More messages may have been sent in it. -/
structure Shows (site : Site) (cfg : Config String) (c : Hosts (StoreCommand k v))
    (C : Cluster String (StoreCommand k v)) : Prop where
  wf : C.WellFormed cfg
  fit : C.TermsFit
  host : ∀ i, (c.hosts i).Shows site i (C.nodes i)
  sent : c.network ⊆ C.network

theorem Fresh.shows (h : Fresh cfg c) : c.Shows site cfg (.boot cfg) where
  wf := .boot
  fit := Cluster.termsFit_boot cfg
  host i := by
    have hdown : ∀ f, (c.hosts i).process ≠ .running f := by
      rw [h.process i]
      exact nofun
    refine ⟨?_, ?_, fun f hf => absurd hf (hdown _), fun f hf => absurd hf (hdown _)⟩
    · rw [h.node i]
      rfl
    · rcases h.disk i with hc | hc
      · exact restored_of_none hc
      · exact restored_of_nil hc
  sent := by
    rw [h.network]
    exact List.nil_subset _

theorem Shows.state (H : c.Shows site cfg C) (i : String) :
    (C.nodes i).state = (c.hosts i).node.state := by
  rw [← (H.host i).eq]

theorem Shows.history (H : c.Shows site cfg C) (i : String) :
    (C.nodes i).history = (c.hosts i).node.history := by
  rw [← (H.host i).eq]

/-- What is seen of the hosts is seen of the cluster. -/
theorem Shows.visible (H : c.Shows site cfg C) (hP : Cluster.Visible P) {i : String}
    {a : Action String (StoreCommand k v)}
    (hloop : a.inRaftLoop → (C.nodes i).raftLoop = (c.hosts i).node.raftLoop)
    (h : P c.view (i, a)) : P C (i, a) := by
  refine hP.congr c.view C i a (fun j => ⟨H.state j, ?_, H.history j⟩) hloop h
  show _ = ((c.hosts j).restored j).toOption.getD .default
  rw [(H.host j).stored]
  rfl

/-- Every step of a host is answered by the cluster. -/
theorem Shows.step (hP : Cluster.Visible P)
    (hapart : ∀ i ∈ cfg.ids, FileMoF.Apart site.draws site.tempDir (persistencePath i))
    (H : c.Shows site cfg C) {l : String × HostAction (StoreCommand k v)}
    (hl : ∀ a, l.2.action = some a → P c.view (l.1, a)) (hs : Step site cfg c l c') :
    ∃ C', Run (Cluster.step cfg) P C C' ∧ c'.Shows site cfg C' := by
  cases hs with
  | @host i a h msgs hi hdel hs =>
    have hothers : ∀ {C' : Cluster String (StoreCommand k v)} j, j ≠ i →
        C'.nodes j = C.nodes j → ((c.update i h msgs).hosts j).Shows site j (C'.nodes j) := by
      intro C' j hj hnode
      rw [hnode]
      show Host.Shows site j (if j = i then h else c.hosts j) _
      rw [if_neg hj]
      exact H.host j
    have hself : (c.update i h msgs).hosts i = h := if_pos rfl
    rcases (H.host i).step (hapart i hi) (H.fit.node i) (H.wf.id i) (H.wf.peers i) hs with
      ⟨b, n, hb, hn, hshows⟩ | ⟨as, n, msgs', has, hsteps, hsub, hshows⟩
    · have hdel' : C.Deliverable i b := by
        cases b with
        | receive peer msg =>
          have hthread : a = .thread (.receive peer msg) := by
            cases a <;> cases hb
            rfl
          obtain ⟨e, he, hsource⟩ := hdel _ hthread
          exact ⟨e, H.sent he, hsource⟩
        | _ => trivial
      have hloop : b.inRaftLoop → (C.nodes i).raftLoop = (c.hosts i).node.raftLoop := by
        intro hb'
        generalize hh : c.hosts i = h₀ at hs
        cases hs with
        | @thread m m' b' _ file d _ _ hfile =>
          cases hb
          obtain ⟨f, rfl⟩ := Option.isSome_iff_exists.mp (hfile hb')
          exact hh ▸ (H.host i).raftLoop f (by rw [hh])
        | start _ _ _ =>
          cases hb
          cases hb'
        | _ => cases hb
      have hstep := Cluster.step_of_node hi hdel' hn
      refine ⟨_, .single ⟨(i, b), H.visible hP hloop (hl b hb), hstep⟩, H.wf.step hstep,
        H.fit.step H.wf hstep, fun j => ?_, fun e he => ?_⟩
      · by_cases hj : j = i
        · subst hj
          rw [hself, Cluster.update_self]
          exact hshows
        · exact hothers j hj (Cluster.update_of_ne hj ..)
      · rcases List.mem_append.mp he with he | he
        · exact Cluster.mem_update.mpr (.inl (H.sent he))
        · obtain ⟨x, hx, rfl⟩ := List.mem_map.mp he
          exact Cluster.mem_update.mpr (.inr ⟨x, hx, rfl⟩)
    · obtain ⟨C', hrun, hnode, hsame, hnetwork, hsent⟩ := Cluster.run_of_steps hP hi has hsteps
      obtain ⟨hwf, hfit⟩ := Cluster.terms_fit hrun H.wf H.fit
      refine ⟨C', hrun, hwf, hfit, fun j => ?_, fun e he => ?_⟩
      · by_cases hj : j = i
        · subst hj
          rw [hself, hnode]
          exact hshows
        · exact hothers j hj (hsame j hj)
      · rcases List.mem_append.mp he with he | he
        · exact hnetwork (H.sent he)
        · obtain ⟨x, hx, rfl⟩ := List.mem_map.mp he
          exact hsent x (hsub hx)

theorem shows_run (hP : Cluster.Visible P)
    (hapart : ∀ i ∈ cfg.ids, FileMoF.Apart site.draws site.tempDir (persistencePath i))
    (H : c.Shows site cfg C) (hrun : Reaches site cfg P c c') :
    ∃ C', Run (Cluster.step cfg) P C C' ∧ c'.Shows site cfg C' := by
  induction hrun with
  | refl => exact ⟨C, .refl, H⟩
  | tail _ hs ih =>
    obtain ⟨l, hl, hs⟩ := hs
    obtain ⟨C', hrun, H'⟩ := ih
    obtain ⟨C'', hrun', H''⟩ := H'.step hP hapart hl hs
    exact ⟨C'', hrun.trans hrun', H''⟩

/-- **Refinement**: what hosts go through is a run of the cluster. It shows what the hosts are, and it
has sent what they have. -/
theorem refines_cluster {c₀ : Hosts (StoreCommand k v)} (hP : Cluster.Visible P)
    (hapart : ∀ i ∈ cfg.ids, FileMoF.Apart site.draws site.tempDir (persistencePath i))
    (hfresh : c₀.Fresh cfg) (hrun : Reaches site cfg P c₀ c) :
    ∃ C, Run (Cluster.step cfg) P (.boot cfg) C ∧ c.Shows site cfg C :=
  shows_run hP hapart hfresh.shows hrun

/-! ## What holds of hosts -/

section

variable {c₀ : Hosts (StoreCommand k v)} {i j : String}
  (hapart : ∀ i ∈ cfg.ids, FileMoF.Apart site.draws site.tempDir (persistencePath i))
  (hfresh : c₀.Fresh cfg)

include hapart hfresh

/-- At every moment, a host that is killed and started again would know of every response and of
every vote it has sent. -/
theorem restored_backs (hrun : Reaches site cfg Cluster.CrashesPersisted c₀ c) (i : String) :
    ∃ p, (c.hosts i).restored i = .ok p ∧ p.InRange ∧
      ∀ e ∈ c.network, e.source = i → Backs p.ballot e := by
  obtain ⟨C, hrun, H⟩ := shows_run Cluster.visible_crashesPersisted hapart hfresh.shows hrun
  have hdurable := (Cluster.durable_run hrun).2 i
  refine ⟨_, (H.host i).stored, (H.fit.node i).stored, fun e he hi => ?_⟩
  have hfile : ∃ b ∈ (C.nodes i).backups i, b.1 = (C.nodes i).stored.ballot := by
    unfold Node.backups
    split <;> simp
  obtain ⟨b, hb, hballot⟩ := hfile
  have hsent : e ∈ C.sentBy i := List.mem_filter.mpr ⟨H.sent he, by simpa using hi⟩
  exact hballot ▸ hdurable.backed b hb e (List.mem_append_left _ hsent)

/-- A term has at most one leader, now or later, if hosts are started only when the terms of their
elections are in their files. -/
theorem one_leader (hrun : Reaches site cfg Cluster.CrashesPersisted c₀ c)
    (hrun' : Reaches site cfg Cluster.CrashesPersisted c c')
    (hlead : (c.hosts i).node.state.isLeader) (hlead' : (c'.hosts j).node.state.isLeader)
    (hterm : (c.hosts i).node.state.c.currentTerm = (c'.hosts j).node.state.c.currentTerm) :
    i = j := by
  obtain ⟨C, hrun, H⟩ := shows_run Cluster.visible_crashesPersisted hapart hfresh.shows hrun
  obtain ⟨C', hrun', H'⟩ := shows_run Cluster.visible_crashesPersisted hapart H hrun'
  rw [← H.state] at hlead hterm
  rw [← H'.state] at hlead' hterm
  exact Cluster.one_leader_per_term hrun hrun' hlead hlead' hterm

/-- **Safety of Raft** for hosts that are started only when their files are up to date. -/
theorem safe_hosts (hrun : Reaches site cfg Cluster.Recoverable c₀ c)
    (hrun' : Reaches site cfg Cluster.Recoverable c c') : Cluster.Safe cfg c.view c'.view := by
  obtain ⟨C, hrun, H⟩ := shows_run Cluster.visible_recoverable hapart hfresh.shows hrun
  obtain ⟨C', hrun', H'⟩ := shows_run Cluster.visible_recoverable hapart H hrun'
  obtain ⟨g, -, hg⟩ := Cluster.survival_run hrun (Cluster.survives_boot cfg)
  obtain ⟨g', hsteps, hg'⟩ := Cluster.survival_run hrun' hg
  exact (hg.safe hg' (hg.inv.steps hsteps).2).congr
    (fun i => ⟨(H.state i).symm, (H.history i).symm⟩)
    fun i => ⟨(H'.state i).symm, (H'.history i).symm⟩

end

end Hosts

/-! ## A run in which nothing fails -/

namespace Hosts

variable {site : Site} {cfg : Config String} {c : Hosts (StoreCommand k v)} {i : String}
  {C C' : Cluster String (StoreCommand k v)} {a : Action String (StoreCommand k v)}
  {P : Cluster String (StoreCommand k v) → Label String (StoreCommand k v) → Prop}

/-- The hosts are the nodes of a cluster, and those in `up` are running. -/
structure Mirrors (c : Hosts (StoreCommand k v)) (C : Cluster String (StoreCommand k v))
    (up : String → Option FileMoF) : Prop where
  node : ∀ i, (c.hosts i).node = C.nodes i
  stored : ∀ i, (c.hosts i).restored i = .ok (C.nodes i).stored
  process : ∀ i, (c.hosts i).process = (up i).elim .down fun f => .running (some f)
  network : c.network = C.network

variable {up : String → Option FileMoF}

theorem Mirrors.view (H : Mirrors c C up) : c.view = C := by
  obtain ⟨nodes, network⟩ := C
  refine (Cluster.mk.injEq ..).mpr ⟨funext fun i => ?_, H.network⟩
  have hnode := H.node i
  have hstored := H.stored i
  simp only at hnode hstored ⊢
  rw [hstored, hnode]
  rfl

/-- One host does what its node does. -/
theorem Mirrors.step (H : Mirrors c C up) {b : HostAction (StoreCommand k v)}
    {n : Node String (StoreCommand k v)} {msgs : Outgoing String (StoreCommand k v)}
    {up' : String → Option FileMoF} {d : Disk} (hs : C.step cfg (i, a) = .ok C')
    (hn : (C.nodes i).step a = .ok (n, msgs)) (hP : P C (i, a))
    (hb : b.action = some a ∨ b.action = none) (hdel : ∀ b', b = .thread b' → b' = a)
    (hstep : Host.Step site cfg i ⟨C.nodes i, (c.hosts i).process, (c.hosts i).disk⟩ b
      ⟨n, (up' i).elim .down fun f => .running (some f), d⟩ msgs)
    (hstored : (⟨n, .down, d⟩ : Host (StoreCommand k v)).restored i = .ok n.stored)
    (hup : ∀ j, j ≠ i → up' j = up j) :
    ∃ c', Reaches site cfg P c c' ∧ Mirrors c' C' up' ∧ (c'.hosts i).disk = d ∧
      ∀ j, j ≠ i → (c'.hosts j).disk = (c.hosts j).disk := by
  obtain ⟨hi, hdeliver, n', msgs', hn', rfl⟩ := Cluster.step_eq_ok hs
  obtain ⟨rfl, rfl⟩ := Prod.mk.inj (Except.ok.inj (hn.symm.trans hn'))
  have hhost : c.hosts i = ⟨C.nodes i, (c.hosts i).process, (c.hosts i).disk⟩ := by
    rw [← H.node i]
  rw [← hhost] at hstep
  have hself : (c.update i ⟨n, (up' i).elim .down fun f => .running (some f), d⟩ msgs).hosts i =
      ⟨n, (up' i).elim .down fun f => .running (some f), d⟩ := if_pos rfl
  have hothers : ∀ j, j ≠ i → (c.update i
      ⟨n, (up' i).elim .down fun f => .running (some f), d⟩ msgs).hosts j = c.hosts j :=
    fun j hj => if_neg hj
  refine ⟨_, .single ⟨(i, b), fun a' ha' => ?_, .host hi (fun b' hb' => ?_) hstep⟩,
    ⟨fun j => ?_, fun j => ?_, fun j => ?_, ?_⟩, by rw [hself], fun j hj => by rw [hothers j hj]⟩
  · rcases hb with hb | hb
    · obtain rfl : a' = a := Option.some.inj (ha'.symm.trans hb)
      exact H.view ▸ hP
    · exact absurd (ha'.symm.trans hb) nofun
  · obtain rfl := hdel b' hb'
    exact H.view ▸ hdeliver
  · by_cases hj : j = i
    · subst hj
      rw [hself, Cluster.update_self]
    · rw [hothers j hj, Cluster.update_of_ne hj]
      exact H.node j
  · by_cases hj : j = i
    · subst hj
      rw [hself, Cluster.update_self]
      exact hstored
    · rw [hothers j hj, Cluster.update_of_ne hj]
      exact H.stored j
  · by_cases hj : j = i
    · subst hj
      rw [hself]
    · rw [hothers j hj, hup j hj]
      exact H.process j
  · exact congrArg (· ++ _) H.network

theorem Mirrors.threads (H : Mirrors c C up)
    {p : Cluster String (StoreCommand k v) → Label String (StoreCommand k v) → Bool}
    {as : List (Label String (StoreCommand k v))}
    (hexec : Run.exec (Cluster.step cfg) p as C = some C') (hp : ∀ C l, p C l = true → P C l)
    (has : ∀ l ∈ as, l.2.onDisk = false ∧ (up l.1).isSome = true) :
    ∃ c', Reaches site cfg P c c' ∧ Mirrors c' C' up ∧
      ∀ j, (c'.hosts j).disk = (c.hosts j).disk := by
  have hrun := Run.of_exec_mem hexec hp
  clear hexec
  induction hrun with
  | refl => exact ⟨c, .refl, H, fun _ => rfl⟩
  | @tail C C' _ hs ih =>
    obtain ⟨c', hreach, H', hdisk⟩ := ih
    obtain ⟨⟨i, a⟩, ⟨hP, hmem⟩, hs⟩ := hs
    obtain ⟨ha, hup⟩ := has _ hmem
    obtain ⟨f, hf⟩ := Option.isSome_iff_exists.mp hup
    obtain ⟨-, -, n, msgs, hn, -⟩ := Cluster.step_eq_ok hs
    have hstored : n.stored = (C.nodes i).stored := Node.stored_eq hn ha
    have hstep : Host.Step site cfg i ⟨C.nodes i, (c'.hosts i).process, (c'.hosts i).disk⟩
        (.thread a) ⟨n, (up i).elim .down fun f => .running (some f), (c'.hosts i).disk⟩ msgs := by
      rw [H'.process i, hf]
      exact .thread hn ha fun _ => rfl
    have hrestored : (⟨n, .down, (c'.hosts i).disk⟩ : Host (StoreCommand k v)).restored i =
        .ok n.stored := by
      rw [hstored, ← H'.stored i]
      exact restored_congr rfl
    obtain ⟨c'', hreach', H'', hd, hothers⟩ := H'.step hs hn hP (.inl rfl)
      (fun b' hb' => (HostAction.thread.inj hb').symm) hstep hrestored fun _ _ => rfl
    refine ⟨c'', hreach.trans hreach', H'', fun j => ?_⟩
    by_cases hj : j = i
    · exact hj ▸ hd.trans (hdisk i)
    · exact (hothers j hj).trans (hdisk j)

theorem Mirrors.start (H : Mirrors c C up) {f : FileMoF} {d : Disk} (hwf : C.WellFormed cfg)
    (hup : up i = none) (hapart : FileMoF.Apart site.draws site.tempDir (persistencePath i))
    (hnew : (FileMoF.new site.tempDir (persistencePath i)).Returns (machine site.draws) ()
      (c.hosts i).disk (.ok f) () d)
    (hs : C.step cfg (i, .crash) = .ok C') (hP : P C (i, .crash)) :
    ∃ c', Reaches site cfg P c c' ∧ Mirrors c' C' (Function.update up i (some f)) ∧
      (c'.hosts i).disk = d ∧ ∀ j, j ≠ i → (c'.hosts j).disk = (c.hosts j).disk := by
  have hstored : ∀ m, (⟨m, .down, (c.hosts i).disk⟩ : Host (StoreCommand k v)).restored i =
      .ok (C.nodes i).stored := by
    intro m
    rw [← H.stored i]
    exact restored_congr rfl
  have hspares := ((FileMoF.always_new hapart).returns hnew).1
  have hstep : Host.Step site cfg i ⟨C.nodes i, (c.hosts i).process, (c.hosts i).disk⟩ .start
      ⟨⟨.new i (cfg.peers i) (C.nodes i).stored, .idle, .idle, (C.nodes i).stored,
        (C.nodes i).history⟩,
        (Function.update up i (some f) i).elim .down fun f => .running (some f), d⟩ [] := by
    rw [H.process i, hup, Function.update_self]
    exact .start (.inl rfl) (hstored (C.nodes i)) hnew
  have hcrash : (C.nodes i).step .crash = .ok (⟨.new i (cfg.peers i) (C.nodes i).stored, .idle,
      .idle, (C.nodes i).stored, (C.nodes i).history⟩, []) := by
    simp only [Node.step, hwf.id, hwf.peers]
    rfl
  have hrestored : ∀ m, (⟨m, .down, d⟩ : Host (StoreCommand k v)).restored i =
      .ok (C.nodes i).stored := fun m =>
    (restored_congr (h := ⟨m, .down, (c.hosts i).disk⟩) hspares.content).trans (hstored m)
  exact H.step (b := .start) hs hcrash hP (.inl rfl) (by simp) hstep (hrestored _)
    fun j hj => Function.update_of_ne hj ..

theorem Mirrors.persist (H : Mirrors c C up) {f f' : FileMoF} {d : Disk} {order : Iteration}
    {p : Persistent String (StoreCommand k v)} {rs : Outgoing String (StoreCommand k v)}
    (hup : up i = some f) (hloop : (C.nodes i).raftLoop = .snapshotted p rs) (hp : p.InRange)
    (hapart : FileMoF.Apart site.draws site.tempDir (persistencePath i))
    (hidle : FileMoF.Idle site.tempDir (persistencePath i) f (c.hosts i).disk)
    (hcycle : (FileMoF.persistCycle site.tempDir (p.persist order)).Returns (machine site.draws) f
      (c.hosts i).disk (.ok ()) f' d)
    (hs : C.step cfg (i, .persist true) = .ok C') (hP : P C (i, .persist true)) :
    ∃ c', Reaches site cfg P c c' ∧ Mirrors c' C' (Function.update up i (some f')) := by
  have hcontent := ((FileMoF.always_persistCycle _ hapart hidle).returns hcycle).2 rfl
  have hnode : (C.nodes i).step (.persist true) =
      .ok ({ C.nodes i with stored := p.wire, raftLoop := .persisted rs }, []) := by
    simp only [Node.step, hloop]
    rfl
  have hstep : Host.Step site cfg i ⟨C.nodes i, (c.hosts i).process, (c.hosts i).disk⟩
      (.persist order) ⟨{ C.nodes i with stored := p.wire, raftLoop := .persisted rs },
        (Function.update up i (some f') i).elim .down fun f => .running (some f), d⟩ [] := by
    rw [H.process i, hup, Function.update_self]
    exact .persist hloop hcycle (by simp) hnode
  have hrestored : (⟨{ C.nodes i with stored := p.wire, raftLoop := .persisted rs }, .down, d⟩ :
      Host (StoreCommand k v)).restored i = .ok p.wire := restored_persist hp hcontent.1
  obtain ⟨c', hreach, H', -⟩ := H.step (b := .persist order) hs hnode hP (.inr rfl) (by simp) hstep
    hrestored fun j hj => Function.update_of_ne hj ..
  exact ⟨c', hreach, H'⟩

end Hosts

namespace Example

open FileMoF (exists_persisted)

def machineRoom : Site := ⟨"/tmp", fun _ => true⟩

/-- Two hosts that have never been started. -/
def newHosts : Hosts (StoreCommand .u64 .i64) :=
  ⟨fun i => ⟨.boot i (pair.peers i), .down, .empty⟩, []⟩

theorem fresh_newHosts : newHosts.Fresh pair := ⟨fun _ => rfl, fun _ => rfl, fun _ => .inl rfl, rfl⟩

theorem apart_machineRoom (i : String) :
    FileMoF.Apart machineRoom.draws machineRoom.tempDir (persistencePath i) := by
  intro ns name _ _ h
  have hdir : "./node" ≠ "/tmp" := by decide
  exact hdir (congrArg Files.Path.dir h)

/-- The vote of `b` for `a`. -/
def ballotPaper : Persistent String (StoreCommand .u64 .i64) := ⟨1, some "a", ⟨[]⟩⟩

/-- `a` asks for a vote, and `b` takes a snapshot after it has voted. -/
def asked : List (Label String (StoreCommand .u64 .i64)) :=
  [("a", .election (at_ 1)), ("b", .receive "a" (.requestVote 1 none none)),
    ("b", .handle (at_ 0)), ("b", .snapshot)]

/-- The vote gets to `a`, which is elected. -/
def voted : List (Label String (StoreCommand .u64 .i64)) :=
  [("b", .respond), ("a", .receive "b" (.requestVoteResponse 1 true)), ("a", .handle (at_ 0))]

/-- The conditions that the results above put on runs. -/
def obeys (c : Cluster String (StoreCommand .u64 .i64))
    (l : Label String (StoreCommand .u64 .i64)) : Bool :=
  decide (Cluster.Recoverable c l) && decide (Cluster.CrashesPersisted c l)

/-- What is on its way to the file of `b`, and at the end the role and the term of `a`. -/
def observed (t w : Cluster String (StoreCommand .u64 .i64)) :
    Option (Persistent String (StoreCommand .u64 .i64)) × Bool × Term :=
  (match (t.nodes "b").raftLoop with
    | .snapshotted p _ => some p
    | _ => none,
    (w.nodes "a").state.isLeader, (w.nodes "a").state.c.currentTerm)

/-- `a` is elected, and then the process of its voter is killed. -/
theorem exists_elected
    {P : Cluster String (StoreCommand .u64 .i64) → Label String (StoreCommand .u64 .i64) → Prop}
    (hP : ∀ c l, obeys c l = true → P c l) :
    ∃ c c', Hosts.Reaches machineRoom pair P newHosts c ∧ Hosts.Reaches machineRoom pair P c c' ∧
      (c.hosts "a").node.state.isLeader = true ∧ (c.hosts "a").node.state.c.currentTerm = 1 ∧
      (c'.hosts "a").node.state.isLeader = true ∧ (c'.hosts "a").node.state.c.currentTerm = 1 ∧
      (c'.hosts "b").process = .down := by
  have hexec : ((Run.exec (Cluster.step pair) obeys [("a", .crash)] (.boot pair)).bind fun r =>
      (Run.exec (Cluster.step pair) obeys [("b", .crash)] r).bind fun s =>
        (Run.exec (Cluster.step pair) obeys asked s).bind fun t =>
          (Run.exec (Cluster.step pair) obeys [("b", .persist true)] t).bind fun u =>
            (Run.exec (Cluster.step pair) obeys voted u).map (observed t)) =
      some (some ballotPaper, true, 1) := by
    decide +kernel
  obtain ⟨r, hr, hexec⟩ := Option.bind_eq_some_iff.mp hexec
  obtain ⟨s, hs, hexec⟩ := Option.bind_eq_some_iff.mp hexec
  obtain ⟨t, ht, hexec⟩ := Option.bind_eq_some_iff.mp hexec
  obtain ⟨u, hu, hexec⟩ := Option.bind_eq_some_iff.mp hexec
  obtain ⟨w, hw, hobserved⟩ := Option.map_eq_some_iff.mp hexec
  obtain ⟨hPr, hr⟩ := Run.exec_singleton hr
  obtain ⟨hPs, hs⟩ := Run.exec_singleton hs
  obtain ⟨hPu, hu⟩ := Run.exec_singleton hu
  obtain ⟨hpaper, hleader⟩ := Prod.mk.inj hobserved
  obtain ⟨hlead, hterm⟩ := Prod.mk.inj hleader
  have hdir : ∀ i, (persistencePath i).dir ≠ machineRoom.tempDir := by
    intro i
    have hdir : "./node" ≠ "/tmp" := by decide
    exact hdir
  have hbytes : ballotPaper.persist backwards ≠ [] ∧
      (ballotPaper.persist backwards).length < BufWriter.capacity := by
    decide +kernel
  have hfiles : ∀ i, ∃ f d₁ f' d', (FileMoF.new machineRoom.tempDir (persistencePath i)).Returns
      (machine machineRoom.draws) () .empty (.ok f) () d₁ ∧
        (FileMoF.persistCycle machineRoom.tempDir (ballotPaper.persist backwards)).Returns
          (machine machineRoom.draws) f d₁ (.ok ()) f' d' := by
    intro i
    obtain ⟨f, d₁, f', d', hnew, hcycle, -⟩ := exists_persisted machineRoom.draws .empty (hdir i) rfl
      (fun _ => rfl) hbytes.1 hbytes.2
    exact ⟨f, d₁, f', d', hnew, hcycle⟩
  obtain ⟨fa, da, -, -, hnewa, -⟩ := hfiles "a"
  obtain ⟨fb, db, fb', db', hnewb, hcycle⟩ := hfiles "b"
  -- Both hosts are started.
  have hmirrors : newHosts.Mirrors (Cluster.boot pair) fun _ => none :=
    ⟨fun _ => rfl, fun _ => rfl, fun _ => rfl, rfl⟩
  obtain ⟨c₁, hreach₁, H₁, -, hdisk₁⟩ := hmirrors.start .boot rfl (apart_machineRoom _) hnewa hr
    (hP _ _ hPr)
  have hwf : r.WellFormed pair := Cluster.WellFormed.boot.step hr
  have hfresh : (c₁.hosts "b").disk = .empty := hdisk₁ "b" (by decide)
  obtain ⟨c₂, hreach₂, H₂, hdisk₂, -⟩ := H₁.start hwf rfl (apart_machineRoom _) (hfresh ▸ hnewb) hs
    (hP _ _ hPs)
  have hup : ∀ {as : List (Label String (StoreCommand .u64 .i64))} {f : FileMoF},
      (as.all fun l => !l.2.onDisk && (l.1 == "a" || l.1 == "b")) = true → ∀ l ∈ as,
        l.2.onDisk = false ∧ (Function.update (Function.update (fun _ => none) "a" (some fa)) "b"
          (some f) l.1).isSome = true := by
    intro as f has l hl
    have h := List.all_eq_true.mp has l hl
    simp only [Bool.and_eq_true, Bool.not_eq_true', Bool.or_eq_true, beq_iff_eq] at h
    refine ⟨h.1, ?_⟩
    rcases h.2 with ha | hb
    · rw [ha]
      rfl
    · rw [hb]
      rfl
  obtain ⟨c₃, hreach₃, H₃, hdisk₃⟩ := H₂.threads ht hP (hup (by decide))
  -- `b` persists its vote.
  obtain ⟨rs, hloop⟩ : ∃ rs, (t.nodes "b").raftLoop = .snapshotted ballotPaper rs := by
    split at hpaper
    · next p rs hp => exact ⟨rs, Option.some.inj hpaper ▸ hp⟩
    · cases hpaper
  have hrange : ballotPaper.InRange := ⟨by decide, by simp [ballotPaper]⟩
  have hidle := ((FileMoF.always_new (apart_machineRoom "b")).returns hnewb).2 fb rfl
  have hdisk : (c₃.hosts "b").disk = db := (hdisk₃ "b").trans hdisk₂
  obtain ⟨c₄, hreach₄, H₄⟩ := H₃.persist (Function.update_self ..) hloop hrange
    (apart_machineRoom "b") (hdisk ▸ hidle) (hdisk ▸ hcycle) hu (hP _ _ hPu)
  rw [Function.update_idem] at H₄
  obtain ⟨c₅, hreach₅, H₅, -⟩ : ∃ c', Hosts.Reaches machineRoom pair P c₄ c' ∧
      Hosts.Mirrors c' w _ ∧ _ := H₄.threads hw hP (hup (by decide))
  have hrunning : c₅.hosts "b" = ⟨(c₅.hosts "b").node, .running (some fb'), (c₅.hosts "b").disk⟩ := by
    have hprocess := H₅.process "b"
    rw [Function.update_self] at hprocess
    change _ = Process.running (some fb') at hprocess
    rw [← hprocess]
  have hkill : Host.Step machineRoom pair "b" (c₅.hosts "b") .kill
      ⟨(c₅.hosts "b").node, .down, (c₅.hosts "b").disk⟩ [] := by
    rw [hrunning]
    exact .kill
  have hnode : (c₅.hosts "a").node = w.nodes "a" := H₅.node "a"
  refine ⟨c₅, _, (((hreach₁.trans hreach₂).trans hreach₃).trans hreach₄).trans hreach₅,
    .single ⟨("b", .kill), nofun, .host (by decide) nofun hkill⟩, hnode ▸ hlead, hnode ▸ hterm, ?_⟩
  have ha : ("a" : String) ≠ "b" := by decide
  simp only [Hosts.update, if_neg ha, if_true, hnode]
  exact ⟨hlead, hterm, trivial⟩

theorem recoverable_of_obeys {c : Cluster String (StoreCommand .u64 .i64)}
    {l : Label String (StoreCommand .u64 .i64)} (h : obeys c l = true) : c.Recoverable l :=
  of_decide_eq_true (Bool.and_eq_true_iff.mp h).1

theorem crashesPersisted_of_obeys {c : Cluster String (StoreCommand .u64 .i64)}
    {l : Label String (StoreCommand .u64 .i64)} (h : obeys c l = true) : c.CrashesPersisted l :=
  of_decide_eq_true (Bool.and_eq_true_iff.mp h).2

theorem refines_cluster_elected : ∃ c c', Hosts.Reaches machineRoom pair Cluster.Recoverable newHosts c ∧
    (c.hosts "a").node.state.isLeader = true ∧
    Run (Cluster.step pair) Cluster.Recoverable (.boot pair) c' ∧ c.Shows machineRoom pair c' := by
  obtain ⟨c, -, hreach, -, hlead, -⟩ := exists_elected fun _ _ => recoverable_of_obeys
  obtain ⟨c', hrun, hshows⟩ := Hosts.refines_cluster Cluster.visible_recoverable
    (fun i _ => apart_machineRoom i) fresh_newHosts hreach
  exact ⟨c, c', hreach, hlead, hrun, hshows⟩

theorem restored_backs_elected : ∃ c : Hosts (StoreCommand .u64 .i64),
    Hosts.Reaches machineRoom pair Cluster.CrashesPersisted newHosts c ∧
      (c.hosts "b").process = .down ∧ ∀ i, ∃ p, (c.hosts i).restored i = .ok p ∧ p.InRange ∧
        ∀ e ∈ c.network, e.source = i → Backs p.ballot e := by
  obtain ⟨c, c', hreach, hreach', -, -, -, -, hdown⟩ :=
    exists_elected fun _ _ => crashesPersisted_of_obeys
  exact ⟨c', hreach.trans hreach', hdown, fun i => Hosts.restored_backs
    (fun i _ => apart_machineRoom i) fresh_newHosts (hreach.trans hreach') i⟩

theorem one_leader_elected : ∃ c c' : Hosts (StoreCommand .u64 .i64),
    Hosts.Reaches machineRoom pair Cluster.CrashesPersisted newHosts c ∧
      Hosts.Reaches machineRoom pair Cluster.CrashesPersisted c c' ∧
      (c.hosts "a").node.state.isLeader = true ∧ (c'.hosts "b").process = .down ∧
      ∀ j, (c'.hosts j).node.state.isLeader → 1 = (c'.hosts j).node.state.c.currentTerm →
        "a" = j := by
  obtain ⟨c, c', hreach, hreach', hlead, hterm, -, -, hdown⟩ :=
    exists_elected fun _ _ => crashesPersisted_of_obeys
  refine ⟨c, c', hreach, hreach', hlead, hdown, fun j hlead' hterm' => ?_⟩
  exact Hosts.one_leader (fun i _ => apart_machineRoom i) fresh_newHosts hreach hreach' hlead
    hlead' (hterm.trans hterm')

theorem safe_hosts_elected : ∃ c c' : Hosts (StoreCommand .u64 .i64),
    Hosts.Reaches machineRoom pair Cluster.Recoverable newHosts c ∧
      Hosts.Reaches machineRoom pair Cluster.Recoverable c c' ∧
      (c.hosts "a").node.state.isLeader = true ∧ Cluster.Safe pair c.view c'.view := by
  obtain ⟨c, c', hreach, hreach', hlead, -⟩ := exists_elected fun _ _ => recoverable_of_obeys
  exact ⟨c, c', hreach, hreach', hlead,
    Hosts.safe_hosts (fun i _ => apart_machineRoom i) fresh_newHosts hreach hreach'⟩

end Example

end Miniraft
