import Miniraft.Raft.Persistence
import Miniraft.Verify.Wire

/-!
# Persisted state is restored

A snapshot that was persisted is restored as it was, but for the fields for replies of its commands,
and the follower that starts from it has the same snapshot (`restore_persisted`).
-/

namespace Miniraft

open Json

section

variable {K V Cmd : Type} [Serialize Cmd] [Deserialize Cmd] [Wire Cmd]

/-- The terms are those of `u64`s. -/
def Persistent.InRange {NodeID Cmd : Type} (p : Persistent NodeID Cmd) : Prop :=
  p.currentTerm < 2 ^ 64 ∧ ∀ e ∈ p.log.inner, e.term < 2 ^ 64

theorem codes_votedFor (votedFor : Option String) : Codes 1 votedFor votedFor :=
  codes_option fun id _ => ⟨codes_string id, nofun⟩

theorem codes_persistent (hcmd : ∀ cmd : Cmd, Codes 2 cmd (wire cmd)) {p : Persistent String Cmd}
    (h : p.InRange) : Codes 5 p p.wire := by
  obtain ⟨hterm, hlog⟩ := h
  refine codes_ofFields ["current_term", "voted_for", "log"] rfl rfl (by decide)
    (.cons ((codes_nat hterm).mono (by decide))
      (.cons ((codes_votedFor p.votedFor).mono (by decide)) (.cons (codes_log hcmd hlog) .nil))) ?_
  rintro fs ⟨⟨w₁, hw₁, h₁⟩, ⟨w₂, hw₂, h₂⟩, ⟨w₃, hw₃, h₃⟩, -⟩
  rw [deserialize, instDeserializePersistent]
  simp only [removeKey, lookup_remove, String.reduceEq, if_false, hw₁, h₁, hw₂, h₂, hw₃, h₃]
  rfl

theorem restore_persist (hcmd : ∀ cmd : Cmd, Codes 2 cmd (wire cmd)) (order : Iteration)
    {p : Persistent String Cmd} (h : p.InRange) :
    Persistent.restore (p.persist order) = .ok p.wire := by
  have hcodes : Codes 5 p p.wire := codes_persistent hcmd h
  obtain ⟨hprintable, hplain⟩ := hcodes.printable (by decide) (order.same (serialize p))
  have hparse : parse (p.persist order) = .ok (order.reorder (serialize p)) := by
    have hparse := parse_print hprintable hplain Ws.nil
    rwa [List.append_nil] at hparse
  rw [Persistent.restore, hparse]
  exact congrArg (Except.mapError _) (hcodes.reads _ (order.same (serialize p)))

end

/-- A follower votes for the one whom the snapshot names. -/
theorem persistent_new {NodeID Cmd : Type} [DecidableEq NodeID] (id : NodeID) (nodeIds : List NodeID)
    (p : Persistent NodeID Cmd) : (State.new id nodeIds p).persistent = .ok p := rfl

/-- A snapshot is restored as it was persisted, but for the fields for replies of its commands. The
follower that starts from it, whatever its ID and its peers, has the same snapshot. -/
theorem restore_persisted (k v : Scalar) (order : Iteration)
    {p : Persistent String (Command String k.Carrier v.Carrier)} (h : p.InRange) :
    Persistent.restore (p.persist order) = .ok p.wire ∧
      ∀ id nodeIds, (State.new id nodeIds p.wire).persistent = .ok p.wire :=
  ⟨restore_persist (codes_command (codes_scalar k) (codes_scalar v)) order h,
    fun id nodeIds => persistent_new id nodeIds p.wire⟩

namespace Example

/-- A voter whose log has a command with all its fields for replies, and a value that is escaped. -/
def ledger : Persistent String (Command String Int64 String) :=
  ⟨2 ^ 64 - 1, some "n\"1", ⟨[⟨⟨.cas (-1) "\n" "ß", some 1, some 2, some "c1", true⟩, 3⟩]⟩⟩

theorem restore_ledger :
    (Persistent.restore (ledger.persist backwards) :
          Except _ (Persistent String (Command String Int64 String))) =
        .ok ⟨2 ^ 64 - 1, some "n\"1", ⟨[⟨⟨.cas (-1) "\n" "ß", none, none, none, false⟩, 3⟩]⟩⟩ ∧
      ∀ id nodeIds, (State.new id nodeIds ledger.wire).persistent = .ok ledger.wire := by
  have h : ledger.InRange := by simp [ledger, Persistent.InRange]
  exact restore_persisted .i64 .string backwards h

end Example

end Miniraft
